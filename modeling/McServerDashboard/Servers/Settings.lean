import Mathlib.Order.Nat
import McServerDashboard.Servers.Frames

/-!
# Settings updates that are kept

`update_lifecycle` rewrites the config column from the row its caller has read. Placements and
settings updates hold the lifecycle lock from that read to their write; the other flows do not.

* **`edits_kept`**: while no settings update commits between the read and the write of a flow
  without the lock, the config derives from every acknowledged update.
* `stop_reverts`: a stop that read the row before an update and flips it after.
-/

namespace McServerDashboard.Lifecycle

open Lib Servers

variable {s s' : State} {t u : ℕ} {p q : Pc} {a : Action} {r : Row}

/-- No settings update was committed since the flow has read the row that it now writes back. -/
def NoEditBetween (c : Conf) (x : ℕ × Action) : Prop :=
  match x.2 with
  | .step _ => ∀ r ∈ (c.th x.1).stale, c.shared.row.desired = .running → r.edits = c.shared.row.edits
  | _ => True

instance (c : Conf) (x : ℕ × Action) : Decidable (NoEditBetween c x) := by
  obtain ⟨t, a⟩ := x
  induction a using Action.casesOn <;> (dsimp only [NoEditBetween]; infer_instance)

/-- The row's config derives from every acknowledged update. -/
structure Kept (s : State) : Prop where
  config : ∀ k ∈ s.acked, k ∈ s.row.config
  edits : s.row.edits = s.acked.length

/-- What was read of the row is as old as the updates it lacks. -/
def Read (s : State) (r : Row) : Prop :=
  r.edits ≤ s.row.edits ∧ (r.edits = s.row.edits → ∀ k ∈ s.acked, k ∈ r.config)

structure Reads (s : State) (t : ℕ) (p : Pc) : Prop where
  locks : p.locks = true → s.lock = some t
  guarded : ∀ r, p.guarded = some r → ∀ k ∈ s.acked, k ∈ r.config
  stale : ∀ r, p.stale = some r → Read s r

/-- What a step of `t` leaves to the others. -/
structure Untouched (s s' : State) (t : ℕ) : Prop where
  lock : ∀ u, u ≠ t → s.lock = some u → s'.lock = some u ∧ s'.acked = s.acked
  edits : s'.acked = s.acked ∧ s'.row.edits = s.row.edits ∨ s.row.edits < s'.row.edits

/-- What was read stays as old as the updates it lacks. -/
theorem Read.later (h : Read s r)
    (he : s'.acked = s.acked ∧ s'.row.edits = s.row.edits ∨ s.row.edits < s'.row.edits) : Read s' r := by
  obtain ⟨hle, heq⟩ := h
  rcases he with ⟨ha, he⟩ | hlt
  · rw [Read, ha, he]
    exact ⟨hle, heq⟩
  · exact ⟨hle.trans hlt.le, fun h => by omega⟩

theorem Untouched.reads (h : Untouched s s' t) (hu : u ≠ t) (hr : Reads s u p) : Reads s' u p where
  locks hp := (h.lock u hu (hr.locks hp)).1
  guarded r hp := by
    rw [(h.lock u hu (hr.locks (Pc.locks_of_guarded hp))).2]
    exact hr.guarded r hp
  stale r hp := (hr.stale r hp).later h.edits

/-! ## The row's config -/

/-- A write leaves the config, or takes it over from a row that was read, or is a settings update. -/
theorem Writes.config {row : Row} (hw : Writes t s p a row) :
    row.edits = s.row.edits ∧ (row.config = s.row.config ∨
        (∃ r x, p.stale = some r ∧ a = .step x ∧ row.config = r.config ∧ s.row.desired = .running) ∨
        ∃ r, p.guarded = some r ∧ row.config = r.config) ∨
      ∃ r x, p = .updating r ∧ a = .step x ∧ x.ok = true ∧ row = s.row.update r.config t := by
  cases hw with
  | place x hx hu =>
    rw [(updateLifecycle_eq_some.mp hu).2]
    exact .inl ⟨rfl, .inr (.inr ⟨_, rfl, rfl⟩)⟩
  | compensate x hu | unassign x hu | restart x hu | drain x hu | flip x hu hr =>
    obtain ⟨⟨hd, -⟩, rfl⟩ := updateLifecycle_eq_some.mp hu
    exact .inl ⟨rfl, .inr (.inl ⟨_, x, rfl, rfl, rfl, hd⟩)⟩
  | settings x hx => exact .inr ⟨_, x, rfl, rfl, hx, rfl⟩
  | observe o now w _ hu =>
    obtain ⟨o', t', rfl⟩ := recordObservedState_of_some hu
    exact .inl ⟨rfl, .inl rfl⟩
  | markUnknown w now =>
    obtain ⟨o', t', ho⟩ := markWorkerServersUnknown_eq s.row w now
    rw [ho]
    exact .inl ⟨rfl, .inl rfl⟩
  | reset now =>
    obtain ⟨o', t', ho⟩ := resetUnverifiableObservedStates_eq s.row now
    rw [ho]
    exact .inl ⟨rfl, .inl rfl⟩
  | clear x hx hu | lateClear x hu | staleClear x hne hu =>
    rw [(clearAssignment_eq_some.mp hu).2]
    exact .inl ⟨rfl, .inl rfl⟩
  | staleUnknown x hu =>
    rw [(recordObservedState_eq_some.mp hu).2]
    exact .inl ⟨rfl, .inl rfl⟩

/-- What a flow may write back without losing an update. -/
def Fresh (s : State) (p : Pc) (a : Action) : Prop :=
  ∀ x r, a = .step x → p.stale = some r → s.row.desired = .running → r.edits = s.row.edits

/-- **A step keeps every acknowledged update.** -/
theorem kept_post (hk : Kept s) (hr : Reads s t p) (hf : Fresh s p a)
    (ha : (post t s p a).1.acked = s.acked ∨ ∃ r x, p = .updating r ∧ a = .step x ∧ x.ok = true) :
    Kept (post t s p a).1 ∧ ((post t s p a).1.acked = s.acked ∧ (post t s p a).1.row.edits = s.row.edits ∨
      s.row.edits < (post t s p a).1.row.edits) := by
  by_cases hup : ∃ r x, p = .updating r ∧ a = .step x ∧ x.ok = true
  · obtain ⟨r, x, rfl, rfl, hx⟩ := hup
    have hpost : (post t s (.updating r) (.step x)).1 =
        { s with row := s.row.update r.config t, acked := t :: s.acked, lock := none } := by
      show (if x.ok = true then _ else s.unlock : State × Pc).1 = _
      rw [if_pos hx]
    rw [hpost]
    refine ⟨⟨fun k hk' => ?_, congrArg (· + 1) hk.edits⟩, .inr (Nat.lt_succ_self _)⟩
    rcases List.mem_cons.mp hk' with rfl | hk'
    · exact List.mem_cons_self
    · exact List.mem_cons_of_mem _ (hr.guarded r rfl k hk')
  · have ha := ha.resolve_right hup
    rcases writes_post (t := t) (s := s) (p := p) (a := a) with hrow | hw
    · rw [hrow]
      exact ⟨⟨fun k h => by rw [hrow]; exact hk.config k (ha ▸ h), by rw [hrow, ha]; exact hk.edits⟩,
        .inl ⟨ha, rfl⟩⟩
    · rcases hw.config with ⟨he, hconf⟩ | ⟨r, x, hp, hx, hok, -⟩
      · refine ⟨⟨fun k h => ?_, by rw [he, ha]; exact hk.edits⟩, .inl ⟨ha, he⟩⟩
        rw [ha] at h
        rcases hconf with hc | ⟨r, x, hst, hx, hc, hd⟩ | ⟨r, hg, hc⟩
        · rw [hc]
          exact hk.config k h
        · rw [hc]
          exact (hr.stale r hst).2 (hf x r hx hst hd) k h
        · rw [hc]
          exact hr.guarded r hg k h
      · exact absurd ⟨r, x, hp, hx, hok⟩ hup

/-! ## Steps -/

theorem steps_edits (hk : Kept s) (hr : Reads s t p) (hf : Fresh s p a) (hpre : pre t s p a) :
    Kept (post t s p a).1 ∧ Reads (post t s p a).1 t (post t s p a).2 ∧ Untouched s (post t s p a).1 t := by
  have hl := moves_post hr.locks hpre
  obtain ⟨hk', he⟩ := kept_post hk hr hf hl.acked
  refine ⟨hk', ⟨hl.own, fun r hg => ?_, fun r hs => ?_⟩, ⟨fun u hu hlock => ⟨hl.lock u hu hlock, ?_⟩, he⟩⟩
  · obtain ⟨hg' | rfl, ha⟩ := hl.guarded r hg <;> rw [ha]
    · exact hr.guarded r hg'
    · exact hk.config
  · rcases hl.stale r hs with hq | rfl
    · exact (hr.stale r (hq ▸ hs)).later he
    · exact Read.later (s := s) ⟨le_rfl, fun _ => hk.config⟩ he
  · rcases hl.acked with ha | ⟨r, y, rfl, -, -⟩
    · exact ha
    · exact absurd (Option.some.inj (hlock.symm.trans (hr.locks rfl))) hu

theorem holds_start_edits : Threads.Holds Kept Reads start := by
  refine ⟨⟨fun k hk => ?_, rfl⟩, fun t => ⟨fun h => ?_, fun r h => ?_, fun r h => ?_⟩⟩
  · cases hk
  · cases h
  · cases h
  · cases h

/-- **Settings updates are kept.** In every run in which no settings update commits between the read
and the write of a flow without the lifecycle lock, the config column derives from every acknowledged
update. -/
theorem edits_kept {c : Conf} (h : threads.machine.Reach NoEditBetween start c) :
    ∀ k ∈ c.shared.acked, k ∈ c.shared.row.config := by
  have hc : Threads.Holds Kept Reads c :=
    Threads.invariant h holds_start_edits fun c t a hc hpre hP => by
      have hf : Fresh c.shared (c.th t) a := fun x r hx hs hd => by
        subst hx
        exact hP r hs hd
      obtain ⟨hk, hr, hu⟩ := steps_edits hc.shared (hc.thread t) hf hpre
      exact ⟨hk, hr, fun u hne hr => hu.reads hne hr⟩
  exact hc.shared.config

/-- An update of a running server, and a stop that reads the row after it. -/
theorem edits_kept_stop : ∃ c : Conf, threads.machine.Reach NoEditBetween start c ∧
    (c.shared.acked = [2] ∧ c.shared.row.desired = .stopped) ∧
      ∀ k ∈ c.shared.acked, k ∈ c.shared.row.config := by
  have hrun : ((threads.machine.guard NoEditBetween).exec
      [(1, .startServer), (1, .step ⟨0, true, false, 0⟩), (1, .step ⟨0, true, false, 0⟩),
        (2, .updateServer), (2, .step ⟨0, true, false, 0⟩), (2, .step ⟨0, true, false, 0⟩),
        (3, .stopServer), (3, .step ⟨0, true, false, 0⟩), (3, .step ⟨0, true, false, 0⟩)] start).map
      (fun c => decide (c.shared.acked = [2] ∧ c.shared.row.desired = .stopped)) = some true := by
    decide +kernel
  obtain ⟨c, hc, hb⟩ := Machine.reach_of_exec_map hrun
  exact ⟨c, Machine.reach_of_guard hc, of_decide_eq_true hb, edits_kept (Machine.reach_of_guard hc)⟩

/-- **A stop reverts an update** that commits between its read of the row and its flip. -/
theorem stop_reverts : ∃ c : Conf, threads.machine.Reach Machine.Any start c ∧
    c.shared.acked = [2] ∧ c.shared.row.config = [] := by
  have hrun : (threads.machine.exec
      [(1, .startServer), (1, .step ⟨0, true, false, 0⟩), (1, .step ⟨0, true, false, 0⟩),
        (3, .stopServer), (3, .step ⟨0, true, false, 0⟩),
        (2, .updateServer), (2, .step ⟨0, true, false, 0⟩), (2, .step ⟨0, true, false, 0⟩),
        (3, .step ⟨0, true, false, 0⟩)] start).map
      (fun c => decide (c.shared.acked = [2] ∧ c.shared.row.config = [])) = some true := by
    decide +kernel
  obtain ⟨c, hc, hb⟩ := Machine.reach_of_exec_map hrun
  exact ⟨c, hc, of_decide_eq_true hb⟩

end McServerDashboard.Lifecycle
