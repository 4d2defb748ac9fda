import Mathlib.Order.Nat
import McServerDashboard.Servers.Writes

/-!
# Stop convergence

* `Recorded`: there is at most one final snapshot at a time, the control plane has its record for as
  long as it is outstanding, and meanwhile the row is a stop that holds the assignment.
* **`one_convergence`**: no step changes the assignment while a final snapshot is outstanding, and at
  most one stop-side flow is between its claim and its release.
-/

namespace McServerDashboard.Lifecycle

open Lib Servers

variable {s s' : State} {t u : ℕ} {p q : Pc} {a : Action} {w : WorkerId} {k n : ℕ} {h : Hold}

/-! ## Positions -/

/-- The flow has the claim. -/
def Pc.claims : Pc → Bool
  | .claimed _ => true
  | .flipping _ => true
  | .stopSent _ => true
  | .confirmed _ => true
  | .notFound _ => true
  | .notFoundWrite _ => true
  | .toSnapshot _ _ => true
  | .snapshotting _ _ => true
  | .timedOut _ _ => true
  | .abandoning _ => true
  | .clearing _ caller => caller
  | .cleared caller => caller
  | .staleClear _ _ => true
  | .lateClaimed _ => true
  | .lateClear _ => true
  | _ => false

/-- The flow's release is shielded. -/
def Pc.shields : Pc → Bool
  | .clearing _ _ => true
  | .cleared _ => true
  | _ => false

/-- The flow is between its claim and its release. -/
def Pc.converging (p : Pc) : Bool := p.claims || p.shields

/-- The assignment that a stop holds for the flow. -/
def Pc.hold : Pc → Option Hold
  | .stopSent h => some h
  | .confirmed h => some h
  | .notFound h => some h
  | .notFoundWrite h => some h
  | .toSnapshot h _ => some h
  | .snapshotting h _ => some h
  | .timedOut h _ => some h
  | .abandoning h => some h
  | .clearing h _ => some h
  | .staleClear h _ => some h
  | .lateClear h => some h
  | _ => none

/-- The flow's final snapshot may have a record. -/
def Pc.snapshots : Pc → Bool
  | .snapshotting _ _ => true
  | .timedOut _ _ => true
  | .abandoning _ => true
  | _ => false

/-- The wait for the final snapshot is over without its result. -/
def Pc.givenUp : Pc → Bool
  | .timedOut _ _ => true
  | .abandoning _ => true
  | _ => false

/-! ## The invariant -/

/-- The records of final snapshots. -/
def State.records (s : State) : List (ℕ × WorkerId) := s.snapshotServers ++ s.lateSnapshots

/-- All that is kept of final snapshots. -/
def State.snapshots (s : State) := (s.pending, s.snapshotServers, s.lateSnapshots, s.future, s.queue, s.sent)

structure Recorded (s : State) : Prop where
  pending : s.pending = s.snapshotServers
  unique : ∀ e ∈ s.records, ∀ e' ∈ s.records, e = e'
  wire : ∀ e ∈ s.queue ++ s.sent, e ∈ s.records
  apart : s.queue = [] ∨ s.sent = []
  waiting : ∀ e ∈ s.snapshotServers, s.future e.1 = .waiting ∨ s.future e.1 = .cancelled
  late : ∀ e ∈ s.lateSnapshots, s.future e.1 = .cancelled
  row : ∀ e ∈ s.records, s.row.stopHeld e.2 s.row.placement

structure Inv (s : State) : Prop where
  /-- A claim and a shielded release are one flow's. -/
  agree : ∀ t u, s.claims = some t → s.shielded = some u → t = u
  recorded : Recorded s

structure Ok (s : State) (t : ℕ) (p : Pc) : Prop where
  claims : p.claims = true → s.claims = some t
  shields : p.shields = true → s.shielded = some t
  hold : ∀ h, p.hold = some h → s.row.stopHeld h.worker h.placement
  clean : p.converging = true → p.snapshots = false → s.records = []
  own : p.snapshots = true → ∀ e ∈ s.records, e.1 = t
  given : p.givenUp = true → s.future t ≠ .waiting

/-- What a step of `t` leaves to the flow `u` that is converging. -/
structure Spares (s s' : State) (t : ℕ) : Prop where
  claims : ∀ u, u ≠ t → s.claims = some u → s'.claims = some u
  shielded : ∀ u, u ≠ t → s.shielded = some u → s'.shielded = some u
  row : ∀ u, u ≠ t → s.claims = some u ∨ s.shielded = some u →
    ∀ w k, s.row.stopHeld w k → s'.row.stopHeld w k
  records : ∀ u, u ≠ t → s.claims = some u ∨ s.shielded = some u → ∀ e ∈ s'.records, e ∈ s.records
  future : ∀ u, u ≠ t → s.claims = some u ∨ s.shielded = some u →
    s.future u ≠ .waiting → s'.future u ≠ .waiting

theorem Pc.converging_of_hold (h : p.hold ≠ none) : p.converging = true := by
  cases p <;> simp_all [Pc.hold, Pc.converging, Pc.claims, Pc.shields]

theorem Ok.converging (hok : Ok s t p) (h : p.converging = true) : s.claims = some t ∨ s.shielded = some t := by
  rw [Pc.converging, Bool.or_eq_true] at h
  exact h.imp hok.claims hok.shields

theorem Pc.converging_of_snapshots (h : p.snapshots = true) : p.converging = true := by
  cases p <;> first | rfl | (simp [Pc.snapshots] at h)

theorem Pc.snapshots_of_givenUp (h : p.givenUp = true) : p.snapshots = true := by
  cases p <;> first | rfl | (simp [Pc.givenUp] at h)

theorem Spares.ok (hs : Spares s s' t) (hu : u ≠ t) (hok : Ok s u p) : Ok s' u p where
  claims hp := hs.claims u hu (hok.claims hp)
  shields hp := hs.shielded u hu (hok.shields hp)
  hold h hh := hs.row u hu (hok.converging (Pc.converging_of_hold (by simp [hh]))) _ _ (hok.hold h hh)
  clean hp hn := by
    have hsub := hs.records u hu (hok.converging hp)
    rw [hok.clean hp hn] at hsub
    exact List.eq_nil_iff_forall_not_mem.mpr fun e he => by simpa using hsub e he
  own hp e he := hok.own hp e (hs.records u hu (hok.converging (Pc.converging_of_snapshots hp)) e he)
  given hp := hs.future u hu
    (hok.converging (Pc.converging_of_snapshots (Pc.snapshots_of_givenUp hp))) (hok.given hp)

structure Steps (s : State) (t : ℕ) (r : State × Pc) : Prop where
  inv : Inv r.1
  own : Ok r.1 t r.2
  others : Spares s r.1 t

theorem Spares.refl : Spares s s t :=
  ⟨fun _ _ h => h, fun _ _ h => h, fun _ _ _ _ _ h => h, fun _ _ _ _ h => h, fun _ _ _ h => h⟩

/-- No other flow converges beside the one that has the claim or the shield. -/
theorem Inv.spares (hi : Inv s) (hc : s.claims = some t ∨ s.shielded = some t) : Spares s s' t := by
  have hnone : ∀ u, u ≠ t → ¬ (s.claims = some u ∨ s.shielded = some u) := by
    rintro u hu (hcu | hsu) <;> rcases hc with hct | hst
    · exact hu (Option.some.inj (hcu.symm.trans hct))
    · exact hu (hi.agree u t hcu hst)
    · exact hu (hi.agree t u hct hsu).symm
    · exact hu (Option.some.inj (hsu.symm.trans hst))
  exact ⟨fun u hu h => absurd (.inl h) (hnone u hu), fun u hu h => absurd (.inr h) (hnone u hu),
    fun u hu h => absurd h (hnone u hu), fun u hu h => absurd h (hnone u hu),
    fun u hu h => absurd h (hnone u hu)⟩

/-! ## Steps that keep the records -/

theorem Recorded.keep (hr : Recorded s) (hs : s'.snapshots = s.snapshots)
    (hrow : s.records = [] ∨ ∀ w k, s.row.stopHeld w k → s'.row.stopHeld w k) : Recorded s' := by
  simp only [State.snapshots, Prod.mk.injEq] at hs
  obtain ⟨hp, hss, hl, hf, hq, hsent⟩ := hs
  have hrec : s'.records = s.records := by rw [State.records, State.records, hss, hl]
  refine ⟨by rw [hp, hss, hr.pending], by rw [hrec]; exact hr.unique, by rw [hq, hsent, hrec]; exact hr.wire,
    by rw [hq, hsent]; exact hr.apart, by rw [hss, hf]; exact hr.waiting, by rw [hl, hf]; exact hr.late, ?_⟩
  intro e he
  rw [hrec] at he
  rcases hrow with hnil | hrow
  · rw [hnil] at he
    cases he
  · obtain ⟨hd, ha, -⟩ := hrow _ _ (hr.row e he)
    exact ⟨hd, ha, rfl⟩

/-- Positions at which a flow is not converging ask for nothing. -/
theorem Ok.free (hp : p.converging = false) : Ok s t p := by
  have hc : p.claims = false ∧ p.shields = false := by simpa [Pc.converging] using hp
  refine ⟨fun h => ?_, fun h => ?_, fun h hh => ?_, fun h => ?_, fun h => ?_, fun h => ?_⟩
  · rw [hc.1] at h
    cases h
  · rw [hc.2] at h
    cases h
  · rw [Pc.converging_of_hold (by simp [hh])] at hp
    cases hp
  · rw [hp] at h
    cases h
  · rw [Pc.converging_of_snapshots h] at hp
    cases hp
  · rw [Pc.converging_of_snapshots (Pc.snapshots_of_givenUp h)] at hp
    cases hp

/-- A step that leaves the guard and the records, and the assignment that a stop holds. -/
theorem Steps.keep (hi : Inv s) (hc : s'.claims = s.claims) (hsh : s'.shielded = s.shielded)
    (hs : s'.snapshots = s.snapshots) (hrow : ∀ w k, s.row.stopHeld w k → s'.row.stopHeld w k)
    (hown : Ok s' t q) : Steps s t (s', q) := by
  have hrec : s'.records = s.records ∧ s'.future = s.future := by
    simp only [State.snapshots, Prod.mk.injEq] at hs
    exact ⟨by rw [State.records, State.records, hs.2.1, hs.2.2.1], hs.2.2.2.1⟩
  refine ⟨⟨by rw [hc, hsh]; exact hi.agree, hi.recorded.keep hs (.inr hrow)⟩, hown, ?_⟩
  exact ⟨fun u _ h => hc.trans h, fun u _ h => hsh.trans h, fun _ _ _ => hrow,
    fun _ _ _ e he => hrec.1 ▸ he, fun _ _ _ h => hrec.2 ▸ h⟩

/-- A flow that converges goes on: the others do not. -/
theorem Steps.converging (hi : Inv s) (hok : Ok s t p) (hp : p.converging = true) {r : State × Pc}
    (hinv : Inv r.1) (hown : Ok r.1 t r.2) : Steps s t r :=
  ⟨hinv, hown, hi.spares (hok.converging hp)⟩

/-- A flow with the claim goes on to a position at which it has no final snapshot. -/
theorem Steps.go (hi : Inv s) (hok : Ok s t p) (hp : p.claims = true) (hpn : p.snapshots = false)
    (hqs : q.shields = false) (hqn : q.snapshots = false)
    (hc : s'.claims = s.claims) (hsh : s'.shielded = s.shielded) (hs : s'.snapshots = s.snapshots)
    (hh : ∀ h, q.hold = some h → s'.row.stopHeld h.worker h.placement) : Steps s t (s', q) := by
  have hconv : p.converging = true := by simp [Pc.converging, hp]
  have hnil := hok.clean hconv hpn
  refine .converging hi hok hconv ⟨by rw [hc, hsh]; exact hi.agree, hi.recorded.keep hs (.inl hnil)⟩ ?_
  refine ⟨fun _ => hc.trans (hok.claims hp), fun h => ?_, hh, fun _ _ => ?_, fun h => ?_, fun h => ?_⟩
  · rw [hqs] at h
    cases h
  · simp only [State.snapshots, Prod.mk.injEq] at hs
    rw [State.records, hs.2.1, hs.2.2.1]
    exact hnil
  · rw [hqn] at h
    cases h
  · rw [Pc.snapshots_of_givenUp h] at hqn
    cases hqn

/-- A flow with the claim gives it up. -/
theorem Steps.leave (hi : Inv s) (hok : Ok s t p) (hp : p.converging = true) (hr : Recorded s') :
    Steps s t s'.leave := by
  refine .converging hi hok hp ⟨fun _ _ h => ?_, ?_⟩ (.free rfl)
  · cases h
  · exact hr.keep rfl (.inr fun _ _ h => h)

theorem Steps.leave_clean (hi : Inv s) (hok : Ok s t p) (hp : p.converging = true) (hpn : p.snapshots = false)
    (hs : s'.snapshots = s.snapshots) : Steps s t s'.leave :=
  .leave hi hok hp (hi.recorded.keep hs (.inl (hok.clean hp hpn)))

theorem Steps.leave_same (hi : Inv s) (hok : Ok s t p) (hp : p.converging = true) : Steps s t s.leave :=
  .leave hi hok hp hi.recorded

/-! ## Flows that are not converging -/

theorem Launch.undo_converging (l : Launch) : l.undo.converging = false := by
  unfold Launch.undo
  split <;> rfl

theorem Launch.settle_converging (l : Launch) (o : Outcome) : (l.settle o).converging = false := by
  obtain ⟨kind, worker, placement, attempted, skip⟩ := l
  cases o <;> cases kind <;> cases attempted <;> rfl

theorem advance_frame (x : Choice) (hp : p.converging = false) :
    (advance t s x p).1.claims = s.claims ∧ (advance t s x p).1.shielded = s.shielded ∧
      (advance t s x p).1.snapshots = s.snapshots ∧ (advance t s x p).2.converging = false := by
  cases p with
  | locked k =>
    cases k <;> (show (if _ then (s, _) else s.unlock : State × Pc).1.claims = _ ∧ _) <;>
      unfold advance <;> split_ifs <;> exact ⟨rfl, rfl, rfl, rfl⟩
  | placing k r =>
    unfold advance
    dsimp only
    split
    · exact ⟨rfl, rfl, rfl, rfl⟩
    · by_cases hx : x.ok = true
      · rw [if_pos hx]
        refine ⟨rfl, rfl, rfl, ?_⟩
        dsimp only
        split_ifs <;> rfl
      · rw [if_neg hx]
        exact ⟨rfl, rfl, rfl, rfl⟩
  | generation l =>
    refine ⟨rfl, rfl, rfl, ?_⟩
    show (if x.ok then (if x.flag then _ else _) else l.undo : Pc).converging = false
    split_ifs
    · rfl
    · rfl
    · exact l.undo_converging
  | unassign l =>
    refine ⟨rfl, rfl, rfl, ?_⟩
    show (if _ then _ else _ : Pc).converging = false
    split_ifs <;> rfl
  | updating r =>
    rw [advance_updating]
    split_ifs <;> exact ⟨rfl, rfl, rfl, rfl⟩
  | idle | hydrating l | toStart l | starting l | recordRunning l | compensate l | compensating l r =>
    exact ⟨rfl, rfl, rfl, rfl⟩
  | «over» => exact ⟨rfl, rfl, rfl, rfl⟩
  | unassigning l r | restarting r | draining r | updateLocked => exact ⟨rfl, rfl, rfl, rfl⟩
  | clearing h caller | cleared caller => simp [Pc.converging, Pc.shields] at hp
  | _ => cases hp

theorem Pc.releases_of_not_converging (hp : p.converging = false) : p.releases = none := by
  cases p with
  | clearing h caller => simp [Pc.converging, Pc.shields] at hp
  | staleClear h o => cases hp
  | lateClear h => cases hp
  | _ => rfl

theorem answered_frame {o : Outcome} (hp : p.converging = false) :
    answered s o p = (s, (answered s o p).2) ∧ (answered s o p).2.converging = false := by
  cases p with
  | hydrating l | starting l =>
    refine ⟨rfl, ?_⟩
    show (if _ then _ else l.settle o : Pc).converging = false
    split_ifs
    · rfl
    · exact l.settle_converging o
  | stopSent h => cases hp
  | _ => exact ⟨rfl, hp⟩

theorem cancelled_frame (hp : p.converging = false) :
    (cancelled t s p).1.claims = s.claims ∧ (cancelled t s p).1.shielded = s.shielded ∧
      (cancelled t s p).1.snapshots = s.snapshots ∧ (cancelled t s p).2.converging = false := by
  cases p with
  | clearing h caller | cleared caller => simp [Pc.converging, Pc.shields] at hp
  | claimed f => cases hp
  | flipping r => cases hp
  | stopSent h => cases hp
  | confirmed h => cases hp
  | notFound h => cases hp
  | notFoundWrite h => cases hp
  | toSnapshot h q => cases hp
  | snapshotting h q => cases hp
  | timedOut h q => cases hp
  | abandoning h => cases hp
  | staleClear h o => cases hp
  | lateClaimed w => cases hp
  | lateClear h => cases hp
  | _ => exact ⟨rfl, rfl, rfl, rfl⟩

/-! ## The records of final snapshots -/

theorem mem_without {l : List (ℕ × WorkerId)} {e : ℕ × WorkerId} : e ∈ without l n ↔ e ∈ l ∧ e.1 ≠ n := by
  simp [without]

theorem mem_apartFrom {l : List (ℕ × WorkerId)} {e : ℕ × WorkerId} :
    e ∈ apartFrom l w ↔ e ∈ l ∧ e.2 ≠ w := by
  simp [apartFrom]

theorem mem_records {e : ℕ × WorkerId} : e ∈ s.records ↔ e ∈ s.snapshotServers ∨ e ∈ s.lateSnapshots := by
  simp [State.records]

/-- Fewer records, none of a command that is still outstanding. -/
theorem Recorded.mono (hr : Recorded s) (hp : s'.pending = s'.snapshotServers)
    (hrec : ∀ e ∈ s'.records, e ∈ s.records) (hwire : ∀ e ∈ s'.queue ++ s'.sent, e ∈ s'.records)
    (hapart : s'.queue = [] ∨ s'.sent = [])
    (hwait : ∀ e ∈ s'.snapshotServers, s'.future e.1 = .waiting ∨ s'.future e.1 = .cancelled)
    (hlate : ∀ e ∈ s'.lateSnapshots, s'.future e.1 = .cancelled) (hrow : s'.row = s.row) : Recorded s' where
  pending := hp
  unique e he e' he' := hr.unique e (hrec e he) e' (hrec e' he')
  wire := hwire
  apart := hapart
  waiting := hwait
  late := hlate
  row e he := hrow ▸ hr.row e (hrec e he)

theorem discardPending_mem {e : ℕ × WorkerId} : e ∈ (s.discardPending n).records ↔ e ∈ s.records := by
  simp only [State.records, State.discardPending, List.mem_append, mem_without, List.mem_filter,
    decide_eq_true_eq]
  by_cases h : e.1 = n <;> simp [h]

/-- `discard_pending` of a command whose future is cancelled, or done. -/
theorem Recorded.discardPending (hr : Recorded s) (hf : s.future n ≠ .waiting) :
    Recorded (s.discardPending n) := by
  refine hr.mono ?_ (fun e he => discardPending_mem.mp he) (fun e he => discardPending_mem.mpr (hr.wire e he))
    hr.apart (fun e he => hr.waiting e (mem_without.mp he).1) (fun e he => ?_) rfl
  · show without s.pending n = without s.snapshotServers n
    rw [hr.pending]
  · rcases List.mem_append.mp he with he | he
    · obtain ⟨hmem, hn⟩ := List.mem_filter.mp he
      have hn : e.1 = n := of_decide_eq_true hn
      have hw := hr.waiting e hmem
      rw [hn] at hw ⊢
      exact hw.resolve_left hf
    · exact hr.late e he

theorem Recorded.cancelFuture (hr : Recorded s) : Recorded (s.cancelFuture t) := by
  unfold State.cancelFuture
  split_ifs with hw
  · refine hr.mono hr.pending (fun _ h => h) hr.wire hr.apart (fun e he => ?_) (fun e he => ?_) rfl
    · by_cases h : e.1 = t
      · simp [h]
      · simpa [h] using hr.waiting e he
    · by_cases h : e.1 = t
      · simp [h]
      · simpa [h] using hr.late e he
  · exact hr

theorem cancelFuture_future : (s.cancelFuture t).future t ≠ .waiting := by
  unfold State.cancelFuture
  split_ifs with hw
  · simp
  · exact hw

@[simp] theorem cancelFuture_records : (s.cancelFuture t).records = s.records := by
  unfold State.cancelFuture
  split_ifs <;> rfl

@[simp] theorem cancelFuture_claims : (s.cancelFuture t).claims = s.claims := by
  unfold State.cancelFuture
  split_ifs <;> rfl

@[simp] theorem cancelFuture_shielded : (s.cancelFuture t).shielded = s.shielded := by
  unfold State.cancelFuture
  split_ifs <;> rfl

theorem Recorded.dispatchSnapshot (hr : Recorded s) (hnil : s.records = []) (hrow : s.row.stopHeld w k) :
    Recorded (s.dispatchSnapshot t w) := by
  obtain ⟨hss, hl⟩ := List.append_eq_nil_iff.mp hnil
  have hwire := hr.wire
  rw [hnil] at hwire
  have hnone : s.queue ++ s.sent = [] := List.eq_nil_iff_forall_not_mem.mpr fun e he => by
    simpa using hwire e he
  obtain ⟨hq, hsent⟩ := List.append_eq_nil_iff.mp hnone
  have hrec : (s.dispatchSnapshot t w).records = [(t, w)] := by
    simp [State.records, State.dispatchSnapshot, hss, hl]
  have hwires : (s.dispatchSnapshot t w).queue ++ (s.dispatchSnapshot t w).sent = [(t, w)] := by
    simp [State.dispatchSnapshot, hq, hsent]
  refine ⟨?_, ?_, ?_, .inr hsent, ?_, ?_, ?_⟩
  · show (t, w) :: s.pending = (t, w) :: s.snapshotServers
    rw [hr.pending]
  · rw [hrec]
    simp
  · rw [hrec, hwires]
    exact fun _ h => h
  · intro e he
    have he : e ∈ (t, w) :: s.snapshotServers := he
    rw [hss, List.mem_singleton] at he
    subst he
    exact .inl (Function.update_self ..)
  · intro e he
    have he : e ∈ s.lateSnapshots := he
    rw [hl] at he
    cases he
  · rw [hrec]
    intro e he
    rw [List.mem_singleton] at he
    subst he
    exact ⟨hrow.1, hrow.2.1, rfl⟩

theorem Recorded.retire (hr : Recorded s) : Recorded (s.retireWorkerCommands w) := by
  -- A record is retired with its future, and both by the Worker.
  have hgone : ∀ e ∈ s.snapshotServers, (s.pending.any fun e' => e'.1 = e.1 && e'.2 = w) = true ↔ e.2 = w := by
    intro e he
    rw [hr.pending, List.any_eq_true]
    constructor
    · rintro ⟨e', he', hw⟩
      simp only [Bool.and_eq_true, decide_eq_true_eq] at hw
      rw [hr.unique e (mem_records.mpr (.inl he)) e' (mem_records.mpr (.inl he'))]
      exact hw.2
    · intro hw
      exact ⟨e, he, by simp [hw]⟩
  have hss : (s.retireWorkerCommands w).snapshotServers = apartFrom s.snapshotServers w := by
    refine List.filter_congr fun e he => ?_
    have h := hgone e he
    by_cases hw : e.2 = w
    · simp [hw, h.mpr hw]
    · have hfalse := Bool.eq_false_iff.mpr (mt h.mp hw)
      simp [hw, hfalse]
  have hrec : ∀ e, e ∈ (s.retireWorkerCommands w).records ↔ e ∈ s.records ∧ e.2 ≠ w := by
    intro e
    rw [mem_records, mem_records, hss, mem_apartFrom]
    show _ ∨ e ∈ apartFrom s.lateSnapshots w ↔ _
    rw [mem_apartFrom]
    exact or_and_right.symm
  refine hr.mono ?_ (fun e he => ((hrec e).mp he).1) (fun e he => ?_) ?_ (fun e he => ?_) (fun e he => ?_) rfl
  · rw [hss]
    show apartFrom s.pending w = _
    rw [hr.pending]
  · rcases List.mem_append.mp he with he | he <;> obtain ⟨hmem, hw⟩ := mem_apartFrom.mp he
    · exact (hrec e).mpr ⟨hr.wire e (List.mem_append_left _ hmem), hw⟩
    · exact (hrec e).mpr ⟨hr.wire e (List.mem_append_right _ hmem), hw⟩
  · rcases hr.apart with h | h
    · exact .inl (by simp [State.retireWorkerCommands, apartFrom, h])
    · exact .inr (by simp [State.retireWorkerCommands, apartFrom, h])
  · rw [hss, mem_apartFrom] at he
    have hfalse := Bool.eq_false_iff.mpr (mt (hgone e he.1).mp he.2)
    have hf : (s.retireWorkerCommands w).future e.1 = s.future e.1 := by
      show (if (s.pending.any (fun e' => e'.1 = e.1 && e'.2 = w) && decide (s.future e.1 = .waiting)) = true
        then Future.failed else s.future e.1) = s.future e.1
      rw [hfalse]
      rfl
    rw [hf]
    exact hr.waiting e he.1
  · have hl := hr.late e (mem_apartFrom.mp he).1
    simp [State.retireWorkerCommands, hl]

theorem Recorded.send (hr : Recorded s) (hn : (n, w) ∈ s.queue) : Recorded (s.send n) := by
  have hsent : s.sent = [] := hr.apart.resolve_left (List.ne_nil_of_mem hn)
  have hrec := hr.wire _ (List.mem_append_left _ hn)
  -- The command is the only one there is.
  have honly : ∀ e ∈ s.queue, e.1 = n := fun e he =>
    congrArg Prod.fst (hr.unique e (hr.wire e (List.mem_append_left _ he)) _ hrec)
  have hqueue : without s.queue n = [] := List.eq_nil_iff_forall_not_mem.mpr fun e he =>
    (mem_without.mp he).2 (honly e (mem_without.mp he).1)
  unfold State.send
  split_ifs
  · refine hr.mono hr.pending (fun _ h => h) (fun e he => ?_) (.inl hqueue) hr.waiting hr.late rfl
    refine hr.wire e (List.mem_append_left _ ?_)
    simp only [hqueue, hsent, List.nil_append, List.append_nil] at he
    exact (List.mem_filter.mp he).1
  · refine hr.mono hr.pending (fun e he => ?_) (fun e he => ?_) (.inl hqueue) hr.waiting
      (fun e he => hr.late e (mem_without.mp he).1) rfl
    · rcases mem_records.mp he with he | he
      · exact mem_records.mpr (.inl he)
      · exact mem_records.mpr (.inr (mem_without.mp he).1)
    · simp [hqueue, hsent] at he

theorem send_records {e : ℕ × WorkerId} (he : e ∈ (s.send n).records) : e ∈ s.records := by
  unfold State.send at he
  split_ifs at he
  · exact he
  · rcases mem_records.mp he with he | he
    · exact mem_records.mpr (.inl he)
    · exact mem_records.mpr (.inr (mem_without.mp he).1)

/-! ## Stop-side flows -/

theorem inFlight_false (h : s.inFlight = false) : s.claims = none ∧ s.shielded = none ∧ s.records = [] := by
  simp only [State.inFlight, Bool.or_eq_false_iff, Option.isSome_eq_false_iff, Option.isNone_iff_eq_none,
    Bool.not_eq_false', List.isEmpty_iff] at h
  obtain ⟨⟨⟨hc, hs⟩, hss⟩, hl⟩ := h
  exact ⟨hc, hs, by simp [State.records, hss, hl]⟩

/-- A claim is made when nothing is in flight. -/
theorem Steps.claim (hc : s'.claims = none) (hsh : s'.shielded = none) (hnil : s'.records = [])
    (hr : Recorded s') (hcs : s'.claims = s.claims) (hss : s'.shielded = s.shielded)
    (hq : q.claims = true ∧ q.shields = false ∧ q.hold = none ∧ q.snapshots = false) :
    Steps s t ({ s' with claims := some t }, q) := by
  refine ⟨⟨fun _ u _ h => ?_, hr.keep rfl (.inr fun _ _ h => h)⟩, ⟨fun _ => rfl, fun h => ?_, fun h hh => ?_,
    fun _ _ => hnil, fun h => ?_, fun h => ?_⟩, ?_⟩
  · exact absurd (hsh.symm.trans h) (by simp)
  · rw [hq.2.1] at h
    cases h
  · rw [hq.2.2.1] at hh
    cases hh
  · rw [hq.2.2.2] at h
    cases h
  · have h' := Pc.snapshots_of_givenUp h
    rw [hq.2.2.2] at h'
    cases h'
  · have hnone : ∀ u, ¬ (s.claims = some u ∨ s.shielded = some u) := by
      intro u
      rw [← hcs, ← hss, hc, hsh]
      simp
    exact ⟨fun u _ h => absurd (.inl h) (hnone u), fun u _ h => absurd (.inr h) (hnone u),
      fun u _ h => absurd h (hnone u), fun u _ h => absurd h (hnone u), fun u _ h => absurd h (hnone u)⟩

theorem steps_claim (hi : Inv s) (f : StopFlow) : Steps s t (s.claim t f) := by
  unfold State.claim
  split_ifs with h
  · exact .keep hi rfl rfl rfl (fun _ _ h => h) (.free rfl)
  · obtain ⟨hc, hs, hnil⟩ := inFlight_false (Bool.eq_false_iff.mpr h)
    exact .claim hc hs hnil hi.recorded rfl rfl ⟨rfl, rfl, rfl, rfl⟩

/-- What follows a final snapshot that is not outstanding any more. -/
theorem steps_afterSnapshot (hi : Inv s) (hok : Ok s t p) (hp : p.claims = true) (hnil : s.records = [])
    (hh : s.row.stopHeld h.worker h.placement) (z : Purpose) : Steps s t (s.afterSnapshot t h z false) := by
  have hconv : p.converging = true := by simp [Pc.converging, hp]
  have hclaim := hok.claims hp
  unfold State.afterSnapshot
  cases z with
  | release gate =>
    dsimp only
    split_ifs
    · refine .converging hi hok hconv ⟨fun v u hv hu => ?_, hi.recorded.keep rfl (.inr fun _ _ h => h)⟩ ?_
      · cases hu
        exact Option.some.inj (hv.symm.trans hclaim)
      · refine ⟨fun _ => hclaim, fun _ => rfl, fun h' hh' => ?_, fun _ _ => hnil, fun h => ?_, fun h => ?_⟩
        · cases hh'
          exact hh
        · cases h
        · cases h
    · exact .leave_same hi hok hconv
  | stale o =>
    refine .converging hi hok hconv hi ⟨fun _ => hclaim, fun h => ?_, fun h' hh' => ?_, fun _ _ => hnil,
      fun h => ?_, fun h => ?_⟩
    · cases h
    · cases hh'
      exact hh
    · cases h
    · cases h

theorem afterSnapshot_live (z : Purpose) : s.afterSnapshot t h z true = s.leave := by
  cases z with
  | release gate => cases gate <;> rfl
  | stale o => rfl

/-- A final snapshot whose future is done has no record. -/
theorem records_of_done (hi : Inv s) (hok : Ok s t p) (hp : p.snapshots = true)
    (hf : s.future t = .result ∨ s.future t = .failed) : s.records = [] := by
  refine List.eq_nil_iff_forall_not_mem.mpr fun e he => ?_
  have ht := hok.own hp e he
  rcases mem_records.mp he with he | he
  · have hw := hi.recorded.waiting e he
    rw [ht] at hw
    rcases hf with hf | hf <;> rw [hf] at hw <;> rcases hw with hw | hw <;> cases hw
  · have hl := hi.recorded.late e he
    rw [ht] at hl
    rcases hf with hf | hf <;> rw [hf] at hl <;> cases hl

theorem steps_readClaimed (hi : Inv s) {f : StopFlow} (hok : Ok s t (.claimed f)) (b : Bool) :
    Steps s t (s.readClaimed f b) := by
  unfold State.readClaimed
  cases ha : s.row.assigned with
  | none => exact .leave_same hi hok rfl
  | some w =>
    have hgo : ∀ q : Pc, q.claims = true → q.shields = false → q.snapshots = false → q.hold = none →
        Steps s t (s, q) := fun q hc hs hn hh => .go hi hok rfl rfl hs hn rfl rfl rfl (fun _ h => by
          rw [hh] at h
          cases h)
    have hheld : ∀ q : Pc, s.row.desired = .stopped → q.shields = false → q.snapshots = false →
        q.hold = some ⟨w, s.row.placement⟩ → Steps s t (s, q) := fun q hd hs hn hh =>
      .go hi hok rfl rfl hs hn rfl rfl rfl (fun _ h => by
        rw [hh] at h
        cases h
        exact ⟨hd, ha, rfl⟩)
    cases f with
    | stop =>
      dsimp only
      split_ifs
      · exact hgo _ rfl rfl rfl rfl
      · split
        · exact .leave_same hi hok rfl
        · exact hgo _ rfl rfl rfl rfl
    | redispatchStop =>
      dsimp only
      split_ifs with hd
      · exact hheld _ hd rfl rfl rfl
      · exact .leave_same hi hok rfl
    | clearStale =>
      dsimp only
      split_ifs with hd
      · exact hheld _ hd rfl rfl rfl
      · exact hheld _ hd rfl rfl rfl
      · exact .leave_same hi hok rfl
      · exact hheld _ hd rfl rfl rfl
      · exact .leave_same hi hok rfl
      · exact .leave_same hi hok rfl

/-- Only records go. -/
theorem Steps.forget (hi : Inv s) (hr : Recorded s') (hc : s'.claims = s.claims)
    (hs : s'.shielded = s.shielded) (hrow : s'.row = s.row) (hrec : ∀ e ∈ s'.records, e ∈ s.records)
    (hfut : ∀ u, s.future u ≠ .waiting → s'.future u ≠ .waiting)
    (hown : ∀ s', Spares s s' (t + 1) → Ok s' t q) : Steps s t (s', q) := by
  have hsp : ∀ t, Spares s s' t := fun t => ⟨fun u _ h => hc.trans h, fun u _ h => hs.trans h,
    fun _ _ _ _ _ h => hrow ▸ h, fun _ _ _ => hrec, fun u _ _ => hfut u⟩
  exact ⟨⟨by rw [hc, hs]; exact hi.agree, hr⟩, hown s' (hsp _), hsp t⟩

theorem recorded_of_nil (hp : s.pending = []) (hss : s.snapshotServers = []) (hl : s.lateSnapshots = [])
    (hq : s.queue = []) (hsent : s.sent = []) : Recorded s := by
  refine ⟨hp.trans hss.symm, ?_, ?_, .inl hq, ?_, ?_, ?_⟩ <;> simp [State.records, hss, hl, hq, hsent]

/-- `_clear_on_late_snapshot` of the command whose result has come in. -/
theorem steps_clearOnLate (hi : Inv s) (hf : s'.future = s.future) (hc : s'.claims = s.claims) (hs : s'.shielded = s.shielded)
    (hrow : s'.row = s.row) (hr : s'.pending = [] ∧ s'.snapshotServers = [] ∧ s'.queue = [] ∧ s'.sent = [])
    (hl : ∀ e ∈ s'.lateSnapshots, e.1 = n ∧ e ∈ s.records) : Steps s t (s'.clearOnLateSnapshot t n) := by
  obtain ⟨hp, hss, hq, hsent⟩ := hr
  have hlate : without s'.lateSnapshots n = [] := List.eq_nil_iff_forall_not_mem.mpr fun e he =>
    (mem_without.mp he).2 (hl e (mem_without.mp he).1).1
  have hrec : ∀ l, Recorded { s' with lateSnapshots := [], claims := l } := fun _ =>
    recorded_of_nil hp hss rfl hq hsent
  unfold State.clearOnLateSnapshot
  split
  · rename_i hlook
    -- Without a record of the command there is none.
    have hnil : s'.lateSnapshots = [] := List.eq_nil_iff_forall_not_mem.mpr fun e he => by
      have hne := List.lookup_eq_none_iff.mp hlook e he
      simp [(hl e he).1] at hne
    have heq : s' = { s' with lateSnapshots := [], claims := s'.claims } := by rw [← hnil]
    rw [heq]
    refine .forget hi (hrec _) hc hs hrow (fun e he => ?_) (fun u h => hf ▸ h) fun _ _ => .free rfl
    simp [State.records, hss] at he
  · dsimp only
    rw [hlate]
    split_ifs with hflight
    · refine .forget hi (hrec s'.claims) hc hs hrow (fun e he => ?_) (fun u h => hf ▸ h)
        fun _ _ => .free rfl
      simp [State.records, hss] at he
    · obtain ⟨hc', hs', hnil⟩ := inFlight_false (Bool.eq_false_iff.mpr hflight)
      exact .claim hc' hs' hnil (hrec s'.claims) hc hs ⟨rfl, rfl, rfl, rfl⟩

theorem steps_resolve (hi : Inv s) (hn : (n, w) ∈ s.sent) : Steps s t (s.resolve t n) := by
  have hr := hi.recorded
  have hmem := hr.wire _ (List.mem_append_right _ hn)
  have honly : ∀ e ∈ s.records, e.1 = n := fun e he => congrArg Prod.fst (hr.unique e he _ hmem)
  have hqueue : s.queue = [] := hr.apart.resolve_right (List.ne_nil_of_mem hn)
  have hnil : ∀ l : List (ℕ × WorkerId), (∀ e ∈ l, e.1 = n) → without l n = [] := fun l hl =>
    List.eq_nil_iff_forall_not_mem.mpr fun e he => (mem_without.mp he).2 (hl e (mem_without.mp he).1)
  have hsent : without s.sent n = [] := hnil _ fun e he => honly e (hr.wire e (List.mem_append_right _ he))
  have hss : without s.snapshotServers n = [] := hnil _ fun e he => honly e (mem_records.mpr (.inl he))
  have hp : without s.pending n = [] := by rw [hr.pending, hss]
  unfold State.resolve
  dsimp only
  rw [hsent, hp, hss]
  split
  · rename_i hlook
    have hpnil : s.pending = [] := List.eq_nil_iff_forall_not_mem.mpr fun e he => by
      have hne := List.lookup_eq_none_iff.mp hlook e he
      rw [hr.pending] at he
      simp [honly e (mem_records.mpr (.inl he))] at hne
    refine steps_clearOnLate hi rfl rfl rfl rfl ⟨hpnil, hr.pending ▸ hpnil, hqueue, rfl⟩ fun e he => ?_
    have he' : e ∈ s.records := mem_records.mpr (.inr he)
    exact ⟨honly e he', he'⟩
  · have hlate : s.future n ≠ .cancelled → s.lateSnapshots = [] := fun hf =>
      List.eq_nil_iff_forall_not_mem.mpr fun e he => hf (by
        have h := hr.late e he
        rwa [honly e (mem_records.mpr (.inr he))] at h)
    have hfilter : ∀ e ∈ s.snapshotServers.filter (·.1 = n) ++ s.lateSnapshots, e.1 = n ∧ e ∈ s.records := by
      intro e he
      rcases List.mem_append.mp he with he | he
      · have he' := mem_records.mpr (.inl (List.mem_filter.mp he).1)
        exact ⟨honly e he', he'⟩
      · have he' := mem_records.mpr (.inr he)
        exact ⟨honly e he', he'⟩
    split_ifs with hw hcan
    · have hl := hlate (by rw [hw]; simp)
      refine .forget hi (recorded_of_nil rfl rfl hl hqueue rfl) rfl rfl rfl (fun e he => ?_)
        (fun u h => ?_) fun _ _ => .free rfl
      · simp [State.records, hl] at he
      · by_cases hu : u = n
        · simp [hu]
        · simpa [hu] using h
    · exact steps_clearOnLate hi rfl rfl rfl rfl ⟨rfl, rfl, hqueue, rfl⟩ hfilter
    · have hl := hlate hcan
      refine .forget hi (recorded_of_nil rfl rfl hl hqueue rfl) rfl rfl rfl (fun e he => ?_)
        (fun _ h => h) fun _ _ => .free rfl
      simp [State.records, hl] at he

/-! ## Steps -/

/-- A report does not change what a stop holds. -/
theorem stopHeld_write {o : ObservedState} {now : ℕ} (hr : s.row.stopHeld w k) (v : WorkerId) :
    (s.write (s.row.recordObservedState o now false v)).row.stopHeld w k := by
  rcases write_row (s := s) (r := s.row.recordObservedState o now false v) with h | h
  · rw [h]
    exact hr
  · obtain ⟨o', t', ho⟩ := recordObservedState_of_some h
    rw [ho]
    exact hr

theorem steps_snapshot (hi : Inv s) {z : Purpose} (hok : Ok s t (.toSnapshot h z)) (x : Choice) :
    Steps s t (advance t s x (.toSnapshot h z)) := by
  have hnil := hok.clean rfl rfl
  have hheld := hok.hold h rfl
  show Steps s t (if _ then _ else _)
  split_ifs
  · refine .converging hi hok rfl ⟨hi.agree, hi.recorded.dispatchSnapshot hnil hheld⟩ ?_
    refine ⟨fun _ => hok.claims rfl, fun h => ?_, hok.hold, fun _ h => ?_, fun _ e he => ?_, fun h => ?_⟩
    · cases h
    · cases h
    · obtain ⟨hss, hl⟩ := List.append_eq_nil_iff.mp hnil
      simp only [State.records, State.dispatchSnapshot, hss, hl, List.append_nil, List.mem_singleton] at he
      rw [he]
    · cases h
  · exact steps_afterSnapshot hi hok rfl hnil hheld z

/-- The shielded release. -/
theorem steps_clearing (hi : Inv s) {caller : Bool} (hok : Ok s t (.clearing h caller)) (x : Choice) :
    Steps s t (advance t s x (.clearing h caller)) := by
  have hconv : (Pc.clearing h caller).converging = true := by simp [Pc.converging, Pc.shields]
  have hnil := hok.clean hconv rfl
  have hgo : ∀ row : Row, Steps s t ({ s with row := row }, .cleared caller) := fun row => by
    refine .converging hi hok hconv ⟨hi.agree, hi.recorded.keep rfl (.inl hnil)⟩ ?_
    refine ⟨hok.claims, fun _ => hok.shields rfl, fun h hh => ?_, fun _ _ => hnil, fun h => ?_, fun h => ?_⟩
    · cases hh
    · cases h
    · cases h
  unfold advance
  dsimp only
  split_ifs
  · exact hgo _
  · exact hgo s.row

theorem steps_converging (hi : Inv s) (hok : Ok s t p) (hp : p.converging = true) (x : Choice)
    (hpre : canAdvance t s p) : Steps s t (advance t s x p) := by
  cases p with
  | claimed f => exact steps_readClaimed hi hok x.flag
  | flipping r =>
    unfold advance
    dsimp only
    split
    · rename_i row w hrow hw
      refine .go hi hok rfl rfl rfl rfl rfl rfl rfl fun h hh => ?_
      cases hh
      rw [(updateLifecycle_eq_some.mp hrow).2]
      exact ⟨rfl, hw, rfl⟩
    · exact .leave_same hi hok rfl
  | confirmed h | notFoundWrite h =>
    refine .go hi hok rfl rfl rfl rfl rfl rfl rfl fun h' hh => ?_
    cases hh
    exact stopHeld_write (hok.hold h rfl) _
  | notFound h =>
    have hgo : ∀ q : Pc, q.shields = false → q.snapshots = false → q.hold = some h → Steps s t (s, q) :=
      fun q hs hn hq => .go hi hok rfl rfl hs hn rfl rfl rfl fun h' hh => by
        rw [hq] at hh
        cases hh
        exact hok.hold h rfl
    show Steps s t (s, if _ then _ else _)
    split_ifs
    · exact hgo _ rfl rfl rfl
    · exact hgo _ rfl rfl rfl
  | toSnapshot h z => exact steps_snapshot hi hok x
  | snapshotting h z =>
    exact steps_afterSnapshot hi hok rfl (records_of_done hi hok rfl hpre) (hok.hold h rfl) z
  | timedOut h z =>
    show Steps s t ((s.discardPending t).afterSnapshot t h z true)
    rw [afterSnapshot_live]
    exact .leave hi hok rfl (hi.recorded.discardPending (hok.given rfl))
  | abandoning h => exact .leave hi hok rfl (hi.recorded.discardPending (hok.given rfl))
  | clearing h caller => exact steps_clearing hi hok x
  | cleared caller =>
    refine .converging hi hok hp ⟨fun _ _ _ h => ?_, hi.recorded.keep rfl (.inr fun _ _ h => h)⟩ (.free rfl)
    cases h
  | staleClear h o =>
    refine .leave_clean hi hok rfl rfl ?_
    split_ifs <;> rfl
  | lateClaimed w =>
    show Steps s t (if _ then _ else _)
    split_ifs with hrow
    · refine .go hi hok rfl rfl rfl rfl rfl rfl rfl fun h' hh => ?_
      cases hh
      exact ⟨hrow.1, hrow.2.2, rfl⟩
    · exact .leave_same hi hok rfl
  | lateClear h => exact .leave_clean hi hok rfl rfl rfl
  | stopSent h => exact hpre.elim
  | _ => cases hp

/-- The wait for a final snapshot ends without its result. -/
theorem Steps.giveUp (hi : Inv s) (hok : Ok s t p) (hp : p.snapshots = true)
    (hq : q.claims = true ∧ q.shields = false ∧ q.snapshots = true ∧ q.hold = p.hold)
    (hc : p.claims = true) : Steps s t (s.cancelFuture t, q) := by
  refine .converging hi hok (Pc.converging_of_snapshots hp) ⟨by simpa using hi.agree, hi.recorded.cancelFuture⟩ ?_
  refine ⟨fun _ => by simpa using hok.claims hc, fun h => ?_, fun h hh => ?_, fun _ h => ?_, fun _ e he => ?_,
    fun _ => cancelFuture_future⟩
  · rw [hq.2.1] at h
    cases h
  · rw [hq.2.2.2] at hh
    simpa using hok.hold h hh
  · rw [hq.2.2.1] at h
    cases h
  · exact hok.own hp e (by simpa using he)

theorem steps_answered (hi : Inv s) (hok : Ok s t p) (o : Outcome) : Steps s t (answered s o p) := by
  by_cases hp : p.converging = true
  · cases p with
    | stopSent h =>
      have hgo : ∀ q : Pc, q.shields = false → q.snapshots = false → q.hold = some h → Steps s t (s, q) :=
        fun q hs hn hq => .go hi hok rfl rfl hs hn rfl rfl rfl fun h' hh => by
          rw [hq] at hh
          cases hh
          exact hok.hold h rfl
      cases o with
      | success | notFound | absent => exact hgo _ rfl rfl rfl
      | invalidState | busy | failed | unavailable => exact .leave_same hi hok hp
    | hydrating l => cases hp
    | starting l => cases hp
    | _ => exact ⟨hi, hok, .refl⟩
  · obtain ⟨heq, hfree⟩ := answered_frame (s := s) (o := o) (Bool.eq_false_iff.mpr hp)
    rw [heq]
    exact .keep hi rfl rfl rfl (fun _ _ h => h) (.free hfree)

/-- The caller of a shielded release is gone. -/
theorem steps_uncalled (hi : Inv s) (hok : Ok s t p) (hp : p.shields = true) (hq : q.claims = false)
    (hqn : q.snapshots = false) (hpn : p.snapshots = false) (hh : q.hold = p.hold) :
    Steps s t ({ s with claims := none }, q) := by
  have hconv : p.converging = true := by simp [Pc.converging, hp]
  have hnil := hok.clean hconv hpn
  refine .converging hi hok hconv ⟨fun _ _ h => ?_, hi.recorded.keep rfl (.inl hnil)⟩ ?_
  · cases h
  · refine ⟨fun h => ?_, fun _ => hok.shields hp, fun h h' => hok.hold h (hh ▸ h'), fun _ _ => hnil, fun h => ?_,
      fun h => ?_⟩
    · rw [hq] at h
      cases h
    · rw [hqn] at h
      cases h
    · rw [Pc.snapshots_of_givenUp h] at hqn
      cases hqn

theorem steps_cancelled (hi : Inv s) (hok : Ok s t p) : Steps s t (cancelled t s p) := by
  by_cases hp : p.converging = true
  · cases p with
    | snapshotting h z => exact .giveUp hi hok rfl ⟨rfl, rfl, rfl, rfl⟩ rfl
    | timedOut h z =>
      exact .converging hi hok rfl hi ⟨hok.claims, hok.shields, hok.hold, hok.clean, hok.own, hok.given⟩
    | abandoning h => exact ⟨hi, hok, .refl⟩
    | clearing h caller | cleared caller =>
      cases caller with
      | true => exact steps_uncalled hi hok rfl rfl rfl rfl rfl
      | false => exact ⟨hi, hok, .refl⟩
    | claimed f | flipping r | stopSent h | confirmed h | notFound h | notFoundWrite h | toSnapshot h z =>
      exact .leave_same hi hok hp
    | staleClear h o | lateClaimed w | lateClear h => exact .leave_same hi hok hp
    | _ => cases hp
  · obtain ⟨hc, hs, hsn, hfree⟩ := cancelled_frame (s := s) (t := t) (Bool.eq_false_iff.mpr hp)
    show Steps s t ((cancelled t s p).1, (cancelled t s p).2)
    refine .keep hi hc hs hsn (fun w k h => ?_) (.free hfree)
    rw [cancelled_row]
    exact h

theorem steps_crashed (hi : Inv s) : Steps s t (crashed t s) := by
  have hgone : ∀ {o : Option ℕ} {u : ℕ}, u ≠ t → o = some u → (if o = some t then none else o) = some u := by
    intro o u hu ho
    rw [if_neg (by rw [ho]; simpa using hu), ho]
  have hsome : ∀ {o : Option ℕ} {u : ℕ}, (if o = some t then none else o) = some u → o = some u := by
    intro o u ho
    split_ifs at ho
    exact ho
  refine ⟨⟨fun u v hu hv => hi.agree u v (hsome hu) (hsome hv), hi.recorded.keep rfl (.inr fun _ _ h => h)⟩,
    .free rfl, ?_⟩
  exact ⟨fun u hu h => hgone hu h, fun u hu h => hgone hu h, fun _ _ _ _ _ h => h, fun _ _ _ _ h => h,
    fun _ _ _ h => h⟩

theorem steps_retire (hi : Inv s) (hok : Ok s t p) (w : WorkerId) (session : WorkerId → Bool) :
    Steps s t ({ s.retireWorkerCommands w with session := session }, p) := by
  have hr := hi.recorded.retire (w := w)
  refine .forget hi (hr.keep rfl (.inr fun _ _ h => h)) rfl rfl rfl (fun e he => ?_) (fun u h hu => ?_)
    fun s' hs => hs.ok (by omega) hok
  · rcases mem_records.mp he with he | he
    · exact mem_records.mpr (.inl (List.mem_filter.mp he).1)
    · exact mem_records.mpr (.inr (mem_apartFrom.mp he).1)
  · have hu : (if _ then Future.failed else s.future u) = .waiting := hu
    split_ifs at hu
    exact h hu

theorem steps_post (hi : Inv s) (hok : Ok s t p) (hpre : pre t s p a) : Steps s t (post t s p a) := by
  have hreport : ∀ row : Row, (∀ w k, s.row.stopHeld w k → row.stopHeld w k) →
      Steps s t ({ s with row := row }, p) := fun row hrow => by
    refine .keep hi rfl rfl rfl hrow (Spares.ok (s := s) (t := t + 1) ?_ (by omega) hok)
    exact ⟨fun _ _ h => h, fun _ _ h => h, fun _ _ _ => hrow, fun _ _ _ _ h => h, fun _ _ _ h => h⟩
  have hfree : ∀ (lock : Option ℕ) (q : Pc), q.converging = false →
      Steps s t ({ s with lock := lock }, q) := fun lock q hq =>
    .keep hi rfl rfl rfl (fun _ _ h => h) (.free hq)
  cases a with
  | step x =>
    by_cases hp : p.converging = true
    · exact steps_converging hi hok hp x hpre
    · obtain ⟨hc, hs, hsn, hq⟩ := advance_frame (s := s) (t := t) x (Bool.eq_false_iff.mpr hp)
      refine .keep hi hc hs hsn (fun w k h => ?_) (.free hq)
      exact stopHeld_post (a := .step x) h (Pc.releases_of_not_converging (Bool.eq_false_iff.mpr hp))
  | answer o => exact steps_answered hi hok o
  | timeout =>
    cases p with
    | snapshotting h z => exact .giveUp hi hok rfl ⟨rfl, rfl, rfl, rfl⟩ rfl
    | _ => cases hpre
  | cancel => exact steps_cancelled hi hok
  | crash => exact steps_crashed hi
  | report w o now => exact hreport _ fun _ _ h => stopHeld_write h w
  | markUnknown w now =>
    refine hreport _ fun v k h => ?_
    obtain ⟨o', t', ho⟩ := markWorkerServersUnknown_eq s.row w now
    rw [ho]
    exact h
  | reset now =>
    refine hreport _ fun v k h => ?_
    obtain ⟨o', t', ho⟩ := resetUnverifiableObservedStates_eq s.row now
    rw [ho]
    exact h
  | openSession w | closeSession w => exact steps_retire hi hok w _
  | send n =>
    obtain ⟨w, hw⟩ := hpre
    refine .forget hi (hi.recorded.send hw) ?_ ?_ send_row (fun e he => send_records he) (fun u h => ?_)
      fun s' hs => hs.ok (by omega) hok
    all_goals
      unfold State.send
      split_ifs
    all_goals first | rfl | exact h
  | resolve n =>
    obtain ⟨-, w, hw⟩ := hpre
    exact steps_resolve hi hw
  | startServer | placeAndStart | updateServer => exact hfree _ _ rfl
  | redispatchStart =>
    unfold post
    dsimp only
    split <;> exact hfree s.lock _ rfl
  | restartServer | drain =>
    refine hfree s.lock _ ?_
    split_ifs <;> rfl
  | stopServer | redispatchStop | clearStale => exact steps_claim hi _

theorem holds_start : Threads.Holds Inv Ok start := by
  refine ⟨⟨fun _ _ h => ?_, recorded_of_nil rfl rfl rfl rfl rfl⟩, fun t => .free rfl⟩
  cases h

theorem holds_reach {P : Conf → ℕ × Action → Prop} {c : Conf} (h : threads.machine.Reach P start c) :
    Threads.Holds Inv Ok c :=
  Threads.invariant h holds_start fun c t a hc hpre _ => by
    have hstep := steps_post hc.shared (hc.thread t) hpre
    exact ⟨hstep.inv, hstep.own, fun _ hu h => hstep.others.ok hu h⟩

theorem Pc.converging_of_releases (h : p.releases ≠ none) : p.converging = true ∧ p.snapshots = false := by
  cases p with
  | clearing h caller => exact ⟨by simp [Pc.converging, Pc.shields], rfl⟩
  | staleClear h o | lateClear h => exact ⟨rfl, rfl⟩
  | _ => exact absurd rfl h

/-- The record of an outstanding final snapshot. -/
theorem Recorded.exists_record (hr : Recorded s) (ho : s.Outstanding) : ∃ e, e ∈ s.records := by
  rcases ho with h | h <;> obtain ⟨e, he⟩ := List.exists_mem_of_ne_nil _ h
  · exact ⟨e, hr.wire e (List.mem_append_left _ he)⟩
  · exact ⟨e, hr.wire e (List.mem_append_right _ he)⟩

/-- **Stop convergences exclude each other.** While a final snapshot is outstanding no step changes
the assignment, and at most one stop-side flow is between its claim and its release. -/
theorem one_convergence {c : Conf} (h : threads.machine.Reach Machine.Any start c) :
    (∀ t a, pre t c.shared (c.th t) a → c.shared.Outstanding →
      (post t c.shared (c.th t) a).1.row.assigned = c.shared.row.assigned) ∧
      ∀ t u, (c.th t).converging = true → (c.th u).converging = true → t = u := by
  have hc := holds_reach h
  refine ⟨fun t a _ ho => ?_, fun t u ht hu => ?_⟩
  · obtain ⟨e, he⟩ := hc.shared.recorded.exists_record ho
    have hheld := hc.shared.recorded.row e he
    have hrel : (c.th t).releases = none := by
      by_contra hne
      obtain ⟨hconv, hsnap⟩ := Pc.converging_of_releases hne
      rw [(hc.thread t).clean hconv hsnap] at he
      cases he
    rw [(stopHeld_post hheld hrel).2.1, hheld.2.1]
  · rcases (hc.thread t).converging ht with ht | ht <;> rcases (hc.thread u).converging hu with hu | hu
    · exact Option.some.inj (ht.symm.trans hu)
    · exact hc.shared.agree t u ht hu
    · exact (hc.shared.agree u t hu ht).symm
    · exact Option.some.inj (ht.symm.trans hu)

/-- A stop whose final snapshot is waited for too long holds the assignment, and the next stop is
refused. -/
theorem one_convergence_timeout : ∃ c : Conf, threads.machine.Reach Machine.Any start c ∧
    (c.shared.sent = [(2, 0)] ∧ c.shared.row.assigned = some 0 ∧ c.th 3 = .over) ∧
      (∀ t a, pre t c.shared (c.th t) a → c.shared.Outstanding →
        (post t c.shared (c.th t) a).1.row.assigned = c.shared.row.assigned) ∧
        ∀ t u, (c.th t).converging = true → (c.th u).converging = true → t = u := by
  have hrun : (threads.machine.exec
      [(0, .openSession 0), (1, .startServer), (1, .step ⟨0, true, false, 0⟩), (1, .step ⟨0, true, false, 0⟩),
        (1, .step ⟨0, true, false, 0⟩), (1, .answer .success), (1, .step ⟨0, true, false, 0⟩),
        (1, .answer .success), (2, .stopServer), (2, .step ⟨0, true, false, 0⟩),
        (2, .step ⟨0, true, false, 0⟩), (2, .answer .success), (2, .step ⟨0, true, false, 1⟩),
        (2, .step ⟨0, true, false, 0⟩), (0, .send 2), (2, .timeout), (2, .step ⟨0, true, false, 0⟩),
        (3, .stopServer)] start).map
      (fun c => decide (c.shared.sent = [(2, 0)] ∧ c.shared.row.assigned = some 0 ∧ c.th 3 = .over)) =
        some true := by
    decide +kernel
  obtain ⟨c, hc, hb⟩ := Machine.reach_of_exec_map hrun
  exact ⟨c, hc, of_decide_eq_true hb, one_convergence hc⟩

end McServerDashboard.Lifecycle
