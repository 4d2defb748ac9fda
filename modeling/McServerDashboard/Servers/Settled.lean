import McServerDashboard.Servers.Convergence

/-!
# Rows left unsettled

A row that is stopped and unassigned is seen by no reconciler action, so it had better be at rest. A
flow that releases the assignment of a stop finds the row at rest first, long before it clears; a
compensation takes the assignment away whatever was observed last.

* `Pc.gated`: the flow has found the row at rest.
* `Settles`: what is recorded meanwhile, and what a compensation finds.
* **`unstuck_reach`**: in runs of such steps no row is stuck.
* `compensation_strands`, `late_report_strands`: how a row gets stuck otherwise.
-/

namespace McServerDashboard.Lifecycle

open Lib Servers

variable {s : State} {t : ℕ} {p : Pc} {a : Action} {row : Row} {busy : Bool}

/-- No row is stopped and unassigned but not at rest. -/
def Row.Unstuck (r : Row) : Prop := r.desired = .stopped → r.assigned = none → settled r.observed = true

/-- The snapshot's result is followed by a release. -/
def Purpose.gated : Purpose → Bool
  | .release gate => gate
  | .stale o => o ≠ .stopping

/-- The flow has found the row at rest, and goes on to release the assignment. -/
def Pc.gated : Pc → Bool
  | .toSnapshot _ z => z.gated
  | .snapshotting _ z => z.gated
  | .clearing _ _ => true
  | .staleClear _ o => o ≠ .stopping
  | .lateClear _ => true
  | _ => false

/-- Such a flow is under way. -/
def releasing (c : Conf) : Bool :=
  (c.shared.claims.any fun u => (c.th u).gated) || c.shared.shielded.any fun u => (c.th u).gated

/-- A compensation that takes the assignment away finds an at-rest observed state, no live one is
recorded while a release is under way (`busy`), and the write of a confirmed stop is not dropped. -/
def StepSettles (s : State) (busy : Bool) (p : Pc) : Action → Prop
  | .step x =>
    match p with
    | .compensating _ _ => s.row.desired = .running → settled s.row.observed = true
    | .unassigning _ r =>
      r.desired = .stopped → s.row.desired = .running → settled s.row.observed = true
    | .recordRunning l =>
      busy = true → s.row.recordObservedState .running x.now false l.worker = none
    | .confirmed _ => settled s.row.observed = true ∨ s.row.observedAt.all (· < x.now) = true
    | _ => True
  | .report w o now =>
    busy = true → settled o = false → s.row.recordObservedState o now false w = none
  | _ => True

def Settles (c : Conf) (x : ℕ × Action) : Prop :=
  StepSettles c.shared (releasing c) (c.th x.1) x.2

instance (s : State) (busy : Bool) (p : Pc) (a : Action) : Decidable (StepSettles s busy p a) := by
  induction a using Action.casesOn with
  | step x => induction p using Pc.casesOn <;> (dsimp only [StepSettles]; infer_instance)
  | report w o now => dsimp only [StepSettles]; infer_instance
  | _ => exact isTrue trivial

instance (c : Conf) (x : ℕ × Action) : Decidable (Settles c x) :=
  inferInstanceAs (Decidable (StepSettles _ _ _ _))

/-- What a flow that rewrites the assignment has read. -/
def Assigned : Pc → Prop
  | .restarting r => r.desired = .running ∧ r.assigned ≠ none
  | .draining r => r.desired = .running ∧ r.assigned ≠ none
  | _ => True

/-! ## What is observed -/

/-- **While a release is under way no live state is recorded.** -/
theorem Writes.still_settled (hw : Writes t s p a row) (h : settled s.row.observed = true)
    (hs : StepSettles s true p a) : settled row.observed = true := by
  cases hw with
  | place x hx hu | compensate x hu | unassign x hu | restart x hu | drain x hu | flip x hu hw =>
    rw [(updateLifecycle_eq_some.mp hu).2]
    exact h
  | settings x hx => exact h
  | observe o now w ho hu =>
    obtain ⟨-, hrow⟩ := recordObservedState_eq_some.mp hu
    rw [hrow]
    cases ho with
    | report =>
      by_contra hlive
      rw [hs rfl (Bool.not_eq_true _ ▸ hlive)] at hu
      cases hu
    | running =>
      rw [hs rfl] at hu
      cases hu
    | confirmed | notFound => rfl
  | markUnknown w now =>
    unfold Row.markWorkerServersUnknown
    split_ifs
    · rfl
    · exact h
  | reset now =>
    unfold Row.resetUnverifiableObservedStates
    split_ifs
    · rfl
    · exact h
  | clear x hx hu | lateClear x hu | staleClear x hne hu =>
    rw [(clearAssignment_eq_some.mp hu).2]
    exact h
  | staleUnknown x hu =>
    rw [(recordObservedState_eq_some.mp hu).2]
    rfl

theorem settled_post (h : settled s.row.observed = true) (hs : StepSettles s true p a) :
    settled (post t s p a).1.row.observed = true := by
  rcases writes_post (t := t) (s := s) (p := p) (a := a) with hrow | hw
  · rw [hrow]
    exact h
  · exact hw.still_settled h hs

/-! ## The gates -/

theorem gated_afterSnapshot {h : Hold} {z : Purpose} {live : Bool}
    (hg : (s.afterSnapshot t h z live).2.gated = true) : z.gated = true ∧ live = false := by
  unfold State.afterSnapshot at hg
  cases z with
  | release gate =>
    dsimp only at hg
    split_ifs at hg with hc
    · rw [Bool.and_eq_true, Bool.not_eq_true'] at hc
      exact hc
    · cases hg
  | stale o =>
    dsimp only at hg
    split_ifs at hg with hl
    · cases hg
    · exact ⟨hg, Bool.not_eq_true _ ▸ hl⟩

theorem settled_of_down {o : ObservedState} (h : (o = .stopped || o = .crashed : Bool) = true) :
    settled o = true := by
  rw [Bool.or_eq_true, decide_eq_true_eq, decide_eq_true_eq] at h
  rcases h with rfl | rfl <;> rfl

/-- A stale-assignment clear has read an at-rest row. -/
theorem gated_readClaimed {f : StopFlow} {b : Bool} (hg : (s.readClaimed f b).2.gated = true) :
    settled s.row.observed = true := by
  unfold State.readClaimed at hg
  cases ha : s.row.assigned with
  | none =>
    rw [ha] at hg
    cases hg
  | some w =>
    rw [ha] at hg
    cases f with
    | stop =>
      dsimp only at hg
      split_ifs at hg
      · cases hg
      · split at hg <;> cases hg
    | redispatchStop =>
      dsimp only at hg
      split_ifs at hg <;> cases hg
    | clearStale =>
      dsimp only at hg
      split_ifs at hg with _ hat _ hun
      · exact settled_of_down hat
      · exact settled_of_down hat
      · cases hg
      · rw [Bool.or_eq_true, decide_eq_true_eq, decide_eq_true_eq] at hun
        rcases hun with h | h <;> rw [h] at hg ⊢
        · rfl
        · cases hg
      all_goals cases hg

theorem Pc.converging_of_gated (h : p.gated = true) : p.converging = true := by
  cases p <;> simp_all [Pc.gated, Pc.converging, Pc.claims, Pc.shields]

theorem gated_advance {x : Choice} (hok : Ok s t p) (hs : StepSettles s busy p (.step x))
    (hg : (advance t s x p).2.gated = true) :
    p.gated = true ∨ settled (advance t s x p).1.row.observed = true := by
  by_cases hp : p.converging = true
  · cases p with
    | claimed f =>
      right
      change settled (s.readClaimed f x.flag).1.row.observed = true
      rw [readClaimed_row]
      exact gated_readClaimed hg
    | confirmed h =>
      right
      show settled (s.write (s.row.recordObservedState .stopped x.now false h.worker)).row.observed = true
      cases hr : s.row.recordObservedState .stopped x.now false h.worker with
      | some row =>
        show settled row.observed = true
        rw [(recordObservedState_eq_some.mp hr).2]
        rfl
      | none =>
        -- The flow holds the assignment, so the write is dropped by its time only.
        refine hs.resolve_right fun htime => ?_
        rw [Row.recordObservedState, if_pos ⟨htime, (hok.hold h rfl).2.1⟩] at hr
        cases hr
    | notFound h =>
      right
      change (if _ then _ else _ : Pc).gated = true at hg
      split_ifs at hg with hc
      · show settled s.row.observed = true
        rw [hc.2]
        rfl
      · cases hg
    | notFoundWrite h =>
      right
      obtain ⟨row, hr⟩ := Option.isSome_iff_exists.mp (show Option.isSome _ = true from hg)
      show settled (s.write (s.row.recordObservedState .stopped x.now false h.worker)).row.observed = true
      rw [hr]
      show settled row.observed = true
      rw [(recordObservedState_eq_some.mp hr).2]
      rfl
    | toSnapshot h z =>
      left
      change (if _ then (s.dispatchSnapshot t h.worker, _) else s.afterSnapshot t h z false :
        State × Pc).2.gated = true at hg
      split_ifs at hg
      · exact hg
      · exact (gated_afterSnapshot hg).1
    | snapshotting h z => exact .inl (gated_afterSnapshot hg).1
    | timedOut h z => exact absurd (gated_afterSnapshot hg).2 (by simp)
    | lateClaimed w =>
      right
      change (if _ then (s, _) else s.leave : State × Pc).2.gated = true at hg
      show settled (if _ then (s, _) else s.leave : State × Pc).1.row.observed = true
      split_ifs at hg ⊢ with hc
      · rcases hc.2.1 with h | h <;> (rw [h]; rfl)
      · cases hg
    | flipping r =>
      unfold advance at hg
      dsimp only at hg
      split at hg <;> cases hg
    | clearing h caller | lateClear h => exact .inl rfl
    | stopSent h | staleClear h o | abandoning h | cleared caller => cases hg
    | _ => cases hp
  · rw [Bool.not_eq_true] at hp
    have hq := (advance_frame (t := t) (s := s) x hp).2.2.2
    rw [Pc.converging_of_gated hg] at hq
    cases hq

theorem gated_answered {o : Outcome} (hg : (answered s o p).2.gated = true) : p.gated = true := by
  by_cases hp : p.converging = true
  · cases p with
    | stopSent h => cases o <;> cases hg
    | hydrating l | starting l => cases hp
    | _ => exact hg
  · rw [Bool.not_eq_true] at hp
    have hq := (answered_frame (s := s) (o := o) hp).2
    rw [Pc.converging_of_gated hg] at hq
    cases hq

theorem gated_cancelled (hg : (cancelled t s p).2.gated = true) : p.gated = true := by
  by_cases hp : p.converging = true
  · cases p with
    | clearing h caller => rfl
    | cleared caller => cases caller <;> cases hg
    | _ => cases hg
  · rw [Bool.not_eq_true] at hp
    have hq := (cancelled_frame (t := t) (s := s) hp).2.2.2
    rw [Pc.converging_of_gated hg] at hq
    cases hq

theorem gated_clearOnLate {n : ℕ} : (s.clearOnLateSnapshot t n).2.gated = false := by
  unfold State.clearOnLateSnapshot
  dsimp only
  repeat' (first | rfl | split)

theorem gated_resolve {n : ℕ} : (s.resolve t n).2.gated = false := by
  unfold State.resolve
  dsimp only
  split
  · exact gated_clearOnLate
  · split_ifs
    · rfl
    · exact gated_clearOnLate
    · rfl

theorem gated_claim {f : StopFlow} : (s.claim t f).2.gated = false := by
  unfold State.claim
  split_ifs <;> rfl

/-- **A flow passes its gate only over a row at rest**, and has passed it until it clears. -/
theorem gated_post (hok : Ok s t p) (hs : StepSettles s busy p a) (hg : (post t s p a).2.gated = true) :
    p.gated = true ∨ settled (post t s p a).1.row.observed = true := by
  cases a with
  | step x => exact gated_advance hok hs hg
  | answer o => exact .inl (gated_answered hg)
  | cancel => exact .inl (gated_cancelled hg)
  | timeout =>
    cases p with
    | snapshotting h z => cases hg
    | _ => exact .inl hg
  | restartServer | drain =>
    change (if _ then _ else _ : Pc).gated = true at hg
    split_ifs at hg <;> cases hg
  | redispatchStart =>
    unfold post at hg
    dsimp only at hg
    split at hg <;> cases hg
  | stopServer | redispatchStop | clearStale => exact absurd (gated_claim.symm.trans hg) (by simp)
  | resolve n => exact absurd (gated_resolve.symm.trans hg) (by simp)
  | startServer | placeAndStart | updateServer | crash => cases hg
  | report w o now => exact .inl hg
  | markUnknown w now | reset now | openSession w | closeSession w | send n => exact .inl hg

/-! ## Rows that are unstuck -/

theorem Row.Unstuck.assigned {r : Row} (h : r.assigned ≠ none) : r.Unstuck := fun _ hn => absurd hn h

theorem unstuck_markUnknown {r : Row} {w : WorkerId} {now : ℕ} (h : r.Unstuck) :
    (r.markWorkerServersUnknown w now).Unstuck := by
  unfold Row.markWorkerServersUnknown
  split_ifs with hw
  · exact .assigned (by simp [hw])
  · exact h

theorem unstuck_reset {r : Row} {now : ℕ} (h : r.Unstuck) : (r.resetUnverifiableObservedStates now).Unstuck := by
  unfold Row.resetUnverifiableObservedStates
  split_ifs with hr
  · exact .assigned (Option.isSome_iff_ne_none.mp hr.1)
  · exact h

/-- A write keeps the row unstuck, as a release is of a row at rest. -/
theorem Writes.unstuck (hw : Writes t s p a row) (h : s.row.Unstuck) (hp : Assigned p)
    (hg : p.gated = true → settled s.row.observed = true) (hs : StepSettles s busy p a) : row.Unstuck := by
  cases hw with
  | place x hx hu =>
    rw [(updateLifecycle_eq_some.mp hu).2]
    exact .assigned (by simp)
  | compensate x hu =>
    obtain ⟨⟨hd, -⟩, rfl⟩ := updateLifecycle_eq_some.mp hu
    exact fun _ _ => hs hd
  | unassign x hu =>
    obtain ⟨⟨hd, -⟩, rfl⟩ := updateLifecycle_eq_some.mp hu
    exact fun hr _ => hs hr hd
  | restart x hu | drain x hu =>
    rw [(updateLifecycle_eq_some.mp hu).2]
    exact .assigned hp.2
  | flip x hu hw =>
    rw [(updateLifecycle_eq_some.mp hu).2]
    exact .assigned (by simp [hw])
  | settings x hx => exact h
  | observe o now w _ hu =>
    obtain ⟨⟨-, ha⟩, rfl⟩ := recordObservedState_eq_some.mp hu
    exact .assigned (by simp [ha])
  | markUnknown w now => exact unstuck_markUnknown h
  | reset now => exact unstuck_reset h
  | clear x hx hu | lateClear x hu =>
    rw [(clearAssignment_eq_some.mp hu).2]
    exact fun _ _ => hg rfl
  | staleClear x hne hu =>
    rw [(clearAssignment_eq_some.mp hu).2]
    exact fun _ _ => hg (decide_eq_true hne)
  | staleUnknown x hu =>
    rw [(recordObservedState_eq_some.mp hu).2]
    exact fun _ _ => rfl

theorem unstuck_post (h : s.row.Unstuck) (hp : Assigned p)
    (hg : p.gated = true → settled s.row.observed = true) (hs : StepSettles s busy p a) :
    (post t s p a).1.row.Unstuck := by
  rcases writes_post (t := t) (s := s) (p := p) (a := a) with hrow | hw
  · rw [hrow]
    exact h
  · exact hw.unstuck h hp hg hs

/-- A compensation that takes the assignment of a live row away leaves the row stuck. -/
theorem stuck_compensating {l : Launch} {r : Row} {x : Choice}
    (hs : ¬StepSettles s busy (.compensating l r) (.step x)) :
    ¬(post t s (.compensating l r) (.step x)).1.row.Unstuck := by
  simp only [StepSettles, Classical.not_imp] at hs
  have hu : s.row.updateLifecycle { r with desired := .stopped, assigned := none } .running false = some _ :=
    updateLifecycle_eq_some.mpr ⟨⟨hs.1, by simp⟩, rfl⟩
  have hrow : (post t s (.compensating l r) (.step x)).1.row = _ := congrArg (Option.getD · s.row) hu
  rw [hrow]
  exact fun hun => hs.2 (hun rfl rfl)

theorem stuck_unassigning {l : Launch} {r : Row} {x : Choice}
    (hs : ¬StepSettles s busy (.unassigning l r) (.step x)) :
    ¬(post t s (.unassigning l r) (.step x)).1.row.Unstuck := by
  simp only [StepSettles, Classical.not_imp] at hs
  have hu : s.row.updateLifecycle { r with assigned := none } .running false = some _ :=
    updateLifecycle_eq_some.mpr ⟨⟨hs.2.1, by simp⟩, rfl⟩
  have hrow : (post t s (.unassigning l r) (.step x)).1.row = _ := congrArg (Option.getD · s.row) hu
  rw [hrow]
  exact fun hun => hs.2.2 (hun hs.1 rfl)

/-! ## What a flow has read -/

theorem assigned_undo (l : Launch) : Assigned l.undo := by
  unfold Launch.undo
  split <;> trivial

theorem assigned_settle (l : Launch) (o : Outcome) : Assigned (l.settle o) := by
  obtain ⟨kind, worker, placement, attempted, skip⟩ := l
  cases o <;> cases kind <;> cases attempted <;> trivial

theorem assigned_readClaimed {f : StopFlow} {b : Bool} : Assigned (s.readClaimed f b).2 := by
  unfold State.readClaimed
  repeat' (first | trivial | split)

theorem assigned_afterSnapshot {h : Hold} {z : Purpose} {live : Bool} :
    Assigned (s.afterSnapshot t h z live).2 := by
  unfold State.afterSnapshot
  repeat' (first | trivial | split)

theorem assigned_advance (x : Choice) : Assigned (advance t s x p).2 ∨ (advance t s x p).2 = p := by
  cases p with
  | idle => exact .inr rfl
  | «over» => exact .inr rfl
  | hydrating l => exact .inr rfl
  | starting l => exact .inr rfl
  | stopSent h => exact .inr rfl
  | claimed f => exact .inl assigned_readClaimed
  | snapshotting h z | timedOut h z => exact .inl assigned_afterSnapshot
  | _ =>
    left
    unfold advance
    dsimp only
    repeat' (first | trivial | exact assigned_undo _ | exact assigned_afterSnapshot | split)

theorem assigned_clearOnLate {n : ℕ} : Assigned (s.clearOnLateSnapshot t n).2 := by
  unfold State.clearOnLateSnapshot
  dsimp only
  repeat' (first | trivial | split)

/-- A flow has read an assigned row before it restarts or drains. -/
theorem assigned_post (hp : Assigned p) : Assigned (post t s p a).2 := by
  cases a with
  | step x =>
    rcases assigned_advance (t := t) (s := s) (p := p) x with h | h
    · exact h
    · exact h.symm ▸ hp
  | answer o =>
    cases p with
    | hydrating l | starting l =>
      show Assigned (if _ then _ else l.settle o)
      split_ifs
      · trivial
      · exact assigned_settle l o
    | stopSent h => cases o <;> trivial
    | _ => exact hp
  | cancel =>
    cases p with
    | clearing h caller | cleared caller => cases caller <;> trivial
    | _ => trivial
  | timeout =>
    cases p with
    | snapshotting h z => trivial
    | _ => exact hp
  | restartServer =>
    show Assigned (if _ then .restarting s.row else .over)
    split_ifs with h
    · exact h
    · trivial
  | drain =>
    show Assigned (if _ then .draining s.row else .over)
    split_ifs with h
    · exact h
    · trivial
  | redispatchStart =>
    unfold post
    dsimp only
    split <;> trivial
  | resolve n =>
    unfold post State.resolve
    dsimp only
    split
    · exact assigned_clearOnLate
    · split_ifs
      · trivial
      · exact assigned_clearOnLate
      · trivial
  | stopServer =>
    show Assigned (s.claim t .stop).2
    unfold State.claim
    split_ifs <;> trivial
  | redispatchStop =>
    show Assigned (s.claim t .redispatchStop).2
    unfold State.claim
    split_ifs <;> trivial
  | clearStale =>
    show Assigned (s.claim t .clearStale).2
    unfold State.claim
    split_ifs <;> trivial
  | startServer => trivial
  | placeAndStart => trivial
  | updateServer => trivial
  | crash => trivial
  | report w o now => exact hp
  | markUnknown w now => exact hp
  | reset now => exact hp
  | openSession w => exact hp
  | closeSession w => exact hp
  | send n => exact hp

/-! ## Runs -/

/-- What holds of a flow at each of its positions. -/
structure Gate (s : State) (t : ℕ) (p : Pc) : Prop where
  ok : Ok s t p
  assigned : Assigned p
  gate : p.gated = true → settled s.row.observed = true

theorem releasing_of_gated {c : Conf} {u : ℕ} (hok : Ok c.shared u (c.th u)) (hg : (c.th u).gated = true) :
    releasing c = true := by
  rw [releasing, Bool.or_eq_true]
  rcases hok.converging (Pc.converging_of_gated hg) with h | h
  · exact .inl (by simp [h, hg])
  · exact .inr (by simp [h, hg])

/-- **No row is left unsettled.** In every run in which no live state is recorded between a release's
gate and its clear, and no compensation takes the assignment of a live row away:

* a stopped and unassigned row is at rest;
* a flow that is to release the assignment still finds the row at rest;
* the condition on a compensation is exact: its write leaves a stuck row when it fails. -/
theorem unstuck_reach {c : Conf} (h : threads.machine.Reach Settles start c) :
    c.shared.row.Unstuck ∧
      (∀ t, (c.th t).gated = true → settled c.shared.row.observed = true) ∧
      ∀ t l r x, c.th t = .compensating l r ∨ c.th t = .unassigning l r →
        (Settles c (t, .step x) ↔ (post t c.shared (c.th t) (.step x)).1.row.Unstuck) := by
  have hc : Threads.Holds (fun s => Inv s ∧ s.row.Unstuck) Gate c := by
    refine Threads.invariant h
      ⟨⟨holds_start.shared, fun _ _ => rfl⟩, fun t => ⟨holds_start.thread t, trivial, fun hg => by cases hg⟩⟩
      fun c t a hc hpre hP => ?_
    have hs := steps_post hc.shared.1 (hc.thread t).ok hpre
    -- While some flow is past its gate the row stays at rest.
    have hkeep : ∀ u, (c.th u).gated = true → settled (post t c.shared (c.th t) a).1.row.observed = true := by
      intro u hu
      have hP : StepSettles c.shared (releasing c) (c.th t) a := hP
      rw [releasing_of_gated (hc.thread u).ok hu] at hP
      exact settled_post ((hc.thread u).gate hu) hP
    refine ⟨⟨hs.inv, unstuck_post hc.shared.2 (hc.thread t).assigned (hc.thread t).gate hP⟩,
      ⟨hs.own, assigned_post (hc.thread t).assigned, fun hg => ?_⟩,
      fun u hu hgate => ⟨hs.others.ok hu hgate.ok, hgate.assigned, fun hg => hkeep u hg⟩⟩
    exact (gated_post (hc.thread t).ok hP hg).elim (hkeep t) id
  refine ⟨hc.shared.2, fun t => (hc.thread t).gate, fun t l r x hp => ⟨fun hs =>
    unstuck_post hc.shared.2 (hc.thread t).assigned (hc.thread t).gate hs, fun hun => ?_⟩⟩
  by_contra hs
  rcases hp with hp | hp <;> rw [Settles, hp] at hs <;> rw [hp] at hun
  · exact stuck_compensating hs hun
  · exact stuck_unassigning hs hun

/-- A server is started, reported and stopped, and its row is left at rest. -/
theorem unstuck_reach_stop : ∃ c : Conf, threads.machine.Reach Settles start c ∧
    (c.shared.row.desired = .stopped ∧ c.shared.row.assigned = none) ∧
      c.shared.row.Unstuck ∧ (∀ t, (c.th t).gated = true → settled c.shared.row.observed = true) ∧
        ∀ t l r x, c.th t = .compensating l r ∨ c.th t = .unassigning l r →
          (Settles c (t, .step x) ↔ (post t c.shared (c.th t) (.step x)).1.row.Unstuck) := by
  have hrun : ((threads.machine.guard Settles).exec
      [(1, .startServer), (1, .step ⟨0, true, false, 0⟩), (1, .step ⟨0, true, false, 0⟩),
        (1, .step ⟨0, true, false, 0⟩), (1, .answer .success), (1, .step ⟨0, true, false, 0⟩),
        (0, .report 0 .running 1), (1, .answer .success), (2, .stopServer), (2, .step ⟨0, true, false, 0⟩),
        (2, .step ⟨0, true, false, 0⟩), (2, .answer .success), (0, .report 0 .stopping 2),
        (2, .step ⟨0, true, false, 3⟩), (2, .step ⟨0, true, false, 0⟩), (2, .step ⟨0, true, false, 0⟩),
        (2, .step ⟨0, true, false, 0⟩)] start).map
      (fun c => decide (c.shared.row.desired = .stopped ∧ c.shared.row.assigned = none)) = some true := by
    decide +kernel
  obtain ⟨c, hc, hb⟩ := Machine.reach_of_exec_map hrun
  exact ⟨c, Machine.reach_of_guard hc, of_decide_eq_true hb, unstuck_reach (Machine.reach_of_guard hc)⟩

/-- **A compensation strands the row.** A stop is released while its Worker is cut off with the
instance alive. The next start is placed there again, the Worker reports the instance and refuses the
hydrate over it, and the compensation leaves the row stopped, unassigned and running. -/
theorem compensation_strands : ∃ c : Conf, threads.machine.Reach Machine.Any start c ∧
    c.shared.row.desired = .stopped ∧ c.shared.row.assigned = none ∧ c.shared.row.observed = .running := by
  have hrun : (threads.machine.exec
      [(0, .openSession 0), (1, .startServer), (1, .step ⟨0, true, false, 0⟩), (1, .step ⟨0, true, false, 0⟩),
        (1, .step ⟨0, true, false, 0⟩), (1, .answer .success), (1, .step ⟨0, true, false, 0⟩),
        (0, .report 0 .running 1), (1, .answer .success), (0, .closeSession 0), (0, .markUnknown 0 2),
        (2, .stopServer), (2, .step ⟨0, true, false, 0⟩), (2, .step ⟨0, true, false, 0⟩),
        (2, .answer .unavailable), (3, .clearStale), (3, .step ⟨0, true, false, 0⟩),
        (3, .step ⟨0, true, false, 0⟩), (0, .openSession 0), (4, .startServer),
        (4, .step ⟨0, true, false, 0⟩), (4, .step ⟨0, true, false, 0⟩), (4, .step ⟨0, true, false, 0⟩),
        (0, .report 0 .running 3), (4, .answer .invalidState), (4, .step ⟨0, true, false, 0⟩),
        (4, .step ⟨0, true, false, 0⟩)] start).map
      (fun c => decide (c.shared.row.desired = .stopped ∧ c.shared.row.assigned = none ∧
        c.shared.row.observed = .running)) = some true := by
    decide +kernel
  obtain ⟨c, hc, hb⟩ := Machine.reach_of_exec_map hrun
  exact ⟨c, hc, of_decide_eq_true hb⟩

/-- **A report strands the row** when it comes in after the gate: the stop is answered that there is no
instance and writes `stopped`, the start that was sent before still comes up and is reported, and then
the stop clears. -/
theorem late_report_strands : ∃ c : Conf, threads.machine.Reach Machine.Any start c ∧
    c.shared.row.desired = .stopped ∧ c.shared.row.assigned = none ∧ c.shared.row.observed = .running := by
  have hrun : (threads.machine.exec
      [(0, .openSession 0), (1, .startServer), (1, .step ⟨0, true, false, 0⟩), (1, .step ⟨0, true, false, 0⟩),
        (1, .step ⟨0, true, false, 0⟩), (1, .answer .success), (1, .step ⟨0, true, false, 0⟩),
        (2, .stopServer), (2, .step ⟨0, true, false, 0⟩), (2, .step ⟨0, true, false, 0⟩),
        (2, .answer .notFound), (2, .step ⟨0, true, false, 0⟩), (2, .step ⟨0, true, false, 1⟩),
        (2, .step ⟨0, true, false, 0⟩), (0, .send 2), (0, .report 0 .running 2), (3, .resolve 2),
        (2, .step ⟨0, true, false, 0⟩), (2, .step ⟨0, true, false, 0⟩)] start).map
      (fun c => decide (c.shared.row.desired = .stopped ∧ c.shared.row.assigned = none ∧
        c.shared.row.observed = .running)) = some true := by
    decide +kernel
  obtain ⟨c, hc, hb⟩ := Machine.reach_of_exec_map hrun
  exact ⟨c, hc, of_decide_eq_true hb⟩

end McServerDashboard.Lifecycle
