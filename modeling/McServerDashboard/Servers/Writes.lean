import McServerDashboard.Servers.Lifecycle

/-!
# What the flows write

* `Writes`: the writes of the row, by the position of the flow that makes them.
* **`writes_post`**: a step leaves the row as it is or makes one of these writes.
* `Row.stopHeld` and the writes: while a stop holds the assignment, only a release changes it.
-/

namespace McServerDashboard.Lifecycle

open Lib Servers

/-- Who records an observed state. -/
inductive Observes : Pc → Action → ObservedState → ℕ → WorkerId → Prop
  | report {p w o now} : Observes p (.report w o now) o now w
  | running {l x} : Observes (.recordRunning l) (.step x) .running x.now l.worker
  | confirmed {h x} : Observes (.confirmed h) (.step x) .stopped x.now h.worker
  | notFound {h x} : Observes (.notFoundWrite h) (.step x) .stopped x.now h.worker

/-- The write that a flow makes by an action at its position, and the row after it. -/
inductive Writes (t : ℕ) (s : State) : Pc → Action → Row → Prop
  | place {kind r row} (x : Choice) : x.ok = true →
    s.row.updateLifecycle
      { r with desired := .running, assigned := some x.worker, placement := s.nextPlacement }
      (if kind = .start then .stopped else .running) true = some row →
      Writes t s (.placing kind r) (.step x) row
  | compensate {l r row} (x : Choice) :
    s.row.updateLifecycle { r with desired := .stopped, assigned := none } .running false = some row →
      Writes t s (.compensating l r) (.step x) row
  | unassign {l r row} (x : Choice) :
    s.row.updateLifecycle { r with assigned := none } .running false = some row →
      Writes t s (.unassigning l r) (.step x) row
  | restart {r row} (x : Choice) : s.row.updateLifecycle r .running false = some row →
      Writes t s (.restarting r) (.step x) row
  | drain {r row} (x : Choice) :
    s.row.updateLifecycle { r with desired := .stopped } .running false = some row →
      Writes t s (.draining r) (.step x) row
  | flip {r row w} (x : Choice) :
    s.row.updateLifecycle { r with desired := .stopped } .running false = some row →
      r.assigned = some w → Writes t s (.flipping r) (.step x) row
  | settings {r} (x : Choice) : x.ok = true → Writes t s (.updating r) (.step x) (s.row.update r.config t)
  | observe {p a row} (o : ObservedState) (now : ℕ) (w : WorkerId) : Observes p a o now w →
    s.row.recordObservedState o now false w = some row → Writes t s p a row
  | markUnknown {p} (w : WorkerId) (now : ℕ) :
    Writes t s p (.markUnknown w now) (s.row.markWorkerServersUnknown w now)
  | reset {p} (now : ℕ) : Writes t s p (.reset now) (s.row.resetUnverifiableObservedStates now)
  | clear {h caller row} (x : Choice) : x.ok = true →
    s.row.clearAssignmentAfterFinalSnapshot h.worker = some row →
      Writes t s (.clearing h caller) (.step x) row
  | lateClear {h row} (x : Choice) : s.row.clearAssignmentAfterFinalSnapshot h.worker = some row →
      Writes t s (.lateClear h) (.step x) row
  | staleClear {h o row} (x : Choice) : o ≠ .stopping →
    s.row.clearAssignmentAfterFinalSnapshot h.worker = some row →
      Writes t s (.staleClear h o) (.step x) row
  | staleUnknown {h row} (x : Choice) :
    s.row.recordObservedState .unknown x.now true h.worker = some row →
      Writes t s (.staleClear h .stopping) (.step x) row

variable {s s' : State} {t u : ℕ} {p : Pc} {a : Action} {w : WorkerId} {k n : ℕ}

/-! ## Steps that leave the row -/

@[simp] theorem discardPending_row : (s.discardPending n).row = s.row := rfl

@[simp] theorem retireWorkerCommands_row : (s.retireWorkerCommands w).row = s.row := rfl

@[simp] theorem dispatchSnapshot_row : (s.dispatchSnapshot t w).row = s.row := rfl

@[simp] theorem leave_row : s.leave.1.row = s.row := rfl

@[simp] theorem unlock_row : s.unlock.1.row = s.row := rfl

@[simp] theorem cancelFuture_row : (s.cancelFuture t).row = s.row := by
  unfold State.cancelFuture
  split_ifs <;> rfl

@[simp] theorem send_row : (s.send n).row = s.row := by
  unfold State.send
  split_ifs <;> rfl

@[simp] theorem claim_row {f : StopFlow} : (s.claim t f).1.row = s.row := by
  unfold State.claim
  split_ifs <;> rfl

@[simp] theorem clearOnLateSnapshot_row : (s.clearOnLateSnapshot t n).1.row = s.row := by
  unfold State.clearOnLateSnapshot
  split
  · rfl
  · dsimp only
    split_ifs <;> rfl

@[simp] theorem resolve_row : (s.resolve t n).1.row = s.row := by
  unfold State.resolve
  dsimp only
  split
  · simp
  · split_ifs <;> simp

@[simp] theorem afterSnapshot_row {q : Purpose} {live : Bool} :
    (s.afterSnapshot t h q live).1.row = s.row := by
  unfold State.afterSnapshot
  split <;> split_ifs <;> rfl

@[simp] theorem readClaimed_row {f : StopFlow} {b : Bool} : (s.readClaimed f b).1.row = s.row := by
  unfold State.readClaimed
  split
  · rfl
  · dsimp only
    split
    · split_ifs
      · rfl
      · split <;> rfl
    · split_ifs <;> rfl
    · split_ifs <;> rfl

theorem answered_row {o : Outcome} : (answered s o p).1.row = s.row := by
  unfold answered
  split
  · rfl
  · rfl
  · split <;> rfl
  · rfl

theorem cancelled_row : (cancelled t s p).1.row = s.row := by
  unfold cancelled
  split <;> simp

/-! ## Steps that write -/

theorem advance_updating {x : Choice} {r : Row} : advance t s x (.updating r) = if x.ok then
    ({ s with row := s.row.update r.config t, acked := t :: s.acked, lock := none }, .over)
  else s.unlock := rfl

theorem write_row {r : Option Row} : (s.write r).row = s.row ∨ r = some (s.write r).row := by
  cases r with
  | none => exact .inl rfl
  | some r => exact .inr rfl

/-- A write that may match nothing. -/
theorem writes_write {r : Option Row} (h : ∀ row, r = some row → Writes t s p a row) :
    (s.write r).row = s.row ∨ Writes t s p a (s.write r).row :=
  write_row.imp id (h _)

theorem writes_advance (x : Choice) :
    (advance t s x p).1.row = s.row ∨ Writes t s p (.step x) (advance t s x p).1.row := by
  cases p with
  | locked k =>
    left
    cases k <;> (show (if _ then (s, _) else s.unlock : State × Pc).1.row = s.row) <;> split_ifs <;> rfl
  | placing k r =>
    unfold advance
    dsimp only
    split
    · exact .inl rfl
    · rename_i row hrow
      by_cases hx : x.ok = true
      · rw [if_pos hx]
        exact .inr (.place x hx hrow)
      · rw [if_neg hx]
        exact .inl rfl
  | recordRunning l => exact writes_write fun _ h => .observe _ _ _ .running h
  | compensating l r => exact writes_write fun _ h => .compensate x h
  | unassigning l r => exact writes_write fun _ h => .unassign x h
  | restarting r => exact writes_write fun _ h => .restart x h
  | draining r => exact writes_write fun _ h => .drain x h
  | updating r =>
    rw [advance_updating]
    split_ifs with hx
    · exact .inr (.settings x hx)
    · exact .inl rfl
  | flipping r =>
    unfold advance
    dsimp only
    split
    · rename_i row w hrow hw
      exact .inr (.flip x hrow hw)
    · exact .inl rfl
  | confirmed h => exact writes_write fun _ h => .observe _ _ _ .confirmed h
  | notFoundWrite h => exact writes_write fun _ h => .observe _ _ _ .notFound h
  | clearing h caller =>
    unfold advance
    dsimp only
    split_ifs with hx
    · exact writes_write fun _ h => .clear x hx h
    · exact .inl rfl
  | staleClear h o =>
    unfold advance
    rw [leave_row]
    by_cases ho : o = .stopping
    · subst ho
      rw [if_pos rfl]
      exact writes_write fun _ h => .staleUnknown x h
    · rw [if_neg ho]
      exact writes_write fun _ h => .staleClear x ho h
  | lateClear h => exact writes_write fun _ h => .lateClear x h
  | lateClaimed w =>
    left
    show (if _ then (s, _) else s.leave : State × Pc).1.row = s.row
    split_ifs <;> rfl
  | toSnapshot h q =>
    left
    show (if _ then (s.dispatchSnapshot t h.worker, _) else s.afterSnapshot t h q false : State × Pc).1.row = _
    split_ifs
    · rfl
    · exact afterSnapshot_row
  | snapshotting h q => exact .inl afterSnapshot_row
  | timedOut h q => exact .inl (by simp [advance])
  | claimed f => exact .inl readClaimed_row
  | idle => exact .inl rfl
  | «over» => exact .inl rfl
  | generation l => exact .inl rfl
  | hydrating l => exact .inl rfl
  | toStart l => exact .inl rfl
  | starting l => exact .inl rfl
  | compensate l => exact .inl rfl
  | unassign l => exact .inl rfl
  | updateLocked => exact .inl rfl
  | stopSent h => exact .inl rfl
  | notFound h => exact .inl rfl
  | abandoning h => exact .inl rfl
  | cleared caller => exact .inl rfl

/-- **A step leaves the row as it is or makes one of the writes.** -/
theorem writes_post : (post t s p a).1.row = s.row ∨ Writes t s p a (post t s p a).1.row := by
  cases a with
  | step x => exact writes_advance x
  | report w o now => exact writes_write fun _ h => .observe _ _ _ .report h
  | markUnknown w now => exact .inr (.markUnknown w now)
  | reset now => exact .inr (.reset now)
  | redispatchStart =>
    left
    unfold post
    dsimp only
    split <;> rfl
  | answer o => exact .inl answered_row
  | cancel => exact .inl cancelled_row
  | timeout =>
    left
    unfold post
    dsimp only
    split <;> simp
  | startServer => exact .inl rfl
  | placeAndStart => exact .inl rfl
  | restartServer => exact .inl rfl
  | drain => exact .inl rfl
  | updateServer => exact .inl rfl
  | stopServer | redispatchStop | clearStale => exact .inl claim_row
  | crash => exact .inl rfl
  | openSession w => exact .inl rfl
  | closeSession w => exact .inl rfl
  | send n => exact .inl send_row
  | resolve n => exact .inl resolve_row

/-! ## What is held -/

/-- The assignment that the flow's next write releases. -/
def Pc.releases : Pc → Option Hold
  | .clearing h _ => some h
  | .staleClear h _ => some h
  | .lateClear h => some h
  | _ => none

/-- **While a stop holds the assignment, only a release changes it.** -/
theorem Writes.stopHeld {row : Row} (hw : Writes t s p a row) (h : s.row.stopHeld w k) :
    row.stopHeld w k ∨ p.releases ≠ none := by
  have hrun : ∀ {e : Row} {b : Bool}, s.row.updateLifecycle e .running b = some row → False := by
    intro e b hu
    have hd := (updateLifecycle_eq_some.mp hu).1.1
    rw [h.1] at hd
    cases hd
  cases hw with
  | place x hx hu =>
    have hnone := (updateLifecycle_eq_some.mp hu).1.2 rfl
    rw [h.2.1] at hnone
    cases hnone
  | compensate x hu | unassign x hu | restart x hu | drain x hu | flip x hu hr => exact (hrun hu).elim
  | settings x hx => exact .inl h
  | observe o now w' _ hu =>
    obtain ⟨o', t', rfl⟩ := recordObservedState_of_some hu
    exact .inl h
  | markUnknown w' now =>
    obtain ⟨o', t', ho⟩ := markWorkerServersUnknown_eq s.row w' now
    rw [ho]
    exact .inl h
  | reset now =>
    obtain ⟨o', t', ho⟩ := resetUnverifiableObservedStates_eq s.row now
    rw [ho]
    exact .inl h
  | clear x hx hu | lateClear x hu | staleClear x ho hu | staleUnknown x hu => exact .inr (by simp [Pc.releases])

theorem stopHeld_post (h : s.row.stopHeld w k) (hp : p.releases = none) :
    (post t s p a).1.row.stopHeld w k := by
  rcases writes_post (t := t) (s := s) (p := p) (a := a) with hrow | hw
  · rw [hrow]
    exact h
  · exact (hw.stopHeld h).resolve_right fun hne => hne hp

end McServerDashboard.Lifecycle
