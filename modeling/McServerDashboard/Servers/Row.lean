import Mathlib.Data.Nat.Notation
import Mathlib.Tactic.SplitIfs
import McServerDashboard.Servers.Entities

/-!
# The row of a server

What the lifecycle flows read of a server's row, and the writes of the repository. Each write is one
SQL statement: it tests its conditions and sets its columns at once, and says whether it matched.
-/

namespace McServerDashboard.Lifecycle

open Servers

abbrev WorkerId := ℕ

structure Row where
  desired : DesiredState
  observed : ObservedState
  observedAt : Option ℕ
  assigned : Option WorkerId
  /-- The settings updates that the config column derives from. -/
  config : List ℕ
  /-- The number of the placement that set the assignment (a ghost). -/
  placement : ℕ
  /-- How many settings updates were committed (a ghost). -/
  edits : ℕ
  deriving DecidableEq

/-- The assignment, and the placement it is of. -/
def Row.holds (r : Row) (w : WorkerId) (k : ℕ) : Prop := r.assigned = some w ∧ r.placement = k

/-- A stop has been asked for and placement `k` at `w` is still assigned. -/
def Row.stopHeld (r : Row) (w : WorkerId) (k : ℕ) : Prop := r.desired = .stopped ∧ r.holds w k

/-- The observed part of `is_at_rest`. -/
def settled (o : ObservedState) : Bool := o = .stopped || o = .unknown || o = .crashed

instance (r : Row) (w : WorkerId) (k : ℕ) : Decidable (r.holds w k) := inferInstanceAs (Decidable (_ ∧ _))

instance (r : Row) (w : WorkerId) (k : ℕ) : Decidable (r.stopHeld w k) :=
  inferInstanceAs (Decidable (_ ∧ _))

/-! ## Writes -/

/-- `update_lifecycle`: a compare-and-set on the desired state that also rewrites the assignment and
the config from the entity `e`. -/
def Row.updateLifecycle (r e : Row) (expectedFrom : DesiredState) (requireUnassigned : Bool) : Option Row :=
  if r.desired = expectedFrom ∧ (requireUnassigned = true → r.assigned = none) then
    some { r with desired := e.desired, assigned := e.assigned, placement := e.placement, config := e.config }
  else none

/-- `record_observed_state`, whose callers all name the Worker they expect. -/
def Row.recordObservedState (r : Row) (o : ObservedState) (now : ℕ) (unassign : Bool)
    (expectedWorker : WorkerId) : Option Row :=
  if r.observedAt.all (· < now) = true ∧ r.assigned = some expectedWorker then
    some { r with
      observed := o
      observedAt := some now
      assigned := if unassign then none else r.assigned }
  else none

/-- `clear_assignment_after_final_snapshot`. -/
def Row.clearAssignmentAfterFinalSnapshot (r : Row) (w : WorkerId) : Option Row :=
  if r.desired = .stopped ∧ r.assigned = some w then some { r with assigned := none } else none

/-- `mark_worker_servers_unknown`. -/
def Row.markWorkerServersUnknown (r : Row) (w : WorkerId) (now : ℕ) : Row :=
  if r.assigned = some w then { r with observed := .unknown, observedAt := some now } else r

/-- `reset_unverifiable_observed_states`. -/
def Row.resetUnverifiableObservedStates (r : Row) (now : ℕ) : Row :=
  if r.assigned.isSome ∧ (r.observed = .starting ∨ r.observed = .running ∨ r.observed = .stopping ∨
      r.observed = .restarting) then
    { r with observed := .unknown, observedAt := some now }
  else r

/-- `update` by the settings update `t`, from the config it has read. -/
def Row.update (r : Row) (config : List ℕ) (t : ℕ) : Row :=
  { r with config := t :: config, edits := r.edits + 1 }

variable {r row e : Row} {w : WorkerId} {k now : ℕ} {o : ObservedState} {d : DesiredState} {b : Bool}

theorem updateLifecycle_eq_some : r.updateLifecycle e d b = some row ↔
    (r.desired = d ∧ (b = true → r.assigned = none)) ∧
      row = { r with desired := e.desired, assigned := e.assigned, placement := e.placement, config := e.config } := by
  rw [Row.updateLifecycle, Option.ite_none_right_eq_some, Option.some.injEq, eq_comm (a := row)]

theorem recordObservedState_eq_some : r.recordObservedState o now b w = some row ↔
    (r.observedAt.all (· < now) = true ∧ r.assigned = some w) ∧
      row = { r with
        observed := o
        observedAt := some now
        assigned := if b then none else r.assigned } := by
  rw [Row.recordObservedState, Option.ite_none_right_eq_some, Option.some.injEq, eq_comm (a := row)]

theorem clearAssignment_eq_some : r.clearAssignmentAfterFinalSnapshot w = some row ↔
    (r.desired = .stopped ∧ r.assigned = some w) ∧ row = { r with assigned := none } := by
  rw [Row.clearAssignmentAfterFinalSnapshot, Option.ite_none_right_eq_some, Option.some.injEq,
    eq_comm (a := row)]

/-- A report changes no more than what was observed. -/
theorem recordObservedState_of_some (h : r.recordObservedState o now false w = some row) :
    ∃ o' t, row = { r with observed := o', observedAt := t } :=
  ⟨o, some now, (recordObservedState_eq_some.mp h).2⟩

theorem markWorkerServersUnknown_eq (r : Row) (w : WorkerId) (now : ℕ) : ∃ o t,
    r.markWorkerServersUnknown w now = { r with observed := o, observedAt := t } := by
  unfold Row.markWorkerServersUnknown
  split_ifs
  · exact ⟨_, _, rfl⟩
  · exact ⟨r.observed, r.observedAt, rfl⟩

theorem resetUnverifiableObservedStates_eq (r : Row) (now : ℕ) : ∃ o t,
    r.resetUnverifiableObservedStates now = { r with observed := o, observedAt := t } := by
  unfold Row.resetUnverifiableObservedStates
  split_ifs
  · exact ⟨_, _, rfl⟩
  · exact ⟨r.observed, r.observedAt, rfl⟩

end McServerDashboard.Lifecycle
