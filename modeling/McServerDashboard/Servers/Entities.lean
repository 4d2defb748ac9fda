import Mathlib.Tactic.TypeStar

/-!
# The states of a server row

What the operator wants of a server and what was last observed of it, and the predicate that
gates the edits of its authoritative copy.
-/

namespace McServerDashboard.Servers

/-- What the operator wants. -/
inductive DesiredState
  | running
  | stopped
  deriving DecidableEq

/-- The last reported state. -/
inductive ObservedState
  | starting
  | running
  | stopping
  | stopped
  | restarting
  | crashed
  | unknown
  deriving DecidableEq

/-- `Server.is_at_rest`. The assignment is not looked at. -/
def isAtRest (desired : DesiredState) (observed : ObservedState) : Bool :=
  desired = .stopped && (observed = .stopped || observed = .unknown || observed = .crashed)

theorem stopped_of_isAtRest {desired : DesiredState} {observed : ObservedState}
    (h : isAtRest desired observed = true) : desired = .stopped := by
  rw [isAtRest, Bool.and_eq_true] at h
  exact of_decide_eq_true h.1

end McServerDashboard.Servers
