import Mathlib.Algebra.GroupWithZero.Nat
import Mathlib.Algebra.Order.BigOperators.Group.List
import Mathlib.Algebra.Order.Group.Nat
import McServerDashboard.Lib.Run

/-!
# Processes that come and go

Any number of processes over one shared state, each at a position of its own. A new one may start at
any time; one that is done stays where it is.

* `Crowd.machine`: the interleavings of the processes, as a `Machine`.
* `total`: what the processes hold together, each its share.
* **`total_step`**, `le_total`: a step changes the total by the share of the process that takes it.
-/

namespace Lib

variable {σ π α : Type*}

/-- The steps of one process, and the positions at which one may start. -/
structure Crowd (σ π α : Type*) where
  pre : σ → π → α → Prop
  post : σ → π → α → σ × π
  start : π → Prop

namespace Crowd

/-- The shared state and the positions of the processes, in the order they started. -/
structure Config (σ π : Type*) where
  shared : σ
  procs : List π

inductive Move (π α : Type*)
  | start (p : π)
  | step (i : ℕ) (a : α)

/-- What the processes hold together. -/
def Config.total (c : Config σ π) (w : π → ℕ) : ℕ := (c.procs.map w).sum

variable (S : Crowd σ π α)

/-- The state after process `i`, which is at `p`, takes `a`. -/
def after (c : Config σ π) (i : ℕ) (p : π) (a : α) : Config σ π :=
  ⟨(S.post c.shared p a).1, c.procs.set i (S.post c.shared p a).2⟩

/-- All interleavings of the processes. -/
def machine : Machine (Config σ π) (Move π α) where
  pre c
    | .start p => S.start p
    | .step i a => ∃ p ∈ c.procs[i]?, S.pre c.shared p a
  post c
    | .start p => ⟨c.shared, c.procs ++ [p]⟩
    | .step i a =>
      match c.procs[i]? with
      | some p => S.after c i p a
      | none => c

instance [∀ p, Decidable (S.start p)] [∀ s p a, Decidable (S.pre s p a)] (c : Config σ π) (m : Move π α) :
    Decidable (S.machine.pre c m) :=
  match m with
  | .start p => inferInstanceAs (Decidable (S.start p))
  | .step i a => inferInstanceAs (Decidable (∃ p ∈ c.procs[i]?, S.pre c.shared p a))

variable {S} {c d : Config σ π} {i : ℕ} {p q : π} {a : α} {w : π → ℕ} {l : List π}

/-- **The rule for invariants**: a start keeps it, and so does a step of a process that is there. -/
theorem invariant {I : Config σ π → Prop} (h : S.machine.Reach Machine.Any c d) (h0 : I c)
    (hstart : ∀ c p, I c → S.start p → I ⟨c.shared, c.procs ++ [p]⟩)
    (hstep : ∀ c i p a, I c → c.procs[i]? = some p → S.pre c.shared p a → I (S.after c i p a)) : I d := by
  refine h.invariant h0 fun c m hc hpre _ => ?_
  cases m with
  | start p => exact hstart c p hc hpre
  | step i a =>
    obtain ⟨p, hp, hpre⟩ := hpre
    have hi : c.procs[i]? = some p := hp
    show I (match c.procs[i]? with | some p => S.after c i p a | none => c)
    rw [hi]
    exact hstep c i p a hc hi hpre

/-! ## Shares -/

theorem sum_set (h : l[i]? = some p) : ((l.set i q).map w).sum + w p = (l.map w).sum + w q := by
  induction l generalizing i with
  | nil => cases h
  | cons x l ih =>
    cases i with
    | zero =>
      obtain rfl := Option.some.inj h
      simp only [List.set_cons_zero, List.map_cons, List.sum_cons]
      omega
    | succ i =>
      have hset := ih h
      simp only [List.set_cons_succ, List.map_cons, List.sum_cons]
      omega

theorem total_start {s : σ} : (⟨s, l ++ [p]⟩ : Config σ π).total w = (l.map w).sum + w p := by
  simp [Config.total]

/-- **A step changes the total by the share of its process.** -/
theorem total_step (h : c.procs[i]? = some p) :
    (S.after c i p a).total w + w p = c.total w + w (S.post c.shared p a).2 := sum_set h

/-- A process holds no more than all of them do. -/
theorem le_total (h : c.procs[i]? = some p) : w p ≤ c.total w :=
  List.le_sum_of_mem (List.mem_map.mpr ⟨p, List.mem_of_getElem? h, rfl⟩)

theorem total_mono {w' : π → ℕ} (h : ∀ p, w p ≤ w' p) : c.total w ≤ c.total w' :=
  List.sum_le_sum fun p _ => h p

theorem total_congr {w' : π → ℕ} (h : ∀ p ∈ c.procs, w p = w' p) : c.total w = c.total w' :=
  congrArg List.sum (List.map_congr_left h)

/-- Counting is holding one each. -/
theorem countP_eq_total {P : π → Bool} : c.procs.countP P = c.total fun p => if P p then 1 else 0 := by
  rw [Config.total]
  induction c.procs with
  | nil => rfl
  | cons x l ih =>
    rw [List.countP_cons, ih, List.map_cons, List.sum_cons, Nat.add_comm]

end Crowd

end Lib
