import Mathlib.Data.List.GetD
import Mathlib.Data.Nat.Notation
import Mathlib.Order.Notation

/-!
# Comparing lists of different lengths

Lists are compared entry by entry, and the shorter one is continued by a filler.

* `Padded.compareLists`: the comparison; `compareLists_step`: its heads and its tails.
* **`Padded.compareLists_eq_iff`**: lists are equal for it when they have the same entries up to fillers at the end.
* It is oriented and transitive when the comparison of the entries is.
-/

namespace Lib.Padded

open Std

variable {α : Type*} (cmp : α → α → Ordering) (z : α)

def compareLists : List α → List α → Ordering
  | [], ys => ys.foldr (fun y => (cmp z y).then) .eq
  | x :: xs, ys => (cmp x (ys.headD z)).then (compareLists xs ys.tail)

theorem compareLists_step [ReflCmp cmp] (xs ys : List α) :
    compareLists cmp z xs ys =
      (cmp (xs.headD z) (ys.headD z)).then (compareLists cmp z xs.tail ys.tail) := by
  match xs, ys with
  | [], [] => simp [compareLists, ReflCmp.compare_self]
  | [], y :: ys => rfl
  | x :: xs, ys => rfl

/-- Induction on three lists at once, by their tails. -/
theorem tails_induction {P : List α → List α → List α → Prop} (hnil : P [] [] [])
    (hstep : ∀ xs ys zs, P xs.tail ys.tail zs.tail → P xs ys zs) (xs ys zs : List α) : P xs ys zs := by
  have h : ∀ n, ∀ xs ys zs : List α, xs.length ≤ n → ys.length ≤ n → zs.length ≤ n → P xs ys zs := by
    intro n
    induction n with
    | zero =>
      intro xs ys zs hx hy hz
      rw [List.eq_nil_of_length_eq_zero (Nat.le_zero.mp hx), List.eq_nil_of_length_eq_zero (Nat.le_zero.mp hy),
        List.eq_nil_of_length_eq_zero (Nat.le_zero.mp hz)]
      exact hnil
    | succ n ih =>
      intro xs ys zs hx hy hz
      refine hstep xs ys zs (ih _ _ _ ?_ ?_ ?_)
      all_goals
        rw [List.length_tail]
        omega
  exact h (xs.length + ys.length + zs.length) xs ys zs (by omega) (by omega) (by omega)

instance [OrientedCmp cmp] : OrientedCmp (compareLists cmp z) where
  eq_swap {xs ys} := by
    refine tails_induction (P := fun xs ys _ => compareLists cmp z xs ys = (compareLists cmp z ys xs).swap) rfl
      (fun xs ys _ ih => ?_) xs ys []
    rw [compareLists_step cmp z xs, compareLists_step cmp z ys, Ordering.swap_then, ← ih]
    exact congrArg (Ordering.then · _) OrientedCmp.eq_swap

instance [TransCmp cmp] : TransCmp (compareLists cmp z) where
  isLE_trans {xs ys zs} := by
    refine tails_induction (P := fun xs ys zs => (compareLists cmp z xs ys).isLE → (compareLists cmp z ys zs).isLE →
      (compareLists cmp z xs zs).isLE) (fun _ h => h) (fun xs ys zs ih => ?_) xs ys zs
    rw [compareLists_step cmp z xs ys, compareLists_step cmp z ys zs, compareLists_step cmp z xs zs,
      Ordering.isLE_then_iff_or, Ordering.isLE_then_iff_or, Ordering.isLE_then_iff_or]
    rintro (hxy | ⟨hxy, htxy⟩) (hyz | ⟨hyz, htyz⟩)
    · exact .inl (TransCmp.lt_trans hxy hyz)
    · exact .inl (TransCmp.lt_of_lt_of_eq hxy hyz)
    · exact .inl (TransCmp.lt_of_eq_of_lt hxy hyz)
    · exact .inr ⟨TransCmp.eq_trans hxy hyz, ih htxy htyz⟩

variable {cmp z}

theorem getD_tail (xs : List α) (i : ℕ) : xs.tail.getD i z = xs.getD (i + 1) z := by
  cases xs <;> rfl

theorem getD_zero (xs : List α) : xs.getD 0 z = xs.headD z := by
  cases xs <;> rfl

/-- **Lists are equal** when they have the same entries, with fillers at the end. -/
theorem compareLists_eq_iff [LawfulEqCmp cmp] {xs ys : List α} :
    compareLists cmp z xs ys = .eq ↔ ∀ i, xs.getD i z = ys.getD i z := by
  refine tails_induction (P := fun xs ys _ => compareLists cmp z xs ys = .eq ↔ ∀ i, xs.getD i z = ys.getD i z)
    ⟨fun _ _ => rfl, fun _ => rfl⟩ (fun xs ys _ ih => ?_) xs ys []
  rw [compareLists_step, Ordering.then_eq_eq, ih, LawfulEqCmp.compare_eq_iff_eq, ← getD_zero, ← getD_zero]
  constructor
  · rintro ⟨hhead, htail⟩ i
    cases i with
    | zero => exact hhead
    | succ i =>
      rw [← getD_tail, ← getD_tail]
      exact htail i
  · intro h
    refine ⟨h 0, fun i => ?_⟩
    rw [getD_tail, getD_tail]
    exact h (i + 1)

/-- A list is above many entries that none of its own is below, and the filler is not. -/
theorem compareLists_replicate [ReflCmp cmp] {y : α} (hz : cmp z y = .gt) :
    ∀ {n : ℕ} {xs : List α}, (∀ x ∈ xs, cmp x y ≠ .lt) → xs.length < n →
      compareLists cmp z xs (List.replicate n y) = .gt
  | n + 1, [], _, _ => by
    rw [List.replicate_succ, compareLists, List.foldr_cons, hz]
    rfl
  | n + 1, x :: xs, hge, hlen => by
    rw [List.replicate_succ, compareLists, List.headD_cons, List.tail_cons, Ordering.then_eq_gt,
      compareLists_replicate hz (fun x hx => hge x (List.mem_cons_of_mem _ hx)) (Nat.lt_of_succ_lt_succ hlen)]
    cases hx : cmp x y with
    | lt => exact absurd hx (hge x List.mem_cons_self)
    | eq => exact .inr ⟨rfl, rfl⟩
    | gt => exact .inl rfl

end Lib.Padded
