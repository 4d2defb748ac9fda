import Mathlib.Data.List.Count
import Mathlib.Data.Int.Notation

/-!
# Pruned logs

A log of timed entries, of which the old ones are deleted from time to time. What is counted over a window that reaches
no further back than the cut is counted right.

* `Pruned`: what is kept of a log.
* **`Pruned.countP`**: a count of entries after the cut.
-/

namespace Lib

variable {ρ : Type*} {time : ρ → ℤ} {cut later : ℤ} {kept all : List ρ}

/-- The entries from the cut on are kept. -/
def Pruned (time : ρ → ℤ) (cut : ℤ) (kept all : List ρ) : Prop := kept = all.filter fun r => cut ≤ time r

namespace Pruned

theorem nil : Pruned time cut [] [] := rfl

/-- An entry is added. -/
theorem cons (h : Pruned time cut kept all) {r : ρ} (hr : cut ≤ time r) : Pruned time cut (r :: kept) (r :: all) := by
  rw [Pruned, List.filter_cons, if_pos (decide_eq_true hr), ← h]

/-- The entries before a later cut are deleted. -/
theorem prune (h : Pruned time cut kept all) (hcut : cut ≤ later) :
    Pruned time later (kept.filter fun r => later ≤ time r) all := by
  rw [Pruned, h, List.filter_filter]
  refine List.filter_congr fun r _ => ?_
  rw [← Bool.decide_and, decide_eq_decide]
  exact and_iff_left_of_imp (Int.le_trans hcut)

/-- **What is counted after the cut** is still there. -/
theorem countP (h : Pruned time cut kept all) {p : ρ → Bool} (hp : ∀ r, p r = true → cut ≤ time r) :
    kept.countP p = all.countP p := by
  rw [h, List.countP_filter]
  refine List.countP_congr fun r _ => ?_
  rw [Bool.and_eq_true, decide_eq_true_eq]
  exact and_iff_left_of_imp (hp r)

end Pruned

end Lib
