import Mathlib.Data.List.Perm.Basic

/-!
# Operations in any order

Operations on a state, of which any two commute and each changes nothing the second time. A fold over a list of them
depends only on which of them are in it.

* `foldl_absorb`: what is in the list again changes nothing.
* **`foldl_eq_of_mem_iff`**: two lists of the same operations do the same.
-/

namespace Lib

variable {σ ι : Type*} {f : σ → ι → σ} {xs ys : List ι}

/-- An operation that is in the list has nothing left to do after it. -/
theorem foldl_absorb (hcomm : ∀ a ∈ xs, ∀ b ∈ xs, ∀ s, f (f s a) b = f (f s b) a) (hidem : ∀ a ∈ xs, ∀ s, f (f s a) a = f s a)
    {a : ι} (ha : a ∈ xs) (s : σ) : f (xs.foldl f s) a = xs.foldl f s := by
  induction xs generalizing s with
  | nil => exact absurd ha List.not_mem_nil
  | cons x xs ih =>
    have hcomm' : ∀ a ∈ xs, ∀ b ∈ xs, ∀ s, f (f s a) b = f (f s b) a := fun a ha b hb =>
      hcomm a (List.mem_cons_of_mem x ha) b (List.mem_cons_of_mem x hb)
    have hidem' : ∀ a ∈ xs, ∀ s, f (f s a) a = f s a := fun a ha => hidem a (List.mem_cons_of_mem x ha)
    rw [List.foldl_cons]
    by_cases hmem : a ∈ xs
    · exact ih hcomm' hidem' hmem (f s x)
    · obtain rfl : a = x := (List.mem_cons.mp ha).resolve_right hmem
      -- it comes first; moved to the end it is done twice there
      have hlast : xs.foldl f (f s a) = f (xs.foldl f s) a := by
        have hperm : (a :: xs).Perm (xs ++ [a]) := (List.perm_append_singleton a xs).symm
        have hfold := hperm.foldl_eq' hcomm s
        rwa [List.foldl_cons, List.foldl_append, List.foldl_cons, List.foldl_nil] at hfold
      rw [hlast, hidem a ha]

/-- **Two lists of the same operations do the same**, whatever their order and however often each is in them. -/
theorem foldl_eq_of_mem_iff (hcomm : ∀ a ∈ xs, ∀ b ∈ xs, ∀ s, f (f s a) b = f (f s b) a)
    (hidem : ∀ a ∈ xs, ∀ s, f (f s a) a = f s a) (hmem : ∀ a, a ∈ xs ↔ a ∈ ys) (s : σ) : xs.foldl f s = ys.foldl f s := by
  have hnothing : ∀ (zs ws : List ι), (∀ a ∈ ws, a ∈ zs) → (∀ a ∈ zs, a ∈ xs) → ws.foldl f (zs.foldl f s) = zs.foldl f s := by
    intro zs ws hws hzs
    induction ws with
    | nil => rfl
    | cons w ws ih =>
      have habsorb : f (zs.foldl f s) w = zs.foldl f s := foldl_absorb (fun a ha b hb => hcomm a (hzs a ha) b (hzs b hb))
        (fun a ha => hidem a (hzs a ha)) (hws w List.mem_cons_self) s
      rw [List.foldl_cons, habsorb]
      exact ih fun a ha => hws a (List.mem_cons_of_mem w ha)
  have hboth : ∀ a ∈ xs ++ ys, a ∈ xs := fun a ha => (List.mem_append.mp ha).elim id (hmem a).mpr
  calc xs.foldl f s = ys.foldl f (xs.foldl f s) := (hnothing xs ys (fun a ha => (hmem a).mpr ha) fun _ ha => ha).symm
    _ = (xs ++ ys).foldl f s := List.foldl_append.symm
    _ = (ys ++ xs).foldl f s :=
      List.perm_append_comm.foldl_eq' (fun a ha b hb => hcomm a (hboth a ha) b (hboth b hb)) s
    _ = xs.foldl f (ys.foldl f s) := List.foldl_append
    _ = ys.foldl f s := hnothing ys xs (fun a ha => (hmem a).mp ha) fun a ha => (hmem a).mpr ha

end Lib
