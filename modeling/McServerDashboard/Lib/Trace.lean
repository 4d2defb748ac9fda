import Mathlib.Data.List.DropRight

/-!
# Traces

What a run has shown so far, the oldest entry first.

* `since p l`: what came after the last entry with `p`.
* `Each P l`: every entry has `P` with what came before it; a trace that grows by one entry keeps it by one fact.
* **`exists_after`**: an entry that did not come since the last `p` has a `p` after it.
-/

namespace Lib.Trace

variable {α : Type*} {p : α → Bool} {P Q : List α → α → Prop} {l : List α} {a : α}

/-- What came after the last entry with `p`. -/
def since (p : α → Bool) (l : List α) : List α := l.rtakeWhile fun a => !p a

@[simp] theorem since_nil : since p [] = [] := List.rtakeWhile_nil _

theorem since_concat : since p (l ++ [a]) = if p a then [] else since p l ++ [a] := by
  rw [since, List.rtakeWhile_concat]
  cases p a <;> rfl

/-- An entry with `p` starts the count again. -/
@[simp] theorem since_concat_pos (h : p a = true) : since p (l ++ [a]) = [] := by rw [since_concat, if_pos h]

@[simp] theorem since_concat_neg (h : p a = false) : since p (l ++ [a]) = since p l ++ [a] := by
  rw [since_concat, h, if_neg Bool.false_ne_true]

theorem exists_after (ha : a ∈ l) (hs : a ∉ since p l) (hp : p a = false) :
    ∃ u v b, l = u ++ a :: v ∧ b ∈ v ∧ p b = true := by
  induction l using List.reverseRecOn with
  | nil => cases ha
  | append_singleton l b ih =>
    cases hb : p b with
    | true =>
      obtain ⟨u, v, rfl⟩ : ∃ u v, l = u ++ a :: v := by
        refine List.append_of_mem ((List.mem_append.mp ha).resolve_right fun hab => ?_)
        rw [List.mem_singleton.mp hab, hb] at hp
        cases hp
      exact ⟨u, v ++ [b], b, by simp, by simp, hb⟩
    | false =>
      rw [since_concat_neg hb, List.mem_append, not_or] at hs
      obtain ⟨u, v, c, rfl, hc, hpc⟩ := ih ((List.mem_append.mp ha).resolve_right hs.2) hs.1
      exact ⟨u, v ++ [b], c, by simp, List.mem_append_left _ hc, hpc⟩

/-- Every entry has `P` with what came before it. -/
def Each (P : List α → α → Prop) (l : List α) : Prop := ∀ u a v, l = u ++ a :: v → P u a

theorem each_nil : Each P [] := fun u a v h => by simp at h

theorem Each.concat (h : Each P l) (ha : P l a) : Each P (l ++ [a]) := by
  intro u b v he
  rcases List.eq_nil_or_concat v with rfl | ⟨v', c, rfl⟩
  · obtain ⟨rfl, hab⟩ := List.append_inj' he rfl
    obtain rfl : a = b := by simpa using hab
    exact ha
  · rw [List.concat_eq_append, ← List.cons_append, ← List.append_assoc] at he
    exact h u b v' (List.append_inj' he rfl).1

end Lib.Trace
