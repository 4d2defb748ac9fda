import Mathlib.Data.List.Basic
import Mathlib.Data.List.Infix

/-!
# Prefix codes

A set of words none of which begins another one. A string is read as words in one way only.

* `PrefixFree`: the property of the set; `Free`: a string with no word in front.
* **`eq_append_of_flatten`**: two readings of a string, each as words with a remainder, go on from one another.
* `Encoded`: a string of words and a remainder; **`encoded_iff`**: where the reading stops, the remainder decides.
-/

namespace Lib.PrefixCodes

variable {α : Type*}

/-- No word begins another one. -/
def PrefixFree (M : List α → Prop) : Prop := ∀ m m', M m → M m' → m <+: m' → m = m'

/-- No word begins the string. -/
def Free (M : List α → Prop) (s : List α) : Prop := ∀ m, M m → ¬ m <+: s

/-- One or more words, and a remainder that `R` allows. -/
def Encoded (M R : List α → Prop) (s : List α) : Prop :=
  ∃ ms rest, ms ≠ [] ∧ (∀ m ∈ ms, M m) ∧ R rest ∧ s = ms.flatten ++ rest

variable {M R : List α → Prop} {ms ms' : List (List α)} {m m' s s' t : List α}

/-- Words that begin one string are one word. -/
theorem PrefixFree.eq_of_prefix (h : PrefixFree M) (hm : M m) (hm' : M m') (hs : m <+: s) (hs' : m' <+: s) : m = m' := by
  rcases List.prefix_or_prefix_of_prefix hs hs' with hp | hp
  · exact h m m' hm hm' hp
  · exact (h m' m hm' hm hp).symm

/-- **Two readings of a string**: one of them goes on with words where the other one stops. -/
theorem PrefixFree.eq_append_of_flatten (h : PrefixFree M) (hms : ∀ m ∈ ms, M m) (hms' : ∀ m ∈ ms', M m)
    (heq : ms.flatten ++ s = ms'.flatten ++ s') :
    (∃ k, ms' = ms ++ k ∧ s = k.flatten ++ s') ∨ ∃ k, ms = ms' ++ k ∧ s' = k.flatten ++ s := by
  induction ms generalizing ms' with
  | nil => exact .inl ⟨ms', rfl, heq⟩
  | cons m ms ih =>
    cases ms' with
    | nil => exact .inr ⟨m :: ms, rfl, heq.symm⟩
    | cons m' ms' =>
      simp only [List.flatten_cons, List.append_assoc] at heq
      have hm := hms m List.mem_cons_self
      have hm' := hms' m' List.mem_cons_self
      obtain rfl := h.eq_of_prefix hm hm' (heq ▸ List.prefix_append _ _) (List.prefix_append _ _)
      rcases ih (fun m hm => hms m (List.mem_cons_of_mem _ hm)) (fun m hm => hms' m (List.mem_cons_of_mem _ hm))
        (List.append_cancel_left heq) with ⟨k, rfl, hs⟩ | ⟨k, rfl, hs⟩
      · exact .inl ⟨k, rfl, hs⟩
      · exact .inr ⟨k, rfl, hs⟩

theorem Free.append_left (h : Free M (s ++ t)) : Free M s := fun m hm hp => h m hm (hp.trans (List.prefix_append _ _))

/-- A string that no word begins, and that begins no word, stays free whatever follows. -/
theorem free_append_of_incomparable (h : ∀ m, M m → ¬ m <+: s ∧ ¬ s <+: m) (t : List α) : Free M (s ++ t) := by
  intro m hm hp
  rcases List.prefix_or_prefix_of_prefix hp (List.prefix_append s t) with hp | hp
  · exact (h m hm).1 hp
  · exact (h m hm).2 hp

/-- **Where the reading stops** the remainder decides, provided that no remainder begins with a word. -/
theorem encoded_iff (h : PrefixFree M) (hR : ∀ rest, R rest → Free M rest) (hms : ∀ m ∈ ms, M m) (hfree : Free M s) :
    Encoded M R (ms.flatten ++ s) ↔ ms ≠ [] ∧ R s := by
  constructor
  · rintro ⟨ms', rest, hne, hms', hrest, heq⟩
    rcases h.eq_append_of_flatten hms hms' heq with ⟨k, rfl, rfl⟩ | ⟨k, rfl, rfl⟩
    · cases k with
      | nil => exact ⟨by simpa using hne, by simpa using hrest⟩
      | cons m k =>
        refine absurd ?_ (hfree m (hms' m (by simp)))
        rw [List.flatten_cons, List.append_assoc]
        exact List.prefix_append _ _
    · cases k with
      | nil => exact ⟨by simpa using hne, by simpa using hrest⟩
      | cons m k =>
        refine absurd ?_ (hR _ hrest m (hms m (by simp)))
        rw [List.flatten_cons, List.append_assoc]
        exact List.prefix_append _ _
  · rintro ⟨hne, hrest⟩
    exact ⟨ms, s, hne, hms, hrest, rfl⟩

end Lib.PrefixCodes
