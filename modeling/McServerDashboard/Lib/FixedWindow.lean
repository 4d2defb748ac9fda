import Mathlib.Data.List.Count
import Mathlib.Data.Int.Notation
import Mathlib.Tactic.Push
import Mathlib.Tactic.Tauto

/-!
# Fixed windows

Events are counted in windows of one length. A window opens at an event, and the next one opens when it
has run out.

* `Windowed`: every event falls in its window, no two windows meet, and none has more than `n` events.
* **`Windowed.rate`**: no span of the length of a window has more than twice as many.
-/

namespace Lib

/-- An event, with the instant its window opened. -/
structure Windowed.Event where
  opened : ℤ
  at_ : ℤ

/-- The events of windows of length `d`, at most `n` in each. -/
structure Windowed (d : ℤ) (n : ℕ) (l : List Windowed.Event) : Prop where
  within : ∀ e ∈ l, e.opened ≤ e.at_ ∧ e.at_ < e.opened + d
  apart : ∀ e ∈ l, ∀ f ∈ l, e.opened = f.opened ∨ e.opened + d ≤ f.opened ∨ f.opened + d ≤ e.opened
  few : ∀ s, l.countP (·.opened = s) ≤ n

namespace Windowed

variable {d a s : ℤ} {n : ℕ} {l : List Event} {e : Event}

theorem nil : Windowed d n [] := ⟨nofun, nofun, fun _ => Nat.zero_le n⟩

/-- A window opens when every earlier one has run out. -/
theorem opens (h : Windowed d n l) (hn : 0 < n) (hd : 0 < d) (hl : ∀ e ∈ l, e.opened + d ≤ s) :
    Windowed d n (l ++ [⟨s, s⟩]) where
  within e he := by
    rcases List.mem_append.mp he with he | he
    · exact h.within e he
    · rw [List.mem_singleton.mp he]
      exact ⟨Int.le_refl _, Int.lt_add_of_pos_right s hd⟩
  apart e he f hf := by
    rcases List.mem_append.mp he with he | he <;> rcases List.mem_append.mp hf with hf | hf
    · exact h.apart e he f hf
    · rw [List.mem_singleton.mp hf]
      exact .inr (.inl (hl e he))
    · rw [List.mem_singleton.mp he]
      exact .inr (.inr (hl f hf))
    · rw [List.mem_singleton.mp he, List.mem_singleton.mp hf]
      exact .inl rfl
  few t := by
    rw [List.countP_append, List.countP_singleton]
    by_cases ht : s = t
    · have hnone : l.countP (·.opened = t) = 0 := by
        refine List.countP_eq_zero.mpr fun e he => ?_
        have := hl e he
        rw [decide_eq_true_eq]
        omega
      rw [hnone]
      split_ifs <;> omega
    · rw [if_neg (by simpa using ht)]
      exact h.few t

/-- An event in the last window, which is not full. -/
theorem counts (h : Windowed d n l) (hfew : l.countP (·.opened = s) < n) {t : ℤ} (hst : s ≤ t)
    (ht : t < s + d) (hl : ∀ e ∈ l, e.opened = s ∨ e.opened + d ≤ s) : Windowed d n (l ++ [⟨s, t⟩]) where
  within e he := by
    rcases List.mem_append.mp he with he | he
    · exact h.within e he
    · rw [List.mem_singleton.mp he]
      exact ⟨hst, ht⟩
  apart e he f hf := by
    rcases List.mem_append.mp he with he | he <;> rcases List.mem_append.mp hf with hf | hf
    · exact h.apart e he f hf
    · rw [List.mem_singleton.mp hf]
      exact (hl e he).imp_right .inl
    · rw [List.mem_singleton.mp he]
      exact (hl f hf).imp Eq.symm .inr
    · rw [List.mem_singleton.mp he, List.mem_singleton.mp hf]
      exact .inl rfl
  few u := by
    rw [List.countP_append, List.countP_singleton]
    by_cases hu : s = u
    · subst hu
      split_ifs <;> omega
    · rw [if_neg (by simpa using hu)]
      exact h.few u

/-- The windows that a span of their length meets are two at most. -/
theorem two_windows (h : Windowed d n l) (a : ℤ) : ∃ s₁ s₂, ∀ e ∈ l, a ≤ e.at_ ∧ e.at_ < a + d →
    e.opened = s₁ ∨ e.opened = s₂ := by
  by_cases hone : ∃ s, ∀ e ∈ l, a ≤ e.at_ ∧ e.at_ < a + d → e.opened = s
  · obtain ⟨s, hs⟩ := hone
    exact ⟨s, s, fun e he hspan => .inl (hs e he hspan)⟩
  · push Not at hone
    obtain ⟨f, hf, hfs, -⟩ := hone 0
    obtain ⟨g, hg, hgs, hgf⟩ := hone f.opened
    refine ⟨f.opened, g.opened, fun e he hspan => ?_⟩
    -- Three windows apart do not open within less than two lengths.
    have hw : ∀ x ∈ l, a ≤ x.at_ ∧ x.at_ < a + d → a - d < x.opened ∧ x.opened < a + d := by
      rintro x hx ⟨h1, h2⟩
      have := h.within x hx
      omega
    have he' := hw e he hspan
    have hf' := hw f hf hfs
    have hg' := hw g hg hgs
    have hef := h.apart e he f hf
    have heg := h.apart e he g hg
    have hfg := h.apart f hf g hg
    omega

/-- **The rate bound**: no span of the length of a window has more events than two windows. -/
theorem rate (h : Windowed d n l) (a : ℤ) : l.countP (fun e => a ≤ e.at_ ∧ e.at_ < a + d) ≤ 2 * n := by
  obtain ⟨s₁, s₂, hs⟩ := h.two_windows a
  have hor : ∀ l : List Event, (∀ e ∈ l, a ≤ e.at_ ∧ e.at_ < a + d → e.opened = s₁ ∨ e.opened = s₂) →
      l.countP (fun e => a ≤ e.at_ ∧ e.at_ < a + d) ≤
        l.countP (fun e => e.opened = s₁) + l.countP (fun e => e.opened = s₂) := by
    intro l
    induction l with
    | nil => exact fun _ => Nat.le_refl _
    | cons e l ih =>
      intro hl
      have hle := ih fun e he => hl e (List.mem_cons_of_mem _ he)
      have he := hl e List.mem_cons_self
      simp only [List.countP_cons, decide_eq_true_eq]
      split_ifs <;> omega
  have := hor l hs
  have h₁ := h.few s₁
  have h₂ := h.few s₂
  omega

end Windowed

end Lib
