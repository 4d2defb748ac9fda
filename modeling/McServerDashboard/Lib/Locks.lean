import Mathlib.Logic.Function.Basic
import Mathlib.Data.Nat.Notation

/-!
# Tables of exclusive locks

Who holds each lock of a family of locks. A transaction takes locks one by one, waiting for each,
and gives all of them back at once when it ends.
-/

namespace Lib

variable {κ : Type*}

/-- The holder of each lock, if any. -/
abbrev Locks (κ : Type*) := κ → Option ℕ

namespace Locks

variable [DecidableEq κ] {l : Locks κ} {t u : ℕ} {k k' : κ}

/-- `t` does not wait for `k`: taking a lock again does not block. -/
def Free (l : Locks κ) (t : ℕ) (k : κ) : Prop := l k = none ∨ l k = some t

instance : Decidable (Free l t k) := inferInstanceAs (Decidable (_ ∨ _))

/-- `t` takes `k`. -/
def take (l : Locks κ) (t : ℕ) (k : κ) : Locks κ := Function.update l k (some t)

/-- `t` gives back all its locks. -/
def release (l : Locks κ) (t : ℕ) : Locks κ := fun k => if l k = some t then none else l k

@[simp] theorem take_self : l.take t k k = some t := by
  simp [take]

theorem take_ne (h : k' ≠ k) : l.take t k k' = l k' := by
  simp [take, h]

/-- The locks `t` has are still there when it takes one more. -/
theorem take_mono (h : l k' = some t) : l.take t k k' = some t := by
  by_cases hk : k' = k
  · rw [hk, take_self]
  · rw [take_ne hk, h]

/-- Another's lock is not taken away. -/
theorem take_other (hf : l.Free t k) (hu : u ≠ t) (h : l k' = some u) : l.take t k k' = some u := by
  have hk : k' ≠ k := by
    rintro rfl
    rcases hf with hf | hf
    · exact absurd (h.symm.trans hf) (by simp)
    · exact hu (Option.some.inj (h.symm.trans hf))
  rw [take_ne hk, h]

omit [DecidableEq κ] in
theorem release_other (hu : u ≠ t) (h : l k = some u) : l.release t k = some u := by
  have hne : l k ≠ some t := by
    rw [h]
    simpa using hu
  rw [release, if_neg hne, h]

end Locks

end Lib
