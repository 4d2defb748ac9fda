import Mathlib.Logic.Function.Basic
import Mathlib.Data.Nat.Notation

/-!
# Tables of row locks

Who holds which lock on each row, with the four strengths of a row lock. A transaction takes locks one
by one, waiting for each, and gives all of them back when it ends.
-/

namespace Lib

/-- What a transaction keeps the others from: deleting the row; changing it too; locking it for a share
too; and any lock. -/
inductive Strength
  | keyShare
  | share
  | noKeyUpdate
  | update
  deriving DecidableEq

def Strength.rank : Strength → ℕ
  | keyShare => 0
  | share => 1
  | noKeyUpdate => 2
  | update => 3

/-- Two transactions cannot hold both on one row. -/
def Strength.Conflicts (a b : Strength) : Prop := 3 ≤ a.rank + b.rank

instance (a b : Strength) : Decidable (a.Conflicts b) := inferInstanceAs (Decidable (_ ≤ _))

variable {κ : Type*}

/-- The holders of each row. -/
abbrev RowLocks (κ : Type*) := κ → List (ℕ × Strength)

namespace RowLocks

variable {l : RowLocks κ} {t u : ℕ} {k k' : κ} {a b : Strength}

/-- `t` does not wait for `k`: its own locks do not block it. -/
def Free (l : RowLocks κ) (t : ℕ) (k : κ) (a : Strength) : Prop := ∀ e ∈ l k, e.1 ≠ t → ¬e.2.Conflicts a

instance : Decidable (Free l t k a) := inferInstanceAs (Decidable (∀ _ ∈ _, _))

/-- `t` gives back all its locks. -/
def release (l : RowLocks κ) (t : ℕ) : RowLocks κ := fun k => (l k).filter (·.1 ≠ t)

/-- No two transactions hold conflicting locks. -/
def Compatible (l : RowLocks κ) : Prop := ∀ k, ∀ d ∈ l k, ∀ e ∈ l k, d.1 ≠ e.1 → ¬d.2.Conflicts e.2

theorem Conflicts.comm : a.Conflicts b ↔ b.Conflicts a := by
  simp only [Strength.Conflicts]
  omega

/-- Of two locks that conflict, one transaction is the holder. -/
theorem Compatible.same (h : l.Compatible) (ht : (t, a) ∈ l k) (hu : (u, b) ∈ l k) (hc : a.Conflicts b) :
    t = u := by
  by_contra hne
  exact h k _ ht _ hu hne hc

theorem mem_release : (u, a) ∈ l.release t k ↔ (u, a) ∈ l k ∧ u ≠ t := by
  simp [release]

theorem Compatible.release (h : l.Compatible) : (l.release t).Compatible :=
  fun k d hd e he => h k d (List.mem_filter.mp hd).1 e (List.mem_filter.mp he).1

variable [DecidableEq κ]

/-- `t` takes `k`. -/
def take (l : RowLocks κ) (t : ℕ) (k : κ) (a : Strength) : RowLocks κ :=
  Function.update l k ((t, a) :: l k)

theorem mem_take : (u, b) ∈ l.take t k a k' ↔ (u, b) ∈ l k' ∨ k' = k ∧ u = t ∧ b = a := by
  by_cases h : k' = k
  · subst h
    simp only [take, Function.update_self, List.mem_cons, Prod.mk.injEq, true_and]
    exact or_comm
  · simp [take, h]

theorem take_self : (t, a) ∈ l.take t k a k := mem_take.mpr (.inr ⟨rfl, rfl, rfl⟩)

theorem take_mono (h : (u, b) ∈ l k') : (u, b) ∈ l.take t k a k' := mem_take.mpr (.inl h)

theorem Compatible.take (h : l.Compatible) (hf : l.Free t k a) : (l.take t k a).Compatible := by
  rintro k' ⟨u, b⟩ hd ⟨v, c⟩ he hne
  rw [mem_take] at hd he
  rcases hd with hd | ⟨rfl, rfl, rfl⟩
  · rcases he with he | ⟨rfl, rfl, rfl⟩
    · exact h k' _ hd _ he hne
    · exact hf _ hd hne
  · rcases he with he | ⟨-, rfl, -⟩
    · exact fun hc => hf _ he (Ne.symm hne) (Conflicts.comm.mp hc)
    · exact absurd rfl hne

end RowLocks

end Lib
