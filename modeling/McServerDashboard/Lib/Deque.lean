import Mathlib.Data.List.Basic

/-!
# Bounded deques

A deque that keeps at most `maxlen` items: an `append` to a full one drops the item at the left end.
-/

namespace Lib

variable {α : Type*}

/-- A deque of at most `maxlen` items, the left end first. -/
structure Deque (α : Type*) where
  maxlen : ℕ
  items : List α
  maxlen_pos : 0 < maxlen
  length_le : items.length ≤ maxlen

namespace Deque

variable (d : Deque α)

def empty (maxlen : ℕ) (h : 0 < maxlen) : Deque α := ⟨maxlen, [], h, Nat.zero_le _⟩

/-- Whether the next `append` drops an item. -/
def Full : Prop := d.items.length = d.maxlen

instance : Decidable d.Full := inferInstanceAs (Decidable (_ = _))

def append (a : α) : Deque α where
  maxlen := d.maxlen
  items := (d.items ++ [a]).drop (d.items.length + 1 - d.maxlen)
  maxlen_pos := d.maxlen_pos
  length_le := by
    rw [List.length_drop, List.length_append, List.length_singleton]
    omega

/-- `popleft`, where there is an item. -/
def popleft : Option (α × Deque α) := match h : d.items with
  | [] => none
  | a :: rest => some (a, ⟨d.maxlen, rest, d.maxlen_pos, by have := d.length_le; rw [h] at this; exact Nat.le_of_succ_le this⟩)

/-- The items with `p`, in their order. -/
def filter (p : α → Bool) : Deque α where
  maxlen := d.maxlen
  items := d.items.filter p
  maxlen_pos := d.maxlen_pos
  length_le := Nat.le_trans (List.length_filter_le p d.items) d.length_le

variable {d} {a b : α} {rest : List α}

theorem Full.exists_cons (h : d.Full) : ∃ a rest, d.items = a :: rest := by
  refine List.exists_cons_of_length_pos ?_
  rw [show d.items.length = d.maxlen from h]
  exact d.maxlen_pos

theorem append_items :
    (d.append b).items = (d.items ++ [b]).drop (d.items.length + 1 - d.maxlen) := rfl

@[simp] theorem filter_items (p : α → Bool) : (d.filter p).items = d.items.filter p := rfl

theorem append_full (h : d.Full) (hd : d.items = a :: rest) : (d.append b).items = rest ++ [b] := by
  have hn : d.items.length + 1 - d.maxlen = 1 := by
    rw [show d.items.length = d.maxlen from h]
    omega
  rw [append_items, hn, hd]
  rfl

theorem append_room (h : ¬d.Full) : (d.append b).items = d.items ++ [b] := by
  have hlt : d.items.length < d.maxlen := Nat.lt_of_le_of_ne d.length_le h
  have hn : d.items.length + 1 - d.maxlen = 0 := by omega
  rw [append_items, hn, List.drop_zero]

theorem popleft_none : d.popleft = none ↔ d.items = [] := by
  unfold popleft
  split <;> simp_all

theorem popleft_some {e : Deque α} (h : d.popleft = some (a, e)) : d.items = a :: e.items := by
  unfold popleft at h
  split at h
  · cases h
  · next hd =>
    simp only [Option.some.injEq, Prod.mk.injEq] at h
    obtain ⟨rfl, rfl⟩ := h
    exact hd

end Deque

end Lib
