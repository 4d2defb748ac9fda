import Mathlib.Algebra.BigOperators.Group.List.Basic
import Mathlib.Algebra.GroupWithZero.Nat
import Mathlib.Data.List.Nodup

/-!
# Dictionaries in insertion order

A finite map whose keys keep the order in which they were first set. Setting a key that is there replaces its value in
place.

* **`mem_set`**, **`mem_pop`**, **`get?_eq_some`**: the items of the results, and what a lookup finds.
* **`set_perm`**, **`pop_perm`**: counting over the values.
-/

namespace Lib

variable {K V : Type*} [DecidableEq K]

structure Dict (K V : Type*) where
  items : List (K × V)
  nodup : (items.map Prod.fst).Nodup

namespace Dict

def empty : Dict K V := ⟨[], List.nodup_nil⟩

instance : EmptyCollection (Dict K V) := ⟨empty⟩

variable (d : Dict K V)

def keys : List K := d.items.map Prod.fst

def length : ℕ := d.items.length

/-- The values, each counted as `f` says. -/
def total (f : V → ℕ) : ℕ := (d.items.map fun x => f x.2).sum

def get? (k : K) : Option V := (d.items.find? fun x => x.1 = k).map Prod.snd

def set (k : K) (v : V) : Dict K V where
  items := if k ∈ d.items.map Prod.fst then d.items.map fun x => if x.1 = k then (k, v) else x else d.items ++ [(k, v)]
  nodup := by
    split_ifs with h
    · have hkeys : (d.items.map fun x => if x.1 = k then (k, v) else x).map Prod.fst = d.items.map Prod.fst := by
        rw [List.map_map]
        refine List.map_congr_left fun x _ => ?_
        simp only [Function.comp]
        split_ifs with hx
        · exact hx.symm
        · rfl
      rw [hkeys]
      exact d.nodup
    · rw [List.map_append, List.nodup_append]
      refine ⟨d.nodup, List.nodup_singleton _, ?_⟩
      rintro a ha b hb rfl
      obtain rfl : a = k := List.mem_singleton.mp hb
      exact h ha

/-- Without the key. -/
def pop (k : K) : Dict K V where
  items := d.items.filter fun x => x.1 ≠ k
  nodup := d.nodup.sublist ((List.filter_sublist (l := d.items)).map Prod.fst)

omit [DecidableEq K] in
/-- The items that satisfy `P`. -/
def filter (P : K × V → Bool) : Dict K V where
  items := d.items.filter P
  nodup := d.nodup.sublist ((List.filter_sublist (l := d.items)).map Prod.fst)

variable {d} {k k' : K} {v w : V} {x : K × V} {f : V → ℕ}

omit [DecidableEq K] in
theorem items_nodup : d.items.Nodup := .of_map _ d.nodup

omit [DecidableEq K] in
/-- A key has one value. -/
theorem eq_of_mem (h : (k, v) ∈ d.items) (h' : (k, w) ∈ d.items) : v = w := by
  have := List.inj_on_of_nodup_map d.nodup h h' rfl
  exact (Prod.mk.inj this).2

theorem get?_eq_some : d.get? k = some v ↔ (k, v) ∈ d.items := by
  unfold get?
  rw [Option.map_eq_some_iff]
  constructor
  · rintro ⟨x, hx, rfl⟩
    have hk : x.1 = k := by simpa using List.find?_some hx
    exact hk ▸ List.mem_of_find?_eq_some hx
  · intro h
    cases hx : d.items.find? (fun x => x.1 = k) with
    | none => exact absurd (decide_eq_true rfl) (List.find?_eq_none.mp hx (k, v) h)
    | some x =>
      have hk : x.1 = k := by simpa using List.find?_some hx
      refine ⟨x, rfl, eq_of_mem (k := k) ?_ h⟩
      exact hk ▸ List.mem_of_find?_eq_some hx

theorem get?_eq_none : d.get? k = none ↔ k ∉ d.keys := by
  constructor
  · intro h hk
    obtain ⟨x, hx, rfl⟩ := List.mem_map.mp hk
    have := get?_eq_some.mpr hx
    rw [h] at this
    cases this
  · intro h
    cases hv : d.get? k with
    | none => rfl
    | some v => exact absurd (List.mem_map_of_mem (f := Prod.fst) (get?_eq_some.mp hv)) h

theorem mem_keys : k ∈ d.keys ↔ ∃ v, d.get? k = some v := by
  rw [← not_iff_not, ← get?_eq_none, Option.eq_none_iff_forall_ne_some, not_exists]

theorem mem_set : x ∈ (d.set k v).items ↔ x = (k, v) ∨ x ∈ d.items ∧ x.1 ≠ k := by
  unfold set
  split_ifs with h
  · obtain ⟨y, hy, rfl⟩ := List.mem_map.mp h
    rw [List.mem_map]
    constructor
    · rintro ⟨z, hz, rfl⟩
      split_ifs with hk
      · exact .inl rfl
      · exact .inr ⟨hz, hk⟩
    · rintro (rfl | ⟨hx, hk⟩)
      · exact ⟨y, hy, if_pos rfl⟩
      · exact ⟨x, hx, if_neg hk⟩
  · rw [List.mem_append, List.mem_singleton]
    constructor
    · rintro (hx | rfl)
      · refine .inr ⟨hx, fun hk => h (hk ▸ List.mem_map_of_mem (f := Prod.fst) hx)⟩
      · exact .inl rfl
    · rintro (rfl | ⟨hx, -⟩)
      · exact .inr rfl
      · exact .inl hx

theorem mem_pop : x ∈ (d.pop k).items ↔ x ∈ d.items ∧ x.1 ≠ k := by
  simp [pop]

theorem get?_set : (d.set k v).get? k' = if k' = k then some v else d.get? k' := by
  refine Option.ext fun w => ?_
  rw [get?_eq_some, mem_set]
  split_ifs with h
  · subst h
    simp [eq_comm]
  · simp [h, get?_eq_some]

theorem get?_pop : (d.pop k).get? k' = if k' = k then none else d.get? k' := by
  refine Option.ext fun w => ?_
  rw [get?_eq_some, mem_pop]
  split_ifs with h
  · simp [h]
  · simp [h, get?_eq_some]

theorem get?_filter {P : K × V → Bool} : (d.filter P).get? k = (d.get? k).filter fun v => P (k, v) := by
  refine Option.ext fun w => ?_
  rw [get?_eq_some, Option.filter_eq_some_iff, get?_eq_some]
  exact List.mem_filter

omit [DecidableEq K] in
theorem length_filter_le {P : K × V → Bool} : (d.filter P).length ≤ d.length := List.length_filter_le _ _

@[simp] theorem get?_empty : (∅ : Dict K V).get? k = none := rfl

theorem pop_of_none (h : d.get? k = none) : d.pop k = d := by
  have hitems : (d.pop k).items = d.items := List.filter_eq_self.mpr fun x hx => by
    have hk := get?_eq_none.mp h
    exact decide_eq_true fun he => hk (he ▸ List.mem_map_of_mem (f := Prod.fst) hx)
  obtain ⟨items, nodup⟩ := d
  simpa [pop] using hitems

/-- Setting a key puts its item in the place of what the key was before. -/
theorem set_perm : ((d.set k v).items).Perm ((k, v) :: (d.pop k).items) := by
  have hnot : (k, v) ∉ (d.pop k).items := fun h => (mem_pop.mp h).2 rfl
  rw [List.perm_ext_iff_of_nodup items_nodup (List.nodup_cons.mpr ⟨hnot, items_nodup⟩)]
  intro x
  rw [mem_set, List.mem_cons, mem_pop]

theorem pop_perm (h : d.get? k = some v) : d.items.Perm ((k, v) :: (d.pop k).items) := by
  have hnot : (k, v) ∉ (d.pop k).items := fun h => (mem_pop.mp h).2 rfl
  rw [List.perm_ext_iff_of_nodup items_nodup (List.nodup_cons.mpr ⟨hnot, items_nodup⟩)]
  rintro ⟨k', w⟩
  rw [List.mem_cons, mem_pop]
  have hmem := get?_eq_some.mp h
  constructor
  · intro hx
    by_cases hk : k' = k
    · subst hk
      exact .inl (by rw [eq_of_mem hx hmem])
    · exact .inr ⟨hx, hk⟩
  · rintro (hx | ⟨hx, -⟩)
    · exact hx ▸ hmem
    · exact hx

theorem length_set : (d.set k v).length = (d.pop k).length + 1 := set_perm.length_eq

theorem length_pop (h : d.get? k = some v) : d.length = (d.pop k).length + 1 := (pop_perm h).length_eq

theorem length_pop_le : (d.pop k).length ≤ d.length := List.length_filter_le _ _

theorem total_set : (d.set k v).total f = f v + (d.pop k).total f := by
  unfold total
  rw [(set_perm.map fun x => f x.2).sum_nat, List.map_cons, List.sum_cons]

theorem total_pop (h : d.get? k = some v) : d.total f = f v + (d.pop k).total f := by
  unfold total
  rw [((pop_perm h).map fun x => f x.2).sum_nat, List.map_cons, List.sum_cons]

theorem total_pop_le : (d.pop k).total f ≤ d.total f := by
  cases h : d.get? k with
  | none => exact Nat.le_of_eq (by rw [pop_of_none h])
  | some v =>
    rw [total_pop h]
    exact Nat.le_add_left _ _

end Dict

end Lib
