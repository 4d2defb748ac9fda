import Mathlib.Data.List.Infix
import Mathlib.Order.Antichain

/-!
# File trees in a flat key space

A flat key space in which a key is a list of components. The keys are the files of a tree when no
key is a proper prefix of another (`FileTree`): then what is above a key is a directory and no file.

* `fileTree_insert`: what adding a key needs.
* `rebase`, `FileTree.rebase`: the keys below one directory, moved below another.
* `fileTree_move`: what moving keys among the others needs.
-/

namespace Lib

variable {α : Type*} {ok : α → Prop} {K M N : Set (List α)} {a b : List α}

/-- Every key has components, all of them `ok`. -/
def Normal (ok : α → Prop) (K : Set (List α)) : Prop := ∀ a ∈ K, a ≠ [] ∧ ∀ x ∈ a, ok x

/-- The keys are the files of a tree. -/
structure FileTree (ok : α → Prop) (K : Set (List α)) : Prop where
  normal : Normal ok K
  free : IsAntichain (· <+: ·) K

/-- Two keys that cannot both be files. -/
def Clash (a b : List α) : Prop := a ≠ b ∧ (a <+: b ∨ b <+: a)

instance [DecidableEq α] (a b : List α) : Decidable (Clash a b) := by unfold Clash; infer_instance

theorem Clash.symm (h : Clash a b) : Clash b a := ⟨h.1.symm, h.2.symm⟩

theorem isAntichain_iff : IsAntichain (· <+: ·) K ↔ ∀ a ∈ K, ∀ b ∈ K, ¬ Clash a b := by
  constructor
  · rintro h a ha b hb ⟨hne, hab | hba⟩
    · exact h ha hb hne hab
    · exact h hb ha hne.symm hba
  · intro h a ha b hb hne hab
    exact h a ha b hb ⟨hne, .inl hab⟩

theorem fileTree_iff : FileTree ok K ↔
    (∀ a ∈ K, a ≠ [] ∧ ∀ x ∈ a, ok x) ∧ ∀ a ∈ K, ∀ b ∈ K, ¬ Clash a b :=
  ⟨fun h => ⟨h.normal, isAntichain_iff.mp h.free⟩, fun h => ⟨h.1, isAntichain_iff.mpr h.2⟩⟩

instance [DecidableEq α] [DecidablePred ok] (l : List (List α)) : Decidable (FileTree ok {a | a ∈ l}) :=
  decidable_of_iff ((∀ a ∈ l, a ≠ [] ∧ ∀ x ∈ a, ok x) ∧ ∀ a ∈ l, ∀ b ∈ l, ¬ Clash a b) fileTree_iff.symm

theorem FileTree.subset (h : FileTree ok K) (hMK : M ⊆ K) : FileTree ok M :=
  ⟨fun a ha => h.normal a (hMK ha), h.free.subset hMK⟩

/-- No file is a directory above another. -/
theorem FileTree.eq_of_prefix (h : FileTree ok K) (ha : a ∈ K) (hb : b ∈ K) (hab : a <+: b) : a = b := by
  by_contra hne
  exact h.free ha hb hne hab

theorem fileTree_union : FileTree ok (K ∪ M) ↔
    FileTree ok K ∧ FileTree ok M ∧ ∀ a ∈ K, ∀ b ∈ M, ¬ Clash a b := by
  constructor
  · intro h
    refine ⟨h.subset Set.subset_union_left, h.subset Set.subset_union_right, fun a ha b hb => ?_⟩
    exact isAntichain_iff.mp h.free a (.inl ha) b (.inr hb)
  · rintro ⟨hK, hM, hcross⟩
    refine ⟨fun a ha => ha.elim (hK.normal a) (hM.normal a), isAntichain_iff.mpr ?_⟩
    rintro a (ha | ha) b (hb | hb)
    · exact isAntichain_iff.mp hK.free a ha b hb
    · exact hcross a ha b hb
    · exact fun hc => hcross b hb a ha hc.symm
    · exact isAntichain_iff.mp hM.free a ha b hb

theorem fileTree_singleton : FileTree ok {a} ↔ a ≠ [] ∧ ∀ x ∈ a, ok x := by
  constructor
  · exact fun h => h.normal a rfl
  · intro h
    refine ⟨?_, IsAntichain.singleton⟩
    rintro b rfl
    exact h

theorem fileTree_empty : FileTree ok (∅ : Set (List α)) :=
  ⟨fun a ha => absurd ha (Set.notMem_empty a), isAntichain_iff.mpr fun a ha => absurd ha (Set.notMem_empty a)⟩

/-- **A key may be added when it is normal and clashes with no other.** -/
theorem fileTree_insert (hK : FileTree ok K) :
    FileTree ok (insert a K) ↔ (a ≠ [] ∧ ∀ x ∈ a, ok x) ∧ ∀ b ∈ K, ¬ Clash a b := by
  rw [Set.insert_eq, fileTree_union, fileTree_singleton]
  constructor
  · rintro ⟨ha, -, hcross⟩
    exact ⟨ha, hcross a rfl⟩
  · rintro ⟨ha, hcross⟩
    refine ⟨ha, hK, ?_⟩
    rintro b rfl
    exact hcross

/-- The key below `src`, moved below `dst`. -/
def rebase (src dst a : List α) : List α := dst ++ a.drop src.length

@[simp] theorem rebase_append (src dst r : List α) : rebase src dst (src ++ r) = dst ++ r := by
  rw [rebase, List.drop_left]

/-- The files below `src`, moved below `dst`, are the files of a tree. -/
theorem FileTree.rebase {src dst : List α} (h : FileTree ok K) (hdst : ∀ x ∈ dst, ok x)
    (hN : ∀ n ∈ N, n ∈ K ∧ src <+: n ∧ n ≠ src) : FileTree ok (rebase src dst '' N) := by
  constructor
  · rintro _ ⟨n, hn, rfl⟩
    obtain ⟨hnK, ⟨r, rfl⟩, hne⟩ := hN n hn
    have hr : r ≠ [] := fun hr => hne (by rw [hr, List.append_nil])
    rw [rebase_append]
    refine ⟨fun he => hr (List.append_eq_nil_iff.mp he).2, fun x hx => ?_⟩
    rcases List.mem_append.mp hx with hx | hx
    · exact hdst x hx
    · exact (h.normal _ hnK).2 x (List.mem_append_right _ hx)
  · rintro _ ⟨n, hn, rfl⟩ _ ⟨m, hm, rfl⟩ hne hab
    obtain ⟨hnK, ⟨r, rfl⟩, -⟩ := hN n hn
    obtain ⟨hmK, ⟨q, rfl⟩, -⟩ := hN m hm
    rw [rebase_append, rebase_append] at hne
    have hrq : r <+: q := by simpa using hab
    have hsame := h.eq_of_prefix hnK hmK ((List.prefix_append_right_inj src).mpr hrq)
    rw [List.append_cancel_left hsame] at hne
    exact hne rfl

/-- **Moving the keys `N` to `M` needs that the moved keys clash with none that stay.** -/
theorem fileTree_move (hK : FileTree ok K) (hM : FileTree ok M) :
    FileTree ok ((K ∪ M) \ N) ↔ ∀ a ∈ M \ N, ∀ b ∈ K \ N, ¬ Clash a b := by
  rw [Set.union_sdiff_distrib, fileTree_union]
  constructor
  · rintro ⟨-, -, hcross⟩ a ha b hb hc
    exact hcross b hb a ha hc.symm
  · intro hcross
    exact ⟨hK.subset Set.sdiff_subset, hM.subset Set.sdiff_subset, fun a ha b hb hc => hcross b hb a ha hc.symm⟩

end Lib
