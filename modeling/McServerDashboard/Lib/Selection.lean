import Mathlib.Data.Finset.Max
import Mathlib.Data.Finset.Card
import Mathlib.Data.Finset.Union
import Mathlib.Tactic.SplitIfs

/-!
# Selections that may run early

* `Selection`: what is kept of the elements there are, at a time.
* `newest`, `perBucket`, `both`, `among`, `once`: the selections that retention policies are made of.
* **`Selection.keep_run`**: what earlier selections dropped is missing from no later one.
-/

namespace Lib

variable {α β κ τ : Type*} [DecidableEq α]

/-- What is kept of the elements there are, at a time. An element that is kept later, from more elements, is kept now,
and elements that are not kept make no difference. -/
structure Selection (τ : Type*) [LE τ] (born : α → τ) where
  keep : τ → Finset α → Finset α
  sub : ∀ t S, keep t S ⊆ S
  stays : ∀ {t t' R S b}, t ≤ t' → R ⊆ S → (∀ c ∈ R, born c ≤ t) → b ∈ R → b ∈ keep t' S → b ∈ keep t R
  settles : ∀ {t R S}, R ⊆ S → keep t S ⊆ R → keep t R = keep t S

namespace Selection

variable [LE τ] {born : α → τ}

/-! ## Runs -/

inductive Event (τ α : Type*)
  | add (b : α)
  | sift (t : τ)

/-- The elements that are added. -/
def added (es : List (Event τ α)) : List α := es.filterMap fun e => match e with
  | .add b => some b
  | .sift _ => none

/-- One element comes, or the elements are sifted. -/
def apply (A : Selection τ born) (S : Finset α) : Event τ α → Finset α
  | .add b => insert b S
  | .sift t => A.keep t S

/-- Whatever there is when the elements are sifted is not from later. -/
def Timely (born : α → τ) (es : List (Event τ α)) : Prop := es.Pairwise fun e e' => match e, e' with
  | .add b, .sift t => born b ≤ t
  | .sift t, .sift t' => t ≤ t'
  | _, .add _ => True

variable {A : Selection τ born} {S R : Finset α} {es : List (Event τ α)} {T : τ}

/-- What is kept in the end survives the siftings before. -/
theorem run_kept (h : Timely born (es ++ [.sift T])) (hR : ∀ c ∈ R, ∀ t, .sift t ∈ es → born c ≤ t)
    (hRS : R ⊆ S ∪ (added es).toFinset) (hkept : ∀ b ∈ A.keep T (S ∪ (added es).toFinset), b ∈ S → b ∈ R) :
    A.keep T (S ∪ (added es).toFinset) ⊆ es.foldl A.apply R ∧ es.foldl A.apply R ⊆ S ∪ (added es).toFinset := by
  induction es generalizing R S with
  | nil =>
    have hnil : S ∪ (added ([] : List (Event τ α))).toFinset = S := Finset.union_empty S
    rw [hnil] at hRS ⊢
    simp only [hnil] at hkept
    exact ⟨fun b hb => hkept b hb (A.sub _ _ hb), hRS⟩
  | cons e es ih =>
    obtain ⟨he, hes⟩ := List.pairwise_cons.mp h
    rw [List.foldl_cons]
    cases e with
    | add b =>
      have hinsert : insert b S ∪ (added es).toFinset = S ∪ (added (.add b :: es)).toFinset := by
        rw [show added (.add b :: es) = b :: added es from rfl, List.toFinset_cons, Finset.insert_union, Finset.union_insert]
      rw [← hinsert] at hRS hkept ⊢
      refine ih hes (fun c hc t ht => ?_) (fun c hc => ?_) fun c hc hcS => ?_
      · rcases Finset.mem_insert.mp hc with rfl | hc
        · exact he (.sift t) (List.mem_append_left _ ht)
        · exact hR c hc t (List.mem_cons_of_mem _ ht)
      · rcases Finset.mem_insert.mp hc with rfl | hc
        · exact Finset.mem_union_left _ (Finset.mem_insert_self _ _)
        · exact hRS hc
      · rcases Finset.mem_insert.mp hcS with rfl | hcS
        · exact Finset.mem_insert_self _ _
        · exact Finset.mem_insert_of_mem (hkept c hc hcS)
    | sift t =>
      have hadded : added (.sift t :: es) = added es := rfl
      rw [hadded] at hRS hkept ⊢
      have hsub : A.keep t R ⊆ R := A.sub t R
      refine ih hes (fun c hc t' ht' => hR c (hsub hc) t' (List.mem_cons_of_mem _ ht')) (hsub.trans hRS) fun c hc hcS => ?_
      exact A.stays (he (.sift T) (List.mem_append_right _ List.mem_cons_self)) hRS
        (fun c hc => hR c hc t List.mem_cons_self) (hkept c hc hcS) hc

/-- **Sifting early** drops nothing that the last sifting keeps. -/
theorem keep_run (h : Timely born (es ++ [.sift T])) : A.keep T (es.foldl A.apply ∅) = A.keep T (added es).toFinset := by
  obtain ⟨h₁, h₂⟩ := run_kept (A := A) (R := ∅) (S := ∅) h (by simp) (by simp) (by simp)
  rw [Finset.empty_union] at h₁ h₂
  exact A.settles h₂ h₁

/-! ## Policies -/

variable [LinearOrder κ]

/-- The newest `n`. -/
def newest (born : α → τ) (rank : α → κ) (n : ℕ) : Selection τ born where
  keep _ S := S.filter fun b => (S.filter (rank b < rank ·)).card < n
  sub _ _ := Finset.filter_subset _ _
  stays := by
    intro t t' R S b _ hRS _ hb hkeep
    refine Finset.mem_filter.mpr ⟨hb, ?_⟩
    exact (Finset.card_le_card (Finset.filter_subset_filter _ hRS)).trans_lt (Finset.mem_filter.mp hkeep).2
  settles := by
    intro _ R S hRS hkeep
    have hlt {b} (hb : b ∈ R) (hcard : (R.filter (rank b < rank ·)).card < n) :
        (S.filter (rank b < rank ·)).card < n := by
      -- The newest element that is missing has all newer ones present, so it is one that is kept.
      by_cases hall : S.filter (rank b < rank ·) ⊆ R
      · refine (Finset.card_le_card fun c hc => ?_).trans_lt hcard
        exact Finset.mem_filter.mpr ⟨hall hc, (Finset.mem_filter.mp hc).2⟩
      · obtain ⟨c₀, hc₀, hno₀⟩ := Finset.not_subset.mp hall
        obtain ⟨c, hc, hmax⟩ := Finset.exists_max_image ((S.filter (rank b < rank ·)).filter (· ∉ R)) rank
          ⟨c₀, Finset.mem_filter.mpr ⟨hc₀, hno₀⟩⟩
        obtain ⟨hc, hno⟩ := Finset.mem_filter.mp hc
        obtain ⟨hcS, hbc⟩ := Finset.mem_filter.mp hc
        refine absurd (hkeep (Finset.mem_filter.mpr ⟨hcS, ?_⟩)) hno
        refine (Finset.card_le_card fun d hd => ?_).trans_lt hcard
        obtain ⟨hdS, hcd⟩ := Finset.mem_filter.mp hd
        have hbd := hbc.trans hcd
        refine Finset.mem_filter.mpr ⟨?_, hbd⟩
        by_contra hd
        exact absurd (hmax d (Finset.mem_filter.mpr ⟨Finset.mem_filter.mpr ⟨hdS, hbd⟩, hd⟩)) (not_le.mpr hcd)
    refine Finset.Subset.antisymm (fun b hb => ?_) fun b hb => ?_
    · obtain ⟨hb, hcard⟩ := Finset.mem_filter.mp hb
      exact Finset.mem_filter.mpr ⟨hRS hb, hlt hb hcard⟩
    · obtain ⟨-, hcard⟩ := Finset.mem_filter.mp hb
      refine Finset.mem_filter.mpr ⟨hkeep hb, ?_⟩
      exact (Finset.card_le_card (Finset.filter_subset_filter _ hRS)).trans_lt hcard

/-- The newest of every bucket of the window. -/
def perBucket [DecidableEq β] (rank : α → κ) (bucket : α → β) (window : τ → β → Prop) [∀ t, DecidablePred (window t)]
    (slides : ∀ {t t' b}, t ≤ t' → born b ≤ t → window t' (bucket b) → window t (bucket b)) : Selection τ born where
  keep t S := S.filter fun b => window t (bucket b) ∧ ∀ c ∈ S, bucket c = bucket b → rank c ≤ rank b
  sub _ _ := Finset.filter_subset _ _
  stays := by
    intro t t' R S b ht hRS hborn hb hkeep
    obtain ⟨-, hw, hmax⟩ := Finset.mem_filter.mp hkeep
    exact Finset.mem_filter.mpr ⟨hb, slides ht (hborn b hb) hw, fun c hc => hmax c (hRS hc)⟩
  settles := by
    intro t R S hRS hkeep
    refine Finset.Subset.antisymm (fun b hb => ?_) fun b hb => ?_
    · obtain ⟨hb, hw, hmax⟩ := Finset.mem_filter.mp hb
      obtain ⟨c, hc, hnewest⟩ := Finset.exists_max_image (S.filter (bucket · = bucket b)) rank
        ⟨b, Finset.mem_filter.mpr ⟨hRS hb, rfl⟩⟩
      obtain ⟨hcS, hcb⟩ := Finset.mem_filter.mp hc
      have hcR : c ∈ R := hkeep (Finset.mem_filter.mpr ⟨hcS, hcb ▸ hw, fun d hd hdc =>
        hnewest d (Finset.mem_filter.mpr ⟨hd, hdc.trans hcb⟩)⟩)
      exact Finset.mem_filter.mpr ⟨hRS hb, hw, fun d hd hdb =>
        (hnewest d (Finset.mem_filter.mpr ⟨hd, hdb⟩)).trans (hmax c hcR hcb)⟩
    · obtain ⟨-, hw, hmax⟩ := Finset.mem_filter.mp hb
      exact Finset.mem_filter.mpr ⟨hkeep hb, hw, fun c hc => hmax c (hRS hc)⟩

/-- What one of two selections keeps. -/
def both (A B : Selection τ born) : Selection τ born where
  keep t S := A.keep t S ∪ B.keep t S
  sub t S := Finset.union_subset (A.sub t S) (B.sub t S)
  stays := by
    intro t t' R S b ht hRS hborn hb hkeep
    rcases Finset.mem_union.mp hkeep with h | h
    · exact Finset.mem_union_left _ (A.stays ht hRS hborn hb h)
    · exact Finset.mem_union_right _ (B.stays ht hRS hborn hb h)
  settles := by
    intro t R S hRS hkeep
    rw [A.settles hRS (Finset.union_subset_left hkeep), B.settles hRS (Finset.union_subset_right hkeep)]

/-- Only some elements are candidates. -/
def among (p : α → Prop) [DecidablePred p] (A : Selection τ born) : Selection τ born where
  keep t S := S.filter (¬p ·) ∪ A.keep t (S.filter p)
  sub _ _ := Finset.union_subset (Finset.filter_subset _ _) ((A.sub _ _).trans (Finset.filter_subset _ _))
  stays := by
    intro t t' R S b ht hRS hborn hb hkeep
    rcases Finset.mem_union.mp hkeep with h | h
    · exact Finset.mem_union_left _ (Finset.mem_filter.mpr ⟨hb, (Finset.mem_filter.mp h).2⟩)
    · refine Finset.mem_union_right _ (A.stays ht (Finset.filter_subset_filter p hRS) (fun c hc => ?_) ?_ h)
      · exact hborn c (Finset.mem_of_mem_filter c hc)
      · exact Finset.mem_filter.mpr ⟨hb, (Finset.mem_filter.mp (A.sub _ _ h)).2⟩
  settles := by
    intro t R S hRS hkeep
    have hp : A.keep t (S.filter p) ⊆ R.filter p := fun b hb =>
      Finset.mem_filter.mpr ⟨hkeep (Finset.mem_union_right _ hb), (Finset.mem_filter.mp (A.sub _ _ hb)).2⟩
    have hn : R.filter (¬p ·) = S.filter (¬p ·) := by
      refine Finset.Subset.antisymm (Finset.filter_subset_filter _ hRS) fun b hb => ?_
      exact Finset.mem_filter.mpr ⟨hkeep (Finset.mem_union_left _ hb), (Finset.mem_filter.mp hb).2⟩
    rw [A.settles (Finset.filter_subset_filter p hRS) hp, hn]

/-- A selection that does nothing at first. -/
def once (ok : τ → Prop) [DecidablePred ok] (hok : ∀ {t t'}, t ≤ t' → ok t → ok t') (A : Selection τ born) :
    Selection τ born where
  keep t S := if ok t then A.keep t S else S
  sub := by
    intro t S
    split_ifs
    · exact A.sub t S
    · exact Finset.Subset.refl S
  stays := by
    intro t t' R S b ht hRS hborn hb hkeep
    split_ifs with h
    · rw [if_pos (hok ht h)] at hkeep
      exact A.stays ht hRS hborn hb hkeep
    · exact hb
  settles := by
    intro t R S hRS hkeep
    split_ifs at hkeep ⊢ with h
    · exact A.settles hRS hkeep
    · exact Finset.Subset.antisymm hRS hkeep

end Selection

end Lib
