import Mathlib.Data.List.Lex
import Mathlib.Order.Fin.Basic
import McServerDashboard.Lib.Padded
import McServerDashboard.Plugins.Resolution

/-!
# The order of versions

* `Readable`: a version whose parts of digits are numbers; `components_isSome`.
* `TotalPreorderOn`: what a comparison that may fail owes on a set.
* **`compare_versions_preorder`**: `compare_versions` is a total preorder of versions, exactly when all of them are
  readable.
* `selectImportVersion_newest`: of readable versions, none is newer than the one that is imported.
-/

namespace McServerDashboard.Plugins

open Lib Lib.Properties Properties

/-! ## Components -/

/-- The order of components: texts are below numbers. -/
def Component.le : Component → Component → Prop
  | .number x, .number y => x ≤ y
  | .number _, .text _ => False
  | .text _, .number _ => True
  | .text x, .text y => x ≤ y

theorem isLE_compareComponents (x y : Component) : (compareComponents x y).isLE ↔ x.le y := by
  cases x with
  | number m =>
    cases y with
    | number n => exact Int.isLE_compare
    | text s => exact ⟨nofun, nofun⟩
  | text s =>
    cases y with
    | number n => exact ⟨fun _ => trivial, fun _ => rfl⟩
    | text t =>
      rw [compareComponents]
      show _ ↔ s ≤ t
      split_ifs with heq hlt
      · exact ⟨fun _ => heq.le, fun _ => rfl⟩
      · exact ⟨fun _ => hlt.le, fun _ => rfl⟩
      · exact ⟨nofun, fun hle => absurd (lt_of_le_of_ne hle heq) hlt⟩

instance : Std.TransCmp compareComponents where
  eq_swap {x y} := by
    cases x with
    | number m =>
      cases y with
      | number n => exact Std.OrientedOrd.eq_swap
      | text s => rfl
    | text s =>
      cases y with
      | number n => rfl
      | text t =>
        rw [compareComponents, compareComponents]
        rcases lt_trichotomy s t with h | h | h
        · rw [if_neg h.ne, if_pos h, if_neg h.ne', if_neg h.not_gt]
          rfl
        · rw [if_pos h, if_pos h.symm]
          rfl
        · rw [if_neg h.ne', if_neg h.not_gt, if_neg h.ne, if_pos h]
          rfl
  isLE_trans {x y z} hxy hyz := by
    rw [isLE_compareComponents] at hxy hyz ⊢
    cases x <;> cases y <;> cases z
    all_goals first | exact le_trans hxy hyz | trivial

instance : Std.LawfulEqCmp compareComponents where
  compare_self {x} := by
    cases x with
    | number n => exact Std.ReflCmp.compare_self
    | text s => exact if_pos rfl
  eq_of_compare {x y} h := by
    cases x <;> cases y <;> rw [compareComponents] at h
    · rw [Std.LawfulEqOrd.eq_of_compare h]
    · cases h
    · cases h
    · split_ifs at h with heq
      rw [heq]

theorem compareLists_eq (xs ys : List Component) :
    compareLists xs ys = Padded.compareLists compareComponents (.number 0) xs ys := by
  induction xs generalizing ys with
  | nil => rfl
  | cons x xs ih =>
    rw [compareLists, Padded.compareLists, ih]
    cases ys <;> rfl

/-! ## Readable versions -/

/-- What `str.isdigit` takes for digits is a number: decimal digits, and not too many. -/
def Readable (version : Str) : Prop :=
  ∀ part ∈ parts version, part.all isDigit → (∀ c ∈ part, (decimal? c).isSome) ∧ part.length ≤ maxStrDigits

instance : DecidablePred Readable := fun version =>
  inferInstanceAs (Decidable (∀ part ∈ parts version, part.all isDigit →
    (∀ c ∈ part, (decimal? c).isSome) ∧ part.length ≤ maxStrDigits))

theorem ne_nil_of_mem_parts {version part : Str} (h : part ∈ parts version) : part ≠ [] := by
  simpa using (List.mem_filter.mp h).2

theorem component_isSome {part : Str} (hne : part ≠ []) :
    (component part).isSome ↔
      (part.all isDigit → (∀ c ∈ part, (decimal? c).isSome) ∧ part.length ≤ maxStrDigits) := by
  rw [component]
  split_ifs with hdigit
  · rw [Option.isSome_map, isSome_int? hne (List.all_eq_true.mp hdigit)]
    exact ⟨fun h _ => h, fun h => h hdigit⟩
  · exact ⟨fun _ h => absurd h hdigit, fun _ => rfl⟩

theorem components_isSome {version : Str} : (components version).isSome ↔ Readable version := by
  rw [components, isSome_mapM]
  exact forall₂_congr fun part hpart => component_isSome (ne_nil_of_mem_parts hpart)

/-! ## Comparing versions -/

/-- A comparison that may fail is a total preorder of the elements of a set. -/
structure TotalPreorderOn {α : Type*} (cmp : α → α → Option Ordering) (S : Set α) : Prop where
  total : ∀ a ∈ S, ∀ b ∈ S, cmp a b ≠ none
  swap : ∀ a ∈ S, ∀ b ∈ S, cmp b a = (cmp a b).map Ordering.swap
  trans : ∀ a ∈ S, ∀ b ∈ S, ∀ c ∈ S, cmp a b ≠ some .gt → cmp b c ≠ some .gt → cmp a c ≠ some .gt

theorem compareVersions_eq {a b : Str} {x y : List Component} (ha : components a = some x)
    (hb : components b = some y) :
    compareVersions a b = some (Padded.compareLists compareComponents (.number 0) x y) := by
  rw [compareVersions, ha, hb, ← compareLists_eq]
  rfl

/-- **Versions are totally preordered**, exactly when each can be read. -/
theorem compare_versions_preorder (S : Set Str) : TotalPreorderOn compareVersions S ↔ ∀ v ∈ S, Readable v := by
  constructor
  · intro h v hv
    rw [← components_isSome, Option.isSome_iff_ne_none]
    intro hnone
    refine h.total v hv v hv ?_
    rw [compareVersions, hnone]
    rfl
  · intro h
    have hread : ∀ v ∈ S, ∃ x, components v = some x := fun v hv =>
      Option.isSome_iff_exists.mp (components_isSome.mpr (h v hv))
    constructor
    · intro a ha b hb
      obtain ⟨x, hx⟩ := hread a ha
      obtain ⟨y, hy⟩ := hread b hb
      rw [compareVersions_eq hx hy]
      exact Option.some_ne_none _
    · intro a ha b hb
      obtain ⟨x, hx⟩ := hread a ha
      obtain ⟨y, hy⟩ := hread b hb
      rw [compareVersions_eq hx hy, compareVersions_eq hy hx, Option.map_some]
      exact congrArg some Std.OrientedCmp.eq_swap
    · intro a ha b hb c hc
      obtain ⟨x, hx⟩ := hread a ha
      obtain ⟨y, hy⟩ := hread b hb
      obtain ⟨z, hz⟩ := hread c hc
      rw [compareVersions_eq hx hy, compareVersions_eq hy hz, compareVersions_eq hx hz]
      simp only [ne_eq, Option.some.injEq, ← Ordering.isLE_iff_ne_gt]
      exact Std.TransCmp.isLE_trans

/-- **A superscript is a digit, and no number**: it cannot be compared with itself. -/
theorem compare_versions_superscript : ¬ TotalPreorderOn compareVersions Set.univ := fun h =>
  h.total [49, 46, 0xB2] trivial [49, 46, 0xB2] trivial (by decide)

/-! ## The newest version -/

/-- The later of two candidates is no older than either. -/
theorem newer_spec {S : Set Str} (h : TotalPreorderOn compareVersions S) {v best : CatalogVersion}
    (hv : v.versionNumber ∈ S) (hbest : best.versionNumber ∈ S) {b : Bool} (hb : newer v best = some b) :
    compareVersions v.versionNumber (if b then v else best).versionNumber ≠ some .gt ∧
      compareVersions best.versionNumber (if b then v else best).versionNumber ≠ some .gt := by
  have hself : ∀ a ∈ S, compareVersions a a ≠ some .gt := by
    intro a ha heq
    have hswap := h.swap a ha a ha
    rw [heq] at hswap
    cases hswap
  have hswap := h.swap _ hv _ hbest
  obtain ⟨o, ho, rfl⟩ := Option.map_eq_some_iff.mp hb
  rw [ho] at hswap
  split_ifs with hnewer
  · refine ⟨hself _ hv, fun hgt => ?_⟩
    rw [hgt] at hswap
    cases o <;> cases hswap
    cases hnewer
  · refine ⟨fun hgt => hnewer ?_, hself _ hbest⟩
    obtain rfl : o = .gt := Option.some.inj (ho.symm.trans hgt)
    rfl

/-- What is imported is a candidate, and no candidate is newer. -/
theorem selectImportVersion_newest {range dialect : Str} {versions : List CatalogVersion} {best : CatalogVersion}
    (hread : ∀ v ∈ candidates range dialect versions, Readable v.versionNumber)
    (h : selectImportVersion range dialect versions = some (some best)) :
    best ∈ candidates range dialect versions ∧
      ∀ v ∈ candidates range dialect versions, compareVersions v.versionNumber best.versionNumber ≠ some .gt := by
  have horder := (compare_versions_preorder {v | Readable v}).mpr fun _ hv => hv
  have hfold : ∀ (vs : List CatalogVersion) (v r : CatalogVersion), (∀ w ∈ v :: vs, Readable w.versionNumber) →
      vs.foldlM (fun best v => do return if ← newer v best then v else best) v = some r →
      r ∈ v :: vs ∧ ∀ w ∈ v :: vs, compareVersions w.versionNumber r.versionNumber ≠ some .gt := by
    intro vs
    induction vs with
    | nil =>
      rintro v r hv hr
      obtain rfl : v = r := Option.some.inj hr
      refine ⟨List.mem_cons_self, fun w hw => ?_⟩
      obtain rfl := List.mem_singleton.mp hw
      intro heq
      have hswap := horder.swap _ (hv w hw) _ (hv w hw)
      rw [heq] at hswap
      cases hswap
    | cons u vs ih =>
      intro v r hread hr
      rw [List.foldlM_cons] at hr
      obtain ⟨n, hn, hr⟩ := Option.bind_eq_some_iff.mp hr
      obtain ⟨b, hb, hn⟩ := Option.bind_eq_some_iff.mp hn
      obtain rfl : (if b then u else v) = n := Option.some.inj hn
      have hv := hread v List.mem_cons_self
      have hu := hread u (List.mem_cons_of_mem _ List.mem_cons_self)
      have hvs := fun w hw => hread w (List.mem_cons_of_mem _ (List.mem_cons_of_mem _ hw))
      have hn : Readable (if b then u else v).versionNumber := by
        split_ifs
        · exact hu
        · exact hv
      obtain ⟨hule, hvle⟩ := newer_spec horder hu hv hb
      obtain ⟨hmem, hle⟩ := ih _ r (List.forall_mem_cons.mpr ⟨hn, hvs⟩) hr
      have hr : Readable r.versionNumber := by
        rcases List.mem_cons.mp hmem with rfl | hmem
        · exact hn
        · exact hvs r hmem
      have hnle := hle _ List.mem_cons_self
      refine ⟨?_, List.forall_mem_cons.mpr ⟨horder.trans _ hv _ hn _ hr hvle hnle, List.forall_mem_cons.mpr
        ⟨horder.trans _ hu _ hn _ hr hule hnle, fun w hw => hle w (List.mem_cons_of_mem _ hw)⟩⟩⟩
      rcases List.mem_cons.mp hmem with rfl | hmem
      · split_ifs
        · exact List.mem_cons_of_mem _ List.mem_cons_self
        · exact List.mem_cons_self
      · exact List.mem_cons_of_mem _ (List.mem_cons_of_mem _ hmem)
  rw [selectImportVersion] at h
  cases hc : candidates range dialect versions with
  | nil =>
    rw [hc] at h
    cases h
  | cons v vs =>
    rw [hc] at h hread
    obtain ⟨r, hr, hbest⟩ := Option.map_eq_some_iff.mp h
    obtain rfl : r = best := Option.some.inj hbest
    exact hfold vs v r hread hr

end McServerDashboard.Plugins
