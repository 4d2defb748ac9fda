import McServerDashboard.Plugins.Blocking

/-!
# The plan

* `Covers`: one entry for each identifier that is reached, at its distance, for a few requests.
  **`covers_iff`**: the walk ends with such a plan, unless a selection raises a `ValueError`.
* `Unopposed`, `Connected`: no import meets its opponent, and every entry hangs on an installed plugin by imports that
  stay. **`pruned_iff`**: exactly when the entries that hang on nothing do not require one another, and no import is an
  endpoint by its identifier alone.
-/

namespace McServerDashboard.Plugins

open Lib Lib.BreadthFirst Properties

/-! ## Catalogs that do not change -/

/-- What a catalog answers that gives the same answers all the time. -/
structure Answers where
  search : Str → Option (List CatalogProject)
  getProject : Str → Option CatalogProject
  listVersions : Str → Option (List CatalogVersion)

def Answers.catalog (a : Answers) : Catalog Unit :=
  ⟨fun q s => (s, a.search q), fun id s => (s, a.getProject id), fun id s => (s, a.listVersions id)⟩

/-- The answers of a list of projects with their versions. -/
def Answers.ofProjects (projects : List (CatalogProject × List CatalogVersion)) : Answers :=
  ⟨fun _ => some (projects.map Prod.fst), fun id => (projects.map Prod.fst).find? (·.projectId = id),
    fun id => (projects.find? (·.1.projectId = id)).map Prod.snd⟩

variable {σ : Type*} {catalog : Catalog σ} {plugins : List ServerPlugin} {serverType : ServerType} {fuel : ℕ} {s : σ}
  {w : Walk σ} {plan : List ResolutionEntry}

theorem resolveClosure_ok : resolveClosure catalog plugins serverType fuel s = some (.ok (plan, w)) ↔
    rounds catalog serverType.dialect plugins fuel (initialFrontier plugins) (.start s) = some (.ok w) ∧
      blockAndPrune fuel (w.blocking plugins) = some plan := by
  unfold resolveClosure
  constructor
  · intro h
    split at h
    · cases h
    · cases h
    · next w' hrounds =>
      obtain ⟨entries, hblock, heq⟩ := Option.map_eq_some_iff.mp h
      cases heq
      exact ⟨hrounds, hblock⟩
  · rintro ⟨hrounds, hblock⟩
    rw [hrounds]
    simp only [hblock, Option.map_some]

theorem blockAndPrune_isSome {b : Blocking} (hfuel : b.entries.length < fuel) : (blockAndPrune fuel b).isSome := by
  rw [blockAndPrune, Option.isSome_map]
  exact Blocking.fixpoint_isSome List.nodup_nil (fun i hi => by cases hi) (by simpa using hfuel)

/-! ## What the plan covers -/

/-- What the plan is about, and what it took. -/
structure Covers (plugins : List ServerPlugin) (plan : List ResolutionEntry) (w : Walk σ) : Prop where
  nodup : (plan.map (·.depIdentifier)).Nodup
  reached : ∀ id, id ∈ plan.map (·.depIdentifier) ↔ ∃ k, Chain (roots plugins) w.imports k id
  nearest : ∀ e ∈ plan, Chain (roots plugins) w.imports e.depth e.depIdentifier ∧
    ∀ k, Chain (roots plugins) w.imports k e.depIdentifier → e.depth ≤ k
  depth : ∀ e ∈ plan, e.depth ≤ maxResolutionDepth
  requests : ∀ id, AtMost 2 (w.requestsFor id)

/-- The walk covers what it has settled. -/
theorem covers_entries {dialect : Str} (h : Walking dialect plugins w []) : Covers plugins w.entries w := by
  obtain ⟨hnear, hreach⟩ := h.search.shortest
  have hids : w.entries.map (·.depIdentifier) = (settled w).map Prod.fst := by
    rw [settled, List.map_map]
    rfl
  have hmem : ∀ e ∈ w.entries, (e.depIdentifier, e.depth) ∈ settled w := fun e he => List.mem_map_of_mem he
  refine ⟨?_, fun id => ⟨fun hid => ?_, fun hid => ?_⟩, fun e he => hnear _ (hmem e he), fun e he => (h.entries e he).1,
    h.asked⟩
  · rw [hids]
    exact h.search.nodup
  · obtain ⟨e, he, rfl⟩ := List.mem_map.mp hid
    exact ⟨e.depth, (hnear _ (hmem e he)).1⟩
  · obtain ⟨k, hk⟩ := hid
    rw [hids]
    exact hreach k id hk

/-- Nor does blocking change what is covered. -/
theorem Covers.markBlocked (h : Covers plugins w.entries w) (blocked : List ℕ) :
    Covers plugins ((w.blocking plugins).markBlocked blocked) w := by
  have hids : ((w.blocking plugins).markBlocked blocked).map (fun e => (e.depIdentifier, e.depth)) =
      w.entries.map fun e => (e.depIdentifier, e.depth) := Blocking.map_markBlocked fun _ => rfl
  have hfst : ((w.blocking plugins).markBlocked blocked).map (·.depIdentifier) = w.entries.map (·.depIdentifier) :=
    Blocking.map_markBlocked fun _ => rfl
  have hmem : ∀ e ∈ (w.blocking plugins).markBlocked blocked,
      ∃ e' ∈ w.entries, e'.depIdentifier = e.depIdentifier ∧ e'.depth = e.depth := by
    intro e he
    have hpair := List.mem_map_of_mem (f := fun e : ResolutionEntry => (e.depIdentifier, e.depth)) he
    rw [hids] at hpair
    obtain ⟨e', he', heq⟩ := List.mem_map.mp hpair
    exact ⟨e', he', (Prod.mk.inj heq).1, (Prod.mk.inj heq).2⟩
  refine ⟨hfst ▸ h.nodup, fun id => hfst ▸ h.reached id, fun e he => ?_, fun e he => ?_, h.requests⟩
  · obtain ⟨e', he', hid, hdepth⟩ := hmem e he
    exact hid ▸ hdepth ▸ h.nearest e' he'
  · obtain ⟨e', he', -, hdepth⟩ := hmem e he
    exact hdepth ▸ h.depth e' he'

/-- What the walk selects from. -/
def selections (catalog : Catalog σ) (plugins : List ServerPlugin) (serverType : ServerType) (s : σ) :
    List (Str × List CatalogVersion) :=
  match rounds catalog serverType.dialect plugins (maxResolutionDepth + 1) (initialFrontier plugins) (.start s) with
  | some (.ok w) => w.selections
  | some (.error w) => w.selections
  | none => []

/-- A selection that raises is the end of the walk. -/
theorem not_ok_of_selections (h : ∃ sel ∈ selections catalog plugins serverType s, ¬ Selectable serverType.dialect sel) :
    ∃ w, ∀ fuel ≥ maxResolutionDepth + 1, resolveClosure catalog plugins serverType fuel s = some (.error w) := by
  obtain ⟨sel, hsel, hnot⟩ := h
  rw [selections] at hsel
  split at hsel
  · next w hrounds => exact absurd ((walking_rounds hrounds).selections sel hsel) hnot
  · next w hrounds =>
    refine ⟨w, fun fuel hfuel => ?_⟩
    rw [resolveClosure, rounds_mono hfuel hrounds]
  · cases hsel

/-- No selection raises where no listing of the catalog makes one raise. -/
theorem selectable_of_listings (h : ∀ versions, catalog.Lists versions → ∀ range, Selectable serverType.dialect (range, versions)) :
    ∀ sel ∈ selections catalog plugins serverType s, Selectable serverType.dialect sel := by
  intro sel hsel
  rw [selections] at hsel
  split at hsel
  · next w hrounds => exact (walking_rounds hrounds).selections sel hsel
  · next w hrounds =>
    obtain ⟨sel', -, hnot, hlists⟩ := rounds_raises hrounds
    exact absurd (h _ hlists sel'.1) hnot
  · cases hsel

/-- **The walk ends with a plan that covers what is reached**, exactly when no selection raises, and so for every
catalog whose listings raise none. -/
theorem covers_iff (catalog : Catalog σ) (plugins : List ServerPlugin) (serverType : ServerType) (s : σ) :
    ((∃ plan w, (∃ n, ∀ fuel ≥ n, resolveClosure catalog plugins serverType fuel s = some (.ok (plan, w))) ∧
        Covers plugins plan w) ↔
      ∀ sel ∈ selections catalog plugins serverType s, Selectable serverType.dialect sel) ∧
    ((∀ versions, catalog.Lists versions → ∀ range, Selectable serverType.dialect (range, versions)) →
      ∀ sel ∈ selections catalog plugins serverType s, Selectable serverType.dialect sel) := by
  refine ⟨?_, selectable_of_listings⟩
  constructor
  · rintro ⟨plan, w, ⟨n, hn⟩, -⟩ sel hsel
    by_contra hnot
    obtain ⟨w', herr⟩ := not_ok_of_selections ⟨sel, hsel, hnot⟩
    have hok := hn (max n (maxResolutionDepth + 1)) (Nat.le_max_left _ _)
    rw [herr _ (Nat.le_max_right _ _)] at hok
    cases hok
  · intro hall
    have hsome : (rounds catalog serverType.dialect plugins (maxResolutionDepth + 1) (initialFrontier plugins)
        (.start s)).isSome := rounds_start_isSome (Nat.le_refl _)
    obtain ⟨r, hr⟩ := Option.isSome_iff_exists.mp hsome
    rw [selections, hr] at hall
    cases r with
    | error w =>
      obtain ⟨sel, hsel, hnot, -⟩ := rounds_raises hr
      exact absurd (hall sel hsel) hnot
    | ok w =>
      obtain ⟨plan, hplan⟩ := Option.isSome_iff_exists.mp
        (blockAndPrune_isSome (b := w.blocking plugins) (Nat.lt_succ_self _))
      obtain ⟨blocked, hfix, rfl⟩ := Option.map_eq_some_iff.mp hplan
      refine ⟨_, w, ⟨max (maxResolutionDepth + 1) (w.entries.length + 1), fun fuel hfuel => ?_⟩,
        (covers_entries (walking_rounds hr)).markBlocked blocked⟩
      refine resolveClosure_ok.mpr ⟨rounds_mono ((Nat.le_max_left _ _).trans hfuel) hr, ?_⟩
      rw [blockAndPrune, Blocking.fixpoint_mono ((Nat.le_max_right _ _).trans hfuel) hfix]
      rfl

/-- A plugin from a file that requires and excludes other ones. -/
def ServerPlugin.ofManifest (id : Str) (version : Str) (dependencies : List ManifestDep) : ServerPlugin :=
  ⟨.loc, none, some version, some id, [], dependencies, []⟩

/-- A version with a file, and the projects that it requires. -/
def CatalogVersion.requiring (id number : Str) (required : List Str) : CatalogVersion :=
  ⟨id, number, [str "mod.jar"], required.map fun pid => ⟨pid, str "required"⟩⟩

/-- A library with a version number that only looks like one. -/
def superscripted : Catalog Unit :=
  (Answers.ofProjects [(⟨str "L", str "lib"⟩,
    [.requiring (str "v1") (str "1.0") [], .requiring (str "v2") (str "1.²") []])]).catalog

/-- A plugin that requires the library. -/
def dependent : ServerPlugin := .ofManifest (str "a") (str "1") [⟨true, false, some (str "lib"), none, none⟩]

/-- **No plan**: the two versions of the library cannot be compared. -/
theorem not_covered : ¬ ∃ plan w, (∃ n, ∀ fuel ≥ n,
    resolveClosure superscripted [dependent] .fabric fuel () = some (.ok (plan, w))) ∧ Covers [dependent] plan w := by
  rintro ⟨plan, w, ⟨n, hn⟩, -⟩
  have hsel : ∃ sel ∈ selections superscripted [dependent] .fabric (), ¬ Selectable ServerType.fabric.dialect sel := by
    decide +kernel
  obtain ⟨w', herr⟩ := not_ok_of_selections hsel
  have hok := hn (max n (maxResolutionDepth + 1)) (Nat.le_max_left _ _)
  rw [herr _ (Nat.le_max_right _ _)] at hok
  cases hok

/-! ## What stays -/

/-- The id of an installed plugin, or of an import that stays. -/
def Present (plugins : List ServerPlugin) (plan : List ResolutionEntry) (id : Str) : Prop :=
  id ∈ installedIds plugins ∨ ∃ e ∈ plan, e.blocked = false ∧ ∃ will, e.added = some will ∧
    (id = will.slug ∨ id = e.depIdentifier)

def PresentProject (plugins : List ServerPlugin) (plan : List ResolutionEntry) (id : Str) : Prop :=
  id ∈ installedProjectIds plugins ∨ ∃ e ∈ plan, e.blocked = false ∧ ∃ will, e.added = some will ∧ id = will.projectId

/-- No import that stays is an endpoint of an edge of which both are present. -/
structure Unopposed (plugins : List ServerPlugin) (plan : List ResolutionEntry) (w : Walk σ) : Prop where
  conflicts : ∀ edge ∈ conflictEdges plugins, Present plugins plan edge.1 → Present plugins plan edge.2 →
    ∀ e ∈ plan, e.blocked = false → ∀ will, e.added = some will →
      ∀ id ∈ [edge.1, edge.2], id ≠ will.slug ∧ id ≠ e.depIdentifier
  incompatible : ∀ edge ∈ installedIncompatibleEdges plugins ++ w.incompatible,
    PresentProject plugins plan edge.1 → PresentProject plugins plan edge.2 →
    ∀ e ∈ plan, e.blocked = false → ∀ will, e.added = some will → ∀ id ∈ [edge.1, edge.2], id ≠ will.projectId

/-- A chain of requirements from an installed plugin, over imports that stay. -/
inductive Connected (plugins : List ServerPlugin) (plan : List ResolutionEntry) (w : Walk σ) : Str → Prop
  | root {id : Str} : id ∈ roots plugins → Connected plugins plan w id
  | step {e : ResolutionEntry} {id : Str} : Connected plugins plan w e.depIdentifier → e ∈ plan → e.blocked = false →
      e.added.isSome → (e.depIdentifier, id) ∈ w.imports → Connected plugins plan w id

/-- The same over the imports that conflict with nothing. -/
inductive Walk.Rooted (plugins : List ServerPlugin) (w : Walk σ) : ResolutionEntry → Prop
  | root {e : ResolutionEntry} : e ∈ w.entries → (w.blocking plugins).conflicts [] e = false →
      e.depIdentifier ∈ roots plugins → Rooted plugins w e
  | step {e e' : ResolutionEntry} : Rooted plugins w e → (e.depIdentifier, e'.depIdentifier) ∈ w.imports →
      e' ∈ w.entries → (w.blocking plugins).conflicts [] e' = false → Rooted plugins w e'

/-- Entries without conflicts, and not so connected, each of which is required under an installed id, or by an import
that is connected or one of them. -/
structure Walk.Clique (plugins : List ServerPlugin) (w : Walk σ) (T : ResolutionEntry → Prop) : Prop where
  inhabited : ∃ e, T e
  stray : ∀ e, T e → e ∈ w.entries ∧ (w.blocking plugins).conflicts [] e = false ∧ ¬ w.Rooted plugins e
  supported : ∀ e, T e → (w.blocking plugins).Supported (fun e' => w.Rooted plugins e' ∨ T e') e

/-- An import so connected is the endpoint of a conflict by its identifier. -/
def Walk.Aliased (plugins : List ServerPlugin) (w : Walk σ) : Prop :=
  ∃ edge ∈ conflictEdges plugins,
    (edge.2 ∈ installedIds plugins ∨
      ∃ e, w.Rooted plugins e ∧ ∃ will, e.added = some will ∧ (edge.2 = will.slug ∨ edge.2 = e.depIdentifier)) ∧
    ∃ e, w.Rooted plugins e ∧ e.added.isSome ∧ e.depIdentifier ∈ [edge.1, edge.2]

variable {e e' : ResolutionEntry} {blocked : List ℕ}

theorem Walk.Rooted.mem (h : w.Rooted plugins e) : e ∈ w.entries := by
  cases h with
  | root he => exact he
  | step _ _ he => exact he

theorem Walk.Rooted.unopposed (h : w.Rooted plugins e) : (w.blocking plugins).conflicts [] e = false := by
  cases h with
  | root _ hconf => exact hconf
  | step _ _ _ hconf => exact hconf

/-- An entry that requires another one is an import, and is among the requirers. -/
theorem Requiring.of_import (h : Requiring plugins w []) (hnodup : (w.entries.map (·.depIdentifier)).Nodup)
    (he : e ∈ w.entries) (he' : e' ∈ w.entries) (hedge : (e.depIdentifier, e'.depIdentifier) ∈ w.imports) :
    ∃ will, e.added = some will ∧ some will.slug ∈ (w.blocking plugins).requirersOf e' := by
  obtain ⟨e1, he1, hid, will, hadded, hask⟩ := h.imports _ hedge
  obtain rfl := List.inj_on_of_nodup_map hnodup he1 he hid
  exact ⟨will, hadded, (h.mem_requirersOf he').mpr hask⟩

/-- The entries that are connected support one another. -/
theorem Walk.Rooted.supported (hreq : Requiring plugins w []) (hnodup : (w.entries.map (·.depIdentifier)).Nodup)
    (h : w.Rooted plugins e) : (w.blocking plugins).Supported (w.Rooted plugins) e := by
  cases h with
  | root he hconf hroot => exact .inl ((hreq.mem_requirersOf he).mpr ((hreq.roots _).mpr hroot))
  | step hrooted hedge he hconf =>
    obtain ⟨will, hadded, hslug⟩ := hreq.of_import hnodup hrooted.mem he hedge
    exact .inr ⟨will.slug, hslug, .inr ⟨_, hrooted.mem, hrooted, will, hadded, rfl⟩⟩

/-- Who declares a conflict is installed. -/
theorem declarer_installed {edge : Str × Str} (h : edge ∈ conflictEdges plugins) : edge.1 ∈ installedIds plugins := by
  obtain ⟨p, hp, hedge⟩ := List.mem_flatMap.mp h
  refine List.mem_flatMap.mpr ⟨p, hp, ?_⟩
  cases hid : p.identifier? with
  | none =>
    rw [hid] at hedge
    cases hedge
  | some id =>
    rw [hid] at hedge
    obtain ⟨d, -, hd⟩ := List.mem_filterMap.mp hedge
    obtain ⟨target, -, rfl⟩ := Option.map_eq_some_iff.mp hd
    exact List.mem_cons_self

section

variable {final : List ℕ} (hreq : Requiring plugins w []) (hnodup : (w.entries.map (·.depIdentifier)).Nodup)
  (hfix : (w.blocking plugins).fixpoint fuel [] = some final)

include hreq hnodup hfix

theorem Walk.Rooted.kept (h : w.Rooted plugins e) : e ∈ (w.blocking plugins).unblocked final :=
  Blocking.keeps_supported (S := w.Rooted plugins) hfix (fun _ _ h => ⟨h.unopposed, h.supported hreq hnodup⟩) h.mem h

/-- What stays is connected, unless entries that are not require one another. -/
theorem kept_rooted_iff :
    (∀ e ∈ (w.blocking plugins).unblocked final, w.Rooted plugins e) ↔ ¬ ∃ T, w.Clique plugins T := by
  constructor
  · rintro hall ⟨T, ⟨e, he⟩, hstray, hsup⟩
    obtain ⟨hmem, -, hnot⟩ := hstray e he
    refine hnot (hall e (Blocking.keeps_supported (S := fun e => w.Rooted plugins e ∨ T e) hfix ?_ hmem (.inr he)))
    rintro e - (h | h)
    · exact ⟨h.unopposed, (h.supported hreq hnodup).mono fun _ _ => .inl⟩
    · exact ⟨(hstray e h).2.1, hsup e h⟩
  · intro hno e he
    by_contra hnot
    refine hno ⟨fun e => e ∈ (w.blocking plugins).unblocked final ∧ ¬ w.Rooted plugins e, ⟨e, he, hnot⟩, ?_, ?_⟩
    · rintro e ⟨he, hnot⟩
      exact ⟨Blocking.mem_entries_of_unblocked he, (Blocking.kept_of_fixpoint hfix he).1, hnot⟩
    · rintro e ⟨he, -⟩
      exact (Blocking.kept_of_fixpoint hfix he).2.mono fun e' _ he' => or_iff_not_imp_left.mpr fun hnot' => ⟨he', hnot'⟩

/-- A chain over imports that stay is one over imports without conflicts, and the other way round. -/
theorem connected_iff_rooted (hnew : ∀ e ∈ w.entries, e.blocked = false)
    (hplan : plan = (w.blocking plugins).markBlocked final) :
    (∀ e ∈ plan, e.blocked = false → Connected plugins plan w e.depIdentifier) ↔
      ∀ e ∈ (w.blocking plugins).unblocked final, w.Rooted plugins e := by
  have hkept : ∀ e, e ∈ plan ∧ e.blocked = false ↔ e ∈ (w.blocking plugins).unblocked final := by
    intro e
    rw [hplan]
    exact Blocking.mem_markBlocked hnew
  constructor
  · intro hall e he
    obtain ⟨hmem, hb⟩ := (hkept e).mpr he
    -- along the chain, every entry that stays is rooted
    have hchain : ∀ id, Connected plugins plan w id →
        ∀ e ∈ (w.blocking plugins).unblocked final, e.depIdentifier = id → w.Rooted plugins e := by
      intro id hconn
      induction hconn with
      | root hroot =>
        rintro e he rfl
        exact .root (Blocking.mem_entries_of_unblocked he) (Blocking.kept_of_fixpoint hfix he).1 hroot
      | step _ hmem hb _ hedge ih =>
        rintro e he rfl
        exact .step (ih _ ((hkept _).mp ⟨hmem, hb⟩) rfl) hedge (Blocking.mem_entries_of_unblocked he)
          (Blocking.kept_of_fixpoint hfix he).1
    exact hchain _ (hall e hmem hb) e he rfl
  · intro hall e hmem hb
    have hrooted : ∀ e, w.Rooted plugins e → Connected plugins plan w e.depIdentifier := by
      intro e hrooted
      induction hrooted with
      | root _ _ hroot => exact .root hroot
      | step hprev hedge he hconf ih =>
        obtain ⟨hmem, hb⟩ := (hkept _).mpr (hprev.kept hreq hnodup hfix)
        obtain ⟨will, hadded, -⟩ := hreq.of_import hnodup hprev.mem he hedge
        exact .step ih hmem hb (Option.isSome_of_eq_some hadded) hedge
    exact hrooted e (hall e ((hkept e).mp ⟨hmem, hb⟩))

/-- Where all that stays is rooted, an import meets an opponent by its identifier or not at all. -/
theorem unopposed_iff (hnew : ∀ e ∈ w.entries, e.blocked = false)
    (hplan : plan = (w.blocking plugins).markBlocked final)
    (hall : ∀ e ∈ (w.blocking plugins).unblocked final, w.Rooted plugins e) :
    Unopposed plugins plan w ↔ ¬ w.Aliased plugins := by
  have hkept : ∀ e, e ∈ plan ∧ e.blocked = false ↔ w.Rooted plugins e := by
    intro e
    rw [hplan, Blocking.mem_markBlocked hnew]
    exact ⟨hall e, fun h => h.kept hreq hnodup hfix⟩
  have hids : ∀ id, Present plugins plan id ↔ id ∈ (w.blocking plugins).presentIds final := by
    intro id
    rw [Blocking.mem_presentIds, Present]
    refine or_congr_right (exists_congr fun e => ?_)
    rw [← and_assoc, hplan, Blocking.mem_markBlocked hnew]
  have hprojects : ∀ id, PresentProject plugins plan id ↔ id ∈ (w.blocking plugins).presentProjectIds final := by
    intro id
    rw [Blocking.mem_presentProjectIds, PresentProject]
    refine or_congr_right (exists_congr fun e => ?_)
    rw [← and_assoc, hplan, Blocking.mem_markBlocked hnew]
  -- what stays does not conflict by its slug, or by its project
  have hno : ∀ e will, w.Rooted plugins e → e.added = some will →
      will.slug ∉ (w.blocking plugins).conflictIds final ∧ will.projectId ∉ (w.blocking plugins).conflictProjectIds final := by
    intro e will hrooted hadded
    have hconf := mt (Blocking.conflicts_of_subset (List.nil_subset final)) (Bool.eq_false_iff.mp hrooted.unopposed)
    rw [Blocking.conflicts_iff] at hconf
    exact ⟨fun h => hconf ⟨will, hadded, .inl h⟩, fun h => hconf ⟨will, hadded, .inr h⟩⟩
  constructor
  · rintro hun ⟨edge, hedge, hpresent, e, hrooted, hadded, hid⟩
    obtain ⟨will, hadded⟩ := Option.isSome_iff_exists.mp hadded
    obtain ⟨hmem, hb⟩ := (hkept e).mpr hrooted
    refine (hun.conflicts edge hedge (.inl (declarer_installed hedge)) (hpresent.imp_right ?_) e hmem hb will hadded
      e.depIdentifier hid).2 rfl
    rintro ⟨e', hrooted', hwill⟩
    exact ⟨e', ((hkept e').mpr hrooted').1, ((hkept e').mpr hrooted').2, hwill⟩
  · refine fun halias => ⟨fun edge hedge _ hpresent e hmem hb will hadded id hid => ⟨?_, ?_⟩,
      fun edge hedge h1 h2 e hmem hb will hadded id hid => ?_⟩
    · rintro rfl
      refine (hno e will ((hkept e).mp ⟨hmem, hb⟩) hadded).1 (Blocking.mem_conflictIds.mpr ⟨edge, hedge, (hids _).mp hpresent, ?_⟩)
      simpa using hid
    · rintro rfl
      refine halias ⟨edge, hedge, hpresent.imp_right ?_, e, (hkept e).mp ⟨hmem, hb⟩, Option.isSome_of_eq_some hadded, hid⟩
      rintro ⟨e', hmem', hb', hwill⟩
      exact ⟨e', (hkept e').mp ⟨hmem', hb'⟩, hwill⟩
    · rintro rfl
      refine (hno e will ((hkept e).mp ⟨hmem, hb⟩) hadded).2 (Blocking.mem_conflictProjectIds.mpr ⟨edge, hedge,
        ⟨(hprojects _).mp h1, (hprojects _).mp h2⟩, ?_⟩)
      simpa using hid

end

/-- **What stays meets no opponent and hangs on an installed plugin**, exactly when no entries that hang on nothing
require one another, and no import is an opponent by its identifier. -/
theorem pruned_iff (h : resolveClosure catalog plugins serverType fuel s = some (.ok (plan, w))) :
    (Unopposed plugins plan w ∧
        ∀ e ∈ plan, e.blocked = false → Connected plugins plan w e.depIdentifier) ↔
      (¬ ∃ T, w.Clique plugins T) ∧ ¬ w.Aliased plugins := by
  obtain ⟨hrounds, hplan⟩ := resolveClosure_ok.mp h
  obtain ⟨final, hfix, hmark⟩ := Option.map_eq_some_iff.mp hplan
  have hwalk := walking_rounds hrounds
  have hreq := requiring_rounds hrounds
  have hnodup := (covers_entries hwalk).nodup
  have hnew : ∀ e ∈ w.entries, e.blocked = false := fun e he => (hwalk.entries e he).2
  rw [connected_iff_rooted hreq hnodup hfix hnew hmark.symm, ← kept_rooted_iff hreq hnodup hfix, and_comm]
  exact and_congr_right fun hall => unopposed_iff hreq hnodup hfix hnew hmark.symm hall

/-- A mod that requires two libraries, each of which requires the other one. -/
def entangled : Catalog Unit :=
  (Answers.ofProjects [(⟨str "X", str "x"⟩, [.requiring (str "v1") (str "1") [str "Y"]]),
    (⟨str "Y", str "y"⟩, [.requiring (str "v2") (str "1") [str "Z"]]),
    (⟨str "Z", str "z"⟩, [.requiring (str "v3") (str "1") [str "Y"]])]).catalog

/-- A plugin that requires the mod, and excludes it. -/
def opponent : ServerPlugin :=
  .ofManifest (str "a") (str "1") [⟨true, false, some (str "x"), none, none⟩, ⟨false, true, some (str "x"), none, none⟩]

theorem resolve_entangled : ∃ plan w, resolveClosure entangled [opponent] .fabric 12 () = some (.ok (plan, w)) ∧
    (∃ e ∈ plan, e.blocked = false) ∧ ∀ e ∈ plan, e.blocked = false → e.depIdentifier ≠ str "x" := by
  have h : (match resolveClosure entangled [opponent] .fabric 12 () with
      | some (.ok (plan, _)) => decide ((∃ e ∈ plan, e.blocked = false) ∧
          ∀ e ∈ plan, e.blocked = false → e.depIdentifier ≠ str "x")
      | some (.error _) => false
      | none => false) = true := by decide +kernel
  split at h
  · next plan w hok => exact ⟨plan, w, hok, of_decide_eq_true h⟩
  · cases h
  · cases h

theorem pruned_iff_entangled : ∃ plan w, resolveClosure entangled [opponent] .fabric 12 () = some (.ok (plan, w)) ∧
    ((Unopposed [opponent] plan w ∧
        ∀ e ∈ plan, e.blocked = false → Connected [opponent] plan w e.depIdentifier) ↔
      (¬ ∃ T, w.Clique [opponent] T) ∧ ¬ w.Aliased [opponent]) := by
  obtain ⟨plan, w, hok, -⟩ := resolve_entangled
  exact ⟨plan, w, hok, pruned_iff hok⟩

/-- **The libraries stay** when the mod that pulled them in is blocked: each requires the other one. -/
theorem entangled_not_pruned : ∃ plan w, resolveClosure entangled [opponent] .fabric 12 () = some (.ok (plan, w)) ∧
    ¬ (Unopposed [opponent] plan w ∧
      ∀ e ∈ plan, e.blocked = false → Connected [opponent] plan w e.depIdentifier) := by
  obtain ⟨plan, w, hok, ⟨e, he, hb⟩, hnot⟩ := resolve_entangled
  refine ⟨plan, w, hok, fun h => hnot e he hb ?_⟩
  have hroots : ∀ id ∈ roots [opponent], id = str "x" := by decide +kernel
  -- a chain ends at the mod itself
  have hconn : ∀ id, Connected [opponent] plan w id → id = str "x" := by
    intro id hconn
    induction hconn with
    | root hroot => exact hroots _ hroot
    | step _ hmem hb _ _ ih => exact absurd ih (hnot _ hmem hb)
  exact hconn _ (h.2 e he hb)

end McServerDashboard.Plugins
