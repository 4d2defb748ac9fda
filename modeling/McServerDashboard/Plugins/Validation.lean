import McServerDashboard.Plugins.Plan

/-!
# Conflicts that validation reports

`validate_plugin_set` looks for conflicts among plugins that are there, `resolve_closure` among those that it would add.

* `conflictFindings`: the conflicts of `validate_plugin_set`.
* `breakRanges`: the ranges in which the installed plugins exclude an id.
* **`blocked_iff_reported_iff`**: an import is blocked as validation would report it, exactly when what is excluded in
  any version is excluded in the version planned.
-/

namespace McServerDashboard.Plugins

open Lib Properties

/-! ## The findings -/

structure Conflict where
  modId : Str
  conflictsWith : Str

/-- `by_project_id`: the last plugin of a project. -/
def byProjectId (plugins : List ServerPlugin) : Dict Str Str :=
  plugins.foldl (fun d p =>
    match p.sourceProjectId, p.identifier? with
    | some pid, some id => d.set pid id
    | _, _ => d) ∅

/-- A `conflict` dependency whose target is there, in a version that it excludes. -/
def conflictFinding (plugins : List ServerPlugin) (dialect id : Str) (d : ManifestDep) : Option Conflict :=
  match d.modIdentifier with
  | none => none
  | some target =>
    if ((providedVersions plugins).get? target).any (fun v => versionSatisfies v (d.versionRange.getD []) dialect) then
      some ⟨id, target⟩
    else none

/-- `_conflicts`. -/
def conflictFindings (plugins : List ServerPlugin) (dialect : Str) : List Conflict :=
  plugins.flatMap fun p =>
    match p.identifier? with
    | none => []
    | some id =>
      (p.dependencies.filter (·.conflict)).filterMap (conflictFinding plugins dialect id) ++
        (p.catalogDeps (·.incompatible)).filterMap fun pid => ((byProjectId plugins).get? pid).map (⟨id, ·⟩)

/-- The plugin that an import adds, without dependencies of its own. -/
def WillImport.plugin (will : WillImport) : ServerPlugin :=
  ⟨.modrinth, some will.projectId, some will.versionNumber, some will.slug, [], [], []⟩

/-- Validation reports a conflict of the import. -/
def Reported (plugins : List ServerPlugin) (dialect : Str) (will : WillImport) : Prop :=
  ∃ c ∈ conflictFindings (plugins ++ [will.plugin]) dialect, c.modId = will.slug ∨ c.conflictsWith = will.slug

/-- The ranges in which installed plugins exclude `id`. -/
def breakRanges (plugins : List ServerPlugin) (id : Str) : List Str :=
  plugins.flatMap fun p =>
    match p.identifier? with
    | none => []
    | some _ => (p.dependencies.filter fun d => d.conflict ∧ d.modIdentifier = some id).map fun d => d.versionRange.getD []

variable {plugins : List ServerPlugin} {dialect id pid target v : Str} {will : WillImport} {r : Str} {p : ServerPlugin}

theorem mem_installedIds : id ∈ installedIds plugins ↔
    ∃ p ∈ plugins, ∃ own, p.identifier? = some own ∧ id ∈ own :: p.provides := by
  rw [installedIds, List.mem_flatMap]
  refine exists_congr fun p => and_congr_right fun _ => ?_
  cases p.identifier? with
  | none => simp
  | some own => simp

theorem mem_breakRanges : r ∈ breakRanges plugins id ↔ ∃ p ∈ plugins, p.identifier?.isSome ∧
    ∃ d ∈ p.dependencies, d.conflict = true ∧ d.modIdentifier = some id ∧ d.versionRange.getD [] = r := by
  rw [breakRanges, List.mem_flatMap]
  refine exists_congr fun p => and_congr_right fun _ => ?_
  cases p.identifier? with
  | none => simp
  | some own => simp [and_assoc]

theorem mem_conflictEdges {edge : Str × Str} : edge ∈ conflictEdges plugins ↔
    ∃ p ∈ plugins, p.identifier? = some edge.1 ∧ ∃ d ∈ p.dependencies, d.conflict = true ∧ d.modIdentifier = some edge.2 := by
  obtain ⟨own, target⟩ := edge
  rw [conflictEdges, List.mem_flatMap]
  refine exists_congr fun p => and_congr_right fun _ => ?_
  cases p.identifier? with
  | none => simp
  | some own' =>
    simp only [List.mem_filterMap, List.mem_filter, Option.map_eq_some_iff, Prod.mk.injEq, Option.some.injEq, and_assoc]
    constructor
    · rintro ⟨d, hd, hconf, target, htarget, rfl, rfl⟩
      exact ⟨rfl, d, hd, hconf, htarget⟩
    · rintro ⟨rfl, d, hd, hconf, htarget⟩
      exact ⟨d, hd, hconf, target, htarget, rfl, rfl⟩

/-- An id is excluded in some range, where it is the target of an edge. -/
theorem breakRanges_ne_nil : breakRanges plugins id ≠ [] ↔ ∃ edge ∈ conflictEdges plugins, edge.2 = id := by
  constructor
  · intro hne
    obtain ⟨r, hr⟩ := List.exists_mem_of_ne_nil _ hne
    obtain ⟨p, hp, hown, d, hd, hconf, htarget, -⟩ := mem_breakRanges.mp hr
    obtain ⟨own, hown⟩ := Option.isSome_iff_exists.mp hown
    exact ⟨(own, id), mem_conflictEdges.mpr ⟨p, hp, hown, d, hd, hconf, htarget⟩, rfl⟩
  · rintro ⟨edge, hedge, rfl⟩
    obtain ⟨p, hp, hown, d, hd, hconf, htarget⟩ := mem_conflictEdges.mp hedge
    exact List.ne_nil_of_mem (mem_breakRanges.mpr ⟨p, hp, Option.isSome_of_eq_some hown, d, hd, hconf, htarget, rfl⟩)

/-! ## The maps -/

theorem providedVersions_concat : providedVersions (plugins ++ [p]) =
    match p.identifier? with
    | none => providedVersions plugins
    | some id => (id :: p.provides).foldl (fun d key => d.set key (p.versionNumber.getD [])) (providedVersions plugins) :=
  List.foldl_append

theorem byProjectId_concat : byProjectId (plugins ++ [p]) =
    match p.sourceProjectId, p.identifier? with
    | some pid, some id => (byProjectId plugins).set pid id
    | _, _ => byProjectId plugins := List.foldl_append

theorem mem_installedIds_concat : id ∈ installedIds (plugins ++ [p]) ↔
    id ∈ installedIds plugins ∨ ∃ own, p.identifier? = some own ∧ id ∈ own :: p.provides := by
  simp only [mem_installedIds, List.mem_append, List.mem_singleton, or_and_right, exists_or, exists_eq_left]

theorem get?_foldl_set {keys : List Str} {version : Str} {d : Dict Str Str} :
    (keys.foldl (fun d key => d.set key version) d).get? id = if id ∈ keys then some version else d.get? id := by
  induction keys generalizing d with
  | nil => rfl
  | cons key keys ih =>
    rw [List.foldl_cons, ih, Dict.get?_set]
    by_cases hid : id = key <;> by_cases hmem : id ∈ keys <;> simp [hid, hmem]

/-- `provided` is set for what the plugins provide, and for nothing else. -/
theorem providedVersions_isSome : ((providedVersions plugins).get? id).isSome ↔ id ∈ installedIds plugins := by
  induction plugins using List.reverseRecOn with
  | nil => exact iff_of_false Bool.false_ne_true List.not_mem_nil
  | append_singleton plugins p ih =>
    rw [providedVersions_concat, mem_installedIds_concat, ← ih]
    cases hown : p.identifier? with
    | none => simp
    | some own =>
      simp only
      rw [get?_foldl_set]
      split_ifs with hid
      · exact iff_of_true rfl (.inr ⟨own, rfl, hid⟩)
      · refine (or_iff_left ?_).symm
        rintro ⟨_, h, hmem⟩
        cases h
        exact hid hmem

/-- An id that no other plugin has is looked up by the project of that plugin only. -/
theorem byProjectId_unprovided (h : (byProjectId plugins).get? pid = some id) : id ∈ installedIds plugins := by
  induction plugins using List.reverseRecOn with
  | nil => cases h
  | append_singleton plugins p ih =>
    rw [byProjectId_concat] at h
    rw [mem_installedIds_concat]
    split at h
    · next own hproject hown =>
      rw [Dict.get?_set] at h
      split_ifs at h
      · cases h
        exact .inr ⟨_, hown, List.mem_cons_self⟩
      · exact .inl (ih h)
    · exact .inl (ih h)

/-! ## The import among the plugins -/

theorem WillImport.identifier?_plugin (hid : will.slug ≠ []) : will.plugin.identifier? = some will.slug := by
  rw [ServerPlugin.identifier?, WillImport.plugin]
  exact Option.filter_eq_some_iff.mpr ⟨rfl, decide_eq_true hid⟩

theorem WillImport.identifier?_plugin_of_nil (hid : will.slug = []) : will.plugin.identifier? = none := by
  rw [ServerPlugin.identifier?, WillImport.plugin, hid]
  rfl

/-- **Validation reports an import** that no other plugin stands for, where its version is excluded. -/
theorem reported_iff (hnot : will.slug ∉ installedIds plugins)
    (htarget : ∀ p ∈ plugins, will.projectId ∉ p.catalogDeps (·.incompatible)) :
    Reported plugins dialect will ↔
      will.slug ≠ [] ∧ ∃ r ∈ breakRanges plugins will.slug, versionSatisfies will.versionNumber r dialect = true := by
  have hown : ∀ p ∈ plugins, p.identifier? ≠ some will.slug := fun p hp h =>
    hnot (mem_installedIds.mpr ⟨p, hp, will.slug, h, List.mem_cons_self⟩)
  constructor
  · rintro ⟨c, hc, hnamed⟩
    obtain ⟨p, hp, hc⟩ := List.mem_flatMap.mp hc
    split at hc
    · cases hc
    next id hid =>
    -- the import itself declares nothing
    have hmem : p ∈ plugins := by
      rcases List.mem_append.mp hp with hp | hp
      · exact hp
      · rw [List.mem_singleton.mp hp] at hc
        cases hc
    have hne : c.modId ≠ will.slug → c.conflictsWith = will.slug := fun h => hnamed.resolve_left h
    rcases List.mem_append.mp hc with hc | hc
    · obtain ⟨d, hd, hfind⟩ := List.mem_filterMap.mp hc
      obtain ⟨hd, hconf⟩ := List.mem_filter.mp hd
      unfold conflictFinding at hfind
      split at hfind
      · cases hfind
      next target htarget =>
      split_ifs at hfind with hany
      cases hfind
      obtain rfl : target = will.slug := hne fun h => hown p hmem (hid.trans (congrArg some h))
      have hslug : will.slug ≠ [] := by
        intro hnil
        rw [providedVersions_concat, WillImport.identifier?_plugin_of_nil hnil] at hany
        obtain ⟨v, hv, -⟩ := (Option.any_eq_true _ _).mp hany
        exact hnot (providedVersions_isSome.mp (Option.isSome_of_eq_some hv))
      refine ⟨hslug, _, mem_breakRanges.mpr ⟨p, hmem, Option.isSome_of_eq_some hid, d, hd, hconf, htarget, rfl⟩, ?_⟩
      rw [providedVersions_concat, WillImport.identifier?_plugin hslug] at hany
      simp only at hany
      rw [get?_foldl_set, if_pos List.mem_cons_self] at hany
      exact hany
    · obtain ⟨pid, hpid, hfind⟩ := List.mem_filterMap.mp hc
      obtain ⟨target, hget, rfl⟩ := Option.map_eq_some_iff.mp hfind
      obtain rfl : target = will.slug := hne fun h => hown p hmem (hid.trans (congrArg some h))
      rw [byProjectId_concat] at hget
      split at hget
      · next hproject _ =>
        rw [Dict.get?_set] at hget
        split_ifs at hget with hpid'
        · rw [hpid', ← Option.some.inj hproject] at hpid
          exact absurd hpid (htarget p hmem)
        · exact absurd (byProjectId_unprovided hget) hnot
      · exact absurd (byProjectId_unprovided hget) hnot
  · rintro ⟨hslug, r, hr, hsat⟩
    obtain ⟨p, hp, hown, d, hd, hconf, htarget, rfl⟩ := mem_breakRanges.mp hr
    obtain ⟨own, hown⟩ := Option.isSome_iff_exists.mp hown
    refine ⟨⟨own, will.slug⟩, List.mem_flatMap.mpr ⟨p, List.mem_append_left _ hp, ?_⟩, .inr rfl⟩
    rw [hown]
    refine List.mem_append_left _ (List.mem_filterMap.mpr ⟨d, List.mem_filter.mpr ⟨hd, hconf⟩, ?_⟩)
    rw [conflictFinding, htarget]
    simp only
    rw [providedVersions_concat, WillImport.identifier?_plugin hslug]
    simp only
    rw [get?_foldl_set, if_pos List.mem_cons_self]
    exact if_pos hsat

/-! ## The import in the plan -/

variable {σ : Type*} {catalog : Catalog σ} {serverType : ServerType} {fuel : ℕ} {s : σ} {w : Walk σ}
  {plan : List ResolutionEntry} {e : ResolutionEntry}

/-- An import of the plan that is not pruned as an orphan, is on no incompatible edge, and is known by the identifier of
the mod, which no installed plugin provides. -/
structure Comparable (plugins : List ServerPlugin) (plan : List ResolutionEntry) (w : Walk σ) (e : ResolutionEntry)
    (will : WillImport) : Prop where
  mem : e ∈ plan
  added : e.added = some will
  named : e.depIdentifier = will.slug
  unprovided : will.slug ∉ installedIds plugins
  compatible : ∀ edge ∈ (w.blocking plugins).incompatibleEdges, edge.1 ≠ will.projectId ∧ edge.2 ≠ will.projectId
  untargeted : ∀ p ∈ plugins, will.projectId ∉ p.catalogDeps (·.incompatible)
  unorphaned : ¬ (e.blocked = true ∧ (w.blocking plugins).conflicts [] e = false)

/-- Such an import is on a conflict, where an installed plugin excludes it in some version. -/
theorem Comparable.conflicts_iff (h : Comparable plugins plan w e will) (hmem : ∃ e' ∈ w.entries, e'.added = e.added ∧
      e'.depIdentifier = e.depIdentifier) :
    (w.blocking plugins).conflicts [] e = true ↔ breakRanges plugins will.slug ≠ [] := by
  rw [Blocking.conflicts_iff, breakRanges_ne_nil]
  constructor
  · rintro ⟨will', hadded, hconf⟩
    obtain rfl : will' = will := Option.some.inj (hadded.symm.trans h.added)
    rcases hconf with hconf | hconf
    · obtain ⟨edge, hedge, -, hid⟩ := Blocking.mem_conflictIds.mp hconf
      refine ⟨edge, hedge, (hid.resolve_left fun hid => h.unprovided ?_).symm⟩
      rw [hid]
      exact declarer_installed hedge
    · obtain ⟨edge, hedge, -, hid⟩ := Blocking.mem_conflictProjectIds.mp hconf
      exact absurd hid (not_or.mpr ⟨(h.compatible edge hedge).1.symm, (h.compatible edge hedge).2.symm⟩)
  · rintro ⟨edge, hedge, htarget⟩
    obtain ⟨e', he', hadded, -⟩ := hmem
    refine ⟨will, h.added, .inl (Blocking.mem_conflictIds.mpr ⟨edge, hedge, Blocking.mem_presentIds.mpr (.inr ?_), .inr htarget.symm⟩)⟩
    obtain ⟨i, hi⟩ := List.mem_iff_getElem?.mp he'
    exact ⟨e', Blocking.mem_unblocked.mpr ⟨i, hi, List.not_mem_nil⟩, will, hadded.trans h.added, .inl htarget⟩

/-- It is blocked where it is on a conflict. -/
theorem Comparable.blocked_iff (h : Comparable plugins plan w e will)
    (hok : resolveClosure catalog plugins serverType fuel s = some (.ok (plan, w))) :
    e.blocked = true ↔ breakRanges plugins will.slug ≠ [] := by
  obtain ⟨hrounds, hplan⟩ := resolveClosure_ok.mp hok
  obtain ⟨final, hfix, rfl⟩ := Option.map_eq_some_iff.mp hplan
  -- the entry as the walk left it
  obtain ⟨⟨e0, i⟩, hmem, heq⟩ := List.mem_map.mp h.mem
  have hget := List.mem_zipIdx_iff_getElem?.mp hmem
  have hold : e0.added = e.added ∧ e0.depIdentifier = e.depIdentifier := by
    rw [← heq]
    split_ifs <;> exact ⟨rfl, rfl⟩
  rw [← h.conflicts_iff ⟨e0, List.mem_of_getElem? hget, hold⟩]
  constructor
  · intro hb
    exact Bool.eq_true_of_not_eq_false fun hconf => h.unorphaned ⟨hb, hconf⟩
  · intro hconf
    have hconf0 : (w.blocking plugins).conflicts [] e0 = true := by
      rw [Blocking.conflicts, hold.1]
      exact hconf
    have hi := Blocking.newBlocked_subset hfix (Blocking.mem_newBlocked.mpr ⟨e0, hget, List.not_mem_nil, .inl hconf0⟩)
    rw [← heq]
    simp only [if_pos hi]

/-- **Planner and validator agree on an import**, exactly when what is excluded in any version is excluded in the version
planned. -/
theorem blocked_iff_reported_iff (hok : resolveClosure catalog plugins serverType fuel s = some (.ok (plan, w)))
    (h : Comparable plugins plan w e will) :
    (e.blocked = true ↔ Reported plugins serverType.dialect will) ↔
      (breakRanges plugins will.slug ≠ [] → will.slug ≠ [] ∧
        ∃ r ∈ breakRanges plugins will.slug, versionSatisfies will.versionNumber r serverType.dialect = true) := by
  rw [h.blocked_iff hok, reported_iff h.unprovided h.untargeted]
  refine ⟨fun hiff => hiff.mp, fun himp => ⟨himp, ?_⟩⟩
  rintro ⟨-, r, hr, -⟩
  exact List.ne_nil_of_mem hr

/-- A library of which there is one version. -/
def library : Answers := .ofProjects [(⟨str "X", str "x"⟩, [.requiring (str "v1") (str "6.3") []])]

def libraryImport : WillImport := ⟨str "X", str "v1", str "x", str "6.3"⟩

/-- A plugin that excludes the older versions of the library, and one that requires it. -/
def outdated : List ServerPlugin :=
  [.ofManifest (str "a") (str "1") [⟨false, true, some (str "x"), some (str "<6.2"), none⟩],
    .ofManifest (str "b") (str "1") [⟨true, false, some (str "x"), none, none⟩]]

theorem resolve_library : ∃ plan w e, resolveClosure library.catalog outdated .fabric 12 () = some (.ok (plan, w)) ∧
    e.blocked = true ∧ Comparable outdated plan w e libraryImport := by
  have h : (match resolveClosure library.catalog outdated .fabric 12 () with
      | some (.ok (plan, w)) => decide ((∃ e ∈ plan, e.blocked = true ∧ e.added = some libraryImport ∧
            e.depIdentifier = str "x" ∧ (w.blocking outdated).conflicts [] e = true) ∧
          (w.blocking outdated).incompatibleEdges = [])
      | some (.error _) => false
      | none => false) = true := by decide +kernel
  split at h
  · next plan w hok =>
    obtain ⟨⟨e, he, hb, hadded, hid, hconf⟩, hedges⟩ := of_decide_eq_true h
    refine ⟨plan, w, e, hok, hb, he, hadded, hid, by decide +kernel, fun edge hedge => ?_, by decide +kernel, fun h => ?_⟩
    · rw [hedges] at hedge
      cases hedge
    · rw [hconf] at h
      cases h.2
  · cases h
  · cases h

theorem blocked_iff_reported_iff_library : ∃ plan w e,
    resolveClosure library.catalog outdated .fabric 12 () = some (.ok (plan, w)) ∧ Comparable outdated plan w e libraryImport ∧
      ((e.blocked = true ↔ Reported outdated ServerType.fabric.dialect libraryImport) ↔
        (breakRanges outdated libraryImport.slug ≠ [] → libraryImport.slug ≠ [] ∧
          ∃ r ∈ breakRanges outdated libraryImport.slug,
            versionSatisfies libraryImport.versionNumber r ServerType.fabric.dialect = true)) := by
  obtain ⟨plan, w, e, hok, -, hcomp⟩ := resolve_library
  exact ⟨plan, w, e, hok, hcomp, blocked_iff_reported_iff hok hcomp⟩

/-- **The library is blocked**, in a version that validation lets pass. -/
theorem blocked_not_reported : ∃ plan w e,
    resolveClosure library.catalog outdated .fabric 12 () = some (.ok (plan, w)) ∧ Comparable outdated plan w e libraryImport ∧
      ¬ (e.blocked = true ↔ Reported outdated (str "fabric") libraryImport) := by
  obtain ⟨plan, w, e, hok, hb, hcomp⟩ := resolve_library
  refine ⟨plan, w, e, hok, hcomp, fun hiff => ?_⟩
  have hnot : ¬ Reported outdated (str "fabric") libraryImport := by
    unfold Reported
    decide +kernel
  exact hnot (hiff.mp hb)

end McServerDashboard.Plugins
