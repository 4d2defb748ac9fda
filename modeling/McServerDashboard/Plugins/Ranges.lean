import McServerDashboard.Plugins.Validation

/-!
# Ranges of one identifier

The walk settles an identifier once, by the range of whoever asks for it first.

* `Answers.pick`: what is imported for a dependency; `first`: who asks for an identifier first.
* `Met`: a requirement is met by an installed plugin, or by an import.
* `Picking`: what the entries have to do with the first dependencies; `Picking.visit`.
* **`met_iff`**: a plan that reports nothing meets every requirement, exactly when the first of an identifier serves all.
-/

namespace McServerDashboard.Plugins

open Lib Lib.BreadthFirst Properties

/-! ## What is imported -/

namespace Answers

variable (a : Answers)

def locate (dep : FrontierDep) : Option CatalogProject :=
  match dep.projectId with
  | some pid => a.getProject pid
  | none => do
    let hits ← a.search dep.identifier
    let hit ← hits.find? (·.slug = dep.identifier)
    a.getProject hit.projectId

/-- What is imported for a dependency. -/
def pick (dialect : Str) (dep : FrontierDep) : Option WillImport := do
  let project ← a.locate dep
  let versions ← a.listVersions project.projectId
  let v ← (selectImportVersion dep.versionRange dialect versions).join
  return ⟨project.projectId, v.versionId, project.slug, v.versionNumber⟩

/-- The projects that the version of an import requires. -/
def requirements (will : WillImport) : List Str :=
  match (a.listVersions will.projectId).bind fun versions => versions.find? (·.versionId = will.versionId) with
  | none => []
  | some v => (v.dependencies.filter (·.dependencyType = str "required")).map (·.projectId)

end Answers

/-- What the manifests of the installed plugins require. -/
def manifestDeps (plugins : List ServerPlugin) : List FrontierDep := plugins.flatMap (frontierFromPlugin 0 none)

/-- Who asks for an identifier first, of all that the installed plugins require. -/
def first (plugins : List ServerPlugin) (id : Str) : Option FrontierDep :=
  (initialFrontier plugins).find? (·.identifier = id)

/-! ## What meets a requirement -/

/-- An installed plugin stands for the id, in a version of the range. -/
def InstalledWithin (plugins : List ServerPlugin) (dialect id range : Str) : Prop :=
  ∃ p ∈ plugins, ((∃ own, p.identifier? = some own ∧ id ∈ own :: p.provides) ∨ p.sourceProjectId = some id) ∧
    versionSatisfies (p.versionNumber.getD []) range dialect = true

/-- An import of the plan stands for the id, in a version of the range. -/
def PlannedWithin (plan : List ResolutionEntry) (dialect id range : Str) : Prop :=
  ∃ e ∈ plan, e.depIdentifier = id ∧ ∃ will, e.added = some will ∧
    versionSatisfies will.versionNumber range dialect = true

def Met (plugins : List ServerPlugin) (plan : List ResolutionEntry) (dialect id range : Str) : Prop :=
  InstalledWithin plugins dialect id range ∨ PlannedWithin plan dialect id range

/-- Everything that is required is there. -/
structure AllMet (a : Answers) (plugins : List ServerPlugin) (plan : List ResolutionEntry) (dialect : Str) : Prop where
  manifest : ∀ d ∈ manifestDeps plugins, Met plugins plan dialect d.identifier d.versionRange
  /-- A project that a manifest names with an identifier is there by that identifier. -/
  catalog : ∀ p ∈ plugins, ∀ pid ∈ p.catalogDeps (·.required), Met plugins plan dialect pid [] ∨
    ∃ d ∈ manifestDeps plugins, d.projectId = some pid ∧ Met plugins plan dialect d.identifier d.versionRange
  imports : ∀ e ∈ plan, ∀ will, e.added = some will → ∀ id ∈ a.requirements will, Met plugins plan dialect id []

/-- The plan has nothing to report. -/
def Clean (plan : List ResolutionEntry) : Prop :=
  ∀ e ∈ plan, e.status ≠ .unresolvable ∧ e.status ≠ .depthExceeded ∧ e.blocked = false

instance : DecidablePred Clean := fun plan =>
  inferInstanceAs (Decidable (∀ e ∈ plan, e.status ≠ .unresolvable ∧ e.status ≠ .depthExceeded ∧ e.blocked = false))

variable {a : Answers} {plugins : List ServerPlugin} {dialect id : Str} {w w' : Walk Unit} {dep f : FrontierDep}
  {next next' rest : List FrontierDep}

/-! ## A turn of the walk -/

theorem locateProject_answers {project : Option CatalogProject} (h : locateProject a.catalog dep w = (w', project)) :
    project = a.locate dep := by
  unfold locateProject at h
  unfold Answers.locate
  cases hpid : dep.projectId with
  | some pid =>
    rw [hpid] at h
    exact (congrArg Prod.snd h).symm
  | none =>
    simp only [hpid] at h
    split at h
    · next hsearch =>
      cases h
      rw [show a.search dep.identifier = none from congrArg Prod.snd hsearch]
      rfl
    · next hits hsearch =>
      rw [show a.search dep.identifier = some hits from congrArg Prod.snd hsearch]
      split at h
      · next hnone =>
        cases h
        simp [hnone]
      · next hit hsome =>
        rw [← show a.getProject hit.projectId = project from congrArg Prod.snd h]
        simp [hsome]

theorem resolveWillImport_answers {found : Option WillImport}
    (h : resolveWillImport a.catalog dialect dep w = .ok (w', found)) : found = a.pick dialect dep := by
  unfold resolveWillImport at h
  unfold Answers.pick
  split at h
  · next hlocate =>
    cases h
    rw [← locateProject_answers hlocate]
    rfl
  · next project hlocate =>
    rw [← locateProject_answers hlocate]
    split at h
    · next hlist =>
      cases h
      rw [Option.bind_eq_bind, Option.bind_some,
        show a.listVersions project.projectId = none from congrArg Prod.snd hlist]
      rfl
    · next versions hlist =>
      rw [Option.bind_eq_bind, Option.bind_some,
        show a.listVersions project.projectId = some versions from congrArg Prod.snd hlist]
      simp only at h
      split at h
      · cases h
      · next hselect =>
        cases h
        simp [hselect]
      · next v hselect =>
        cases h
        simp [hselect]

theorem frontierFromWillImport_answers {will : WillImport} {depth : ℕ} {child : List FrontierDep}
    {edges : List (Str × Str)} (h : frontierFromWillImport a.catalog id will depth w = (w', child, edges)) :
    child.map (·.identifier) = a.requirements will := by
  unfold frontierFromWillImport at h
  unfold Answers.requirements
  split at h
  · next hlist =>
    cases h
    rw [show a.listVersions will.projectId = none from congrArg Prod.snd hlist]
    rfl
  · next versions hlist =>
    rw [show a.listVersions will.projectId = some versions from congrArg Prod.snd hlist, Option.bind_some]
    cases hfind : versions.find? (·.versionId = will.versionId) with
    | none =>
      simp only [hfind] at h
      cases h
      rfl
    | some v =>
      simp only [hfind] at h
      cases h
      simp [Function.comp_def]

/-- What the new entry has to do with its dependency. -/
structure Picked (a : Answers) (dialect : Str) (plugins : List ServerPlugin) (dep : FrontierDep) (w' : Walk Unit)
    (e : ResolutionEntry) : Prop where
  identifier : e.depIdentifier = dep.identifier
  added : dep.depth < maxResolutionDepth →
    e.added = if satisfied dialect plugins dep then none else a.pick dialect dep
  satisfied : e.status = .alreadySatisfied → satisfied dialect plugins dep = true
  imported : e.status = .needsImport → e.added.isSome
  requires : ∀ will, e.added = some will → ∀ id ∈ a.requirements will, (dep.identifier, id) ∈ w'.imports

/-- An entry without an import. -/
theorem picked_of_status {status : ResolutionStatus} (hstatus : status ≠ .needsImport)
    (hadded : dep.depth < maxResolutionDepth → satisfied dialect plugins dep = true ∨ a.pick dialect dep = none)
    (hsat : status = .alreadySatisfied → satisfied dialect plugins dep = true) :
    Picked a dialect plugins dep w' ⟨dep.identifier, dep.versionRange, status, none, dep.depth, dep.requiredBy, false⟩ := by
  have hnone : ResolutionEntry.added
      ⟨dep.identifier, dep.versionRange, status, none, dep.depth, dep.requiredBy, false⟩ = none := if_neg hstatus
  refine ⟨rfl, fun hlt => ?_, hsat, fun h => absurd h hstatus, fun will h => ?_⟩
  · rw [hnone]
    split_ifs with h
    · rfl
    · exact ((hadded hlt).resolve_left h).symm
  · rw [hnone] at h
    cases h

/-- **A new entry**: it is an import if one is picked, and all that it requires is known. -/
theorem visit_answers (hnew : dep.identifier ∉ w.visited)
    (hok : visit a.catalog dialect plugins (w, next) dep = .ok (w', next')) :
    ∃ e, w'.entries = w.entries ++ [e] ∧ Picked a dialect plugins dep w' e := by
  rw [visit_eq, if_neg hnew] at hok
  split_ifs at hok with hsat hdepth
  · cases hok
    exact ⟨_, rfl, picked_of_status nofun (fun _ => .inl hsat) fun _ => hsat⟩
  · cases hok
    exact ⟨_, rfl, picked_of_status nofun (fun h => absurd hdepth (Nat.not_le_of_lt h)) nofun⟩
  · split at hok
    · cases hok
    · next w1 hresolve =>
      cases hok
      obtain ⟨rs, sels, hasks, -⟩ := resolveWillImport_asks hresolve
      exact ⟨_, congrArg (· ++ _) hasks.entries, picked_of_status nofun
        (fun _ => .inr (resolveWillImport_answers hresolve).symm) nofun⟩
    · next w1 will hresolve =>
      obtain ⟨rs, sels, hasks, -⟩ := resolveWillImport_asks hresolve
      have hexp : expand a.catalog dep will w1 next = (w', next') := Except.ok.inj hok
      unfold expand at hexp
      split at hexp
      next w2 child edges hfrontier =>
      obtain ⟨rfl, rfl⟩ := Prod.mk.inj hexp
      obtain ⟨hasks2, -⟩ := frontierFromWillImport_asks hfrontier
      refine ⟨⟨dep.identifier, dep.versionRange, .needsImport, some will, dep.depth, dep.requiredBy, false⟩,
        hasks2.entries.trans (congrArg (· ++ _) hasks.entries), rfl, fun _ => ?_, fun h => (by cases h), fun _ => rfl,
        fun will' hadded id hid => ?_⟩
      · rw [if_neg hsat, ← resolveWillImport_answers hresolve]
        rfl
      · obtain rfl : will' = will := (Option.some.inj hadded).symm
        rw [← frontierFromWillImport_answers hfrontier] at hid
        obtain ⟨d, hd, rfl⟩ := List.mem_map.mp hid
        exact List.mem_append_right _ (List.mem_map_of_mem hd)

/-! ## What the walk keeps -/

/-- The entries of a walk through a catalog that does not change. -/
structure Picking (a : Answers) (dialect : Str) (plugins : List ServerPlugin) (w : Walk Unit)
    (queue : List FrontierDep) : Prop where
  visited : ∀ e ∈ w.entries, e.depIdentifier ∈ w.visited
  satisfied : ∀ e ∈ w.entries, e.status = .alreadySatisfied →
    e.depIdentifier ∈ installedIds plugins ∨ e.depIdentifier ∈ installedProjectIds plugins
  imported : ∀ e ∈ w.entries, e.status = .needsImport → e.added.isSome
  requires : ∀ e ∈ w.entries, ∀ will, e.added = some will → ∀ id ∈ a.requirements will, (e.depIdentifier, id) ∈ w.imports
  /-- Who asks first for an identifier is the first in the queue, and then has the entry. -/
  first : ∀ id f, first plugins id = some f →
    (∃ e ∈ w.entries, e.depIdentifier = id ∧
        e.added = if Plugins.satisfied dialect plugins f then none else a.pick dialect f) ∨
      id ∉ w.visited ∧ queue.find? (·.identifier = id) = some f

theorem picking_start : Picking a dialect plugins (.start ()) (initialFrontier plugins) where
  visited e he := by cases he
  satisfied e he := by cases he
  imported e he := by cases he
  requires e he := by cases he
  first id f hf := .inr ⟨List.not_mem_nil, hf⟩

theorem of_satisfied (h : satisfied dialect plugins dep = true) :
    dep.identifier ∈ installedIds plugins ∨ dep.identifier ∈ installedProjectIds plugins := by
  rw [satisfied, Bool.or_eq_true] at h
  rcases h with h | h
  · obtain ⟨v, hv, -⟩ := (Option.any_eq_true _ _).mp h
    exact .inl (providedVersions_isSome.mp (Option.isSome_of_eq_some hv))
  · exact .inr (of_decide_eq_true h)

theorem Picking.visit (h : Picking a dialect plugins w (dep :: rest ++ next))
    (hok : visit a.catalog dialect plugins (w, next) dep = .ok (w', next')) :
    Picking a dialect plugins w' (rest ++ next') := by
  rcases visit_cases hok with ⟨hvisited, rfl, rfl⟩ | ⟨hvisited, status, found, child, edges, hsettles, rfl⟩
  · refine ⟨h.visited, h.satisfied, h.imported, h.requires, fun id f hf => (h.first id f hf).imp_right ?_⟩
    rintro ⟨hnot, hfind⟩
    have hne : dep.identifier ≠ id := fun heq => hnot (heq ▸ hvisited)
    rw [List.cons_append, List.find?_cons_of_neg (by simpa using hne)] at hfind
    exact ⟨hnot, hfind⟩
  · obtain ⟨e, hentries, hpicked⟩ := visit_answers hvisited hok
    -- the entries are the old ones, and the one of the dependency
    have hmem : ∀ e', e' ∈ w'.entries ↔ e' ∈ w.entries ∨ e' = e := by
      intro e'
      rw [hentries, List.mem_append, List.mem_singleton]
    refine ⟨fun e' he' => ?_, fun e' he' hs => ?_, fun e' he' hs => ?_, fun e' he' will hadded id hid => ?_,
      fun id f hf => ?_⟩
    · rw [hsettles.visited, List.mem_cons]
      rcases (hmem e').mp he' with he' | rfl
      · exact .inr (h.visited e' he')
      · exact .inl hpicked.identifier
    · rcases (hmem e').mp he' with he' | rfl
      · exact h.satisfied e' he' hs
      · rw [hpicked.identifier]
        exact of_satisfied (hpicked.satisfied hs)
    · rcases (hmem e').mp he' with he' | rfl
      · exact h.imported e' he' hs
      · exact hpicked.imported hs
    · rcases (hmem e').mp he' with he' | rfl
      · rw [hsettles.imports]
        exact List.mem_append_left _ (h.requires e' he' will hadded id hid)
      · rw [hpicked.identifier]
        exact hpicked.requires will hadded id hid
    · rcases h.first id f hf with ⟨e', he', hid, hadded⟩ | ⟨hnot, hfind⟩
      · exact .inl ⟨e', (hmem e').mpr (.inl he'), hid, hadded⟩
      by_cases hid : dep.identifier = id
      · rw [List.cons_append, List.find?_cons_of_pos (by simpa using hid)] at hfind
        cases hfind
        have hzero := depth_initialFrontier _ (List.mem_of_find?_eq_some hf)
        exact .inl ⟨e, (hmem e).mpr (.inr rfl), hpicked.identifier.trans hid, hpicked.added (by rw [hzero]; decide)⟩
      · rw [List.cons_append, List.find?_cons_of_neg (by simpa using hid)] at hfind
        refine .inr ⟨?_, ?_⟩
        · rw [hsettles.visited, List.mem_cons, not_or]
          exact ⟨Ne.symm hid, hnot⟩
        · rw [← List.append_assoc, List.find?_append, hfind]
          rfl

theorem picking_rounds {fuel : ℕ}
    (h : rounds a.catalog dialect plugins fuel (initialFrontier plugins) (.start ()) = some (.ok w)) :
    Picking a dialect plugins w [] :=
  rounds_rule (I := Picking a dialect plugins) (fun hI hok => hI.visit hok) picking_start h

/-! ## The plan -/

variable {plan : List ResolutionEntry} {serverType : ServerType} {fuel : ℕ}

/-- Where nothing is blocked, the plan is what the walk has settled. -/
theorem eq_entries_of_clean (hok : resolveClosure a.catalog plugins serverType fuel () = some (.ok (plan, w)))
    (hclean : Clean plan) : plan = w.entries := by
  obtain ⟨final, -, rfl⟩ := Option.map_eq_some_iff.mp (resolveClosure_ok.mp hok).2
  rw [Blocking.markBlocked]
  conv_rhs => rw [← List.zipIdx_map_fst 0 w.entries]
  refine List.map_congr_left fun x hx => if_neg fun hmem => ?_
  have hb := (hclean _ (List.mem_map_of_mem hx)).2.2
  rw [if_pos hmem] at hb
  cases hb

theorem installedWithin_any (h : id ∈ installedIds plugins ∨ id ∈ installedProjectIds plugins) :
    InstalledWithin plugins dialect id [] := by
  have hany : ∀ v, versionSatisfies v [] dialect = true := fun _ => rfl
  rcases h with h | h
  · obtain ⟨p, hp, own, hown, hid⟩ := mem_installedIds.mp h
    exact ⟨p, hp, .inl ⟨own, hown, hid⟩, hany _⟩
  · obtain ⟨p, hp, hid⟩ := List.mem_filterMap.mp h
    exact ⟨p, hp, .inr hid, hany _⟩

/-- An identifier of a clean plan is there in some version. -/
theorem Picking.met_any (h : Picking a dialect plugins w []) (hclean : Clean w.entries)
    (hid : id ∈ w.entries.map (·.depIdentifier)) : Met plugins w.entries dialect id [] := by
  obtain ⟨e, he, rfl⟩ := List.mem_map.mp hid
  obtain ⟨hresolvable, hdepth, -⟩ := hclean e he
  cases hs : e.status with
  | alreadySatisfied => exact .inl (installedWithin_any (h.satisfied e he hs))
  | needsImport =>
    obtain ⟨will, hadded⟩ := Option.isSome_iff_exists.mp (h.imported e he hs)
    exact .inr ⟨e, he, rfl, will, hadded, rfl⟩
  | unresolvable => exact absurd hs hresolvable
  | depthExceeded => exact absurd hs hdepth

/-- A project that a plugin requires is installed, named by a manifest, or asked for. -/
theorem mem_catalogFrontier {p : ServerPlugin} {pid : Str} {manifest : List FrontierDep} (hp : p ∈ plugins)
    (hpid : pid ∈ p.catalogDeps (·.required)) :
    pid ∈ installedProjectIds plugins ++ manifest.filterMap (·.projectId) ∨
      pid ∈ (catalogFrontier plugins manifest).map (·.identifier) := by
  have hseen : ∀ (skipped pids seen : List Str), pid ∈ seen ∨ pid ∈ pids →
      pid ∈ skipped ∨ pid ∈ pids.foldl (fun seen pid => if pid ∈ skipped ∨ pid ∈ seen then seen else seen ++ [pid]) seen := by
    intro skipped pids
    induction pids with
    | nil =>
      rintro seen (h | h)
      · exact .inr h
      · cases h
    | cons q pids ih =>
      intro seen h
      rw [List.foldl_cons]
      by_cases hskip : pid ∈ skipped
      · exact .inl hskip
      refine ih _ ?_
      split_ifs with hq
      · rcases h with h | h
        · exact .inl h
        · rcases List.mem_cons.mp h with rfl | h
          · exact .inl (hq.resolve_left hskip)
          · exact .inr h
      · rcases h with h | h
        · exact .inl (List.mem_append_left _ h)
        · rcases List.mem_cons.mp h with rfl | h
          · exact .inl (List.mem_append_right _ (List.mem_singleton.mpr rfl))
          · exact .inr h
  rw [catalogFrontier, List.map_map]
  simp only [Function.comp_def, List.map_id']
  exact hseen _ _ _ (.inr (List.mem_flatMap.mpr ⟨p, hp, hpid⟩))

/-- **A plan that reports nothing meets every requirement**, exactly when each requirement of a manifest is met by what
is installed, or by what is imported for the first requirement of its identifier. -/
theorem met_iff (hok : resolveClosure a.catalog plugins serverType fuel () = some (.ok (plan, w))) (hclean : Clean plan) :
    AllMet a plugins plan serverType.dialect ↔
      ∀ d ∈ manifestDeps plugins, InstalledWithin plugins serverType.dialect d.identifier d.versionRange ∨
        ∃ f will, first plugins d.identifier = some f ∧ satisfied serverType.dialect plugins f = false ∧
          a.pick serverType.dialect f = some will ∧
          versionSatisfies will.versionNumber d.versionRange serverType.dialect = true := by
  obtain rfl := eq_entries_of_clean hok hclean
  have hrounds := (resolveClosure_ok.mp hok).1
  have hwalk := walking_rounds hrounds
  have hpicking := picking_rounds hrounds
  have hcovers := covers_entries hwalk
  have hroots : ∀ id ∈ roots plugins, id ∈ w.entries.map (·.depIdentifier) := fun id hid =>
    (hcovers.reached id).mpr ⟨0, .root hid⟩
  -- the entry of an identifier is that of the first requirement
  have hentry : ∀ d ∈ manifestDeps plugins, ∃ f, first plugins d.identifier = some f ∧ ∃ e ∈ w.entries,
      e.depIdentifier = d.identifier ∧
        e.added = if satisfied serverType.dialect plugins f then none else a.pick serverType.dialect f := by
    intro d hd
    have hsome : (first plugins d.identifier).isSome := by
      rw [first, List.find?_isSome]
      exact ⟨d, List.mem_append_left _ hd, decide_eq_true rfl⟩
    obtain ⟨f, hf⟩ := Option.isSome_iff_exists.mp hsome
    rcases hpicking.first _ f hf with he | ⟨-, hnone⟩
    · exact ⟨f, hf, he⟩
    · cases hnone
  constructor
  · intro hall d hd
    refine (hall.manifest d hd).imp_right ?_
    rintro ⟨e, he, hid, will, hadded, hsat⟩
    obtain ⟨f, hf, e', he', hid', hadded'⟩ := hentry d hd
    obtain rfl := List.inj_on_of_nodup_map hcovers.nodup he he' (hid.trans hid'.symm)
    rw [hadded] at hadded'
    split_ifs at hadded' with hsatisfied
    exact ⟨f, will, hf, Bool.eq_false_iff.mpr hsatisfied, hadded'.symm, hsat⟩
  · intro hall
    have hmanifest : ∀ d ∈ manifestDeps plugins,
        Met plugins w.entries serverType.dialect d.identifier d.versionRange := by
      intro d hd
      refine (hall d hd).imp_right ?_
      rintro ⟨f, will, hf, hsatisfied, hpick, hsat⟩
      obtain ⟨f', hf', e, he, hid, hadded⟩ := hentry d hd
      obtain rfl : f' = f := Option.some.inj (hf'.symm.trans hf)
      rw [hsatisfied, hpick] at hadded
      exact ⟨e, he, hid, will, hadded, hsat⟩
    refine ⟨hmanifest, fun p hp pid hpid => ?_, fun e he will hadded id hid => ?_⟩
    · have hmem : pid ∈ installedProjectIds plugins ++ (manifestDeps plugins).filterMap (·.projectId) ∨
          pid ∈ (catalogFrontier plugins (manifestDeps plugins)).map (·.identifier) := mem_catalogFrontier hp hpid
      rcases hmem with hskip | hqueued
      · rcases List.mem_append.mp hskip with hinstalled | hnamed
        · exact .inl (.inl (installedWithin_any (.inr hinstalled)))
        · obtain ⟨d, hd, hproject⟩ := List.mem_filterMap.mp hnamed
          exact .inr ⟨d, hd, hproject, hmanifest d hd⟩
      · refine .inl (hpicking.met_any hclean (hroots pid ?_))
        rw [roots, initialFrontier, List.map_append]
        exact List.mem_append_right _ hqueued
    · refine hpicking.met_any hclean ((hcovers.reached id).mpr ?_)
      obtain ⟨k, hk⟩ := (hcovers.reached _).mp (List.mem_map_of_mem he)
      exact ⟨k + 1, hk.step (hpicking.requires e he will hadded id hid)⟩

/-- A library in an old and a new version. -/
def twoVersions : Answers :=
  .ofProjects [(⟨str "L", str "lib"⟩, [.requiring (str "v1") (str "0.9") [], .requiring (str "v2") (str "2.0") []])]

/-- A plugin that requires the library, and one that requires the old version. -/
def disagreeing : List ServerPlugin :=
  [.ofManifest (str "a") (str "1") [⟨true, false, some (str "lib"), none, none⟩],
    .ofManifest (str "b") (str "1") [⟨true, false, some (str "lib"), some (str "<1"), none⟩]]

theorem resolve_twoVersions : ∃ plan w, resolveClosure twoVersions.catalog disagreeing .fabric 12 () = some (.ok (plan, w)) ∧
    Clean plan ∧ ∀ e ∈ plan, ∀ will ∈ e.added, versionSatisfies will.versionNumber (str "<1") (str "fabric") = false := by
  have h : (match resolveClosure twoVersions.catalog disagreeing .fabric 12 () with
      | some (.ok (plan, _)) => decide (Clean plan ∧
          ∀ e ∈ plan, ∀ will ∈ e.added, versionSatisfies will.versionNumber (str "<1") (str "fabric") = false)
      | some (.error _) => false
      | none => false) = true := by decide +kernel
  split at h
  · next plan w hok => exact ⟨plan, w, hok, of_decide_eq_true h⟩
  · cases h
  · cases h

theorem met_iff_twoVersions : ∃ plan w, resolveClosure twoVersions.catalog disagreeing .fabric 12 () = some (.ok (plan, w)) ∧
    Clean plan ∧ (AllMet twoVersions disagreeing plan ServerType.fabric.dialect ↔
      ∀ d ∈ manifestDeps disagreeing, InstalledWithin disagreeing ServerType.fabric.dialect d.identifier d.versionRange ∨
        ∃ f will, first disagreeing d.identifier = some f ∧ satisfied ServerType.fabric.dialect disagreeing f = false ∧
          twoVersions.pick ServerType.fabric.dialect f = some will ∧
          versionSatisfies will.versionNumber d.versionRange ServerType.fabric.dialect = true) := by
  obtain ⟨plan, w, hok, hclean, -⟩ := resolve_twoVersions
  exact ⟨plan, w, hok, hclean, met_iff hok hclean⟩

/-- **The plan has the new version**, and does not report that a plugin requires the old one. -/
theorem not_met : ∃ plan w, resolveClosure twoVersions.catalog disagreeing .fabric 12 () = some (.ok (plan, w)) ∧
    Clean plan ∧ ¬ AllMet twoVersions disagreeing plan ServerType.fabric.dialect := by
  obtain ⟨plan, w, hok, hclean, hnew⟩ := resolve_twoVersions
  refine ⟨plan, w, hok, hclean, fun hall => ?_⟩
  have hdep : ∃ d ∈ manifestDeps disagreeing, d.identifier = str "lib" ∧ d.versionRange = str "<1" := by decide +kernel
  obtain ⟨d, hd, hid, hrange⟩ := hdep
  have hmet := hall.manifest d hd
  rw [hid, hrange] at hmet
  rcases hmet with ⟨p, hp, hid | hid, -⟩ | ⟨e, he, -, will, hadded, hsat⟩
  · exact absurd (mem_installedIds.mpr ⟨p, hp, hid⟩) (by decide +kernel)
  · exact absurd (List.mem_filterMap.mpr ⟨p, hp, hid⟩ : str "lib" ∈ installedProjectIds disagreeing) (by decide +kernel)
  · have hnot := hnew e he will (Option.mem_def.mpr hadded)
    rw [show ServerType.fabric.dialect = str "fabric" from rfl, hnot] at hsat
    cases hsat

end McServerDashboard.Plugins
