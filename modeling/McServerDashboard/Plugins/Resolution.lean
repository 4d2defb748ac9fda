import McServerDashboard.Lib.Dict
import McServerDashboard.Plugins.VersionRange

/-!
# The dependencies of a plugin set

`resolve_closure` plans what has to be imported for the installed plugins of a server, and what would have to be
imported for that. It asks a catalog, which may answer each request as it likes or fail it.

* `initialFrontier`: what the installed plugins require.
* `visit`, `rounds`: the walk, breadth first; `resolveWillImport`, `frontierFromWillImport`: its requests.
* `blockAndPrune`: the entries that conflict, and those that are left without a requirer.
* `resolveClosure`: the entries of the plan.
-/

namespace McServerDashboard.Plugins

open Lib Properties

/-! ## Plugins and catalogs -/

inductive PluginSource
  | loc
  | modrinth
  | geyser
  | unknown
  deriving DecidableEq

/-- Of an item of `dependencies`: which flags are truthy, and the strings. -/
structure ManifestDep where
  required : Bool
  conflict : Bool
  modIdentifier : Option Str
  versionRange : Option Str
  projectId : Option Str

/-- Of an item of `catalog_dependencies`. -/
structure RawCatalogDep where
  required : Bool
  incompatible : Bool
  projectId : Option Str

/-- Of `ServerPlugin` what the walk reads. -/
structure ServerPlugin where
  source : PluginSource
  sourceProjectId : Option Str
  versionNumber : Option Str
  modIdentifier : Option Str
  provides : List Str
  dependencies : List ManifestDep
  catalogDependencies : List RawCatalogDep

structure CatalogDependency where
  projectId : Str
  dependencyType : Str

structure CatalogVersion where
  versionId : Str
  versionNumber : Str
  files : List Str
  dependencies : List CatalogDependency

structure CatalogProject where
  projectId : Str
  slug : Str

/-- The catalog, asked for the loader and the Minecraft version of the server; `none` is a failure. -/
structure Catalog (σ : Type*) where
  search : Str → σ → σ × Option (List CatalogProject)
  getProject : Str → σ → σ × Option CatalogProject
  listVersions : Str → σ → σ × Option (List CatalogVersion)

/-- The server types that take plugins; `modrinth_loader_for_server_type` refuses the other one. -/
inductive ServerType
  | paper
  | fabric
  | forge
  deriving DecidableEq

/-- `_loader_dialect`. -/
def ServerType.dialect : ServerType → Str
  | paper => str "paper"
  | fabric => str "fabric"
  | forge => str "forge"

/-- The identifier of a plugin, if it has one that is not empty. -/
def ServerPlugin.identifier? (p : ServerPlugin) : Option Str := p.modIdentifier.filter (· ≠ [])

/-- `required_catalog_deps` and `incompatible_catalog_deps`. -/
def ServerPlugin.catalogDeps (p : ServerPlugin) (flag : RawCatalogDep → Bool) : List Str :=
  if p.source = .modrinth then (p.catalogDependencies.filter flag).filterMap fun d => d.projectId.filter (· ≠ []) else []

section

variable (plugins : List ServerPlugin)

/-- `installed_project_ids`. -/
def installedProjectIds : List Str := plugins.filterMap (·.sourceProjectId)

/-- `_provided_versions`: the last plugin that provides an id. -/
def providedVersions : Dict Str Str :=
  plugins.foldl (fun provided p =>
    match p.identifier? with
    | none => provided
    | some id => (id :: p.provides).foldl (fun d key => d.set key (p.versionNumber.getD [])) provided) ∅

/-- `_conflict_edges`. -/
def conflictEdges : List (Str × Str) :=
  plugins.flatMap fun p =>
    match p.identifier? with
    | none => []
    | some id => (p.dependencies.filter (·.conflict)).filterMap fun d => d.modIdentifier.map fun target => (id, target)

/-- `_installed_incompatible_edges`. -/
def installedIncompatibleEdges : List (Str × Str) :=
  plugins.flatMap fun p =>
    match p.sourceProjectId with
    | none => []
    | some pid => (p.catalogDeps (·.incompatible)).map fun target => (pid, target)

/-- The ids of the installed plugins and what they provide. -/
def installedIds : List Str :=
  plugins.flatMap fun p =>
    match p.identifier? with
    | none => []
    | some id => id :: p.provides

end

/-! ## The frontier -/

structure FrontierDep where
  identifier : Str
  versionRange : Str
  projectId : Option Str
  depth : ℕ
  requiredBy : Option Str

/-- `_frontier_from_plugin`. -/
def frontierFromPlugin (depth : ℕ) (requiredBy : Option Str) (p : ServerPlugin) : List FrontierDep :=
  match p.identifier? with
  | none => []
  | some _ =>
    (p.dependencies.filter fun d => d.required && !d.conflict).filterMap fun d =>
      d.modIdentifier.map fun target =>
        ⟨target, d.versionRange.getD [], d.projectId.filter (· ≠ []), depth, requiredBy⟩

/-- `_catalog_frontier`: projects that are neither installed nor in the manifests, each once. -/
def catalogFrontier (plugins : List ServerPlugin) (manifest : List FrontierDep) : List FrontierDep :=
  let skipped := installedProjectIds plugins ++ manifest.filterMap (·.projectId)
  let seen := (plugins.flatMap fun p => p.catalogDeps (·.required)).foldl
    (fun seen pid => if pid ∈ skipped ∨ pid ∈ seen then seen else seen ++ [pid]) []
  seen.map fun pid => ⟨pid, [], some pid, 0, none⟩

/-- What the installed plugins require. -/
def initialFrontier (plugins : List ServerPlugin) : List FrontierDep :=
  let manifest := plugins.flatMap (frontierFromPlugin 0 none)
  manifest ++ catalogFrontier plugins manifest

/-! ## Entries -/

structure WillImport where
  projectId : Str
  versionId : Str
  slug : Str
  versionNumber : Str
  deriving DecidableEq

inductive ResolutionStatus
  | alreadySatisfied
  | needsImport
  | unresolvable
  | depthExceeded
  deriving DecidableEq

structure ResolutionEntry where
  depIdentifier : Str
  requiredRange : Str
  status : ResolutionStatus
  willImport : Option WillImport
  depth : ℕ
  requiredBy : Option Str
  blocked : Bool
  deriving DecidableEq

def maxResolutionDepth : ℕ := 10

/-! ## The requests of the walk -/

inductive Request
  | search (query : Str)
  | getProject (id : Str)
  | listVersions (id : Str)
  deriving DecidableEq

/-- The walk so far. -/
structure Walk (σ : Type*) where
  catalog : σ
  entries : List ResolutionEntry
  visited : List Str
  requirers : Dict Str (List (Option Str))
  /-- `import_incompatible_edges`. -/
  incompatible : List (Str × Str)
  /-- The requests, each with the identifier it was made for (a ghost). -/
  requests : List (Str × Request)
  /-- The identifiers that were imported, each with those it requires (a ghost). -/
  imports : List (Str × Str)
  /-- What was selected from: the range and the listed versions (a ghost). -/
  selections : List (Str × List CatalogVersion)

variable {σ : Type*} {α : Type*}

def Walk.start (s : σ) : Walk σ := ⟨s, [], [], ∅, [], [], [], []⟩

/-- A request for `id`. -/
def Walk.ask (w : Walk σ) (id : Str) (r : Request) (f : σ → σ × α) : Walk σ × α :=
  ({ w with catalog := (f w.catalog).1, requests := w.requests ++ [(id, r)] }, (f w.catalog).2)

/-- The candidates of a selection. -/
def candidates (range dialect : Str) (versions : List CatalogVersion) : List CatalogVersion :=
  versions.filter fun v => v.files ≠ [] ∧ versionSatisfies v.versionNumber range dialect

/-- The order of the keys: the version number, then the version id. -/
def newer (v best : CatalogVersion) : Option Bool :=
  (compareVersions v.versionNumber best.versionNumber).map fun
    | .gt => true
    | .eq => best.versionId < v.versionId
    | .lt => false

/-- `_select_import_version`; the outer `none` is a `ValueError`. -/
def selectImportVersion (range dialect : Str) (versions : List CatalogVersion) : Option (Option CatalogVersion) :=
  match candidates range dialect versions with
  | [] => some none
  | v :: vs => (vs.foldlM (fun best v => do return if ← newer v best then v else best) v).map some

variable (catalog : Catalog σ) (dialect : Str)

/-- `_locate_project`. -/
def locateProject (dep : FrontierDep) (w : Walk σ) : Walk σ × Option CatalogProject :=
  match dep.projectId with
  | some pid => w.ask dep.identifier (.getProject pid) (catalog.getProject pid)
  | none =>
    match w.ask dep.identifier (.search dep.identifier) (catalog.search dep.identifier) with
    | (w, none) => (w, none)
    | (w, some hits) =>
      match hits.find? (·.slug = dep.identifier) with
      | none => (w, none)
      | some hit => w.ask dep.identifier (.getProject hit.projectId) (catalog.getProject hit.projectId)

/-- `_resolve_will_import`; the error is a `ValueError`. -/
def resolveWillImport (dep : FrontierDep) (w : Walk σ) : Except (Walk σ) (Walk σ × Option WillImport) :=
  match locateProject catalog dep w with
  | (w, none) => .ok (w, none)
  | (w, some project) =>
    match w.ask dep.identifier (.listVersions project.projectId) (catalog.listVersions project.projectId) with
    | (w, none) => .ok (w, none)
    | (w, some versions) =>
      let w := { w with selections := w.selections ++ [(dep.versionRange, versions)] }
      match selectImportVersion dep.versionRange dialect versions with
      | none => .error w
      | some none => .ok (w, none)
      | some (some v) => .ok (w, some ⟨project.projectId, v.versionId, project.slug, v.versionNumber⟩)

/-- `_frontier_from_will_import`, for the import of `id`: what the version requires, and the incompatible edges. -/
def frontierFromWillImport (id : Str) (will : WillImport) (depth : ℕ) (w : Walk σ) :
    Walk σ × List FrontierDep × List (Str × Str) :=
  match w.ask id (.listVersions will.projectId) (catalog.listVersions will.projectId) with
  | (w, none) => (w, [], [])
  | (w, some versions) =>
    match versions.find? (·.versionId = will.versionId) with
    | none => (w, [], [])
    | some v =>
      (w,
        (v.dependencies.filter (·.dependencyType = str "required")).map fun d =>
          ⟨d.projectId, [], some d.projectId, depth, some will.slug⟩,
        (v.dependencies.filter fun d => d.dependencyType = str "incompatible" ∧ d.projectId ≠ []).map fun d =>
          (will.projectId, d.projectId))

/-! ## The walk -/

def Walk.addEntry (w : Walk σ) (dep : FrontierDep) (status : ResolutionStatus) (will : Option WillImport) : Walk σ :=
  { w with entries := w.entries ++ [⟨dep.identifier, dep.versionRange, status, will, dep.depth, dep.requiredBy, false⟩] }

/-- `requirers.setdefault(...).add(...)`. -/
def Walk.addRequirer (w : Walk σ) (dep : FrontierDep) : Walk σ :=
  { w with
    requirers := w.requirers.set dep.identifier (((w.requirers.get? dep.identifier).getD []) ++ [dep.requiredBy]) }

variable (plugins : List ServerPlugin)

/-- The installed set satisfies the dependency. -/
def satisfied (dep : FrontierDep) : Bool :=
  ((providedVersions plugins).get? dep.identifier).any (fun present => versionSatisfies present dep.versionRange dialect)
    || dep.identifier ∈ installedProjectIds plugins

/-- The import of a dependency: it is expanded, and its own requirements are queued. -/
def expand (dep : FrontierDep) (will : WillImport) (w : Walk σ) (next : List FrontierDep) : Walk σ × List FrontierDep :=
  match frontierFromWillImport catalog dep.identifier will (dep.depth + 1) (w.addEntry dep .needsImport (some will)) with
  | (w, child, edges) =>
    ({ w with imports := w.imports ++ child.map fun d => (dep.identifier, d.identifier)
              incompatible := w.incompatible ++ edges }, next ++ child)

/-- A turn of the inner loop; the error is a `ValueError`. -/
def visit (acc : Walk σ × List FrontierDep) (dep : FrontierDep) : Except (Walk σ) (Walk σ × List FrontierDep) :=
  let w := acc.1.addRequirer dep
  if dep.identifier ∈ w.visited then .ok (w, acc.2)
  else
    let w := { w with visited := dep.identifier :: w.visited }
    if satisfied dialect plugins dep then .ok (w.addEntry dep .alreadySatisfied none, acc.2)
    else if maxResolutionDepth ≤ dep.depth then .ok (w.addEntry dep .depthExceeded none, acc.2)
    else
      match resolveWillImport catalog dialect dep w with
      | .error w => .error w
      | .ok (w, none) => .ok (w.addEntry dep .unresolvable none, acc.2)
      | .ok (w, some will) => .ok (expand catalog dep will w acc.2)

/-- The outer loop; `none` if the fuel does not do. -/
def rounds : ℕ → List FrontierDep → Walk σ → Option (Except (Walk σ) (Walk σ))
  | _, [], w => some (.ok w)
  | 0, _ :: _, _ => none
  | fuel + 1, dep :: frontier, w =>
    match (dep :: frontier).foldlM (visit catalog dialect plugins) (w, []) with
    | .error w => some (.error w)
    | .ok (w, next) => rounds fuel next w

/-! ## Conflicts and orphans -/

/-- The import that an entry adds. -/
def ResolutionEntry.added (e : ResolutionEntry) : Option WillImport :=
  if e.status = .needsImport then e.willImport else none

/-- What `_block_and_prune` works on. -/
structure Blocking where
  plugins : List ServerPlugin
  entries : List ResolutionEntry
  requirers : Dict Str (List (Option Str))
  importIncompatibleEdges : List (Str × Str)

namespace Blocking

variable (b : Blocking) (blocked : List ℕ)

/-- The entries that are not blocked. -/
def unblocked : List ResolutionEntry := (b.entries.zipIdx.filter fun x => x.2 ∉ blocked).map Prod.fst

/-- `_present_ids`. -/
def presentIds : List Str :=
  installedIds b.plugins ++ (b.unblocked blocked).flatMap fun e =>
    match e.added with
    | some will => [will.slug, e.depIdentifier]
    | none => []

/-- `_present_project_ids`. -/
def presentProjectIds : List Str :=
  installedProjectIds b.plugins ++ (b.unblocked blocked).filterMap fun e => e.added.map (·.projectId)

/-- The ids of the conflict edges whose target is present. -/
def conflictIds : List Str :=
  ((conflictEdges b.plugins).filter fun e => e.2 ∈ b.presentIds blocked).flatMap fun e => [e.1, e.2]

def incompatibleEdges : List (Str × Str) := installedIncompatibleEdges b.plugins ++ b.importIncompatibleEdges

/-- `_incompatible_project_ids`. -/
def conflictProjectIds : List Str :=
  (b.incompatibleEdges.filter fun e => e.1 ∈ b.presentProjectIds blocked ∧ e.2 ∈ b.presentProjectIds blocked).flatMap
    fun e => [e.1, e.2]

def addedIds : List Str := (b.unblocked blocked).filterMap fun e => e.added.map (·.slug)

/-- The entry is on a conflict. -/
def conflicts (e : ResolutionEntry) : Bool :=
  e.added.any fun will => will.slug ∈ b.conflictIds blocked ∨ will.projectId ∈ b.conflictProjectIds blocked

def requirersOf (e : ResolutionEntry) : List (Option Str) := (b.requirers.get? e.depIdentifier).getD [e.requiredBy]

/-- Something that stays requires the entry. -/
def required (e : ResolutionEntry) : Bool :=
  (b.requirersOf e).any fun
    | none => true
    | some req => req ∈ installedIds b.plugins ∨ req ∈ b.addedIds blocked

/-- `new_blocked`. -/
def newBlocked : List ℕ :=
  (b.entries.zipIdx.filter fun x => x.2 ∉ blocked ∧ (b.conflicts blocked x.1 ∨ !b.required blocked x.1)).map Prod.snd

/-- The loop; `none` if the fuel does not do. -/
def fixpoint : ℕ → List ℕ → Option (List ℕ)
  | 0, _ => none
  | fuel + 1, blocked => if b.newBlocked blocked = [] then some blocked else fixpoint fuel (blocked ++ b.newBlocked blocked)

/-- `_mark_blocked`. -/
def markBlocked : List ResolutionEntry :=
  b.entries.zipIdx.map fun x => if x.2 ∈ blocked then { x.1 with blocked := true } else x.1

end Blocking

/-- `_block_and_prune`. -/
def blockAndPrune (fuel : ℕ) (b : Blocking) : Option (List ResolutionEntry) := (b.fixpoint fuel []).map b.markBlocked

/-- What `_block_and_prune` gets of a walk. -/
def Walk.blocking (w : Walk σ) : Blocking := ⟨plugins, w.entries, w.requirers, w.incompatible⟩

/-- The entries of `resolve_closure` and the walk, or the walk at a `ValueError`. -/
def resolveClosure (serverType : ServerType) (fuel : ℕ) (s : σ) :
    Option (Except (Walk σ) (List ResolutionEntry × Walk σ)) :=
  match rounds catalog serverType.dialect plugins fuel (initialFrontier plugins) (.start s) with
  | none => none
  | some (.error w) => some (.error w)
  | some (.ok w) => (blockAndPrune fuel (w.blocking plugins)).map fun entries => .ok (entries, w)

end McServerDashboard.Plugins
