import Mathlib.Data.List.Sort
import McServerDashboard.Plugins.Resolution
import McServerDashboard.Schedules.Entities
import McServerDashboard.Storage.RelPath

/-!
# The plugin rows of a server

A row of `server_plugin` tracks one jar.

* `PluginRow`, `ParsedManifest`, `JarReader`: a row, and what the code computes of the bytes of a jar.
* `delete`, `update`: the repository, over the rows of one server.
* `Table`: the primary key and the unique constraint.
-/

namespace McServerDashboard.Plugins

open Lib Properties

/-! ## Entities -/

inductive LoaderType
  | mod
  | plugin
  deriving DecidableEq

inductive PluginSide
  | server
  | client
  | both
  deriving DecidableEq

/-- `ServerPlugin`, but for the server it belongs to. -/
structure PluginRow where
  id : ℕ
  relPath : Str
  filename : Str
  displayName : Str
  description : Option Str
  loaderType : LoaderType
  source : PluginSource
  sourceProjectId : Option Str
  sourceVersionId : Option Str
  versionNumber : Option Str
  checksumSha512 : Option Str
  sha256 : Option Str
  sizeBytes : Option ℕ
  enabled : Bool
  installedBy : Option ℕ
  createdAt : Schedules.Instant
  updatedAt : Schedules.Instant
  modIdentifier : Option Str
  provides : List Str
  dependencies : List ManifestDep
  mcVersions : List Str
  side : PluginSide
  catalogDependencies : List RawCatalogDep

/-- `ParsedManifest`. -/
structure ParsedManifest where
  modIdentifier : Str
  provides : List Str
  mcVersions : List Str
  dependencies : List ManifestDep
  side : PluginSide

/-- What the code computes of the bytes of a jar: their hex digests, and `parse_manifest_at_ingest`,
which some bytes may make raise. -/
structure JarReader where
  sha512 : Bytes → Str
  sha256 : Bytes → Str
  manifest : ServerType → Bytes → Option ParsedManifest

/-- `content_dir_for_server_type`. -/
def contentDirForServerType : ServerType → Str
  | .fabric | .forge => str "mods"
  | .paper => str "plugins"

/-- `loader_type_for_server_type`. -/
def loaderTypeForServerType : ServerType → LoaderType
  | .fabric | .forge => .mod
  | .paper => .plugin

/-! ## Paths -/

/-- `str.lower` of one character, as far as it makes a letter of `.jar.disabled`: only `A` to `Z` do. -/
def lowerAscii (c : CodePoint) : CodePoint := if 65 ≤ c.val ∧ c.val ≤ 90 then chr (c.val + 32) else c

/-- `s.lower().endswith(suffix)`, of an ASCII suffix. -/
def lowerEndswith (s suffix : Str) : Bool := suffix.isSuffixOf (s.map lowerAscii)

/-- `str.removesuffix`. -/
def removesuffix (s suffix : Str) : Str := if suffix.isSuffixOf s then s.take (s.length - suffix.length) else s

def jarSuffix : Str := str ".jar"
def disabledSuffix : Str := str ".disabled"
def jarDisabledSuffix : Str := str ".jar.disabled"

/-- Which names of the content directory are jars. -/
def isJar (name : Str) : Bool := lowerEndswith name jarSuffix || lowerEndswith name jarDisabledSuffix

/-- `f"{content_dir}/{name}"`. -/
def inContentDir (serverType : ServerType) (name : Str) : Str := contentDirForServerType serverType ++ str "/" ++ name

/-! ## The repository -/

/-- `CatalogProvenance`. -/
structure CatalogProvenance where
  source : PluginSource
  sourceProjectId : Str
  sourceVersionId : Option Str
  versionNumber : Option Str

/-- `CATALOG_SOURCES`. -/
def PluginSource.isCatalog : PluginSource → Bool
  | .modrinth | .geyser => true
  | .loc | .unknown => false

variable (rows : List PluginRow)

/-- `find_catalog_provenance_by_sha512`, over the rows of all servers: that of the first by id. -/
def findCatalogProvenanceBySha512 (checksum : Str) : Option CatalogProvenance :=
  ((rows.filter fun r => r.checksumSha512 = some checksum ∧ r.source.isCatalog ∧ r.sourceProjectId.isSome).insertionSort
    (·.id ≤ ·.id)).head?.bind fun r =>
      r.sourceProjectId.map fun project => ⟨r.source, project, r.sourceVersionId, r.versionNumber⟩

/-- `delete`. -/
def delete (id : ℕ) : List PluginRow := rows.filter (·.id ≠ id)

/-- `update`: the row with the id of the plugin takes its values; `created_at` is not among them. -/
def update (plugin : PluginRow) : List PluginRow :=
  rows.map fun r => if r.id = plugin.id then { plugin with createdAt := r.createdAt } else r

/-- The primary key, and `uq_server_plugin_server_rel`. -/
structure Table : Prop where
  ids : (rows.map PluginRow.id).Nodup
  paths : (rows.map PluginRow.relPath).Nodup

variable {rows} {r r' p : PluginRow}

theorem Table.eq_of_id (h : Table rows) (hr : r ∈ rows) (hr' : r' ∈ rows) (hid : r.id = r'.id) : r = r' :=
  List.inj_on_of_nodup_map h.ids hr hr' hid

theorem Table.eq_of_path (h : Table rows) (hr : r ∈ rows) (hr' : r' ∈ rows) (hpath : r.relPath = r'.relPath) : r = r' :=
  List.inj_on_of_nodup_map h.paths hr hr' hpath

end McServerDashboard.Plugins
