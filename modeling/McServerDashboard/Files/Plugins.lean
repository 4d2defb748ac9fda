import McServerDashboard.Lib.Json
import McServerDashboard.Properties.Escapes

/-!
# The plugin rows of an export

* `Plugin`: a row of `server_plugin`; what no code checks is whatever JSON value it was read from.
* `serializePlugin`, `deserializePlugin`: a row as the descriptor carries it.
-/

namespace McServerDashboard.Files

open Lib Lib.Properties Properties

inductive LoaderType
  | mod
  | plugin
  deriving DecidableEq

def LoaderType.value : LoaderType → Str
  | mod => str "mod"
  | plugin => str "plugin"

inductive PluginSource
  | loc
  | modrinth
  | geyser
  | unknown
  deriving DecidableEq

def PluginSource.value : PluginSource → Str
  | loc => str "local"
  | modrinth => str "modrinth"
  | geyser => str "geyser"
  | unknown => str "unknown"

/-- A row of `server_plugin`, but for its id and its timestamps. -/
structure Plugin where
  serverId : ℕ
  relPath : Str
  filename : Str
  displayName : Str
  description : Json
  loaderType : LoaderType
  source : PluginSource
  sourceProjectId : Json
  sourceVersionId : Json
  versionNumber : Json
  checksumSha512 : Json
  sha256 : Json
  sizeBytes : Json
  enabled : Bool
  installedBy : Option ℕ
  modIdentifier : Json
  provides : Json
  dependencies : Json
  mcVersions : Json
  side : Json
  catalogDependencies : Json

/-- `_serialize_plugin`. -/
def serializePlugin (plugin : Plugin) : Json :=
  .obj [(str "rel_path", .str plugin.relPath),
    (str "filename", .str plugin.filename),
    (str "display_name", .str plugin.displayName),
    (str "description", plugin.description),
    (str "loader_type", .str plugin.loaderType.value),
    (str "source", .str plugin.source.value),
    (str "source_project_id", plugin.sourceProjectId),
    (str "source_version_id", plugin.sourceVersionId),
    (str "version_number", plugin.versionNumber),
    (str "checksum_sha512", plugin.checksumSha512),
    (str "sha256", plugin.sha256),
    (str "size_bytes", plugin.sizeBytes),
    (str "enabled", .bool plugin.enabled),
    (str "mod_identifier", plugin.modIdentifier),
    (str "provides", plugin.provides),
    (str "dependencies", plugin.dependencies),
    (str "mc_versions", plugin.mcVersions),
    (str "side", plugin.side),
    (str "catalog_dependencies", plugin.catalogDependencies)]

/-- `LoaderType(value)`. -/
def parseLoaderType : Json → Option LoaderType
  | .str s => [LoaderType.mod, .plugin].find? (·.value = s)
  | _ => none

/-- `PluginSource(value)`. -/
def parsePluginSource : Json → Option PluginSource
  | .str s => [PluginSource.loc, .modrinth, .geyser, .unknown].find? (·.value = s)
  | _ => none

/-- `bool(value)`. -/
def truthy : Json → Bool
  | .null => false
  | .bool b => b
  | .int n => n ≠ 0
  | .float x => x ≠ some 0
  | .str s => s ≠ []
  | .arr items => !items.isEmpty
  | .obj members => !members.isEmpty

/-- `raw.get(key, default)`. -/
def getD (raw : Json) (key : String) (default : Json) : Json := (raw.get? (str key)).getD default

/-- `str(value)`; `text` is that of a value that is no string. -/
def toStr (text : Json → Str) : Json → Str
  | .str s => s
  | v => text v

/-- `_deserialize_plugin`, unless it raises. -/
def deserializePlugin (text : Json → Str) (raw : Json) (serverId : ℕ) : Option Plugin :=
  match raw with
  | .obj _ => do
    let loaderType ← parseLoaderType (getD raw "loader_type" (.str (str "mod")))
    let source ← parsePluginSource (getD raw "source" (.str (str "local")))
    return {
      serverId
      relPath := toStr text (getD raw "rel_path" (.str []))
      filename := toStr text (getD raw "filename" (.str []))
      displayName := toStr text (getD raw "display_name" (.str []))
      description := getD raw "description" .null
      loaderType
      source
      sourceProjectId := getD raw "source_project_id" .null
      sourceVersionId := getD raw "source_version_id" .null
      versionNumber := getD raw "version_number" .null
      checksumSha512 := getD raw "checksum_sha512" .null
      sha256 := getD raw "sha256" .null
      sizeBytes := getD raw "size_bytes" .null
      enabled := truthy (getD raw "enabled" (.bool true))
      installedBy := none
      modIdentifier := getD raw "mod_identifier" .null
      provides := getD raw "provides" (.arr [])
      dependencies := getD raw "dependencies" (.arr [])
      mcVersions := getD raw "mc_versions" (.arr [])
      side := getD raw "side" (.str (str "both"))
      catalogDependencies := getD raw "catalog_dependencies" (.arr []) }
  | _ => none

/-- ASCII `lower()`. -/
def lower (s : Str) : Str := s.map fun c => if 65 ≤ c.val ∧ c.val ≤ 90 then chr (c.val + 32) else c

/-- `is_geyser_plugin`, unless it raises. -/
def isGeyserPlugin (plugin : Plugin) : Option Bool := do
  let identifier ← match plugin.modIdentifier with
    | .str s => some (lower s)
    | v => if truthy v then none else some []
  if identifier ∈ [str "geyser-spigot", str "geyser-fabric", str "geyser_neoforge"] then return true
  match plugin.sourceProjectId with
  | .str s => return s ∈ [str "wKkoqHrH", str "geyser"]
  | .arr _ | .obj _ => none
  | _ => return false

end McServerDashboard.Files
