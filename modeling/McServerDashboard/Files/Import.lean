import McServerDashboard.Files.UseCases
import McServerDashboard.Files.Plugins
import McServerDashboard.Lib.Characters
import McServerDashboard.Lib.Writes

/-!
# The import of a server

* `Db`: the rows of the servers and of their plugins; `ImportEnv`: what the import is given.
* `parseMetadata`, `validateImportArchive`: what is checked before the row is created.
* `createServer`, `publishWorkingSet`, `importPlugins`: the row and its first file, the members, the plugin rows.
* `importServer`: all of them; what was committed before an error stays.
-/

namespace McServerDashboard.Files

open Lib Lib.Posix Lib.Properties Properties

/-! ## Rows -/

/-- A row of `server`, as far as the import reads or writes it. -/
structure ServerRow where
  id : ℕ
  communityId : ℕ
  name : Str
  mcEdition : Str
  mcVersion : Str
  serverType : ServerType
  gamePort : Option ℕ
  slug : String
  bedrockPort : Option ℕ
  deriving DecidableEq

structure Db where
  servers : List ServerRow
  plugins : List Plugin

/-- `PortRange`. -/
structure PortRange where
  start : ℕ
  stop : ℕ
  reserved : List ℕ

/-- `pick_lowest_free_port`. -/
def pickLowestFreePort (range : PortRange) (taken : List ℕ) : Option ℕ :=
  (List.range' range.start (range.stop + 1 - range.start)).find? fun port => port ∉ taken ∧ port ∉ range.reserved

/-- `list_game_ports`. -/
def Db.gamePorts (db : Db) : List ℕ := db.servers.filterMap (·.gamePort)

/-- `list_bedrock_ports`. -/
def Db.bedrockPorts (db : Db) : List ℕ := db.servers.filterMap (·.bedrockPort)

/-! ## Errors -/

/-- The messages of `InvalidExportMetadataError`. -/
inductive MetadataFault
  | notAZipArchive
  | missingMetadata
  | metadataTooLarge
  | malformedJson
  | notAnObject
  | unsupportedFormat
  | missingField (field : String)
  | notAString
  | pluginsNotAList
  deriving DecidableEq

/-- What `ImportServer` raises. -/
inductive ImportError
  | invalidExportMetadata (fault : MetadataFault)
  | file (e : FileError)
  | unsupportedEdition (edition : Str)
  | unknownServerType (value : Str)
  | invalidConfig
  | invalidVersion
  | portRangeExhausted
  | slugExhausted
  | invalidServerName
  | serverNameAlreadyExists
  | workingSetSeedFailed
  /-- An error that no route maps. -/
  | unmapped
  deriving DecidableEq

/-- The errors that reject an upload. -/
def FileError.rejects : FileError → Bool
  | .invalidFilePath .. | .fileTooLarge _ => true
  | _ => false

def ImportError.rejects : ImportError → Bool
  | .invalidExportMetadata _ => true
  | .file e => e.rejects
  | _ => false

/-- Raise the error on a condition. -/
def refuseIf (condition : Bool) (e : ImportError) : Except ImportError Unit := if condition then .error e else .ok ()

/-- Raise the error where there is no value. -/
def orRaise {α : Type} (e : ImportError) : Option α → Except ImportError α
  | some a => .ok a
  | none => .error e

theorem of_orRaise {α : Type} {e : ImportError} {x : Option α} {a : α} (h : orRaise e x = .ok a) : x = some a := by
  cases x with
  | none => cases h
  | some b => exact congrArg some (Except.ok.inj h)

theorem orRaise_error {α : Type} {e e' : ImportError} {x : Option α} (h : orRaise e x = .error e') : e' = e := by
  cases x with
  | none => exact (Except.error.inj h).symm
  | some b => cases h

theorem refuseIf_error {condition : Bool} {e e' : ImportError} (h : refuseIf condition e = .error e') : e' = e := by
  cases condition with
  | true => exact (Except.error.inj h).symm
  | false => cases h

/-! ## The metadata -/

def exportFormatVersion : ℤ := 1

def exportMetadataFilename : String := "export_metadata.json"

def maxMetadataBytes : ℕ := 64 * 1024

/-- `_Metadata`. -/
structure Metadata where
  mcEdition : Str
  mcVersion : Str
  serverType : Str
  plugins : List Json

/-- The read of the descriptor in bounded chunks. -/
def readMetadata : ℕ → List Bytes → Except ImportError Bytes
  | _, [] => .ok []
  | total, chunk :: rest =>
    let total := total + chunk.length
    if total > maxMetadataBytes then .error (.invalidExportMetadata .metadataTooLarge)
    else (readMetadata total rest).map (chunk ++ ·)

/-- `parsed.get("format") == EXPORT_FORMAT_VERSION`. -/
def isFormatVersion : Option Json → Bool
  | some (.int n) => n = exportFormatVersion
  | some (.bool b) => b
  | some (.float x) => x = some 1
  | _ => false

/-- A field that must be there. -/
def requiredField (parsed : Json) (field : String) : Except ImportError Json :=
  orRaise (.invalidExportMetadata (.missingField field)) (parsed.get? (str field))

/-- `_parse_metadata` of the descriptor that was read. -/
def metadataOf (parsed : Json) : Except ImportError Metadata :=
  match parsed with
  | .obj _ => do
    refuseIf (!isFormatVersion (parsed.get? (str "format"))) (.invalidExportMetadata .unsupportedFormat)
    let mcEdition ← requiredField parsed "mc_edition"
    let mcVersion ← requiredField parsed "mc_version"
    let serverType ← requiredField parsed "server_type"
    match mcEdition, mcVersion, serverType with
    | .str mcEdition, .str mcVersion, .str serverType =>
      match getD parsed "plugins" (.arr []) with
      | .arr plugins => return { mcEdition, mcVersion, serverType, plugins }
      | _ => throw (.invalidExportMetadata .pluginsNotAList)
    | _, _, _ => throw (.invalidExportMetadata .notAString)
  | _ => .error (.invalidExportMetadata .notAnObject)

/-- What `json.loads` answers. -/
inductive Loads
  | value (v : Json)
  /-- A `ValueError`. -/
  | malformed
  | failed

/-- `_parse_metadata`. -/
def parseMetadata (loads : Bytes → Loads) (content : Content) : Except ImportError Metadata :=
  match content.zip with
  | none => .error (.invalidExportMetadata .notAZipArchive)
  | some infos =>
    -- `getinfo` answers the last member of the name
    match infos.reverse.find? (·.filename = exportMetadataFilename) with
    | none => .error (.invalidExportMetadata .missingMetadata)
    | some info => do
      let raw ← readMetadata 0 info.chunks
      match info.reading with
      | .badZip => throw (.invalidExportMetadata .notAZipArchive)
      | .failed => throw .unmapped
      | .whole =>
        match loads raw with
        | .failed => throw .unmapped
        | .malformed => throw (.invalidExportMetadata .malformedJson)
        | .value parsed => metadataOf parsed

/-! ## The dry run -/

/-- The entries of an import. -/
def importEntries (caps : Caps) (content : Content) : Entries :=
  archiveEntries caps.maxBytes caps.maxEntries (exportMetadataFilename ++ ".zip") content

/-- The guards on one entry, which the root of the new server is the root of. -/
def guardImportEntry (entry : String × Bytes) : Except FileError Unit := do
  refuseDirAtRootPropertiesOfParent entry.1
  refuseReservedRootName entry.1

/-- `_validate_import_archive`: an entry is guarded as it is yielded. -/
def validateImportArchive (caps : Caps) (content : Content) : Except FileError Unit := do
  let entries := importEntries caps content
  entries.yielded.forM guardImportEntry
  match entries.error with
  | some e => throw e
  | none => pure ()
  ((content.zip.getD []).filter (·.isDir)).forM fun info => refuseReservedRootName info.filename

/-! ## The server -/

/-- What the deployment gives the import. An operation draws names of its own (`δ`), a secret, a slug and an id. -/
structure ImportEnv (δ : Type) where
  caps : Caps
  portRange : PortRange
  bedrockPortRange : Option PortRange
  /-- `json.loads`. -/
  loads : Bytes → Loads
  /-- `str` of a value that is no string. -/
  text : Json → Str
  /-- The config that the deployment's defaults make is in range. -/
  configValid : Bool
  /-- The catalog offers the version. -/
  offers : ServerType → Str → Bool
  newId : ℕ
  slug : Option String
  tokens : ℕ → Str
  /-- The columns of `server_plugin` take the row. -/
  takes : Plugin → Bool
  draws : ℕ → δ

def supportedEdition : Str := str "java"

/-- `_parse_server_type`. -/
def parseServerType (value : Str) : Option ServerType :=
  [(str "vanilla", ServerType.vanilla), (str "paper", .paper), (str "fabric", .fabric), (str "forge", .forge)].lookup
    value

/-- `ServerName`. -/
def serverName (value : Str) : Option Str :=
  let trimmed := strip value
  if trimmed = [] then none else some trimmed

section

variable {σ δ : Type} (fs : FileStore σ δ) (env : ImportEnv δ)

/-- `CreateServer`, up to the commit of the row. -/
def createRow (communityId : ℕ) (name : Str) (metadata : Metadata) (db : Db) : Except ImportError ServerRow := do
  refuseIf (metadata.mcEdition ≠ supportedEdition) (.unsupportedEdition metadata.mcEdition)
  let serverType ← orRaise (.unknownServerType metadata.serverType) (parseServerType metadata.serverType)
  refuseIf (!env.configValid) .invalidConfig
  refuseIf (!env.offers serverType metadata.mcVersion) .invalidVersion
  let gamePort ← orRaise .portRangeExhausted (pickLowestFreePort env.portRange db.gamePorts)
  let slug ← orRaise .slugExhausted env.slug
  let name ← orRaise .invalidServerName (serverName name)
  refuseIf (db.servers.any fun s => s.communityId = communityId ∧ s.name = name) .serverNameAlreadyExists
  return { id := env.newId, communityId, name, mcEdition := metadata.mcEdition, mcVersion := metadata.mcVersion,
           serverType, gamePort := some gamePort, slug, bedrockPort := none }

/-- The seed of `server.properties`: `set_server_port` and `set_rcon_properties`. -/
def seedProperties (gamePort : ℕ) (password : Str) : Bytes :=
  let content := setProperty [] portKey (str (toString (gamePort : ℤ)))
  let content := setProperty content enableRconKey (str "true")
  let content := setProperty content rconPortKey (str (toString rconPort))
  if (((parse content).filter (·.key = rconPasswordKey)).map (·.value)).getLast?.any (· ≠ []) then content
  else setProperty content rconPasswordKey password

/-- `CreateServer`: the row is committed before its working set is seeded. -/
def createServer (communityId : ℕ) (name : Str) (metadata : Metadata) (db : Db) (s : σ) :
    Except ImportError ServerRow × Db × σ :=
  match createRow env communityId name metadata db with
  | .error e => (.error e, db, s)
  | .ok row =>
    let db := { db with servers := db.servers ++ [row] }
    match fs.writeFile (env.draws 0) propertiesRelPath (seedProperties (row.gamePort.getD 0) (env.tokens 0)) s with
    | .error _ => (.error .workingSetSeedFailed, db, s)
    | .ok s => (.ok row, db, s)

/-! ## The working set -/

/-- An error of the write pass: a rejection is raised as it is. -/
def publishError : FileError → ImportError
  | .invalidFilePath path reason => .file (.invalidFilePath path reason)
  | .fileTooLarge size => .file (.fileTooLarge size)
  | _ => .workingSetSeedFailed

/-- The loop of `_publish_working_set`. -/
def publishEntries (gamePort : Option ℕ) : ℕ → List (String × Bytes) → σ → Except ImportError Unit × σ
  | _, [], s => (.ok (), s)
  | i, (path, data) :: rest, s =>
    if path = exportMetadataFilename then publishEntries gamePort i rest s
    else
      let data := if path = propertiesRelPath then
        applyPlatformProperties data (gamePort.map (↑)) (env.tokens (i + 1)) none else data
      match fs.writeFile (env.draws (i + 1)) path data s with
      | .error e => (.error (publishError e), s)
      | .ok s => publishEntries gamePort (i + 1) rest s

/-- `_publish_working_set`. -/
def publishWorkingSet (gamePort : Option ℕ) (content : Content) (s : σ) : Except ImportError Unit × σ :=
  match (importEntries env.caps content).all with
  | .error e => (.error (publishError e), s)
  | .ok entries => publishEntries fs env gamePort 0 entries s

/-! ## The plugins -/

/-- `allocate_bedrock_port_if_geyser`. -/
def allocateBedrockPort (db : Db) (server : ServerRow) (plugin : Plugin) : Except ImportError ServerRow :=
  match env.bedrockPortRange, server.bedrockPort with
  | some range, none =>
    match isGeyserPlugin plugin with
    | none => .error .unmapped
    | some false => .ok server
    | some true =>
      match pickLowestFreePort range db.bedrockPorts with
      | none => .error .workingSetSeedFailed
      | some port => .ok { server with bedrockPort := some port }
  | _, _ => .ok server

/-- One row of the transaction of `_import_plugins`. -/
def importPlugin (db : Db) (server : ServerRow) (rows : List Plugin) (raw : Json) :
    Except ImportError (ServerRow × List Plugin) := do
  let plugin ← orRaise .unmapped (deserializePlugin env.text raw server.id)
  refuseIf (!env.takes plugin || rows.any fun p => p.serverId = server.id ∧ p.relPath = plugin.relPath) .unmapped
  let server ← allocateBedrockPort env db server plugin
  return (server, rows ++ [plugin])

def importRows (db : Db) : ServerRow → List Plugin → List Json → Except ImportError (ServerRow × List Plugin)
  | server, rows, [] => .ok (server, rows)
  | server, rows, raw :: rest => do
    let (server, rows) ← importPlugin env db server rows raw
    importRows db server rows rest

/-- `_import_plugins`, in one transaction. -/
def importPlugins (server : ServerRow) (plugins : List Json) (db : Db) : Except ImportError ServerRow × Db :=
  if plugins.isEmpty then (.ok server, db)
  else match importRows env db server db.plugins plugins with
    | .error e => (.error e, db)
    | .ok (server', rows) =>
      (.ok server', ⟨db.servers.map fun s => if s.id = server.id then server' else s, rows⟩)

/-- What `ImportServer` checks before the row is created. -/
def checkImport (content : Content) : Except ImportError Metadata := do
  refuseIf (content.bytes.length > env.caps.maxBytes) (.file (.fileTooLarge content.bytes.length))
  let metadata ← parseMetadata env.loads content
  (validateImportArchive env.caps content).mapError .file
  return metadata

/-- `ImportServer`: the answer, the rows and the working set after it. -/
def importServer (communityId : ℕ) (name : Str) (content : Content) (db : Db) (s : σ) :
    Except ImportError ServerRow × Db × σ :=
  match checkImport env content with
  | .error e => (.error e, db, s)
  | .ok metadata =>
    match createServer fs env communityId name metadata db s with
    | (.error e, db, s) => (.error e, db, s)
    | (.ok server, db, s) =>
      match publishWorkingSet fs env server.gamePort content s with
      | (.error e, s) => (.error e, db, s)
      | (.ok (), s) =>
        let (r, db) := importPlugins env server metadata.plugins db
        (r, db, s)

end

/-! ## What has passed -/

variable {δ : Type} {env : ImportEnv δ} {caps : Caps} {content : Content} {metadata : Metadata}

theorem validate_eq_ok (h : validateImportArchive caps content = .ok ()) : (importEntries caps content).error = none := by
  obtain ⟨⟨⟩, -, h⟩ := ok_of_bind h
  cases herror : (importEntries caps content).error with
  | none => rfl
  | some e =>
    rw [herror] at h
    cases h

/-- The entries that are published are all that were checked. -/
theorem checkImport_eq_ok (h : checkImport env content = .ok metadata) :
    (importEntries env.caps content).all = .ok (importEntries env.caps content).yielded := by
  obtain ⟨-, -, h⟩ := ok_of_bind h
  obtain ⟨m, -, h⟩ := ok_of_bind h
  obtain ⟨⟨⟩, hvalid, -⟩ := ok_of_bind h
  cases hv : validateImportArchive env.caps content with
  | error e =>
    rw [hv] at hvalid
    cases hvalid
  | ok u => rw [Entries.all, validate_eq_ok hv]

end McServerDashboard.Files
