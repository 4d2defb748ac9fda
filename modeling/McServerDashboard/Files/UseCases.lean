import McServerDashboard.Files.Archive
import McServerDashboard.Properties.Guard

/-!
# The files API of a server at rest

The use cases that change the authoritative copy, over the `FileStore` port: each runs its guards and then changes the
store, all under the server's lifecycle lock.

* `FileStore`: the port.
* `Request.run`: the use cases; `extract` alone changes the store more than once.
-/

namespace McServerDashboard.Files

open Lib.Posix Properties

/-! ## The port -/

structure DirEntry where
  name : String
  isDir : Bool
  deriving DecidableEq

/-- The file store of one server. An operation may draw names of its own (`δ`). -/
structure FileStore (σ δ : Type) where
  readFile : String → σ → Except FileError Bytes
  listDir : String → σ → Except FileError (List DirEntry)
  pathExists : String → σ → Except FileError Bool
  writeFile : δ → String → Bytes → σ → Except FileError σ
  deleteFile : δ → String → σ → Except FileError σ
  deleteDir : δ → String → σ → Except FileError σ
  renameFile : δ → String → String → σ → Except FileError σ
  renameDir : δ → String → String → σ → Except FileError σ
  makeDir : δ → String → σ → Except FileError σ
  readVersion : String → String → σ → Except FileError Bytes
  rollback : δ → String → String → σ → Except FileError σ

/-- `validate_rel_path`. -/
def validateRelPath (relPath : String) : Except FileError Unit :=
  if (RelPath.ofRaw relPath).isSome then .ok () else .error (.invalidFilePath relPath .invalidPath)

def maxEditBytes : ℕ := 4 * 1024 * 1024

/-- The caps on an upload. -/
structure Caps where
  maxBytes : ℕ
  maxEntries : ℕ

variable {σ δ : Type} (fs : FileStore σ δ)

/-! ## The guards that read the store -/

/-- `_current_properties`. -/
def currentProperties (s : σ) : Except FileError Bytes :=
  match fs.readFile propertiesRelPath s with
  | .error .serverFileNotFound => .ok []
  | r => r

/-- `_refuse_platform_key_change`. -/
def refusePlatformKeyChange (current incoming : Bytes) : Except FileError Unit :=
  if incoming.length > maxEditBytes then .error (.fileTooLarge incoming.length)
  else match changedPlatformManagedKeys current incoming with
    | [] => .ok ()
    | key :: _ => .error (.platformManagedKey key)

/-- `_guard_at_rest_properties`. -/
def guardAtRestProperties (relPath : String) (incoming : Bytes) (s : σ) : Except FileError Unit :=
  if isRootServerProperties relPath then do
    let current ← currentProperties fs s
    refusePlatformKeyChange current incoming
  else .ok ()

/-- `_path_is_dir`. -/
def pathIsDir (relPath : String) (treatSymlinkAsFile : Bool) (s : σ) : Except FileError Bool :=
  if relPath = "" ∨ relPath = "." then .ok true
  else do
    validateRelPath relPath
    match fs.listDir relPath s with
    | .ok _ => .ok true
    | .error .serverFileNotFound => (fs.readFile relPath s).map fun _ => false
    | .error (.invalidFilePath path reason) =>
      if treatSymlinkAsFile then .ok false else .error (.invalidFilePath path reason)
    | .error e => .error e

/-! ## The use cases -/

/-- `WriteFile`. -/
def writeFile (serverType : ServerType) (d : δ) (relPath : String) (content : Bytes) (s : σ) : Except FileError σ := do
  if content.length > maxEditBytes then throw (.fileTooLarge content.length)
  refuseDirAtRootPropertiesOfParent relPath
  refuseReservedRootName relPath
  guardContentDir serverType relPath
  guardAtRestProperties fs relPath content s
  fs.writeFile d relPath content s

/-- `RollbackFile`. -/
def rollbackFile (d : δ) (relPath versionId : String) (s : σ) : Except FileError σ := do
  refuseReservedRootName relPath
  if isRootServerProperties relPath then
    let versionContent ← fs.readVersion relPath versionId s
    let current ← currentProperties fs s
    refusePlatformKeyChange current versionContent
  fs.rollback d relPath versionId s

/-- `DeleteFile`. -/
def deleteFile (serverType : ServerType) (d : δ) (relPath : String) (s : σ) : Except FileError σ := do
  if relPath = "" ∨ relPath = "." then throw (.invalidFilePath relPath .invalidPath)
  guardContentDir serverType relPath
  let isDir ← pathIsDir fs relPath true s
  if isDir then fs.deleteDir d relPath s
  else
    guardAtRestProperties fs relPath [] s
    fs.deleteFile d relPath s

/-- `MakeDir`. -/
def makeDir (d : δ) (relPath : String) (s : σ) : Except FileError σ := do
  validateRelPath relPath
  if components relPath = [] then throw (.invalidFilePath relPath .invalidPath)
  refuseDirAtRootProperties relPath (purePath relPath)
  refuseReservedRootName relPath
  fs.makeDir d relPath s

/-- `RenameFile`. -/
def renameFile (serverType : ServerType) (d : δ) (fromPath toPath : String) (s : σ) : Except FileError σ := do
  validateRelPath fromPath
  validateRelPath toPath
  refuseReservedRootName toPath
  guardContentDir serverType fromPath
  guardContentDir serverType toPath
  let isDir ← pathIsDir fs fromPath false s
  if fromPath = toPath then return s
  let occupied ← fs.pathExists toPath s
  if occupied then throw (.fileAlreadyExists toPath)
  if isDir then
    refuseDirAtRootProperties toPath (purePath toPath)
    fs.renameDir d fromPath toPath s
  else
    refuseDirAtRootPropertiesOfParent toPath
    guardAtRestProperties fs fromPath [] s
    if isRootServerProperties toPath then
      let source ← fs.readFile fromPath s
      guardAtRestProperties fs toPath source s
    fs.renameFile d fromPath toPath s

/-! ### Uploads -/

/-- The guards on one member of an archive. -/
def guardEntry (serverType : ServerType) (dirPath : String) (s : σ) (entry : String × Bytes) : Except FileError Unit := do
  let target := join dirPath entry.1
  guardContentDir serverType target
  refuseDirAtRootPropertiesOfParent target
  refuseReservedRootName target
  if isRootServerProperties target then
    let baseline ← currentProperties fs s
    refusePlatformKeyChange baseline entry.2

def guardEntries (serverType : ServerType) (dirPath : String) (s : σ) : List (String × Bytes) → Except FileError Unit
  | [] => .ok ()
  | entry :: rest => do
    guardEntry fs serverType dirPath s entry
    guardEntries serverType dirPath s rest

/-- The write pass: what was written before an error stays. -/
def writeEntries (draws : ℕ → δ) (dirPath : String) : ℕ → List (String × Bytes) → σ → Except FileError Unit × σ
  | _, [], s => (.ok (), s)
  | i, (path, data) :: rest, s =>
    match fs.writeFile (draws i) (join dirPath path) data s with
    | .error e => (.error e, s)
    | .ok s' => writeEntries draws dirPath (i + 1) rest s'

/-- The checks that all uploads begin with. -/
def checkUpload (serverType : ServerType) (caps : Caps) (dirPath filename : String) (content : Content) :
    Except FileError Unit := do
  if content.bytes.length > caps.maxBytes then throw (.fileTooLarge content.bytes.length)
  validateRelPath dirPath
  checkEntryPath filename
  guardContentDir serverType (join dirPath filename)

/-- What `UploadFile` does with `extract` before it writes: the entries to write. -/
def checkExtract (serverType : ServerType) (caps : Caps) (dirPath filename : String) (content : Content) (s : σ) :
    Except FileError (List (String × Bytes)) := do
  checkUpload serverType caps dirPath filename content
  let entries ← (archiveEntries caps.maxBytes caps.maxEntries filename content).all
  guardEntries fs serverType dirPath s entries
  return entries

/-- `UploadFile` with `extract`. -/
def extract (serverType : ServerType) (caps : Caps) (draws : ℕ → δ) (dirPath filename : String) (content : Content)
    (s : σ) : Except FileError Unit × σ :=
  match checkExtract fs serverType caps dirPath filename content s with
  | .error e => (.error e, s)
  | .ok entries => writeEntries fs draws dirPath 0 entries s

/-- `UploadFile` without `extract`. -/
def uploadFile (serverType : ServerType) (caps : Caps) (d : δ) (dirPath filename : String) (content : Content) (s : σ) :
    Except FileError σ := do
  checkUpload serverType caps dirPath filename content
  refuseDirAtRootPropertiesOfParent (join dirPath filename)
  refuseReservedRootName (join dirPath filename)
  guardAtRestProperties fs (join dirPath filename) content.bytes s
  fs.writeFile d (join dirPath filename) content.bytes s

/-! ### Requests -/

inductive Request (δ : Type)
  | writeFile (d : δ) (relPath : String) (content : Bytes)
  | upload (d : δ) (dirPath filename : String) (content : Content)
  | extract (draws : ℕ → δ) (dirPath filename : String) (content : Content)
  | rollback (d : δ) (relPath versionId : String)
  | delete (d : δ) (relPath : String)
  | makeDir (d : δ) (relPath : String)
  | rename (d : δ) (fromPath toPath : String)

/-- A use case that changes the store once, or not at all. -/
def once (s : σ) : Except FileError σ → Except FileError Unit × σ
  | .error e => (.error e, s)
  | .ok s' => (.ok (), s')

/-- A request on a server at rest: the answer, and the store after it. -/
def Request.run (serverType : ServerType) (caps : Caps) (s : σ) : Request δ → Except FileError Unit × σ
  | .writeFile d relPath content => once s (Files.writeFile fs serverType d relPath content s)
  | .upload d dirPath filename content => once s (uploadFile fs serverType caps d dirPath filename content s)
  | .extract draws dirPath filename content => Files.extract fs serverType caps draws dirPath filename content s
  | .rollback d relPath versionId => once s (rollbackFile fs d relPath versionId s)
  | .delete d relPath => once s (deleteFile fs serverType d relPath s)
  | .makeDir d relPath => once s (Files.makeDir fs d relPath s)
  | .rename d fromPath toPath => once s (renameFile fs serverType d fromPath toPath s)

end McServerDashboard.Files
