import McServerDashboard.Lib.Dict
import McServerDashboard.Lib.Texts
import McServerDashboard.Properties.Escapes

/-!
# The manifest of a jar

At an upload a jar is searched for the descriptors of its loader, which `zipfile`, `json` and `tomllib` read. Each of
them has its exceptions.

* `Value`: what a parser of JSON or TOML builds; `Libraries`: the two parsers, and what they may raise.
* `parsePluginYaml`: the targeted parser of `plugin.yml`.
* `parseFabric`, `parseQuilt`, `parseForgeLike`, `parsePaper`; `parseManifest`, `parseManifestAtIngest`.
* `expected`: the first descriptor that gives a manifest, or the empty one.
* **`parse_manifest_at_ingest_tolerates`**: exactly when this is the answer.
-/

namespace McServerDashboard.Plugins.Manifest

open Lib Lib.Properties Properties

/-! ## Values and exceptions -/

inductive Value
  | null
  | bool (b : Bool)
  | int (n : ℤ)
  | float (value : Option ℚ)
  | str (s : Str)
  /-- A date or a time of TOML. -/
  | datetime
  | list (items : List Value)
  | dict (members : List (Str × Value))

namespace Value

def str? : Value → Option Str
  | str s => some s
  | _ => none

/-- A string that is not empty. -/
def text? (v : Value) : Option Str := v.str?.filter (· ≠ [])

def list? : Value → Option (List Value)
  | list items => some items
  | _ => none

def dict? : Value → Option (List (Str × Value))
  | dict members => some members
  | _ => none

/-- `bool(v)`. -/
def truthy : Value → Bool
  | null => false
  | bool b => b
  | int n => n ≠ 0
  | float value => value ≠ some 0
  | str s => s ≠ []
  | datetime => true
  | list items => !items.isEmpty
  | dict members => !members.isEmpty

/-- Can the value be looked up in a set? -/
def hashable : Value → Bool
  | list _ | dict _ => false
  | _ => true

end Value

/-- What `zipfile` raises. -/
inductive ZipError
  | badZipFile
  | runtimeError
  | notImplementedError
  | eofError
  | zlibError
  deriving DecidableEq

/-- What `json.loads` and `tomllib.loads` raise. -/
inductive LoadsError
  /-- `JSONDecodeError`, or `TOMLDecodeError`. -/
  | decodeError
  /-- Another `ValueError`. -/
  | valueError
  | recursionError
  deriving DecidableEq

inductive Raised
  | invalidModJar (message : String)
  | zip (e : ZipError)
  | loads (e : LoadsError)
  | typeError
  deriving DecidableEq

structure Libraries where
  jsonLoads : Str → Except LoadsError Value
  /-- The table of a document. -/
  tomlLoads : Str → Except LoadsError (List (Str × Value))

/-! ## Manifests -/

structure Dependency where
  modIdentifier : Str
  versionRange : Str
  required : Bool
  conflict : Bool

inductive PluginSide
  | client
  | server
  | both
  deriving DecidableEq

structure ParsedManifest where
  modIdentifier : Str
  provides : List Str := []
  mcVersions : List Str := []
  dependencies : List Dependency := []
  side : PluginSide := .both

def ParsedManifest.empty : ParsedManifest := { modIdentifier := [] }

/-- `_FABRIC_RUNTIME_IDS`. -/
def fabricRuntimeIds : List Str := [str "minecraft", str "java", str "fabricloader", str "fabric"]

/-- `_FORGE_RUNTIME_IDS`. -/
def forgeRuntimeIds : List Str := [str "minecraft", str "forge", str "neoforge"]

/-- `_FORGE_CONFLICT_TYPES`. -/
def forgeConflictTypes : List Str := [str "incompatible", str "discouraged"]

/-- `_str_list`. -/
def strList : Option Value → List Str
  | some (.list items) => items.filterMap Value.text?
  | _ => []

/-- `_str_or_empty`. -/
def strOrEmpty (v : Option Value) : Str := (v.bind Value.str?).getD []

/-- `_as_dict`. -/
def asDict (v : Option Value) : List (Str × Value) := (v.bind Value.dict?).getD []

/-- `_fabric_range`. -/
def fabricRange : Option Value → Str
  | some (.str s) => s
  | some (.list items) => (str " || ").intercalate (items.filterMap Value.str?)
  | _ => []

/-- `_fabric_mc_versions`. -/
def fabricMcVersions : Option Value → List Str
  | some (.str s) => if s = [] then [] else [s]
  | some (.list items) => items.filterMap Value.text?
  | _ => []

/-- `_fabric_side`. -/
def fabricSide (environment : Option Value) : PluginSide :=
  match environment.bind Value.str? with
  | some s => if s = str "client" then .client else if s = str "server" then .server else .both
  | none => .both

/-- `_quilt_provides`. -/
def quiltProvides : Option Value → List Str
  | some (.list items) => items.filterMap fun
    | .str s => some s
    | .dict members => (members.lookup (str "id")).bind Value.str?
    | _ => none
  | _ => []

/-! ## Fabric and Quilt -/

/-- The dependencies of a section. -/
def fabricDeps (deps : List (Str × Value)) (required conflict : Bool) : List Dependency :=
  (deps.filter (·.1 ∉ fabricRuntimeIds)).map fun (id, range) => ⟨id, fabricRange (some range), required, conflict⟩

/-- `_parse_fabric`, of what `json` has read. -/
def fabricManifest (data : Value) : Option ParsedManifest := do
  let data ← data.dict?
  let modId ← (data.lookup (str "id")).bind Value.text?
  let depends := asDict (data.lookup (str "depends"))
  let recommends := asDict (data.lookup (str "recommends"))
  let breaks := asDict (data.lookup (str "breaks"))
  return {
    modIdentifier := modId
    provides := strList (data.lookup (str "provides"))
    mcVersions := fabricMcVersions (depends.lookup (str "minecraft"))
    dependencies := fabricDeps depends true false ++ fabricDeps recommends false false ++ fabricDeps breaks false true
    side := fabricSide (data.lookup (str "environment")) }

/-- The entries of a list that are tables with an id. -/
def withId (key : Str) (entries : Option Value) : List (Str × List (Str × Value)) :=
  ((entries.bind Value.list?).getD []).filterMap fun entry => do
    let entry ← entry.dict?
    let id ← (entry.lookup key).bind Value.text?
    return (id, entry)

/-- `_parse_quilt`, of what `json` has read. -/
def quiltManifest (data : Value) : Option ParsedManifest := do
  let data ← data.dict?
  let loader ← (data.lookup (str "quilt_loader")).bind Value.dict?
  let modId ← (loader.lookup (str "id")).bind Value.text?
  let depends := withId (str "id") (loader.lookup (str "depends"))
  let breaks := withId (str "id") (loader.lookup (str "breaks"))
  -- the last entry for the game
  let minecraft := depends.reverse.find? (·.1 = str "minecraft")
  return {
    modIdentifier := modId
    provides := quiltProvides (loader.lookup (str "provides"))
    mcVersions := (minecraft.map fun entry => fabricMcVersions (entry.2.lookup (str "versions"))).getD []
    dependencies :=
      ((depends.filter (·.1 ∉ fabricRuntimeIds)).map fun (id, entry) =>
        ⟨id, fabricRange (entry.lookup (str "versions")), !(entry.lookup (str "optional")).any Value.truthy, false⟩) ++
      ((breaks.filter (·.1 ∉ fabricRuntimeIds)).map fun (id, entry) =>
        ⟨id, fabricRange (entry.lookup (str "versions")), false, true⟩) }

/-- What `json` has read, or nothing where it cannot. -/
def parseJson (libs : Libraries) (manifest : Value → Option ParsedManifest) (raw : Str) :
    Except Raised (Option ParsedManifest) :=
  match libs.jsonLoads raw with
  | .ok data => .ok (manifest data)
  | .error .decodeError => .ok none
  | .error e => .error (.loads e)

/-- `_parse_fabric`. -/
def parseFabric (libs : Libraries) : Str → Except Raised (Option ParsedManifest) := parseJson libs fabricManifest

/-- `_parse_quilt`. -/
def parseQuilt (libs : Libraries) : Str → Except Raised (Option ParsedManifest) := parseJson libs quiltManifest

/-! ## Forge and NeoForge -/

/-- `_forge_required`. -/
def forgeRequired (entry : List (Str × Value)) : Bool :=
  match entry.lookup (str "mandatory") with
  | some mandatory => mandatory.truthy
  | none =>
    match entry.lookup (str "type") with
    | some type => type.str? ≠ some (str "optional")
    | none => true

/-- `_forge_conflict`; what cannot be hashed is a `TypeError`. -/
def forgeConflict (entry : List (Str × Value)) : Except Raised Bool :=
  match entry.lookup (str "type") with
  | none => .ok false
  | some type => if type.hashable then .ok (type.str?.any (· ∈ forgeConflictTypes)) else .error .typeError

/-- An entry of the dependencies. -/
def forgeDep (id : Str) (entry : List (Str × Value)) : Except Raised Dependency := do
  let range := strOrEmpty (entry.lookup (str "versionRange"))
  if ← forgeConflict entry then return ⟨id, range, false, true⟩
  return ⟨id, range, forgeRequired entry, false⟩

/-- The id of the first mod. -/
def forgeModId (data : List (Str × Value)) : Option Str := do
  let mods ← (data.lookup (str "mods")).bind Value.list?
  let first ← mods.head?.bind Value.dict?
  (first.lookup (str "modId")).bind Value.text?

/-- What the first mod depends on. -/
def forgeEntries (data : List (Str × Value)) (modId : Str) : List (Str × List (Str × Value)) :=
  withId (str "modId") ((asDict (data.lookup (str "dependencies"))).lookup modId)

/-- `_parse_forge_like`, of what `tomllib` has read. -/
def forgeManifest (data : List (Str × Value)) : Except Raised (Option ParsedManifest) :=
  match forgeModId data with
  | none => .ok none
  | some modId => do
    let entries := forgeEntries data modId
    let minecraft := entries.reverse.find? (·.1 = str "minecraft")
    let range := (minecraft.map fun entry => strOrEmpty (entry.2.lookup (str "versionRange"))).getD []
    let dependencies ← (entries.filter (·.1 ∉ forgeRuntimeIds)).mapM fun entry => forgeDep entry.1 entry.2
    return some {
      modIdentifier := modId
      mcVersions := if range = [] then [] else [range]
      dependencies }

/-- `_parse_forge_like`. -/
def parseForgeLike (libs : Libraries) (raw : Str) : Except Raised (Option ParsedManifest) :=
  match libs.tomlLoads raw with
  | .ok data => forgeManifest data
  | .error .decodeError => .ok none
  | .error e => .error (.loads e)

/-! ## Paper and Bukkit -/

def isQuote (c : CodePoint) : Bool := c = 34 || c = 39

/-- `_strip_inline_comment`, from the middle of a value: inside which quote, after a blank, and behind what. -/
def stripComment : Option CodePoint → Bool → Str → Str → Str
  | _, _, before, [] => before
  | some quote, _, before, c :: s =>
    stripComment (if c = quote then none else some quote) (isSpace c) (before ++ [c]) s
  | none, prevSpace, before, c :: s =>
    if isQuote c then stripComment (some c) (isSpace c) (before ++ [c]) s
    else if c = 35 ∧ prevSpace then rstrip before
    else stripComment none (isSpace c) (before ++ [c]) s

/-- `_strip_inline_comment`. -/
def stripInlineComment : Str → Str := stripComment none true []

/-- `_unquote`. -/
def unquote (value : Str) : Str :=
  if 2 ≤ value.length ∧ value.head? = value.getLast? ∧ value.head?.any isQuote then value.tail.dropLast else value

/-- `_parse_inline_list`, of a text in brackets. -/
def parseInlineList (rest : Str) : List Str :=
  ((rest.tail.dropLast.splitOn 44).map strip |>.filter (· ≠ [])).map unquote

/-- What a key of a `plugin.yml` has. -/
inductive YamlValue
  | scalar (s : Str)
  | items (items : List Str)

/-- The lines of a block list: its items, and what follows it. -/
def blockItems : List Str → List Str × List Str
  | [] => ([], [])
  | line :: lines =>
    let stripped := strip line
    if (str "- ").isPrefixOf stripped then
      let (items, rest) := blockItems lines
      (unquote (stripInlineComment (strip (stripped.drop 2))) :: items, rest)
    else if stripped = [] ∨ stripped.head? = some 35 then blockItems lines
    else ([], line :: lines)

theorem length_blockItems (lines : List Str) : (blockItems lines).2.length ≤ lines.length := by
  induction lines with
  | nil => exact Nat.le_refl 0
  | cons line lines ih =>
    rw [blockItems]
    split_ifs
    · exact Nat.le_succ_of_le ih
    · exact Nat.le_succ_of_le ih
    · exact Nat.le_refl _

/-- The lines of a `plugin.yml`, over what has been read. -/
def yamlLines (result : Dict Str YamlValue) : List Str → Dict Str YamlValue
  | [] => result
  | line :: lines =>
    let stripped := strip line
    if stripped = [] ∨ stripped.head? = some 35 ∨ line.head?.any isSpace ∨ 58 ∉ line then yamlLines result lines
    else
      let (key, value) := partition 58 line
      let rest := stripInlineComment (strip value)
      if rest ≠ [] then
        if rest.head? = some 91 ∧ rest.getLast? = some 93 then
          yamlLines (result.set (strip key) (.items (parseInlineList rest))) lines
        else yamlLines (result.set (strip key) (.scalar (unquote rest))) lines
      else
        match _h : blockItems lines with
        | ([], after) => yamlLines result after
        | (items, after) => yamlLines (result.set (strip key) (.items items)) after
termination_by lines => lines.length
decreasing_by
  all_goals
    try exact Nat.lt_succ_self _
  all_goals
    have hle := length_blockItems lines
    rw [_h] at hle
    exact Nat.lt_succ_of_le hle

/-- `_parse_plugin_yaml`. -/
def parsePluginYaml (raw : Str) : Dict Str YamlValue := yamlLines ∅ (splitlines raw)

/-- A scalar that is not empty. -/
def scalar? : Option YamlValue → Option Str
  | some (.scalar s) => if s = [] then none else some s
  | _ => none

/-- `_str_list`, of a list of strings. -/
def itemList : Option YamlValue → List Str
  | some (.items items) => items.filter (· ≠ [])
  | _ => []

/-- `_parse_paper`. -/
def parsePaper (raw : Str) : Option ParsedManifest := do
  let data := parsePluginYaml raw
  let name ← scalar? (data.get? (str "name"))
  return {
    modIdentifier := name
    mcVersions := (scalar? (data.get? (str "api-version"))).toList
    dependencies :=
      (itemList (data.get? (str "depend"))).map (⟨·, [], true, false⟩) ++
        (itemList (data.get? (str "softdepend"))).map (⟨·, [], false, false⟩)
    side := .server }

/-! ## The jar -/

def maxManifestBytes : ℕ := 2 * 1024 * 1024
def maxEntryCount : ℕ := 50000

/-- A member of the archive: the chunks that are read of it, and what is raised behind them. -/
structure ZipInfo where
  filename : Str
  chunks : List (List UInt8)
  failure : Option ZipError

def ZipInfo.isDir (info : ZipInfo) : Bool := info.filename.getLast? = some 47

/-- The bytes of a jar, as `zipfile` sees them. -/
structure Jar where
  /-- `is_zipfile`. -/
  isZip : Bool
  /-- The members, or what is raised when the archive is opened. -/
  infolist : Except ZipError (List ZipInfo)

/-- The descriptors, from `_FABRIC_MANIFEST` to `_BUKKIT_MANIFEST`. -/
inductive Descriptor
  | fabric
  | quilt
  | forge
  | neoforge
  | paper
  | bukkit
  deriving DecidableEq

def Descriptor.path : Descriptor → Str
  | fabric => str "fabric.mod.json"
  | quilt => str "quilt.mod.json"
  | forge => str "META-INF/mods.toml"
  | neoforge => str "META-INF/neoforge.mods.toml"
  | paper => str "paper-plugin.yml"
  | bukkit => str "plugin.yml"

/-- `_FAMILY_MANIFESTS`. -/
def familyManifests (loader : Str) : Option (List Descriptor) :=
  if loader = str "fabric" then some [.fabric, .quilt]
  else if loader = str "forge" then some [.neoforge, .forge]
  else if loader = str "paper" then some [.paper, .bukkit]
  else none

/-- `_PARSERS`. -/
def Descriptor.parse (libs : Libraries) : Descriptor → Str → Except Raised (Option ParsedManifest)
  | fabric, raw => parseFabric libs raw
  | quilt, raw => parseQuilt libs raw
  | forge, raw | neoforge, raw => parseForgeLike libs raw
  | paper, raw | bukkit, raw => .ok (parsePaper raw)

/-- The loop of `_read_entry_chunked`, after so many bytes. -/
def readChunks (failure : Option ZipError) : ℕ → List (List UInt8) → Except Raised (List UInt8)
  | _, [] =>
    match failure with
    | none => .ok []
    | some e => .error (.zip e)
  | total, chunk :: chunks =>
    if chunk = [] then .ok []
    else if maxManifestBytes < total + chunk.length then .error (.invalidModJar "decompressed size exceeds limit")
    else (readChunks failure (total + chunk.length) chunks).map (chunk ++ ·)

/-- `_read_entry_chunked`: a name stands for the last member that has it. -/
def readEntryChunked (infos : List ZipInfo) (info : ZipInfo) : Except Raised Str :=
  let entry := (infos.reverse.find? (·.filename = info.filename)).getD info
  (readChunks entry.failure 0 entry.chunks).map decodeReplace

/-- The members that are read. -/
def wanted (manifests : List Descriptor) (infos : List ZipInfo) : List ZipInfo :=
  infos.filter fun info => !info.isDir && info.filename ∈ manifests.map Descriptor.path

/-- The texts of the descriptors. -/
def readNames (manifests : List Descriptor) (infos : List ZipInfo) : Except Raised (Dict Str Str) :=
  (wanted manifests infos).foldlM
    (fun names info => return names.set info.filename (← readEntryChunked infos info)) ∅

/-- The first descriptor that gives a manifest. -/
def firstManifest (libs : Libraries) (names : Dict Str Str) : List Descriptor → Except Raised ParsedManifest
  | [] => .ok .empty
  | manifest :: manifests =>
    match names.get? manifest.path with
    | none => firstManifest libs names manifests
    | some raw => do
      match ← manifest.parse libs raw with
      | none => firstManifest libs names manifests
      | some result => return result

/-- `parse_manifest`. -/
def parseManifest (libs : Libraries) (jar : Jar) (serverType : Str) : Except Raised ParsedManifest :=
  match familyManifests serverType with
  | none => .ok .empty
  | some manifests =>
    if !jar.isZip then .error (.invalidModJar "not a valid jar (zip)")
    else
      let names : Except Raised (Dict Str Str) :=
        match jar.infolist with
        | .error e => .error (.zip e)
        | .ok infos =>
          if maxEntryCount < infos.length then .error (.invalidModJar "too many entries")
          else readNames manifests infos
      match names with
      | .error (.zip .badZipFile) => .error (.invalidModJar "corrupt jar (zip)")
      | .error e => .error e
      | .ok names => firstManifest libs names manifests

/-- `parse_manifest_at_ingest`. -/
def parseManifestAtIngest (libs : Libraries) (jar : Jar) (loader : Str) : Except Raised ParsedManifest :=
  match parseManifest libs jar loader with
  | .error (.invalidModJar _) => .ok .empty
  | result => result

/-! ## What is expected -/

/-- The texts of the descriptors, if the archive can be read. -/
def Jar.texts (jar : Jar) (manifests : List Descriptor) : Option (Dict Str Str) :=
  if jar.isZip then
    match jar.infolist with
    | .error _ => none
    | .ok infos => if maxEntryCount < infos.length then none else (readNames manifests infos).toOption
  else none

/-- The manifest of a descriptor, if it can be parsed and has an identity. -/
def Descriptor.manifest? (libs : Libraries) (d : Descriptor) (raw : Str) : Option ParsedManifest :=
  (d.parse libs raw).toOption.join

/-- The first descriptor of the family that gives a manifest; else, and of an archive that cannot be read, the empty
one. -/
def expected (libs : Libraries) (jar : Jar) (loader : Str) : ParsedManifest :=
  ((familyManifests loader).bind fun manifests => (jar.texts manifests).bind fun names =>
    manifests.findSome? fun d => (names.get? d.path).bind (d.manifest? libs)).getD .empty

/-! ## What is tolerated -/

/-- No library raises on the text of a descriptor, but for its decode error; and no type of a dependency is looked up
that has no hash. -/
def Digestible (libs : Libraries) : Descriptor → Str → Prop
  | .fabric, raw | .quilt, raw => ∀ e, libs.jsonLoads raw = .error e → e = .decodeError
  | .forge, raw | .neoforge, raw =>
    (∀ e, libs.tomlLoads raw = .error e → e = .decodeError) ∧
      ∀ data modId, libs.tomlLoads raw = .ok data → forgeModId data = some modId →
        ∀ x ∈ forgeEntries data modId, x.1 ∉ forgeRuntimeIds → ∀ type, x.2.lookup (str "type") = some type →
          type.hashable = true
  | .paper, _ | .bukkit, _ => True

/-- The first member that cannot be read is a `BadZipFile`, or too large. -/
def ReadsTolerated (infos : List ZipInfo) : List ZipInfo → Prop
  | [] => True
  | info :: rest =>
    match readEntryChunked infos info with
    | .ok _ => ReadsTolerated infos rest
    | .error e => ∀ e', e = .zip e' → e' = .badZipFile

/-- The descriptors are digestible, up to the first that gives a manifest. -/
def ParsesTolerated (libs : Libraries) (names : Dict Str Str) : List Descriptor → Prop
  | [] => True
  | d :: ds =>
    match names.get? d.path with
    | none => ParsesTolerated libs names ds
    | some raw => Digestible libs d raw ∧ (d.manifest? libs raw = none → ParsesTolerated libs names ds)

/-- What the libraries raise of a jar. -/
structure Tolerated (libs : Libraries) (jar : Jar) (manifests : List Descriptor) : Prop where
  opens : ∀ e, jar.infolist = .error e → e = .badZipFile
  reads : ∀ infos, jar.infolist = .ok infos → infos.length ≤ maxEntryCount →
    ReadsTolerated infos (wanted manifests infos)
  parses : ∀ infos names, jar.infolist = .ok infos → infos.length ≤ maxEntryCount →
    readNames manifests infos = .ok names → ParsesTolerated libs names manifests

variable {libs : Libraries}

/-! ## What the parsers raise -/

theorem bind_isOk {α β ε : Type} {x : Except ε α} {f : α → Except ε β} :
    (∃ y, x >>= f = .ok y) ↔ ∃ a, x = .ok a ∧ ∃ y, f a = .ok y := by
  cases x with
  | error e => exact ⟨fun ⟨y, hy⟩ => (by cases hy), fun ⟨a, ha, _⟩ => (by cases ha)⟩
  | ok a =>
    refine ⟨fun h => ⟨a, rfl, h⟩, ?_⟩
    rintro ⟨a', ha', h⟩
    cases ha'
    exact h

theorem mapM_isOk {α β ε : Type} {f : α → Except ε β} {l : List α} :
    (∃ ys, l.mapM f = .ok ys) ↔ ∀ x ∈ l, ∃ y, f x = .ok y := by
  induction l with
  | nil => exact ⟨fun _ _ hx => (List.not_mem_nil hx).elim, fun _ => ⟨[], rfl⟩⟩
  | cons x l ih =>
    rw [List.forall_mem_cons, ← ih, List.mapM_cons, bind_isOk]
    refine ⟨fun ⟨y, hy, h⟩ => ⟨⟨y, hy⟩, ?_⟩, fun ⟨⟨y, hy⟩, h⟩ => ⟨y, hy, ?_⟩⟩
    · obtain ⟨ys, hys, -⟩ := bind_isOk.mp h
      exact ⟨ys, hys⟩
    · obtain ⟨ys, hys⟩ := h
      exact bind_isOk.mpr ⟨ys, hys, y :: ys, rfl⟩

theorem forgeConflict_isOk {entry : List (Str × Value)} :
    (∃ b, forgeConflict entry = .ok b) ↔ ∀ type, entry.lookup (str "type") = some type → type.hashable = true := by
  unfold forgeConflict
  cases entry.lookup (str "type") with
  | none => exact ⟨fun _ _ h => (by cases h), fun _ => ⟨_, rfl⟩⟩
  | some type => cases h : type.hashable <;> simp [h]

theorem forgeDep_isOk {id : Str} {entry : List (Str × Value)} :
    (∃ dep, forgeDep id entry = .ok dep) ↔ ∀ type, entry.lookup (str "type") = some type → type.hashable = true := by
  rw [← forgeConflict_isOk, forgeDep, bind_isOk]
  refine exists_congr fun b => and_iff_left ?_
  cases b <;> exact ⟨_, rfl⟩

theorem forgeManifest_isOk {data : List (Str × Value)} : (∃ r, forgeManifest data = .ok r) ↔
    ∀ modId, forgeModId data = some modId → ∀ x ∈ forgeEntries data modId, x.1 ∉ forgeRuntimeIds →
      ∀ type, x.2.lookup (str "type") = some type → type.hashable = true := by
  rw [forgeManifest]
  cases forgeModId data with
  | none => exact ⟨fun _ _ h => (by cases h), fun _ => ⟨none, rfl⟩⟩
  | some modId =>
    refine bind_isOk.trans ⟨fun hdeps m hm => ?_, fun h => ?_⟩
    · obtain ⟨deps, hdeps, -⟩ := hdeps
      have hall := mapM_isOk.mp ⟨deps, hdeps⟩
      cases hm
      intro x hx hruntime
      exact forgeDep_isOk.mp (hall x (List.mem_filter.mpr ⟨hx, decide_eq_true hruntime⟩))
    · obtain ⟨deps, hdeps⟩ := mapM_isOk.mpr fun x hx => forgeDep_isOk.mpr
        (h modId rfl x (List.mem_filter.mp hx).1 (of_decide_eq_true (List.mem_filter.mp hx).2))
      exact ⟨deps, hdeps, _, rfl⟩

theorem parseJson_isOk {manifest : Value → Option ParsedManifest} {raw : Str} :
    (∃ r, parseJson libs manifest raw = .ok r) ↔ ∀ e, libs.jsonLoads raw = .error e → e = .decodeError := by
  rw [parseJson]
  cases libs.jsonLoads raw with
  | ok data => exact ⟨fun _ _ h => (by cases h), fun _ => ⟨_, rfl⟩⟩
  | error e => cases e <;> simp

theorem parseForgeLike_isOk {raw : Str} : (∃ r, parseForgeLike libs raw = .ok r) ↔
    (∀ e, libs.tomlLoads raw = .error e → e = .decodeError) ∧
      ∀ data, libs.tomlLoads raw = .ok data → ∃ r, forgeManifest data = .ok r := by
  rw [parseForgeLike]
  cases libs.tomlLoads raw with
  | ok data => simp
  | error e => cases e <;> simp

/-- The parser of a descriptor raises nothing, exactly when its text is digestible. -/
theorem parse_isOk {d : Descriptor} {raw : Str} : (∃ r, d.parse libs raw = .ok r) ↔ Digestible libs d raw := by
  have hforge : (∃ r, parseForgeLike libs raw = .ok r) ↔ Digestible libs .forge raw := by
    rw [parseForgeLike_isOk]
    refine and_congr_right fun _ => forall_congr' fun data => ?_
    rw [forgeManifest_isOk]
    exact ⟨fun h modId hdata => h hdata modId, fun h hdata modId => h modId hdata⟩
  cases d with
  | fabric | quilt => exact parseJson_isOk
  | forge => exact hforge
  | neoforge => exact hforge
  | paper | bukkit => exact ⟨fun _ => trivial, fun _ => ⟨_, rfl⟩⟩

theorem bind_error {α β ε : Type} {x : Except ε α} {f : α → Except ε β} {e : ε} (h : x >>= f = .error e) :
    x = .error e ∨ ∃ a, x = .ok a ∧ f a = .error e := by
  cases x with
  | error e' =>
    cases h
    exact .inl rfl
  | ok a => exact .inr ⟨a, rfl, h⟩

theorem map_error {α β ε : Type} {x : Except ε α} {f : α → β} {e : ε} (h : x.map f = .error e) : x = .error e := by
  cases x with
  | error e' =>
    cases h
    rfl
  | ok a => cases h

theorem mapM_error {α β ε : Type} {f : α → Except ε β} {l : List α} {e : ε} (h : l.mapM f = .error e) :
    ∃ x ∈ l, f x = .error e := by
  induction l with
  | nil => cases h
  | cons x l ih =>
    rw [List.mapM_cons] at h
    rcases bind_error h with hx | ⟨y, -, hl⟩
    · exact ⟨x, List.mem_cons_self, hx⟩
    · rcases bind_error hl with hl | ⟨ys, -, h⟩
      · obtain ⟨x', hmem, hx'⟩ := ih hl
        exact ⟨x', List.mem_cons_of_mem x hmem, hx'⟩
      · cases h

theorem forgeDep_error {id : Str} {entry : List (Str × Value)} {e : Raised} (h : forgeDep id entry = .error e) :
    e = .typeError := by
  rcases bind_error h with hconflict | ⟨b, -, h⟩
  · unfold forgeConflict at hconflict
    split at hconflict
    · cases hconflict
    · split at hconflict <;> cases hconflict
      rfl
  · cases b <;> cases h

theorem forgeManifest_error {data : List (Str × Value)} {e : Raised} (h : forgeManifest data = .error e) :
    e = .typeError := by
  rw [forgeManifest] at h
  split at h
  · cases h
  · rcases bind_error h with hdeps | ⟨deps, -, h⟩
    · obtain ⟨x, -, hx⟩ := mapM_error hdeps
      exact forgeDep_error hx
    · cases h

/-- What a parser raises is not caught at an upload. -/
theorem parse_error {d : Descriptor} {raw : Str} {e : Raised} (h : d.parse libs raw = .error e) (message : String) :
    e ≠ .invalidModJar message := by
  have hjson : ∀ manifest, parseJson libs manifest raw = .error e → e ≠ .invalidModJar message := by
    intro manifest h
    rw [parseJson] at h
    split at h <;> cases h
    exact fun h => by cases h
  have hforge : parseForgeLike libs raw = .error e → e ≠ .invalidModJar message := by
    intro h
    rw [parseForgeLike] at h
    split at h
    · rw [forgeManifest_error h]
      exact fun h => by cases h
    · cases h
    · cases h
      exact fun h => by cases h
  cases d with
  | fabric | quilt => exact hjson _ h
  | forge => exact hforge h
  | neoforge => exact hforge h
  | paper => cases h
  | bukkit => cases h

/-! ## The first manifest -/

/-- The search of the descriptors falls through to the first that gives a manifest, if they are digestible so far. -/
theorem firstManifest_tolerated {names : Dict Str Str} {ds : List Descriptor} (h : ParsesTolerated libs names ds) :
    firstManifest libs names ds =
      .ok ((ds.findSome? fun d => (names.get? d.path).bind (d.manifest? libs)).getD .empty) := by
  induction ds with
  | nil => rfl
  | cons d ds ih =>
    rw [firstManifest, List.findSome?_cons]
    rw [ParsesTolerated] at h
    cases hget : names.get? d.path with
    | none =>
      rw [hget] at h
      exact ih h
    | some raw =>
      rw [hget] at h
      obtain ⟨r, hr⟩ := parse_isOk.mpr h.1
      have hmanifest : d.manifest? libs raw = r := by rw [Descriptor.manifest?, hr]; rfl
      rw [Option.bind_some, hmanifest]
      simp only [hr]
      cases r with
      | none => exact ih (h.2 hmanifest)
      | some result => rfl

/-- Else the search raises, and what it raises is not caught. -/
theorem firstManifest_raises {names : Dict Str Str} {ds : List Descriptor} (h : ¬ParsesTolerated libs names ds) :
    ∃ e, firstManifest libs names ds = .error e ∧ ∀ message, e ≠ .invalidModJar message := by
  induction ds with
  | nil => exact (h trivial).elim
  | cons d ds ih =>
    rw [firstManifest]
    rw [ParsesTolerated] at h
    cases hget : names.get? d.path with
    | none =>
      rw [hget] at h
      exact ih h
    | some raw =>
      rw [hget] at h
      simp only
      cases hparse : d.parse libs raw with
      | error e => exact ⟨e, rfl, parse_error hparse⟩
      | ok r =>
        have hdigest := parse_isOk.mp ⟨r, hparse⟩
        have hmanifest : d.manifest? libs raw = r := by rw [Descriptor.manifest?, hparse]; rfl
        cases r with
        | some result => exact (h ⟨hdigest, fun hnone => by rw [hmanifest] at hnone; cases hnone⟩).elim
        | none => exact ih fun hrest => h ⟨hdigest, fun _ => hrest⟩

/-! ## The reads of the members -/

/-- A member that cannot be read: what `zipfile` raises, or its size. -/
theorem readChunks_error {failure : Option ZipError} {total : ℕ} {chunks : List (List UInt8)} {e : Raised}
    (h : readChunks failure total chunks = .error e) : (∃ e', e = .zip e') ∨ ∃ message, e = .invalidModJar message := by
  induction chunks generalizing total with
  | nil =>
    cases failure with
    | none => cases h
    | some e' =>
      cases h
      exact .inl ⟨e', rfl⟩
  | cons chunk chunks ih =>
    rw [readChunks] at h
    split_ifs at h
    · cases h
      exact .inr ⟨_, rfl⟩
    · exact ih (map_error h)

theorem readEntryChunked_error {infos : List ZipInfo} {info : ZipInfo} {e : Raised}
    (h : readEntryChunked infos info = .error e) : (∃ e', e = .zip e') ∨ ∃ message, e = .invalidModJar message :=
  readChunks_error (map_error h)

section
variable {infos : List ZipInfo}

/-- The loop over the members to read. -/
def readStep (infos : List ZipInfo) (names : Dict Str Str) (info : ZipInfo) : Except Raised (Dict Str Str) :=
  return names.set info.filename (← readEntryChunked infos info)

/-- The members are read, or the first that cannot be raises. -/
theorem foldlM_readStep {l : List ZipInfo} {names : Dict Str Str} :
    (∃ names', l.foldlM (readStep infos) names = .ok names' ∧ ReadsTolerated infos l) ∨
      ∃ e, l.foldlM (readStep infos) names = .error e ∧
        ((∃ message, e = .invalidModJar message) ∧ ReadsTolerated infos l ∨
          ∃ e', e = .zip e' ∧ (ReadsTolerated infos l ↔ e' = .badZipFile)) := by
  induction l generalizing names with
  | nil => exact .inl ⟨names, rfl, trivial⟩
  | cons info l ih =>
    rw [List.foldlM_cons, ReadsTolerated, readStep]
    cases hread : readEntryChunked infos info with
    | ok text => exact ih
    | error e =>
      refine .inr ⟨e, rfl, ?_⟩
      rcases readEntryChunked_error hread with ⟨e', rfl⟩ | ⟨message, rfl⟩
      · refine .inr ⟨e', rfl, fun h => h e' rfl, ?_⟩
        rintro h e'' he
        cases he
        exact h
      · exact .inl ⟨⟨message, rfl⟩, fun e' he => by cases he⟩

theorem readNames_cases (ds : List Descriptor) (infos : List ZipInfo) :
    (∃ names, readNames ds infos = .ok names ∧ ReadsTolerated infos (wanted ds infos)) ∨
      ∃ e, readNames ds infos = .error e ∧
        ((∃ message, e = .invalidModJar message) ∧ ReadsTolerated infos (wanted ds infos) ∨
          ∃ e', e = .zip e' ∧ (ReadsTolerated infos (wanted ds infos) ↔ e' = .badZipFile)) :=
  foldlM_readStep

end

/-- What an upload does with a jar that has a central directory of so many members. -/
theorem parseManifest_of_infolist {jar : Jar} {loader : Str} {ds : List Descriptor} {infos : List ZipInfo}
    (hfamily : familyManifests loader = some ds) (hzip : jar.isZip = true) (hinfos : jar.infolist = .ok infos)
    (hcount : infos.length ≤ maxEntryCount) : parseManifest libs jar loader =
      match readNames ds infos with
      | .error (.zip .badZipFile) => .error (.invalidModJar "corrupt jar (zip)")
      | .error e => .error e
      | .ok names => firstManifest libs names ds := by
  simp only [parseManifest, hfamily, hzip, hinfos, Bool.not_true, Bool.false_eq_true, if_false, Nat.not_lt.mpr hcount]

theorem expected_of_texts {jar : Jar} {loader : Str} {ds : List Descriptor} {names : Dict Str Str}
    (hfamily : familyManifests loader = some ds) (htexts : jar.texts ds = some names) : expected libs jar loader =
      (ds.findSome? fun d => (names.get? d.path).bind (d.manifest? libs)).getD .empty := by
  rw [expected, hfamily, Option.bind_some, htexts, Option.bind_some]

theorem expected_of_unreadable {jar : Jar} {loader : Str} {ds : List Descriptor}
    (hfamily : familyManifests loader = some ds) (htexts : jar.texts ds = none) :
    expected libs jar loader = .empty := by
  rw [expected, hfamily, Option.bind_some, htexts, Option.bind_none, Option.getD_none]

theorem tolerated_of_error {jar : Jar} {ds : List Descriptor} {e : ZipError} (h : jar.infolist = .error e) :
    Tolerated libs jar ds ↔ e = .badZipFile := by
  have hnot : ∀ infos, jar.infolist ≠ .ok infos := fun infos hok => by
    rw [h] at hok
    cases hok
  refine ⟨fun ht => ht.opens e h, fun he => ⟨?_, fun infos hok => (hnot infos hok).elim,
    fun infos names hok => (hnot infos hok).elim⟩⟩
  rintro e' he'
  rw [h] at he'
  cases he'
  exact he

theorem tolerated_of_infolist {jar : Jar} {ds : List Descriptor} {infos : List ZipInfo} (h : jar.infolist = .ok infos) :
    Tolerated libs jar ds ↔ (infos.length ≤ maxEntryCount → ReadsTolerated infos (wanted ds infos) ∧
      ∀ names, readNames ds infos = .ok names → ParsesTolerated libs names ds) := by
  have hok : ∀ {infos'}, jar.infolist = .ok infos' → infos' = infos := fun h' => by
    rw [h] at h'
    cases h'
    rfl
  constructor
  · exact fun ht hcount => ⟨ht.reads infos h hcount, fun names => ht.parses infos names h hcount⟩
  · refine fun ht => ⟨fun e he => ?_, fun infos' h' => ?_, fun infos' names h' hcount => ?_⟩
    · rw [h] at he
      cases he
    · rw [hok h']
      exact fun hcount => (ht hcount).1
    · rw [hok h'] at hcount ⊢
      exact (ht hcount).2 names

/-! ## The uploads -/

/-- A jar whose members are listed: what its reads and its parsers may raise. -/
theorem ingest_of_infolist {jar : Jar} {loader : Str} {ds : List Descriptor} {infos : List ZipInfo}
    (hfamily : familyManifests loader = some ds) (hzip : jar.isZip = true) (hinfos : jar.infolist = .ok infos)
    (hcount : infos.length ≤ maxEntryCount) :
    parseManifestAtIngest libs jar loader = .ok (expected libs jar loader) ↔
      ReadsTolerated infos (wanted ds infos) ∧
        ∀ names, readNames ds infos = .ok names → ParsesTolerated libs names ds := by
  have htexts : jar.texts ds = (readNames ds infos).toOption := by
    simp only [Jar.texts, hzip, hinfos, if_true, if_neg (Nat.not_lt.mpr hcount)]
  rw [parseManifestAtIngest, parseManifest_of_infolist hfamily hzip hinfos hcount]
  rcases readNames_cases ds infos with ⟨names, hread, hreads⟩ | ⟨e, hread, hraised⟩
  · rw [hread] at htexts ⊢
    rw [expected_of_texts hfamily htexts]
    by_cases hparses : ParsesTolerated libs names ds
    · simp only [firstManifest_tolerated hparses, true_iff]
      exact ⟨hreads, fun names' h => by cases h; exact hparses⟩
    · obtain ⟨e, he, hcaught⟩ := firstManifest_raises hparses
      simp only [he]
      refine ⟨fun h => ?_, fun h => (hparses (h.2 names rfl)).elim⟩
      split at h
      · next message heq =>
        cases heq
        exact (hcaught message rfl).elim
      · cases h
  · rw [hread] at htexts ⊢
    rw [expected_of_unreadable hfamily htexts]
    rcases hraised with ⟨⟨message, rfl⟩, hreads⟩ | ⟨e', rfl, hreads⟩
    · exact ⟨fun _ => ⟨hreads, fun names h => by cases h⟩, fun _ => rfl⟩
    · rw [hreads]
      cases e' with
      | badZipFile => exact ⟨fun _ => ⟨rfl, fun names h => by cases h⟩, fun _ => rfl⟩
      | runtimeError | notImplementedError | eofError | zlibError =>
        exact ⟨fun h => (by cases h), fun h => (by cases h.1)⟩

/-- A jar that cannot be opened, or has too many members. -/
theorem ingest_of_unlisted {jar : Jar} {loader : Str} {ds : List Descriptor}
    (hfamily : familyManifests loader = some ds) (hzip : jar.isZip = true)
    (hinfos : ∀ infos, jar.infolist = .ok infos → maxEntryCount < infos.length) :
    parseManifestAtIngest libs jar loader = .ok (expected libs jar loader) ↔ Tolerated libs jar ds := by
  rw [parseManifestAtIngest, parseManifest, hfamily, hzip]
  cases hlist : jar.infolist with
  | error e =>
    have htexts : jar.texts ds = none := by rw [Jar.texts, hzip, hlist]; rfl
    rw [tolerated_of_error hlist, expected_of_unreadable hfamily htexts]
    cases e <;> simp
  | ok infos =>
    have hcount := hinfos infos hlist
    have htexts : jar.texts ds = none := by simp only [Jar.texts, hzip, hlist, if_true, if_pos hcount]
    rw [tolerated_of_infolist hlist, expected_of_unreadable hfamily htexts]
    refine ⟨fun _ h => (Nat.not_lt.mpr h hcount).elim, fun _ => ?_⟩
    simp only [Bool.not_true, Bool.false_eq_true, if_false, if_pos hcount]

/-- At an upload a jar gives the manifest that is expected of it, exactly when its libraries raise no more of it than
what is caught. -/
theorem parse_manifest_at_ingest_tolerates (libs : Libraries) (jar : Jar) (loader : Str) :
    parseManifestAtIngest libs jar loader = .ok (expected libs jar loader) ↔
      ∀ manifests, familyManifests loader = some manifests → jar.isZip = true → Tolerated libs jar manifests := by
  cases hfamily : familyManifests loader with
  | none =>
    refine ⟨fun _ _ h => (by cases h), fun _ => ?_⟩
    rw [parseManifestAtIngest, parseManifest, expected, hfamily]
    rfl
  | some ds =>
    have hds : (∀ manifests, some ds = some manifests → jar.isZip = true → Tolerated libs jar manifests) ↔
        (jar.isZip = true → Tolerated libs jar ds) := by
      simp only [Option.some.injEq, forall_eq']
    rw [hds]
    cases hzip : jar.isZip with
    | false =>
      have htexts : jar.texts ds = none := by rw [Jar.texts, hzip]; rfl
      refine ⟨fun _ h => (by cases h), fun _ => ?_⟩
      rw [expected_of_unreadable hfamily htexts, parseManifestAtIngest, parseManifest, hfamily, hzip]
      rfl
    | true =>
      rw [forall_prop_of_true rfl]
      by_cases hlist : ∃ infos, jar.infolist = .ok infos ∧ infos.length ≤ maxEntryCount
      · obtain ⟨infos, hinfos, hcount⟩ := hlist
        rw [ingest_of_infolist hfamily hzip hinfos hcount, tolerated_of_infolist hinfos, forall_prop_of_true hcount]
      · exact ingest_of_unlisted hfamily hzip fun infos hinfos =>
          Nat.lt_of_not_le fun hcount => hlist ⟨infos, hinfos, hcount⟩

/-- Parsers that know one document: a mod `a` of Forge, whose dependency on `b` has an empty list as its type. -/
def typedDependency : Libraries where
  jsonLoads _ := .error .decodeError
  tomlLoads _ := .ok [
    (str "mods", .list [.dict [(str "modId", .str (str "a"))]]),
    (str "dependencies", .dict [(str "a", .list [.dict [(str "modId", .str (str "b")), (str "type", .list [])]])])]

/-- A jar whose one descriptor is encrypted. -/
def encryptedJar : Jar where
  isZip := true
  infolist := .ok [⟨str "fabric.mod.json", [], some .runtimeError⟩]

/-- An encrypted descriptor is not the empty manifest, nor is a dependency whose type is a list passed over: both raise
out of the upload. -/
theorem encrypted_descriptor_raises :
    parseManifestAtIngest typedDependency encryptedJar (str "fabric") = .error (.zip .runtimeError) ∧
      expected typedDependency encryptedJar (str "fabric") = .empty ∧
      parseManifestAtIngest typedDependency ⟨true, .ok [⟨str "META-INF/mods.toml", [[0]], none⟩]⟩ (str "forge") =
        .error .typeError := by
  refine ⟨?_, ?_, ?_⟩
  · rfl
  · rfl
  · rfl

end McServerDashboard.Plugins.Manifest
