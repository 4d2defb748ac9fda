import McServerDashboard.Lib.PosixPath
import McServerDashboard.Storage.RelPath
import Mathlib.Data.List.DropRight

/-!
# The paths of the files API

* `RelPath.ofRaw`: the paths that Storage takes.
* `refuseDirAtRootProperties`, `refuseReservedRootName`, `guardContentDir`: the guards on a path.
* `join`, `checkEntryPath`: the paths of uploads and of archive members.
* **`parts_join`**, **`ofRaw_join`**: the path of a member below the upload's directory.
-/

namespace McServerDashboard

open Lib.Posix

variable {raw : String} {p : RelPath}

/-- `RelPath(raw)`. -/
def RelPath.ofRaw (raw : String) : Option RelPath :=
  if raw.toList.head? = some '/' then none
  else if h : ∀ part ∈ components raw, part ≠ ".." ∧ part.toList.all (!isControl ·) then
    some ⟨components raw, fun part hp =>
      ⟨(component_ok hp).1, (component_ok hp).2.1, (h part hp).1, (component_ok hp).2.2, (h part hp).2⟩⟩
  else none

theorem RelPath.ofRaw_eq_some : RelPath.ofRaw raw = some p ↔ raw.toList.head? ≠ some '/' ∧
    (∀ part ∈ components raw, part ≠ ".." ∧ part.toList.all (!isControl ·)) ∧ p.parts = components raw := by
  rw [RelPath.ofRaw]
  split_ifs with h1 h2
  · simp [h1]
  · rw [Option.some.injEq]
    constructor
    · rintro rfl
      exact ⟨h1, h2, rfl⟩
    · rintro ⟨-, -, hp⟩
      cases p
      simp only at hp
      simp only [hp]
  · exact ⟨nofun, fun h => absurd h.2.1 h2⟩

/-- A path that Storage takes has the components of the text. -/
theorem RelPath.purePath_of_ofRaw (h : RelPath.ofRaw raw = some p) : purePath raw = ⟨false, p.parts⟩ := by
  obtain ⟨hrel, -, hparts⟩ := RelPath.ofRaw_eq_some.mp h
  simp [purePath, hrel, hparts]

namespace Files

/-! ## Errors -/

/-- The reasons of `InvalidFilePathError`. -/
inductive Reason
  | invalidPath
  | symlinkRefused
  | nameTooLong
  | platformManagedPath
  | reservedName
  deriving DecidableEq

/-- What the use cases and the file store raise. -/
inductive FileError
  | invalidFilePath (relPath : String) (reason : Reason)
  | fileTooLarge (size : ℕ)
  | platformManagedKey (key : List (Fin 0x110000))
  | contentDirProtected (relPath : String)
  | fileAlreadyExists (relPath : String)
  | serverFileNotFound
  | invalidVersionId (raw : String)
  /-- An error that no route maps. -/
  | unmapped
  deriving DecidableEq

/-! ## The guards -/

def propertiesRelPath : String := "server.properties"

def generationMarkerPrefix : String := ".mcsd_generation"

inductive ServerType
  | vanilla
  | paper
  | fabric
  | forge
  deriving DecidableEq

/-- `content_dir_for_server_type`; a vanilla server has none. -/
def contentDirForServerType : ServerType → Option String
  | .fabric | .forge => some "mods"
  | .paper => some "plugins"
  | .vanilla => none

/-- `_guard_content_dir`. -/
def guardContentDir (serverType : ServerType) (relPath : String) : Except FileError Unit :=
  match contentDirForServerType serverType with
  | none => .ok ()
  | some contentDir =>
    match purePath relPath with
    | ⟨false, [part]⟩ | ⟨false, [part, _]⟩ =>
      if part = contentDir then .error (.contentDirProtected relPath) else .ok ()
    | _ => .ok ()

/-- `_is_root_server_properties`. -/
def isRootServerProperties (relPath : String) : Bool := purePath relPath = ⟨false, [propertiesRelPath]⟩

/-- `_refuse_dir_at_root_properties` of a path: the name itself, or a path below it. -/
def refuseDirAtRootProperties (relPath : String) (p : PurePath) : Except FileError Unit :=
  if p.absolute = false ∧ p.parts.head? = some propertiesRelPath then
    .error (.invalidFilePath relPath .platformManagedPath)
  else .ok ()

/-- `str(PurePosixPath(raw).parent)`. -/
def strParent (raw : String) : String :=
  let p := (purePath raw).parent
  let text := "/".intercalate p.parts
  if p.absolute then "/" ++ text else if p.parts = [] then "." else text

/-- The guard on the directories that a write creates. -/
def refuseDirAtRootPropertiesOfParent (relPath : String) : Except FileError Unit :=
  refuseDirAtRootProperties (strParent relPath) (purePath relPath).parent

/-- `_refuse_reserved_root_name`. -/
def refuseReservedRootName (relPath : String) : Except FileError Unit :=
  match purePath relPath with
  | ⟨false, part :: _⟩ =>
    if generationMarkerPrefix.toList <+: part.toList then .error (.invalidFilePath relPath .reservedName) else .ok ()
  | _ => .ok ()

/-! ### What the guards let through -/

section

variable (hp : RelPath.ofRaw raw = some p)

include hp

theorem isRootServerProperties_iff : isRootServerProperties raw ↔ p.parts = [propertiesRelPath] := by
  simp [isRootServerProperties, RelPath.purePath_of_ofRaw hp]

theorem of_refuseDirAtRootProperties (h : refuseDirAtRootProperties raw (purePath raw) = .ok ()) :
    p.parts.head? ≠ some propertiesRelPath := by
  simp only [refuseDirAtRootProperties, RelPath.purePath_of_ofRaw hp, true_and] at h
  split_ifs at h with hne
  exact hne

/-- A path below the name is refused; the name itself is not. -/
theorem of_refuseDirAtRootPropertiesOfParent (h : refuseDirAtRootPropertiesOfParent raw = .ok ())
    (hhead : p.parts.head? = some propertiesRelPath) : p.parts = [propertiesRelPath] := by
  simp only [refuseDirAtRootPropertiesOfParent, refuseDirAtRootProperties, PurePath.parent, RelPath.purePath_of_ofRaw hp,
    true_and] at h
  split_ifs at h with hne
  match hparts : p.parts with
  | [] => simp [hparts] at hhead
  | [x] => simpa [hparts] using hhead
  | x :: y :: rest =>
    rw [hparts] at hhead hne
    exact absurd hhead hne

theorem of_refuseReservedRootName {name : String} (h : refuseReservedRootName raw = .ok ())
    (hhead : p.parts.head? = some name) : ¬ generationMarkerPrefix.toList <+: name.toList := by
  unfold refuseReservedRootName at h
  rw [RelPath.purePath_of_ofRaw hp] at h
  cases hparts : p.parts with
  | nil => simp [hparts] at hhead
  | cons x rest =>
    rw [hparts] at hhead h
    cases hhead
    simp only at h
    split_ifs at h with hne
    exact hne

end

/-! ## The paths of uploads -/

/-- `_join`. -/
def join (dirPath name : String) : String :=
  let base := if dirPath = "" ∨ dirPath = "." then "" else String.ofList (dirPath.toList.rdropWhile (· = '/'))
  if base = "" then name else base ++ "/" ++ name

/-- `_check_entry_path`. -/
def checkEntryPath (name : String) : Except FileError Unit :=
  if name.toList.head? = some '/' ∨ ['.', '.'] ∈ splitSlash name.toList then .error (.invalidFilePath name .invalidPath)
  else .ok ()

variable {dirPath name : String} {d : RelPath}

/-- The base of a join has the components of the directory. -/
theorem join_cases (name : String) (hd : RelPath.ofRaw dirPath = some d) : (join dirPath name = name ∧ d.parts = []) ∨
    ∃ base, join dirPath name = base ++ "/" ++ name ∧ components base = d.parts ∧ base.toList ≠ [] ∧
      base.toList.head? = dirPath.toList.head? := by
  obtain ⟨hrel, -, hparts⟩ := RelPath.ofRaw_eq_some.mp hd
  by_cases hroot : dirPath = "" ∨ dirPath = "."
  · refine .inl ⟨by simp [join, hroot], hparts.trans ?_⟩
    rcases hroot with rfl | rfl <;> decide
  have hbase : String.ofList (dirPath.toList.rdropWhile (· = '/')) ≠ "" := by
    intro he
    have hnil : dirPath.toList.rdropWhile (· = '/') = [] := by simpa using congrArg String.toList he
    have hall := List.rdropWhile_eq_nil_iff.mp hnil
    cases hl : dirPath.toList with
    | nil => exact hroot (.inl (by simpa using congrArg String.ofList hl))
    | cons c cs =>
      rw [hl] at hall hrel
      exact hrel (by simpa using hall c List.mem_cons_self)
  refine .inr ⟨String.ofList (dirPath.toList.rdropWhile (· = '/')), ?_, ?_, ?_, ?_⟩
  · rw [join, if_neg hroot]
    simp only [if_neg hbase]
  · rw [components, String.toList_ofList, pieces_rdropWhile, hparts]
    rfl
  · exact fun h => hbase (by simpa using congrArg String.ofList h)
  · obtain ⟨t, ht⟩ := List.rdropWhile_prefix (p := (· = '/')) (l := dirPath.toList)
    have hne : dirPath.toList.rdropWhile (· = '/') ≠ [] := fun h => hbase (by rw [h])
    rw [String.toList_ofList]
    conv_rhs => rw [← ht]
    rw [List.head?_append_of_ne_nil _ hne]

/-- **The components of a member's target.** -/
theorem parts_join (hd : RelPath.ofRaw dirPath = some d) : components (join dirPath name) = d.parts ++ components name := by
  rcases join_cases name hd with ⟨hj, hnil⟩ | ⟨base, hj, hb, -⟩
  · rw [hj, hnil, List.nil_append]
  · rw [hj, components_slash, hb]

/-- No component of a path that has passed is `..`. -/
theorem of_checkEntryPath (h : checkEntryPath name = .ok ()) :
    name.toList.head? ≠ some '/' ∧ ∀ part ∈ components name, part ≠ ".." := by
  unfold checkEntryPath at h
  split_ifs at h with hbad
  rw [not_or] at hbad
  refine ⟨hbad.1, fun part hp he => hbad.2 ?_⟩
  obtain ⟨w, hw, rfl⟩ := List.mem_map.mp hp
  have hdots : w = ['.', '.'] := by simpa using congrArg String.toList he
  exact hdots ▸ (List.mem_filter.mp hw).1

/-- **Storage takes the target of a member that has passed unless a control character is in its name.** -/
theorem ofRaw_join (hd : RelPath.ofRaw dirPath = some d) (hname : checkEntryPath name = .ok ()) :
    (RelPath.ofRaw (join dirPath name)).isSome ↔ ∀ part ∈ components name, part.toList.all (!isControl ·) := by
  obtain ⟨hrel, hdir, hparts⟩ := RelPath.ofRaw_eq_some.mp hd
  obtain ⟨hnrel, hdots⟩ := of_checkEntryPath hname
  have habs : (join dirPath name).toList.head? ≠ some '/' := by
    rcases join_cases name hd with ⟨hj, -⟩ | ⟨base, hj, -, hne, hhead⟩
    · rwa [hj]
    · rw [hj, String.append_assoc, String.toList_append, List.head?_append_of_ne_nil _ hne, hhead]
      exact hrel
  rw [Option.isSome_iff_exists]
  constructor
  · rintro ⟨p, hp⟩ part hpart
    obtain ⟨-, hall, -⟩ := RelPath.ofRaw_eq_some.mp hp
    rw [parts_join hd] at hall
    exact (hall part (List.mem_append_right _ hpart)).2
  · intro hall
    have hparts' : ∀ part ∈ components (join dirPath name), part ≠ ".." ∧ part.toList.all (!isControl ·) := by
      intro part hpart
      rw [parts_join hd, hparts] at hpart
      rcases List.mem_append.mp hpart with h | h
      · exact hdir part h
      · exact ⟨hdots part h, hall part h⟩
    have hsome : (RelPath.ofRaw (join dirPath name)).isSome := by
      rw [RelPath.ofRaw, if_neg habs, dif_pos hparts']
      rfl
    exact Option.isSome_iff_exists.mp hsome

end Files

end McServerDashboard
