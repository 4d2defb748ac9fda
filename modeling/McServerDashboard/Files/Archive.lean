import McServerDashboard.Files.Paths

/-!
# The entries of an uploaded archive

An archive is what `zipfile` and `tarfile` read of the uploaded bytes: the members in order, each with the chunks that its
reader yields, and whether the reader fails after them.

* `archiveEntries`: the generator that both the dry run and the write pass go through; `Entries.all`, all of it.
* **`checked_archiveEntries`**: every entry that it yields has passed `checkEntryPath`.
-/

namespace McServerDashboard.Files

/-- How the reading of a member ends. -/
inductive Reading
  | whole
  /-- A `BadZipFile`. -/
  | badZip
  /-- Another failure. -/
  | failed
  deriving DecidableEq

/-- A member of a zip archive. -/
structure ZipInfo where
  filename : String
  externalAttr : ℕ
  chunks : List Bytes
  reading : Reading
  deriving DecidableEq

def ZipInfo.isDir (info : ZipInfo) : Bool := info.filename.toList.getLast? = some '/'

/-- The type bits of the unix mode. -/
def ZipInfo.fileType (info : ZipInfo) : ℕ := (info.externalAttr >>> 16) &&& 0o170000

inductive TarKind
  | regular
  | directory
  | special
  deriving DecidableEq

/-- A member of a tar archive. -/
structure TarMember where
  name : String
  kind : TarKind
  chunks : List Bytes
  broken : Bool
  deriving DecidableEq

/-- An uploaded body, and what it is as a zip and as a tar.gz archive, if it is one. -/
structure Content where
  bytes : Bytes
  zip : Option (List ZipInfo)
  tarGz : Option (List TarMember)
  deriving DecidableEq

/-- `_read_capped`. -/
def readCapped (maxBytes : ℕ) : ℕ → List Bytes → Except FileError Bytes
  | _, [] => .ok []
  | total, chunk :: rest =>
    let total := total + chunk.length
    if total > maxBytes then .error (.fileTooLarge total)
    else (readCapped maxBytes total rest).map (chunk ++ ·)

/-- A run of the generator: what it yields, and the error that it ends with, if it does. -/
structure Entries where
  yielded : List (String × Bytes)
  error : Option FileError
  deriving DecidableEq

namespace Entries

def cons (entry : String × Bytes) (es : Entries) : Entries := { es with yielded := entry :: es.yielded }

/-- `list(...)`. -/
def all (es : Entries) : Except FileError (List (String × Bytes)) :=
  match es.error with
  | some e => .error e
  | none => .ok es.yielded

end Entries

section

variable (maxBytes maxEntries : ℕ)

/-- `_zip_entries`, after `total` bytes and `count` members. -/
def zipEntries : ℕ → ℕ → List ZipInfo → Entries
  | _, _, [] => ⟨[], none⟩
  | total, count, info :: rest =>
    if info.isDir then zipEntries total count rest
    else if count + 1 > maxEntries then ⟨[], some (.fileTooLarge (count + 1))⟩
    else match checkEntryPath info.filename with
      | .error e => ⟨[], some e⟩
      | .ok () =>
        if info.fileType ≠ 0 ∧ info.fileType ≠ 0o100000 then ⟨[], some (.invalidFilePath info.filename .invalidPath)⟩
        else match readCapped maxBytes total info.chunks with
          | .error e => ⟨[], some e⟩
          | .ok data =>
            if info.reading ≠ .whole then ⟨[], some .unmapped⟩
            else (zipEntries (total + data.length) (count + 1) rest).cons (info.filename, data)

/-- `_tar_gz_entries`, after `total` bytes and `count` members. -/
def tarGzEntries : ℕ → ℕ → List TarMember → Entries
  | _, _, [] => ⟨[], none⟩
  | total, count, member :: rest =>
    if member.kind = .directory then tarGzEntries total count rest
    else if member.kind ≠ .regular then ⟨[], some (.invalidFilePath member.name .invalidPath)⟩
    else match checkEntryPath member.name with
      | .error e => ⟨[], some e⟩
      | .ok () =>
        if count + 1 > maxEntries then ⟨[], some (.fileTooLarge (count + 1))⟩
        else match readCapped maxBytes total member.chunks with
          | .error e => ⟨[], some e⟩
          | .ok data =>
            if member.broken then ⟨[], some .unmapped⟩
            else (tarGzEntries (total + data.length) (count + 1) rest).cons (member.name, data)

/-- `_archive_entries`. -/
def archiveEntries (filename : String) (content : Content) : Entries :=
  if ".zip".toList <:+ filename.toList then
    match content.zip with
    | none => ⟨[], some .unmapped⟩
    | some infos => zipEntries maxBytes maxEntries 0 0 infos
  else if ".tar.gz".toList <:+ filename.toList ∨ ".tgz".toList <:+ filename.toList then
    match content.tarGz with
    | none => ⟨[], some .unmapped⟩
    | some members => tarGzEntries maxBytes maxEntries 0 0 members
  else ⟨[], some (.invalidFilePath filename .invalidPath)⟩

/-! ## What the entries have passed -/

/-- Every entry that is yielded has a path that has passed. -/
def Entries.Checked (es : Entries) : Prop := ∀ entry ∈ es.yielded, checkEntryPath entry.1 = .ok ()

variable {maxBytes maxEntries}

theorem checked_nil (error : Option FileError) : Entries.Checked ⟨[], error⟩ := fun _ h => nomatch h

theorem Entries.Checked.cons {es : Entries} {name : String} {data : Bytes} (h : es.Checked)
    (hname : checkEntryPath name = .ok ()) : (es.cons (name, data)).Checked := by
  intro entry he
  rcases List.mem_cons.mp he with rfl | he
  · exact hname
  · exact h entry he

theorem checked_zipEntries (total count : ℕ) (infos : List ZipInfo) :
    (zipEntries maxBytes maxEntries total count infos).Checked := by
  induction infos generalizing total count with
  | nil => exact checked_nil _
  | cons info rest ih =>
    rw [zipEntries]
    split
    · exact ih total count
    split
    · exact checked_nil _
    split
    · exact checked_nil _
    next hname =>
    split
    · exact checked_nil _
    split
    · exact checked_nil _
    split
    · exact checked_nil _
    · exact (ih _ _).cons hname

theorem checked_tarGzEntries (total count : ℕ) (members : List TarMember) :
    (tarGzEntries maxBytes maxEntries total count members).Checked := by
  induction members generalizing total count with
  | nil => exact checked_nil _
  | cons member rest ih =>
    rw [tarGzEntries]
    split
    · exact ih total count
    split
    · exact checked_nil _
    split
    · exact checked_nil _
    next hname =>
    split
    · exact checked_nil _
    split
    · exact checked_nil _
    split
    · exact checked_nil _
    · exact (ih _ _).cons hname

/-- **Every entry that is yielded has passed.** -/
theorem checked_archiveEntries (filename : String) (content : Content) :
    (archiveEntries maxBytes maxEntries filename content).Checked := by
  unfold archiveEntries
  split_ifs
  · split
    · exact checked_nil _
    · exact checked_zipEntries _ _ _
  · split
    · exact checked_nil _
    · exact checked_tarGzEntries _ _ _
  · exact checked_nil _

end

end McServerDashboard.Files
