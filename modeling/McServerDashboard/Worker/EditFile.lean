import McServerDashboard.Lib.Interference
import McServerDashboard.Worker.UnpackTar
import Mathlib.Data.Nat.Digits.Defs

/-!
# The atomic write of an edited file

`handleEditFile` walks to the parent directory of its target and writes a new file beside the working sets, which a
rename then publishes. A descriptor is the file that it refers to; closing one has no effect but its error.

* `Fs`: the file system; `exec`: the system calls, any of which may fail.
* `openParentBeneath`: the walk to the parent; `safeJoin`: the path that is walked.
* `atomicWriteAt`: with `stageEditName`, `createEditStage`, `refuseExistingLeaf` and the clean-up.
* `Others`: what the others do not touch: the target, and the file that has not been published.
* **`atomicWriteAt_atomic`**: a failed write leaves the target and no staged name, a successful one leaves the new
  content, and no reader sees anything between; no link is followed on the way.
-/

namespace McServerDashboard.Worker.EditFile

open Lib

local instance (priority := 2000) lawfulBEq_name : @LawfulBEq (List UInt8) List.instBEq := inferInstance

/-! ## The file system -/

abbrev Ino := ℕ

abbrev Name := Lib.Tar.Bytes

/-- `Mode & S_IFMT`. -/
inductive Kind
  | reg
  | dir
  | lnk
  | other
  deriving DecidableEq

inductive Errno
  | noent
  | exist
  | loop
  | isdir
  | notdir
  | opnotsupp
  | other (n : ℕ)
  deriving DecidableEq

/-- The file system as a descriptor sees it. -/
structure Fs where
  kind : Ino → Kind
  data : Ino → List UInt8
  owner : Ino → ℕ × ℕ
  /-- Where a link leads to. -/
  link : Ino → Ino
  entry : Ino → Name → Option Ino
  /-- The files from here on do not exist. -/
  next : Ino
  /-- The file that the write has created and not published. -/
  own : Option Ino

/-- What a reader of the name sees. -/
def Fs.sees (w : Fs) (d : Ino) (n : Name) : Option (Kind × List UInt8) := (w.entry d n).map fun i => (w.kind i, w.data i)

def Fs.setEntry (w : Fs) (d : Ino) (n : Name) (i : Option Ino) : Fs :=
  { w with entry := Function.update w.entry d (Function.update (w.entry d) n i) }

/-- A new file. -/
def Fs.create (w : Fs) (k : Kind) : Fs :=
  { w with kind := Function.update w.kind w.next k, data := Function.update w.data w.next [], next := w.next + 1 }

inductive Call
  | mkdirat (d : Ino) (n : Name)
  | openDir (d : Ino) (n : Name) (nofollow : Bool)
  | openScratchRoot
  | lockWorkingSet
  | fstatat (d : Ino) (n : Name) (nofollow : Bool)
  | openTmpfile (d : Ino)
  | createExcl (d : Ino) (n : Name)
  | randUint64
  | write (fd : Ino) (b : List UInt8)
  | linkat (fd d : Ino) (n : Name)
  | fstat (fd : Ino)
  | fchown (fd : Ino) (owner : ℕ × ℕ)
  | fsync (fd : Ino)
  | close (fd : Ino)
  | renameat (d : Ino) (n : Name) (d' : Ino) (n' : Name)
  | unlinkat (d : Ino) (n : Name)

def Call.Ans : Call → Type
  | .mkdirat .. | .lockWorkingSet | .linkat .. | .fchown .. | .fsync _ | .close _ | .renameat .. | .unlinkat .. =>
    Except Errno Unit
  | .openDir .. | .openScratchRoot | .openTmpfile _ | .createExcl .. => Except Errno Ino
  | .fstatat .. => Except Errno Kind
  | .write .. => Except Errno ℕ
  | .fstat _ => Except Errno (ℕ × ℕ)
  | .randUint64 => ℕ

/-- A call works, with a number where the kernel has a choice, or it fails and has no effect. -/
inductive Fate
  | works (n : ℕ)
  | fails (e : Errno)

section Exec

variable (scratchDir : Ino)

/-- The calls that work; `scratchDir` is the scratch root. -/
def works (n : ℕ) (w : Fs) : (k : Call) → k.Ans × Fs
  | .mkdirat d name =>
    match w.entry d name with
    | some _ => (.error .exist, w)
    | none => (.ok (), (w.create .dir).setEntry d name (some w.next))
  | .openDir d name nofollow =>
    match w.entry d name with
    | none => (.error .noent, w)
    | some i =>
      match w.kind i with
      | .dir => (.ok i, w)
      | .lnk => if nofollow then (.error .loop, w) else (.ok (w.link i), w)
      | _ => (.error .notdir, w)
  | .openScratchRoot => (.ok scratchDir, w)
  | .lockWorkingSet => (.ok (), w)
  | .fstatat d name nofollow =>
    match w.entry d name with
    | none => (.error .noent, w)
    | some i => (.ok (if w.kind i = .lnk ∧ nofollow = false then w.kind (w.link i) else w.kind i), w)
  | .openTmpfile _ => (.ok w.next, { w.create .reg with own := some w.next })
  | .createExcl d name =>
    match w.entry d name with
    | some _ => (.error .exist, w)
    | none => (.ok w.next, { (w.create .reg).setEntry d name (some w.next) with own := some w.next })
  | .randUint64 => (n % 2 ^ 64, w)
  | .write fd b => (.ok (min n b.length), { w with data := Function.update w.data fd (w.data fd ++ b.take n) })
  | .linkat fd d name =>
    match w.entry d name with
    | some _ => (.error .exist, w)
    | none => (.ok (), w.setEntry d name (some fd))
  | .fstat fd => (.ok (w.owner fd), w)
  | .fchown fd owner => (.ok (), { w with owner := Function.update w.owner fd owner })
  | .fsync _ => (.ok (), w)
  | .close _ => (.ok (), w)
  | .renameat d name d' name' =>
    match w.entry d name with
    | none => (.error .noent, w)
    | some i =>
      -- two names of one file stay as they are
      if w.entry d' name' = some i then (.ok (), w)
      else if (w.entry d' name').map w.kind = some .dir then (.error .isdir, w)
      else (.ok (), { (w.setEntry d name none).setEntry d' name' (some i) with own := none })
  | .unlinkat d name =>
    match w.entry d name with
    | none => (.error .noent, w)
    | some i => if w.kind i = .dir then (.error .isdir, w) else (.ok (), w.setEntry d name none)

def failed (e : Errno) : (k : Call) → k.Ans
  | .mkdirat .. | .lockWorkingSet | .linkat .. | .fchown .. | .fsync _ | .close _ | .renameat .. | .unlinkat .. =>
    .error e
  | .openDir .. | .openScratchRoot | .openTmpfile _ | .createExcl .. => .error e
  | .fstatat .. => .error e
  | .write .. => .error e
  | .fstat _ => .error e
  | .randUint64 => (0 : ℕ)

def exec (k : Call) : Fate → Fs → k.Ans × Fs
  | .works n, w => works scratchDir n w k
  | .fails e, w => (failed e k, w)

end Exec

abbrev Sys := Prog Call Call.Ans

def sys (k : Call) : Sys k.Ans := .call k .ret

/-! ## The walk -/

inductive PathError
  | absolute
  | escape
  | root
  deriving DecidableEq

/-- The components below the working-set root. -/
def safeJoin (name : Name) : Except PathError (List Name) :=
  if [Archive.slash] <+: name then .error .absolute
  else if Archive.dotdot ∈ name.splitOn Archive.slash then .error .escape
  else if Archive.components name = [] then .error .root
  else .ok (Archive.components name)

/-- The owner of the directory for what was created in it. -/
def inheritOwner (parentFd fd : Ino) : Sys (Except Errno Unit) := do
  match ← sys (.fstat parentFd) with
  | .error e => return .error e
  | .ok owner => sys (.fchown fd owner)

inductive WalkError
  | creatingRoot (e : Errno)
  | openRoot (e : Errno)
  | creating (comp : Name) (e : Errno)
  | settingOwner (comp : Name) (e : Errno)
  | viaSymlink (e : Errno)
  deriving DecidableEq

def WalkError.errno : WalkError → Errno
  | .creatingRoot e | .openRoot e | .creating _ e | .settingOwner _ e | .viaSymlink e => e

/-- The directory of the component, created where it is missing. -/
def openComponent (cur : Ino) (comp : Name) : Sys (Except WalkError Ino) := do
  match ← sys (.openDir cur comp true) with
  | .ok next => return .ok next
  | .error .noent =>
    match ← sys (.mkdirat cur comp) with
    | .error e => return .error (.creating comp e)
    | .ok () =>
      match ← sys (.openDir cur comp true) with
      | .error e => return .error (.viaSymlink e)
      | .ok next =>
        match ← inheritOwner cur next with
        | .error e => return .error (.settingOwner comp e)
        | .ok () => return .ok next
  | .error e => return .error (.viaSymlink e)

def walk : List Name → Ino → Sys (Except WalkError Ino)
  | [], cur => return .ok cur
  | comp :: dirs, cur => do
    match ← openComponent cur comp with
    | .error e => return .error e
    | .ok next => walk dirs next

/-- With `mkdir` set. -/
def openParentBeneath (scratchDir : Ino) (serverID : Name) (dirs : List Name) : Sys (Except WalkError Ino) := do
  match ← sys (.mkdirat scratchDir serverID) with
  | .ok () | .error .exist =>
    match ← sys (.openDir scratchDir serverID true) with
    | .error e => return .error (.openRoot e)
    | .ok rootFd => walk dirs rootFd
  | .error e => return .error (.creatingRoot e)

/-! ## The write -/

/-- A digit of `strconv.FormatUint`. -/
def digit (n : ℕ) : UInt8 := UInt8.ofNat (if n < 10 then 48 + n else 87 + n)

/-- `strconv.FormatUint(n, 36)`. -/
def formatUint (n : ℕ) : Name := if n = 0 then [digit 0] else ((Nat.digits 36 n).map digit).reverse

def editStagePrefix : Name := Lib.Tar.ascii ".edit-"

/-- A name that `place` found free; the names that were taken are as many as the tries before. -/
def stageEditName {α : Type} (place : Name → Sys (Except Errno α)) : ℕ → Sys (Except Errno (Name × α))
  | 0 => return .error .exist
  | tries + 1 => do
    let suffix ← sys .randUint64
    let name := editStagePrefix ++ formatUint suffix
    match ← place name with
    | .ok a => return .ok (name, a)
    | .error .exist => stageEditName place tries
    | .error e => return .error e

def stageTries : ℕ := 16

def createEditStage (stageFd : Ino) : Sys (Except Errno (Name × Ino)) :=
  stageEditName (fun n => sys (.createExcl stageFd n)) stageTries

inductive EditError
  | errno (e : Errno)
  | isDir
  | create (e : Errno)
  | write (e : Errno)
  | unexpectedEOF
  | link (e : Errno)
  | settingOwner (e : Errno)
  | sync (e : Errno)
  | close (e : Errno)
  | rename (old : Name) (e : Errno)
  | publishedNotDurable (parent stage : Option Errno)
  deriving DecidableEq

def refuseExistingLeaf (parentFd : Ino) (leaf : Name) : Sys (Except EditError Unit) := do
  match ← sys (.fstatat parentFd leaf true) with
  | .error .noent => return .ok ()
  | .error e => return .error (.errno e)
  | .ok .lnk => return .error (.errno .loop)
  | .ok .dir => return .error .isDir
  | .ok _ => return .ok ()

def unnamedFilesUnsupported (e : Errno) : Bool := e = .opnotsupp ∨ e = .isdir

/-- The new file, with its staged name if it has one already. -/
def createFile (stageFd parentFd : Ino) : Sys (Except Errno (Option Name × Ino)) := do
  match ← sys (.openTmpfile parentFd) with
  | .ok fd => return .ok (none, fd)
  | .error e =>
    if unnamedFilesUnsupported e then
      match ← createEditStage stageFd with
      | .error e => return .error e
      | .ok (name, fd) => return .ok (some name, fd)
    else return .error e

/-- `File.Write`: the loop goes on after a write that was cut short, each time by a byte at least. -/
def writeLoop (fd : Ino) : ℕ → List UInt8 → Sys (Except EditError Unit)
  | 0, _ => return .error .unexpectedEOF
  | fuel + 1, b => do
    match ← sys (.write fd b) with
    | .error e => return .error (.write e)
    | .ok n =>
      if n = b.length then return .ok ()
      else if n = 0 then return .error .unexpectedEOF
      else writeLoop fd fuel (b.drop n)

def writeAll (fd : Ino) (data : List UInt8) : Sys (Except EditError Unit) := writeLoop fd (data.length + 1) data

/-- The staged name of a file that may have none yet. -/
def nameFile (stageFd fd : Ino) : Option Name → Sys (Except Errno Name)
  | some name => return .ok name
  | none => do
    match ← stageEditName (fun n => sys (.linkat fd stageFd n)) stageTries with
    | .error e => return .error e
    | .ok (name, ()) => return .ok name

/-- The error of a call whose answer is nothing else. -/
def errorOf : Except Errno Unit → Option Errno
  | .ok () => none
  | .error e => some e

def syncDirs (stageFd parentFd : Ino) : Sys (Except EditError Unit) := do
  let parent ← sys (.fsync parentFd)
  let stage ← sys (.fsync stageFd)
  match parent, stage with
  | .ok (), .ok () => return .ok ()
  | _, _ => return .error (.publishedNotDurable (errorOf parent) (errorOf stage))

/-- From the named file on: the staged name that is left, and the result. -/
def publish (stageFd parentFd fd : Ino) (leaf name : Name) : Sys (Option Name × Except EditError Unit) := do
  match ← inheritOwner parentFd fd with
  | .error e => return (some name, .error (.settingOwner e))
  | .ok () =>
  match ← sys (.fsync fd) with
  | .error e => return (some name, .error (.sync e))
  | .ok () =>
  match ← sys (.close fd) with
  | .error e => return (some name, .error (.close e))
  | .ok () =>
  match ← sys (.renameat stageFd name parentFd leaf) with
  | .error .isdir => return (some name, .error .isDir)
  | .error e => return (some name, .error (.rename name e))
  | .ok () => return (none, ← syncDirs stageFd parentFd)

/-- From the new file on: the staged name that is left, and the result. -/
def fill (stageFd parentFd fd : Ino) (leaf : Name) (data : List UInt8) (name : Option Name) :
    Sys (Option Name × Except EditError Unit) := do
  match ← writeAll fd data with
  | .error e => return (name, .error e)
  | .ok () =>
  match ← nameFile stageFd fd name with
  | .error e => return (none, .error (.link e))
  | .ok name => publish stageFd parentFd fd leaf name

/-- The deferred clean-up. -/
def cleanUp (stageFd : Ino) : Option Name × Except EditError Unit → Sys (Except EditError Unit)
  | (some name, .error e) => do
    let _ ← sys (.unlinkat stageFd name)
    return .error e
  | (_, r) => return r

def atomicWriteAt (stageFd parentFd : Ino) (leaf : Name) (data : List UInt8) : Sys (Except EditError Unit) := do
  match ← refuseExistingLeaf parentFd leaf with
  | .error e => return .error e
  | .ok () =>
  match ← createFile stageFd parentFd with
  | .error e => return .error (.create e)
  | .ok (name, fd) => cleanUp stageFd (← fill stageFd parentFd fd leaf data name)

/-! ## The command -/

def MaxFileBytes : ℕ := 4 * 1024 * 1024

inductive FileAccessReason
  | unspecified
  | isADirectory
  | symlinkRefused
  | payloadTooLarge
  deriving DecidableEq

/-- What the message of a failed command tells. -/
inductive Cause
  | exceedsCap
  | path (e : PathError)
  | walk (e : WalkError)
  | openingScratchRoot (e : Errno)
  | waiting (e : Errno)
  | edit (e : EditError)
  deriving DecidableEq

inductive CommandResult
  | success
  | fileAccessDenied (reason : FileAccessReason) (cause : Cause)
  | internal (cause : Cause)
  deriving DecidableEq

/-- `errors.Is(err, unix.ELOOP)`. -/
def EditError.isLoop : EditError → Bool
  | .errno e | .create e | .write e | .link e | .settingOwner e | .sync e | .close e | .rename _ e => e = .loop
  | .publishedNotDurable parent stage => parent = some .loop ∨ stage = some .loop
  | .isDir | .unexpectedEOF => false

def editResult : Except EditError Unit → CommandResult
  | .ok () | .error (.publishedNotDurable _ _) => .success
  | .error .isDir => .fileAccessDenied .isADirectory (.edit .isDir)
  | .error e => if e.isLoop then .fileAccessDenied .symlinkRefused (.edit e) else .internal (.edit e)

def handleEditFile (scratchDir : Ino) (serverID path : Name) (content : List UInt8) : Sys CommandResult :=
  if MaxFileBytes < content.length then return .fileAccessDenied .payloadTooLarge .exceedsCap
  else
    match safeJoin path with
    | .error e => return .fileAccessDenied .unspecified (.path e)
    | .ok components => do
      match ← openParentBeneath scratchDir serverID components.dropLast with
      | .error e =>
        if e.errno = .loop then return .fileAccessDenied .symlinkRefused (.walk e)
        else return .fileAccessDenied .unspecified (.walk e)
      | .ok parentFd =>
      match ← sys .openScratchRoot with
      | .error e => return .internal (.openingScratchRoot e)
      | .ok stageFd =>
      match ← sys .lockWorkingSet with
      | .error e => return .internal (.waiting e)
      | .ok () => return editResult (← atomicWriteAt stageFd parentFd (components.getLastD []) content)

/-! ## What the others leave alone -/

structure Fs.Valid (w : Fs) : Prop where
  named : ∀ d n i, w.entry d n = some i → i < w.next
  own : ∀ i, w.own = some i → i < w.next

/-- The target, and the file that only the write has seen, stay as they are. -/
structure Others (p : Ino) (leaf : Name) (w w' : Fs) : Prop where
  valid : w.Valid → w'.Valid
  next : w.next ≤ w'.next
  own : w'.own = w.own
  target : w'.entry p leaf = w.entry p leaf
  content : ∀ i, w.entry p leaf = some i → w'.kind i = w.kind i ∧ w'.data i = w.data i
  unpublished : ∀ i, w.own = some i →
    w'.kind i = w.kind i ∧ w'.data i = w.data i ∧ ∀ d n, w'.entry d n = some i ↔ w.entry d n = some i

/-- What a call of the write may do: `S` is the scratch root, `leaf` of `p` the target, `data` the new content. -/
structure Kept (S p : Ino) (leaf : Name) (data : List UInt8) (w w' : Fs) : Prop where
  valid : w'.Valid
  sees : w'.sees p leaf = w.sees p leaf ∨ w'.sees p leaf = some (.reg, data)
  next : w.next ≤ w'.next
  own : w'.own = w.own ∨ w'.own = none ∨ w'.own = some w.next
  files : ∀ i < w.next, w.own ≠ some i → w'.kind i = w.kind i ∧ w'.data i = w.data i
  names : ∀ d n, d ≠ S → (d, n) ≠ (p, leaf) → w'.entry d n = w.entry d n
  staged : ∀ n i, w.entry S n = some i → w.own ≠ some i → w'.entry S n = some i
  named : ∀ n i, w'.entry S n = some i → w.entry S n = some i ∧ w.own ≠ some i ∨ w'.own = some i
  unpublished : ∀ i, w'.own = some i → ∀ d n, w'.entry d n = some i → d = S

variable {S p : Ino} {leaf : Name} {data : List UInt8} {w w' w0 : Fs}

theorem Others.refl (w : Fs) : Others p leaf w w where
  valid h := h
  next := le_rfl
  own := rfl
  target := rfl
  content _ _ := ⟨rfl, rfl⟩
  unpublished _ _ := ⟨rfl, rfl, fun _ _ => Iff.rfl⟩

theorem Others.trans {w'' : Fs} (h : Others p leaf w w') (h' : Others p leaf w' w'') : Others p leaf w w'' where
  valid hw := h'.valid (h.valid hw)
  next := h.next.trans h'.next
  own := h'.own.trans h.own
  target := h'.target.trans h.target
  content i hi := by
    have h1 := h.content i hi
    have h2 := h'.content i (h.target.trans hi)
    exact ⟨h2.1.trans h1.1, h2.2.trans h1.2⟩
  unpublished i hi := by
    have h1 := h.unpublished i hi
    have h2 := h'.unpublished i (h.own.trans hi)
    exact ⟨h2.1.trans h1.1, h2.2.1.trans h1.2.1, fun d n => (h2.2.2 d n).trans (h1.2.2 d n)⟩

theorem Others.sees (h : Others p leaf w w') : w'.sees p leaf = w.sees p leaf := by
  rw [Fs.sees, Fs.sees, h.target]
  refine Option.map_congr fun i hi => ?_
  rw [(h.content i hi).1, (h.content i hi).2]

/-- Every call may fail but the removal of the staged name. -/
def may : Call → Fate → Prop
  | .unlinkat .., .fails _ => False
  | _, _ => True

variable (S p leaf) in
/-- The write among the others. -/
def editing : Setting Call Call.Ans Fate Fs := ⟨exec S, Others p leaf, may, Others.refl, Others.trans⟩

variable (S p leaf data) in
abbrev keeps : Setting.Guarantee Call Call.Ans Fs := fun w _ _ w' => Kept S p leaf data w w'

/-! ## The file that is written -/

/-- A file that is written: under its staged name, if it has one. -/
structure Draft where
  file : Ino
  name : Option Name
  content : List UInt8

variable (S p leaf) in
/-- The target is as it was, and the draft is seen by the write alone. -/
structure Staged (w0 w : Fs) (b : Option Draft) : Prop where
  valid : w.Valid
  entry : w.entry p leaf = w0.entry p leaf
  same : ∀ i, w0.entry p leaf = some i → w.kind i = w0.kind i ∧ w.data i = w0.data i
  own : w.own = b.map Draft.file
  draft : ∀ x ∈ b, w.kind x.file = .reg ∧ w.data x.file = x.content ∧
    ∀ d n, w.entry d n = some x.file ↔ d = S ∧ x.name = some n

variable (p leaf data) in
/-- The target is the new file. -/
structure Published (w : Fs) : Prop where
  valid : w.Valid
  own : w.own = none
  sees : w.sees p leaf = some (.reg, data)

variable {b : Option Draft} {x : Draft}

theorem Staged.others (h : Staged S p leaf w0 w b) (ho : Others p leaf w w') : Staged S p leaf w0 w' b where
  valid := ho.valid h.valid
  entry := ho.target.trans h.entry
  same i hi := by
    have h1 := h.same i hi
    have h2 := ho.content i (h.entry.trans hi)
    exact ⟨h2.1.trans h1.1, h2.2.trans h1.2⟩
  own := ho.own.trans h.own
  draft x hx := by
    have h1 := h.draft x hx
    have hown : w.own = some x.file := by rw [h.own, Option.mem_def.mp hx, Option.map_some]
    have h2 := ho.unpublished x.file hown
    exact ⟨h2.1.trans h1.1, h2.2.1.trans h1.2.1, fun d n => (h2.2.2 d n).trans (h1.2.2 d n)⟩

theorem Published.others (h : Published p leaf data w) (ho : Others p leaf w w') : Published p leaf data w' :=
  ⟨ho.valid h.valid, ho.own.trans h.own, ho.sees.trans h.sees⟩

theorem Staged.sees (h : Staged S p leaf w0 w b) : w.sees p leaf = w0.sees p leaf := by
  rw [Fs.sees, Fs.sees, h.entry]
  refine Option.map_congr fun i hi => ?_
  rw [(h.same i hi).1, (h.same i hi).2]

theorem Staged.own_some (h : Staged S p leaf w0 w (some x)) : w.own = some x.file := h.own

theorem Staged.kind (h : Staged S p leaf w0 w (some x)) : w.kind x.file = .reg := (h.draft x rfl).1

theorem Staged.content (h : Staged S p leaf w0 w (some x)) : w.data x.file = x.content := (h.draft x rfl).2.1

theorem Staged.entry_iff (h : Staged S p leaf w0 w (some x)) (d : Ino) (n : Name) :
    w.entry d n = some x.file ↔ d = S ∧ x.name = some n := (h.draft x rfl).2.2 d n

/-- The draft has no name outside the scratch root. -/
theorem Staged.unpublished (h : Staged S p leaf w0 w b) (i : Ino) (hi : w.own = some i) (d : Ino) (n : Name)
    (hn : w.entry d n = some i) : d = S := by
  rw [h.own] at hi
  obtain ⟨x, hx, rfl⟩ := Option.map_eq_some_iff.mp hi
  exact (((h.draft x hx).2.2 d n).mp hn).1

/-- The target is another file than the draft. -/
theorem Staged.ne_file (h : Staged S p leaf w0 w (some x)) (hne : S ≠ p) (i : Ino) (hi : w0.entry p leaf = some i) :
    i ≠ x.file := by
  rintro rfl
  exact hne ((h.entry_iff p leaf).mp (h.entry.trans hi)).1.symm

/-! ## Calls from a draft -/

/-- A call that changes at most an owner. -/
theorem Kept.quiet (h : Staged S p leaf w0 w b) (o : Ino → ℕ × ℕ) : Kept S p leaf data w { w with owner := o } where
  valid := ⟨h.valid.named, h.valid.own⟩
  sees := .inl rfl
  next := le_rfl
  own := .inl rfl
  files _ _ _ := ⟨rfl, rfl⟩
  names _ _ _ _ := rfl
  staged _ _ hn _ := hn
  named _ _ hn := or_iff_not_imp_right.mpr fun hi => ⟨hn, hi⟩
  unpublished := h.unpublished

theorem Staged.quiet (h : Staged S p leaf w0 w b) (o : Ino → ℕ × ℕ) : Staged S p leaf w0 { w with owner := o } b :=
  ⟨⟨h.valid.named, h.valid.own⟩, h.entry, h.same, h.own, h.draft⟩

variable {α : Type} {Q : α → Fs → Prop} {k : Call} {next : k.Ans → Sys α}

/-- Whatever becomes of a call that changes at most an owner. -/
theorem safe_quiet (h : Staged S p leaf w0 w b) (hk : ∀ f w, ∃ o, (exec S k f w).2 = { w with owner := o })
    (hnext : ∀ a w, Staged S p leaf w0 w b → (editing S p leaf).Safe (keeps S p leaf data) Q (next a) w) :
    (editing S p leaf).Safe (keeps S p leaf data) Q (.call k next) w := by
  refine Setting.safe_call Staged.others h fun w f hw _ => ?_
  obtain ⟨o, ho⟩ := hk f w
  have hw' : (((editing S p leaf).exec k f w).2) = { w with owner := o } := ho
  rw [hw']
  exact ⟨Kept.quiet hw o, hnext _ _ (hw.quiet o)⟩

/-- A call that fails has no effect. -/
theorem safe_call_of (h : Staged S p leaf w0 w b)
    (hworks : ∀ n w, Staged S p leaf w0 w b → Kept S p leaf data w (works S n w k).2 ∧
      (editing S p leaf).Safe (keeps S p leaf data) Q (next (works S n w k).1) (works S n w k).2)
    (hfails : ∀ e w, may k (.fails e) → Staged S p leaf w0 w b →
      (editing S p leaf).Safe (keeps S p leaf data) Q (next (failed e k)) w) :
    (editing S p leaf).Safe (keeps S p leaf data) Q (.call k next) w := by
  refine Setting.safe_call Staged.others h fun w f hw hmay => ?_
  cases f with
  | works n => exact hworks n w hw
  | fails e => exact ⟨Kept.quiet hw w.owner, hfails e w hmay hw⟩

theorem Fs.setEntry_entry (w : Fs) (d d' : Ino) (n n' : Name) (i : Option Ino) :
    (w.setEntry d n i).entry d' n' = if d' = d ∧ n' = n then i else w.entry d' n' := by
  change Function.update w.entry d (Function.update (w.entry d) n i) d' n' = _
  by_cases hd : d' = d
  · subst hd
    rw [Function.update_self, Function.update_apply]
    simp only [true_and]
  · rw [Function.update_of_ne hd, if_neg fun h => hd h.1]

theorem refuseExistingLeaf_safe (h : Staged S p leaf w0 w none) :
    (editing S p leaf).Safe (keeps S p leaf data)
      (fun r w => Staged S p leaf w0 w none ∧ ∀ e, r = .error e → e matches .errno _ | .isDir)
      (refuseExistingLeaf p leaf) w := by
  refine safe_quiet h (fun f w => ?_) fun a w hw => ?_
  · cases f with
    | fails e => exact ⟨w.owner, rfl⟩
    | works n =>
      refine ⟨w.owner, ?_⟩
      simp only [exec, works]
      split <;> rfl
  · have hret : ∀ r : Except EditError Unit, (∀ e, r = .error e → e matches .errno _ | .isDir) →
        (editing S p leaf).Safe (keeps S p leaf data)
          (fun r w => Staged S p leaf w0 w none ∧ ∀ e, r = .error e → e matches .errno _ | .isDir) (.ret r) w :=
      fun r hr => Setting.safe_ret (fun hq ho => ⟨hq.1.others ho, hq.2⟩) ⟨hw, hr⟩
    match a with
    | .error .noent => exact hret _ nofun
    | .error .exist | .error .loop | .error .isdir | .error .notdir | .error .opnotsupp | .error (.other _) =>
      exact hret _ fun e he => by cases he; rfl
    | .ok .lnk | .ok .dir => exact hret _ fun e he => by cases he; rfl
    | .ok .reg | .ok .other => exact hret _ nofun

/-- A new file, under the staged name if it has one. -/
def Fs.draft (w : Fs) (S : Ino) (name : Option Name) : Fs :=
  match name with
  | none => { w.create .reg with own := some w.next }
  | some n => { (w.create .reg).setEntry S n (some w.next) with own := some w.next }

theorem Fs.draft_entry (w : Fs) (S : Ino) (name : Option Name) (d : Ino) (n : Name) :
    (w.draft S name).entry d n = if d = S ∧ name = some n then some w.next else w.entry d n := by
  cases name with
  | none => rw [if_neg fun h => nomatch h.2]; rfl
  | some m =>
    change ((w.create .reg).setEntry S m (some w.next)).entry d n = _
    rw [Fs.setEntry_entry]
    exact if_congr ⟨fun h => ⟨h.1, congrArg some h.2.symm⟩, fun h => ⟨h.1, (Option.some.inj h.2).symm⟩⟩ rfl rfl

theorem Fs.draft_own (w : Fs) (S : Ino) (name : Option Name) : (w.draft S name).own = some w.next := by
  cases name <;> rfl

theorem Fs.draft_next (w : Fs) (S : Ino) (name : Option Name) : (w.draft S name).next = w.next + 1 := by
  cases name <;> rfl

theorem Fs.draft_kind (w : Fs) (S : Ino) (name : Option Name) :
    (w.draft S name).kind = Function.update w.kind w.next .reg := by
  cases name <;> rfl

theorem Fs.draft_data (w : Fs) (S : Ino) (name : Option Name) :
    (w.draft S name).data = Function.update w.data w.next [] := by
  cases name <;> rfl

variable {name : Option Name}

/-- The names of a new file. -/
theorem Fs.Valid.draft_entry_iff (hw : w.Valid) (d : Ino) (n : Name) :
    (w.draft S name).entry d n = some w.next ↔ d = S ∧ name = some n := by
  rw [Fs.draft_entry]
  split_ifs with h
  · exact ⟨fun _ => h, fun _ => rfl⟩
  · exact ⟨fun hn => absurd (hw.named d n _ hn) (lt_irrefl _), fun hn => absurd hn h⟩

variable (data name) in
theorem Staged.create (hne : S ≠ p) (h : Staged S p leaf w0 w none) (hfree : ∀ n, name = some n → w.entry S n = none) :
    Kept S p leaf data w (w.draft S name) ∧ Staged S p leaf w0 (w.draft S name) (some ⟨w.next, name, []⟩) := by
  have hold : ∀ i < w.next, (w.draft S name).kind i = w.kind i ∧ (w.draft S name).data i = w.data i := by
    intro i hi
    rw [Fs.draft_kind, Fs.draft_data]
    exact ⟨Function.update_of_ne hi.ne _ _, Function.update_of_ne hi.ne _ _⟩
  have hentry : ∀ d n, d ≠ S → (w.draft S name).entry d n = w.entry d n := by
    intro d n hd
    rw [Fs.draft_entry, if_neg fun h => hd h.1]
  have htarget := hentry p leaf hne.symm
  have hstaged : Staged S p leaf w0 (w.draft S name) (some ⟨w.next, name, []⟩) := by
    refine ⟨⟨fun d n i hi => ?_, fun i hi => ?_⟩, htarget.trans h.entry, fun i hi => ?_, Fs.draft_own w S name, ?_⟩
    · rw [Fs.draft_next]
      rw [Fs.draft_entry] at hi
      split_ifs at hi
      · cases hi
        exact Nat.lt_succ_self _
      · exact (h.valid.named d n i hi).trans (Nat.lt_succ_self _)
    · rw [Fs.draft_own] at hi
      rw [Fs.draft_next]
      cases hi
      exact Nat.lt_succ_self _
    · have hi' := h.same i hi
      have hi'' := hold i (h.valid.named p leaf i (h.entry.trans hi))
      exact ⟨hi''.1.trans hi'.1, hi''.2.trans hi'.2⟩
    · rintro x ⟨⟩
      rw [Fs.draft_kind, Fs.draft_data]
      exact ⟨Function.update_self _ _ _, Function.update_self _ _ _, h.valid.draft_entry_iff⟩
  refine ⟨⟨hstaged.valid, .inl (hstaged.sees.trans h.sees.symm), ?_, .inr (.inr (Fs.draft_own w S name)), fun i hi _ => hold i hi,
    fun d n hd _ => hentry d n hd, fun n i hn _ => ?_, fun n i hn => ?_, hstaged.unpublished⟩, hstaged⟩
  · rw [Fs.draft_next]
    exact Nat.le_succ _
  · rw [Fs.draft_entry, if_neg]
    · exact hn
    · rintro ⟨-, hname⟩
      rw [hfree n hname] at hn
      cases hn
  · have hown : w.own = none := h.own
    rw [Fs.draft_own, hown]
    rw [Fs.draft_entry] at hn
    split_ifs at hn
    · exact .inr hn
    · exact .inl ⟨hn, nofun⟩

theorem Staged.write (hne : S ≠ p) (h : Staged S p leaf w0 w (some x)) (b : List UInt8) :
    Kept S p leaf data w { w with data := Function.update w.data x.file (w.data x.file ++ b) } ∧
      Staged S p leaf w0 { w with data := Function.update w.data x.file (w.data x.file ++ b) }
        (some ⟨x.file, x.name, x.content ++ b⟩) := by
  have hstaged : Staged S p leaf w0 { w with data := Function.update w.data x.file (w.data x.file ++ b) }
      (some ⟨x.file, x.name, x.content ++ b⟩) := by
    refine ⟨⟨h.valid.named, h.valid.own⟩, h.entry, fun i hi => ⟨(h.same i hi).1, ?_⟩, h.own, ?_⟩
    · exact (Function.update_of_ne (h.ne_file hne i hi) _ _).trans (h.same i hi).2
    · rintro y ⟨⟩
      refine ⟨h.kind, ?_, h.entry_iff⟩
      exact (Function.update_self _ _ _).trans (by rw [h.content])
  refine ⟨⟨hstaged.valid, .inl (hstaged.sees.trans h.sees.symm), le_rfl, .inl rfl, fun i _ hi => ⟨rfl, ?_⟩, fun _ _ _ _ => rfl,
    fun _ _ hn _ => hn, fun _ _ hn => or_iff_not_imp_right.mpr fun hi => ⟨hn, hi⟩, hstaged.unpublished⟩, hstaged⟩
  have hfile : i ≠ x.file := fun hx => hi (hx ▸ h.own_some)
  exact Function.update_of_ne hfile _ _

variable (data) in
theorem Staged.link (hne : S ≠ p) {fd : Ino} {c : List UInt8} {n : Name} (h : Staged S p leaf w0 w (some ⟨fd, none, c⟩))
    (hfree : w.entry S n = none) : Kept S p leaf data w (w.setEntry S n (some fd)) ∧
      Staged S p leaf w0 (w.setEntry S n (some fd)) (some ⟨fd, some n, c⟩) := by
  have hentry : ∀ d m, d ≠ S → (w.setEntry S n (some fd)).entry d m = w.entry d m := by
    intro d m hd
    rw [Fs.setEntry_entry, if_neg fun h => hd h.1]
  have hstaged : Staged S p leaf w0 (w.setEntry S n (some fd)) (some ⟨fd, some n, c⟩) := by
    refine ⟨⟨fun d m i hi => ?_, h.valid.own⟩, (hentry p leaf hne.symm).trans h.entry, h.same, h.own, ?_⟩
    · rw [Fs.setEntry_entry] at hi
      split_ifs at hi
      · cases hi
        exact h.valid.own fd h.own
      · exact h.valid.named d m i hi
    · rintro y ⟨⟩
      refine ⟨h.kind, h.content, fun d m => ?_⟩
      rw [Fs.setEntry_entry]
      split_ifs with hdm
      · rw [hdm.2]
        exact ⟨fun _ => ⟨hdm.1, rfl⟩, fun _ => rfl⟩
      · rw [h.entry_iff]
        exact ⟨fun hm => (nomatch hm.2), fun hm => absurd ⟨hm.1, (Option.some.inj hm.2).symm⟩ hdm⟩
  refine ⟨⟨hstaged.valid, .inl (hstaged.sees.trans h.sees.symm), le_rfl, .inl rfl, fun _ _ _ => ⟨rfl, rfl⟩,
    fun d m hd _ => hentry d m hd, fun m i hm _ => ?_, fun m i hm => ?_, hstaged.unpublished⟩, hstaged⟩
  · rw [Fs.setEntry_entry, if_neg]
    · exact hm
    · rintro ⟨-, rfl⟩
      rw [hfree] at hm
      cases hm
  · rw [Fs.setEntry_entry] at hm
    split_ifs at hm
    · exact .inr (h.own.trans hm)
    · exact or_iff_not_imp_right.mpr fun hi => ⟨hm, hi⟩

/-- **The rename publishes the draft**, where the target is not a directory. -/
theorem Staged.rename (hne : S ≠ p) {fd : Ino} {n : Name} (h : Staged S p leaf w0 w (some ⟨fd, some n, data⟩)) :
    Kept S p leaf data w { (w.setEntry S n none).setEntry p leaf (some fd) with own := none } ∧
      Published p leaf data { (w.setEntry S n none).setEntry p leaf (some fd) with own := none } := by
  have hentry : ∀ d m, ((w.setEntry S n none).setEntry p leaf (some fd)).entry d m =
      if d = p ∧ m = leaf then some fd else if d = S ∧ m = n then none else w.entry d m := by
    intro d m
    rw [Fs.setEntry_entry, Fs.setEntry_entry]
  have hsees : Fs.sees { (w.setEntry S n none).setEntry p leaf (some fd) with own := none } p leaf = some (.reg, data) := by
    have htarget := hentry p leaf
    rw [if_pos ⟨rfl, rfl⟩] at htarget
    have hkind : w.kind fd = .reg := h.kind
    have hdata : w.data fd = data := h.content
    change (((w.setEntry S n none).setEntry p leaf (some fd)).entry p leaf).map (fun i => (w.kind i, w.data i)) = _
    rw [htarget, Option.map_some, hkind, hdata]
  have hvalid : Fs.Valid { (w.setEntry S n none).setEntry p leaf (some fd) with own := none } := by
    refine ⟨fun d m i hi => ?_, nofun⟩
    have hi' := (hentry d m).symm.trans hi
    split_ifs at hi'
    · cases hi'
      exact h.valid.own fd h.own
    · exact h.valid.named d m i hi'
  refine ⟨⟨hvalid, .inr hsees, le_rfl, .inr (.inl rfl), fun _ _ _ => ⟨rfl, rfl⟩, fun d m hd hm => ?_,
    fun m i hm hi => ?_, fun m i hm => .inl ?_, nofun⟩, hvalid, rfl, hsees⟩
  · refine (hentry d m).trans ?_
    rw [if_neg fun h => hm (by rw [h.1, h.2]), if_neg fun h => hd h.1]
  · refine (hentry S m).trans ?_
    rw [if_neg fun h => hne h.1, if_neg]
    · exact hm
    · rintro ⟨-, rfl⟩
      exact hi (h.own.trans (((h.entry_iff S m).mpr ⟨rfl, rfl⟩).symm.trans hm))
  · have hm' := (hentry S m).symm.trans hm
    rw [if_neg fun h => hne h.1] at hm'
    split_ifs at hm' with hmn
    refine ⟨hm', fun hi => hmn ⟨rfl, ?_⟩⟩
    cases h.own.symm.trans hi
    exact (Option.some.inj ((h.entry_iff S m).mp hm').2).symm

variable (data) in
/-- The clean-up takes its name from the draft. -/
theorem Staged.unlink (hne : S ≠ p) {fd : Ino} {n : Name} {c : List UInt8}
    (h : Staged S p leaf w0 w (some ⟨fd, some n, c⟩)) :
    Kept S p leaf data w (w.setEntry S n none) ∧ Staged S p leaf w0 (w.setEntry S n none) (some ⟨fd, none, c⟩) := by
  have hentry : ∀ d m, d ≠ S → (w.setEntry S n none).entry d m = w.entry d m := by
    intro d m hd
    rw [Fs.setEntry_entry, if_neg fun h => hd h.1]
  have hnone : ∀ d m i, (w.setEntry S n none).entry d m = some i → w.entry d m = some i := by
    intro d m i hi
    rw [Fs.setEntry_entry] at hi
    split_ifs at hi
    exact hi
  have hstaged : Staged S p leaf w0 (w.setEntry S n none) (some ⟨fd, none, c⟩) := by
    refine ⟨⟨fun d m i hi => h.valid.named d m i (hnone d m i hi), h.valid.own⟩,
      (hentry p leaf hne.symm).trans h.entry, h.same, h.own, ?_⟩
    rintro y ⟨⟩
    refine ⟨h.kind, h.content, fun d m => ⟨fun hm => ?_, fun hm => nomatch hm.2⟩⟩
    obtain ⟨rfl, hname⟩ := (h.entry_iff d m).mp (hnone d m fd hm)
    rw [Fs.setEntry_entry, if_pos ⟨rfl, (Option.some.inj hname).symm⟩] at hm
    cases hm
  refine ⟨⟨hstaged.valid, .inl (hstaged.sees.trans h.sees.symm), le_rfl, .inl rfl, fun _ _ _ => ⟨rfl, rfl⟩,
    fun d m hd _ => hentry d m hd, fun m i hm hi => ?_,
    fun m i hm => or_iff_not_imp_right.mpr fun hi => ⟨hnone S m i hm, hi⟩, hstaged.unpublished⟩, hstaged⟩
  rw [Fs.setEntry_entry, if_neg]
  · exact hm
  · rintro ⟨-, rfl⟩
    exact hi (h.own.trans (((h.entry_iff S m).mpr ⟨rfl, rfl⟩).symm.trans hm))

/-! ## The parts of the write -/

variable (S p leaf) in
/-- A draft where there is an answer, and what there was before where there is an error. -/
def Drafted (w0 : Fs) (b : Option Draft) {β : Type} (d : β → Draft) : Except Errno β → Fs → Prop
  | .ok a, w => Staged S p leaf w0 w (some (d a))
  | .error _, w => Staged S p leaf w0 w b

theorem Drafted.others {β : Type} {d : β → Draft} {r : Except Errno β} (h : Drafted S p leaf w0 b d r w)
    (ho : Others p leaf w w') : Drafted S p leaf w0 b d r w' := by
  cases r with
  | ok a | error e => exact Staged.others h ho

theorem drafted_ret {β : Type} {d : β → Draft} {r : Except Errno β} (h : Drafted S p leaf w0 b d r w) :
    (editing S p leaf).Safe (keeps S p leaf data) (Drafted S p leaf w0 b d) (.ret r) w :=
  Setting.safe_ret Drafted.others h

theorem inheritOwner_safe (fd : Ino) (h : Staged S p leaf w0 w b) :
    (editing S p leaf).Safe (keeps S p leaf data) (fun _ w => Staged S p leaf w0 w b) (inheritOwner p fd) w := by
  refine safe_quiet h (fun f w => ⟨w.owner, by cases f <;> rfl⟩) fun a w hw => ?_
  match a with
  | .error e => exact Setting.safe_ret Staged.others hw
  | .ok owner =>
    refine safe_quiet hw (fun f w => ?_) fun a w hw => Setting.safe_ret Staged.others hw
    cases f with
    | works n => exact ⟨_, rfl⟩
    | fails e => exact ⟨w.owner, rfl⟩

/-- A name that is drawn again while it is taken. -/
theorem stageEditName_safe {β : Type} {place : Name → Sys (Except Errno β)} {d : Name × β → Draft}
    (hplace : ∀ n w, Staged S p leaf w0 w b →
      (editing S p leaf).Safe (keeps S p leaf data) (Drafted S p leaf w0 b fun a => d (n, a)) (place n) w)
    (tries : ℕ) (h : Staged S p leaf w0 w b) :
    (editing S p leaf).Safe (keeps S p leaf data) (Drafted S p leaf w0 b d) (stageEditName place tries) w := by
  induction tries generalizing w with
  | zero => exact drafted_ret h
  | succ tries ih =>
    refine safe_quiet h (fun f w => ⟨w.owner, by cases f <;> rfl⟩) fun a w hw => ?_
    refine (hplace _ w hw).bind fun r w hr => ?_
    match r with
    | .ok a => exact drafted_ret hr
    | .error .exist => exact ih hr
    | .error .noent | .error .loop | .error .isdir | .error .notdir | .error .opnotsupp | .error (.other _) =>
      exact drafted_ret hr

theorem createFile_safe (hne : S ≠ p) (h : Staged S p leaf w0 w none) :
    (editing S p leaf).Safe (keeps S p leaf data)
      (Drafted S p leaf w0 none fun a : Option Name × Ino => ⟨a.2, a.1, []⟩) (createFile S p) w := by
  refine safe_call_of h (fun n w hw => ?_) fun e w _ hw => ?_
  · have hcreated := hw.create data none hne nofun
    exact ⟨hcreated.1, drafted_ret hcreated.2⟩
  · change (editing S p leaf).Safe _ _ (if unnamedFilesUnsupported e then _ else _) w
    split_ifs
    · have hstage : (editing S p leaf).Safe (keeps S p leaf data)
          (Drafted S p leaf w0 none fun a : Name × Ino => ⟨a.2, some a.1, []⟩) (createEditStage S) w := by
        refine stageEditName_safe (fun n w hw => ?_) stageTries hw
        refine safe_call_of hw (fun _ w hw => ?_) fun e w _ hw => drafted_ret hw
        cases hfree : w.entry S n with
        | some i =>
          simp only [works, hfree]
          exact ⟨Kept.quiet hw w.owner, drafted_ret hw⟩
        | none =>
          simp only [works, hfree]
          have hcreated := hw.create data (some n) hne fun m hm => Option.some.inj hm ▸ hfree
          exact ⟨hcreated.1, drafted_ret hcreated.2⟩
      refine hstage.bind fun r w hr => ?_
      match r with
      | .error e => exact drafted_ret hr
      | .ok (name, fd) => exact drafted_ret hr
    · exact drafted_ret hw

/-- An error from before the rename. -/
def EditError.early : EditError → Bool
  | .publishedNotDurable _ _ => false
  | _ => true

variable (S p leaf) in
/-- The bytes are written, or some of them are. -/
def Written (w0 : Fs) (fd : Ino) (name : Option Name) (c : List UInt8) : Except EditError Unit → Fs → Prop
  | .ok (), w => Staged S p leaf w0 w (some ⟨fd, name, c⟩)
  | .error e, w => e.early ∧ ∃ c', Staged S p leaf w0 w (some ⟨fd, name, c'⟩)

variable {fd : Ino} {c : List UInt8}

theorem Written.others {r : Except EditError Unit} (h : Written S p leaf w0 fd name c r w) (ho : Others p leaf w w') :
    Written S p leaf w0 fd name c r w' := by
  cases r with
  | ok a => exact Staged.others h ho
  | error e =>
    obtain ⟨he, c', hc⟩ := h
    exact ⟨he, c', hc.others ho⟩

theorem writeLoop_safe (hne : S ≠ p) (fuel : ℕ) (b : List UInt8) (h : Staged S p leaf w0 w (some ⟨fd, name, c⟩)) :
    (editing S p leaf).Safe (keeps S p leaf data) (Written S p leaf w0 fd name (c ++ b)) (writeLoop fd fuel b) w := by
  induction fuel generalizing w b c with
  | zero => exact Setting.safe_ret Written.others ⟨rfl, c, h⟩
  | succ fuel ih =>
    refine safe_call_of h (fun n w hw => ?_) fun e w _ hw => Setting.safe_ret Written.others ⟨rfl, c, hw⟩
    obtain ⟨hkept, hstaged⟩ : Kept S p leaf data w (works S n w (.write fd b)).2 ∧
        Staged S p leaf w0 (works S n w (.write fd b)).2 (some ⟨fd, name, c ++ b.take n⟩) := hw.write hne (b.take n)
    refine ⟨hkept, ?_⟩
    change (editing S p leaf).Safe _ _ (if min n b.length = b.length then _ else
      if min n b.length = 0 then _ else writeLoop fd fuel (b.drop (min n b.length))) _
    split_ifs with hall hnone
    · rw [List.take_of_length_le (min_eq_right_iff.mp hall)] at hstaged
      exact Setting.safe_ret Written.others hstaged
    · exact Setting.safe_ret Written.others ⟨rfl, _, hstaged⟩
    · have hlt : min n b.length = n := min_eq_left (not_lt.mp fun hlt => hall (min_eq_right hlt.le))
      have hloop := ih (b.drop n) hstaged
      rw [List.append_assoc, List.take_append_drop] at hloop
      rw [hlt]
      exact hloop

theorem nameFile_safe (hne : S ≠ p) (h : Staged S p leaf w0 w (some ⟨fd, name, c⟩)) :
    (editing S p leaf).Safe (keeps S p leaf data)
      (Drafted S p leaf w0 (some ⟨fd, none, c⟩) fun n : Name => ⟨fd, some n, c⟩) (nameFile S fd name) w := by
  cases name with
  | some n => exact drafted_ret (r := .ok n) h
  | none =>
    have hstage : (editing S p leaf).Safe (keeps S p leaf data)
        (Drafted S p leaf w0 (some ⟨fd, none, c⟩) fun a : Name × Unit => ⟨fd, some a.1, c⟩)
        (stageEditName (fun n => sys (.linkat fd S n)) stageTries) w := by
      refine stageEditName_safe (fun n w hw => ?_) stageTries h
      refine safe_call_of hw (fun _ w hw => ?_) fun e w _ hw => drafted_ret hw
      cases hfree : w.entry S n with
      | some i =>
        simp only [works, hfree]
        exact ⟨Kept.quiet hw w.owner, drafted_ret hw⟩
      | none =>
        simp only [works, hfree]
        have hlinked := hw.link data hne hfree
        exact ⟨hlinked.1, drafted_ret hlinked.2⟩
    refine hstage.bind fun r w hr => ?_
    match r with
    | .error e => exact drafted_ret hr
    | .ok (n, ()) => exact drafted_ret hr

variable (S p leaf data) in
/-- Before the rename there is a draft and an error; after it the target is the new file. -/
inductive Filled (w0 : Fs) (fd : Ino) : Option Name × Except EditError Unit → Fs → Prop
  | early {w : Fs} {name : Option Name} {e : EditError} {c : List UInt8} (he : e.early)
    (h : Staged S p leaf w0 w (some ⟨fd, name, c⟩)) : Filled w0 fd (name, .error e) w
  | late {w : Fs} {r : Except EditError Unit} (hr : ∀ e, r = .error e → e.early = false)
    (h : Published p leaf data w) : Filled w0 fd (none, r) w

theorem Filled.others {r : Option Name × Except EditError Unit} (h : Filled S p leaf data w0 fd r w)
    (ho : Others p leaf w w') : Filled S p leaf data w0 fd r w' := by
  cases h with
  | early he h => exact .early he (h.others ho)
  | late hr h => exact .late hr (h.others ho)

theorem filled_ret {r : Option Name × Except EditError Unit} (h : Filled S p leaf data w0 fd r w) :
    (editing S p leaf).Safe (keeps S p leaf data) (Filled S p leaf data w0 fd) (.ret r) w :=
  Setting.safe_ret Filled.others h

theorem Published.kept (h : Published p leaf data w) : Kept S p leaf data w w where
  valid := h.valid
  sees := .inl rfl
  next := le_rfl
  own := .inl rfl
  files _ _ _ := ⟨rfl, rfl⟩
  names _ _ _ _ := rfl
  staged _ _ hn _ := hn
  named _ _ hn := or_iff_not_imp_right.mpr fun hi => ⟨hn, hi⟩
  unpublished i hi := by
    rw [h.own] at hi
    cases hi

/-- The target is the new file, whatever becomes of the directories. -/
theorem syncDirs_safe (h : Published p leaf data w) :
    (editing S p leaf).Safe (keeps S p leaf data) (fun r w => Filled S p leaf data w0 fd (none, r) w)
      (syncDirs S p) w := by
  refine Setting.safe_call Published.others h fun w f hw _ => ⟨?_, ?_⟩
  · cases f <;> exact hw.kept
  · have hsame : ((editing S p leaf).exec (.fsync p) f w).2 = w := by cases f <;> rfl
    rw [hsame]
    refine Setting.safe_call Published.others hw fun w' f' hw' _ => ⟨?_, ?_⟩
    · cases f' <;> exact hw'.kept
    · have hsame' : ((editing S p leaf).exec (.fsync S) f' w').2 = w' := by cases f' <;> rfl
      rw [hsame']
      have hret : ∀ r : Except EditError Unit, (∀ e, r = .error e → e.early = false) →
          (editing S p leaf).Safe (keeps S p leaf data) (fun r w => Filled S p leaf data w0 fd (none, r) w) (.ret r) w' :=
        fun r hr => Setting.safe_ret Filled.others (.late hr hw')
      cases f <;> cases f' <;> exact hret _ fun e he => by cases he <;> rfl

theorem publish_safe (hne : S ≠ p) {n : Name} (h : Staged S p leaf w0 w (some ⟨fd, some n, data⟩)) :
    (editing S p leaf).Safe (keeps S p leaf data) (Filled S p leaf data w0 fd) (publish S p fd leaf n) w := by
  refine (inheritOwner_safe fd h).bind fun r w hw => ?_
  match r with
  | .error e => exact filled_ret (.early rfl hw)
  | .ok () =>
  refine safe_quiet hw (fun f w => ⟨w.owner, by cases f <;> rfl⟩) fun r w hw => ?_
  match r with
  | .error e => exact filled_ret (.early rfl hw)
  | .ok () =>
  refine safe_quiet hw (fun f w => ⟨w.owner, by cases f <;> rfl⟩) fun r w hw => ?_
  match r with
  | .error e => exact filled_ret (.early rfl hw)
  | .ok () =>
  refine safe_call_of hw (fun k w hw => ?_) fun e w _ hw => ?_
  · have hsource : w.entry S n = some fd := (hw.entry_iff S n).mpr ⟨rfl, rfl⟩
    have hother : w.entry p leaf ≠ some fd := fun h => hne ((hw.entry_iff p leaf).mp h).1.symm
    by_cases hdir : (w.entry p leaf).map w.kind = some .dir
    · simp only [works, hsource, if_neg hother, if_pos hdir]
      exact ⟨Kept.quiet hw w.owner, filled_ret (.early rfl hw)⟩
    · simp only [works, hsource, if_neg hother, if_neg hdir]
      obtain ⟨hkept, hpublished⟩ := hw.rename hne
      refine ⟨hkept, (syncDirs_safe hpublished).bind fun r w hr => filled_ret hr⟩
  · cases e <;> exact filled_ret (.early rfl hw)

theorem fill_safe (hne : S ≠ p) (h : Staged S p leaf w0 w (some ⟨fd, name, []⟩)) :
    (editing S p leaf).Safe (keeps S p leaf data) (Filled S p leaf data w0 fd) (fill S p fd leaf data name) w := by
  refine (writeLoop_safe hne (data.length + 1) data h).bind fun r w hw => ?_
  match r with
  | .error e =>
    obtain ⟨he, c, hc⟩ := hw
    exact filled_ret (.early he hc)
  | .ok () =>
  refine (nameFile_safe hne hw).bind fun r w hw => ?_
  match r with
  | .error e => exact filled_ret (.early rfl hw)
  | .ok n => exact publish_safe hne hw

variable (S p leaf data) in
/-- What a write comes to: the target and no staged name are left, or the target is the new file. -/
inductive Wrote (w0 : Fs) : Except EditError Unit → Fs → Prop
  | early {w : Fs} {e : EditError} {b : Option Draft} (he : e.early) (h : Staged S p leaf w0 w b)
    (hname : ∀ x ∈ b, x.name = none) : Wrote w0 (.error e) w
  | late {w : Fs} {r : Except EditError Unit} (hr : ∀ e, r = .error e → e.early = false)
    (h : Published p leaf data w) : Wrote w0 r w

theorem Wrote.others {r : Except EditError Unit} (h : Wrote S p leaf data w0 r w) (ho : Others p leaf w w') :
    Wrote S p leaf data w0 r w' := by
  cases h with
  | early he h hname => exact .early he (h.others ho) hname
  | late hr h => exact .late hr (h.others ho)

theorem wrote_ret {r : Except EditError Unit} (h : Wrote S p leaf data w0 r w) :
    (editing S p leaf).Safe (keeps S p leaf data) (Wrote S p leaf data w0) (.ret r) w :=
  Setting.safe_ret Wrote.others h

theorem cleanUp_safe (hne : S ≠ p) {r : Option Name × Except EditError Unit} (h : Filled S p leaf data w0 fd r w) :
    (editing S p leaf).Safe (keeps S p leaf data) (Wrote S p leaf data w0) (cleanUp S r) w := by
  cases h with
  | @late w r hr h => exact wrote_ret (.late hr h)
  | @early w name e c he h =>
    cases name with
    | none => exact wrote_ret (.early he h fun x hx => by cases hx; rfl)
    | some n =>
      refine safe_call_of h (fun k w hw => ?_) fun e w hmay => hmay.elim
      have hsource : w.entry S n = some fd := (hw.entry_iff S n).mpr ⟨rfl, rfl⟩
      have hreg : w.kind fd ≠ .dir := fun hdir => Kind.noConfusion (hw.kind.symm.trans hdir)
      simp only [works, hsource, if_neg hreg]
      obtain ⟨hkept, hstaged⟩ := hw.unlink data hne
      exact ⟨hkept, wrote_ret (.early he hstaged fun x hx => by cases hx; rfl)⟩

variable (data) in
theorem atomicWriteAt_safe (hne : S ≠ p) (h : Staged S p leaf w0 w none) :
    (editing S p leaf).Safe (keeps S p leaf data) (Wrote S p leaf data w0) (atomicWriteAt S p leaf data) w := by
  refine (refuseExistingLeaf_safe h).bind fun r w hw => ?_
  match r with
  | .error e =>
    refine wrote_ret (.early ?_ hw.1 nofun)
    have he := hw.2 e rfl
    cases e <;> first | rfl | cases he
  | .ok () =>
  refine (createFile_safe hne hw.1).bind fun r w hw => ?_
  match r with
  | .error e => exact wrote_ret (.early rfl hw nofun)
  | .ok (name, fd) => exact (fill_safe hne hw).bind fun r w hr => cleanUp_safe hne hr

/-! ## The write among the others -/

variable (S p leaf) in
/-- The state before the write. -/
theorem staged_start (hw : w0.Valid) (hown : w0.own = none) : Staged S p leaf w0 w0 none :=
  ⟨hw, rfl, fun _ _ => ⟨rfl, rfl⟩, hown, nofun⟩

/-- The write failed before its rename. -/
def failedEarly : Except EditError Unit → Bool
  | .ok () => false
  | .error e => e.early

theorem Wrote.kept {r : Except EditError Unit} (h : Wrote S p leaf data w0 r w) (hr : failedEarly r) :
    w.entry p leaf = w0.entry p leaf ∧ w.sees p leaf = w0.sees p leaf ∧
      ∀ i, w.own = some i → ∀ d n, w.entry d n ≠ some i := by
  cases h with
  | late hlate h =>
    cases r with
    | ok a => cases hr
    | error e => cases (hlate e rfl).symm.trans hr
  | early he h hname =>
    refine ⟨h.entry, h.sees, fun i hi d n hn => ?_⟩
    rw [h.own] at hi
    obtain ⟨x, hx, rfl⟩ := Option.map_eq_some_iff.mp hi
    have hnamed := (((h.draft x hx).2.2 d n).mp hn).2
    rw [hname x hx] at hnamed
    cases hnamed

theorem Wrote.sees {r : Except EditError Unit} (h : Wrote S p leaf data w0 r w) (hr : failedEarly r = false) :
    w.sees p leaf = some (.reg, data) := by
  cases h with
  | late hlate h => exact h.sees
  | early he h hname => cases he.symm.trans hr

/-- A file that has a name outside the scratch root is no draft, and never becomes one. -/
def Open (i : Ino) (w : Fs) : Prop := i < w.next ∧ w.own ≠ some i

/-- The draft has no name outside the scratch root. -/
def Unpublished (S : Ino) (w : Fs) : Prop :=
  w.Valid ∧ ∀ i, w.own = some i → ∀ d n, w.entry d n = some i → d = S

variable {u v : Fs} {q q' : Sys (Except EditError Unit)} {i d : Ino} {n : Name}

theorem Open.others (h : Open i w) (ho : Others p leaf w w') : Open i w' :=
  ⟨h.1.trans_le ho.next, by rw [ho.own]; exact h.2⟩

theorem Open.kept (h : Open i w) (hk : Kept S p leaf data w w') : Open i w' := by
  refine ⟨h.1.trans_le hk.next, ?_⟩
  rcases hk.own with ho | ho | ho
  · rw [ho]
    exact h.2
  · rw [ho]
    exact nofun
  · rw [ho]
    exact fun hi => h.1.ne (Option.some.inj hi).symm

theorem Unpublished.others (h : Unpublished S w) (ho : Others p leaf w w') : Unpublished S w' := by
  refine ⟨ho.valid h.1, fun i hi d n hn => ?_⟩
  have hown : w.own = some i := ho.own.symm.trans hi
  exact h.2 i hown d n (((ho.unpublished i hown).2.2 d n).mp hn)

/-- What a reader has opened is not changed by a call of the write. -/
theorem data_kept (hsafe : (editing S p leaf).Safe (keeps S p leaf data) (Wrote S p leaf data w0) q u)
    (hu : Unpublished S u) (hi : u.entry d n = some i) (hd : d ≠ S)
    {next : k.Ans → Sys (Except EditError Unit)} {f : Fate}
    (hrun : (editing S p leaf).machine.Reach Machine.Any (u, q) (v, .call k next)) (hf : may k f) :
    (exec S k f v).2.data i = v.data i := by
  have hopen : Open i u := ⟨hu.1.named d n i hi, fun hown => hd (hu.2 i hown d n hi)⟩
  have hv : Open i v := hsafe.invariant hrun hopen (fun w w' => Open.others) fun w k f hw _ hk => hw.kept hk
  have hk : Kept S p leaf data v (exec S k f v).2 := hsafe.guarantee hrun hf
  exact (hk.files i hv.1 hv.2).2

/-! ## The write alone -/

/-- Nobody else changes anything. -/
def alone (S : Ino) : Setting Call Call.Ans Fate Fs := ⟨exec S, Eq, may, Eq.refl, Eq.trans⟩

variable (p leaf) in
/-- The names but the target, and the files of the start, are as they were, the draft apart. -/
structure Elsewhere (w0 w : Fs) : Prop where
  next : w0.next ≤ w.next
  own : ∀ i, w.own = some i → w0.next ≤ i
  files : ∀ i < w0.next, w.kind i = w0.kind i ∧ w.data i = w0.data i
  names : ∀ d n, (d, n) ≠ (p, leaf) → ∀ i, w.own ≠ some i → (w.entry d n = some i ↔ w0.entry d n = some i)

theorem Elsewhere.kept (hw0 : w0.Valid) (h : Elsewhere p leaf w0 w) (hu : Unpublished S w)
    (hk : Kept S p leaf data w w') : Elsewhere p leaf w0 w' := by
  have hown : ∀ i < w0.next, w.own ≠ some i := fun i hi ho => absurd (h.own i ho) (not_le.mpr hi)
  refine ⟨h.next.trans hk.next, fun i hi => ?_, fun i hi => ?_, fun d n hdn i hi => ?_⟩
  · rcases hk.own with ho | ho | ho
    · exact h.own i (ho.symm.trans hi)
    · rw [ho] at hi
      cases hi
    · rw [ho] at hi
      exact Option.some.inj hi ▸ h.next
  · have hstep := hk.files i (hi.trans_le h.next) (hown i hi)
    exact ⟨hstep.1.trans (h.files i hi).1, hstep.2.trans (h.files i hi).2⟩
  · by_cases hd : d = S
    · subst hd
      refine ⟨fun hn => ?_, fun hn => ?_⟩
      · obtain ⟨hn', ho⟩ := (hk.named n i hn).resolve_right hi
        exact (h.names d n hdn i ho).mp hn'
      · have ho := hown i (hw0.named d n i hn)
        exact hk.staged n i ((h.names d n hdn i ho).mpr hn) ho
    · rw [hk.names d n hd hdn]
      by_cases ho : w.own = some i
      · exact iff_of_false (fun hn => hd (hu.2 i ho d n hn)) fun hn => hown i (hw0.named d n i hn) ho
      · exact h.names d n hdn i ho

variable {r : Except EditError Unit}

/-- Alone, a write that failed before its rename leaves every name as it was. -/
theorem names_kept (hw0 : w0.Valid) (h : Elsewhere p leaf w0 w)
    (hnone : ∀ i, w.own = some i → ∀ d n, w.entry d n ≠ some i) (hdn : (d, n) ≠ (p, leaf)) :
    w.entry d n = w0.entry d n := by
  ext i
  by_cases ho : w.own = some i
  · refine iff_of_false (hnone i ho d n) fun hn => ?_
    exact absurd (h.own i ho) (not_le.mpr (hw0.named d n i hn))
  · exact h.names d n hdn i ho

theorem elsewhere_start (hown : w0.own = none) : Elsewhere p leaf w0 w0 where
  next := le_rfl
  own i hi := by
    rw [hown] at hi
    cases hi
  files _ _ := ⟨rfl, rfl⟩
  names _ _ _ _ _ := Iff.rfl

theorem alone_safe (hne : S ≠ p) (hw0 : w0.Valid) (hown : w0.own = none) :
    (alone S).Safe (keeps S p leaf data) (Wrote S p leaf data w0) (atomicWriteAt S p leaf data) w0 :=
  Setting.Safe.rely (atomicWriteAt_safe data hne (staged_start S p leaf hw0 hown)) fun w _ h => h ▸ Others.refl w

theorem alone_elsewhere (hne : S ≠ p) (hw0 : w0.Valid) (hown : w0.own = none)
    (hrun : (alone S).machine.Reach Machine.Any (w0, atomicWriteAt S p leaf data) (w, q)) :
    Elsewhere p leaf w0 w := by
  have hall := (alone_safe hne hw0 hown).invariant (I := fun w => Elsewhere p leaf w0 w ∧ Unpublished S w) hrun
    ⟨elsewhere_start hown, hw0, (staged_start S p leaf hw0 hown).unpublished⟩
    (fun w w' hw heq => heq ▸ hw) fun w k f hw _ hk => ⟨hw.1.kept hw0 hw.2 hk, hk.valid, hk.unpublished⟩
  exact hall.1

/-! ## No link is followed -/

/-- The call does not resolve a link. -/
def Call.nofollow : Call → Prop
  | .openDir _ _ nofollow | .fstatat _ _ nofollow => nofollow = true
  | _ => True

/-- What is opened under a name, or looked at, is the file of that name, and what is opened is a directory. -/
def Direct (w : Fs) : (k : Call) → k.Ans → Prop
  | .openDir d n _, r => ∀ i, r = .ok i → w.entry d n = some i ∧ w.kind i = .dir
  | .fstatat d n _, r => ∀ k, r = .ok k → (w.entry d n).map w.kind = some k
  | _, _ => True

theorem direct_of_nofollow {f : Fate} (hk : k.nofollow) : Direct w k (exec S k f w).1 := by
  cases k with
  | openDir d n nofollow =>
    obtain rfl : nofollow = true := hk
    intro i hi
    cases f with
    | fails e => cases hi
    | works m =>
      simp only [exec, works] at hi
      cases hentry : w.entry d n with
      | none => simp [hentry] at hi
      | some j =>
        cases hkind : w.kind j with
        | dir =>
          simp only [hentry, hkind] at hi
          cases hi
          exact ⟨rfl, hkind⟩
        | _ => simp [hentry, hkind] at hi
  | fstatat d n nofollow =>
    obtain rfl : nofollow = true := hk
    intro kd hkd
    cases f with
    | fails e => cases hkd
    | works m =>
      simp only [exec, works] at hkd
      cases hentry : w.entry d n with
      | none => simp [hentry] at hkd
      | some j =>
        simp only [hentry, Bool.true_eq_false, and_false, if_false] at hkd
        cases hkd
        rfl
  | _ => trivial

section Each

variable {cur fd : Ino} {dirs : List Name} {tries fuel : ℕ}

theorem each_sys (h : k.nofollow) : (sys k).Each Call.nofollow := ⟨h, fun _ => trivial⟩

theorem inheritOwner_each : (inheritOwner cur fd).Each Call.nofollow :=
  (each_sys (k := .fstat cur) trivial).bind fun r => match r with
    | .error _ => trivial
    | .ok _ => each_sys (k := .fchown ..) trivial

theorem openComponent_each {comp : Name} : (openComponent cur comp).Each Call.nofollow := by
  refine (each_sys (k := .openDir cur comp true) rfl).bind fun r => ?_
  match r with
  | .ok next => trivial
  | .error .noent =>
    refine (each_sys (k := .mkdirat cur comp) trivial).bind fun r => ?_
    match r with
    | .error e => trivial
    | .ok () =>
    refine (each_sys (k := .openDir cur comp true) rfl).bind fun r => ?_
    match r with
    | .error e => trivial
    | .ok next => exact inheritOwner_each.bind fun r => match r with
      | .error _ => trivial
      | .ok () => trivial
  | .error .exist | .error .loop | .error .isdir | .error .notdir | .error .opnotsupp | .error (.other _) => trivial

theorem walk_each : (walk dirs cur).Each Call.nofollow := by
  induction dirs generalizing cur with
  | nil => trivial
  | cons comp dirs ih => exact openComponent_each.bind fun r => match r with
    | .error _ => trivial
    | .ok _ => ih

theorem openParentBeneath_each {id : Name} : (openParentBeneath S id dirs).Each Call.nofollow := by
  have hopen : Prog.Each Call.nofollow (do
      match ← sys (.openDir S id true) with
      | .error e => return .error (.openRoot e)
      | .ok rootFd => walk dirs rootFd : Sys (Except WalkError Ino)) :=
    (each_sys (k := .openDir S id true) rfl).bind fun r => match r with
      | .error _ => trivial
      | .ok _ => walk_each
  refine (each_sys (k := .mkdirat S id) trivial).bind fun r => ?_
  match r with
  | .ok () | .error .exist => exact hopen
  | .error .noent | .error .loop | .error .isdir | .error .notdir | .error .opnotsupp | .error (.other _) => trivial

theorem stageEditName_each {β : Type} {place : Name → Sys (Except Errno β)}
    (hplace : ∀ n, (place n).Each Call.nofollow) : (stageEditName place tries).Each Call.nofollow := by
  induction tries with
  | zero => trivial
  | succ tries ih =>
    refine (each_sys (k := .randUint64) trivial).bind fun a => (hplace _).bind fun r => ?_
    match r with
    | .ok a => trivial
    | .error .exist => exact ih
    | .error .noent | .error .loop | .error .isdir | .error .notdir | .error .opnotsupp | .error (.other _) => trivial

theorem createFile_each : (createFile S p).Each Call.nofollow := by
  refine (each_sys (k := .openTmpfile p) trivial).bind fun r => ?_
  match r with
  | .ok fd => trivial
  | .error e =>
    change Prog.Each _ (if unnamedFilesUnsupported e then _ else _)
    split_ifs
    · exact (stageEditName_each fun n => each_sys (k := .createExcl S n) trivial).bind fun r => match r with
        | .error _ => trivial
        | .ok _ => trivial
    · trivial

theorem writeLoop_each {b : List UInt8} : (writeLoop fd fuel b).Each Call.nofollow := by
  induction fuel generalizing b with
  | zero => trivial
  | succ fuel ih =>
    refine (each_sys (k := .write fd b) trivial).bind fun r => ?_
    match r with
    | .error e => trivial
    | .ok m =>
      change Prog.Each _ (if m = b.length then _ else if m = 0 then _ else _)
      split_ifs
      · trivial
      · trivial
      · exact ih

theorem nameFile_each : (nameFile S fd name).Each Call.nofollow := by
  cases name with
  | some n => trivial
  | none => exact (stageEditName_each fun n => each_sys (k := .linkat fd S n) trivial).bind fun r => match r with
    | .error _ => trivial
    | .ok (_, ()) => trivial

theorem publish_each : (publish S p fd leaf n).Each Call.nofollow := by
  refine inheritOwner_each.bind fun r => ?_
  match r with
  | .error e => trivial
  | .ok () =>
  refine (each_sys (k := .fsync fd) trivial).bind fun r => ?_
  match r with
  | .error e => trivial
  | .ok () =>
  refine (each_sys (k := .close fd) trivial).bind fun r => ?_
  match r with
  | .error e => trivial
  | .ok () =>
  refine (each_sys (k := .renameat S n p leaf) trivial).bind fun r => ?_
  match r with
  | .ok () =>
    refine Prog.Each.bind (p := syncDirs S p) ⟨trivial, fun a => ⟨trivial, fun b => ?_⟩⟩ fun r => trivial
    match a, b with
    | .ok (), .ok () => trivial
    | .ok (), .error _ | .error _, .ok () | .error _, .error _ => trivial
  | .error .isdir => trivial
  | .error .noent | .error .exist | .error .loop | .error .notdir | .error .opnotsupp | .error (.other _) => trivial

theorem atomicWriteAt_each : (atomicWriteAt S p leaf data).Each Call.nofollow := by
  have hrefuse : (refuseExistingLeaf p leaf).Each Call.nofollow := by
    refine (each_sys (k := .fstatat p leaf true) rfl).bind fun r => ?_
    match r with
    | .error .noent | .ok .lnk | .ok .dir | .ok .reg | .ok .other => trivial
    | .error .exist | .error .loop | .error .isdir | .error .notdir | .error .opnotsupp | .error (.other _) => trivial
  refine hrefuse.bind fun r => ?_
  match r with
  | .error e => trivial
  | .ok () =>
  refine createFile_each.bind fun r => ?_
  match r with
  | .error e => trivial
  | .ok (name, fd) =>
  refine Prog.Each.bind (writeLoop_each.bind fun r => ?_) fun r => ?_
  · match r with
    | .error e => trivial
    | .ok () => exact nameFile_each.bind fun r => match r with
      | .error _ => trivial
      | .ok _ => publish_each
  · match r with
    | (some n, .error e) => exact (each_sys (k := .unlinkat S n) trivial).bind fun _ => trivial
    | (none, r) | (some n, .ok ()) => trivial

theorem handleEditFile_each (id path : Name) (content : List UInt8) :
    (handleEditFile S id path content).Each Call.nofollow := by
  rw [handleEditFile]
  split_ifs
  · trivial
  · cases safeJoin path with
    | error e => trivial
    | ok components =>
      refine openParentBeneath_each.bind fun r => ?_
      match r with
      | .error e =>
        change Prog.Each _ (if e.errno = .loop then _ else _)
        split_ifs <;> trivial
      | .ok parentFd =>
      refine (each_sys (k := .openScratchRoot) trivial).bind fun r => ?_
      match r with
      | .error e => trivial
      | .ok stageFd =>
      refine (each_sys (k := .lockWorkingSet) trivial).bind fun r => ?_
      match r with
      | .error e => trivial
      | .ok () => exact atomicWriteAt_each.bind fun r => trivial

end Each

/-! ## The walk does not come to the scratch root -/

/-- The scratch root is outside every working set. -/
def Outside (S : Ino) (w : Fs) : Prop := S < w.next ∧ ∀ d n, w.entry d n ≠ some S

/-- Whatever the others do below the scratch root. -/
def below (S : Ino) : Setting Call Call.Ans Fate Fs :=
  ⟨exec S, fun w w' => Outside S w → Outside S w', fun _ _ => True, fun _ h => h, fun h h' hw => h' (h hw)⟩

/-- A descriptor that is not the scratch root. -/
def Within (S : Ino) {ε : Type} (r : Except ε Ino) (w : Fs) : Prop := Outside S w ∧ ∀ i, r = .ok i → i ≠ S

section Walk

variable {ε : Type} {cur : Ino} {dirs : List Name} {comp : Name}

theorem within_ret {r : Except ε Ino} (h : Within S r w) :
    (below S).Safe (fun _ _ _ _ => True) (Within S) (.ret r) w :=
  Setting.safe_ret (fun hq ho => ⟨ho hq.1, hq.2⟩) h

theorem within_error {e : ε} (h : Outside S w) :
    (below S).Safe (fun _ _ _ _ => True) (Within S) (.ret (.error e)) w :=
  within_ret ⟨h, nofun⟩

/-- A call of the walk that opens nothing. -/
theorem below_call {Q : α → Fs → Prop} (h : Outside S w) (hk : ∀ f w, Outside S w → Outside S (exec S k f w).2)
    (hnext : ∀ a w, Outside S w → (below S).Safe (fun _ _ _ _ => True) Q (next a) w) :
    (below S).Safe (fun _ _ _ _ => True) Q (.call k next) w :=
  Setting.safe_call (fun hw ho => ho hw) h fun w f hw _ => ⟨trivial, hnext _ _ (hk f w hw)⟩

theorem outside_mkdirat (f : Fate) (w : Fs) (h : Outside S w) : Outside S (exec S (.mkdirat d n) f w).2 := by
  cases f with
  | fails e => exact h
  | works m =>
    simp only [exec, works]
    split
    · exact h
    · refine ⟨h.1.trans (Nat.lt_succ_self _), fun d' n' => ?_⟩
      rw [Fs.setEntry_entry]
      split_ifs
      · exact fun hi => h.1.ne (Option.some.inj hi).symm
      · exact h.2 d' n'

theorem below_mkdirat {Q : α → Fs → Prop} {next : Except Errno Unit → Sys α} (h : Outside S w)
    (hnext : ∀ a w, Outside S w → (below S).Safe (fun _ _ _ _ => True) Q (next a) w) :
    (below S).Safe (fun _ _ _ _ => True) Q (.call (.mkdirat d n) next) w :=
  below_call h outside_mkdirat hnext

/-- What is opened without following a link is not the scratch root. -/
theorem below_openDir {Q : α → Fs → Prop} {next : Except Errno Ino → Sys α} (h : Outside S w)
    (hnext : ∀ a w, Outside S w → (∀ i, a = .ok i → i ≠ S) → (below S).Safe (fun _ _ _ _ => True) Q (next a) w) :
    (below S).Safe (fun _ _ _ _ => True) Q (.call (.openDir d n true) next) w := by
  refine Setting.safe_call (fun hw ho => ho hw) h fun w f hw _ => ⟨trivial, ?_⟩
  have hdirect : Direct w (.openDir d n true) (exec S (.openDir d n true) f w).1 := direct_of_nofollow rfl
  have hsame : (exec S (.openDir d n true) f w).2 = w := by
    cases f with
    | fails e => rfl
    | works m =>
      simp only [exec, works]
      split
      · rfl
      · split <;> rfl
  refine hnext _ _ ?_ fun i hi hS => hw.2 d n ?_
  · change Outside S (exec S (.openDir d n true) f w).2
    rw [hsame]
    exact hw
  · rw [← hS]
    exact (hdirect i hi).1

theorem inheritOwner_below (h : Outside S w) :
    (below S).Safe (fun _ _ _ _ => True) (fun _ w => Outside S w) (inheritOwner cur i) w := by
  refine below_call h (fun f w hw => by cases f <;> exact hw) fun a w hw => ?_
  match a with
  | .error e => exact Setting.safe_ret (fun hq ho => ho hq) hw
  | .ok owner => exact below_call hw (fun f w hw => by cases f <;> exact hw) fun a w hw =>
      Setting.safe_ret (fun hq ho => ho hq) hw

theorem openComponent_below (h : Outside S w) :
    (below S).Safe (fun _ _ _ _ => True) (Within S) (openComponent cur comp) w := by
  refine below_openDir h fun a w hw hne => ?_
  match a with
  | .ok next => exact within_ret ⟨hw, fun i hi => hne i (by cases hi; rfl)⟩
  | .error .noent =>
    refine below_mkdirat hw fun a w hw => ?_
    match a with
    | .error e => exact within_error hw
    | .ok () =>
    refine below_openDir hw fun a w hw hne => ?_
    match a with
    | .error e => exact within_error hw
    | .ok next =>
    refine (inheritOwner_below hw).bind fun a w hw => ?_
    match a with
    | .error e => exact within_error hw
    | .ok () => exact within_ret ⟨hw, fun i hi => hne i (by cases hi; rfl)⟩
  | .error .exist | .error .loop | .error .isdir | .error .notdir | .error .opnotsupp | .error (.other _) =>
    exact within_error hw

theorem walk_below (hcur : cur ≠ S) (h : Outside S w) :
    (below S).Safe (fun _ _ _ _ => True) (Within S) (walk dirs cur) w := by
  induction dirs generalizing cur w with
  | nil => exact within_ret ⟨h, fun i hi => by cases hi; exact hcur⟩
  | cons comp dirs ih =>
    refine (openComponent_below h).bind fun a w hw => ?_
    match a with
    | .error e => exact within_error hw.1
    | .ok next => exact ih (hw.2 next rfl) hw.1

/-- **The parent of the target is not the scratch root.** -/
theorem openParentBeneath_below {id : Name} (h : Outside S w) :
    (below S).Safe (fun _ _ _ _ => True) (Within S) (openParentBeneath S id dirs) w := by
  have hopen : ∀ w, Outside S w → (below S).Safe (fun _ _ _ _ => True) (Within S) (do
      match ← sys (.openDir S id true) with
      | .error e => return .error (.openRoot e)
      | .ok rootFd => walk dirs rootFd : Sys (Except WalkError Ino)) w := by
    intro w hw
    refine below_openDir hw fun a w hw hne => ?_
    match a with
    | .error e => exact within_error hw
    | .ok rootFd => exact walk_below (hne rootFd rfl) hw
  refine below_mkdirat h fun a w hw => ?_
  match a with
  | .ok () | .error .exist => exact hopen w hw
  | .error .noent | .error .loop | .error .isdir | .error .notdir | .error .opnotsupp | .error (.other _) =>
    exact within_error hw

end Walk

/-! ## The result -/

/-- Whatever the others do. -/
def anything (S : Ino) : Setting Call Call.Ans Fate Fs :=
  ⟨exec S, fun _ _ => True, fun _ _ => True, fun _ => trivial, fun _ _ => trivial⟩

/-- **The write is atomic, and follows no link.** Among others that leave the target and the unpublished file alone:
the target is the old file or the new one at every instant, a write that failed before its rename leaves the old one
and no staged name, any other leaves the new one, and no file that a reader has opened is changed. Alone, every other
name stays as it was. -/
theorem atomicWriteAt_atomic (S p : Ino) (leaf : Name) (data : List UInt8) (w0 : Fs) (hne : S ≠ p) (hw0 : w0.Valid)
    (hown : w0.own = none) :
    (∀ w q, (editing S p leaf).machine.Reach Machine.Any (w0, atomicWriteAt S p leaf data) (w, q) →
      (w.sees p leaf = w0.sees p leaf ∨ w.sees p leaf = some (.reg, data)) ∧
      (∀ r, q = .ret r →
        (failedEarly r → w.sees p leaf = w0.sees p leaf ∧ ∀ i, w.own = some i → ∀ d n, w.entry d n ≠ some i) ∧
        (failedEarly r = false → w.sees p leaf = some (.reg, data))) ∧
      (∀ d n i, d ≠ S → w.entry d n = some i → ∀ v k next f, may k f →
        (editing S p leaf).machine.Reach Machine.Any (w, q) (v, .call k next) →
        (exec S k f v).2.data i = v.data i)) ∧
    (∀ w r, (alone S).machine.Reach Machine.Any (w0, atomicWriteAt S p leaf data) (w, .ret r) →
      (∀ d n, (d, n) ≠ (p, leaf) → failedEarly r → w.entry d n = w0.entry d n) ∧
      (failedEarly r → w.entry p leaf = w0.entry p leaf) ∧
      (∀ i < w0.next, w.kind i = w0.kind i ∧ w.data i = w0.data i)) ∧
    (∀ id path content w1 w k next f, (anything S).machine.Reach Machine.Any
      (w1, handleEditFile S id path content) (w, .call k next) → Direct w k (exec S k f w).1) ∧
    (∀ id dirs w1 w parent, Outside S w1 →
      (below S).machine.Reach Machine.Any (w1, openParentBeneath S id dirs) (w, .ret (.ok parent)) → parent ≠ S) := by
  have hstart : Staged S p leaf w0 w0 none := staged_start S p leaf hw0 hown
  have hsafe := atomicWriteAt_safe data hne hstart
  refine ⟨fun w q hrun => ⟨?_, ?_, ?_⟩, fun w r hrun => ⟨?_, ?_, ?_⟩, ?_, ?_⟩
  · refine hsafe.invariant (I := fun w => w.sees p leaf = w0.sees p leaf ∨ w.sees p leaf = some (.reg, data)) hrun
      (.inl rfl) (fun w w' hw ho => ?_) fun w k f hw _ hk => ?_
    · rw [ho.sees]
      exact hw
    · exact hk.sees.elim (fun h => h ▸ hw) .inr
  · rintro r rfl
    have hwrote : Wrote S p leaf data w0 r w := hsafe.returns hrun
    exact ⟨fun hr => ⟨(hwrote.kept hr).2.1, (hwrote.kept hr).2.2⟩, hwrote.sees⟩
  · intro d n i hd hi v k next f hf hv
    have hu : Unpublished S w := hsafe.invariant hrun ⟨hw0, hstart.unpublished⟩ (fun w w' hw ho => hw.others ho)
      fun w k f _ _ hk => ⟨hk.valid, hk.unpublished⟩
    exact data_kept (hsafe.reach hrun) hu hi hd hv hf
  · intro d n hdn hr
    have hwrote : Wrote S p leaf data w0 r w := (alone_safe hne hw0 hown).returns hrun
    exact names_kept hw0 (alone_elsewhere hne hw0 hown hrun) (hwrote.kept hr).2.2 hdn
  · intro hr
    have hwrote : Wrote S p leaf data w0 r w := (alone_safe hne hw0 hown).returns hrun
    exact (hwrote.kept hr).1
  · exact (alone_elsewhere hne hw0 hown hrun).files
  · intro id path content w1 w k next f hrun
    have heach := Setting.safe_of_each (S := anything S) (G := fun w k a _ => Direct w k a) (w := w1)
      (handleEditFile_each (S := S) id path content) fun w k f hk => direct_of_nofollow hk
    exact heach.guarantee hrun trivial
  · intro id dirs w1 w parent hout hrun
    have hwithin : Within S (.ok parent) w := (openParentBeneath_below hout).returns hrun
    exact hwithin.2 parent rfl

/-- The scratch root and an empty working set. -/
def emptyFs : Fs where
  kind _ := .dir
  data _ := []
  owner _ := (0, 0)
  link i := i
  entry _ _ := none
  next := 2
  own := none

/-- The write of a byte to a new file, whose rename fails or not. -/
theorem atomicWriteAt_atomic_newFile :
    (∃ w, (editing 0 1 [97]).machine.Reach Machine.Any (emptyFs, atomicWriteAt 0 1 [97] [7]) (w, .ret (.ok ())) ∧
      w.sees 1 [97] = some (.reg, [7])) ∧
    ∃ w e, (editing 0 1 [97]).machine.Reach Machine.Any (emptyFs, atomicWriteAt 0 1 [97] [7]) (w, .ret (.error e)) ∧
      w.sees 1 [97] = none ∧ ∀ i, w.own = some i → ∀ d n, w.entry d n ≠ some i := by
  have h := (atomicWriteAt_atomic 0 1 [97] [7] emptyFs (by decide) ⟨nofun, nofun⟩ rfl).1
  -- the third call writes the byte, the tenth is the rename
  have hworks : (editing 0 1 [97]).machine.Reach Machine.Any _ ((editing 0 1 [97]).run
      [.works 0, .works 0, .works 1, .works 0, .works 0, .works 0, .works 0, .works 0, .works 0, .works 0, .works 0,
        .works 0] (emptyFs, atomicWriteAt 0 1 [97] [7])) := Setting.reach_run (by repeat' constructor)
  have hfails : (editing 0 1 [97]).machine.Reach Machine.Any _ ((editing 0 1 [97]).run
      [.works 0, .works 0, .works 1, .works 0, .works 0, .works 0, .works 0, .works 0, .works 0, .fails (.other 5),
        .works 0] (emptyFs, atomicWriteAt 0 1 [97] [7])) := Setting.reach_run (by repeat' constructor)
  refine ⟨⟨_, hworks, ((h _ _ hworks).2.1 (.ok ()) rfl).2 rfl⟩, _, .rename _ (.other 5), hfails, ?_⟩
  exact ((h _ _ hfails).2.1 (.error (.rename _ (.other 5))) rfl).1 rfl

end McServerDashboard.Worker.EditFile
