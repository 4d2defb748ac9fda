import Mathlib.Data.List.AList
import McServerDashboard.Storage.RelPath

/-!
# A directory tree on the filesystem

The tree below one snapshot or staging directory, and the system calls the storage adapter makes
on it. Every call is one atomic change (`TreeOp`) that either takes effect or fails with an errno
and changes nothing.

* `Node`, `Tree`: the dirents by path; the root of the tree is a directory and has no entry.
* `Tree.stat`: resolve a path component by component, as the kernel does.
* `TreeOp.run`: `mkdir`, the temp-sibling `create`, `fill` and `rename`, `remove`, `discard`.
-/

namespace McServerDashboard.Fs

/-- One dirent. A symlink keeps whether it resolves outside the server root. -/
inductive Node
  | file (data : Bytes)
  | dir
  | link (escapes : Bool)
  deriving DecidableEq, Repr

/-- The entries of a tree, by path below its root. -/
abbrev Tree := AList fun _ : Path => Node

/-- The errors of the system calls. -/
inductive Errno
  | noent
  | notdir
  | exist
  | isdir
  | notempty
  | inval
  | nametoolong
  | loop
  deriving DecidableEq, Repr

namespace Tree

/-- The dirent at `p`; the root is a directory. -/
def node (t : Tree) (p : Path) : Option Node := if p = [] then some .dir else t.lookup p

/-- Walk `rest` from the directory `pre`, which is known to be there. -/
def walk (t : Tree) (pre : Path) : Path → Except Errno Node
  | [] => .ok .dir
  | part :: rest =>
    if isOverlong part then .error .nametoolong
    else match t.lookup (pre ++ [part]) with
      | none => .error .noent
      | some .dir => walk t (pre ++ [part]) rest
      | some (.link e) => if rest = [] then .ok (.link e) else .error .loop
      | some (.file data) => if rest = [] then .ok (.file data) else .error .notdir

@[simp] theorem walk_nil {t : Tree} {pre : Path} : t.walk pre [] = .ok .dir := rfl

theorem walk_cons {t : Tree} {pre rest : Path} {part : String} : t.walk pre (part :: rest) =
    if isOverlong part then .error .nametoolong
    else match t.lookup (pre ++ [part]) with
      | none => .error .noent
      | some .dir => t.walk (pre ++ [part]) rest
      | some (.link e) => if rest = [] then .ok (.link e) else .error .loop
      | some (.file data) => if rest = [] then .ok (.file data) else .error .notdir :=
  rfl

/-- `lstat`: the dirent a path names. -/
def stat (t : Tree) (p : Path) : Except Errno Node := t.walk [] p

/-- The entry a call on `p` acts on: its parent must be a directory and its name short enough. -/
def entry (t : Tree) (p : Path) : Except Errno (Option Node) :=
  match t.stat p.dropLast with
  | .error e => .error e
  | .ok .dir =>
    if (p.getLast?.map isOverlong).getD false then .error .nametoolong else .ok (t.node p)
  | .ok _ => .error .notdir

/-- Does the directory at `p` hold anything? -/
def hasEntries (t : Tree) (p : Path) : Bool := t.keys.any fun q => q ≠ p && p.isPrefixOf q

/-- Move everything at and below `src` to `dst`. -/
def moveEntries (t : Tree) (src dst : Path) : Tree :=
  ((t.entries.filter fun e => !dst.isPrefixOf e.1).map fun e =>
    if src.isPrefixOf e.1 then ⟨dst ++ e.1.drop src.length, e.2⟩ else e).toAList

end Tree

/-- One atomic change of a tree. -/
inductive TreeOp
  /-- `mkdir(2)`, where a directory already there is fine. -/
  | mkdir (p : Path)
  /-- `mkstemp`: a new empty file. -/
  | create (p : Path)
  /-- Write the whole of `data` to the open file. -/
  | fill (p : Path) (data : Bytes)
  /-- `rename(2)`. -/
  | rename (src dst : Path)
  /-- `unlink(2)`, or `rmdir(2)` for an empty directory. -/
  | remove (p : Path)
  /-- The same with the error ignored. -/
  | discard (p : Path)
  deriving DecidableEq, Repr

namespace TreeOp

/-- `remove`: what is there goes, a directory only when it is empty. -/
def runRemove (p : Path) (t : Tree) : Except Errno Tree :=
  match t.entry p with
  | .error e => .error e
  | .ok none => .error .noent
  | .ok (some .dir) =>
    if p = [] then .error .inval
    else if t.hasEntries p then .error .notempty else .ok (t.erase p)
  | .ok (some _) => .ok (t.erase p)

/-- `rename`: a file replaces a file, a directory an empty directory. -/
def runRename (src dst : Path) (t : Tree) : Except Errno Tree :=
  match t.entry src, t.entry dst with
  | .error e, _ => .error e
  | _, .error e => .error e
  | .ok none, _ => .error .noent
  | .ok (some .dir), .ok old =>
    if src = dst then .ok t
    else if src.isPrefixOf dst then .error .inval
    else if dst.isPrefixOf src then .error .notempty
    else match old with
      | none => .ok (t.moveEntries src dst)
      | some .dir => if t.hasEntries dst then .error .notempty else .ok (t.moveEntries src dst)
      | some _ => .error .notdir
  | .ok (some _), .ok old =>
    if src = dst then .ok t
    else if old = some .dir then .error .isdir
    else .ok (t.moveEntries src dst)

/-- The effect of a call, or its errno. -/
def run : TreeOp → Tree → Except Errno Tree
  | mkdir p, t =>
    match t.entry p with
    | .error e => .error e
    | .ok none => .ok (t.insert p .dir)
    | .ok (some .dir) => .ok t
    | .ok (some _) => .error .exist
  | create p, t =>
    match t.entry p with
    | .error e => .error e
    | .ok none => .ok (t.insert p (.file []))
    | .ok (some _) => .error .exist
  | fill p data, t =>
    match t.entry p with
    | .ok (some (.file _)) => .ok (t.insert p (.file data))
    | .ok _ => .error .noent
    | .error e => .error e
  | rename src dst, t => runRename src dst t
  | remove p, t => runRemove p t
  | discard p, t =>
    match runRemove p t with
    | .ok t' => .ok t'
    | .error _ => .ok t

end TreeOp

/-- `mkdir(parents=True, exist_ok=True)`: the missing directories, from the top. -/
def mkdirParents (p : Path) : List TreeOp := p.inits.tail.map .mkdir

/-- The temp sibling a write of `p` goes through; `salt` is what `mkstemp` drew. -/
def tempSibling (p : Path) (salt : String) : Path :=
  p.dropLast ++ ["." ++ p.getLast?.getD "" ++ "." ++ salt ++ ".tmp"]

/-- `_atomic_write`: temp sibling, then an atomic rename over the target. -/
def atomicWrite (p : Path) (data : Bytes) (salt : String) : List TreeOp :=
  [.create (tempSibling p salt), .fill (tempSibling p salt) data, .rename (tempSibling p salt) p]

end McServerDashboard.Fs
