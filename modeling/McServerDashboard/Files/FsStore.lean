import McServerDashboard.Files.Root
import McServerDashboard.Fs.Frame

/-!
# The files of a server on the filesystem

The file store that `FsStorage` is behind its adapter: the mutators of `Fs`, performed to their end, and the retained
versions. A request that fails half-way leaves what `Fs` says of its session; here it is a failure.

* `fsStore`: the store.
* `rootNode`: what stands at a name of the root; `properties`, the content of the root `server.properties`.
* **`currentProperties_eq`**: the baseline of the guards is that content.
* **`write_rootNode`**, **`rename_rootNode`**, **`deleteFile_rootNode`**, ...: what each mutation leaves at the root.
-/

namespace McServerDashboard.Files

open Lib Fs

/-! ## The store -/

/-- The disk, and the retained versions of every path, oldest first. -/
structure Store where
  disk : Disk
  versions : Path → List (String × Bytes)

/-- What an operation draws: a staging directory, the salt of a temp name, a version id. -/
structure Draw where
  dir : DirId
  salt : String
  versionId : String

/-! ### Errors -/

/-- The errors of a storage check as the adapter raises them. -/
def storageError (relPath : String) : Err → FileError
  | .pathTraversal _ => .invalidFilePath relPath .invalidPath
  | .symlinkRefused _ => .invalidFilePath relPath .symlinkRefused
  | .nameTooLong _ => .invalidFilePath relPath .nameTooLong
  | .fileNotFound _ | .directoryNotFound _ | .notPublished => .serverFileNotFound
  | _ => .unmapped

/-- `_dest_mutation_errnos`: `refused` is the path of a refusal, `conflict` that of a conflict. -/
def destMutationErrno (refused conflict : String) : Errno → FileError
  | .nametoolong => .invalidFilePath refused .nameTooLong
  | .exist | .notdir => .fileAlreadyExists conflict
  | _ => .unmapped

/-- A method that does not catch `NotFoundError`. -/
def unmappedMiss : FileError → FileError
  | .serverFileNotFound => .unmapped
  | e => e

/-- A method that does not catch `PathOccupiedError`. -/
def unmappedConflict : FileError → FileError
  | .fileAlreadyExists _ => .unmapped
  | e => e

/-- `_rel_path`. -/
def toRelPath (raw : String) : Except FileError RelPath :=
  match RelPath.ofRaw raw with
  | some p => .ok p
  | none => .error (.invalidFilePath raw .invalidPath)

/-! ### Reads -/

/-- `_safe_read_target`: no link at any component. -/
def safeReadTarget (t : Tree) (p : RelPath) : Except Err Unit := do
  safeTarget t p
  match t.lookup p.parts with
  | some (.link _) => .error (.symlinkRefused p)
  | _ => .ok ()

/-- `_read_file`. -/
def storageRead (p : RelPath) (k : Disk) : Except Err Bytes := do
  let (_, t) ← currentDir k
  safeReadTarget t p
  match t.stat p.parts with
  | .ok (.file data) => .ok data
  | _ => .error (.fileNotFound p)

/-- The children of a directory, by name. -/
def children (t : Tree) (p : Path) : List DirEntry :=
  ((t.keys.filter fun q => q ≠ [] ∧ q.dropLast = p).map fun q => ⟨q.getLast?.getD "", t.lookup q = some .dir⟩).insertionSort
    fun a b => a.name ≤ b.name

/-- `_list_dir`. -/
def storageList (p : RelPath) (k : Disk) : Except Err (List DirEntry) :=
  if k.current = none then .ok []
  else do
    let (_, t) ← currentDir k
    safeReadTarget t p
    match t.stat p.parts with
    | .ok .dir => .ok (children t p.parts)
    | _ => .error (.directoryNotFound p)

/-- `_path_exists`. -/
def storageExists (p : RelPath) (k : Disk) : Except Err Bool :=
  if k.current = none then .ok (p.parts = [])
  else do
    let (_, t) ← currentDir k
    safeTarget t p
    return (t.stat p.parts).isOk

/-! ### Mutations -/

/-- A mutator under the lock, performed to its end. -/
def mutate (m : Mutator) (refused : String) (errno : Errno → FileError) (k : Disk) : Except FileError Disk :=
  match m.check k with
  | .error e => .error (storageError refused e)
  | .ok w =>
    match perform Write.run (w.plan k).writes k with
    | .error e => .error (errno e)
    | .ok k' => .ok k'

/-- The file that a mutation of `p` captures first. -/
def prior (k : Disk) (p : Path) : Option Bytes :=
  match k.currentTree with
  | none => none
  | some (_, t) =>
    match t.stat p with
    | .ok (.file data) => some data
    | _ => none

/-- `_capture_version` and `_prune_versions`. -/
def capture (retention : ℕ) (versionId : String) (p : Path) (s : Store) : Path → List (String × Bytes) :=
  match prior s.disk p with
  | none => s.versions
  | some data => Function.update s.versions p ((s.versions p ++ [(versionId, data)]).rtake retention)

/-- `_write_file`. -/
def storageWrite (retention : ℕ) (d : Draw) (relPath : String) (p : RelPath) (content : Bytes) (s : Store) :
    Except FileError Store :=
  (mutate (.writeFile p content d.dir d.salt) relPath (destMutationErrno relPath relPath) s.disk).map fun k =>
    ⟨k, capture retention d.versionId p.parts s⟩

/-- What `rmtree` meets below `p`, the deepest first. -/
def membersBelow (k : Disk) (p : Path) : List Path :=
  match k.currentTree with
  | none => []
  | some (_, t) => (t.keys.filter fun q => p <+: q ∧ q ≠ p).insertionSort fun a b => b.length ≤ a.length

/-- The pattern of `VersionId`. -/
def isVersionId (raw : String) : Bool :=
  raw ≠ "" && raw.toList.all fun c => c.isAlphanum || c = '_' || c = '-'

/-- `read_file_version`. -/
def storageVersion (p : RelPath) (versionId : String) (s : Store) : Except FileError Bytes :=
  if !isVersionId versionId then .error (.invalidVersionId versionId)
  else match (s.versions p.parts).lookup versionId with
    | none => .error .serverFileNotFound
    | some data => .ok data

/-- `StorageFileStoreAdapter` over `FsStorage`. -/
def fsStore (retention : ℕ) : FileStore Store Draw where
  readFile relPath s := do
    let p ← toRelPath relPath
    (storageRead p s.disk).mapError (storageError relPath)
  listDir relPath s := do
    let p ← toRelPath relPath
    (storageList p s.disk).mapError (storageError relPath)
  pathExists relPath s := do
    let p ← toRelPath relPath
    (storageExists p s.disk).mapError fun e => unmappedMiss (storageError relPath e)
  writeFile d relPath content s := do
    let p ← toRelPath relPath
    (storageWrite retention d relPath p content s).mapError unmappedMiss
  deleteFile d relPath s := do
    let p ← toRelPath relPath
    let k ← mutate (.deleteFile p) relPath (fun _ => .unmapped) s.disk
    return ⟨k, capture retention d.versionId p.parts s⟩
  deleteDir _ relPath s := do
    let p ← toRelPath relPath
    let k ← mutate (.deleteDir p (membersBelow s.disk p.parts)) relPath (fun _ => .unmapped) s.disk
    return ⟨k, s.versions⟩
  renameFile _ fromPath toPath s := do
    let src ← toRelPath fromPath
    let dst ← toRelPath toPath
    let k ← mutate (.renameFile src dst) fromPath (destMutationErrno fromPath toPath) s.disk
    return ⟨k, s.versions⟩
  renameDir _ fromPath toPath s := do
    let src ← toRelPath fromPath
    let dst ← toRelPath toPath
    let k ← mutate (.renameDir src dst) fromPath (destMutationErrno fromPath toPath) s.disk
    return ⟨k, s.versions⟩
  makeDir _ relPath s := do
    let p ← toRelPath relPath
    let k ← mutate (.makeDir p) relPath (destMutationErrno relPath relPath) s.disk
    return ⟨k, s.versions⟩
  readVersion relPath versionId s := do
    let p ← toRelPath relPath
    storageVersion p versionId s
  rollback d relPath versionId s := do
    let p ← toRelPath relPath
    let content ← storageVersion p versionId s
    (storageWrite retention d relPath p content s).mapError unmappedConflict

/-! ## The root -/

/-- What stands at a name of the root. -/
def rootNode (k : Disk) (name : String) : Option Node := k.currentTree.bind fun x => x.2.lookup [name]

/-- The content of the root `server.properties`. -/
def properties (k : Disk) : Bytes :=
  match rootNode k propertiesRelPath with
  | some (.file data) => data
  | _ => []

variable {retention : ℕ} {d : Draw} {raw : String} {p src dst : RelPath} {s s' : Store} {k k' : Disk} {t t' : Tree}
  {m : Mutator} {e : Edit} {errno : Errno → FileError} {content : Bytes} {name : String}

theorem toRelPath_eq_ok : toRelPath raw = .ok p ↔ RelPath.ofRaw raw = some p := by
  unfold toRelPath
  split <;> simp [*]

theorem of_relPath {β : Type} {f : RelPath → Except FileError β} {b : β} (hp : RelPath.ofRaw raw = some p)
    (h : toRelPath raw >>= f = .ok b) : f p = .ok b := by
  rw [toRelPath_eq_ok.mpr hp] at h
  exact h

/-- The checks passed, and every write was performed. -/
theorem mutate_eq_ok (h : mutate m raw errno k = .ok k') :
    ∃ w, m.check k = .ok w ∧ perform Write.run (w.plan k).writes k = .ok k' := by
  unfold mutate at h
  split at h
  · cases h
  · next w hw =>
    split at h <;> cases h
    next hrun => exact ⟨w, hw, hrun⟩

theorem rootNode_of_currentTree {live : DirId} (h : k.currentTree = some (live, t)) :
    rootNode k name = t.lookup [name] := by
  rw [rootNode, h]
  rfl

theorem eq_root_of_above {x : Path} (hx : x ≠ []) (h : x <+: [name]) : x = [name] := by
  match x with
  | [] => exact absurd rfl hx
  | [y] => simpa using h
  | y :: z :: l => simpa using h.length_le

theorem root_above {x : Path} : [name] <+: x ↔ x.head? = some name := by
  cases x with
  | nil => simp
  | cons y l => simp [eq_comm]

/-! ### Reads -/

/-- The name of the root `server.properties`. -/
def propertiesPath : RelPath := ⟨[propertiesRelPath], by decide⟩

theorem toRelPath_properties : toRelPath propertiesRelPath = .ok propertiesPath := by decide +kernel

theorem stat_root (hname : isOverlong name = false) : t.stat [name] =
    match t.lookup [name] with
    | some n => .ok n
    | none => .error .noent := by
  simp only [Tree.stat, Tree.walk_cons, Tree.walk_nil, hname, Bool.false_eq_true, if_false, List.nil_append, if_true]
  cases t.lookup [name] with
  | none => rfl
  | some n => cases n <;> rfl

theorem walk_file {pre rest : Path} (h : t.walk pre rest = .ok (.file content)) :
    t.lookup (pre ++ rest) = some (.file content) := by
  induction rest generalizing pre with
  | nil => cases h
  | cons part rest ih =>
    rw [Tree.walk_cons] at h
    split at h
    · cases h
    split at h
    · cases h
    · have hrest := ih h
      rwa [List.append_assoc] at hrest
    · split_ifs at h
      cases h
    · next data hl =>
      split_ifs at h with hr
      cases h
      rwa [hr]

/-- The file that a path names stands there. -/
theorem stat_file {q : Path} (h : t.stat q = .ok (.file content)) : t.lookup q = some (.file content) := walk_file h

/-- Above what is there, the root is. -/
theorem stat_head {n : Node} {rest : Path} (h : t.stat (name :: rest) = .ok n) : (t.stat [name]).isOk := by
  simp only [Tree.stat, Tree.walk_cons, Tree.walk_nil] at h ⊢
  split at h
  · cases h
  next hshort =>
  rw [if_neg hshort]
  split at h
  · cases h
  · rfl
  · rfl
  · rfl

theorem existingDir_root (h : existingDir t [name]) : t.lookup [name] = some .dir := by
  unfold existingDir at h
  split at h
  · next hstat =>
    simp only [Tree.stat, Tree.walk_cons, Tree.walk_nil] at hstat
    split at hstat
    · cases hstat
    split at hstat
    · cases hstat
    · next hl => exact hl
    · cases hstat
    · cases hstat
  · cases h

theorem linkParent_root : linkParent t [name] = none := by simp [linkParent]

/-- What a read of a name of the root answers. -/
theorem storageRead_root (hp : p.parts = [name]) (hname : isOverlong name = false) : storageRead p k =
    match k.currentTree, rootNode k name with
    | none, _ => .error .notPublished
    | some _, some (.file data) => .ok data
    | some _, some (.link true) => .error (.pathTraversal p)
    | some _, some (.link false) => .error (.symlinkRefused p)
    | some _, _ => .error (.fileNotFound p) := by
  obtain ⟨parts, clean⟩ := p
  cases hp
  cases hk : k.currentTree with
  | none =>
    rw [storageRead, currentDir, hk]
    rfl
  | some x =>
    obtain ⟨live, t⟩ := x
    rw [rootNode_of_currentTree hk, storageRead, currentDir, hk]
    change Except.bind (Except.bind (safeTarget t _) _) _ = _
    rw [safeTarget, linkParent_root]
    dsimp only [Except.bind]
    rw [stat_root hname]
    match t.lookup [name] with
    | none | some (.file _) | some .dir | some (.link true) | some (.link false) => rfl

/-- **The baseline of the guards is the content of the root file.** -/
theorem currentProperties_eq (h : currentProperties (fsStore retention) s = .ok content) : content = properties s.disk := by
  have hread : (fsStore retention).readFile propertiesRelPath s =
      (storageRead propertiesPath s.disk).mapError (storageError propertiesRelPath) := by
    simp only [fsStore, toRelPath_properties]
    rfl
  rw [currentProperties, hread, storageRead_root rfl (by decide)] at h
  unfold properties
  cases hk : s.disk.currentTree with
  | none =>
    rw [hk] at h
    cases h
    rw [rootNode, hk]
    rfl
  | some x =>
    rw [hk] at h
    match hn : rootNode s.disk propertiesRelPath with
    | none | some .dir | some (.file _) =>
      rw [hn] at h
      cases h
      rfl
    | some (.link true) | some (.link false) =>
      rw [hn] at h
      cases h

/-- What a read of a file answers stands in the tree. -/
theorem storageRead_eq_ok (h : storageRead p k = .ok content) :
    ∃ live t, k.currentTree = some (live, t) ∧ t.stat p.parts = .ok (.file content) := by
  obtain ⟨⟨live, t⟩, hc, h⟩ := ok_of_bind h
  obtain ⟨-, -, h⟩ := ok_of_bind h
  refine ⟨live, t, currentDir_ok hc, ?_⟩
  split at h
  · next hstat => exact hstat.trans (congrArg _ (congrArg _ (Except.ok.inj h)))
  · cases h

/-- What is at a path, if anything. -/
theorem storageExists_eq_ok {live : DirId} {b : Bool} (ht : k.currentTree = some (live, t)) (h : storageExists p k = .ok b) :
    (t.stat p.parts).isOk = b := by
  have hcur : k.current ≠ none := by
    rw [(Disk.current_of_currentTree ht).1]
    exact Option.some_ne_none _
  simp only [storageExists, if_neg hcur, currentDir, ht] at h
  obtain ⟨x, hx, h⟩ := ok_of_bind h
  cases hx
  obtain ⟨-, -, h⟩ := ok_of_bind h
  exact Except.ok.inj h

/-- The root is always there. -/
theorem ne_nil_of_free (h : storageExists p k = .ok false) : p.parts ≠ [] := by
  intro hnil
  unfold storageExists at h
  split at h
  · simp [hnil] at h
  · obtain ⟨⟨live, t⟩, -, h⟩ := ok_of_bind h
    obtain ⟨-, -, h⟩ := ok_of_bind h
    rw [hnil] at h
    cases h

/-! ### Mutations -/

/-- **What a write leaves at the root.** -/
theorem write_rootNode (name : String) (h : mutate (.writeFile p content d.dir d.salt) raw errno k = .ok k') (hcur : k.current ≠ none) :
    k'.current = k.current ∧ (p.parts = [name] → rootNode k' name = some (.file content)) ∧
      (p.parts ≠ [name] → p.parts.head? ≠ some name ∨ rootNode k name ≠ none → rootNode k' name = rootNode k name ∨
        [name] = tempSibling p.parts d.salt ∧ rootNode k' name = none) := by
  obtain ⟨w, hw, hrun⟩ := mutate_eq_ok h
  obtain ⟨hp, live, t, ht, rfl⟩ := checkWriteFile_eq_ok hcur hw
  obtain ⟨t', ht', hk'⟩ := edit_currentTree ht hrun
  have hlive : k'.currentTree = some (live, t') := hk'.resolve_right fun hwipe => nomatch hwipe.1
  rw [rootNode_of_currentTree hlive, rootNode_of_currentTree ht]
  obtain ⟨u, hmk, hu⟩ := (perform_append TreeOp.run).mp ht'
  have hwrite := atomicWrite_lookup hp hu
  refine ⟨edit_current hrun, ?_, fun hne hkept => ?_⟩
  · intro hroot
    rw [← hroot]
    exact hwrite.1
  · by_cases htemp : [name] = tempSibling p.parts d.salt
    · refine .inr ⟨htemp, ?_⟩
      rw [htemp]
      exact hwrite.2
    · have hsib : ¬ tempSibling p.parts d.salt <+: [name] := fun hpre =>
        htemp (eq_root_of_above (List.append_ne_nil_of_right_ne_nil _ (List.cons_ne_nil _ _)) hpre).symm
      have hdirs : u.lookup [name] = t.lookup [name] := by
        rcases hkept with hhead | hsome
        · exact perform_lookup hmk fun op hop htouch =>
            hhead (root_above.mp ((mkdirParents_touches hop htouch).1.trans (List.dropLast_prefix _)))
        · obtain ⟨n, hn⟩ := Option.ne_none_iff_exists'.mp hsome
          rw [hn, perform_mkdirParents hmk (List.cons_ne_nil _ _) hn]
      exact .inl ((atomicWrite_lookup_ne (fun hpre => hne (eq_root_of_above hp hpre)) hsib hu).trans hdirs)

/-- **What the deletion of a file leaves at the root.** -/
theorem deleteFile_rootNode (name : String) (h : mutate (.deleteFile p) raw errno k = .ok k') : k'.current = k.current ∧
    (p.parts ≠ [name] → rootNode k' name = rootNode k name) ∧ (p.parts = [name] → rootNode k' name = none) := by
  obtain ⟨w, hw, hrun⟩ := mutate_eq_ok h
  obtain ⟨live, t, ht, rfl⟩ := checkDeleteFile_eq_ok hw
  obtain ⟨t', ht', hk'⟩ := edit_currentTree ht hrun
  have hlive : k'.currentTree = some (live, t') := hk'.resolve_right fun hwipe => nomatch hwipe.1
  rw [rootNode_of_currentTree hlive, rootNode_of_currentTree ht]
  obtain ⟨u, hrm, hu⟩ := ok_of_bind ht'
  cases hu
  rw [runRemove_eq_ok hrm]
  refine ⟨edit_current hrun, fun hne => AList.lookup_erase_ne (Ne.symm hne), fun heq => ?_⟩
  rw [heq]
  exact AList.lookup_erase [name] t

/-- **What the deletion of a directory leaves at the root**: the root alone takes other names with it. -/
theorem deleteDir_rootNode (name : String) (h : mutate (.deleteDir p (membersBelow k p.parts)) raw errno k = .ok k') (hp : p.parts ≠ []) :
    k'.current = k.current ∧ (p.parts ≠ [name] → rootNode k' name = rootNode k name) ∧
      (p.parts = [name] → rootNode k name = some .dir) := by
  obtain ⟨w, hw, hrun⟩ := mutate_eq_ok h
  obtain ⟨live, t, ht, hdir, ⟨hnil, -⟩ | ⟨-, rfl⟩⟩ := checkDeleteDir_eq_ok hw
  · exact absurd hnil hp
  obtain ⟨t', ht', hk'⟩ := edit_currentTree ht hrun
  have hlive : k'.currentTree = some (live, t') := hk'.resolve_right fun hwipe => nomatch hwipe.1
  rw [rootNode_of_currentTree hlive, rootNode_of_currentTree ht]
  refine ⟨edit_current hrun, fun hne => perform_lookup ht' fun op hop htouch => hne ?_, fun heq => ?_⟩
  · rcases List.mem_append.mp hop with hop | hop
    · obtain ⟨q, hq, rfl⟩ := List.mem_map.mp hop
      simp only [membersBelow, ht, List.mem_insertionSort, List.mem_filter, decide_eq_true_eq] at hq
      cases htouch
      exact eq_root_of_above hp hq.2.1
    · rw [List.mem_singleton.mp hop] at htouch
      exact htouch.symm
  · rw [heq] at hdir
    exact existingDir_root hdir

/-- **The deletion of the root leaves nothing new.** -/
theorem wipe_rootNode (name : String) {order : List Path} (h : mutate (.deleteDir p order) raw errno k = .ok k') :
    k'.current = k.current ∧ (rootNode k' name = rootNode k name ∨ rootNode k' name = none) := by
  obtain ⟨w, hw, hrun⟩ := mutate_eq_ok h
  have key : ∀ live t e, k.currentTree = some (live, t) → e.live = live → (∀ op ∈ e.ops, ∃ q, op = .remove q) →
      perform Write.run (editWrites k e) k = .ok k' →
      k'.current = k.current ∧ (rootNode k' name = rootNode k name ∨ rootNode k' name = none) := by
    rintro live t e ht rfl hops hrun
    obtain ⟨t', ht', hk'⟩ := edit_currentTree ht hrun
    refine ⟨edit_current hrun, ?_⟩
    rcases hk' with hlive | ⟨-, hgone⟩
    · rw [rootNode_of_currentTree hlive, rootNode_of_currentTree ht]
      refine perform_invariant TreeOp.run (I := fun u => u.lookup [name] = t.lookup [name] ∨ u.lookup [name] = none)
        ht' (.inl rfl) fun op hop u u' hu hr => ?_
      obtain ⟨q, rfl⟩ := hops op hop
      rw [runRemove_eq_ok hr]
      by_cases hq : [name] = q
      · rw [hq]
        exact .inr (AList.lookup_erase q u)
      · rwa [AList.lookup_erase_ne hq]
    · rw [rootNode, hgone]
      exact .inr rfl
  obtain ⟨live, t, ht, -, ⟨-, rfl⟩ | ⟨-, rfl⟩⟩ := checkDeleteDir_eq_ok hw
  · refine key live t _ ht rfl (fun op hop => ?_) hrun
    obtain ⟨q, -, rfl⟩ := List.mem_map.mp hop
    exact ⟨q, rfl⟩
  · refine key live t _ ht rfl (fun op hop => ?_) hrun
    rcases List.mem_append.mp hop with hop | hop
    · obtain ⟨q, -, rfl⟩ := List.mem_map.mp hop
      exact ⟨q, rfl⟩
    · exact ⟨_, List.mem_singleton.mp hop⟩

/-- **What a rename leaves at the root.** -/
theorem rename_rootNode (name : String) {isSource : Tree → Path → Bool} {missing : Err}
    (hm : m.check k = checkRename isSource missing src dst k) (h : mutate m raw errno k = .ok k')
    (hdst : dst.parts.head? ≠ some name) (hroot : dst.parts ≠ []) : k'.current = k.current ∧
      (rootNode k' name = rootNode k name ∨ src.parts = [name] ∧ rootNode k' name = none) := by
  obtain ⟨w, hw, hrun⟩ := mutate_eq_ok h
  rw [hm] at hw
  obtain ⟨live, t, ht, -, rfl⟩ := checkRename_eq_ok hw
  obtain ⟨t', ht', hk'⟩ := edit_currentTree ht hrun
  have hlive : k'.currentTree = some (live, t') := hk'.resolve_right fun hwipe => nomatch hwipe.1
  rw [rootNode_of_currentTree hlive, rootNode_of_currentTree ht]
  refine ⟨edit_current hrun, ?_⟩
  obtain ⟨u, hu, hmv⟩ := (perform_append TreeOp.run).mp ht'
  obtain ⟨u', hmv, hu'⟩ := ok_of_bind hmv
  cases hu'
  have hmk : u.lookup [name] = t.lookup [name] := perform_lookup hu fun op hop htouch =>
    hdst (root_above.mp ((mkdirParents_touches hop htouch).1.trans (List.dropLast_prefix _)))
  have hnot : ¬ dst.parts <+: [name] := fun hpre => hdst (by rw [eq_root_of_above hroot hpre]; rfl)
  rcases runRename_cases hmv with ⟨-, rfl⟩ | ⟨-, rfl, hdir⟩
  · exact .inl hmk
  · by_cases hsrc : src.parts <+: [name]
    · have hnil : src.parts ≠ [] := fun he => hdir (by rw [he]; rfl) (he ▸ List.nil_prefix)
      exact .inr ⟨eq_root_of_above hnil hsrc, lookup_moveEntries_src hsrc hnot⟩
    · exact .inl ((lookup_moveEntries_ne hsrc hnot).trans hmk)

/-- A directory of the root is moved only where one stands. -/
theorem renameDir_rootNode_src (h : mutate (.renameDir src dst) raw errno k = .ok k') (hsrc : src.parts = [name]) :
    rootNode k name = some .dir := by
  obtain ⟨w, hw, -⟩ := mutate_eq_ok h
  obtain ⟨live, t, ht, hdir, -⟩ := checkRename_eq_ok hw
  rw [hsrc] at hdir
  rw [rootNode_of_currentTree ht]
  exact existingDir_root hdir

/-- **A file that is moved to a free name of the root stands there.** -/
theorem renameFile_rootNode_dst (h : mutate (.renameFile src dst) raw errno k = .ok k') (hdst : dst.parts = [name])
    (hread : storageRead src k = .ok content) (hfree : storageExists dst k = .ok false) :
    rootNode k' name = some (.file content) := by
  obtain ⟨w, hw, hrun⟩ := mutate_eq_ok h
  obtain ⟨live, t, ht, -, rfl⟩ := checkRename_eq_ok hw
  obtain ⟨t', ht', hk'⟩ := edit_currentTree ht hrun
  have hlive : k'.currentTree = some (live, t') := hk'.resolve_right fun hwipe => nomatch hwipe.1
  obtain ⟨live', t1, ht1, hstat⟩ := storageRead_eq_ok hread
  cases ht.symm.trans ht1
  rw [rootNode_of_currentTree hlive]
  obtain ⟨u, hu, hmv⟩ := (perform_append TreeOp.run).mp ht'
  obtain ⟨u', hmv, hu'⟩ := ok_of_bind hmv
  cases hu'
  have hne : src.parts ≠ [] := by
    intro he
    rw [he] at hstat
    cases hstat
  have hsrc : u.lookup src.parts = some (.file content) := perform_mkdirParents hu hne (stat_file hstat)
  rcases runRename_cases hmv with ⟨heq, rfl⟩ | ⟨hneq, rfl, -⟩
  · rw [← hdst, ← heq, hsrc]
  · rw [← hdst, lookup_moveEntries_dst ?_, hsrc]
    rintro ⟨rest, hrest⟩
    rw [hdst] at hrest
    rw [← hrest] at hstat
    have hnone := storageExists_eq_ok ht hfree
    rw [hdst] at hnone
    cases (stat_head hstat).symm.trans hnone

/-- **What the making of a directory leaves at the root.** -/
theorem makeDir_rootNode (name : String) (h : mutate (.makeDir p) raw errno k = .ok k') : k'.current = k.current ∧
    (p.parts.head? ≠ some name → rootNode k' name = rootNode k name) := by
  obtain ⟨w, hw, hrun⟩ := mutate_eq_ok h
  obtain ⟨live, t, ht, rfl⟩ := checkMakeDir_eq_ok hw
  obtain ⟨t', ht', hk'⟩ := edit_currentTree ht hrun
  have hlive : k'.currentTree = some (live, t') := hk'.resolve_right fun hwipe => nomatch hwipe.1
  rw [rootNode_of_currentTree hlive, rootNode_of_currentTree ht]
  exact ⟨edit_current hrun, fun hne => perform_lookup ht' fun op hop htouch =>
    hne (root_above.mp (mkdirParents_touches hop htouch).1)⟩

/-! ## The law -/

/-- What a node is as an entry of the root. -/
def nodeEntry : Option Node → Entry
  | none => .free
  | some (.file data) => .plain data
  | some .dir => ⟨none, true, false⟩
  | some (.link _) => ⟨none, false, true⟩

/-- What stands at a name of the root. -/
def Store.root (s : Store) (name : String) : Entry := nodeEntry (rootNode s.disk name)

theorem root_congr (h : rootNode s'.disk name = rootNode s.disk name) : s'.root name = s.root name := congrArg nodeEntry h

theorem root_of_file (h : rootNode s.disk name = some (.file content)) : s.root name = .plain content := congrArg nodeEntry h

theorem within_of_rootNode (h : rootNode s'.disk name = rootNode s.disk name ∨ rootNode s'.disk name = none) :
    (s'.root name).Within (s.root name) := by
  rcases h with heq | hnone
  · rw [root_congr heq]
    exact Entry.Within.refl _
  · have hroot : s'.root name = .free := congrArg nodeEntry hnone
    rw [hroot]
    exact Entry.within_free

theorem properties_eq (s : Store) : properties s.disk = (s.root propertiesRelPath).file.getD [] := by
  unfold properties Store.root
  rcases rootNode s.disk propertiesRelPath with _ | (_ | _ | _) <;> rfl

theorem published_of_stands (h : (s.root name).Stands) : s.disk.current ≠ none := by
  intro hnone
  have hroot : s.root name = .free := by
    unfold Store.root rootNode Disk.currentTree
    rw [hnone]
    rfl
  exact Entry.not_stands_free (hroot ▸ h)

theorem ok_of_mapError {ε ε' α : Type} {f : ε → ε'} {x : Except ε α} {a : α} (h : x.mapError f = .ok a) : x = .ok a := by
  cases x with
  | error e => cases h
  | ok b => exact congrArg _ (Except.ok.inj h)

theorem ne_tempSibling {salt : String} : [propertiesRelPath] ≠ tempSibling p.parts salt := by
  intro h
  have hlast := congrArg (fun l => (l.getLast?.getD "").toList.head?) h
  simp [tempSibling, propertiesRelPath, String.toList_append] at hlast

/-- **A write meets the law.** -/
theorem storageWrite_wrote (hpub : s.disk.current ≠ none) (h : storageWrite retention d raw p content s = .ok s') :
    s'.disk.current ≠ none ∧ Wrote s.root s'.root p.parts content := by
  unfold storageWrite at h
  cases hm : mutate (.writeFile p content d.dir d.salt) raw (destMutationErrno raw raw) s.disk with
  | error e =>
    rw [hm] at h
    cases h
  | ok k' =>
  rw [hm] at h
  cases h
  have hroot := fun name => write_rootNode name hm hpub
  refine ⟨(hroot "").1 ▸ hpub, ⟨fun name hhead => within_of_rootNode ?_, fun hno => ?_⟩, fun hp => ?_⟩
  · have hne : p.parts ≠ [name] := fun he => hhead (he ▸ rfl)
    exact ((hroot name).2.2 hne (.inl hhead)).imp_right And.right
  · rw [not_or] at hno
    by_cases hsome : p.parts.head? ≠ some propertiesRelPath ∨ rootNode s.disk propertiesRelPath ≠ none
    · have hsame := ((hroot _).2.2 hno.1 hsome).resolve_right fun ht => ne_tempSibling ht.1
      exact congrArg Entry.file (root_congr hsame)
    · rw [not_or, not_not, not_not] at hsome
      refine absurd ⟨hsome.1, ?_⟩ hno.2
      unfold Store.root
      rw [hsome.2]
      rfl
  · exact root_of_file ((hroot _).2.1 hp)

/-- A write that succeeds is one of the path that the name is normalised to. -/
theorem write_eq_ok (h : (fsStore retention).writeFile d raw content s = .ok s') :
    ∃ p, RelPath.ofRaw raw = some p ∧ storageWrite retention d raw p content s = .ok s' := by
  obtain ⟨p, hp, h⟩ := ok_of_bind h
  exact ⟨p, toRelPath_eq_ok.mp hp, ok_of_mapError h⟩

theorem seed_root (h : (fsStore retention).writeFile d propertiesRelPath content s = .ok s') :
    s'.disk.current ≠ none ∧ (s'.root propertiesRelPath).file = some content := by
  obtain ⟨p, hp, h⟩ := write_eq_ok h
  have hparts : p.parts = [propertiesRelPath] := (RelPath.ofRaw_eq_some.mp hp).2.2.trans (by decide)
  by_cases hcur : s.disk.current = none
  · unfold storageWrite at h
    cases hm : mutate (.writeFile p content d.dir d.salt) propertiesRelPath
        (destMutationErrno propertiesRelPath propertiesRelPath) s.disk with
    | error e =>
      rw [hm] at h
      cases h
    | ok k' =>
    rw [hm] at h
    cases h
    obtain ⟨w, hw, hrun⟩ := mutate_eq_ok hm
    have hne : p.parts ≠ [] := by
      rw [hparts]
      exact List.cons_ne_nil _ _
    simp only [Mutator.check, checkWriteFile, if_neg hne, if_pos hcur] at hw
    cases hw
    obtain ⟨t', ht', hk'⟩ := first_currentTree hrun
    obtain ⟨u, -, hu⟩ := (perform_append TreeOp.run).mp ht'
    refine ⟨?_, congrArg Entry.file (root_of_file ?_)⟩
    · rw [(Disk.current_of_currentTree hk').1]
      exact Option.some_ne_none _
    · rw [rootNode_of_currentTree hk', ← hparts]
      exact (atomicWrite_lookup hne hu).1
  · obtain ⟨hpub, hwrote⟩ := storageWrite_wrote hcur h
    exact ⟨hpub, congrArg Entry.file (hwrote.put hparts)⟩

/-- A free path is one where nothing is. -/
theorem free_of_pathExists (hp : RelPath.ofRaw raw = some p) (h : (fsStore retention).pathExists raw s = .ok false) :
    storageExists p s.disk = .ok false := ok_of_mapError (of_relPath hp h)

variable (s') in
/-- **A rename to a free name meets the law.** -/
theorem rename_changed {isSource : Tree → Path → Bool} {missing : Err}
    (hm : m.check s.disk = checkRename isSource missing src dst s.disk) (hrun : mutate m raw errno s.disk = .ok s'.disk)
    (hfree : storageExists dst s.disk = .ok false) : s'.disk.current = s.disk.current ∧
      Changed s.root s'.root dst.parts
        (src.parts = [propertiesRelPath] ∨ dst.parts.head? = some propertiesRelPath) := by
  have hmove : ∀ name, dst.parts.head? ≠ some name → s'.disk.current = s.disk.current ∧
      (rootNode s'.disk name = rootNode s.disk name ∨ src.parts = [name] ∧ rootNode s'.disk name = none) :=
    fun name hne => rename_rootNode name hm hrun hne (ne_nil_of_free hfree)
  refine ⟨?_, fun name hhead => ?_, fun hno => ?_⟩
  · by_cases hhead : dst.parts.head? = some ""
    · exact (hmove propertiesRelPath (by rw [hhead]; decide)).1
    · exact (hmove "" hhead).1
  · exact within_of_rootNode ((hmove name hhead).2.imp_right And.right)
  · rw [not_or] at hno
    have hsame := (hmove propertiesRelPath hno.2).2.resolve_right fun hsrc => hno.1 hsrc.1
    exact congrArg Entry.file (root_congr hsame)

variable (retention) in
/-- **The filesystem store meets the law.** -/
def fsRoot : RootLaw (fsStore retention) where
  root := Store.root
  Published s := s.disk.current ≠ none
  published_of_stands := published_of_stands
  baseline h := (currentProperties_eq h).trans (properties_eq _)
  seeded := seed_root
  writeFile hpub h := by
    obtain ⟨p, hp, h⟩ := write_eq_ok h
    obtain ⟨hpub', hwrote⟩ := storageWrite_wrote hpub h
    exact ⟨hpub', p, hp, hwrote⟩
  rollback {s s' d raw versionId} hpub h := by
    obtain ⟨p, hp, h⟩ := ok_of_bind h
    obtain ⟨content, hread, h⟩ := ok_of_bind h
    obtain ⟨hpub', hwrote⟩ := storageWrite_wrote hpub (ok_of_mapError h)
    refine ⟨hpub', p, content, toRelPath_eq_ok.mp hp, ?_, hwrote⟩
    simp only [fsStore, hp]
    exact hread
  deleteFile {s s' d raw} hpub h := by
    obtain ⟨p, hp, h⟩ := ok_of_bind h
    obtain ⟨k', hk', h⟩ := ok_of_bind h
    cases h
    have hroot := fun name => deleteFile_rootNode name hk'
    refine ⟨(hroot "").1 ▸ hpub, p, toRelPath_eq_ok.mp hp, fun name _ => within_of_rootNode ?_, fun hno => ?_⟩
    · by_cases hp : p.parts = [name]
      · exact .inr ((hroot name).2.2 hp)
      · exact .inl ((hroot name).2.1 hp)
    · exact congrArg Entry.file (root_congr ((hroot _).2.1 hno))
  deleteDir {s s' d raw} hpub h := by
    obtain ⟨p, hp, h⟩ := ok_of_bind h
    obtain ⟨k', hk', h⟩ := ok_of_bind h
    cases h
    have hwipe := fun name => wipe_rootNode name hk'
    refine ⟨(hwipe "").1 ▸ hpub, p, toRelPath_eq_ok.mp hp, fun name _ => within_of_rootNode (hwipe name).2, fun hno => ?_⟩
    have hspared := deleteDir_rootNode propertiesRelPath hk' hno
    by_cases hp : p.parts = [propertiesRelPath]
    · -- a directory is deleted, which has no content
      have hdir : s.root propertiesRelPath = ⟨none, true, false⟩ := congrArg nodeEntry (hspared.2.2 hp)
      refine ((hwipe propertiesRelPath).2.elim (fun heq => ?_) fun hnone => ?_)
      · exact congrArg Entry.file (root_congr heq)
      · rw [hdir]
        exact congrArg (fun n => (nodeEntry n).file) hnone
    · exact congrArg Entry.file (root_congr (hspared.2.1 hp))
  makeDir {s s' d raw} hpub h := by
    obtain ⟨p, hp, h⟩ := ok_of_bind h
    obtain ⟨k', hk', h⟩ := ok_of_bind h
    cases h
    have hroot := fun name => makeDir_rootNode name hk'
    refine ⟨(hroot "").1 ▸ hpub, p, toRelPath_eq_ok.mp hp, fun name hhead => ?_, fun hno => ?_⟩
    · exact within_of_rootNode (.inl ((hroot name).2 hhead))
    · exact congrArg Entry.file (root_congr ((hroot _).2 hno))
  renameFile {s s' d fromPath toPath src dst} hpub hsrc hdst hfree h := by
    obtain ⟨k', hk', h⟩ := ok_of_bind (of_relPath hdst (of_relPath hsrc h))
    cases h
    have hfree := free_of_pathExists hdst hfree
    obtain ⟨hcur, hchanged⟩ := rename_changed ⟨k', s.versions⟩ rfl hk' hfree
    refine ⟨hcur ▸ hpub, hchanged, fun content hread hroot => ?_⟩
    exact root_of_file (renameFile_rootNode_dst hk' hroot (ok_of_mapError (of_relPath hsrc hread)) hfree)
  renameDir {s s' d fromPath toPath src dst} hpub hsrc hdst hfree h := by
    obtain ⟨k', hk', h⟩ := ok_of_bind (of_relPath hdst (of_relPath hsrc h))
    cases h
    have hfree := free_of_pathExists hdst hfree
    obtain ⟨hcur, hchanged⟩ := rename_changed ⟨k', s.versions⟩ rfl hk' hfree
    refine ⟨hcur ▸ hpub, hchanged.others, fun hno => ?_⟩
    by_cases hprops : src.parts = [propertiesRelPath]
    · -- a directory is moved away, which has no content
      have hdir : s.root propertiesRelPath = ⟨none, true, false⟩ := congrArg nodeEntry (renameDir_rootNode_src hk' hprops)
      have hwithin := hchanged.others propertiesRelPath fun hhead => hno (.inr hhead)
      exact hwithin.file.elim id fun hnone => hnone.trans (by rw [hdir])
    · exact hchanged.file (not_or.mpr ⟨hprops, fun hhead => hno (.inr hhead)⟩)

end McServerDashboard.Files
