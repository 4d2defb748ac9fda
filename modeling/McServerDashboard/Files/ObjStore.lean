import McServerDashboard.Files.FsStore
import McServerDashboard.Obj.FileTree

/-!
# The files of a server in the bucket

The file store that `ObjectStorage` is behind the same adapter: the mutators of `Obj`, performed to their end, and the
retained versions. There are no links, a directory is the objects below it, and a file and a directory may stand at one
name.

* `objStore`: the store.
* `changed_of_perform`: what requests leave at the root, by the keys that they write and delete.
* **`objRoot`**: the store meets the law.
-/

namespace McServerDashboard.Files

open Lib

/-! ## The store -/

/-- The bucket, and the retained versions of every path, oldest first. -/
structure ObjStore where
  bucket : Obj.Bucket
  versions : Path → List (String × Bytes)

/-- What an operation draws: the id of a transfer, a version id. -/
structure ObjDraw where
  id : Obj.SnapshotId
  versionId : String

/-- The errors of the storage as the adapter raises them. -/
def objectError (relPath : String) : Obj.Err → FileError
  | .pathTraversal _ => .invalidFilePath relPath .invalidPath
  | .fileNotFound _ | .directoryNotFound _ | .notPublished => .serverFileNotFound
  | _ => .unmapped

/-! ### Reads -/

/-- `read_file`. -/
def objectRead (p : RelPath) (k : Obj.Bucket) : Except Obj.Err Bytes :=
  match k.pointer with
  | none => .error .notPublished
  | some live =>
    match k.get (.snapshot live) (Obj.subName p) with
    | none => .error (.fileNotFound p)
    | some data => .ok data

/-- `_entries_at_level`. -/
def entriesAtLevel (dir : Path) (names : List Obj.Name) : List DirEntry :=
  let rests := (names.map fun n => n.drop dir.length).filter fun rest => rest ≠ [Obj.dirMarker]
  let dirs := (rests.filter fun rest => 1 < rest.length).map fun rest => rest.headD ""
  let files := (rests.filter fun rest => rest.length = 1).map fun rest => rest.headD ""
  (dirs.dedup.map (DirEntry.mk · true) ++ files.map (DirEntry.mk · false)).insertionSort fun a b => a.name ≤ b.name

/-- `list_dir`. -/
def objectList (p : RelPath) (k : Obj.Bucket) : Except Obj.Err (List DirEntry) :=
  match k.pointer with
  | none => .ok []
  | some live =>
    let names := k.listDir (.snapshot live) p.parts
    if names = [] ∧ p.parts ≠ [] then .error (.directoryNotFound p)
    else .ok (entriesAtLevel p.parts names)

/-- `path_exists`. -/
def objectExists (p : RelPath) (k : Obj.Bucket) : Bool :=
  match k.pointer with
  | none => p.parts = []
  | some live => p.parts = [] || (k.get (.snapshot live) p.parts).isSome || k.listDir (.snapshot live) p.parts ≠ []

/-! ### Mutations -/

/-- A mutator under the lock, performed to its end. -/
def request (m : Obj.Mutator) (relPath : String) (k : Obj.Bucket) : Except FileError Obj.Bucket :=
  match (m.plan k).error with
  | some e => .error (objectError relPath e)
  | none => (perform Obj.Request.run (m.plan k).writes k).mapError fun _ => .unmapped

/-- `_capture_version` and `_prune_versions`, of an object that is there. -/
def objectCapture (retention : ℕ) (versionId : String) (p : RelPath) (s : ObjStore) : Path → List (String × Bytes) :=
  match objectRead p s.bucket with
  | .error _ => s.versions
  | .ok data => Function.update s.versions p.parts ((s.versions p.parts ++ [(versionId, data)]).rtake retention)

/-- `write_file`. -/
def objectWrite (retention : ℕ) (d : ObjDraw) (relPath : String) (p : RelPath) (content : Bytes) (s : ObjStore) :
    Except FileError ObjStore :=
  (request (.writeFile p content d.id) relPath s.bucket).map fun k => ⟨k, objectCapture retention d.versionId p s⟩

/-- `read_file_version`. -/
def objectVersion (p : RelPath) (versionId : String) (s : ObjStore) : Except FileError Bytes :=
  if !isVersionId versionId then .error (.invalidVersionId versionId)
  else match (s.versions p.parts).lookup versionId with
    | none => .error .serverFileNotFound
    | some data => .ok data

/-- `StorageFileStoreAdapter` over `ObjectStorage`. -/
def objStore (retention : ℕ) : FileStore ObjStore ObjDraw where
  readFile relPath s := do
    let p ← toRelPath relPath
    (objectRead p s.bucket).mapError (objectError relPath)
  listDir relPath s := do
    let p ← toRelPath relPath
    (objectList p s.bucket).mapError (objectError relPath)
  pathExists relPath s := do
    let p ← toRelPath relPath
    return objectExists p s.bucket
  writeFile d relPath content s := do
    let p ← toRelPath relPath
    objectWrite retention d relPath p content s
  deleteFile d relPath s := do
    let p ← toRelPath relPath
    let k ← request (.deleteFile p) relPath s.bucket
    return ⟨k, objectCapture retention d.versionId p s⟩
  deleteDir _ relPath s := do
    let p ← toRelPath relPath
    let k ← request (.deleteDir p) relPath s.bucket
    return ⟨k, s.versions⟩
  renameFile _ fromPath toPath s := do
    let src ← toRelPath fromPath
    let dst ← toRelPath toPath
    let k ← request (.renameFile src dst) fromPath s.bucket
    return ⟨k, s.versions⟩
  renameDir _ fromPath toPath s := do
    let src ← toRelPath fromPath
    let dst ← toRelPath toPath
    let k ← request (.renameDir src dst) fromPath s.bucket
    return ⟨k, s.versions⟩
  makeDir _ relPath s := do
    let p ← toRelPath relPath
    let k ← request (.makeDir p) relPath s.bucket
    return ⟨k, s.versions⟩
  readVersion relPath versionId s := do
    let p ← toRelPath relPath
    objectVersion p versionId s
  rollback d relPath versionId s := do
    let p ← toRelPath relPath
    let content ← objectVersion p versionId s
    objectWrite retention d relPath p content s

/-! ## The root -/

/-- What stands at a name of the root: an object, objects below it, or both. -/
def ObjStore.root (s : ObjStore) (name : String) : Entry :=
  match s.bucket.pointer with
  | none => .free
  | some live => ⟨s.bucket.get (.snapshot live) [name], s.bucket.listDir (.snapshot live) [name] ≠ [], false⟩

variable {retention : ℕ} {d : ObjDraw} {raw : String} {p src dst : RelPath} {s s' : ObjStore} {k k' : Obj.Bucket}
  {live : Obj.SnapshotId} {name : String} {n : Obj.Name} {names : List Obj.Name} {content : Bytes} {ws : List Obj.Request}

theorem root_of_pointer (hp : s.bucket.pointer = some live) : s.root name =
    ⟨s.bucket.get (.snapshot live) [name], s.bucket.listDir (.snapshot live) [name] ≠ [], false⟩ := by
  rw [ObjStore.root, hp]

theorem pointer_of_stands (h : (s.root name).Stands) : ∃ live, s.bucket.pointer = some live := by
  refine Option.ne_none_iff_exists'.mp fun hnone => ?_
  rw [ObjStore.root, hnone] at h
  exact Entry.not_stands_free h

theorem get_isSome : (k.get (.snapshot live) n).isSome ↔ n ∈ k.list (.snapshot live) := by
  rw [Obj.mem_list]
  exact AList.lookup_isSome

/-- Something is below a name. -/
theorem listDir_ne_nil : k.listDir (.snapshot live) [name] ≠ [] ↔
    ∃ n, n.head? = some name ∧ n ≠ [name] ∧ (k.get (.snapshot live) n).isSome := by
  rw [ne_eq, List.eq_nil_iff_forall_not_mem, not_forall_not]
  refine exists_congr fun n => ?_
  rw [Obj.mem_listDir, root_above, get_isSome]
  tauto

/-- An entry is within what it was where no object below the name is new. -/
theorem within_of_get (hp : s.bucket.pointer = some live) (hp' : s'.bucket.pointer = some live)
    (h : ∀ n, n.head? = some name → s'.bucket.get (.snapshot live) n = s.bucket.get (.snapshot live) n ∨
      s'.bucket.get (.snapshot live) n = none) : (s'.root name).Within (s.root name) := by
  rw [root_of_pointer hp, root_of_pointer hp']
  refine ⟨h [name] rfl, fun hdir => ?_, nofun⟩
  rw [decide_eq_true_eq] at hdir ⊢
  obtain ⟨n, hhead, hne, hsome⟩ := listDir_ne_nil.mp hdir
  refine listDir_ne_nil.mpr ⟨n, hhead, hne, ?_⟩
  rcases h n hhead with heq | hnone
  · rwa [← heq]
  · rw [hnone] at hsome
    cases hsome

/-- A file stands alone where nothing is below its name. -/
theorem plain_of_get (hp : s.bucket.pointer = some live) (hfile : s.bucket.get (.snapshot live) [name] = some content)
    (hbelow : ∀ n, n.head? = some name → n ≠ [name] → s.bucket.get (.snapshot live) n = none) :
    s.root name = .plain content := by
  have hnil : s.bucket.listDir (.snapshot live) [name] = [] := by
    by_contra hne
    obtain ⟨n, hhead, hn, hsome⟩ := listDir_ne_nil.mp hne
    rw [hbelow n hhead hn] at hsome
    cases hsome
  rw [root_of_pointer hp, hfile, hnil]
  rfl

/-! ### Requests -/

/-- The requests keep the pointer. -/
def Stays (live : Obj.SnapshotId) (ws : List Obj.Request) : Prop :=
  ∀ r ∈ ws, r ≠ .unpoint ∧ ∀ d, r = .point d → d = live

theorem pointer_of_perform (hp : k.pointer = some live) (hstays : Stays live ws)
    (h : perform Obj.Request.run ws k = .ok k') : k'.pointer = some live := by
  refine perform_invariant Obj.Request.run (I := fun u => u.pointer = some live) h hp fun r hr u u' hu hrun => ?_
  by_cases hpoint : ∃ d, r = .point d
  · obtain ⟨d, rfl⟩ := hpoint
    obtain rfl := (hstays _ hr).2 d rfl
    cases hrun
    rfl
  · rw [Obj.Request.run_pointer hrun (fun d hd => hpoint ⟨d, hd⟩) (hstays r hr).1, hu]

/-- An object that no request writes or deletes. -/
theorem get_of_perform (h : perform Obj.Request.run ws k = .ok k') (hne : ∀ r ∈ ws, r.target ≠ some ⟨.snapshot live, n⟩) :
    k'.get (.snapshot live) n = k.get (.snapshot live) n :=
  perform_invariant Obj.Request.run (I := fun u => u.get (.snapshot live) n = k.get (.snapshot live) n) h rfl
    fun r hr _ _ hu hrun => (Obj.Request.run_lookup_ne hrun (hne r hr)).trans hu

/-- An object that requests at most delete. -/
theorem less_of_perform (h : perform Obj.Request.run ws k = .ok k')
    (hdel : ∀ r ∈ ws, r.target = some ⟨.snapshot live, n⟩ → r = .delete ⟨.snapshot live, n⟩) :
    k'.get (.snapshot live) n = k.get (.snapshot live) n ∨ k'.get (.snapshot live) n = none := by
  refine perform_invariant Obj.Request.run
    (I := fun u => u.get (.snapshot live) n = k.get (.snapshot live) n ∨ u.get (.snapshot live) n = none) h (.inl rfl)
    fun r hr u u' hu hrun => ?_
  by_cases htarget : r.target = some ⟨.snapshot live, n⟩
  · rw [hdel r hr htarget] at hrun
    cases hrun
    exact .inr (AList.lookup_erase _ _)
  · have hsame : u'.get (.snapshot live) n = u.get (.snapshot live) n := Obj.Request.run_lookup_ne hrun htarget
    rwa [hsame]

variable (s') in
/-- **What requests leave at the root**: they write below one name at most. -/
theorem changed_of_perform (into : Path) (touches : Prop) (hp : s.bucket.pointer = some live) (hstays : Stays live ws)
    (hothers : ∀ r ∈ ws, ∀ n, r.target = some ⟨.snapshot live, n⟩ → n.head? ≠ into.head? → r = .delete ⟨.snapshot live, n⟩)
    (hfile : ¬ touches → ∀ r ∈ ws, r.target ≠ some ⟨.snapshot live, [propertiesRelPath]⟩)
    (h : perform Obj.Request.run ws s.bucket = .ok s'.bucket) :
    s'.bucket.pointer = some live ∧ Changed s.root s'.root into touches := by
  have hp' := pointer_of_perform hp hstays h
  refine ⟨hp', fun name hhead => within_of_get hp hp' fun n hn => less_of_perform h fun r hr htarget => ?_, fun hno => ?_⟩
  · exact hothers r hr n htarget fun he => hhead (he.symm.trans hn)
  · rw [root_of_pointer hp, root_of_pointer hp']
    exact get_of_perform h (hfile hno)

theorem request_eq_ok {m : Obj.Mutator} (h : request m raw k = .ok k') :
    (m.plan k).error = none ∧ perform Obj.Request.run (m.plan k).writes k = .ok k' := by
  unfold request at h
  split at h
  · cases h
  · next hnone => exact ⟨hnone, ok_of_mapError h⟩

/-- The requests of an edit on objects of the live prefix keep the pointer. -/
theorem stays_edit {requests : List Obj.Request} (h : ∀ r ∈ requests, r.target ≠ none) :
    Stays live (Obj.editPlan k live requests).writes := by
  intro r hr
  rcases List.mem_append.mp hr with hr | hr
  · exact ⟨fun he => h r hr (he ▸ rfl), fun d he => absurd (he ▸ rfl) (h r hr)⟩
  · rcases List.mem_pair.mp hr with rfl | rfl
    · exact ⟨nofun, fun d he => (Obj.Request.point.inj he).symm⟩
    · exact ⟨nofun, nofun⟩

/-- The requests of an edit that have a target are those on objects. -/
theorem mem_edit {requests : List Obj.Request} {r : Obj.Request} {key : Obj.Key}
    (hr : r ∈ (Obj.editPlan k live requests).writes) (ht : r.target = some key) : r ∈ requests := by
  rcases List.mem_append.mp hr with hr | hr
  · exact hr
  · rcases List.mem_pair.mp hr with rfl | rfl <;> cases ht

/-- The objects that an edit leaves are those that its requests on objects leave. -/
theorem edit_objs {requests : List Obj.Request}
    (h : perform Obj.Request.run (Obj.editPlan k live requests).writes k = .ok k') :
    ∃ u, perform Obj.Request.run requests k = .ok u ∧ k'.objs = u.objs := by
  obtain ⟨u, hu, hrest⟩ := (perform_append Obj.Request.run).mp h
  cases hrest
  exact ⟨u, hu, rfl⟩

/-! ### The law -/

theorem subName_eq_root (h : name ≠ "") : Obj.subName p = [name] ↔ p.parts = [name] := by
  unfold Obj.subName
  split_ifs with hroot
  · simp [hroot, Ne.symm h]
  · rfl

/-- No name below a path is a name of the root, the root apart. -/
theorem ne_of_below {dir : Path} (hdir : dir ≠ []) (h : n ∈ k.listDir (.snapshot live) dir) : n ≠ [name] := by
  rintro rfl
  obtain ⟨-, hpre, hne⟩ := Obj.mem_listDir.mp h
  exact hne (eq_root_of_above hdir hpre).symm

/-! #### What the checks of a published server let through -/

section

variable (hp : k.pointer = some live)

include hp

theorem writeFilePlan_eq {d : Obj.SnapshotId} (h : (Obj.writeFilePlan p content d k).error = none) :
    k.listDir (.snapshot live) p.parts = [] ∧
      Obj.writeFilePlan p content d k = Obj.editPlan k live [.put ⟨.snapshot live, p.parts⟩ content] := by
  simp only [Obj.writeFilePlan, hp] at h ⊢
  by_cases hroot : p.parts = []
  · rw [if_pos hroot] at h
    cases h
  by_cases hdir : k.listDir (.snapshot live) p.parts = []
  · rw [if_neg hroot, if_neg (not_not.mpr hdir)]
    exact ⟨hdir, rfl⟩
  · rw [if_neg hroot, if_pos hdir] at h
    cases h

theorem deleteFilePlan_eq (h : (Obj.deleteFilePlan p k).error = none) :
    Obj.deleteFilePlan p k = Obj.editPlan k live [.delete ⟨.snapshot live, Obj.subName p⟩] := by
  simp only [Obj.deleteFilePlan, hp] at h ⊢
  by_cases hmiss : k.get (.snapshot live) (Obj.subName p) = none
  · rw [if_pos hmiss] at h
    cases h
  · rw [if_neg hmiss]

theorem deleteDirPlan_eq (h : (Obj.deleteDirPlan p k).error = none) : Obj.deleteDirPlan p k =
    Obj.editPlan k live (Obj.deleteNames (.snapshot live) (k.listDir (.snapshot live) p.parts)) := by
  simp only [Obj.deleteDirPlan, hp] at h ⊢
  by_cases hnil : k.listDir (.snapshot live) p.parts = []
  · rw [if_pos hnil] at h
    cases h
  · rw [if_neg hnil]

theorem renameFilePlan_eq (h : (Obj.renameFilePlan src dst k).error = none) :
    k.get (.snapshot live) (Obj.subName src) ≠ none ∧
      Obj.renameFilePlan src dst k = Obj.editPlan k live
        [.copy ⟨.snapshot live, Obj.subName src⟩ ⟨.snapshot live, Obj.subName dst⟩, .delete ⟨.snapshot live, Obj.subName src⟩] := by
  simp only [Obj.renameFilePlan, hp] at h ⊢
  by_cases hmiss : k.get (.snapshot live) (Obj.subName src) = none
  · rw [if_pos hmiss] at h
    cases h
  · rw [if_neg hmiss]
    exact ⟨hmiss, rfl⟩

theorem renameDirPlan_eq (h : (Obj.renameDirPlan src dst k).error = none) :
    Obj.renameDirPlan src dst k = Obj.editPlan k live
      ((k.listDir (.snapshot live) src.parts).map
          (fun n => .copy ⟨.snapshot live, n⟩ ⟨.snapshot live, Obj.movedName src dst n⟩) ++
        Obj.deleteNames (.snapshot live) (k.listDir (.snapshot live) src.parts)) := by
  simp only [Obj.renameDirPlan, hp] at h ⊢
  by_cases hnil : k.listDir (.snapshot live) src.parts = []
  · rw [if_pos hnil] at h
    cases h
  · rw [if_neg hnil]

end

variable (s') in
/-- **An edit meets the law** where its requests write below one name. -/
theorem edit_changed {requests : List Obj.Request} (into : Path) (touches : Prop) (hp : s.bucket.pointer = some live)
    (hothers : ∀ r ∈ requests, ∃ n, r.target = some ⟨.snapshot live, n⟩ ∧
      (n.head? = into.head? ∨ r = .delete ⟨.snapshot live, n⟩) ∧ (¬ touches → n ≠ [propertiesRelPath]))
    (h : perform Obj.Request.run (Obj.editPlan s.bucket live requests).writes s.bucket = .ok s'.bucket) :
    s'.bucket.pointer = some live ∧ Changed s.root s'.root into touches := by
  have hstays : Stays live (Obj.editPlan s.bucket live requests).writes := stays_edit fun r hr => by
    obtain ⟨n, ht, -⟩ := hothers r hr
    rw [ht]
    exact Option.some_ne_none _
  refine changed_of_perform _ _ _ hp hstays (fun r hr n ht hhead => ?_) (fun hno r hr ht => ?_) h
  · obtain ⟨n', ht', hsub, -⟩ := hothers r (mem_edit hr ht)
    cases ht.symm.trans ht'
    exact hsub.resolve_left hhead
  · obtain ⟨n', ht', -, hne⟩ := hothers r (mem_edit hr ht)
    cases ht.symm.trans ht'
    exact hne hno rfl

/-- **A write meets the law.** -/
theorem objectWrite_wrote (hp : s.bucket.pointer = some live) (h : objectWrite retention d raw p content s = .ok s') :
    s'.bucket.pointer = some live ∧ Wrote s.root s'.root p.parts content := by
  unfold objectWrite at h
  cases hk : request (.writeFile p content d.id) raw s.bucket with
  | error e =>
    rw [hk] at h
    cases h
  | ok k' =>
  rw [hk] at h
  cases h
  obtain ⟨herr, hrun⟩ := request_eq_ok hk
  obtain ⟨hdir, hplan⟩ := writeFilePlan_eq hp herr
  simp only [Obj.Mutator.plan, hplan] at hrun
  obtain ⟨hp', hchanged⟩ := edit_changed ⟨k', s.versions⟩ p.parts
    (p.parts = [propertiesRelPath]) hp (fun r hr => by
      rw [List.mem_singleton.mp hr]
      exact ⟨p.parts, rfl, .inl rfl, id⟩) hrun
  refine ⟨hp', hchanged.mono .inl, fun hprops => ?_⟩
  refine plain_of_get hp' ?_ fun n hhead hne => ?_
  · obtain ⟨u, hu, hobjs⟩ := edit_objs hrun
    cases hu
    rw [← hprops, Obj.Bucket.get, hobjs]
    exact AList.lookup_insert _
  · -- the check has found nothing below the name
    have hsame : k'.get (.snapshot live) n = s.bucket.get (.snapshot live) n :=
      get_of_perform hrun fun r hr ht => by
        rw [List.mem_singleton.mp (mem_edit hr ht)] at ht
        exact hne ((Obj.Key.mk.inj (Option.some.inj ht)).2.symm.trans hprops)
    rw [hprops] at hdir
    by_contra hsome
    refine absurd hdir (listDir_ne_nil.mpr ⟨n, hhead, hne, ?_⟩)
    rw [← hsame]
    exact Option.isSome_iff_ne_none.mpr hsome

theorem objectWrite_eq_ok (h : (objStore retention).writeFile d raw content s = .ok s') :
    ∃ p, RelPath.ofRaw raw = some p ∧ objectWrite retention d raw p content s = .ok s' := by
  obtain ⟨p, hp, h⟩ := ok_of_bind h
  exact ⟨p, toRelPath_eq_ok.mp hp, h⟩

/-- The first write of a server publishes the file. -/
theorem object_seed_root (h : (objStore retention).writeFile d propertiesRelPath content s = .ok s') :
    (∃ live, s'.bucket.pointer = some live) ∧ (s'.root propertiesRelPath).file = some content := by
  obtain ⟨p, hp, h⟩ := objectWrite_eq_ok h
  have hparts : p.parts = [propertiesRelPath] := (RelPath.ofRaw_eq_some.mp hp).2.2.trans (by decide)
  cases hptr : s.bucket.pointer with
  | some live =>
    obtain ⟨hp', hwrote⟩ := objectWrite_wrote hptr h
    rw [hwrote.put hparts]
    exact ⟨⟨live, hp'⟩, rfl⟩
  | none =>
    unfold objectWrite at h
    cases hk : request (.writeFile p content d.id) propertiesRelPath s.bucket with
    | error e =>
      rw [hk] at h
      cases h
    | ok k' =>
    rw [hk] at h
    cases h
    obtain ⟨-, hrun⟩ := request_eq_ok hk
    have hplan : (Obj.writeFilePlan p content d.id s.bucket).writes =
        [.put ⟨.incoming d.id, p.parts⟩ content, .copy ⟨.incoming d.id, p.parts⟩ ⟨.snapshot d.id, p.parts⟩, .point d.id,
          .mark (s.bucket.marker.bump (some apiEditPublisher)), .delete ⟨.incoming d.id, p.parts⟩] := by
      simp only [Obj.writeFilePlan, hptr, hparts]
      rw [if_neg (List.cons_ne_nil _ _), Obj.publishPlan, Obj.gcAfterFlip, hptr]
      rfl
    simp only [Obj.Mutator.plan, hplan, perform, Except.bind, Obj.Request.run, AList.lookup_insert] at hrun
    cases hrun
    rw [root_of_pointer rfl, ← hparts]
    refine ⟨⟨d.id, rfl⟩, ?_⟩
    exact (AList.lookup_erase_ne (by simp)).trans (AList.lookup_insert _)

/-- The baseline of the guards is the content of the root file. -/
theorem object_baseline (h : currentProperties (objStore retention) s = .ok content) :
    content = (s.root propertiesRelPath).file.getD [] := by
  have hread : (objStore retention).readFile propertiesRelPath s =
      (objectRead propertiesPath s.bucket).mapError (objectError propertiesRelPath) := by
    simp only [objStore, toRelPath_properties]
    rfl
  rw [currentProperties, hread, objectRead] at h
  cases hp : s.bucket.pointer with
  | none =>
    rw [hp] at h
    cases h
    rw [ObjStore.root, hp]
    rfl
  | some live =>
    rw [root_of_pointer hp]
    have hname : Obj.subName propertiesPath = [propertiesRelPath] := rfl
    simp only [hp, hname] at h
    cases hget : s.bucket.get (.snapshot live) [propertiesRelPath] with
    | none | some data =>
      rw [hget] at h
      cases h
      rfl

/-- Nothing is at a free path, and nothing below it. -/
theorem free_of_objectExists (hp : s.bucket.pointer = some live) (hraw : RelPath.ofRaw raw = some p)
    (h : (objStore retention).pathExists raw s = .ok false) : p.parts ≠ [] ∧
      s.bucket.get (.snapshot live) p.parts = none ∧ s.bucket.listDir (.snapshot live) p.parts = [] := by
  have hexists : objectExists p s.bucket = false := Except.ok.inj (of_relPath hraw h)
  simp only [objectExists, hp, Bool.or_eq_false_iff, decide_eq_false_iff_not, not_not, Option.isSome_eq_false_iff,
    Option.isNone_iff_eq_none] at hexists
  exact ⟨hexists.1.1, hexists.1.2, hexists.2⟩

variable (s') in
/-- **A rename of a file to a free name meets the law.** -/
theorem object_renameFile (hp : s.bucket.pointer = some live) (hdst : dst.parts ≠ [])
    (hfree : s.bucket.get (.snapshot live) dst.parts = none) (hnil : s.bucket.listDir (.snapshot live) dst.parts = [])
    (h : request (.renameFile src dst) raw s.bucket = .ok s'.bucket) : s'.bucket.pointer = some live ∧
      Changed s.root s'.root dst.parts (src.parts = [propertiesRelPath] ∨ dst.parts.head? = some propertiesRelPath) ∧
      ∀ content, objectRead src s.bucket = .ok content → dst.parts = [propertiesRelPath] →
        s'.root propertiesRelPath = .plain content := by
  obtain ⟨herr, hrun⟩ := request_eq_ok h
  obtain ⟨hsrc, hplan⟩ := renameFilePlan_eq hp herr
  have hname : Obj.subName dst = dst.parts := if_neg hdst
  simp only [Obj.Mutator.plan, hplan, hname] at hrun
  obtain ⟨hp', hchanged⟩ := edit_changed s' dst.parts
    (src.parts = [propertiesRelPath] ∨ dst.parts.head? = some propertiesRelPath) hp (fun r hr => by
      rcases List.mem_pair.mp hr with rfl | rfl
      · exact ⟨dst.parts, rfl, .inl rfl, fun hno he => hno (.inr (he ▸ rfl))⟩
      · exact ⟨Obj.subName src, rfl, .inr rfl, fun hno he => hno (.inl ((subName_eq_root (by decide)).mp he))⟩) hrun
  refine ⟨hp', hchanged, fun content hread hroot => ?_⟩
  have hget : s.bucket.get (.snapshot live) (Obj.subName src) = some content := by
    simp only [objectRead, hp] at hread
    cases hg : s.bucket.get (.snapshot live) (Obj.subName src) with
    | none => exact absurd hg hsrc
    | some data =>
      rw [hg] at hread
      exact congrArg some (Except.ok.inj hread)
  have hne : dst.parts ≠ Obj.subName src := by
    intro he
    rw [he, hget] at hfree
    cases hfree
  rw [hroot] at hnil
  refine plain_of_get hp' ?_ fun n hhead hn => ?_
  · obtain ⟨u, hu, hobjs⟩ := edit_objs hrun
    have hcopy : s.bucket.objs.lookup ⟨.snapshot live, Obj.subName src⟩ = some content := hget
    simp only [perform, Except.bind, Obj.Request.run, hcopy] at hu
    cases hu
    rw [← hroot, Obj.Bucket.get, hobjs]
    exact (AList.lookup_erase_ne fun he => hne (Obj.Key.mk.inj he).2).trans (AList.lookup_insert _)
  · -- nothing was below the name, and nothing is written there
    have hbefore : s.bucket.get (.snapshot live) n = none := by
      by_contra hsome
      exact absurd hnil (listDir_ne_nil.mpr ⟨n, hhead, hn, Option.isSome_iff_ne_none.mpr hsome⟩)
    refine (less_of_perform hrun fun r hr ht => ?_).elim (fun heq => heq.trans hbefore) id
    rcases List.mem_pair.mp (mem_edit hr ht) with rfl | rfl
    · exact absurd ((Obj.Key.mk.inj (Option.some.inj ht)).2.symm.trans hroot) hn
    · exact congrArg Obj.Request.delete (Option.some.inj ht)

variable (retention) in
/-- **The object store meets the law.** -/
def objRoot : RootLaw (objStore retention) where
  root := ObjStore.root
  Published s := ∃ live, s.bucket.pointer = some live
  published_of_stands := pointer_of_stands
  baseline := object_baseline
  seeded := object_seed_root
  writeFile hpub h := by
    obtain ⟨live, hlive⟩ := hpub
    obtain ⟨p, hp, h⟩ := objectWrite_eq_ok h
    obtain ⟨hp', hwrote⟩ := objectWrite_wrote hlive h
    exact ⟨⟨live, hp'⟩, p, hp, hwrote⟩
  rollback {s s' d raw versionId} hpub h := by
    obtain ⟨live, hlive⟩ := hpub
    obtain ⟨p, hp, h⟩ := ok_of_bind h
    obtain ⟨content, hread, h⟩ := ok_of_bind h
    obtain ⟨hp', hwrote⟩ := objectWrite_wrote hlive h
    refine ⟨⟨live, hp'⟩, p, content, toRelPath_eq_ok.mp hp, ?_, hwrote⟩
    simp only [objStore, hp]
    exact hread
  deleteFile {s s' d raw} hpub h := by
    obtain ⟨live, hlive⟩ := hpub
    obtain ⟨p, hp, h⟩ := ok_of_bind h
    obtain ⟨k', hk', h⟩ := ok_of_bind h
    cases h
    obtain ⟨herr, hrun⟩ := request_eq_ok hk'
    simp only [Obj.Mutator.plan, deleteFilePlan_eq hlive herr] at hrun
    obtain ⟨hp', hchanged⟩ := edit_changed ⟨k', s.versions⟩ []
      (p.parts = [propertiesRelPath]) hlive (fun r hr => by
        rw [List.mem_singleton.mp hr]
        exact ⟨Obj.subName p, rfl, .inr rfl, fun hno he => hno ((subName_eq_root (by decide)).mp he)⟩) hrun
    exact ⟨⟨live, hp'⟩, p, toRelPath_eq_ok.mp hp, hchanged⟩
  deleteDir {s s' d raw} hpub h := by
    obtain ⟨live, hlive⟩ := hpub
    obtain ⟨p, hp, h⟩ := ok_of_bind h
    obtain ⟨k', hk', h⟩ := ok_of_bind h
    cases h
    obtain ⟨herr, hrun⟩ := request_eq_ok hk'
    simp only [Obj.Mutator.plan, deleteDirPlan_eq hlive herr] at hrun
    obtain ⟨hp', hchanged⟩ := edit_changed ⟨k', s.versions⟩ [] (p.parts = []) hlive
      (fun r hr => by
        obtain ⟨n, hn, rfl⟩ := List.mem_map.mp hr
        exact ⟨n, rfl, .inr rfl, fun hno => ne_of_below hno hn⟩) hrun
    exact ⟨⟨live, hp'⟩, p, toRelPath_eq_ok.mp hp, hchanged⟩
  makeDir {s s' d raw} hpub h := by
    obtain ⟨live, hlive⟩ := hpub
    obtain ⟨p, hp, h⟩ := ok_of_bind h
    obtain ⟨k', hk', h⟩ := ok_of_bind h
    cases h
    obtain ⟨-, hrun⟩ := request_eq_ok hk'
    simp only [Obj.Mutator.plan, Obj.makeDirPlan, hlive] at hrun
    by_cases hroot : p.parts = []
    · rw [if_pos hroot] at hrun
      cases hrun
      exact ⟨⟨live, hlive⟩, p, toRelPath_eq_ok.mp hp, fun name _ => Entry.Within.refl _, fun _ => rfl⟩
    · rw [if_neg hroot] at hrun
      obtain ⟨x, rest, hparts⟩ := List.exists_cons_of_ne_nil hroot
      have hhead : (p.parts ++ [Obj.dirMarker]).head? = p.parts.head? := by rw [hparts]; rfl
      have hput : ∀ r ∈ ([.put ⟨.snapshot live, p.parts ++ [Obj.dirMarker]⟩ [],
          .mark (s.bucket.marker.bump (some apiEditPublisher))] : List Obj.Request), ∀ n,
          r.target = some ⟨.snapshot live, n⟩ → n.head? = p.parts.head? := by
        intro r hr n ht
        rcases List.mem_pair.mp hr with rfl | rfl
        · rw [← (Obj.Key.mk.inj (Option.some.inj ht)).2, hhead]
        · cases ht
      obtain ⟨hp', hchanged⟩ := changed_of_perform ⟨k', s.versions⟩ p.parts
        (p.parts.head? = some propertiesRelPath) hlive
        (fun r hr => by rcases List.mem_pair.mp hr with rfl | rfl <;> exact ⟨nofun, nofun⟩)
        (fun r hr n ht hne => absurd (hput r hr n ht) hne) (fun hno r hr ht => hno (hput r hr _ ht).symm) hrun
      exact ⟨⟨live, hp'⟩, p, toRelPath_eq_ok.mp hp, hchanged⟩
  renameFile {s s' d fromPath toPath src dst} hpub hsrc hdst hfree h := by
    obtain ⟨live, hlive⟩ := hpub
    obtain ⟨k', hk', h⟩ := ok_of_bind (of_relPath hdst (of_relPath hsrc h))
    cases h
    obtain ⟨hroot, hnone, hnil⟩ := free_of_objectExists hlive hdst hfree
    obtain ⟨hp', hchanged, hplain⟩ := object_renameFile ⟨k', s.versions⟩ hlive hroot hnone hnil hk'
    exact ⟨⟨live, hp'⟩, hchanged, fun content hread => hplain content (ok_of_mapError (of_relPath hsrc hread))⟩
  renameDir {s s' d fromPath toPath src dst} hpub hsrc hdst hfree h := by
    obtain ⟨live, hlive⟩ := hpub
    obtain ⟨k', hk', h⟩ := ok_of_bind (of_relPath hdst (of_relPath hsrc h))
    cases h
    obtain ⟨hroot, -, -⟩ := free_of_objectExists hlive hdst hfree
    obtain ⟨x, rest, hparts⟩ := List.exists_cons_of_ne_nil hroot
    obtain ⟨herr, hrun⟩ := request_eq_ok hk'
    simp only [Obj.Mutator.plan, renameDirPlan_eq hlive herr] at hrun
    have hmoved : ∀ n, (Obj.movedName src dst n).head? = dst.parts.head? := fun n => by
      rw [Obj.movedName, rebase, hparts]
      rfl
    obtain ⟨hp', hchanged⟩ := edit_changed ⟨k', s.versions⟩ dst.parts
      (src.parts = [] ∨ dst.parts.head? = some propertiesRelPath) hlive (fun r hr => by
        rcases List.mem_append.mp hr with hr | hr
        · obtain ⟨n, -, rfl⟩ := List.mem_map.mp hr
          exact ⟨Obj.movedName src dst n, rfl, .inl (hmoved n), fun hno he => hno (.inr ((hmoved n).symm.trans (he ▸ rfl)))⟩
        · obtain ⟨n, hn, rfl⟩ := List.mem_map.mp hr
          exact ⟨n, rfl, .inr rfl, fun hno => ne_of_below (fun hnil => hno (.inl hnil)) hn⟩) hrun
    exact ⟨⟨live, hp'⟩, hchanged⟩

end McServerDashboard.Files
