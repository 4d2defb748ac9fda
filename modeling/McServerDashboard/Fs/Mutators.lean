import McServerDashboard.Fs.Disk

/-!
# The mutators of one server's store

Every mutator runs its checks and its writes under the per-server lock. The checks end in an
error, before anything is written, or in the `Work` that is left; its writes are listed in the
order the adapter performs them, each a point where an I/O error or a crash can cut it off.

* `Mutator.check`: the checks of each mutator.
* `Work.plan`: the writes; a publish moves the staging, flips `current` and writes the marker, an
  edit changes the live snapshot and writes the marker.
* **`Work.advances`**: every plan writes the marker, and only with the next generation.
-/

namespace McServerDashboard.Fs

/-- What a mutator's checks refuse with. -/
inductive Err
  | pathTraversal (p : RelPath)
  | symlinkRefused (p : RelPath)
  | nameTooLong (p : RelPath)
  | fileNotFound (p : RelPath)
  | directoryNotFound (p : RelPath)
  | notPublished
  | staleGeneration (expectedBase current : ℕ)
  | prunedStore (expectedBase current : ℕ)
  | missingRegions (partialLoss : List (Path × List String))
  | publisherFenced
  deriving DecidableEq

/-! ## The checks -/

/-- `_current_dir`: the live snapshot, or a miss. -/
def currentDir (k : Disk) : Except Err (DirId × Tree) :=
  match k.currentTree with
  | some x => .ok x
  | none => .error .notPublished

/-- The link among the directories above `p`, if there is one. -/
def linkParent (t : Tree) (p : Path) : Option Bool :=
  p.dropLast.inits.tail.findSome? fun q =>
    match t.lookup q with
    | some (.link escapes) => some escapes
    | _ => none

/-- `_safe_target`: containment first, then no link above the leaf. -/
def safeTarget (t : Tree) (p : RelPath) : Except Err Unit :=
  match linkParent t p.parts with
  | some true => .error (.pathTraversal p)
  | some false => .error (.symlinkRefused p)
  | none => if t.lookup p.parts = some (.link true) then .error (.pathTraversal p) else .ok ()

/-- `_is_symlink` on the leaf. -/
def isLink (t : Tree) (p : Path) : Bool :=
  match t.stat p with
  | .ok (.link _) => true
  | _ => false

/-- `_existing_file` on a leaf that is no link. -/
def existingFile (t : Tree) (p : Path) : Bool :=
  match t.stat p with
  | .ok (.file _) => true
  | _ => false

/-- `_existing_dir` on a leaf that is no link. -/
def existingDir (t : Tree) (p : Path) : Bool :=
  match t.stat p with
  | .ok .dir => true
  | _ => false

/-- The files of a tree, for the missing-region gate. -/
def files (t : Tree) : List Path :=
  t.entries.filterMap fun e =>
    match e.2 with
    | .file _ => some e.1
    | _ => none

/-- The gate of a commit against the published set; nothing published passes. -/
def lostRegions (k : Disk) (d : DirId) : List (Path × List String) :=
  match k.currentTree, k.dirs.lookup d with
  | some (_, prior), some x => missingRegions (files x.tree) (files prior)
  | _, _ => []

/-! ## The mutators -/

/-- The operations that change the authoritative copy. `fence` is what the publisher fence
answers under the lock, `order` the order in which `rmtree` meets the members. -/
inductive Mutator
  | commit (d : DirId) (publisher : Option String) (expectedBase : Option ℕ) (fence : Option Bool)
  | restore (d : DirId)
  | writeFile (p : RelPath) (data : Bytes) (d : DirId) (salt : String)
  | deleteFile (p : RelPath)
  | deleteDir (p : RelPath) (order : List Path)
  | renameFile (src dst : RelPath)
  | renameDir (src dst : RelPath)
  | makeDir (p : RelPath)
  | prune (order : List (DirId × Path))

/-- An in-place edit of the live snapshot: the changes in order, those of the `except` handler,
and whether the snapshot directory itself goes at the end. -/
structure Edit where
  live : DirId
  ops : List TreeOp
  undo : List TreeOp := []
  wipe : Bool := false
  deriving DecidableEq

/-- What a mutator that passed its checks goes on to do under the lock. -/
inductive Work
  /-- Publish the staging directory `d`. -/
  | publish (d : DirId) (publisher : Option String)
  /-- Stage the first file of a never-snapshotted server in `d` and publish it. -/
  | first (d : DirId) (ops : List TreeOp)
  /-- Edit the live snapshot. -/
  | edit (e : Edit)
  /-- Pack the live snapshot, if there is one, and drop the tree. -/
  | prune (order : List (DirId × Path))
  deriving DecidableEq

/-- `_publish_and_bump` of a snapshot commit, up to the publish. -/
def checkCommit (d : DirId) (publisher : Option String) (expectedBase : Option ℕ)
    (fence : Option Bool) (k : Disk) : Except Err Work :=
  match expectedBase.filter (· ≠ k.generation) with
  | some base =>
    if k.current = none then .error (.prunedStore base k.generation)
    else .error (.staleGeneration base k.generation)
  | none =>
    if lostRegions k d ≠ [] then .error (.missingRegions (lostRegions k d))
    else if fence = some false then .error .publisherFenced
    else .ok (.publish d publisher)

/-- `_write_file`; the first write of a never-snapshotted server is staged in `d`. -/
def checkWriteFile (p : RelPath) (data : Bytes) (d : DirId) (salt : String) (k : Disk) :
    Except Err Work :=
  let ops := mkdirParents p.parts.dropLast ++ atomicWrite p.parts data salt
  if p.parts = [] then .error (.pathTraversal p)
  else if k.current = none then .ok (.first d ops)
  else do
    let (live, t) ← currentDir k
    safeTarget t p
    if isLink t p.parts then .error (.symlinkRefused p)
    else match t.stat p.parts with
      | .error .nametoolong => .error (.nameTooLong p)
      | .ok .dir => .error (.pathTraversal p)
      | _ => .ok (.edit { live := live, ops := ops, undo := [.discard (tempSibling p.parts salt)] })

/-- `_delete_file`: a leaf link goes as the dirent it is. -/
def checkDeleteFile (p : RelPath) (k : Disk) : Except Err Work := do
  let (live, t) ← currentDir k
  safeTarget t p
  if isLink t p.parts || existingFile t p.parts then
    .ok (.edit { live := live, ops := [.remove p.parts] })
  else .error (.fileNotFound p)

/-- `_delete_dir`: `rmtree` of the target, which for the root is the live snapshot itself. -/
def checkDeleteDir (p : RelPath) (order : List Path) (k : Disk) : Except Err Work := do
  let (live, t) ← currentDir k
  safeTarget t p
  if isLink t p.parts || !existingDir t p.parts then .error (.directoryNotFound p)
  else if p.parts = [] then .ok (.edit { live := live, ops := order.map .remove, wipe := true })
  else .ok (.edit { live := live, ops := order.map .remove ++ [.remove p.parts] })

/-- `_rename_file` and `_rename_dir`: they differ in what the source must be. -/
def checkRename (isSource : Tree → Path → Bool) (missing : Err) (src dst : RelPath) (k : Disk) :
    Except Err Work := do
  let (live, t) ← currentDir k
  safeTarget t src
  safeTarget t dst
  if isLink t src.parts then .error (.symlinkRefused src)
  else if !isSource t src.parts then .error missing
  else .ok (.edit { live := live,
                    ops := mkdirParents dst.parts.dropLast ++ [.rename src.parts dst.parts] })

/-- `_rename_file`. -/
def checkRenameFile (src dst : RelPath) : Disk → Except Err Work :=
  checkRename existingFile (.fileNotFound src) src dst

/-- `_rename_dir`. -/
def checkRenameDir (src dst : RelPath) : Disk → Except Err Work :=
  checkRename existingDir (.directoryNotFound src) src dst

/-- `_make_dir`. -/
def checkMakeDir (p : RelPath) (k : Disk) : Except Err Work := do
  let (live, t) ← currentDir k
  safeTarget t p
  if isLink t p.parts then .error (.symlinkRefused p)
  else .ok (.edit { live := live, ops := mkdirParents p.parts })

/-- The checks of a mutator: an error before anything is written, or its work. -/
def Mutator.check : Mutator → Disk → Except Err Work
  | commit d publisher expectedBase fence, k => checkCommit d publisher expectedBase fence k
  | restore d, _ => .ok (.publish d (some restorePublisher))
  | writeFile p data d salt, k => checkWriteFile p data d salt k
  | deleteFile p, k => checkDeleteFile p k
  | deleteDir p order, k => checkDeleteDir p order k
  | renameFile src dst, k => checkRenameFile src dst k
  | renameDir src dst, k => checkRenameDir src dst k
  | makeDir p, k => checkMakeDir p k
  | prune order, _ => .ok (.prune order)

/-! ## An edit is of the live snapshot -/

theorem currentDir_ok {k : Disk} {x : DirId × Tree} (h : currentDir k = .ok x) :
    k.currentTree = some x := by
  unfold currentDir at h
  split at h <;> cases h
  assumption

theorem checkCommit_not_edit {d : DirId} {publisher : Option String} {expectedBase : Option ℕ}
    {fence : Option Bool} {k : Disk} {e : Edit} :
    checkCommit d publisher expectedBase fence k ≠ .ok (.edit e) := by
  unfold checkCommit
  split <;> split_ifs <;> simp

theorem checkWriteFile_live {p : RelPath} {data : Bytes} {d : DirId} {salt : String} {k : Disk}
    {e : Edit} (h : checkWriteFile p data d salt k = .ok (.edit e)) :
    ∃ t, k.currentTree = some (e.live, t) := by
  simp only [checkWriteFile] at h
  split_ifs at h
  · cases h
  · obtain ⟨⟨live, t⟩, hc, h⟩ := Lib.ok_of_bind h
    obtain ⟨-, -, h⟩ := Lib.ok_of_bind h
    split_ifs at h
    split at h <;> cases h
    exact ⟨t, currentDir_ok hc⟩

theorem checkDeleteFile_live {p : RelPath} {k : Disk} {e : Edit}
    (h : checkDeleteFile p k = .ok (.edit e)) : ∃ t, k.currentTree = some (e.live, t) := by
  obtain ⟨⟨live, t⟩, hc, h⟩ := Lib.ok_of_bind h
  obtain ⟨-, -, h⟩ := Lib.ok_of_bind h
  split_ifs at h
  cases h
  exact ⟨t, currentDir_ok hc⟩

theorem checkDeleteDir_live {p : RelPath} {order : List Path} {k : Disk} {e : Edit}
    (h : checkDeleteDir p order k = .ok (.edit e)) : ∃ t, k.currentTree = some (e.live, t) := by
  obtain ⟨⟨live, t⟩, hc, h⟩ := Lib.ok_of_bind h
  obtain ⟨-, -, h⟩ := Lib.ok_of_bind h
  split_ifs at h <;> cases h <;> exact ⟨t, currentDir_ok hc⟩

theorem checkRename_live {isSource : Tree → Path → Bool} {missing : Err} {src dst : RelPath}
    {k : Disk} {e : Edit} (h : checkRename isSource missing src dst k = .ok (.edit e)) :
    ∃ t, k.currentTree = some (e.live, t) := by
  obtain ⟨⟨live, t⟩, hc, h⟩ := Lib.ok_of_bind h
  obtain ⟨-, -, h⟩ := Lib.ok_of_bind h
  obtain ⟨-, -, h⟩ := Lib.ok_of_bind h
  split_ifs at h
  cases h
  exact ⟨t, currentDir_ok hc⟩

theorem checkMakeDir_live {p : RelPath} {k : Disk} {e : Edit}
    (h : checkMakeDir p k = .ok (.edit e)) : ∃ t, k.currentTree = some (e.live, t) := by
  obtain ⟨⟨live, t⟩, hc, h⟩ := Lib.ok_of_bind h
  obtain ⟨-, -, h⟩ := Lib.ok_of_bind h
  split_ifs at h
  cases h
  exact ⟨t, currentDir_ok hc⟩

/-- **An edit acts on the directory `current` resolves to.** -/
theorem Mutator.check_live {m : Mutator} {k : Disk} {e : Edit} (h : m.check k = .ok (.edit e)) :
    ∃ t, k.currentTree = some (e.live, t) := by
  cases m with
  | commit d publisher expectedBase fence => exact absurd h checkCommit_not_edit
  | restore d => cases h
  | writeFile p data d salt => exact checkWriteFile_live h
  | deleteFile p => exact checkDeleteFile_live h
  | deleteDir p order => exact checkDeleteDir_live h
  | renameFile src dst | renameDir src dst => exact checkRename_live h
  | makeDir p => exact checkMakeDir_live h
  | prune order => cases h

/-! ## The writes -/

/-- The writes of a locked section, and those of its `except` handler. -/
structure Plan where
  writes : List Write
  undo : List Write := []

/-- `_publish` and the marker write after it. -/
def publishWrites (k : Disk) (d : DirId) (publisher : Option String) : List Write :=
  [.move d, .flip d, .mark (k.marker.bump publisher)]

/-- `_publish_initial`: the first file staged in `d`, then published. -/
def firstWrites (k : Disk) (d : DirId) (ops : List TreeOp) : List Write :=
  .mkdir d :: ops.map (.change d) ++ publishWrites k d (some apiEditPublisher)

/-- An in-place edit of the live snapshot, then the bump. -/
def editWrites (k : Disk) (e : Edit) : List Write :=
  e.ops.map (.change e.live) ++ (if e.wipe then [.rmdir e.live] else []) ++
    [.mark (k.marker.bump (some apiEditPublisher))]

/-- `_rmtree` of `snapshots/` and `incoming/`, the members in the given order. -/
def rmtreeWrites (order : List (DirId × Path)) (k : Disk) : List Write :=
  (order.filter fun x => k.dirs.keys.contains x.1).map (fun x => .change x.1 (.discard x.2)) ++
    k.dirs.keys.map .rmdir

/-- `_drop_publisher` after a bump that wrote `m`. -/
def dropPublisher (m : Marker) : List Write :=
  if m.publisher = none then [] else [.mark ⟨m.generation, none⟩]

/-- `_prune_to_final_snapshot_inner`. -/
def pruneWrites (k : Disk) (order : List (DirId × Path)) : List Write :=
  match k.currentTree with
  | none => rmtreeWrites order k ++ [.unlinkCurrent, .mark (k.marker.bump none)]
  | some (_, t) =>
    [.pack t, .mark (k.marker.bump k.marker.publisher), .unlinkCurrent] ++
      rmtreeWrites order k ++ dropPublisher (k.marker.bump k.marker.publisher)

/-- The writes of a mutator's work, in order. -/
def Work.plan (k : Disk) : Work → Plan
  | publish d publisher => { writes := publishWrites k d publisher }
  | first d ops => { writes := firstWrites k d ops }
  | edit e => { writes := editWrites k e, undo := e.undo.map (.change e.live) }
  | prune order => { writes := pruneWrites k order }

/-! ## What the plans write to the marker -/

/-- Every marker among the writes carries the generation `g`. -/
def MarksAt (g : ℕ) (ws : List Write) : Prop := ∀ m, .mark m ∈ ws → m.generation = g

theorem MarksAt.append {g : ℕ} {ws us : List Write} (h1 : MarksAt g ws) (h2 : MarksAt g us) :
    MarksAt g (ws ++ us) := fun m hm => (List.mem_append.mp hm).elim (h1 m) (h2 m)

theorem MarksAt.append_unmarked {g : ℕ} {ws us : List Write} (h1 : ∀ w ∈ ws, w.isMark = false)
    (h2 : MarksAt g us) : MarksAt g (ws ++ us) :=
  MarksAt.append (fun m hm => by cases h1 _ hm) h2

theorem marksAt_single (k : Disk) (publisher : Option String) :
    MarksAt (k.generation + 1) [.mark (k.marker.bump publisher)] := by
  intro m hm
  rw [List.mem_singleton, Write.mark.injEq] at hm
  rw [hm]
  rfl

theorem marksAt_unmarked {g : ℕ} {ws : List Write} (h : ∀ w ∈ ws, w.isMark = false) :
    MarksAt g ws := fun m hm => by cases h _ hm

theorem unmarked_changes (d : DirId) (ops : List TreeOp) :
    ∀ w ∈ ops.map (Write.change d), w.isMark = false := by
  intro w hw
  obtain ⟨op, -, rfl⟩ := List.mem_map.mp hw
  rfl

theorem unmarked_rmtreeWrites (order : List (DirId × Path)) (k : Disk) :
    ∀ w ∈ rmtreeWrites order k, w.isMark = false := by
  intro w hw
  rcases List.mem_append.mp hw with h | h <;> obtain ⟨x, -, rfl⟩ := List.mem_map.mp h <;> rfl

theorem marksAt_publishWrites (k : Disk) (d : DirId) (publisher : Option String) :
    MarksAt (k.generation + 1) (publishWrites k d publisher) := by
  have h : ∀ w ∈ [Write.move d, .flip d], w.isMark = false := by simp [Write.isMark]
  exact MarksAt.append_unmarked h (marksAt_single k publisher)

theorem marksAt_editWrites (k : Disk) (e : Edit) : MarksAt (k.generation + 1) (editWrites k e) := by
  refine ((marksAt_unmarked (unmarked_changes _ _)).append (marksAt_unmarked ?_)).append
    (marksAt_single k _)
  split_ifs <;> simp [Write.isMark]

theorem marksAt_dropPublisher (m : Marker) : MarksAt m.generation (dropPublisher m) := by
  intro m' hm
  unfold dropPublisher at hm
  split_ifs at hm
  · cases hm
  · rw [List.mem_singleton, Write.mark.injEq] at hm
    rw [hm]

theorem marksAt_pruneWrites (k : Disk) (order : List (DirId × Path)) :
    MarksAt (k.generation + 1) (pruneWrites k order) := by
  have hrm := unmarked_rmtreeWrites order k
  have hunlink : ∀ w ∈ [Write.unlinkCurrent], w.isMark = false := by simp [Write.isMark]
  unfold pruneWrites
  split
  · exact MarksAt.append_unmarked hrm (MarksAt.append_unmarked hunlink (marksAt_single k none))
  · next t _ =>
    have hpack : ∀ w ∈ [Write.pack t], w.isMark = false := by simp [Write.isMark]
    have hbump := (marksAt_single k k.marker.publisher).append (marksAt_unmarked hunlink)
    exact ((MarksAt.append_unmarked hpack hbump).append (marksAt_unmarked hrm)).append
      (marksAt_dropPublisher _)

/-- What a plan must do to the marker: write it, and only with the next generation. -/
structure Plan.Advances (k : Disk) (plan : Plan) : Prop where
  marks : MarksAt (k.generation + 1) plan.writes
  reaches : ∃ m, .mark m ∈ plan.writes
  undo : ∀ w ∈ plan.undo, w.isMark = false

/-- **Every mutator's work writes the next generation, and no other.** -/
theorem Work.advances (w : Work) (k : Disk) : (w.plan k).Advances k := by
  cases w with
  | publish d publisher =>
    exact ⟨marksAt_publishWrites k d publisher,
      ⟨k.marker.bump publisher, by simp [plan, publishWrites]⟩, by simp [plan]⟩
  | first d ops =>
    refine ⟨?_, ⟨k.marker.bump (some apiEditPublisher), by simp [plan, firstWrites, publishWrites]⟩,
      by simp [plan]⟩
    have hstage : ∀ w ∈ Write.mkdir d :: ops.map (.change d), w.isMark = false := fun w hw => by
      rcases List.mem_cons.mp hw with rfl | hw
      · rfl
      · exact unmarked_changes d ops w hw
    exact MarksAt.append_unmarked hstage (marksAt_publishWrites k d _)
  | edit e =>
    exact ⟨marksAt_editWrites k e, ⟨k.marker.bump (some apiEditPublisher), by simp [plan, editWrites]⟩,
      unmarked_changes _ _⟩
  | prune order =>
    refine ⟨marksAt_pruneWrites k order, ?_, by simp [plan]⟩
    change ∃ m, Write.mark m ∈ pruneWrites k order
    unfold pruneWrites
    split
    · exact ⟨k.marker.bump none, by simp⟩
    · exact ⟨k.marker.bump k.marker.publisher, by simp⟩

end McServerDashboard.Fs
