import McServerDashboard.Lib.KeyTree
import McServerDashboard.Obj.Bucket

/-!
# The mutators of one server's objects

Every mutator is a program of requests, each a point where the store or the process can fail. A
publish stages the files of an archive, copies them under a fresh snapshot prefix, writes the
pointer and then the marker, and reclaims; an edit changes the objects of the live prefix, writes
the pointer again and then the marker.

* `Member`, `stagedMembers`, `restorableMembers`: what of an archive is staged.
* `Mutator.plan`: the requests of each mutator, and the error it ends in.
* **`Mutator.advances`**: a plan writes the marker only with the next generation.
-/

namespace McServerDashboard.Obj

open Lib

/-- What a mutator refuses with. -/
inductive Err
  | pathTraversal (p : Path)
  | fileNotFound (p : RelPath)
  | directoryNotFound (p : RelPath)
  | notPublished
  | incompleteTransfer
  | archiveUnreadable (name : Name)
  | integrity
  | staleGeneration (expectedBase current : ℕ)
  | prunedStore (expectedBase current : ℕ)
  | missingRegions (partialLoss : List (Path × List String))
  | publisherFenced
  deriving DecidableEq

/-! ## Archives -/

inductive MemberKind
  | file
  | dir
  /-- A link, a device, a FIFO. -/
  | other
  deriving DecidableEq

/-- A member of a tar archive, under its raw name. -/
structure Member where
  name : Name
  kind : MemberKind
  data : Bytes
  deriving DecidableEq

/-- `PurePosixPath(name).parts`, the root apart. -/
def Name.parts (n : Name) : Path := n.filter fun part => part ≠ "" ∧ part ≠ "."

/-- `PurePosixPath(name).is_absolute()`. -/
def Name.isAbsolute : Name → Bool
  | "" :: _ :: _ => true
  | _ => false

/-- The name is absolute or has a `..` component. -/
def Name.escapes (n : Name) : Bool := n.isAbsolute || n.contains ".."

/-- `is_reserved_root_member`, on a name that does not escape. -/
def Name.isReserved (n : Name) : Bool :=
  (n.parts.head?.map fun part => ".mcsd_generation".toList.isPrefixOf part.toList).getD false

/-- `_safe_archive_members` of an uploaded snapshot: its file members. -/
def stagedMembers (members : List Member) : Except Err (List (Name × Bytes)) :=
  let files := members.filter fun m => m.kind = .file
  match files.find? fun m => m.name.escapes with
  | some m => .error (.pathTraversal m.name)
  | none => .ok (files.map fun m => (m.name, m.data))

/-- `refuse_unrestorable_member`. -/
def Member.unrestorable (m : Member) : Bool := m.kind = .other || m.name.escapes

/-- `_archive_file_member_streams` of a backup: the files before the first member that no restore
may take, and that member. -/
def restorableMembers (members : List Member) : List (Name × Bytes) × Option Name :=
  let taken := members.takeWhile fun m => !m.unrestorable
  ((taken.filter fun m => m.kind = .file && !m.name.isReserved).map fun m => (m.name, m.data),
    (members.find? Member.unrestorable).map Member.name)

/-! ## The plans -/

/-- The operations that change the authoritative copy. `d` is the fresh id of a transfer and its
snapshot, `healthy` the verdict of the region check, `fence` what the publisher fence answers under
the lock, and `leased` whether a reader leases the superseded prefix. -/
inductive Mutator
  | commit (members : List Member) (d : SnapshotId) (publisher : Option String)
      (expectedBase : Option ℕ) (healthy : Bool) (fence : Option Bool) (leased : Bool)
  | restore (members : List Member) (d : SnapshotId) (healthy force leased : Bool)
  | writeFile (p : RelPath) (data : Bytes) (d : SnapshotId)
  | deleteFile (p : RelPath)
  | deleteDir (p : RelPath)
  | renameFile (src dst : RelPath)
  | renameDir (src dst : RelPath)
  | makeDir (p : RelPath)
  | prune

/-- The requests of a mutator, and the error it raises after them. -/
structure Plan extends Program Request where
  error : Option Err := none

/-- Nothing is written. -/
def refuse (e : Err) : Plan := { writes := [], error := some e }

/-- The object name that `prefix + sub` addresses; the root addresses the prefix itself. -/
def subName (p : RelPath) : Name := if p.parts = [] then [""] else p.parts

/-- PUT the staged files. -/
def stage (d : SnapshotId) (files : List (Name × Bytes)) : List Request :=
  files.map fun x => .put ⟨.incoming d, x.1⟩ x.2

/-- The names that the staging prefix lists. -/
def stagedNames (files : List (Name × Bytes)) : List Name := (files.map Prod.fst).dedup

/-- `_copy_into_snapshot`. -/
def copyIntoSnapshot (d : SnapshotId) (names : List Name) : List Request :=
  names.map fun n => .copy ⟨.incoming d, n⟩ ⟨.snapshot d, n⟩

/-- `_delete_prefix`, or the delete loop of a directory. -/
def deleteNames (p : Prefix) (names : List Name) : List Request := names.map fun n => .delete ⟨p, n⟩

/-- `_gc_after_flip`. -/
def gcAfterFlip (k : Bucket) (d : SnapshotId) (names : List Name) (leased : Bool) : List Request :=
  deleteNames (.incoming d) names ++
    match k.pointer with
    | some old => if old ≠ d ∧ !leased then deleteNames (.snapshot old) (k.list (.snapshot old)) else []
    | none => []

/-- Stage the files, copy them, flip the pointer, bump the marker and reclaim. -/
def publishPlan (k : Bucket) (d : SnapshotId) (files : List (Name × Bytes)) (publisher : Option String)
    (leased : Bool) : Plan where
  writes := stage d files ++ copyIntoSnapshot d (stagedNames files) ++
    [.point d, .mark (k.marker.bump publisher)] ++ gcAfterFlip k d (stagedNames files) leased
  undo := deleteNames (.incoming d) (stagedNames files)

/-- A commit that was refused under the lock discards its copy and its staging. -/
def discardPlan (d : SnapshotId) (files : List (Name × Bytes)) (e : Err) : Plan where
  writes := stage d files ++ copyIntoSnapshot d (stagedNames files) ++
    deleteNames (.snapshot d) (stagedNames files) ++ deleteNames (.incoming d) (stagedNames files)
  error := some e

/-- A transfer that fails before the copy discards its staging. -/
def unstagePlan (d : SnapshotId) (files : List (Name × Bytes)) (e : Err) : Plan where
  writes := stage d files ++ deleteNames (.incoming d) (stagedNames files)
  error := some e

/-- The names of the live prefix, for the missing-region gate. -/
def lostRegions (k : Bucket) (names : List Name) : List (Path × List String) :=
  match k.pointer with
  | some old => missingRegions names (k.list (.snapshot old))
  | none => []

/-- `write_snapshot` and `commit_snapshot`. -/
def commitPlan (members : List Member) (d : SnapshotId) (publisher : Option String)
    (expectedBase : Option ℕ) (healthy : Bool) (fence : Option Bool) (leased : Bool) (k : Bucket) : Plan :=
  match stagedMembers members with
  | .error e => refuse e
  | .ok files =>
    if files = [] then refuse .incompleteTransfer
    else if !healthy then unstagePlan d files .integrity
    else match expectedBase.filter (· ≠ k.generation) with
      | some base =>
        if k.pointer = none then discardPlan d files (.prunedStore base k.generation)
        else discardPlan d files (.staleGeneration base k.generation)
      | none =>
        if lostRegions k (stagedNames files) ≠ [] then
          discardPlan d files (.missingRegions (lostRegions k (stagedNames files)))
        else if fence = some false then discardPlan d files .publisherFenced
        else publishPlan k d files publisher leased

/-- `restore_backup`. -/
def restorePlan (members : List Member) (d : SnapshotId) (healthy force leased : Bool) (k : Bucket) : Plan :=
  let (files, refused) := restorableMembers members
  match refused with
  | some name => unstagePlan d files (.archiveUnreadable name)
  | none =>
    if !healthy && !force then unstagePlan d files .integrity
    else publishPlan k d files (some restorePublisher) leased

/-- Change the objects of the live prefix, write the pointer again and bump the marker. -/
def editPlan (k : Bucket) (live : SnapshotId) (requests : List Request) : Plan where
  writes := requests ++ [.point live, .mark (k.marker.bump (some apiEditPublisher))]

/-- `write_file`; the first write of a never-snapshotted server publishes it. -/
def writeFilePlan (p : RelPath) (data : Bytes) (d : SnapshotId) (k : Bucket) : Plan :=
  if p.parts = [] then refuse (.pathTraversal [])
  else match k.pointer with
    | none => publishPlan k d [(p.parts, data)] (some apiEditPublisher) false
    | some live =>
      if k.listDir (.snapshot live) p.parts ≠ [] then refuse (.pathTraversal p.parts)
      else editPlan k live [.put ⟨.snapshot live, p.parts⟩ data]

/-- `delete_file`. -/
def deleteFilePlan (p : RelPath) (k : Bucket) : Plan :=
  match k.pointer with
  | none => refuse .notPublished
  | some live =>
    if k.get (.snapshot live) (subName p) = none then refuse (.fileNotFound p)
    else editPlan k live [.delete ⟨.snapshot live, subName p⟩]

/-- `delete_dir`. -/
def deleteDirPlan (p : RelPath) (k : Bucket) : Plan :=
  match k.pointer with
  | none => refuse .notPublished
  | some live =>
    let names := k.listDir (.snapshot live) p.parts
    if names = [] then refuse (.directoryNotFound p)
    else editPlan k live (deleteNames (.snapshot live) names)

/-- `rename_file`: the destination is not looked at. -/
def renameFilePlan (src dst : RelPath) (k : Bucket) : Plan :=
  match k.pointer with
  | none => refuse .notPublished
  | some live =>
    if k.get (.snapshot live) (subName src) = none then refuse (.fileNotFound src)
    else editPlan k live
      [.copy ⟨.snapshot live, subName src⟩ ⟨.snapshot live, subName dst⟩, .delete ⟨.snapshot live, subName src⟩]

/-- Where `rename_dir` moves a name below `src`. -/
def movedName (src dst : RelPath) (n : Name) : Name := rebase src.parts dst.parts n

/-- `rename_dir`: every object is copied, then every original is deleted. -/
def renameDirPlan (src dst : RelPath) (k : Bucket) : Plan :=
  match k.pointer with
  | none => refuse .notPublished
  | some live =>
    let names := k.listDir (.snapshot live) src.parts
    if names = [] then refuse (.directoryNotFound src)
    else editPlan k live
      (names.map (fun n => .copy ⟨.snapshot live, n⟩ ⟨.snapshot live, movedName src dst n⟩) ++
        deleteNames (.snapshot live) names)

/-- The marker object of an empty directory. -/
def dirMarker : String := ".dir"

/-- `make_dir`: the root is always there, and the pointer is not written again. -/
def makeDirPlan (p : RelPath) (k : Bucket) : Plan :=
  if p.parts = [] then { writes := [] }
  else match k.pointer with
    | none => refuse .notPublished
    | some live =>
      { writes := [.put ⟨.snapshot live, p.parts ++ [dirMarker]⟩ [],
          .mark (k.marker.bump (some apiEditPublisher))] }

/-- `_delete_prefix` of `snapshots/` and of `incoming/`. -/
def deleteAll (k : Bucket) : List Request :=
  let isSnapshot (key : Key) : Bool := match key.under with | .snapshot _ => true | .incoming _ => false
  (k.objs.keys.filter isSnapshot ++ k.objs.keys.filter (!isSnapshot ·)).map .delete

/-- `prune_to_final_snapshot`: the packed archive goes elsewhere. -/
def prunePlan (k : Bucket) : Plan :=
  match k.pointer with
  | none => { writes := deleteAll k ++ [.mark (k.marker.bump none)] }
  | some _ =>
    { writes := [.mark (k.marker.bump k.marker.publisher), .unpoint] ++ deleteAll k ++
        if k.marker.publisher = none then [] else [.mark ⟨k.marker.generation + 1, none⟩] }

/-- The requests of a mutator. -/
def Mutator.plan : Mutator → Bucket → Plan
  | commit members d publisher expectedBase healthy fence leased, k =>
    commitPlan members d publisher expectedBase healthy fence leased k
  | restore members d healthy force leased, k => restorePlan members d healthy force leased k
  | writeFile p data d, k => writeFilePlan p data d k
  | deleteFile p, k => deleteFilePlan p k
  | deleteDir p, k => deleteDirPlan p k
  | renameFile src dst, k => renameFilePlan src dst k
  | renameDir src dst, k => renameDirPlan src dst k
  | makeDir p, k => makeDirPlan p k
  | prune, k => prunePlan k

/-- The id that a mutator draws. -/
def Mutator.drawn : Mutator → Option SnapshotId
  | commit _ d _ _ _ _ _ => some d
  | restore _ d _ _ _ => some d
  | writeFile _ _ d => some d
  | _ => none

/-- No object and no pointer uses the id. -/
def Bucket.isFresh (k : Bucket) (d : SnapshotId) : Bool :=
  k.list (.incoming d) = [] && k.list (.snapshot d) = [] && k.pointer ≠ some d

/-! ## What the plans write to the marker -/

/-- The stamp of the store is its generation. -/
def stamping : Stamping Request.run where
  stamp := Bucket.generation
  mark := Request.marked
  keeps := Request.run_generation
  marks := Request.run_marked

/-- What a plan may do to the marker: only its writes set it, and only to the next generation. -/
structure Plan.Advances (plan : Plan) (k : Bucket) : Prop where
  marks : stamping.MarksAt (k.generation + 1) plan.writes
  undo : stamping.Unmarked plan.undo

variable {k : Bucket} {d live : SnapshotId} {files : List (Name × Bytes)}

theorem marksAt_bump (k : Bucket) (publisher : Option String) :
    stamping.MarksAt (k.generation + 1) [.mark (k.marker.bump publisher)] := by
  intro w hw m hm
  rw [List.mem_singleton] at hw
  subst hw
  exact (Option.some.inj hm).symm

theorem unmarked_map {β : Type} {f : β → Request} (hf : ∀ x, (f x).marked = none) (xs : List β) :
    stamping.Unmarked (xs.map f) := by
  intro w hw
  obtain ⟨x, -, rfl⟩ := List.mem_map.mp hw
  exact hf x

theorem unmarked_stage : stamping.Unmarked (stage d files) := unmarked_map (fun _ => rfl) _

theorem unmarked_copyIntoSnapshot {names : List Name} : stamping.Unmarked (copyIntoSnapshot d names) :=
  unmarked_map (fun _ => rfl) _

theorem unmarked_deleteNames {p : Prefix} {names : List Name} : stamping.Unmarked (deleteNames p names) :=
  unmarked_map (fun _ => rfl) _

theorem unmarked_gcAfterFlip {names : List Name} {leased : Bool} :
    stamping.Unmarked (gcAfterFlip k d names leased) := by
  refine unmarked_deleteNames.append ?_
  split
  · split_ifs
    · exact unmarked_deleteNames
    · exact fun w hw => by cases hw
  · exact fun w hw => by cases hw

theorem unmarked_single {r : Request} (h : r.marked = none) : stamping.Unmarked [r] := by
  intro w hw
  rw [List.mem_singleton.mp hw]
  exact h

theorem unmarked_nil : stamping.Unmarked [] := fun w hw => by cases hw

theorem advances_of_unmarked {plan : Plan} (h : stamping.Unmarked plan.writes)
    (hu : stamping.Unmarked plan.undo) : plan.Advances k := ⟨h.marksAt, hu⟩

theorem advances_refuse (e : Err) : (refuse e).Advances k := advances_of_unmarked unmarked_nil unmarked_nil

theorem advances_discardPlan (e : Err) : (discardPlan d files e).Advances k :=
  advances_of_unmarked
    (((unmarked_stage.append unmarked_copyIntoSnapshot).append unmarked_deleteNames).append unmarked_deleteNames)
    unmarked_nil

theorem advances_unstagePlan (e : Err) : (unstagePlan d files e).Advances k :=
  advances_of_unmarked (unmarked_stage.append unmarked_deleteNames) unmarked_nil

theorem advances_publishPlan (publisher : Option String) (leased : Bool) :
    (publishPlan k d files publisher leased).Advances k where
  marks := ((unmarked_stage.append unmarked_copyIntoSnapshot).marksAt.append
    ((unmarked_single rfl).marksAt.append (marksAt_bump k publisher))).append unmarked_gcAfterFlip.marksAt
  undo := unmarked_deleteNames

theorem advances_editPlan {requests : List Request} (h : stamping.Unmarked requests) :
    (editPlan k live requests).Advances k where
  marks := h.marksAt.append ((unmarked_single rfl).marksAt.append (marksAt_bump k _))
  undo := unmarked_nil

theorem advances_commitPlan {members : List Member} {publisher : Option String} {expectedBase : Option ℕ}
    {healthy : Bool} {fence : Option Bool} {leased : Bool} :
    (commitPlan members d publisher expectedBase healthy fence leased k).Advances k := by
  unfold commitPlan
  split
  · exact advances_refuse _
  split
  · exact advances_refuse _
  split
  · exact advances_unstagePlan _
  split
  · split <;> exact advances_discardPlan _
  · split
    · exact advances_discardPlan _
    split
    · exact advances_discardPlan _
    · exact advances_publishPlan _ _

theorem advances_restorePlan {members : List Member} {healthy force leased : Bool} :
    (restorePlan members d healthy force leased k).Advances k := by
  simp only [restorePlan]
  split
  · exact advances_unstagePlan _
  · split_ifs
    · exact advances_unstagePlan _
    · exact advances_publishPlan _ _

theorem advances_prunePlan : (prunePlan k).Advances k := by
  have hall : stamping.Unmarked (deleteAll k) := unmarked_map (fun _ => rfl) _
  unfold prunePlan
  split
  · exact ⟨hall.marksAt.append (marksAt_bump k none), unmarked_nil⟩
  · refine ⟨(((marksAt_bump k _).append (unmarked_single rfl).marksAt).append hall.marksAt).append ?_, unmarked_nil⟩
    split_ifs
    · exact unmarked_nil.marksAt
    · intro w hw m hm
      rw [List.mem_singleton.mp hw] at hm
      exact (Option.some.inj hm).symm

/-- **A mutator writes the marker only with the next generation, and its handler not at all.** -/
theorem Mutator.advances (m : Mutator) (k : Bucket) : (m.plan k).Advances k := by
  cases m with
  | commit members d publisher expectedBase healthy fence leased => exact advances_commitPlan
  | restore members d healthy force leased => exact advances_restorePlan
  | writeFile p data d =>
    simp only [plan, writeFilePlan]
    split_ifs
    · exact advances_refuse _
    · split
      · exact advances_publishPlan _ _
      · split_ifs
        · exact advances_refuse _
        · exact advances_editPlan (unmarked_single rfl)
  | deleteFile p =>
    simp only [plan, deleteFilePlan]
    split
    · exact advances_refuse _
    · split_ifs
      · exact advances_refuse _
      · exact advances_editPlan (unmarked_single rfl)
  | deleteDir p =>
    simp only [plan, deleteDirPlan]
    split
    · exact advances_refuse _
    · split_ifs
      · exact advances_refuse _
      · exact advances_editPlan unmarked_deleteNames
  | renameFile src dst =>
    simp only [plan, renameFilePlan]
    split
    · exact advances_refuse _
    · split_ifs
      · exact advances_refuse _
      · exact advances_editPlan ((unmarked_single rfl).append (unmarked_single rfl))
  | renameDir src dst =>
    simp only [plan, renameDirPlan]
    split
    · exact advances_refuse _
    · split_ifs
      · exact advances_refuse _
      · exact advances_editPlan ((unmarked_map (fun _ => rfl) _).append unmarked_deleteNames)
  | makeDir p =>
    simp only [plan, makeDirPlan]
    split_ifs
    · exact advances_of_unmarked unmarked_nil unmarked_nil
    · split
      · exact advances_refuse _
      · exact ⟨(unmarked_single rfl).marksAt.append (marksAt_bump k _), unmarked_nil⟩
  | prune => exact advances_prunePlan

end McServerDashboard.Obj
