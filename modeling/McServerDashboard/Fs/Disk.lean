import McServerDashboard.Fs.Tree
import McServerDashboard.Lib.Writes
import McServerDashboard.Storage.Marker

/-!
# One server's storage root on disk

`current` names one directory of `snapshots/`; uploads and restores are staged in `incoming/` and
moved. A `Write` is one atomic change of the root, as the adapter performs them.

* `Disk.published`: what `current` resolves to, entry by entry.
* `Write.run`: the effect of one write, or its errno.
* `Write.run_marker`: of all writes only `mark` changes the marker.
* `Write.run_lookup_ne`: a write leaves every directory but its target as it is.
-/

namespace McServerDashboard.Fs

/-- The name drawn for a staging directory, kept through its move into `snapshots/`. -/
abbrev DirId := ℕ

/-- Where a directory stands below the server root. -/
inductive Area
  | incoming
  | snapshots
  deriving DecidableEq, Repr

/-- A staging or snapshot directory. -/
structure Dir where
  area : Area
  tree : Tree

/-- The server root: the `current` link, the directories, the marker and the final archive. -/
structure Disk where
  current : Option DirId
  dirs : AList fun _ : DirId => Dir
  marker : Marker
  final : Option Tree

namespace Disk

/-- A server that was never published. -/
def empty : Disk := ⟨none, ∅, .absent, none⟩

def generation (k : Disk) : ℕ := k.marker.generation

/-- The directory `current` resolves to. -/
def currentTree (k : Disk) : Option (DirId × Tree) :=
  match k.current with
  | none => none
  | some d =>
    match k.dirs.lookup d with
    | some ⟨.snapshots, t⟩ => some (d, t)
    | _ => none

theorem current_of_currentTree {k : Disk} {d : DirId} {t : Tree} (h : k.currentTree = some (d, t)) :
    k.current = some d ∧ k.dirs.lookup d = some ⟨.snapshots, t⟩ := by
  unfold currentTree at h
  split at h
  · cases h
  · next c hc =>
    split at h <;> cases h
    next hl => exact ⟨hc, hl⟩

/-- The published working set: the dirent at each path. -/
def published (k : Disk) : Option (Path → Option Node) :=
  k.currentTree.map fun x => x.2.lookup

/-- Replace a directory that is there. -/
def setDir (k : Disk) (d : DirId) (x : Dir) : Disk := { k with dirs := k.dirs.insert d x }

end Disk

/-- One atomic change of the server root. -/
inductive Write
  /-- Create the staging directory `incoming/<d>`. -/
  | mkdir (d : DirId)
  /-- One change inside the directory `d`. -/
  | change (d : DirId) (op : TreeOp)
  /-- `os.replace(staging, snapshots/<d>)`. -/
  | move (d : DirId)
  /-- The temp symlink renamed over `current`. -/
  | flip (d : DirId)
  /-- The marker's temp sibling renamed over it. -/
  | mark (m : Marker)
  /-- The packed archive renamed to `final.tar.gz`. -/
  | pack (t : Tree)
  /-- Unlink `current`. -/
  | unlinkCurrent
  /-- Remove the directory itself once it is empty, errors ignored. -/
  | rmdir (d : DirId)

namespace Write

/-- The effect of a write, or its errno. -/
def run : Write → Disk → Except Errno Disk
  | mkdir d, k =>
    match k.dirs.lookup d with
    | none => .ok (k.setDir d ⟨.incoming, ∅⟩)
    | some _ => .error .exist
  | change d op, k =>
    match k.dirs.lookup d with
    | none => .error .noent
    | some x =>
      match op.run x.tree with
      | .ok t => .ok (k.setDir d ⟨x.area, t⟩)
      | .error e => .error e
  | move d, k =>
    match k.dirs.lookup d with
    | some ⟨.incoming, t⟩ => .ok (k.setDir d ⟨.snapshots, t⟩)
    | _ => .error .noent
  | flip d, k => .ok { k with current := some d }
  | mark m, k => .ok { k with marker := m }
  | pack t, k => .ok { k with final := some t }
  | unlinkCurrent, k => .ok { k with current := none }
  | rmdir d, k =>
    match k.dirs.lookup d with
    | some ⟨_, t⟩ => .ok (if t.entries = [] then { k with dirs := k.dirs.erase d } else k)
    | none => .ok k

/-- Does the write replace the marker? -/
def isMark : Write → Bool
  | mark _ => true
  | _ => false

theorem run_marker {w : Write} {k k' : Disk} (h : w.run k = .ok k') (hw : w.isMark = false) :
    k'.marker = k.marker := by
  cases w with
  | mark m => cases hw
  | mkdir d | move d =>
    simp only [run] at h
    split at h <;> cases h
    rfl
  | change d op =>
    simp only [run] at h
    split at h
    · cases h
    · split at h <;> cases h
      rfl
  | flip d | pack t | unlinkCurrent =>
    cases h
    rfl
  | rmdir d =>
    simp only [run] at h
    split at h <;> cases h
    · split_ifs <;> rfl
    · rfl

/-- Only a flip and the prune's unlink change `current`. -/
theorem run_current {w : Write} {k k' : Disk} (h : w.run k = .ok k') (hf : ∀ d, w ≠ .flip d)
    (hu : w ≠ .unlinkCurrent) : k'.current = k.current := by
  cases w with
  | flip d => exact absurd rfl (hf d)
  | unlinkCurrent => exact absurd rfl hu
  | mkdir d | move d =>
    simp only [run] at h
    split at h <;> cases h
    rfl
  | change d op =>
    simp only [run] at h
    split at h
    · cases h
    · split at h <;> cases h
      rfl
  | rmdir d =>
    simp only [run] at h
    split at h <;> cases h
    · split_ifs <;> rfl
    · rfl
  | _ =>
    cases h
    rfl

/-- The directory a write acts on. -/
def target : Write → Option DirId
  | mkdir d => some d
  | change d _ => some d
  | move d => some d
  | rmdir d => some d
  | _ => none

/-- A write leaves every other directory as it is. -/
theorem run_lookup_ne {w : Write} {k k' : Disk} {d : DirId} (h : w.run k = .ok k')
    (hd : w.target ≠ some d) : k'.dirs.lookup d = k.dirs.lookup d := by
  have hne : ∀ u, w.target = some u → d ≠ u := fun u hu e => hd (e ▸ hu)
  cases w with
  | mkdir u | move u =>
    simp only [run] at h
    split at h <;> cases h
    exact AList.lookup_insert_ne (hne u rfl)
  | change u op =>
    simp only [run] at h
    split at h
    · cases h
    · split at h <;> cases h
      exact AList.lookup_insert_ne (hne u rfl)
  | rmdir u =>
    simp only [run] at h
    split at h <;> cases h
    · split_ifs
      · exact AList.lookup_erase_ne (hne u rfl)
      · rfl
    · rfl
  | _ =>
    cases h
    rfl

/-- Only `mkdir` brings a directory about. -/
theorem run_lookup_none {w : Write} {k k' : Disk} {d : DirId} (h : w.run k = .ok k')
    (hw : w ≠ .mkdir d) (hd : k.dirs.lookup d = none) : k'.dirs.lookup d = none := by
  by_cases ht : w.target = some d
  · cases w with
    | mkdir u => exact absurd (congrArg mkdir (Option.some.inj ht)) hw
    | change u op | move u =>
      cases ht
      simp only [run, hd, reduceCtorEq] at h
    | rmdir u =>
      cases ht
      simp only [run, hd] at h
      cases h
      exact hd
    | _ => cases ht
  · rw [run_lookup_ne h ht, hd]

end Write

end McServerDashboard.Fs
