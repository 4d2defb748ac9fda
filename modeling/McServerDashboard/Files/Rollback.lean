import McServerDashboard.Files.FsStore
import McServerDashboard.Fs.Versions

/-!
# Writes, deletes and rollbacks of a published working set

The mutations of single files together with the rings they capture into, run after run. The history
of a path, the newest first, is what writes, rollbacks and deletes have overwritten or deleted there.

* `writeFile`, `deleteFile`, `rollbackFile`: the mutations, with what a failure leaves behind.
* `machine`: any sequence of them, at a clock that goes on.
* **`ring_capture`**: a capture does to the rings what `capture` says of them.
* **`listed_of_reach`**: while no write meets a file whose name leaves no room for that of its temp
  sibling, what is listed are the newest of the history.
* **`rollback_rollback`**: a rollback is undone by one to the version that is then the newest.
-/

namespace McServerDashboard.Files.Rollback

open Lib Fs

/-! ## The mutations -/

/-- The server root, and `versions/` below it. -/
structure Store where
  disk : Disk
  versions : Tree

/-- What `mkstemp` draws. -/
structure Salt where
  text : String
  eight : text.utf8ByteSize = 8
  deriving DecidableEq

/-- What an operation draws: a staging directory, the salts of its temp names, and a version id. -/
structure Draw where
  dir : DirId
  salt : Salt
  copySalt : Salt
  ns : ℕ
  suffix : Suffix
  deriving DecidableEq

/-- The version id that is drawn. -/
def Draw.versionId (d : Draw) : String := newVersionId d.ns d.suffix

/-- What an operation refuses or fails with; the errno of a write is the caller's to translate. -/
inductive Failure
  | check (e : Err)
  | errno (e : Errno)
  | invalidVersionId (versionId : String)
  | versionNotFound (versionId : String)
  deriving DecidableEq

/-- The work of a mutation, and its handler when a write fails. -/
def runWork (w : Work) (k : Disk) : Disk × Except Errno Unit :=
  match attempt Write.run (w.plan k).writes k with
  | (k', .ok _) => (k', .ok ())
  | (k', .error e) => ((attempt Write.run (w.plan k).undo k').1, .error e)

/-- The version is captured first, if there is a file. -/
def capturePrior (retention : ℕ) (d : Draw) (p : Path) (s : Store) : Store × Except Errno Unit :=
  match prior s.disk p with
  | none => (s, .ok ())
  | some data =>
    match captureVersion retention p d.versionId d.copySalt.text data s.versions with
    | (t, r) => ({ s with versions := t }, r)

/-- What is left of a mutation after its checks. -/
def edited (retention : ℕ) (d : Draw) (p : Path) (w : Work) (s : Store) : Store × Except Failure Unit :=
  match capturePrior retention d p s with
  | (s, .error e) => (s, .error (.errno e))
  | (s, .ok _) =>
    match runWork w s.disk with
    | (k, r) => ({ s with disk := k }, r.mapError .errno)

/-- `_write_file`. -/
def writeFile (retention : ℕ) (d : Draw) (p : RelPath) (data : Bytes) (s : Store) : Store × Except Failure Unit :=
  match checkWriteFile p data d.dir d.salt.text s.disk with
  | .error e => (s, .error (.check e))
  | .ok w => edited retention d p.parts w s

/-- `_delete_file`. -/
def deleteFile (retention : ℕ) (d : Draw) (p : RelPath) (s : Store) : Store × Except Failure Unit :=
  match checkDeleteFile p s.disk with
  | .error e => (s, .error (.check e))
  | .ok w => edited retention d p.parts w s

/-- `list_file_versions`, the newest first. -/
def listFileVersions (t : Tree) (p : Path) : List String :=
  match t.stat p with
  | .ok .dir => (ringMembers t p).reverse
  | _ => []

/-- `read_file_version`. -/
def readFileVersion (t : Tree) (p : Path) (versionId : String) : Except Failure Bytes :=
  if !isVersionId versionId then .error (.invalidVersionId versionId)
  else match t.stat (p ++ [versionId]) with
    | .ok (.file data) => .ok data
    | _ => .error (.versionNotFound versionId)

/-- `rollback_file`. -/
def rollbackFile (retention : ℕ) (d : Draw) (p : RelPath) (versionId : String) (s : Store) : Store × Except Failure Unit :=
  match readFileVersion s.versions p.parts versionId with
  | .error e => (s, .error e)
  | .ok old => writeFile retention d p old s

/-- A mutation of one file. -/
inductive Op
  | write (p : RelPath) (data : Bytes)
  | delete (p : RelPath)
  | rollback (p : RelPath) (versionId : String)

/-- The path it mutates. -/
def Op.path : Op → Path
  | write p _ | delete p | rollback p _ => p.parts

def Op.run (retention : ℕ) (d : Draw) : Op → Store → Store × Except Failure Unit
  | write p data => writeFile retention d p data
  | delete p => deleteFile retention d p
  | rollback p versionId => rollbackFile retention d p versionId

/-! ## Their sequences -/

/-- The store, the last time read, and the history of every path. -/
structure State where
  store : Store
  clock : ℕ
  history : Path → List Bytes

/-- `mkstemp` draws until the name is free, below the published working set and below `versions/`. -/
def Draw.Free (d : Draw) (p : Path) (s : Store) : Prop :=
  (∀ x ∈ s.disk.currentTree, x.2.lookup (tempSibling p d.salt.text) = none) ∧
    s.versions.lookup (tempSibling (p ++ [d.versionId]) d.copySalt.text) = none

/-- Time goes on, and fits the width of a version id. -/
def machine (retention : ℕ) : Machine State (Op × Draw) where
  pre s a := s.clock < a.2.ns ∧ a.2.ns < 10 ^ 20 ∧ a.2.Free a.1.path s.store
  post s a :=
    match a.1.run retention a.2 s.store with
    | (store, .error _) => ⟨store, a.2.ns, s.history⟩
    | (store, .ok _) =>
      ⟨store, a.2.ns, Function.update s.history a.1.path
        ((prior s.store.disk a.1.path).toList ++ s.history a.1.path)⟩

/-- A working set is published, and no version is retained yet. -/
structure Start (s : State) : Prop where
  published : ∃ live t, s.store.disk.currentTree = some (live, t) ∧ t.Shaped
  versions : s.store.versions = ∅
  history : s.history = fun _ => []

/-- What is listed of a path, with its contents. -/
def listed (s : State) (p : Path) : List (Except Failure Bytes) :=
  (listFileVersions s.store.versions p).map (readFileVersion s.store.versions p)

/-- The name of a file leaves room for that of its temp sibling. -/
def isRoomy (p : Path) : Bool := (p.getLast?.getD "").utf8ByteSize + 14 ≤ nameMax

/-- No file with a name that is too long for its temp sibling is overwritten. -/
def Roomy (s : State) (a : Op × Draw) : Prop :=
  match a.1 with
  | .delete _ => True
  | .write p _ | .rollback p _ => (prior s.store.disk p.parts).isSome → isRoomy p.parts

/-! ## Edits of the live tree -/

variable {t t' u : Tree} {p q : Path} {k k' : Disk} {live : DirId} {data c : Bytes} {salt : String} {retention : ℕ}
  {r : Except Errno Unit}

/-- What a mutation captures is the file at its path. -/
theorem prior_eq (hk : k.currentTree = some (live, t)) (ht : t.Shaped) : prior k p = fileAt t p := by
  rw [prior, hk]
  dsimp only
  cases hfile : fileAt t p with
  | some data => rw [ht.stat_of_lookup (fileAt_eq_some.mp hfile)]
  | none =>
    split
    · next data hstat =>
      rw [fileAt_eq_some.mpr (stat_file hstat)] at hfile
      cases hfile
    · rfl

/-- The changes of an edit, and its handler when one fails. -/
def editTree (e : Edit) (t : Tree) : Tree × Except Errno Unit :=
  match attempt TreeOp.run e.ops t with
  | (u, .ok _) => (u, .ok ())
  | (u, .error err) => ((attempt TreeOp.run e.undo u).1, .error err)

/-- An edit does to the disk what it does to the live tree. -/
theorem runWork_edit {e : Edit} (hwipe : e.wipe = false) (hk : k.currentTree = some (e.live, t)) :
    ∃ k', runWork (.edit e) k = (k', (editTree e t).2) ∧ k'.currentTree = some (e.live, (editTree e t).1) := by
  obtain ⟨k1, h1, hk1⟩ := @attempt_changes t e.live e.ops k hk
  have hplan : (Work.plan k (.edit e)).writes = e.ops.map (.change e.live) ++ [.mark (k.marker.bump (some apiEditPublisher))] := by
    simp only [Work.plan, editWrites, hwipe, Bool.false_eq_true, if_false, List.append_nil]
  rw [runWork, hplan, attempt_append, h1]
  unfold editTree
  cases hops : attempt TreeOp.run e.ops t with
  | mk u r =>
    rw [hops] at hk1
    cases r with
    | ok _ =>
      refine ⟨{ k1 with marker := k.marker.bump (some apiEditPublisher) }, rfl, ?_⟩
      exact hk1
    | error err =>
      obtain ⟨k2, h2, hk2⟩ := @attempt_changes u e.live e.undo k1 hk1
      refine ⟨k2, ?_, hk2⟩
      change ((attempt Write.run (e.undo.map (.change e.live)) k1).1, _) = _
      rw [h2]

/-- The edit of a write. -/
def writeEdit (live : DirId) (p : Path) (data : Bytes) (salt : String) : Edit :=
  { live := live, ops := mkdirParents p.dropLast ++ atomicWrite p data salt, undo := [.discard (tempSibling p salt)] }

/-- **A write changes its file if it succeeds, and no file if it fails.** -/
theorem editTree_write (ht : t.Shaped) (hp : p ≠ []) (hfree : t.lookup (tempSibling p salt) = none)
    (hr : editTree (writeEdit live p data salt) t = (u, r)) : u.Shaped ∧
      ∀ q, q ≠ tempSibling p salt → fileAt u q = if r.isOk ∧ q = p then some data else fileAt t q := by
  obtain ⟨hshaped, hfiles⟩ := fileAt_mkdirParents (p := p.dropLast) ht
  simp only [editTree, writeEdit, attempt_append] at hr
  cases hmk : attempt TreeOp.run (mkdirParents p.dropLast) t with
  | mk t1 r1 =>
    simp only [hmk] at hr hshaped hfiles
    have hfree1 : t1.lookup (tempSibling p salt) = none := by
      rw [← List.dropLast_append_getLast hp] at hfree ⊢
      exact mkdirParents_temp hfree hmk
    have hfailed : ∀ {v : Tree} {err : Errno}, Begun t1 p salt v →
        ((attempt TreeOp.run [.discard (tempSibling p salt)] v).1, Except.error err) = (u, r) → u.Shaped ∧
          ∀ q, q ≠ tempSibling p salt → fileAt u q = if r.isOk ∧ q = p then some data else fileAt t q := by
      rintro v err hv ⟨⟩
      refine ⟨hv.discard.shaped, fun q hq => ?_⟩
      rw [if_neg (fun h => Bool.noConfusion h.1), hv.discard.files q hq]
      exact hfiles q
    cases r1 with
    | error err => exact hfailed ⟨hshaped, by rw [hfree1]; nofun, fun _ _ => rfl⟩ hr
    | ok _ =>
      cases hw : attempt TreeOp.run (atomicWrite p data salt) t1 with
      | mk t2 r2 =>
        simp only [hw] at hr
        cases r2 with
        | error err =>
          obtain ⟨herr, rfl⟩ := attempt_error TreeOp.run hw
          exact hfailed (begun_of_error hshaped hfree1 herr) hr
        | ok _ =>
          obtain ⟨hshaped2, -, hlook⟩ := atomicWrite_spec hshaped hp (attempt_ok TreeOp.run hw)
          cases hr
          refine ⟨hshaped2, fun q _ => ?_⟩
          rw [fileAt_congr (hlook q)]
          rcases eq_or_ne q p with rfl | hne
          · rw [if_pos ⟨rfl, rfl⟩, fileAt, AList.lookup_insert]
          · rw [if_neg fun h => hne h.2, fileAt_congr (AList.lookup_insert_ne hne)]
            exact hfiles q

/-- A write over a file succeeds, if there is room for the name of its temp sibling. -/
theorem editTree_write_ok {s : Salt} (ht : t.Shaped) (hc : fileAt t p = some c) (hroom : isRoomy p)
    (hfree : t.lookup (tempSibling p s.text) = none) : (editTree (writeEdit live p data s.text) t).2 = .ok () := by
  have hlook := fileAt_eq_some.mp hc
  have hp := ht.ne_root hlook
  have hstat := ht.stat_of_lookup hlook
  have hshort : p.dropLast ≠ p := by
    intro he
    have hlen := congrArg List.length he
    rw [List.length_dropLast] at hlen
    have := List.length_pos_iff.mpr hp
    omega
  have hparent := stat_above hstat (List.dropLast_prefix p) hshort
  have htemp : ∀ part ∈ (tempSibling p s.text).getLast?, isOverlong part = false := by
    intro part hpart
    rw [tempSibling, List.getLast?_concat, Option.mem_some] at hpart
    rw [← hpart, isOverlong, decide_eq_false_iff_not, not_lt]
    simp only [isRoomy, decide_eq_true_eq] at hroom
    have h1 : ".".utf8ByteSize = 1 := rfl
    have h2 : ".tmp".utf8ByteSize = 4 := rfl
    simp only [String.utf8ByteSize_append, s.eight]
    omega
  have hold : t.lookup p ≠ some .dir := by
    rw [hlook]
    exact fun h => by cases h
  obtain ⟨t', ht'⟩ : ∃ t', perform TreeOp.run (atomicWrite p data s.text) t = .ok t' :=
    atomicWrite_ok hp hparent (fun part hpart => names_of_stat hstat part (List.mem_of_mem_getLast? hpart)) htemp hfree hold
  rw [editTree, writeEdit]
  dsimp only
  rw [attempt_append, attempt_of_ok TreeOp.run (mkdirParents_here hparent)]
  dsimp only
  rw [attempt_of_ok TreeOp.run ht']

/-- A delete changes its file if it succeeds, and no file if it fails. -/
theorem editTree_delete (ht : t.Shaped) (hold : t.lookup p ≠ some .dir)
    (hr : editTree { live := live, ops := [.remove p] } t = (u, r)) : u.Shaped ∧
      ∀ q, fileAt u q = if r.isOk ∧ q = p then none else fileAt t q := by
  rw [editTree] at hr
  cases hrm : TreeOp.run (.remove p) t with
  | error err =>
    simp only [attempt_cons_error TreeOp.run hrm] at hr
    cases hr
    exact ⟨ht, fun q => (if_neg (fun h => Bool.noConfusion h.1)).symm⟩
  | ok t' =>
    simp only [attempt_cons_ok TreeOp.run hrm] at hr
    obtain rfl : t' = t.erase p := runRemove_eq_ok hrm
    cases hr
    refine ⟨ht.erase hold, fun q => ?_⟩
    rcases eq_or_ne q p with rfl | hne
    · rw [if_pos ⟨rfl, rfl⟩, fileAt, AList.lookup_erase]
    · rw [if_neg fun h => hne h.2, fileAt_congr (AList.lookup_erase_ne hne)]

/-- The delete of a file succeeds. -/
theorem editTree_delete_ok (ht : t.Shaped) (hc : fileAt t p = some c) :
    (editTree { live := live, ops := [.remove p] } t).2 = .ok () := by
  rw [editTree, attempt_cons_ok TreeOp.run (run_remove_file ht hc)]
  rfl

/-! ## What a mutation changes -/

/-- The work of a mutation of a path: it changes that file to `new` if it succeeds, it changes none if it fails,
and over a file it succeeds. -/
structure Edits (k : Disk) (p temp : Path) (new : Option Bytes) (w : Work) : Prop where
  shaped : ∃ live t, (runWork w k).1.currentTree = some (live, t) ∧ t.Shaped
  files : ∀ q, q ≠ temp → prior (runWork w k).1 q = if (runWork w k).2.isOk ∧ q = p then new else prior k q
  lands : (prior k p).isSome → (runWork w k).2 = .ok ()

variable {d : Draw} {rel : RelPath} {w : Work} {temp : Path} {new : Option Bytes}

theorem edits_write (hk : k.currentTree = some (live, t)) (ht : t.Shaped) (hw : checkWriteFile rel data d.dir d.salt.text k = .ok w)
    (hfree : t.lookup (tempSibling rel.parts d.salt.text) = none)
    (hroom : (prior k rel.parts).isSome → isRoomy rel.parts) :
    Edits k rel.parts (tempSibling rel.parts d.salt.text) (some data) w := by
  have hcur : k.current ≠ none := by
    rw [(Disk.current_of_currentTree hk).1]
    nofun
  obtain ⟨hp, live', t1, ht1, rfl⟩ := checkWriteFile_eq_ok hcur hw
  cases hk.symm.trans ht1
  change Edits k _ _ _ (.edit (writeEdit live rel.parts data d.salt.text))
  obtain ⟨k', hrun, hk'⟩ := runWork_edit (e := writeEdit live rel.parts data d.salt.text) rfl hk
  obtain ⟨hshaped, hfiles⟩ := editTree_write ht hp hfree rfl
  refine ⟨⟨live, _, by rw [hrun]; exact hk', hshaped⟩, fun q hq => ?_, fun hsome => ?_⟩
  · rw [hrun, prior_eq hk' hshaped, prior_eq hk ht]
    exact hfiles q hq
  · obtain ⟨c, hc⟩ := Option.isSome_iff_exists.mp hsome
    rw [hrun]
    exact editTree_write_ok ht ((prior_eq hk ht).symm.trans hc) (hroom hsome) hfree

theorem edits_delete (hk : k.currentTree = some (live, t)) (ht : t.Shaped) (hw : checkDeleteFile rel k = .ok w) :
    Edits k rel.parts temp none w := by
  obtain ⟨⟨live', t1⟩, hc, hw⟩ := ok_of_bind hw
  cases hk.symm.trans (currentDir_ok hc)
  obtain ⟨-, -, hw⟩ := ok_of_bind hw
  split_ifs at hw with hleaf
  cases hw
  have hold : t.lookup rel.parts ≠ some .dir := by
    intro hdir
    simp only [isLink, existingFile, ht.stat_of_lookup hdir] at hleaf
    cases hleaf
  obtain ⟨k', hrun, hk'⟩ := runWork_edit (e := { live := live, ops := [.remove rel.parts] }) rfl hk
  obtain ⟨hshaped, hfiles⟩ := editTree_delete ht hold rfl
  refine ⟨⟨live, _, by rw [hrun]; exact hk', hshaped⟩, fun q _ => ?_, fun hsome => ?_⟩
  · rw [hrun, prior_eq hk' hshaped, prior_eq hk ht]
    exact hfiles q
  · obtain ⟨c, hc⟩ := Option.isSome_iff_exists.mp hsome
    rw [hrun]
    exact editTree_delete_ok ht ((prior_eq hk ht).symm.trans hc)

/-! ## Captures -/

variable {s s' : Store}

/-- A capture is into the ring of its path. -/
theorem capture_ne {s : Files.Store} {id : String} (hne : q ≠ p) : capture retention id p s q = s.versions q := by
  unfold capture
  cases prior s.disk p with
  | none => rfl
  | some data => exact Function.update_of_ne hne ..

theorem Draw.member (d : Draw) : isVersionRingMember d.versionId = true := isVersionRingMember_newVersionId _ _

/-- **A capture does to the rings what `capture` says of them**, if it succeeds, and nothing if it fails. -/
theorem ring_capture (hv : s.versions.Shaped) (hlater : ∀ n ∈ ringMembers s.versions p, n < d.versionId)
    (hfree : s.versions.lookup (tempSibling (p ++ [d.versionId]) d.copySalt.text) = none)
    (hr : capturePrior retention d p s = (s', r)) : s'.disk = s.disk ∧ s'.versions.Shaped ∧
      ring s'.versions =
        if r.isOk then capture retention d.versionId p ⟨s.disk, ring s.versions⟩ else ring s.versions := by
  unfold capturePrior at hr
  unfold capture
  cases hprior : prior s.disk p with
  | none =>
    simp only [hprior] at hr
    cases hr
    exact ⟨rfl, hv, by simp [Except.isOk, Except.toBool]⟩
  | some data =>
    simp only [hprior] at hr
    cases hcap : captureVersion retention p d.versionId d.copySalt.text data s.versions with
    | mk t r1 =>
      simp only [hcap] at hr
      cases hr
      obtain ⟨hshaped, hothers, hhere⟩ := ring_captureVersion hv d.member hlater hfree hcap
      refine ⟨rfl, hshaped, ?_⟩
      funext q
      rcases eq_or_ne q p with rfl | hne
      · rw [hhere]
        split_ifs
        · dsimp only
          rw [Function.update_self]
        · rfl
      · rw [hothers q hne]
        split_ifs
        · exact (Function.update_of_ne hne ..).symm
        · rfl

/-- **What a mutation leaves**: a version of the file that it changes, or nothing changed. -/
theorem edited_spec {x : Except Failure Unit} (hE : Edits s.disk p temp new w)
    (hk : ∃ live t, s.disk.currentTree = some (live, t) ∧ t.Shaped) (hv : s.versions.Shaped)
    (hlater : ∀ n ∈ ringMembers s.versions p, n < d.versionId)
    (hfree : s.versions.lookup (tempSibling (p ++ [d.versionId]) d.copySalt.text) = none)
    (hx : edited retention d p w s = (s', x)) :
    (∃ live t, s'.disk.currentTree = some (live, t) ∧ t.Shaped) ∧ s'.versions.Shaped ∧
      (ring s'.versions =
        if x.isOk then capture retention d.versionId p ⟨s.disk, ring s.versions⟩ else ring s.versions) ∧
      ∀ q, q ≠ temp → prior s'.disk q = if x.isOk ∧ q = p then new else prior s.disk q := by
  unfold edited at hx
  cases hcap : capturePrior retention d p s with
  | mk s1 r1 =>
    obtain ⟨hdisk, hshaped, hring⟩ := ring_capture hv hlater hfree hcap
    simp only [hcap] at hx
    cases r1 with
    | error err =>
      cases hx
      refine ⟨hdisk ▸ hk, hshaped, hring, fun q _ => ?_⟩
      rw [hdisk, if_neg fun h => Bool.noConfusion h.1]
    | ok _ =>
      obtain ⟨hkept, hfiles, hlands⟩ := hE
      cases hrun : runWork w s1.disk with
      | mk k1 r2 =>
        simp only [hrun] at hx
        rw [hdisk] at hrun
        rw [hrun] at hkept hfiles hlands
        cases hx
        refine ⟨hkept, hshaped, ?_, fun q hq => ?_⟩
        · rw [hring]
          cases r2 with
          | ok _ => rfl
          | error err =>
            -- only a mutation of no file can still fail, and it captured nothing
            have hnone : prior s.disk p = none := by
              cases hprior : prior s.disk p with
              | none => rfl
              | some c =>
                rw [hprior] at hlands
                cases hlands rfl
            simp only [capture, hnone, ite_self]
        · rw [hfiles q hq]
          cases r2 <;> rfl

/-! ## Runs -/

/-- What holds along a run: the rings are the newest of the history, the oldest first, under the ids of
times that have passed. -/
structure Exact (retention : ℕ) (s : State) : Prop where
  published : ∃ live t, s.store.disk.currentTree = some (live, t) ∧ t.Shaped
  shaped : s.store.versions.Shaped
  rings : ∀ p, (ring s.store.versions p).map Prod.snd = ((s.history p).take retention).reverse
  ids : ∀ p, ∀ x ∈ ring s.store.versions p, ∃ ns ≤ s.clock, ∃ suffix, x.1 = newVersionId ns suffix

theorem ring_empty (p : Path) : ring ∅ p = [] := by
  refine ring_eq List.Pairwise.nil fun n d => ⟨nofun, fun h => ?_⟩
  rw [fileAt, AList.lookup_empty] at h
  cases h.2

theorem Start.exact {s : State} (h : Start s) : Exact retention s where
  published := h.published
  shaped := h.versions ▸ Tree.Shaped.empty
  rings := fun p => by rw [h.versions, ring_empty, h.history]; simp
  ids := fun p x hx => by
    rw [h.versions, ring_empty] at hx
    cases hx

/-- A capture adds what it captures to the history. -/
theorem map_capture {versions : Path → List (String × Bytes)} {history : Path → List Bytes} {id : String}
    (h : ∀ p, (versions p).map Prod.snd = ((history p).take retention).reverse) (q : Path) :
    (capture retention id p ⟨k, versions⟩ q).map Prod.snd =
      ((Function.update history p ((prior k p).toList ++ history p) q).take retention).reverse := by
  unfold capture
  cases hprior : prior k p with
  | none =>
    rw [Option.toList_none, List.nil_append, Function.update_eq_self]
    exact h q
  | some c =>
    dsimp only
    rcases eq_or_ne q p with rfl | hne
    · rw [Function.update_self, Function.update_self, List.rtake_eq_reverse_take_reverse, List.map_reverse, List.map_take,
        List.map_reverse, List.map_append, h q, List.reverse_append, List.reverse_reverse]
      cases retention with
      | zero => rfl
      | succ n => simp [List.take_take]
    · rw [Function.update_of_ne hne, Function.update_of_ne hne]
      exact h q

theorem mem_capture {s : Files.Store} {id : String} {x : String × Bytes} (hx : x ∈ capture retention id p s q) :
    x ∈ s.versions q ∨ x.1 = id := by
  rcases eq_or_ne q p with rfl | hne
  · unfold capture at hx
    cases hprior : prior s.disk q with
    | none =>
      simp only [hprior] at hx
      exact .inl hx
    | some data =>
      simp only [hprior, Function.update_self, List.rtake] at hx
      rcases List.mem_append.mp (List.mem_of_mem_drop hx) with hx | hx
      · exact .inl hx
      · exact .inr (congrArg Prod.fst (List.mem_singleton.mp hx))
  · rw [capture_ne hne] at hx
    exact .inl hx

/-- An operation ends at its checks, or edits its path. -/
theorem run_cases {s : State} {op : Op} (h : Exact retention s) (hfree : d.Free op.path s.store) (hroom : Roomy s (op, d)) :
    (∃ e, op.run retention d s.store = (s.store, .error e)) ∨ ∃ w temp new,
      op.run retention d s.store = edited retention d op.path w s.store ∧ Edits s.store.disk op.path temp new w := by
  obtain ⟨live, t, hk, ht⟩ := h.published
  have hwrite : ∀ (p : RelPath) (data : Bytes), op.path = p.parts →
      ((prior s.store.disk p.parts).isSome → isRoomy p.parts) →
      (∃ e, writeFile retention d p data s.store = (s.store, .error e)) ∨ ∃ w temp new,
        writeFile retention d p data s.store = edited retention d p.parts w s.store ∧ Edits s.store.disk p.parts temp new w := by
    intro p data hp hroom
    unfold writeFile
    cases hw : checkWriteFile p data d.dir d.salt.text s.store.disk with
    | error e => exact .inl ⟨_, rfl⟩
    | ok w => exact .inr ⟨w, _, _, rfl, edits_write hk ht hw (hp ▸ hfree.1 _ hk) hroom⟩
  cases op with
  | write p data => exact hwrite p data rfl hroom
  | delete p =>
    simp only [Op.run, deleteFile]
    cases hw : checkDeleteFile p s.store.disk with
    | error e => exact .inl ⟨_, rfl⟩
    | ok w => exact .inr ⟨w, [], _, rfl, edits_delete hk ht hw⟩
  | rollback p versionId =>
    simp only [Op.run, rollbackFile]
    cases readFileVersion s.store.versions p.parts versionId with
    | error e => exact .inl ⟨e, rfl⟩
    | ok old => exact hwrite p old rfl hroom

/-- The ids of a ring sort before one that is drawn later. -/
theorem Exact.later {s : State} (h : Exact retention s) (hns : s.clock < d.ns) (hfits : d.ns < 10 ^ 20) :
    ∀ n ∈ ringMembers s.store.versions p, n < d.versionId := by
  intro n hn
  rw [← map_fst_ring] at hn
  obtain ⟨x, hx, rfl⟩ := List.mem_map.mp hn
  obtain ⟨ns, hle, suffix, hid⟩ := h.ids p x hx
  rw [hid]
  exact newVersionId_lt hfits (hle.trans_lt hns) suffix d.suffix

/-- **A step that meets the condition keeps the rings exact.** -/
theorem Exact.step {s : State} {a : Op × Draw} (h : Exact retention s) (hpre : (machine retention).pre s a) (hroom : Roomy s a) :
    Exact retention ((machine retention).post s a) := by
  obtain ⟨op, d⟩ := a
  obtain ⟨hns, hfits, hfree⟩ := hpre
  have hids : ∀ p, ∀ x ∈ ring s.store.versions p, ∃ ns ≤ d.ns, ∃ suffix, x.1 = newVersionId ns suffix := by
    intro p x hx
    obtain ⟨ns, hle, hid⟩ := h.ids p x hx
    exact ⟨ns, hle.trans hns.le, hid⟩
  simp only [machine]
  rcases run_cases h hfree hroom with ⟨e, hrun⟩ | ⟨w, temp, new, hrun, hE⟩
  · rw [hrun]
    exact ⟨h.published, h.shaped, h.rings, hids⟩
  · cases hx : edited retention d op.path w s.store with
    | mk s' x =>
      obtain ⟨hpublished, hshaped, hring, -⟩ := edited_spec hE h.published h.shaped (h.later hns hfits) hfree.2 hx
      rw [hrun, hx]
      cases x with
      | error e =>
        change ring s'.versions = ring s.store.versions at hring
        exact ⟨hpublished, hshaped, hring ▸ h.rings, hring ▸ hids⟩
      | ok _ =>
        change ring s'.versions = capture retention d.versionId op.path ⟨s.store.disk, ring s.store.versions⟩ at hring
        refine ⟨hpublished, hshaped, fun p => ?_, fun p x hx => ?_⟩
        · exact (congrArg _ (congrFun hring p)).trans (map_capture h.rings p)
        · change x ∈ ring s'.versions p at hx
          rw [hring] at hx
          rcases mem_capture hx with hx | hid
          · exact hids p x hx
          · exact ⟨d.ns, le_rfl, d.suffix, hid⟩

/-! ## What is listed -/

/-- A minted id is a `VersionId`. -/
theorem isVersionId_newVersionId (ns : ℕ) (suffix : Suffix) : isVersionId (newVersionId ns suffix) = true := by
  have hdigit : ∀ n : ℕ, (Nat.digitChar (n % 10)).isAlphanum = true := by
    have hall : ∀ d < 10, (Nat.digitChar d).isAlphanum = true := by decide
    exact fun n => hall _ (Nat.mod_lt n (by decide))
  have hdecimals : ∀ width n, (decimals width n).all Char.isAlphanum = true := by
    intro width
    induction width with
    | zero => exact fun _ => rfl
    | succ width ih =>
      intro n
      rw [decimals, List.all_append, ih, List.all_cons, hdigit]
      rfl
  have hhex : ∀ c : Char, isHexDigit c = true → c.isAlphanum = true := by
    intro c hc
    simp only [isHexDigit, Bool.or_eq_true, Bool.and_eq_true, decide_eq_true_eq, Char.le_def] at hc
    simp only [Char.isAlphanum, Char.isDigit, Bool.or_eq_true, Bool.and_eq_true, decide_eq_true_eq]
    rcases hc with hc | hc
    · exact .inr hc
    · have hz : 'f'.val ≤ 'z'.val := by decide
      have hlower : c.isLower = true :=
        Bool.and_eq_true_iff.mpr ⟨decide_eq_true hc.1, decide_eq_true (UInt32.le_trans hc.2 hz)⟩
      exact .inl (Bool.or_eq_true_iff.mpr (.inr hlower))
  have hne : newVersionId ns suffix ≠ "" := by
    intro he
    have := congrArg String.toList he
    simp [newVersionId] at this
  simp only [isVersionId, Bool.and_eq_true, decide_eq_true_eq, List.all_eq_true, Bool.or_eq_true]
  refine ⟨hne, fun c hc => ?_⟩
  rw [newVersionId, String.toList_ofList, List.mem_append, List.mem_cons] at hc
  rcases hc with hc | rfl | hc
  · exact .inl (.inl (List.all_eq_true.mp (hdecimals 20 ns) c hc))
  · exact .inr rfl
  · exact .inl (.inl (hhex c (List.all_eq_true.mp suffix.hex c hc)))

/-- A ring is listed backwards. -/
theorem listFileVersions_eq (h : t.Shaped) (p : Path) : listFileVersions t p = ((ring t p).map Prod.fst).reverse := by
  rw [map_fst_ring, listFileVersions]
  split
  · rfl
  · next hdir =>
    cases hnames : ringMembers t p with
    | nil => rfl
    | cons n ns =>
      obtain ⟨-, data, hfile⟩ := mem_ringMembers.mp (hnames ▸ List.mem_cons_self : n ∈ ringMembers t p)
      have hstat := h.stat_of_lookup (fileAt_eq_some.mp hfile)
      exact absurd (stat_above hstat (List.prefix_append p [n]) (by simp)) hdir

/-- What is listed is read. -/
theorem Exact.read {s : State} (h : Exact retention s) {x : String × Bytes} (hx : x ∈ ring s.store.versions p) :
    readFileVersion s.store.versions p x.1 = .ok x.2 := by
  obtain ⟨ns, -, suffix, hid⟩ := h.ids p x hx
  have hstat := h.shaped.stat_of_lookup (fileAt_eq_some.mp (mem_ring.mp hx).2)
  rw [readFileVersion, hstat, hid, isVersionId_newVersionId]
  rfl

theorem Exact.listed {s : State} (h : Exact retention s) (p : Path) :
    listed s p = ((s.history p).take retention).map .ok := by
  rw [Rollback.listed, listFileVersions_eq h.shaped, List.map_reverse, List.map_map]
  have hread : ∀ x ∈ ring s.store.versions p,
      (readFileVersion s.store.versions p ∘ Prod.fst) x = (Except.ok ∘ Prod.snd) x := fun x hx => h.read hx
  rw [List.map_congr_left hread, ← List.map_map, h.rings p, List.map_reverse, List.reverse_reverse]

/-! ## Rollbacks -/

/-- A write over a file passes the checks. -/
theorem checkWriteFile_file (hk : k.currentTree = some (live, t)) (ht : t.Shaped) (hc : fileAt t rel.parts = some c) :
    ∃ w, checkWriteFile rel data d.dir d.salt.text k = .ok w := by
  have hlook := fileAt_eq_some.mp hc
  have hstat := ht.stat_of_lookup hlook
  have hp := ht.ne_root hlook
  have hcur : k.current ≠ none := by
    rw [(Disk.current_of_currentTree hk).1]
    nofun
  have hparent : linkParent t rel.parts = none := by
    rw [linkParent, List.findSome?_eq_none_iff]
    intro q hq
    have hpre := (List.mem_inits _ _).mp (List.mem_of_mem_tail hq)
    cases hq0 : t.lookup q with
    | none => rfl
    | some n =>
      have hshort : q ≠ rel.parts := by
        rintro rfl
        have hlen := hpre.length_le
        rw [List.length_dropLast] at hlen
        have := List.length_pos_iff.mpr hp
        omega
      rw [dir_of_stat hstat (hpre.trans (List.dropLast_prefix _)) (ht.ne_root hq0) hshort] at hq0
      cases hq0
      rfl
  have hsafe : safeTarget t rel = .ok () := by simp [safeTarget, hparent, hlook]
  refine ⟨.edit (writeEdit live rel.parts data d.salt.text), ?_⟩
  rw [checkWriteFile, if_neg hp, if_neg hcur, currentDir, hk]
  change Except.bind (safeTarget t rel) _ = _
  rw [hsafe]
  simp only [Except.bind, isLink, hstat]
  rfl

section

variable {s : State} {v : String}

/-- A rollback to a version that is listed is a write over the file, if there is one. -/
theorem rollbackFile_eq (h : Exact retention s) (hc : prior s.store.disk rel.parts = some c) (hroom : isRoomy rel.parts)
    (hv : (v, data) ∈ ring s.store.versions rel.parts) (hfree : d.Free rel.parts s.store) : ∃ w,
    rollbackFile retention d rel v s.store = edited retention d rel.parts w s.store ∧
      Edits s.store.disk rel.parts (tempSibling rel.parts d.salt.text) (some data) w := by
  obtain ⟨live, t, hk, ht⟩ := h.published
  obtain ⟨w, hw⟩ : ∃ w, checkWriteFile rel data d.dir d.salt.text s.store.disk = .ok w :=
    checkWriteFile_file hk ht ((prior_eq hk ht).symm.trans hc)
  refine ⟨w, ?_, edits_write hk ht hw (hfree.1 _ hk) fun _ => hroom⟩
  simp only [rollbackFile, h.read hv, writeFile, hw]

/-- **What a rollback leaves**: the content of the version, and a version of what it was. -/
theorem rollbackFile_spec {s' : Store} (h : Exact retention s) (hc : prior s.store.disk rel.parts = some c)
    (hroom : isRoomy rel.parts) (hv : (v, data) ∈ ring s.store.versions rel.parts) (hns : s.clock < d.ns)
    (hfits : d.ns < 10 ^ 20) (hfree : d.Free rel.parts s.store) (hrun : rollbackFile retention d rel v s.store = (s', .ok ())) :
    prior s'.disk rel.parts = some data ∧
      ring s'.versions rel.parts = (ring s.store.versions rel.parts ++ [(d.versionId, c)]).rtake retention := by
  obtain ⟨w, heq, hE⟩ := rollbackFile_eq h hc hroom hv hfree
  obtain ⟨-, -, hring, hfiles⟩ := edited_spec hE h.published h.shaped (h.later hns hfits) hfree.2 (heq.symm.trans hrun)
  constructor
  · rw [hfiles rel.parts tempSibling_ne.symm, if_pos ⟨rfl, rfl⟩]
  · change ring s'.versions = capture retention d.versionId rel.parts ⟨s.store.disk, ring s.store.versions⟩ at hring
    rw [hring]
    simp only [capture, hc, Function.update_self]

/-- **A rollback to a version that is listed succeeds**, unless the ring holds another ring under the id that is drawn. -/
theorem rollbackFile_ok (h : Exact retention s) (hc : prior s.store.disk rel.parts = some c) (hroom : isRoomy rel.parts)
    (hv : v ∈ listFileVersions s.store.versions rel.parts) (hfree : d.Free rel.parts s.store)
    (hid : s.store.versions.lookup (rel.parts ++ [d.versionId]) ≠ some .dir) :
    (rollbackFile retention d rel v s.store).2 = .ok () := by
  rw [listFileVersions_eq h.shaped, List.mem_reverse, List.mem_map] at hv
  obtain ⟨⟨v, old⟩, hv, rfl⟩ := hv
  obtain ⟨w, heq, hE⟩ := rollbackFile_eq h hc hroom hv hfree
  have hstat := h.shaped.stat_of_lookup (fileAt_eq_some.mp (mem_ring.mp hv).2)
  have hcap : (captureVersion retention rel.parts d.versionId d.copySalt.text c s.store.versions).2 = .ok () :=
    captureVersion_ok h.shaped (stat_above hstat (List.prefix_append rel.parts [v]) (by simp)) d.member hid
      d.copySalt.eight hfree.2
  rw [heq]
  simp only [edited, capturePrior, hc, hcap, hE.lands (hc ▸ rfl)]
  rfl

/-- **A rollback is undone by one to the version that is then the newest.** -/
theorem rollback_rollback (h : Exact retention s) (hN : 0 < retention) (hc : prior s.store.disk rel.parts = some c)
    (hroom : isRoomy rel.parts) (hv : v ∈ listFileVersions s.store.versions rel.parts)
    (hpre : (machine retention).pre s (.rollback rel v, d)) (hok : (rollbackFile retention d rel v s.store).2 = .ok ()) :
    let s1 := (machine retention).post s (.rollback rel v, d)
    ∃ newest, (listFileVersions s1.store.versions rel.parts).head? = some newest ∧
      ∀ d', (machine retention).pre s1 (.rollback rel newest, d') →
        (rollbackFile retention d' rel newest s1.store).2 = .ok () →
        prior ((machine retention).post s1 (.rollback rel newest, d')).store.disk rel.parts = some c := by
  have hstep := h.step hpre fun _ => hroom
  obtain ⟨hns, hfits, hfree⟩ := hpre
  rw [listFileVersions_eq h.shaped, List.mem_reverse, List.mem_map] at hv
  obtain ⟨⟨v, old⟩, hv, rfl⟩ := hv
  obtain ⟨s', hrun⟩ : ∃ s', rollbackFile retention d rel v s.store = (s', .ok ()) := ⟨_, Prod.ext rfl hok⟩
  obtain ⟨hprior, hring⟩ := rollbackFile_spec h hc hroom hv hns hfits hfree hrun
  have hpost : (machine retention).post s (.rollback rel v, d) =
      ⟨s', d.ns, Function.update s.history rel.parts ((prior s.store.disk rel.parts).toList ++ s.history rel.parts)⟩ := by
    simp only [machine, Op.run, hrun, Op.path]
  rw [hpost] at hstep ⊢
  have hlast : (ring s'.versions rel.parts).getLast? = some (d.versionId, c) := by
    rw [hring, List.rtake_eq_reverse_take_reverse, List.getLast?_reverse, List.reverse_concat, List.head?_take,
      if_neg hN.ne', List.head?_cons]
  refine ⟨d.versionId, ?_, fun d' hpre' hok' => ?_⟩
  · rw [listFileVersions_eq hstep.shaped, List.head?_reverse, List.getLast?_map, hlast, Option.map_some]
  · have hnewest : (d.versionId, c) ∈ ring s'.versions rel.parts := List.mem_of_getLast? hlast
    obtain ⟨hns', hfits', hfree'⟩ := hpre'
    dsimp only at hok'
    cases hrun' : rollbackFile retention d' rel d.versionId s' with
    | mk s2 r =>
      rw [hrun'] at hok'
      obtain rfl : r = .ok () := hok'
      have hprior' := (rollbackFile_spec hstep hprior hroom hnewest hns' hfits' hfree' hrun').1
      simp only [machine, Op.run, hrun']
      exact hprior'

end

/-- Another path keeps its ring. -/
theorem Exact.other {s : State} {a : Op × Draw} (h : Exact retention s) (hpre : (machine retention).pre s a) (hroom : Roomy s a)
    (hq : q ≠ a.1.path) : listFileVersions ((machine retention).post s a).store.versions q = listFileVersions s.store.versions q ∧
      Rollback.listed ((machine retention).post s a) q = Rollback.listed s q := by
  have hstep := h.step hpre hroom
  obtain ⟨op, d⟩ := a
  obtain ⟨hns, hfits, hfree⟩ := hpre
  have hhistory : ((machine retention).post s (op, d)).history q = s.history q := by
    simp only [machine]
    split
    · rfl
    · exact Function.update_of_ne hq ..
  rw [hstep.listed, h.listed, hhistory, listFileVersions_eq hstep.shaped, listFileVersions_eq h.shaped]
  suffices hring : ring ((machine retention).post s (op, d)).store.versions q = ring s.store.versions q from ⟨by rw [hring], rfl⟩
  simp only [machine]
  rcases run_cases h hfree hroom with ⟨e, hrun⟩ | ⟨w, temp, new, hrun, hE⟩
  · rw [hrun]
  · cases hx : edited retention d op.path w s.store with
    | mk s' x =>
      obtain ⟨-, -, hring, -⟩ := edited_spec hE h.published h.shaped (h.later hns hfits) hfree.2 hx
      have hkept : ring s'.versions q = ring s.store.versions q := by
        rw [hring]
        split_ifs
        · exact capture_ne hq
        · rfl
      rw [hrun, hx]
      cases x <;> exact hkept

/-- **While no write meets a file whose name leaves no room for that of its temp sibling**, what is listed of a path are
the newest contents of its history, no other path matters to it, and a rollback is undone by a rollback. -/
theorem listed_of_reach {s0 s : State} (hN : 0 < retention) (h0 : Start s0) (h : (machine retention).Reach Roomy s0 s) :
    (∀ p, listed s p = ((s.history p).take retention).map .ok) ∧
    (∀ a, (machine retention).pre s a → Roomy s a → ∀ q, q ≠ a.1.path →
      listFileVersions ((machine retention).post s a).store.versions q = listFileVersions s.store.versions q ∧
        listed ((machine retention).post s a) q = listed s q) ∧
    ∀ rel v c d, prior s.store.disk rel.parts = some c → isRoomy rel.parts →
      v ∈ listFileVersions s.store.versions rel.parts → (machine retention).pre s (.rollback rel v, d) →
      (s.store.versions.lookup (rel.parts ++ [d.versionId]) ≠ some .dir →
        (rollbackFile retention d rel v s.store).2 = .ok ()) ∧
      ((rollbackFile retention d rel v s.store).2 = .ok () →
        let s1 := (machine retention).post s (.rollback rel v, d)
        ∃ newest, (listFileVersions s1.store.versions rel.parts).head? = some newest ∧
          ∀ d', (machine retention).pre s1 (.rollback rel newest, d') →
            (rollbackFile retention d' rel newest s1.store).2 = .ok () →
            prior ((machine retention).post s1 (.rollback rel newest, d')).store.disk rel.parts = some c) := by
  have hs : Exact retention s := h.invariant h0.exact fun u a hu hpre hroom => hu.step hpre hroom
  refine ⟨hs.listed, fun a hpre hroom q hq => hs.other hpre hroom hq, fun rel v c d hc hroom hv hpre => ⟨fun hid => ?_, ?_⟩⟩
  · exact rollbackFile_ok hs hc hroom hv hpre.2.2 hid
  · exact rollback_rollback hs hN hc hroom hv hpre

/-! ## A file with a short name, and one with a long name -/

/-- A working set that holds one file at the root. -/
def oneFile (name : String) (data : Bytes) : State where
  store := ⟨⟨some 0, (∅ : AList fun _ : DirId => Dir).insert 0 ⟨.snapshots, (∅ : Tree).insert [name] (.file data)⟩, .absent, none⟩, ∅⟩
  clock := 0
  history := fun _ => []

theorem oneFile_currentTree {name : String} {data : Bytes} :
    (oneFile name data).store.disk.currentTree = some (0, (∅ : Tree).insert [name] (.file data)) := by
  simp only [oneFile, Disk.currentTree, AList.lookup_insert]

theorem oneFile_start {name : String} (h : isOverlong name = false) (data : Bytes) : Start (oneFile name data) where
  published := by
    refine ⟨0, (∅ : Tree).insert [name] (.file data), oneFile_currentTree, ?_⟩
    refine Tree.Shaped.empty.insert (by simp) rfl ?_ (by rw [AList.lookup_empty]; nofun)
    intro part hpart
    obtain rfl : name = part := by simpa using hpart
    exact h
  versions := rfl
  history := rfl

/-- A draw of some salts and suffix. -/
def draw (ns : ℕ) : Draw := ⟨1, ⟨"abcdefgh", by decide⟩, ⟨"stuvwxyz", by decide⟩, ns, ⟨"0123abcd".toList, by decide, by decide⟩⟩

/-- A write over a file whose name leaves room. -/
def shortWrite (ns : ℕ) (data : Bytes) : Op × Draw := (.write ⟨["ops.json"], by decide⟩ data, draw ns)

instance {d : Draw} {p : Path} {s : Store} : Decidable (d.Free p s) := by
  unfold Draw.Free
  infer_instance

instance {s : State} {a : Op × Draw} : Decidable ((machine retention).pre s a) := by
  unfold machine
  infer_instance

instance {s : State} {a : Op × Draw} : Decidable (Roomy s a) := by
  unfold Roomy
  split <;> infer_instance

/-- Three writes, of which two versions are kept. -/
theorem listed_of_reach_short : ∃ s, s.history ["ops.json"] = [[3], [2], [1]] ∧ listed s ["ops.json"] = [.ok [3], .ok [2]] := by
  have hrun : (((machine 2).guard Roomy).exec [shortWrite 1 [2], shortWrite 2 [3], shortWrite 3 [4]]
      (oneFile "ops.json" [1])).map (fun s => s.history ["ops.json"]) = some [[3], [2], [1]] := by decide +kernel
  obtain ⟨s, hs, hhistory⟩ := Machine.reach_of_exec_map hrun
  have hlisted := (listed_of_reach Nat.two_pos (oneFile_start (by decide) _) (Machine.reach_of_guard hs)).1 ["ops.json"]
  rw [hhistory] at hlisted
  exact ⟨s, hhistory, hlisted⟩

theorem isComponent_replicate (n : ℕ) : IsComponent (String.ofList (List.replicate (n + 3) 'a')) := by
  have hne (name : String) (h : name.toList.length < n + 3) : String.ofList (List.replicate (n + 3) 'a') ≠ name := by
    rintro rfl
    rw [String.toList_ofList, List.length_replicate] at h
    exact h.false
  refine ⟨hne "" ?_, hne "." ?_, hne ".." ?_, ?_, ?_⟩
  · exact Nat.succ_pos _
  · exact Nat.succ_lt_succ (Nat.succ_pos _)
  · exact Nat.succ_lt_succ (Nat.succ_lt_succ (Nat.succ_pos _))
  · rw [String.toList_ofList]
    exact fun h => absurd (List.eq_of_mem_replicate h) (by decide)
  · rw [String.toList_ofList, List.all_eq_true]
    exact fun c hc => List.eq_of_mem_replicate hc ▸ by decide

/-- A name of 250 bytes. -/
def longName : RelPath :=
  ⟨[String.ofList (List.replicate 250 'a')], fun _ h => List.mem_singleton.mp h ▸ isComponent_replicate 247⟩

/-- A write over such a file. -/
def longWrite : Op × Draw := (.write longName [2], draw 1)

theorem longWrite_pre : (machine 1).pre (oneFile (String.ofList (List.replicate 250 'a')) [1]) longWrite := by
  refine ⟨by decide, by decide, fun x hx => ?_, by decide +kernel⟩
  rw [Option.mem_def, oneFile_currentTree, Option.some.injEq] at hx
  rw [← hx]
  decide +kernel

/-- **A write that fails has retained a content that it did not overwrite**: the name of the temp sibling is too long. -/
theorem not_listed : ∃ s0 s, Start s0 ∧ (machine 1).Reach Machine.Any s0 s ∧
    ∃ p, listed s p ≠ ((s.history p).take 1).map .ok := by
  refine ⟨oneFile (String.ofList (List.replicate 250 'a')) [1], _, oneFile_start (by decide +kernel) _,
    Machine.Reach.refl.step longWrite longWrite_pre trivial, longName.parts, ?_⟩
  have hhistory : (((machine 1).post (oneFile (String.ofList (List.replicate 250 'a')) [1]) longWrite).history longName.parts) = [] := by
    decide +kernel
  rw [hhistory]
  decide +kernel

end McServerDashboard.Files.Rollback
