import Mathlib.Data.List.Dedup
import McServerDashboard.Lib.Run
import McServerDashboard.Obj.Mutators

/-!
# The keys below the live prefix as a file tree

The operations of a server one after another, each run to its end without an error. What an
operation does to the live prefix is seen on the pointer and the set of keys alone (`View`).

* `Request.onView`, `view_runAll`: the view that a program of requests leaves.
* `KeepsTree`: what an operation must find so that the keys stay the files of a tree.
* **`live_fileTree`**: while every operation finds that, the keys are the files of a tree; and an
  operation that does not find it leaves keys that are not.
-/

namespace McServerDashboard.Obj

open Lib

/-- A component of a normalised path. -/
def IsPart (part : String) : Prop := part ≠ "" ∧ part ≠ "." ∧ part ≠ ".."

instance (part : String) : Decidable (IsPart part) := by unfold IsPart; infer_instance

/-- The names below the live prefix. -/
def Bucket.live (k : Bucket) : List Name :=
  match k.pointer with
  | some d => k.list (.snapshot d)
  | none => []

/-- `read_file` at a path. -/
def Bucket.readFile (k : Bucket) (p : Path) : Option Bytes := k.pointer.bind fun d => k.get (.snapshot d) p

/-- The keys below the live prefix are the files of a tree. -/
def Bucket.IsFileTree (k : Bucket) : Prop := FileTree IsPart {n | n ∈ k.live}

instance (k : Bucket) : Decidable k.IsFileTree := by unfold Bucket.IsFileTree; infer_instance

/-! ## The operations -/

/-- The names of the file members. -/
def fileNames (members : List Member) : List Name := (members.filter fun m => m.kind = .file).map Member.name

/-- A snapshot is a tar that the Worker packed from a directory. -/
def Mutator.IsPacked : Mutator → Prop
  | commit members _ _ _ _ _ _ => FileTree IsPart {n | n ∈ fileNames members}
  | _ => True

instance (m : Mutator) : Decidable m.IsPacked := by cases m <;> (unfold Mutator.IsPacked; infer_instance)

/-- The operations that succeed, one after another. -/
def operations : Machine Bucket Mutator where
  pre k m := (∀ d ∈ m.drawn, k.isFresh d) ∧ m.IsPacked ∧ (m.plan k).error = none ∧
    (runAll Request.run (m.plan k).writes k).2 = []
  post k m := (runAll Request.run (m.plan k).writes k).1

instance (k : Bucket) (m : Mutator) : Decidable (operations.pre k m) :=
  inferInstanceAs (Decidable (_ ∧ _ ∧ _ ∧ _))

/-- The names that an operation stores. -/
def Mutator.stored : Mutator → List Name
  | commit members _ _ _ _ _ _ => fileNames members
  | restore members _ _ _ _ => stagedNames (restorableMembers members).1
  | writeFile p _ _ => [p.parts]
  | _ => []

/-- The names that `rename_dir` moves. -/
def Bucket.below (k : Bucket) (src : RelPath) : List Name :=
  k.live.filter fun n => src.parts.isPrefixOf n && n ≠ src.parts

/-- What an operation must find: the archive to restore holds normalised names, none of them a
directory of another; no file is above a file that is written; no file is at or above a directory
that is made; a renamed file does not become the root, a directory, or a child of a file; and
no moved name clashes with one that stays. -/
def KeepsTree (k : Bucket) : Mutator → Prop
  | .restore members _ _ _ _ => FileTree IsPart {n | n ∈ stagedNames (restorableMembers members).1}
  | .writeFile p _ _ => ∀ n ∈ k.live, ¬ (n <+: p.parts ∧ n ≠ p.parts)
  | .makeDir p => p.parts = [] ∨ ∀ n ∈ k.live, ¬ Clash (p.parts ++ [dirMarker]) n
  | .renameFile src dst =>
    subName src = subName dst ∨
      dst.parts ≠ [] ∧ ∀ n ∈ k.live, n ≠ subName src → ¬ Clash (subName dst) n
  | .renameDir src dst => ∀ n ∈ k.below src, movedName src dst n ∉ k.below src →
      ∀ m ∈ k.live, m ∉ k.below src → ¬ Clash (movedName src dst n) m
  | _ => True

instance (k : Bucket) (m : Mutator) : Decidable (KeepsTree k m) := by
  cases m <;> (unfold KeepsTree; infer_instance)

/-! ## Views -/

/-- The pointer and the keys of a bucket. -/
@[ext] structure View where
  pointer : Option SnapshotId
  keys : Set Key

namespace View

/-- The names below the live prefix. -/
def live (v : View) : Set Name := {n | ∃ d, v.pointer = some d ∧ ⟨.snapshot d, n⟩ ∈ v.keys}

end View

def Bucket.view (k : Bucket) : View := ⟨k.pointer, {key | key ∈ k.objs}⟩

/-- What a request does to the view. -/
def Request.onView (v : View) : Request → View
  | put key _ => { v with keys := insert key v.keys }
  | copy _ dst => { v with keys := insert dst v.keys }
  | delete key => { v with keys := v.keys \ {key} }
  | point d => { v with pointer := some d }
  | unpoint => { v with pointer := none }
  | mark _ => v

/-- What requests do to the view, in order. -/
def onViewAll (ws : List Request) (v : View) : View := ws.foldl Request.onView v

variable {k k' : Bucket} {v : View} {d : SnapshotId} {n : Name} {p : Prefix} {r : Request}

@[simp] theorem onViewAll_nil : onViewAll [] v = v := rfl

@[simp] theorem onViewAll_cons (ws : List Request) : onViewAll (r :: ws) v = onViewAll ws (r.onView v) := rfl

@[simp] theorem onViewAll_append (ws us : List Request) :
    onViewAll (ws ++ us) v = onViewAll us (onViewAll ws v) := List.foldl_append

theorem view_run (h : r.run k = .ok k') : k'.view = r.onView k.view := by
  have hins : ∀ (key : Key) (data : Bytes),
      {x | x ∈ k.objs.insert key data} = insert key {x | x ∈ k.objs} := by
    intro key data
    ext x
    simp
  cases r with
  | put key data =>
    cases h
    exact View.ext rfl (hins key data)
  | copy src dst =>
    simp only [Request.run] at h
    split at h <;> cases h
    exact View.ext rfl (hins dst _)
  | delete key =>
    cases h
    refine View.ext rfl ?_
    ext x
    simp [Bucket.view, Request.onView, and_comm]
  | _ => cases h; rfl

/-- The view that a program run to its end leaves. -/
theorem view_runAll {ws : List Request} (h : (runAll Request.run ws k).2 = []) :
    (runAll Request.run ws k).1.view = onViewAll ws k.view := by
  induction ws generalizing k with
  | nil => rfl
  | cons w ws ih =>
    cases hr : w.run k with
    | error e => simp [runAll_cons_error Request.run hr] at h
    | ok k' =>
      rw [runAll_cons_ok Request.run hr] at h ⊢
      rw [ih h, view_run hr, onViewAll_cons]

/-- Requests that each write one key. -/
theorem onViewAll_writes {β : Type} {f : β → Request} {g : β → Key}
    (hf : ∀ x v, (f x).onView v = { v with keys := insert (g x) v.keys }) (xs : List β) :
    onViewAll (xs.map f) v = { v with keys := v.keys ∪ {key | ∃ x ∈ xs, g x = key} } := by
  induction xs generalizing v with
  | nil => simp
  | cons x xs ih =>
    rw [List.map_cons, onViewAll_cons, hf, ih]
    refine View.ext rfl ?_
    ext key
    simp only [Set.mem_union, Set.mem_insert_iff, Set.mem_ofPred_eq, List.mem_cons, exists_eq_or_imp]
    rw [eq_comm (a := key)]
    tauto

/-- Requests that each delete one key. -/
theorem onViewAll_deletes {β : Type} {f : β → Request} {g : β → Key}
    (hf : ∀ x v, (f x).onView v = { v with keys := v.keys \ {g x} }) (xs : List β) :
    onViewAll (xs.map f) v = { v with keys := v.keys \ {key | ∃ x ∈ xs, g x = key} } := by
  induction xs generalizing v with
  | nil => simp
  | cons x xs ih =>
    rw [List.map_cons, onViewAll_cons, hf, ih]
    refine View.ext rfl ?_
    ext key
    simp only [Set.mem_sdiff, Set.mem_singleton_iff, Set.mem_ofPred_eq, List.mem_cons, exists_eq_or_imp, not_or]
    rw [eq_comm (a := key)]
    tauto

theorem mem_list : n ∈ k.list p ↔ ⟨p, n⟩ ∈ k.objs := by
  simp only [Bucket.list, List.mem_map, List.mem_filter, decide_eq_true_eq, AList.mem_keys]
  constructor
  · rintro ⟨⟨q, m⟩, ⟨hm, rfl⟩, rfl⟩
    exact hm
  · intro h
    exact ⟨⟨p, n⟩, ⟨h, rfl⟩, rfl⟩

theorem mem_live : n ∈ k.live ↔ n ∈ k.view.live := by
  unfold Bucket.live View.live Bucket.view
  cases hp : k.pointer with
  | none => simp
  | some d => simp [mem_list]

/-! ## What the operations do to the live names -/

/-- The keys with one of the names below a prefix. -/
def keysAt (p : Prefix) (names : List Name) : Set Key := {key | key.under = p ∧ key.name ∈ names}

theorem image_eq_keysAt {names : List Name} : {key | ∃ n ∈ names, (⟨p, n⟩ : Key) = key} = keysAt p names := by
  ext ⟨q, m⟩
  simp only [keysAt, Set.mem_ofPred_eq, Key.mk.injEq]
  constructor
  · rintro ⟨n, hn, rfl, rfl⟩
    exact ⟨rfl, hn⟩
  · rintro ⟨rfl, hm⟩
    exact ⟨m, hm, rfl, rfl⟩

theorem onViewAll_stage {files : List (Name × Bytes)} :
    onViewAll (stage d files) v = { v with keys := v.keys ∪ keysAt (.incoming d) (stagedNames files) } := by
  rw [stage, onViewAll_writes (fun _ _ => rfl)]
  refine View.ext rfl ?_
  rw [← image_eq_keysAt]
  ext key
  simp [stagedNames]

theorem onViewAll_copyIntoSnapshot {names : List Name} :
    onViewAll (copyIntoSnapshot d names) v = { v with keys := v.keys ∪ keysAt (.snapshot d) names } := by
  rw [copyIntoSnapshot, onViewAll_writes (fun _ _ => rfl), image_eq_keysAt]

theorem onViewAll_deleteNames {names : List Name} :
    onViewAll (deleteNames p names) v = { v with keys := v.keys \ keysAt p names } := by
  rw [deleteNames, onViewAll_deletes (fun _ _ => rfl), image_eq_keysAt]

theorem notMem_of_fresh (h : k.isFresh d = true) : (⟨.snapshot d, n⟩ : Key) ∉ k.view.keys := by
  simp only [Bucket.isFresh, Bool.and_eq_true, decide_eq_true_eq] at h
  intro hn
  have hmem : n ∈ k.list (.snapshot d) := mem_list.mpr hn
  rw [h.1.2] at hmem
  cases hmem

/-- Reclaiming takes nothing below the new prefix. -/
theorem onViewAll_gcAfterFlip (names : List Name) (leased : Bool) :
    (onViewAll (gcAfterFlip k d names leased) v).pointer = v.pointer ∧
      ∀ n, (⟨.snapshot d, n⟩ : Key) ∈ (onViewAll (gcAfterFlip k d names leased) v).keys ↔
        (⟨.snapshot d, n⟩ : Key) ∈ v.keys := by
  rw [gcAfterFlip, onViewAll_append, onViewAll_deleteNames]
  split
  · next old _ =>
    split_ifs with hold
    · rw [onViewAll_deleteNames]
      refine ⟨rfl, fun n => ?_⟩
      have hne : d ≠ old := fun h => hold.1 h.symm
      simp [keysAt, hne]
    · simp [keysAt]
  · simp [keysAt]

/-- A publish leaves the names that it staged. -/
theorem live_publishPlan {files : List (Name × Bytes)} {publisher : Option String} {leased : Bool}
    (hf : k.isFresh d = true) :
    (onViewAll (publishPlan k d files publisher leased).writes k.view).live = {n | n ∈ stagedNames files} := by
  simp only [publishPlan, onViewAll_append, onViewAll_stage, onViewAll_copyIntoSnapshot, onViewAll_cons,
    onViewAll_nil, Request.onView]
  ext n
  obtain ⟨hp, hkeys⟩ := onViewAll_gcAfterFlip (k := k) (d := d) (stagedNames files) leased
    (v := ⟨some d, k.view.keys ∪ keysAt (.incoming d) (stagedNames files) ∪ keysAt (.snapshot d) (stagedNames files)⟩)
  simp only [View.live, Set.mem_ofPred_eq, hp, Option.some.injEq, exists_eq_left', hkeys]
  simp [keysAt, notMem_of_fresh hf]

/-- An edit leaves what its requests leave below the live prefix. -/
theorem live_editPlan {requests : List Request} {live : SnapshotId} :
    (onViewAll (editPlan k live requests).writes v).live =
      {n | (⟨.snapshot live, n⟩ : Key) ∈ (onViewAll requests v).keys} := by
  ext n
  simp [editPlan, Request.onView, View.live]

theorem mem_live_some {live : SnapshotId} (h : k.pointer = some live) :
    n ∈ k.live ↔ (⟨.snapshot live, n⟩ : Key) ∈ k.view.keys := by
  rw [mem_live]
  simp [View.live, Bucket.view, h]

theorem mem_listDir {dir : Path} : n ∈ k.listDir p dir ↔ n ∈ k.list p ∧ dir <+: n ∧ n ≠ dir := by
  simp [Bucket.listDir]

theorem live_eq_list {live : SnapshotId} (h : k.pointer = some live) : k.live = k.list (.snapshot live) := by
  rw [Bucket.live, h]

theorem below_eq_listDir {live : SnapshotId} {src : RelPath} (h : k.pointer = some live) :
    k.below src = k.listDir (.snapshot live) src.parts := by
  rw [Bucket.below, Bucket.listDir, live_eq_list h]

/-! ## One operation -/

variable {m : Mutator}

theorem live_post (h : operations.pre k m) :
    {n | n ∈ (operations.post k m).live} = (onViewAll (m.plan k).writes k.view).live := by
  have hview : (operations.post k m).view = onViewAll (m.plan k).writes k.view := view_runAll h.2.2.2
  ext n
  rw [Set.mem_ofPred_eq, mem_live, hview]

theorem isFileTree_post (h : operations.pre k m) : (operations.post k m).IsFileTree ↔
    FileTree IsPart (onViewAll (m.plan k).writes k.view).live := by
  rw [Bucket.IsFileTree, live_post h]

theorem parts_ok (p : RelPath) : ∀ x ∈ p.parts, IsPart x := fun x hx =>
  ⟨(p.clean x hx).1, (p.clean x hx).2.1, (p.clean x hx).2.2.1⟩

theorem names_of_stagedMembers {members : List Member} {files : List (Name × Bytes)}
    (h : stagedMembers members = .ok files) : files.map Prod.fst = fileNames members := by
  simp only [stagedMembers] at h
  split at h <;> cases h
  simp [fileNames]

/-- A commit that succeeded staged the files of its archive. -/
theorem commitPlan_ok {members : List Member} {publisher : Option String} {expectedBase : Option ℕ}
    {healthy : Bool} {fence : Option Bool} {leased : Bool}
    (h : (commitPlan members d publisher expectedBase healthy fence leased k).error = none) :
    ∃ files, files.map Prod.fst = fileNames members ∧
      commitPlan members d publisher expectedBase healthy fence leased k =
        publishPlan k d files publisher leased := by
  revert h
  unfold commitPlan
  split
  · intro h
    cases h
  · next files hfiles =>
    split
    · intro h
      cases h
    split
    · intro h
      cases h
    split
    · split <;> (intro h; cases h)
    split
    · intro h
      cases h
    split
    · intro h
      cases h
    · intro _
      exact ⟨files, names_of_stagedMembers hfiles, rfl⟩

theorem restorePlan_ok {members : List Member} {healthy force leased : Bool}
    (h : (restorePlan members d healthy force leased k).error = none) :
    restorePlan members d healthy force leased k =
      publishPlan k d (restorableMembers members).1 (some restorePublisher) leased := by
  revert h
  simp only [restorePlan]
  split
  · intro h
    cases h
  split
  · intro h
    cases h
  · exact fun _ => rfl

theorem fileTree_stagedNames {files : List (Name × Bytes)} {names : List Name}
    (h : files.map Prod.fst = names) : {n | n ∈ stagedNames files} = {n | n ∈ names} := by
  ext n
  rw [stagedNames, h, Set.mem_ofPred_eq, List.mem_dedup, Set.mem_ofPred_eq]

theorem pre_fresh (h : operations.pre k m) (hd : m.drawn = some d) : k.isFresh d = true := h.1 d (by rw [hd]; rfl)

/-- One file is added to the live prefix, or replaced. -/
theorem isFileTree_put {live : SnapshotId} (hk : k.IsFileTree) (hp : k.pointer = some live)
    {ws : List Request} (hp' : (onViewAll ws k.view).pointer = some live)
    (hkeys : (onViewAll ws k.view).keys = insert ⟨.snapshot live, n⟩ k.view.keys)
    (hn : n ≠ [] ∧ ∀ x ∈ n, IsPart x) :
    FileTree IsPart (onViewAll ws k.view).live ↔ ∀ m ∈ k.live, ¬ Clash n m := by
  have hlive : (onViewAll ws k.view).live = insert n {m | m ∈ k.live} := by
    ext m
    simp only [View.live, Set.mem_ofPred_eq, hp', Option.some.injEq, exists_eq_left', hkeys,
      Set.mem_insert_iff, Key.mk.injEq, true_and, mem_live_some hp]
  rw [hlive, fileTree_insert hk]
  exact ⟨fun h => h.2, fun h => ⟨hn, h⟩⟩

/-- What remains below the live prefix after deletes is a tree. -/
theorem isFileTree_delete {live : SnapshotId} (names : List Name) (hk : k.IsFileTree)
    (hp : k.pointer = some live) :
    FileTree IsPart (onViewAll (editPlan k live (deleteNames (.snapshot live) names)).writes k.view).live := by
  refine hk.subset fun n hn => ?_
  rw [live_editPlan, onViewAll_deleteNames] at hn
  exact (mem_live_some hp).mpr hn.1

theorem isFileTree_writeFile {p : RelPath} {data : Bytes} (hk : k.IsFileTree)
    (h : operations.pre k (.writeFile p data d)) :
    FileTree IsPart (onViewAll (writeFilePlan p data d k).writes k.view).live ↔
      KeepsTree k (.writeFile p data d) := by
  have herr : (writeFilePlan p data d k).error = none := h.2.2.1
  revert herr
  unfold writeFilePlan
  split
  · intro herr
    cases herr
  next hroot =>
  split
  · next hp =>
    intro _
    rw [live_publishPlan (pre_fresh h rfl), fileTree_stagedNames rfl]
    have hlive : k.live = [] := by rw [Bucket.live, hp]
    have hsingle : {n | n ∈ [p.parts]} = ({p.parts} : Set Name) := by ext n; simp
    rw [List.map_singleton, hsingle, fileTree_singleton, KeepsTree, hlive]
    exact ⟨fun _ n hn => (by cases hn), fun _ => ⟨hroot, parts_ok p⟩⟩
  · next live hp =>
    split
    · intro herr
      cases herr
    · next hdir =>
      intro _
      refine Iff.trans (isFileTree_put hk hp rfl rfl ⟨hroot, parts_ok p⟩) ?_
      -- The check of the source rules out the clashes with what is below the target.
      have hbelow : ∀ n ∈ k.live, ¬ (p.parts <+: n ∧ n ≠ p.parts) := by
        intro n hn hc
        refine hdir fun hnil => ?_
        have hmem : n ∈ k.listDir (.snapshot live) p.parts := by
          rw [mem_listDir, ← live_eq_list hp]
          exact ⟨hn, hc⟩
        rw [hnil] at hmem
        cases hmem
      constructor
      · intro hclash n hn hc
        exact hclash n hn ⟨hc.2.symm, .inr hc.1⟩
      · rintro habove n hn ⟨hne, hpre | hpre⟩
        · exact hbelow n hn ⟨hpre, hne.symm⟩
        · exact habove n hn ⟨hpre, hne.symm⟩

theorem isFileTree_makeDir {p : RelPath} (hk : k.IsFileTree) (h : operations.pre k (.makeDir p)) :
    FileTree IsPart (onViewAll (makeDirPlan p k).writes k.view).live ↔ KeepsTree k (.makeDir p) := by
  have herr : (makeDirPlan p k).error = none := h.2.2.1
  revert herr
  unfold makeDirPlan
  split
  · next hroot =>
    intro _
    have hlive : (onViewAll [] k.view).live = {n | n ∈ k.live} := by
      ext n
      exact mem_live.symm
    rw [hlive]
    exact ⟨fun _ => .inl hroot, fun _ => hk⟩
  next hroot =>
  split
  · intro herr
    cases herr
  · next live hp =>
    intro _
    have hok : p.parts ++ [dirMarker] ≠ [] ∧ ∀ x ∈ p.parts ++ [dirMarker], IsPart x := by
      refine ⟨by simp, fun x hx => ?_⟩
      rcases List.mem_append.mp hx with hx | hx
      · exact parts_ok p x hx
      · rw [List.mem_singleton.mp hx]
        decide
    refine Iff.trans (isFileTree_put hk hp hp rfl hok) ?_
    exact ⟨.inr, fun hkeep => hkeep.resolve_left hroot⟩

theorem isFileTree_deleteFile {p : RelPath} (hk : k.IsFileTree) (h : operations.pre k (.deleteFile p)) :
    FileTree IsPart (onViewAll (deleteFilePlan p k).writes k.view).live := by
  have herr : (deleteFilePlan p k).error = none := h.2.2.1
  revert herr
  unfold deleteFilePlan
  split
  · intro herr
    cases herr
  · next live hp =>
    split
    · intro herr
      cases herr
    · intro _
      exact isFileTree_delete [subName p] hk hp

theorem isFileTree_deleteDir {p : RelPath} (hk : k.IsFileTree) (h : operations.pre k (.deleteDir p)) :
    FileTree IsPart (onViewAll (deleteDirPlan p k).writes k.view).live := by
  have herr : (deleteDirPlan p k).error = none := h.2.2.1
  revert herr
  unfold deleteDirPlan
  split
  · intro herr
    cases herr
  · next live hp =>
    dsimp only
    split
    · intro herr
      cases herr
    · intro _
      exact isFileTree_delete _ hk hp

theorem subName_ok {p : RelPath} : (subName p ≠ [] ∧ ∀ x ∈ subName p, IsPart x) ↔ p.parts ≠ [] := by
  unfold subName
  split_ifs with hroot
  · simp [hroot, IsPart]
  · exact ⟨fun _ => hroot, fun h => ⟨h, parts_ok p⟩⟩

/-- What `rename_file` leaves below the live prefix. -/
theorem live_renameFile {src dst : RelPath} {live : SnapshotId} (hp : k.pointer = some live) :
    (onViewAll (editPlan k live [.copy ⟨.snapshot live, subName src⟩ ⟨.snapshot live, subName dst⟩,
        .delete ⟨.snapshot live, subName src⟩]).writes k.view).live =
      insert (subName dst) {n | n ∈ k.live} \ {subName src} := by
  rw [live_editPlan]
  ext n
  simp [Request.onView, mem_live_some hp]

theorem isFileTree_renameFile {src dst : RelPath} (hk : k.IsFileTree)
    (h : operations.pre k (.renameFile src dst)) :
    FileTree IsPart (onViewAll (renameFilePlan src dst k).writes k.view).live ↔
      KeepsTree k (.renameFile src dst) := by
  have herr : (renameFilePlan src dst k).error = none := h.2.2.1
  revert herr
  unfold renameFilePlan
  split
  · intro herr
    cases herr
  · next live hp =>
    split
    · intro herr
      cases herr
    · intro _
      rw [live_renameFile hp]
      by_cases heq : subName src = subName dst
      · refine ⟨fun _ => .inl heq, fun _ => hk.subset ?_⟩
        rintro n ⟨hn | hn, hne⟩
        · exact absurd (hn.trans heq.symm) hne
        · exact hn
      · have hstay : FileTree IsPart ({n | n ∈ k.live} \ {subName src}) := hk.subset Set.sdiff_subset
        rw [Set.insert_sdiff_of_notMem _ (by simpa using fun hc => heq hc.symm), fileTree_insert hstay,
          subName_ok]
        constructor
        · rintro ⟨hroot, hclash⟩
          exact .inr ⟨hroot, fun n hn hne => hclash n ⟨hn, hne⟩⟩
        · rintro (hc | ⟨hroot, hclash⟩)
          · exact absurd hc heq
          · exact ⟨hroot, fun n hn => hclash n hn.1 hn.2⟩

/-- What `rename_dir` leaves below the live prefix. -/
theorem live_renameDir {src dst : RelPath} {live : SnapshotId} {names : List Name} (hp : k.pointer = some live) :
    (onViewAll (editPlan k live
        (names.map (fun n => .copy ⟨.snapshot live, n⟩ ⟨.snapshot live, movedName src dst n⟩) ++
          deleteNames (.snapshot live) names)).writes k.view).live =
      ({n | n ∈ k.live} ∪ rebase src.parts dst.parts '' {n | n ∈ names}) \ {n | n ∈ names} := by
  rw [live_editPlan, onViewAll_append, onViewAll_deleteNames, onViewAll_writes (fun _ _ => rfl)]
  ext n
  simp only [keysAt, Set.mem_ofPred_eq, Set.mem_sdiff, Set.mem_union, Key.mk.injEq, true_and,
    mem_live_some hp, Set.mem_image, movedName]

theorem isFileTree_renameDir {src dst : RelPath} (hk : k.IsFileTree)
    (h : operations.pre k (.renameDir src dst)) :
    FileTree IsPart (onViewAll (renameDirPlan src dst k).writes k.view).live ↔
      KeepsTree k (.renameDir src dst) := by
  have herr : (renameDirPlan src dst k).error = none := h.2.2.1
  revert herr
  unfold renameDirPlan
  split
  · intro herr
    cases herr
  · next live hp =>
    dsimp only
    split
    · intro herr
      cases herr
    · intro _
      rw [← below_eq_listDir hp, live_renameDir hp]
      have hbelow : ∀ n ∈ {n | n ∈ k.below src}, n ∈ {n | n ∈ k.live} ∧ src.parts <+: n ∧ n ≠ src.parts := by
        intro n hn
        simpa [Bucket.below] using hn
      rw [fileTree_move hk (FileTree.rebase hk (parts_ok dst) hbelow)]
      constructor
      · intro hmove n hn hmoved m hm hstay
        exact hmove _ ⟨⟨n, hn, rfl⟩, hmoved⟩ m ⟨hm, hstay⟩
      · rintro hkeep _ ⟨⟨n, hn, rfl⟩, hmoved⟩ m ⟨hm, hstay⟩
        exact hkeep n hn hmoved m hm hstay

theorem isFileTree_prune : FileTree IsPart (onViewAll (prunePlan k).writes k.view).live := by
  have hnone : (onViewAll (prunePlan k).writes k.view).pointer = none := by
    unfold prunePlan
    split
    · next hp =>
      rw [onViewAll_append, deleteAll, onViewAll_deletes (fun _ _ => rfl)]
      exact hp
    · dsimp only
      rw [onViewAll_append, onViewAll_append, deleteAll, onViewAll_deletes (fun _ _ => rfl)]
      split_ifs <;> rfl
  refine fileTree_empty.subset fun n hn => ?_
  obtain ⟨d, hd, -⟩ := hn
  rw [hnone] at hd
  cases hd

/-- **From the files of a tree, an operation that succeeds leaves the files of a tree exactly when it
finds what it needs.** -/
theorem isFileTree_iff (hk : k.IsFileTree) (h : operations.pre k m) :
    (operations.post k m).IsFileTree ↔ KeepsTree k m := by
  rw [isFileTree_post h]
  cases m with
  | commit members d publisher expectedBase healthy fence leased =>
    obtain ⟨files, hnames, hplan⟩ := commitPlan_ok h.2.2.1
    have hpacked : FileTree IsPart {n | n ∈ fileNames members} := h.2.1
    simp only [Mutator.plan]
    rw [hplan, live_publishPlan (pre_fresh h rfl), fileTree_stagedNames hnames]
    exact ⟨fun _ => trivial, fun _ => hpacked⟩
  | restore members d healthy force leased =>
    simp only [Mutator.plan]
    rw [restorePlan_ok h.2.2.1, live_publishPlan (pre_fresh h rfl)]
    exact Iff.rfl
  | writeFile p data d => exact isFileTree_writeFile hk h
  | deleteFile p => exact ⟨fun _ => trivial, fun _ => isFileTree_deleteFile hk h⟩
  | deleteDir p => exact ⟨fun _ => trivial, fun _ => isFileTree_deleteDir hk h⟩
  | renameFile src dst => exact isFileTree_renameFile hk h
  | renameDir src dst => exact isFileTree_renameDir hk h
  | makeDir p => exact isFileTree_makeDir hk h
  | prune => exact ⟨fun _ => trivial, fun _ => isFileTree_prune⟩

/-! ## Runs -/

theorem isFileTree_empty : Bucket.empty.IsFileTree := by decide

theorem isFileTree_reach (h : operations.Reach KeepsTree .empty k) : k.IsFileTree :=
  h.invariant isFileTree_empty fun _ _ hk hpre hkeep => (isFileTree_iff hk hpre).mpr hkeep

/-- A name without empty, `.` or `..` components is its own normalised path. -/
theorem parts_eq (h : ∀ x ∈ n, IsPart x) : n.parts = n := by
  rw [Name.parts, List.filter_eq_self]
  intro x hx
  simp [(h x hx).1, (h x hx).2.1]

theorem readFile_of_live (h : n ∈ k.live) : (k.readFile n).isSome = true := by
  unfold Bucket.live at h
  unfold Bucket.readFile Bucket.get
  cases hp : k.pointer with
  | none => simp [hp] at h
  | some d =>
    rw [hp] at h
    exact AList.lookup_isSome.mpr (mem_list.mp h)

/-- A file of the tree is read under its normalised path. -/
theorem Bucket.IsFileTree.readFile (hk : k.IsFileTree) (h : n ∈ k.live) :
    n.parts = n ∧ (k.readFile n.parts).isSome = true := by
  have hn := parts_eq (hk.normal n h).2
  rw [hn]
  exact ⟨rfl, readFile_of_live h⟩

/-- What an operation stores is below the live prefix. -/
theorem stored_live (h : operations.pre k m) (hn : n ∈ m.stored) : n ∈ (operations.post k m).live := by
  rw [← Set.mem_ofPred_eq (p := fun n => n ∈ (operations.post k m).live), live_post h]
  cases m with
  | commit members d publisher expectedBase healthy fence leased =>
    obtain ⟨files, hnames, hplan⟩ := commitPlan_ok h.2.2.1
    simp only [Mutator.plan]
    rw [hplan, live_publishPlan (pre_fresh h rfl), fileTree_stagedNames hnames]
    exact hn
  | restore members d healthy force leased =>
    simp only [Mutator.plan]
    rw [restorePlan_ok h.2.2.1, live_publishPlan (pre_fresh h rfl)]
    exact hn
  | writeFile p data d =>
    rw [Mutator.stored, List.mem_singleton] at hn
    subst hn
    have herr : (writeFilePlan p data d k).error = none := h.2.2.1
    revert herr
    simp only [Mutator.plan]
    unfold writeFilePlan
    split
    · intro herr
      cases herr
    split
    · intro _
      rw [live_publishPlan (pre_fresh h rfl), fileTree_stagedNames rfl]
      exact List.mem_singleton_self _
    · split
      · intro herr
        cases herr
      · intro _
        rw [live_editPlan]
        exact Set.mem_insert _ _
  | _ => cases hn

/-- **While every operation finds what it needs, the keys below the live prefix are the files of a
tree: each is a normalised path that its file is read under, and none is a directory above another.
And the next operation keeps it so exactly when it finds what it needs; then every file it stored is
read under its normalised path.** -/
theorem live_fileTree (h : operations.Reach KeepsTree .empty k) :
    (k.IsFileTree ∧ (∀ n ∈ k.live, n.parts = n ∧ (k.readFile n.parts).isSome = true) ∧
      ∀ n ∈ k.live, ∀ m ∈ k.live, n <+: m → n = m) ∧
    ∀ m, operations.pre k m → ((operations.post k m).IsFileTree ↔ KeepsTree k m) ∧
      (KeepsTree k m → ∀ n ∈ m.stored, ((operations.post k m).readFile n.parts).isSome = true) := by
  have hk := isFileTree_reach h
  refine ⟨⟨hk, fun n hn => hk.readFile hn, fun n hn m hm hnm => hk.eq_of_prefix hn hm hnm⟩, fun m hm => ?_⟩
  refine ⟨isFileTree_iff hk hm, fun hkeep n hn => ?_⟩
  exact ((isFileTree_iff hk hm).mpr hkeep |>.readFile (stored_live hm hn)).2

/-- A snapshot with the one file `world`. -/
def commitWorldFile : Mutator := .commit [⟨["world"], .file, [1]⟩] 0 (some "w") (some 0) true (some true) false

/-- A backup whose archive names its file `./world/level.dat`. -/
def restoreDotted : Mutator := .restore [⟨[".", "world", "level.dat"], .file, [1]⟩] 1 true false false

/-- Publish, write beside, rename and make a directory. -/
def tidyOperations : List Mutator :=
  [commitWorldFile, .writeFile ⟨["config", "a"], by decide⟩ [2] 1,
    .renameDir ⟨["config"], by decide⟩ ⟨["plugins"], by decide⟩, .makeDir ⟨["logs"], by decide⟩]

theorem live_fileTree_tidyOperations : ∃ k : Bucket, k.live = [["logs", ".dir"], ["plugins", "a"], ["world"]] ∧
    (k.IsFileTree ∧ (∀ n ∈ k.live, n.parts = n ∧ (k.readFile n.parts).isSome = true) ∧
      ∀ n ∈ k.live, ∀ m ∈ k.live, n <+: m → n = m) ∧
    ∀ m, operations.pre k m → ((operations.post k m).IsFileTree ↔ KeepsTree k m) ∧
      (KeepsTree k m → ∀ n ∈ m.stored, ((operations.post k m).readFile n.parts).isSome = true) := by
  have hrun : ((operations.guard KeepsTree).exec tidyOperations .empty).map Bucket.live =
      some [["logs", ".dir"], ["plugins", "a"], ["world"]] := by decide
  obtain ⟨k, hr, hk⟩ := Machine.reach_of_exec_map hrun
  exact ⟨k, hk, live_fileTree (Machine.reach_of_guard hr)⟩

/-- **A write below a file, and a restore of an archive with `./` names, leave keys that are not the
files of a tree; the restored file is not read under its normalised path.** -/
theorem writeBelowFile_notFileTree :
    (∃ k, operations.Reach Machine.Any .empty k ∧ k.live = [["world", "a"], ["world"]] ∧ ¬ k.IsFileTree) ∧
    ∃ k, operations.Reach Machine.Any .empty k ∧ k.live = [[".", "world", "level.dat"]] ∧ ¬ k.IsFileTree ∧
      k.readFile ["world", "level.dat"] = none := by
  have hwrite : (operations.exec [commitWorldFile, .writeFile ⟨["world", "a"], by decide⟩ [2] 1] .empty).map
      (fun k => (k.live, decide k.IsFileTree)) = some ([["world", "a"], ["world"]], false) := by decide
  have hrestore : (operations.exec [commitWorldFile, restoreDotted] .empty).map
      (fun k => (k.live, decide k.IsFileTree, k.readFile ["world", "level.dat"])) =
      some ([[".", "world", "level.dat"]], false, none) := by decide
  obtain ⟨k, hr, hk⟩ := Machine.reach_of_exec_map hwrite
  obtain ⟨q, hr', hq⟩ := Machine.reach_of_exec_map hrestore
  simp only [Prod.mk.injEq, decide_eq_false_iff_not] at hk hq
  exact ⟨⟨k, hr, hk⟩, q, hr', hq⟩

end McServerDashboard.Obj
