import McServerDashboard.Worker.PackTar
import Mathlib.Data.List.Sublists
import Mathlib.Logic.Function.Basic

/-!
# Unpacking a snapshot

`unpackTar` recreates the members of an archive below a directory. Paths below it are lists of names.

* `Dest`: what stands below the directory; `mkdirAll`, `writeFile`.
* `unpackTar`: with `safeJoin` and `isRootGenerationMarkerMember`.
* `Tree`: a directory tree of files and directories; `Tree.members`: its archive; `Tree.restored`: what it should come
  back as.
* **`unpackTar_members`**: the members of a tree are unpacked to what it should come back as.
-/

namespace McServerDashboard.Worker.Archive

open Lib.Tar Lib.Archive

/-! ## The destination -/

inductive Entry
  | file (mode : ℕ) (body : Bytes)
  | dir
  deriving DecidableEq

/-- What stands at the paths below the destination. -/
abbrev Dest := List Bytes → Option Entry

inductive UnpackError
  | absolute (name : Bytes)
  | escape (name : Bytes)
  | link (name : Bytes)
  | os (err : Errno)
  | tar (err : Lib.Archive.Error)

/-- The path that the names spell. -/
def joined (p : List Bytes) : Bytes := p.foldl entryRel []

variable (limit : ℕ) (d : Dest) (p : List Bytes)

/-- `Mkdir`, where no directory stands yet; `limit` is the longest path that the kernel resolves. -/
def mkdir : Except Errno Dest :=
  match d p with
  | some .dir => .ok d
  | some (.file _ _) => .error .notdir
  | none => if limit < (joined p).length then .error .nametoolong else .ok (Function.update d p (some .dir))

/-- `os.MkdirAll`. -/
def mkdirAll : Except Errno Dest := p.inits.foldlM (mkdir limit) d

/-- `writeFile`: a file that exists keeps its mode. -/
def writeFile (body : Bytes) (mode : ℕ) : Except Errno Dest :=
  let mode := mode % 2 ^ 32
  match d p with
  | some .dir => .error .isdir
  | some (.file old _) => .ok (Function.update d p (some (.file old body)))
  | none =>
    if limit < (joined p).length then .error .nametoolong
    else .ok (Function.update d p (some (.file ((if mode = 0 then 0o640 else mode) % 0o1000) body)))

/-! ## Unpacking -/

def dot : Bytes := ascii "."

def dotdot : Bytes := ascii ".."

/-- The components that `path.Clean` leaves of a path without `..`. -/
def components (name : Bytes) : List Bytes := (name.splitOn slash).filter fun part => part ≠ [] ∧ part ≠ dot

/-- The path below the root, which a path without `..` does not leave. -/
def safeJoin (name : Bytes) : Except UnpackError (List Bytes) :=
  if [slash] <+: name then .error (.absolute name)
  else if dotdot ∈ name.splitOn slash then .error (.escape name)
  else .ok (components name)

def isRootGenerationMarkerMember (name : Bytes) : Bool :=
  generationMarkerFile.isPrefixOf ((components name).headD dot)

def liftErrno {α : Type*} (x : Except Errno α) : Except UnpackError α := x.mapError .os

def unpackMember (m : Header × Bytes) : Except UnpackError Dest := do
  let target ← safeJoin m.1.name
  if isRootGenerationMarkerMember m.1.name then return d
  match m.1.typeflag with
  | .dir => liftErrno (mkdirAll limit d target)
  | .reg =>
    let d ← liftErrno (mkdirAll limit d target.dropLast)
    liftErrno (writeFile limit d target m.2 m.1.mode)
  | .symlink | .link => .error (.link m.1.name)
  | .special | .other => return d

variable (c : Codec Header Header.bodySize)

/-- The loop over the members; each shortens what is left to read. -/
def unpackFrom : ℕ → Bytes → Dest → Except UnpackError Dest
  | 0, _, _ => .error (.tar .malformed)
  | fuel + 1, s, d =>
    match c.next s with
    | .error e => .error (.tar e)
    | .ok none => .ok d
    | .ok (some (m, rest)) => do
      let d ← unpackMember limit d m
      unpackFrom fuel rest d

/-- A new directory. -/
def emptyDest : Dest := fun p => if p = [] then some .dir else none

/-- Into a new directory of the name `root`. -/
def unpackTar (root s : Bytes) : Except UnpackError Dest :=
  unpackFrom (pathLimit root) c (s.length + 1) s emptyDest

variable {limit d p c} {ms : List (Header × Bytes)}

theorem unpackFrom_blocks {fuel : ℕ} (hms : ∀ m ∈ ms, Fits c m) (hfuel : ms.length < fuel) :
    unpackFrom limit c fuel (blocks c ms ++ zeros (2 * blocksize)) d = ms.foldlM (unpackMember limit) d := by
  induction ms generalizing fuel d with
  | nil =>
    obtain ⟨n, rfl⟩ := Nat.exists_eq_add_one_of_ne_zero (Nat.ne_of_gt hfuel)
    rw [unpackFrom]
    change (match c.next (zeros (2 * blocksize)) with | .error e => _ | .ok none => _ | .ok (some (m, rest)) => _) = _
    rw [next_trailer]
    rfl
  | cons m ms ih =>
    obtain ⟨n, rfl⟩ := Nat.exists_eq_add_one_of_ne_zero (Nat.ne_of_gt (Nat.zero_lt_of_lt hfuel))
    have hbytes : blocks c (m :: ms) ++ zeros (2 * blocksize) =
        block c m ++ (blocks c ms ++ zeros (2 * blocksize)) := by
      rw [blocks, List.flatMap_cons, List.append_assoc]
      rfl
    rw [unpackFrom, hbytes, next_block (hms m List.mem_cons_self), List.foldlM_cons]
    simp only
    congr 1
    funext d
    exact ih (fun m hm => hms m (List.mem_cons_of_mem _ hm)) (Nat.lt_of_succ_lt_succ hfuel)

/-- An archive is unpacked member by member. -/
theorem unpackTar_blocks {root : Bytes} (hms : ∀ m ∈ ms, Fits c m) :
    unpackTar c root (blocks c ms ++ zeros (2 * blocksize)) = ms.foldlM (unpackMember (pathLimit root)) emptyDest := by
  refine unpackFrom_blocks hms (Nat.lt_succ_of_le ?_)
  rw [List.length_append]
  exact (length_le_blocks hms).trans (Nat.le_add_right _ _)

/-! ## Trees -/

inductive Node
  | file (perm : ℕ) (body : Bytes)
  | dir (perm : ℕ) (names : List Bytes)

structure ValidName (n : Bytes) : Prop where
  ne_nil : n ≠ []
  slash : slash ∉ n
  dot : n ≠ dot
  dotdot : n ≠ dotdot

/-- A tree of files and directories. -/
structure Tree where
  node : List Bytes → Option Node
  root : ∃ perm names, node [] = some (.dir perm names)
  child : ∀ p n, (node (p ++ [n])).isSome ↔ ∃ perm names, node p = some (.dir perm names) ∧ n ∈ names
  nodup : ∀ p perm names, node p = some (.dir perm names) → names.Nodup
  valid : ∀ p perm names, node p = some (.dir perm names) → ∀ n ∈ names, ValidName n
  perm_lt : ∀ p perm body, node p = some (.file perm body) → perm < 0o1000

def Node.entry : Node → Entry
  | .file perm body => .file (if perm = 0 then 0o640 else perm) body
  | .dir _ _ => .dir

/-- The names that are left out of the directory `p`. -/
def LeftOut (p : List Bytes) (n : Bytes) : Prop := p = [] ∧ generationMarkerFile <+: n

instance (p : List Bytes) (n : Bytes) : Decidable (LeftOut p n) := inferInstanceAs (Decidable (_ ∧ _))

namespace Tree

variable (t : Tree)

/-- The names of a directory that are archived, in their order. -/
def names (p : List Bytes) : List Bytes :=
  match t.node p with
  | some (.dir _ names) => (names.mergeSort (· ≤ ·)).filter fun n => ¬ LeftOut p n
  | _ => []

/-- The members of the entry `n` of `p`, given those of a directory. -/
def entryMembers (dirMembers : List Bytes → List (Header × Bytes)) (p : List Bytes) (n : Bytes) :
    List (Header × Bytes) :=
  match t.node (p ++ [n]) with
  | some (.file perm body) => [(⟨joined (p ++ [n]), .reg, perm, body.length⟩, body)]
  | some (.dir perm _) => (⟨joined (p ++ [n]) ++ [slash], .dir, perm, 0⟩, []) :: dirMembers (p ++ [n])
  | none => []

/-- What is below a directory, down to `room` levels. -/
def dirMembers : ℕ → List Bytes → List (Header × Bytes)
  | 0, _ => []
  | room + 1, p => (t.names p).flatMap (t.entryMembers (dirMembers room) p)

/-- The archive of the tree. -/
def members : List (Header × Bytes) := t.dirMembers (maxPackDepth + 1) []

/-- The entries of the root that have the prefix of the generation marker are left out, and nothing else. -/
def restored : Dest
  | [] => some .dir
  | n :: p => if generationMarkerFile <+: n then none else (t.node (n :: p)).map Node.entry

/-- The paths of the members. -/
def IsMember (p : List Bytes) : Prop := p ≠ [] ∧ (t.node p).isSome ∧ ∀ n ∈ p.head?, ¬ generationMarkerFile <+: n

/-- The limits of the archive: directories are at most `maxPackDepth` deep, and paths at most `limit` long. -/
structure Within (limit : ℕ) : Prop where
  depth : ∀ p perm names, t.IsMember p → t.node p = some (.dir perm names) → p.length ≤ maxPackDepth
  length : ∀ p, t.IsMember p → (joined p).length ≤ limit

end Tree

/-! ## Paths -/

structure ValidPath (p : List Bytes) : Prop where
  ne_nil : p ≠ []
  names : ∀ n ∈ p, ValidName n
  head : ∀ n ∈ p.head?, ¬ generationMarkerFile <+: n

variable {n : Bytes} {q : List Bytes}

theorem joined_concat : joined (p ++ [n]) = entryRel (joined p) n := by
  rw [joined, List.foldl_append]
  rfl

theorem foldl_entryRel {a : Bytes} (ha : a ≠ []) : p.foldl entryRel a = [slash].intercalate (a :: p) := by
  induction p generalizing a with
  | nil => rw [List.foldl_nil, List.intercalate_singleton]
  | cons n p ih =>
    have hne : a ++ slash :: n ≠ [] := List.append_ne_nil_of_left_ne_nil ha _
    rw [List.foldl_cons, entryRel, if_neg ha, ih hne, List.intercalate_cons_cons]
    cases p with
    | nil => simp only [List.intercalate_singleton, List.append_assoc, List.singleton_append]
    | cons n' p => simp only [List.intercalate_cons_cons, List.append_assoc, List.cons_append, List.nil_append]

theorem splitOn_joined (hn : n ≠ []) (hp : ∀ m ∈ n :: p, slash ∉ m) : (joined (n :: p)).splitOn slash = n :: p := by
  have hjoined : joined (n :: p) = [slash].intercalate (n :: p) := by
    rw [joined, List.foldl_cons, entryRel, if_pos rfl, foldl_entryRel hn]
  rw [hjoined, List.splitOn_intercalate slash hp (List.cons_ne_nil _ _)]

theorem joined_ne_nil (hn : n ≠ []) : joined (n :: p) ≠ [] := by
  rw [joined, List.foldl_cons, entryRel, if_pos rfl]
  induction p generalizing n with
  | nil => exact hn
  | cons m p ih =>
    rw [List.foldl_cons, entryRel, if_neg hn]
    exact ih (List.append_ne_nil_of_left_ne_nil hn _)

/-- A path is found again in its name, also with the slash of a directory behind it. -/
theorem ValidPath.safeJoin {tail : List Bytes} (hp : ValidPath p) (htail : tail = [] ∨ tail = [[]]) :
    safeJoin (joined (p ++ tail)) = .ok p ∧ isRootGenerationMarkerMember (joined (p ++ tail)) = false := by
  obtain ⟨n, p, rfl⟩ := List.exists_cons_of_ne_nil hp.ne_nil
  have hn := hp.names n List.mem_cons_self
  have hslash : ∀ m ∈ n :: (p ++ tail), slash ∉ m := by
    intro m hm
    rcases List.mem_append.mp (List.cons_append ▸ hm : m ∈ (n :: p) ++ tail) with hm | hm
    · exact (hp.names m hm).slash
    · rcases htail with rfl | rfl
      · cases hm
      · rw [List.mem_singleton.mp hm]
        exact List.not_mem_nil
  have hsplit : (joined (n :: p ++ tail)).splitOn slash = n :: p ++ tail := splitOn_joined hn.ne_nil hslash
  have hcomponents : components (joined (n :: p ++ tail)) = n :: p := by
    rw [components, hsplit, List.filter_append, List.filter_eq_self.mpr, List.filter_eq_nil_iff.mpr, List.append_nil]
    · rcases htail with rfl | rfl
      · exact fun m hm => by cases hm
      · intro m hm
        rw [List.mem_singleton.mp hm]
        decide
    · exact fun m hm => decide_eq_true ⟨(hp.names m hm).ne_nil, (hp.names m hm).dot⟩
  have habs : ¬ [slash] <+: joined (n :: p ++ tail) := by
    rintro ⟨rest, hrest⟩
    have : (joined (n :: p ++ tail)).splitOn slash = [] :: rest.splitOn slash := by
      rw [← hrest]
      rw [List.singleton_append, List.splitOn_cons_eq_if_modifyHead, if_pos (beq_self_eq_true slash)]
    rw [hsplit, List.cons_append] at this
    exact hn.ne_nil (List.cons.inj this).1
  have hdots : dotdot ∉ (joined (n :: p ++ tail)).splitOn slash := by
    rw [hsplit]
    intro hmem
    rcases List.mem_append.mp hmem with hmem | hmem
    · exact (hp.names _ hmem).dotdot rfl
    · rcases htail with rfl | rfl
      · cases hmem
      · cases List.mem_singleton.mp hmem
  refine ⟨by rw [Archive.safeJoin, if_neg habs, if_neg hdots, hcomponents], ?_⟩
  rw [isRootGenerationMarkerMember, hcomponents, List.headD_cons, Bool.eq_false_iff]
  exact fun h => hp.head n rfl (List.isPrefixOf_iff_prefix.mp h)

/-! ## Unpacking members -/

theorem mkdirAll_eq (h : ∀ q, q <+: p → d q = some .dir) : mkdirAll limit d p = .ok d := by
  have hlist : ∀ l : List (List Bytes), (∀ q ∈ l, d q = some .dir) → l.foldlM (mkdir limit) d = .ok d := by
    intro l hl
    induction l with
    | nil => rfl
    | cons q l ih =>
      have hq : mkdir limit d q = .ok d := by rw [mkdir, hl q List.mem_cons_self]
      rw [List.foldlM_cons, hq]
      exact ih fun q hq => hl q (List.mem_cons_of_mem _ hq)
  exact hlist _ fun q hq => h q ((List.mem_inits _ _).mp hq)

theorem mkdirAll_concat (h : ∀ q, q <+: p → d q = some .dir) (hnew : d (p ++ [n]) = none)
    (hlen : (joined (p ++ [n])).length ≤ limit) :
    mkdirAll limit d (p ++ [n]) = .ok (Function.update d (p ++ [n]) (some .dir)) := by
  have hinits : (p ++ [n]).inits = p.inits ++ [p ++ [n]] := by
    rw [List.inits_append]
    rfl
  have hmk : mkdir limit d (p ++ [n]) = .ok (Function.update d (p ++ [n]) (some .dir)) := by
    simp only [mkdir, hnew, if_neg (Nat.not_lt.mpr hlen)]
  have hparents : p.inits.foldlM (mkdir limit) d = .ok d := mkdirAll_eq h
  rw [mkdirAll, hinits, List.foldlM_append, hparents]
  change ([p ++ [n]].foldlM (mkdir limit) d : Except Errno Dest) = _
  rw [List.foldlM_cons, hmk]
  rfl

section

variable (hp : ValidPath (p ++ [n])) (hparents : ∀ q, q <+: p → d q = some .dir) (hnew : d (p ++ [n]) = none)
  (hlen : (joined (p ++ [n])).length ≤ limit)

include hp hparents hnew hlen

theorem unpackMember_dir {perm : ℕ} :
    unpackMember limit d (⟨joined (p ++ [n]) ++ [slash], .dir, perm, 0⟩, []) =
      .ok (Function.update d (p ++ [n]) (some .dir)) := by
  obtain ⟨hjoin, hmarker⟩ := hp.safeJoin (.inr rfl)
  have hname : joined (p ++ [n] ++ [[]]) = joined (p ++ [n]) ++ [slash] := by
    obtain ⟨m, q, hq⟩ := List.exists_cons_of_ne_nil hp.ne_nil
    have hne : joined (p ++ [n]) ≠ [] := hq ▸ joined_ne_nil (hp.names m (hq ▸ List.mem_cons_self)).ne_nil
    rw [joined_concat, entryRel, if_neg hne]
  rw [hname] at hjoin hmarker
  simp only [unpackMember, hjoin, hmarker, bind, Except.bind, mkdirAll_concat hparents hnew hlen, liftErrno,
    Except.mapError]
  rfl

theorem unpackMember_file {perm : ℕ} {body : Bytes} (hperm : perm < 0o1000) :
    unpackMember limit d (⟨joined (p ++ [n]), .reg, perm, body.length⟩, body) =
      .ok (Function.update d (p ++ [n]) (some (Node.entry (.file perm body)))) := by
  obtain ⟨hjoin, hmarker⟩ := hp.safeJoin (.inl rfl)
  rw [List.append_nil] at hjoin hmarker
  have hmode : perm % 2 ^ 32 = perm := Nat.mod_eq_of_lt (hperm.trans (by decide))
  have hperms : (if perm = 0 then 0o640 else perm) % 0o1000 = if perm = 0 then 0o640 else perm := by
    refine Nat.mod_eq_of_lt ?_
    split_ifs
    · decide
    · exact hperm
  simp only [unpackMember, hjoin, hmarker, bind, Except.bind, List.dropLast_concat, mkdirAll_eq hparents, liftErrno,
    Except.mapError, writeFile, hnew, if_neg (Nat.not_lt.mpr hlen), hmode, hperms, Node.entry]
  rfl

end

/-! ## Unpacking a tree -/

variable {t : Tree}

theorem Tree.node_append {r : List Bytes} (h : (t.node (p ++ r)).isSome) :
    (t.node p).isSome ∧ (r ≠ [] → ∃ perm names, t.node p = some (.dir perm names)) := by
  induction r using List.reverseRecOn with
  | nil => exact ⟨List.append_nil p ▸ h, fun hne => absurd rfl hne⟩
  | append_singleton r n ih =>
    rw [← List.append_assoc] at h
    obtain ⟨perm, names, hdir, -⟩ := (t.child _ _).mp h
    obtain ⟨hsome, hrest⟩ := ih (hdir ▸ rfl)
    refine ⟨hsome, fun _ => ?_⟩
    by_cases hr : r = []
    · rw [hr, List.append_nil] at hdir
      exact ⟨perm, names, hdir⟩
    · exact hrest hr

theorem Tree.validName {n : Bytes} (h : (t.node p).isSome) (hn : n ∈ p) : ValidName n := by
  obtain ⟨a, b, rfl⟩ := List.append_of_mem hn
  rw [← List.singleton_append, ← List.append_assoc] at h
  obtain ⟨perm, names, hdir, hmem⟩ := (t.child _ _).mp (Tree.node_append h).1
  exact t.valid _ _ _ hdir n hmem

theorem Tree.IsMember.valid (h : t.IsMember p) : ValidPath p := ⟨h.1, fun _ hn => Tree.validName h.2.1 hn, h.2.2⟩

theorem Tree.mem_names : n ∈ t.names p ↔ (t.node (p ++ [n])).isSome ∧ ¬ LeftOut p n := by
  rw [t.child]
  unfold Tree.names
  split
  · next perm names hdir =>
    simp only [hdir, List.mem_filter, List.mem_mergeSort, decide_eq_true_eq, Option.some.injEq, Node.dir.injEq]
    constructor
    · rintro ⟨hmem, hkept⟩
      exact ⟨⟨perm, names, ⟨rfl, rfl⟩, hmem⟩, hkept⟩
    · rintro ⟨⟨_, _, ⟨_, rfl⟩, hmem⟩, hkept⟩
      exact ⟨hmem, hkept⟩
  · next hdir =>
    constructor
    · intro h
      cases h
    · rintro ⟨⟨perm, names, h, _⟩, _⟩
      exact absurd h (hdir perm names)

theorem Tree.nodup_names : (t.names p).Nodup := by
  unfold Tree.names
  split
  · next perm names hdir => exact ((List.mergeSort_perm _ _).nodup_iff.mpr (t.nodup _ _ _ hdir)).filter _
  · exact List.nodup_nil

/-- The entries of a member, and of the root those that are not left out, are members. -/
theorem Tree.isMember_concat (hp : p = [] ∨ t.IsMember p) (hn : n ∈ t.names p) : t.IsMember (p ++ [n]) := by
  obtain ⟨hsome, hkept⟩ := Tree.mem_names.mp hn
  refine ⟨List.append_ne_nil_of_right_ne_nil _ (List.cons_ne_nil _ _), hsome, fun m hm => ?_⟩
  rcases hp with rfl | hp
  · cases hm
    exact fun h => hkept ⟨rfl, h⟩
  · obtain ⟨a, r, rfl⟩ := List.exists_cons_of_ne_nil hp.1
    exact hp.2.2 m hm

/-- Unpacking `ms` restores the tree at the paths of `S`, and nothing else. -/
def Restores (t : Tree) (limit : ℕ) (ms : List (Header × Bytes)) (d : Dest) (S : List Bytes → Prop) : Prop :=
  ∃ d', ms.foldlM (unpackMember limit) d = .ok d' ∧
    (∀ q, S q → d' q = (t.node q).map Node.entry) ∧ ∀ q, ¬ S q → d' q = d q

variable {S S' : List Bytes → Prop}

theorem Restores.append {ms' : List (Header × Bytes)} (h : Restores t limit ms d S)
    (h' : ∀ d', (∀ q, S q → d' q = (t.node q).map Node.entry) → (∀ q, ¬ S q → d' q = d q) →
      Restores t limit ms' d' S') : Restores t limit (ms ++ ms') d fun q => S q ∨ S' q := by
  obtain ⟨d1, h1, hin, hout⟩ := h
  obtain ⟨d2, h2, hin', hout'⟩ := h' d1 hin hout
  refine ⟨d2, ?_, fun q hq => ?_, fun q hq => ?_⟩
  · rw [List.foldlM_append, h1]
    exact h2
  · by_cases hq' : S' q
    · exact hin' q hq'
    · rw [hout' q hq', hin q (hq.resolve_right hq')]
  · rw [not_or] at hq
    rw [hout' q hq.2, hout q hq.1]

/-- Where nothing stands and the tree has nothing, nothing is to be restored. -/
theorem Restores.mono (h : Restores t limit ms d S) (hsub : ∀ q, S q → S' q)
    (hrest : ∀ q, S' q → ¬ S q → d q = (t.node q).map Node.entry) : Restores t limit ms d S' := by
  obtain ⟨d', hok, hin, hout⟩ := h
  refine ⟨d', hok, fun q hq => ?_, fun q hq => hout q fun h => hq (hsub q h)⟩
  by_cases hS : S q
  · exact hin q hS
  · rw [hout q hS, hrest q hq hS]

/-- A path and what is below it. -/
abbrev Below (p q : List Bytes) : Prop := p <+: q

theorem not_below_of_ne {m n : Bytes} (hne : m ≠ n) (h : Below (p ++ [m]) q) : ¬ Below (p ++ [n]) q := by
  rintro ⟨r, hr⟩
  obtain ⟨r', rfl⟩ := h
  rw [List.append_assoc, List.append_assoc] at hr
  exact hne (List.cons.inj (List.append_cancel_left hr)).1.symm

theorem not_below_of_above (h : q <+: p) : ¬ Below (p ++ [n]) q := by
  intro h'
  have := h'.length_le.trans h.length_le
  rw [List.length_append, List.length_singleton] at this
  omega

section

variable {dirMembers : List Bytes → List (Header × Bytes)} (hp : p = [] ∨ t.IsMember p) (hwithin : t.Within limit)
  (hdirs : ∀ {n perm names d}, t.IsMember (p ++ [n]) → t.node (p ++ [n]) = some (.dir perm names) →
    (∀ q, q <+: p ++ [n] → d q = some .dir) → (∀ q, Below (p ++ [n]) q → q ≠ p ++ [n] → d q = none) →
    Restores t limit (dirMembers (p ++ [n])) d fun q => Below (p ++ [n]) q ∧ q ≠ p ++ [n])

include hp hwithin hdirs

theorem Tree.restores_entryMembers (hn : n ∈ t.names p) (hparents : ∀ q, q <+: p → d q = some .dir)
    (hnew : ∀ q, Below (p ++ [n]) q → d q = none) :
    Restores t limit (t.entryMembers dirMembers p n) d (Below (p ++ [n])) := by
  have hmember := Tree.isMember_concat hp hn
  have hlen := hwithin.length _ hmember
  have hfresh := hnew _ List.prefix_rfl
  unfold Tree.entryMembers
  split
  · next perm body hfile =>
    refine ⟨Function.update d (p ++ [n]) (some (Node.entry (.file perm body))), ?_, fun q hq => ?_, fun q hq => ?_⟩
    · rw [List.foldlM_cons, unpackMember_file hmember.valid hparents hfresh hlen (t.perm_lt _ _ _ hfile)]
      rfl
    · obtain ⟨r, rfl⟩ := hq
      by_cases hr : r = []
      · rw [hr, List.append_nil, Function.update_self, hfile]
        rfl
      · -- a file has nothing below it
        have hnone : t.node (p ++ [n] ++ r) = none := by
          rw [← Option.not_isSome_iff_eq_none]
          intro hsome
          obtain ⟨_, _, hdir⟩ := (Tree.node_append hsome).2 hr
          rw [hfile] at hdir
          cases hdir
        rw [Function.update_of_ne (by simpa using hr), hnew _ (List.prefix_append _ _), hnone]
        rfl
    · refine Function.update_of_ne ?_ _ _
      rintro rfl
      exact hq List.prefix_rfl
  · next perm names hdir =>
    have hhead : Restores t limit [(⟨joined (p ++ [n]) ++ [slash], .dir, perm, 0⟩, [])] d (· = p ++ [n]) := by
      refine ⟨Function.update d (p ++ [n]) (some .dir), ?_, ?_, fun q hq => Function.update_of_ne hq _ _⟩
      · rw [List.foldlM_cons, unpackMember_dir hmember.valid hparents hfresh hlen]
        rfl
      · rintro q rfl
        rw [Function.update_self, hdir]
        rfl
    have hrest : ∀ d1, (∀ q, q = p ++ [n] → d1 q = (t.node q).map Node.entry) → (∀ q, q ≠ p ++ [n] → d1 q = d q) →
        Restores t limit (dirMembers (p ++ [n])) d1 fun q => Below (p ++ [n]) q ∧ q ≠ p ++ [n] := by
      intro d1 hin hout
      refine hdirs hmember hdir (fun q hq => ?_) fun q hq hne => ?_
      · rcases List.prefix_concat_iff.mp hq with rfl | hq
        · rw [hin _ rfl, hdir]
          rfl
        · have hne : q ≠ p ++ [n] := by
            rintro rfl
            exact not_below_of_above hq List.prefix_rfl
          rw [hout q hne, hparents q hq]
      · rw [hout q hne, hnew q hq]
    refine (hhead.append hrest).mono (fun q hq => ?_) fun q hq hnot => ?_
    · rcases hq with rfl | hq
      · exact List.prefix_rfl
      · exact hq.1
    · rw [not_or] at hnot
      exact absurd ⟨hq, hnot.1⟩ hnot.2
  · next hnone =>
    have := hmember.2.1
    rw [hnone] at this
    cases this

theorem Tree.restores_entries {names : List Bytes} (hnames : ∀ n ∈ names, n ∈ t.names p) (hnodup : names.Nodup)
    (hparents : ∀ q, q <+: p → d q = some .dir) (hnew : ∀ n ∈ names, ∀ q, Below (p ++ [n]) q → d q = none) :
    Restores t limit (names.flatMap (t.entryMembers dirMembers p)) d fun q => ∃ n ∈ names, Below (p ++ [n]) q := by
  induction names generalizing d with
  | nil =>
    refine ⟨d, rfl, fun q hq => ?_, fun q _ => rfl⟩
    obtain ⟨n, hn, -⟩ := hq
    cases hn
  | cons n names ih =>
    obtain ⟨hnot, hnodup⟩ := List.nodup_cons.mp hnodup
    have hhead := Tree.restores_entryMembers hp hwithin hdirs (hnames n List.mem_cons_self) hparents
      (hnew n List.mem_cons_self)
    have hrest : ∀ d1, (∀ q, Below (p ++ [n]) q → d1 q = (t.node q).map Node.entry) →
        (∀ q, ¬ Below (p ++ [n]) q → d1 q = d q) →
        Restores t limit (names.flatMap (t.entryMembers dirMembers p)) d1 fun q => ∃ n ∈ names, Below (p ++ [n]) q := by
      intro d1 _ hout
      refine ih (fun m hm => hnames m (List.mem_cons_of_mem _ hm)) hnodup (fun q hq => ?_) fun m hm q hq => ?_
      · rw [hout q (not_below_of_above hq), hparents q hq]
      · have hne : m ≠ n := fun h => hnot (h ▸ hm)
        rw [hout q (not_below_of_ne hne hq), hnew m (List.mem_cons_of_mem _ hm) q hq]
    refine (hhead.append hrest).mono (fun q hq => ?_) fun q hq hnot => ?_
    · rcases hq with hq | ⟨m, hm, hq⟩
      · exact ⟨n, List.mem_cons_self, hq⟩
      · exact ⟨m, List.mem_cons_of_mem _ hm, hq⟩
    · obtain ⟨m, hm, hq⟩ := hq
      rw [not_or] at hnot
      rcases List.mem_cons.mp hm with rfl | hm
      · exact absurd hq hnot.1
      · exact absurd ⟨m, hm, hq⟩ hnot.2

end

/-- What the members below a directory restore. -/
theorem Tree.restores_dirMembers (hwithin : t.Within limit) {room : ℕ} (hroom : p.length + room = maxPackDepth + 1)
    (hp : p = [] ∨ t.IsMember p) (hdir : ∃ perm names, t.node p = some (.dir perm names))
    (hparents : ∀ q, q <+: p → d q = some .dir) (hnew : ∀ q, Below p q → q ≠ p → d q = none) :
    Restores t limit (t.dirMembers room p) d fun q => ∃ n ∈ t.names p, Below (p ++ [n]) q := by
  induction room generalizing p d with
  | zero =>
    -- a directory as deep as this would be too deep
    exfalso
    obtain ⟨perm, names, hdir⟩ := hdir
    rcases hp with rfl | hp
    · rw [List.length_nil] at hroom
      cases hroom
    · have := hwithin.depth p perm names hp hdir
      omega
  | succ room ih =>
    rw [Tree.dirMembers]
    refine Tree.restores_entries hp hwithin (fun {n perm names d} hmember hchild hparents hnew => ?_) (fun _ h => h)
      Tree.nodup_names hparents fun n hn q hq => hnew q ((List.prefix_append _ _).trans hq) ?_
    · have hroom' : (p ++ [n]).length + room = maxPackDepth + 1 := by
        rw [List.length_append, List.length_singleton]
        omega
      refine (ih hroom' (.inr hmember) ⟨perm, names, hchild⟩ hparents hnew).mono (fun q hq => ?_) fun q hq hnot => ?_
      · obtain ⟨m, hm, hq⟩ := hq
        exact ⟨(List.prefix_append _ _).trans hq, fun h => not_below_of_above (h ▸ List.prefix_rfl) hq⟩
      · -- what is below a directory is below one of its entries
        obtain ⟨⟨r, rfl⟩, hne⟩ := hq
        have hr : r ≠ [] := fun h => hne (by rw [h, List.append_nil])
        obtain ⟨m, r, rfl⟩ := List.exists_cons_of_ne_nil hr
        have hnone : t.node (p ++ [n] ++ m :: r) = none := by
          rw [← Option.not_isSome_iff_eq_none]
          intro hsome
          rw [List.append_cons (p ++ [n])] at hsome
          exact hnot ⟨m, Tree.mem_names.mpr ⟨(Tree.node_append hsome).1, fun h => hmember.1 h.1⟩,
            List.append_cons (p ++ [n]) m r ▸ List.prefix_append _ _⟩
        rw [hnone, hnew _ (List.prefix_append _ _) hne]
        rfl
    · rintro rfl
      exact not_below_of_above List.prefix_rfl hq

/-- **The archive of a tree is unpacked to the tree.** -/
theorem unpackTar_members {root : Bytes} (hwithin : t.Within (pathLimit root)) (hms : ∀ m ∈ t.members, Fits c m) :
    unpackTar c root (blocks c t.members ++ zeros (2 * blocksize)) = .ok t.restored := by
  have hroot : ∀ q, q <+: [] → emptyDest q = some .dir := by
    intro q hq
    rw [List.prefix_nil.mp hq]
    rfl
  have hnew : ∀ q, Below [] q → q ≠ [] → emptyDest q = none := fun q _ hne => if_neg hne
  obtain ⟨d, hok, hin, hout⟩ := Tree.restores_dirMembers hwithin (Nat.zero_add _) (.inl rfl) t.root hroot hnew
  rw [unpackTar_blocks hms, Tree.members, hok]
  congr 1
  funext q
  cases q with
  | nil =>
    rw [hout [] (fun ⟨n, _, hn⟩ => not_below_of_above List.prefix_rfl hn)]
    rfl
  | cons n q =>
    rw [Tree.restored]
    by_cases hn : n ∈ t.names []
    · have hkept : ¬ generationMarkerFile <+: n := fun h => (Tree.mem_names.mp hn).2 ⟨rfl, h⟩
      rw [hin (n :: q) ⟨n, hn, List.prefix_append [n] q⟩, if_neg hkept]
    · have hnot : ¬ ∃ m ∈ t.names [], Below ([] ++ [m]) (n :: q) := by
        rintro ⟨m, hm, r, hr⟩
        cases hr
        exact hn hm
      rw [hout _ hnot, emptyDest, if_neg (List.cons_ne_nil _ _)]
      split_ifs with hmarker
      · rfl
      · have hnone : t.node (n :: q) = none := by
          rw [← Option.not_isSome_iff_eq_none]
          intro hsome
          rw [← List.singleton_append] at hsome
          exact hn (Tree.mem_names.mpr ⟨(Tree.node_append hsome).1, fun h => hmarker h.2⟩)
        rw [hnone]
        rfl

end McServerDashboard.Worker.Archive
