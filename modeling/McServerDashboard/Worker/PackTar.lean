import Mathlib.Data.List.Infix
import McServerDashboard.Lib.Archive
import McServerDashboard.Storage.RelPath

/-!
# The walk of a snapshot

`packTar` writes the entries of a working set into a tar archive while the server may change them: what a listing
names may be gone, be something else or have another size when it is opened.

* `Os`: the system calls of the walk. Each may return anything, whatever was returned before.
* `packTar`: with `walkInto`, `packDir`, `packRegular` and `writeRegular`.
* `ReadFrom`: the body is what was read from a file, and zeros.
* **`packTar_members`**: the archive is the blocks of members that fit, each body read from a file.
-/

namespace McServerDashboard.Worker.Archive

open Lib.Tar Lib.Archive

inductive Typeflag
  | reg
  | dir
  | symlink
  | link
  /-- A device or a fifo. -/
  | special
  | other
  deriving DecidableEq

/-- Of `tar.Header` what the worker sets and reads. -/
structure Header where
  name : Bytes
  typeflag : Typeflag
  mode : ℕ
  size : ℕ
  deriving DecidableEq

/-- The size of the body: some members are only a header. -/
def Header.bodySize (h : Header) : ℕ :=
  match h.typeflag with
  | .reg | .other => h.size
  | _ => 0

/-! ## System calls -/

inductive Errno
  | noent
  | notdir
  | isdir
  | loop
  | nxio
  | nametoolong
  | other (n : ℕ)
  deriving DecidableEq

/-- `Mode & S_IFMT`. -/
inductive Kind
  | reg
  | dir
  | other
  deriving DecidableEq

structure Stat where
  kind : Kind
  /-- `Mode & 0o777`. -/
  perm : ℕ
  size : ℕ

/-- `packOpenDirFlags` and `packOpenFileFlags`. -/
inductive Flags
  | dir
  | file

/-- The calls of the walk, on states `σ` of the system. -/
structure Os (σ Fd : Type*) where
  openRoot : σ → σ × Except Errno Fd
  readdirnames : Fd → σ → σ × Except Errno (List Bytes)
  statAt : Fd → Bytes → σ → σ × Except Errno Kind
  openAt : Fd → Bytes → Flags → σ → σ × Except Errno Fd
  fstat : Fd → σ → σ × Except Errno Stat
  read : Fd → ℕ → σ → σ × Except Errno Bytes

/-- A call and what it returned. -/
inductive Call (Fd : Type*)
  | openRoot (r : Except Errno Fd)
  | readdirnames (fd : Fd) (r : Except Errno (List Bytes))
  | statAt (fd : Fd) (name : Bytes) (r : Except Errno Kind)
  | openAt (fd : Fd) (name : Bytes) (flags : Flags) (r : Except Errno Fd)
  | fstat (fd : Fd) (r : Except Errno Stat)
  | read (fd : Fd) (n : ℕ) (r : Except Errno Bytes)

/-- The system, the calls so far (a ghost) and the archive. -/
structure Walk (σ Fd : Type*) where
  os : σ
  calls : List (Call Fd)
  tw : Writer

/-- Why a snapshot fails. -/
inductive PackError
  | pathError (op : String) (path : Bytes) (err : Errno)
  | notDirectory
  | tooDeep (rel : Bytes)
  | read (err : Errno)
  | tar (err : Lib.Archive.Error)

variable {σ Fd : Type*} {α : Type*} (c : Codec Header Header.bodySize) (os : Os σ Fd) (maxRel : ℕ)

namespace Walk

variable (s : Walk σ Fd)

def call (f : σ → σ × α) (log : α → Call Fd) : Walk σ Fd × α :=
  ({ s with os := (f s.os).1, calls := s.calls ++ [log (f s.os).2] }, (f s.os).2)

def writeHeader (h : Header) : Except PackError (Walk σ Fd) :=
  match s.tw.writeHeader c h with
  | .ok tw => .ok { s with tw := tw }
  | .error e => .error (.tar e)

def write (d : Bytes) : Except PackError (Walk σ Fd) :=
  match s.tw.write d with
  | .ok tw => .ok { s with tw := tw }
  | .error e => .error (.tar e)

/-- The archive, and the calls. -/
def close : Except PackError (Bytes × List (Call Fd)) :=
  match s.tw.close with
  | .ok out => .ok (out, s.calls)
  | .error e => .error (.tar e)

end Walk

/-! ## Packing -/

/-- The buffer of `io.Copy`. -/
def copyBuffer : ℕ := 32768

/-- `io.Copy` behind an `io.LimitedReader`: what is left of the limit `n`. A read that is not the last one lowers it,
so that fuel `n` is enough. -/
def copy (fd : Fd) : ℕ → ℕ → Walk σ Fd → Except PackError (Walk σ Fd × ℕ)
  | 0, n, s => .ok (s, n)
  | fuel + 1, n, s =>
    if n = 0 then .ok (s, n)
    else
      match s.call (os.read fd (min n copyBuffer)) (.read fd (min n copyBuffer)) with
      | (_, .error e) => .error (.read e)
      | (s, .ok bs) =>
        if bs = [] then .ok (s, n)
        else do
          let s ← s.write bs
          copy fd fuel (n - bs.length) s

def writeRegular (rel : Bytes) (fd : Fd) (size mode : ℕ) (s : Walk σ Fd) : Except PackError (Walk σ Fd) := do
  let s ← s.writeHeader c ⟨rel, .reg, mode, size⟩
  let (s, remaining) ← copy os fd size size s
  if 0 < remaining then s.write (zeros remaining)
  -- the peek that tells whether the file has grown
  else return (s.call (os.read fd 1) (.read fd 1)).1

def packRegular (dirFd : Fd) (name rel : Bytes) (s : Walk σ Fd) : Except PackError (Walk σ Fd) :=
  match s.call (os.openAt dirFd name .file) (.openAt dirFd name .file) with
  | (s, .error e) =>
    if e = .noent ∨ e = .loop ∨ e = .nxio then .ok s else .error (.pathError "open" rel e)
  | (s, .ok fd) =>
    match s.call (os.fstat fd) (.fstat fd) with
    | (_, .error e) => .error (.pathError "stat" rel e)
    | (s, .ok st) => if st.kind ≠ .reg then .ok s else writeRegular c os rel fd st.size st.perm s

/-- The prefix of the worker's own entries of the root. -/
def generationMarkerFile : Bytes := ascii ".mcsd_generation"

def slash : UInt8 := 47

def entryRel (rel name : Bytes) : Bytes := if rel = [] then name else rel ++ slash :: name

section

variable (packDir : Fd → Bytes → Bytes → Walk σ Fd → Except PackError (Walk σ Fd)) (dirFd : Fd) (rel : Bytes)

/-- An entry that a directory lists. -/
def walkEntry (s : Walk σ Fd) (name : Bytes) : Except PackError (Walk σ Fd) :=
  if rel = [] ∧ generationMarkerFile <+: name then .ok s
  else if maxRel < (entryRel rel name).length then .error (.pathError "stat" (entryRel rel name) .nametoolong)
  else
    match s.call (os.statAt dirFd name) (.statAt dirFd name) with
    | (s, .error e) => if e = .noent then .ok s else .error (.pathError "stat" (entryRel rel name) e)
    | (s, .ok .dir) => packDir dirFd name (entryRel rel name) s
    | (s, .ok .reg) => packRegular c os dirFd name (entryRel rel name) s
    | (s, .ok .other) => .ok s

/-- `walkInto`, given what archives a directory one level below. -/
def walkInto (s : Walk σ Fd) : Except PackError (Walk σ Fd) :=
  match s.call (os.readdirnames dirFd) (.readdirnames dirFd) with
  | (_, .error e) => .error (.pathError "readdir" rel e)
  | (s, .ok names) => (names.mergeSort (· ≤ ·)).foldlM (walkEntry c os maxRel packDir dirFd rel) s

end

/-- `packDir`, at a directory with `room` levels left down to `maxPackDepth`, its own included. -/
def packDir : ℕ → Fd → Bytes → Bytes → Walk σ Fd → Except PackError (Walk σ Fd)
  | 0, _, _, rel, _ => .error (.tooDeep rel)
  | room + 1, parentFd, name, rel, s =>
    match s.call (os.openAt parentFd name .dir) (.openAt parentFd name .dir) with
    | (s, .error e) =>
      if e = .noent ∨ e = .notdir ∨ e = .loop then .ok s else .error (.pathError "open" rel e)
    | (s, .ok fd) =>
      match s.call (os.fstat fd) (.fstat fd) with
      | (_, .error e) => .error (.pathError "stat" rel e)
      | (s, .ok st) => do
        let s ← s.writeHeader c ⟨rel ++ [slash], .dir, st.perm, 0⟩
        walkInto c os maxRel (packDir room) fd rel s

def maxPackDepth : ℕ := 128

def pathMax : ℕ := 4096

/-- The longest path below the directory `root` that can be resolved by name. -/
def pathLimit (root : Bytes) : ℕ := pathMax - 1 - root.length - 1

/-- The archive of the working set whose root has the name `root`, and the calls. -/
def packTar (root : Bytes) (s : σ) : Except PackError (Bytes × List (Call Fd)) :=
  match (Walk.mk s [] .new).call os.openRoot .openRoot with
  | (s, .error .noent) => s.close
  | (_, .error .notdir) => .error .notDirectory
  | (_, .error e) => .error (.pathError "open" root e)
  | (s, .ok fd) =>
    (walkInto c os (pathLimit root) (packDir c os (pathLimit root) maxPackDepth) fd [] s).bind Walk.close

/-! ## What an archive holds -/

variable {c os maxRel} {s s' : Walk σ Fd} {ms : List (Header × Bytes)} {m : Header × Bytes}

def Call.reads (fd : Fd) (chunks : List (ℕ × Bytes)) : List (Call Fd) := chunks.map fun x => .read fd x.1 (.ok x.2)

/-- The body of a regular member: what was read from a file that was opened under its name, and zeros up to the size
that `Fstat` reported. -/
def ReadFrom (calls : List (Call Fd)) (m : Header × Bytes) : Prop :=
  ∃ dirFd rel name fd st chunks n, m.1.name = entryRel rel name ∧ st.kind = .reg ∧ st.size = m.1.size ∧
    m.2 = (chunks.map Prod.snd).flatten ++ zeros n ∧
    .openAt dirFd name .file (.ok fd) :: .fstat fd (.ok st) :: Call.reads fd chunks <:+: calls

/-- A regular member, or a directory. -/
def Kept (calls : List (Call Fd)) (m : Header × Bytes) : Prop :=
  m.1.typeflag = .reg ∧ ReadFrom calls m ∨ m.1.typeflag = .dir ∧ m.2 = []

/-- The archive so far. -/
structure Packed (c : Codec Header Header.bodySize) (s : Walk σ Fd) (ms : List (Header × Bytes)) : Prop where
  settled : Settled c s.tw ms
  kept : ∀ m ∈ ms, Kept s.calls m

theorem Kept.append {calls : List (Call Fd)} (hm : Kept calls m) (more : List (Call Fd)) : Kept (calls ++ more) m :=
  hm.imp_left fun ⟨hreg, dirFd, rel, name, fd, st, chunks, n, hname, hkind, hsize, hbody, hin⟩ =>
    ⟨hreg, dirFd, rel, name, fd, st, chunks, n, hname, hkind, hsize, hbody, hin.trans (List.prefix_append _ _).isInfix⟩

section

variable {f : σ → σ × α} {log : α → Call Fd} {r : α} (hcall : s.call f log = (s', r))

include hcall

theorem Walk.tw_call : s'.tw = s.tw := by
  cases hcall
  rfl

theorem Walk.calls_call : s'.calls = s.calls ++ [log r] := by
  cases hcall
  rfl

theorem Packed.call (hs : Packed c s ms) : Packed c s' ms := by
  cases hcall
  exact ⟨hs.settled, fun m hm => (hs.kept m hm).append _⟩

end

theorem Writing.writeHeader {h : Header} (hs : Settled c s.tw ms) (hok : s.writeHeader c h = .ok s') :
    Writing c s'.tw ms h [] ∧ s'.calls = s.calls := by
  unfold Walk.writeHeader at hok
  split at hok
  · next tw htw =>
    cases hok
    exact ⟨hs.writeHeader htw, rfl⟩
  · cases hok

theorem Writing.walk {h : Header} {body d : Bytes} (hs : Writing c s.tw ms h body) (hok : s.write d = .ok s') :
    Writing c s'.tw ms h (body ++ d) ∧ s'.calls = s.calls ∧ s'.tw.left + d.length = s.tw.left := by
  unfold Walk.write at hok
  split at hok
  · next tw htw =>
    cases hok
    have hnext := hs.write htw
    have h1 := hs.left
    have h2 := hnext.left
    rw [List.length_append] at h2
    exact ⟨hnext, rfl, by simp only; omega⟩
  · cases hok

/-- What is copied stands in the archive, and what is left of the limit is what the member still lacks. -/
theorem Writing.copy {h : Header} {fd : Fd} {fuel n k : ℕ} {calls : List (Call Fd)} {chunks : List (ℕ × Bytes)}
    (hs : Writing c s.tw ms h (chunks.map Prod.snd).flatten) (hcalls : s.calls = calls ++ Call.reads fd chunks)
    (hn : n = s.tw.left) (hok : copy os fd fuel n s = .ok (s', k)) :
    ∃ chunks', Writing c s'.tw ms h (chunks'.map Prod.snd).flatten ∧ s'.calls = calls ++ Call.reads fd chunks' ∧
      k = s'.tw.left := by
  induction fuel generalizing n s chunks with
  | zero =>
    cases hok
    exact ⟨chunks, hs, hcalls, hn⟩
  | succ fuel ih =>
    unfold Archive.copy at hok
    split_ifs at hok with hzero
    · cases hok
      exact ⟨chunks, hs, hcalls, hn⟩
    · split at hok
      · cases hok
      · next s1 bs hcall =>
        have hcalls1 : s1.calls = calls ++ Call.reads fd (chunks ++ [(min n copyBuffer, bs)]) := by
          rw [Walk.calls_call hcall, hcalls, List.append_assoc, Call.reads, Call.reads, List.map_append]
          rfl
        have hchunks : ((chunks ++ [(min n copyBuffer, bs)]).map Prod.snd).flatten =
            (chunks.map Prod.snd).flatten ++ bs := by
          rw [List.map_append, List.flatten_append, List.map_singleton, List.flatten_singleton]
        rw [← Walk.tw_call hcall] at hs hn
        split_ifs at hok with hempty
        · cases hok
          refine ⟨_, ?_, hcalls1, hn⟩
          rw [hchunks, hempty, List.append_nil]
          exact hs
        · obtain ⟨s2, h2, hok⟩ := Lib.ok_of_bind hok
          obtain ⟨hwriting, hcalls2, hleft⟩ := Writing.walk hs h2
          refine ih (hchunks ▸ hwriting) (hcalls2.trans hcalls1) ?_ hok
          omega

variable {rel name : Bytes} {dirFd fd : Fd}

/-- The member of a file that is open. -/
theorem Packed.writeRegular {st : Stat} {calls : List (Call Fd)} (hs : Packed c s ms)
    (hcalls : s.calls = calls ++ [.openAt dirFd name .file (.ok fd), .fstat fd (.ok st)]) (hkind : st.kind = .reg)
    (hok : writeRegular c os (entryRel rel name) fd st.size st.perm s = .ok s') : ∃ ms', Packed c s' ms' := by
  unfold Archive.writeRegular at hok
  obtain ⟨s1, h1, hok⟩ := Lib.ok_of_bind hok
  obtain ⟨⟨s2, k⟩, h2, hok⟩ := Lib.ok_of_bind hok
  obtain ⟨hwriting, hcalls1⟩ := Writing.writeHeader hs.settled h1
  have hsize : st.size = s1.tw.left := by
    have := hwriting.left
    rw [List.length_nil, Nat.add_zero] at this
    exact this.symm
  have hnone : s1.calls = s1.calls ++ Call.reads fd [] := (List.append_nil _).symm
  obtain ⟨chunks, hcopied, hcalls2, hk⟩ := Writing.copy hwriting hnone hsize h2
  have hin : .openAt dirFd name .file (.ok fd) :: .fstat fd (.ok st) :: Call.reads fd chunks <:+: s2.calls := by
    rw [hcalls2, hcalls1, hcalls, List.append_assoc]
    exact (List.suffix_append _ _).isInfix
  -- the member is whole once nothing is left of it
  have hwhole : ∀ {s' : Walk σ Fd} {n : ℕ}, Writing c s'.tw ms ⟨entryRel rel name, .reg, st.perm, st.size⟩
      ((chunks.map Prod.snd).flatten ++ zeros n) → s'.tw.left = 0 → s2.calls <+: s'.calls → ∃ ms', Packed c s' ms' := by
    intro s' n hw hleft hpre
    refine ⟨_, hw.settled hleft, fun m hm => ?_⟩
    rcases List.mem_append.mp hm with hm | hm
    · have hs1 : s.calls <+: s'.calls := (hcalls1 ▸ hcalls2 ▸ List.prefix_append _ _ : s.calls <+: s2.calls).trans hpre
      obtain ⟨more, hmore⟩ := hs1
      exact hmore ▸ (hs.kept m hm).append more
    · obtain rfl := List.mem_singleton.mp hm
      exact .inl ⟨rfl, dirFd, rel, name, fd, st, chunks, n, rfl, hkind, rfl, rfl, hin.trans hpre.isInfix⟩
  simp only at hok
  split_ifs at hok with hpos
  · obtain ⟨hpadded, hcalls3, hleft⟩ := Writing.walk hcopied hok
    rw [length_zeros] at hleft
    exact hwhole hpadded (by omega) (hcalls3 ▸ List.prefix_rfl)
  · cases hok
    refine hwhole (n := 0) ?_ (by change s2.tw.left = 0; omega) (List.prefix_append _ _)
    rw [show zeros 0 = [] from rfl, List.append_nil]
    exact hcopied

theorem Packed.packRegular (hs : Packed c s ms)
    (hok : packRegular c os dirFd name (entryRel rel name) s = .ok s') : ∃ ms', Packed c s' ms' := by
  unfold Archive.packRegular at hok
  split at hok
  · next s1 e hopen =>
    split_ifs at hok
    cases hok
    exact ⟨ms, hs.call hopen⟩
  · next s1 fd hopen =>
    split at hok
    · cases hok
    · next s2 st hstat =>
      split_ifs at hok with hkind
      · cases hok
        exact ⟨ms, (hs.call hopen).call hstat⟩
      · have hcalls : s2.calls = s.calls ++ [.openAt dirFd name .file (.ok fd), .fstat fd (.ok st)] := by
          rw [Walk.calls_call hstat, Walk.calls_call hopen, List.append_assoc]
          rfl
        exact ((hs.call hopen).call hstat).writeRegular hcalls (not_not.mp hkind) hok

section

variable {packDir : Fd → Bytes → Bytes → Walk σ Fd → Except PackError (Walk σ Fd)}
  (hdir : ∀ {s s' : Walk σ Fd} {ms dirFd name rel}, Packed c s ms → packDir dirFd name rel s = .ok s' →
    ∃ ms', Packed c s' ms')

include hdir

theorem Packed.walkEntry (hs : Packed c s ms) (hok : walkEntry c os maxRel packDir dirFd rel s name = .ok s') :
    ∃ ms', Packed c s' ms' := by
  unfold Archive.walkEntry at hok
  split_ifs at hok with hmarker hlong
  · cases hok
    exact ⟨ms, hs⟩
  · split at hok
    · next s1 e hstat =>
      split_ifs at hok
      cases hok
      exact ⟨ms, hs.call hstat⟩
    · next s1 hstat => exact hdir (hs.call hstat) hok
    · next s1 hstat => exact (hs.call hstat).packRegular hok
    · next s1 hstat =>
      cases hok
      exact ⟨ms, hs.call hstat⟩

theorem Packed.walkEntries {names : List Bytes} (hs : Packed c s ms)
    (hok : names.foldlM (Archive.walkEntry c os maxRel packDir dirFd rel) s = .ok s') : ∃ ms', Packed c s' ms' := by
  induction names generalizing s ms with
  | nil =>
    cases hok
    exact ⟨ms, hs⟩
  | cons name names ih =>
    rw [List.foldlM_cons] at hok
    obtain ⟨s1, h1, hok⟩ := Lib.ok_of_bind hok
    obtain ⟨ms1, hs1⟩ := hs.walkEntry hdir h1
    exact ih hs1 hok

theorem Packed.walkInto (hs : Packed c s ms) (hok : walkInto c os maxRel packDir dirFd rel s = .ok s') :
    ∃ ms', Packed c s' ms' := by
  unfold Archive.walkInto at hok
  split at hok
  · cases hok
  · next s1 names hlist => exact (hs.call hlist).walkEntries hdir hok

end

theorem Packed.packDir {room : ℕ} (hs : Packed c s ms) (hok : packDir c os maxRel room dirFd name rel s = .ok s') :
    ∃ ms', Packed c s' ms' := by
  induction room generalizing s ms s' dirFd name rel with
  | zero => cases hok
  | succ room ih =>
    unfold Archive.packDir at hok
    split at hok
    · next s1 e hopen =>
      split_ifs at hok
      cases hok
      exact ⟨ms, hs.call hopen⟩
    · next s1 fd hopen =>
      split at hok
      · cases hok
      · next s2 st hstat =>
        obtain ⟨s3, h3, hok⟩ := Lib.ok_of_bind hok
        have hs2 := (hs.call hopen).call hstat
        obtain ⟨hwriting, hcalls⟩ := Writing.writeHeader hs2.settled h3
        have hleft : s3.tw.left = 0 := by
          have := hwriting.left
          rwa [List.length_nil, Nat.add_zero] at this
        have hs3 : Packed c s3 (ms ++ [(⟨rel ++ [slash], .dir, st.perm, 0⟩, [])]) := by
          refine ⟨hwriting.settled hleft, fun m hm => ?_⟩
          rcases List.mem_append.mp hm with hm | hm
          · exact hcalls ▸ hs2.kept m hm
          · obtain rfl := List.mem_singleton.mp hm
            exact .inr ⟨rfl, rfl⟩
        exact hs3.walkInto ih hok

theorem Packed.close {out : Bytes} {calls : List (Call Fd)} (hs : Packed c s ms) (hok : s.close = .ok (out, calls)) :
    ∃ ms, out = blocks c ms ++ zeros (2 * blocksize) ∧ (∀ m ∈ ms, Fits c m) ∧ ∀ m ∈ ms, Kept calls m := by
  unfold Walk.close at hok
  split at hok
  · next out' hout =>
    cases hok
    exact ⟨ms, hs.settled.close hout, hs.settled.fits, hs.kept⟩
  · cases hok

/-- **Whatever happens to the tree, an archive is the blocks of its members**: each body is as long as its header says
and was read from the file. -/
theorem packTar_members {root out : Bytes} {s : σ} {calls : List (Call Fd)} (hok : packTar c os root s = .ok (out, calls)) :
    ∃ ms, out = blocks c ms ++ zeros (2 * blocksize) ∧ (∀ m ∈ ms, Fits c m) ∧ ∀ m ∈ ms, Kept calls m := by
  have hnew : Packed c (Walk.mk s [] .new : Walk σ Fd) [] := ⟨settled_new, fun m hm => by cases hm⟩
  unfold packTar at hok
  split at hok
  · next s1 hopen => exact (hnew.call hopen).close hok
  · cases hok
  · cases hok
  · next s1 fd hopen =>
    obtain ⟨s2, h2, hok⟩ := Lib.ok_of_bind (x := walkInto c os _ _ fd [] s1) hok
    obtain ⟨ms, hs⟩ := (hnew.call hopen).walkInto Packed.packDir h2
    exact hs.close hok

end McServerDashboard.Worker.Archive
