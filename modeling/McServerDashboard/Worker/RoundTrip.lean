import McServerDashboard.Worker.UnpackTar

/-!
# Snapshots of trees that do not change

* `Shows`: the system calls show a tree. The order of a listing and the length of a read are left open.
* `Emits`: the walk writes these members, or fails where the archive refuses them.
* **`unpackTar_packTar`**: the tree comes back as it was, but for the worker's own entries.
* `ustar`: headers that fit one block.
-/

namespace McServerDashboard.Worker.Archive

open Lib.Tar Lib.Archive

def Node.kind : Node → Kind
  | .file _ _ => .reg
  | .dir _ _ => .dir

def Node.flags : Node → Flags
  | .file _ _ => .file
  | .dir _ _ => .dir

def Node.perm : Node → ℕ
  | .file perm _ | .dir perm _ => perm

/-- What `Fstat` reports; the size only matters for a file. -/
structure Node.Reports (x : Node) (st : Stat) : Prop where
  kind : st.kind = x.kind
  perm : st.perm = x.perm
  size : ∀ perm body, x = .file perm body → st.size = body.length

variable {σ Fd : Type*}

/-- A new descriptor on `p`, and no change to the others. -/
structure Opens (o o' : Fd → Option (List Bytes × ℕ)) (fd : Fd) (p : List Bytes) : Prop where
  new : o fd = none
  self : o' fd = some (p, 0)
  other : ∀ fd', fd' ≠ fd → o' fd' = o fd'

/-- The calls show the tree. -/
structure Shows (os : Os σ Fd) (t : Tree) where
  /-- What the open descriptors are on, and how many bytes have been read. -/
  opened : σ → Fd → Option (List Bytes × ℕ)
  openRoot : ∀ s, ∃ s' fd, os.openRoot s = (s', .ok fd) ∧ Opens (opened s) (opened s') fd []
  readdirnames : ∀ {s fd p perm names}, opened s fd = some (p, 0) → t.node p = some (.dir perm names) →
    ∃ s' l, os.readdirnames fd s = (s', .ok l) ∧ l.Perm names ∧ opened s' = opened s
  statAt : ∀ {s fd p n x}, opened s fd = some (p, 0) → t.node (p ++ [n]) = some x →
    ∃ s', os.statAt fd n s = (s', .ok x.kind) ∧ opened s' = opened s
  openAt : ∀ {s fd p n x}, opened s fd = some (p, 0) → t.node (p ++ [n]) = some x →
    ∃ s' fd', os.openAt fd n x.flags s = (s', .ok fd') ∧ Opens (opened s) (opened s') fd' (p ++ [n])
  fstat : ∀ {s fd p x}, opened s fd = some (p, 0) → t.node p = some x →
    ∃ s' st, os.fstat fd s = (s', .ok st) ∧ x.Reports st ∧ opened s' = opened s
  read : ∀ {s fd p k perm body} n, opened s fd = some (p, k) → t.node p = some (.file perm body) →
    ∃ s' bs, os.read fd n s = (s', .ok bs) ∧ bs <+: body.drop k ∧ bs.length ≤ n ∧
      (bs = [] → n = 0 ∨ body.length ≤ k) ∧ opened s' fd = some (p, k + bs.length) ∧
      ∀ fd', fd' ≠ fd → opened s' fd' = opened s fd'

/-- What is open stays open. -/
def Keeps (o o' : Fd → Option (List Bytes × ℕ)) : Prop := ∀ fd x, o fd = some x → o' fd = some x

variable {c : Codec Header Header.bodySize} {os : Os σ Fd} {t : Tree} {maxRel : ℕ} {s : Walk σ Fd}
  {p : List Bytes} {n : Bytes} {fd dirFd : Fd} {ms : List (Header × Bytes)} {o o' : Fd → Option (List Bytes × ℕ)}

theorem keeps_of_eq (h : o' = o) : Keeps o o' := by
  rintro fd x hx
  rw [h, hx]

theorem Keeps.trans {o'' : Fd → Option (List Bytes × ℕ)} (h : Keeps o o') (h' : Keeps o' o'') : Keeps o o'' :=
  fun fd x hx => h' fd x (h fd x hx)

/-- What happens to a new descriptor does not matter to the others. -/
theorem Opens.keeps {o'' : Fd → Option (List Bytes × ℕ)} (h : Opens o o' fd p)
    (hother : ∀ fd', fd' ≠ fd → o'' fd' = o' fd') : Keeps o o'' := by
  intro fd' x hx
  have hne : fd' ≠ fd := by
    rintro rfl
    rw [h.new] at hx
    cases hx
  rw [hother fd' hne, h.other fd' hne, hx]

/-- The walk from `s` writes `ms`, or it fails where the archive refuses them. -/
def Emits (sh : Shows os t) (c : Codec Header Header.bodySize) (s : Walk σ Fd) (x : Except PackError (Walk σ Fd))
    (ms : List (Header × Bytes)) : Prop :=
  match s.tw.writeAll c ms with
  | .ok tw => ∃ s', x = .ok s' ∧ s'.tw = tw ∧ Keeps (sh.opened s.os) (sh.opened s'.os)
  | .error _ => ∃ e, x = .error e

variable {sh : Shows os t}

theorem Emits.nil {s' : Walk σ Fd} (htw : s'.tw = s.tw) (h : Keeps (sh.opened s.os) (sh.opened s'.os)) :
    Emits sh c s (.ok s') [] := ⟨s', rfl, htw, h⟩

theorem Emits.bind {x : Except PackError (Walk σ Fd)} {f : Walk σ Fd → Except PackError (Walk σ Fd)}
    {ms' : List (Header × Bytes)} (h : Emits sh c s x ms)
    (h' : ∀ s', Keeps (sh.opened s.os) (sh.opened s'.os) → Emits sh c s' (f s') ms') :
    Emits sh c s (x.bind f) (ms ++ ms') := by
  unfold Emits at h ⊢
  rw [Writer.writeAll_append]
  cases hms : s.tw.writeAll c ms with
  | error e =>
    rw [hms] at h
    obtain ⟨e', rfl⟩ := h
    exact ⟨e', rfl⟩
  | ok tw =>
    rw [hms] at h
    obtain ⟨s', rfl, rfl, hkeeps⟩ := h
    have hnext := h' s' hkeeps
    unfold Emits at hnext
    change match s'.tw.writeAll c ms' with | .ok tw => _ | .error _ => _
    cases hms' : s'.tw.writeAll c ms' with
    | error e =>
      rw [hms'] at hnext
      exact hnext
    | ok tw =>
      rw [hms'] at hnext
      obtain ⟨s'', hok, htw, hkeeps'⟩ := hnext
      exact ⟨s'', hok, htw, hkeeps.trans hkeeps'⟩

/-- Calls that write nothing may come before. -/
theorem Emits.after {s1 : Walk σ Fd} {x : Except PackError (Walk σ Fd)} (h : Emits sh c s1 x ms) (htw : s1.tw = s.tw)
    (hkeeps : Keeps (sh.opened s.os) (sh.opened s1.os)) : Emits sh c s x ms := by
  unfold Emits at h ⊢
  rw [htw] at h
  split at h
  · obtain ⟨s', hok, htw', hkeeps'⟩ := h
    exact ⟨s', hok, htw', hkeeps.trans hkeeps'⟩
  · exact h

/-! ## Files -/

theorem left_of_writeHeader {w w' : Writer} {h : Header} (hok : w.writeHeader c h = .ok w') : w'.left = h.bodySize := by
  unfold Writer.writeHeader at hok
  split_ifs at hok
  split at hok
  · cases hok
  · cases hok
    rfl

theorem write_nil (w : Writer) : w.write [] = .ok w := by
  simp only [Writer.write, List.length_nil, Nat.zero_le, if_true, List.append_nil, Nat.sub_zero]

/-- A file is copied to its end, however short the reads are. -/
theorem copy_eq {perm k fuel rest : ℕ} {body : Bytes} (hfd : sh.opened s.os fd = some (p, k))
    (hfile : t.node p = some (.file perm body)) (hrest : rest = s.tw.left) (hk : k + rest = body.length)
    (hfuel : rest ≤ fuel) :
    ∃ s', copy os fd fuel rest s = .ok (s', 0) ∧ s.tw.write (body.drop k) = .ok s'.tw ∧
      sh.opened s'.os fd = some (p, body.length) ∧ ∀ fd', fd' ≠ fd → sh.opened s'.os fd' = sh.opened s.os fd' := by
  have hdone : rest = 0 → s.tw.write (body.drop k) = .ok s.tw ∧ k = body.length := by
    rintro rfl
    rw [List.drop_eq_nil_of_le (by omega)]
    exact ⟨write_nil _, by omega⟩
  induction fuel generalizing s k rest with
  | zero =>
    obtain rfl := Nat.le_zero.mp hfuel
    obtain ⟨hwrite, rfl⟩ := hdone rfl
    exact ⟨s, rfl, hwrite, hfd, fun _ _ => rfl⟩
  | succ fuel ih =>
    by_cases hzero : rest = 0
    · obtain ⟨hwrite, rfl⟩ := hdone hzero
      exact ⟨s, by rw [copy, if_pos hzero, hzero], hwrite, hfd, fun _ _ => rfl⟩
    · obtain ⟨os', bs, hread, hpre, hlen, hempty, hself, hother⟩ := sh.read (min rest copyBuffer) hfd hfile
      have hne : bs ≠ [] := by
        intro h
        have hbuffer : copyBuffer ≠ 0 := by decide
        rcases hempty h with h | h <;> omega
      have hpos : 0 < bs.length := List.length_pos_iff.mpr hne
      have hle : bs.length ≤ s.tw.left := hrest ▸ hlen.trans (Nat.min_le_left _ _)
      have hsplit : body.drop k = bs ++ body.drop (k + bs.length) := by
        obtain ⟨r, hr⟩ := hpre
        rw [← List.drop_drop, ← hr, List.drop_left]
      -- the state behind this read
      let s1 : Walk σ Fd := ⟨os', s.calls ++ [.read fd (min rest copyBuffer) (.ok bs)],
        { s.tw with out := s.tw.out ++ bs, left := s.tw.left - bs.length }⟩
      have hwrite : s.tw.write bs = .ok s1.tw := by rw [Writer.write, if_pos hle]
      have hstep : copy os fd (fuel + 1) rest s = copy os fd fuel (rest - bs.length) s1 := by
        rw [copy, if_neg hzero]
        simp only [Walk.call, hread, if_neg hne, Walk.write, hwrite]
        rfl
      have hrest1 : rest - bs.length = s1.tw.left := by rw [hrest]
      obtain ⟨s', hok, hwrite', hself', hother'⟩ := ih (s := s1) hself hrest1 (by omega) (by omega) fun h => by
        rw [List.drop_eq_nil_of_le (by omega)]
        exact ⟨write_nil _, by omega⟩
      refine ⟨s', hstep ▸ hok, ?_, hself', fun fd' hne => (hother' fd' hne).trans (hother fd' hne)⟩
      rw [hsplit, ← Writer.write_append, hwrite]
      · exact hwrite'
      · rw [← hsplit, List.length_drop]
        omega

theorem emits_packRegular {perm : ℕ} {body rel : Bytes} (hdir : sh.opened s.os dirFd = some (p, 0))
    (hfile : t.node (p ++ [n]) = some (.file perm body)) :
    Emits sh c s (packRegular c os dirFd n rel s) [(⟨rel, .reg, perm, body.length⟩, body)] := by
  obtain ⟨os1, fd, hopen, hopens⟩ := sh.openAt hdir hfile
  obtain ⟨os2, st, hstat, ⟨hkind, hperm, hsize⟩, hopened⟩ := sh.fstat hopens.self hfile
  have hst : st.size = body.length := hsize perm body rfl
  change st.kind = .reg at hkind
  change st.perm = perm at hperm
  change os.openAt dirFd n .file s.os = _ at hopen
  -- the state in which the header is written
  let s2 : Walk σ Fd := ⟨os2, s.calls ++ [.openAt dirFd n .file (.ok fd)] ++ [.fstat fd (.ok st)], s.tw⟩
  have hpack : packRegular c os dirFd n rel s = writeRegular c os rel fd body.length perm s2 := by
    simp only [packRegular, Walk.call, hopen, hstat, hkind, hst, hperm, ne_eq, not_true_eq_false, if_false]
    rfl
  rw [hpack, writeRegular, Emits, Writer.writeAll]
  cases hheader : s.tw.writeHeader c ⟨rel, .reg, perm, body.length⟩ with
  | error e =>
    have hfail : s2.writeHeader c ⟨rel, .reg, perm, body.length⟩ = .error (.tar e) := by
      simp only [Walk.writeHeader, s2, hheader]
    rw [hfail]
    exact ⟨_, rfl⟩
  | ok tw =>
    let s3 : Walk σ Fd := { s2 with tw := tw }
    have hok : s2.writeHeader c ⟨rel, .reg, perm, body.length⟩ = .ok s3 := by
      simp only [Walk.writeHeader, s2, hheader]
      rfl
    have hself : sh.opened s3.os fd = some (p ++ [n], 0) := by
      change sh.opened os2 fd = _
      rw [hopened, hopens.self]
    have hleft : body.length = s3.tw.left := (left_of_writeHeader hheader).symm
    obtain ⟨s4, hcopy, hwrite, hself', hother⟩ := copy_eq hself hfile hleft (Nat.zero_add _) (Nat.le_refl _)
    obtain ⟨os5, bs, hread, -, -, -, -, hother'⟩ := sh.read 1 hself' hfile
    rw [List.drop_zero] at hwrite
    change match (tw.write body >>= fun w => Writer.writeAll c w []) with | .ok tw => _ | .error _ => _
    rw [show tw.write body = .ok s4.tw from hwrite, hok]
    refine ⟨(s4.call (os.read fd 1) (.read fd 1)).1, ?_, rfl, hopens.keeps fun fd' hne => ?_⟩
    · change (copy os fd body.length body.length s3 >>= _) = _
      rw [hcopy]
      rfl
    · change sh.opened (os.read fd 1 s4.os).1 fd' = _
      rw [hread, hother' fd' hne, hother fd' hne]
      exact congrFun hopened fd'

/-! ## Directories -/

theorem joined_eq_nil (hp : p = [] ∨ t.IsMember p) : joined p = [] ↔ p = [] := by
  constructor
  · rcases hp with hp | hp
    · exact fun _ => hp
    · obtain ⟨m, q, hq⟩ := List.exists_cons_of_ne_nil hp.1
      intro h
      rw [hq] at h
      exact absurd h (joined_ne_nil (hp.valid.names m (hq ▸ List.mem_cons_self)).ne_nil)
  · rintro rfl
    rfl

section

variable {packDir : Fd → Bytes → Bytes → Walk σ Fd → Except PackError (Walk σ Fd)}
  {dirMembers : List Bytes → List (Header × Bytes)} (hp : p = [] ∨ t.IsMember p) (hwithin : t.Within maxRel)
  (hdirs : ∀ {n perm names s}, t.IsMember (p ++ [n]) → t.node (p ++ [n]) = some (.dir perm names) →
    sh.opened s.os dirFd = some (p, 0) →
    Emits sh c s (packDir dirFd n (joined (p ++ [n])) s)
      ((⟨joined (p ++ [n]) ++ [slash], .dir, perm, 0⟩, []) :: dirMembers (p ++ [n])))

include hp hwithin hdirs

theorem emits_walkEntry (hdir : sh.opened s.os dirFd = some (p, 0)) (hn : n ∈ t.names p) :
    Emits sh c s (walkEntry c os maxRel packDir dirFd (joined p) s n) (t.entryMembers dirMembers p n) := by
  have hmember := Tree.isMember_concat hp hn
  obtain ⟨x, hx⟩ := Option.isSome_iff_exists.mp hmember.2.1
  obtain ⟨os1, hstat, hopened⟩ := sh.statAt hdir hx
  have hkept : ¬ (joined p = [] ∧ generationMarkerFile <+: n) := by
    rw [joined_eq_nil hp]
    exact (Tree.mem_names.mp hn).2
  have hlen : ¬ maxRel < (entryRel (joined p) n).length := by
    rw [← joined_concat]
    exact Nat.not_lt.mpr (hwithin.length _ hmember)
  -- the state in which the kind of the entry is known
  let s1 : Walk σ Fd := ⟨os1, s.calls ++ [.statAt dirFd n (.ok x.kind)], s.tw⟩
  have hdir1 : sh.opened s1.os dirFd = some (p, 0) := by
    change sh.opened os1 dirFd = _
    rw [hopened, hdir]
  rw [walkEntry, if_neg hkept, if_neg hlen, ← joined_concat]
  simp only [Walk.call, hstat, Tree.entryMembers, hx]
  cases x with
  | file perm body => exact (emits_packRegular (s := s1) hdir1 hx).after rfl (keeps_of_eq hopened)
  | dir perm names => exact (hdirs (s := s1) hmember hx hdir1).after rfl (keeps_of_eq hopened)

theorem emits_walkEntries {names : List Bytes} (hdir : sh.opened s.os dirFd = some (p, 0))
    (hnames : ∀ n ∈ names, (t.node (p ++ [n])).isSome) :
    Emits sh c s (names.foldlM (walkEntry c os maxRel packDir dirFd (joined p)) s)
      ((names.filter fun n => ¬ LeftOut p n).flatMap (t.entryMembers dirMembers p)) := by
  induction names generalizing s with
  | nil => exact .nil rfl fun _ _ h => h
  | cons n names ih =>
    have hrest : ∀ s', Keeps (sh.opened s.os) (sh.opened s'.os) →
        Emits sh c s' (names.foldlM (walkEntry c os maxRel packDir dirFd (joined p)) s')
          ((names.filter fun n => ¬ LeftOut p n).flatMap (t.entryMembers dirMembers p)) :=
      fun s' hkeeps => ih (hkeeps _ _ hdir) fun m hm => hnames m (List.mem_cons_of_mem _ hm)
    rw [List.foldlM_cons]
    by_cases hn : LeftOut p n
    · have hskip : walkEntry c os maxRel packDir dirFd (joined p) s n = .ok s := by
        rw [walkEntry, if_pos ⟨(joined_eq_nil hp).mpr hn.1, hn.2⟩]
      rw [List.filter_cons_of_neg (by simpa using hn), hskip]
      exact hrest s fun _ _ h => h
    · rw [List.filter_cons_of_pos (by simpa using hn), List.flatMap_cons]
      have hmem : n ∈ t.names p := Tree.mem_names.mpr ⟨hnames n List.mem_cons_self, hn⟩
      exact (emits_walkEntry hp hwithin hdirs hdir hmem).bind hrest

/-- The entries are written in their order, whatever order the listing has. -/
theorem emits_walkInto (hdir : sh.opened s.os dirFd = some (p, 0))
    (hnode : ∃ perm names, t.node p = some (.dir perm names)) :
    Emits sh c s (walkInto c os maxRel packDir dirFd (joined p) s)
      ((t.names p).flatMap (t.entryMembers dirMembers p)) := by
  obtain ⟨perm, names, hnode⟩ := hnode
  obtain ⟨os1, l, hlist, hperm, hopened⟩ := sh.readdirnames hdir hnode
  have hsorted : ∀ l : List Bytes, (l.mergeSort (· ≤ ·)).Pairwise (· ≤ ·) := fun l =>
    (List.pairwise_mergeSort (fun a b c hab hbc => by simpa using List.le_trans (by simpa using hab) (by simpa using hbc))
      (fun a b => by simpa using List.le_total a b) l).imp fun h => by simpa using h
  have hsort : l.mergeSort (· ≤ ·) = names.mergeSort (· ≤ ·) :=
    List.Perm.eq_of_pairwise (fun a b _ _ => List.le_antisymm) (hsorted l) (hsorted names)
      ((List.mergeSort_perm _ _).trans (hperm.trans (List.mergeSort_perm _ _).symm))
  let s1 : Walk σ Fd := ⟨os1, s.calls ++ [.readdirnames dirFd (.ok l)], s.tw⟩
  have hwalk : walkInto c os maxRel packDir dirFd (joined p) s =
      (names.mergeSort (· ≤ ·)).foldlM (walkEntry c os maxRel packDir dirFd (joined p)) s1 := by
    simp only [walkInto, Walk.call, hlist, hsort]
    rfl
  have hnames : t.names p = (names.mergeSort (· ≤ ·)).filter fun n => ¬ LeftOut p n := by
    rw [Tree.names, hnode]
  have hdir1 : sh.opened s1.os dirFd = some (p, 0) := by
    change sh.opened os1 dirFd = _
    rw [hopened, hdir]
  rw [hwalk, hnames]
  exact (emits_walkEntries hp hwithin hdirs hdir1 fun n hn =>
    (t.child p n).mpr ⟨perm, names, hnode, List.mem_mergeSort.mp hn⟩).after rfl (keeps_of_eq hopened)

end

theorem emits_writeHeader {h : Header} : Emits sh c s (s.writeHeader c h) [(h, [])] := by
  unfold Emits
  rw [Writer.writeAll, Walk.writeHeader]
  cases hheader : s.tw.writeHeader c h with
  | error e => exact ⟨_, rfl⟩
  | ok tw =>
    have hwrite : (tw.write [] >>= fun w => Writer.writeAll c w []) = .ok tw := by
      rw [write_nil]
      rfl
    simp only [bind, Except.bind] at hwrite ⊢
    rw [hwrite]
    exact ⟨{ s with tw := tw }, rfl, rfl, fun _ _ h => h⟩

theorem emits_packDir {room perm : ℕ} {names : List Bytes} (hwithin : t.Within maxRel)
    (hroom : (p ++ [n]).length + room = maxPackDepth + 1) (hmember : t.IsMember (p ++ [n]))
    (hnode : t.node (p ++ [n]) = some (.dir perm names)) (hdir : sh.opened s.os dirFd = some (p, 0)) :
    Emits sh c s (packDir c os maxRel room dirFd n (joined (p ++ [n])) s)
      ((⟨joined (p ++ [n]) ++ [slash], .dir, perm, 0⟩, []) :: t.dirMembers room (p ++ [n])) := by
  induction room generalizing s p n perm names dirFd with
  | zero =>
    have := hwithin.depth _ _ _ hmember hnode
    omega
  | succ room ih =>
    obtain ⟨os1, fd, hopen, hopens⟩ := sh.openAt hdir hnode
    obtain ⟨os2, st, hstat, ⟨-, hperm, -⟩, hopened⟩ := sh.fstat hopens.self hnode
    change os.openAt dirFd n .dir s.os = _ at hopen
    change st.perm = perm at hperm
    -- the state in which the header is written
    let s2 : Walk σ Fd := ⟨os2, s.calls ++ [.openAt dirFd n .dir (.ok fd)] ++ [.fstat fd (.ok st)], s.tw⟩
    have hself : sh.opened s2.os fd = some (p ++ [n], 0) := by
      change sh.opened os2 fd = _
      rw [hopened, hopens.self]
    have hpack : packDir c os maxRel (room + 1) dirFd n (joined (p ++ [n])) s =
        (s2.writeHeader c ⟨joined (p ++ [n]) ++ [slash], .dir, perm, 0⟩).bind
          (walkInto c os maxRel (packDir c os maxRel room) fd (joined (p ++ [n]))) := by
      simp only [packDir, Walk.call, hopen, hstat, hperm]
      rfl
    rw [hpack, Tree.dirMembers]
    have hall : Emits sh c s2 _ ([(⟨joined (p ++ [n]) ++ [slash], .dir, perm, 0⟩, [])] ++ _) :=
      emits_writeHeader.bind fun s' hkeeps => emits_walkInto (.inr hmember) hwithin
        (fun {m perm names s} hmember hnode hdir => ih (p := p ++ [n]) (by
          rw [List.length_append, List.length_singleton]
          omega) hmember hnode hdir) (hkeeps _ _ hself) ⟨perm, names, hnode⟩
    exact hall.after rfl (hopens.keeps fun fd' _ => congrFun hopened fd')

/-! ## The archive of a tree -/

/-- Each member is a file or a directory of the tree. -/
theorem of_mem_members {m : Header × Bytes} (hm : m ∈ t.members) :
    ∃ p, t.IsMember p ∧
      ((∃ perm body, t.node p = some (.file perm body) ∧ m = (⟨joined p, .reg, perm, body.length⟩, body)) ∨
        ∃ perm names, t.node p = some (.dir perm names) ∧ m = (⟨joined p ++ [slash], .dir, perm, 0⟩, [])) := by
  have hall : ∀ room p, (p = [] ∨ t.IsMember p) → ∀ m ∈ t.dirMembers room p, ∃ p, t.IsMember p ∧
      ((∃ perm body, t.node p = some (.file perm body) ∧ m = (⟨joined p, .reg, perm, body.length⟩, body)) ∨
        ∃ perm names, t.node p = some (.dir perm names) ∧ m = (⟨joined p ++ [slash], .dir, perm, 0⟩, [])) := by
    intro room
    induction room with
    | zero => exact fun p _ m hm => by cases hm
    | succ room ih =>
      intro p hp m hm
      obtain ⟨n, hn, hm⟩ := List.mem_flatMap.mp hm
      have hmember := Tree.isMember_concat hp hn
      unfold Tree.entryMembers at hm
      split at hm
      · next perm body hnode => exact ⟨_, hmember, .inl ⟨perm, body, hnode, List.mem_singleton.mp hm⟩⟩
      · next perm names hnode =>
        rcases List.mem_cons.mp hm with hm | hm
        · exact ⟨_, hmember, .inr ⟨perm, names, hnode, hm⟩⟩
        · exact ih _ (.inr hmember) m hm
      · cases hm
  exact hall _ _ (.inl rfl) m hm

theorem bodySize_of_mem_members {m : Header × Bytes} (hm : m ∈ t.members) : m.2.length = m.1.bodySize := by
  obtain ⟨p, -, ⟨perm, body, -, rfl⟩ | ⟨perm, names, -, rfl⟩⟩ := of_mem_members hm <;> rfl

/-- The archive of a tree is the blocks of its members, and it is written if their headers are accepted. -/
theorem packTar_tree (sh : Shows os t) {root : Bytes} (hwithin : t.Within (pathLimit root)) (s : σ) :
    ((∀ m ∈ t.members, (c.encode m.1).isSome) → ∃ out calls, packTar c os root s = .ok (out, calls)) ∧
      ∀ out calls, packTar c os root s = .ok (out, calls) →
        out = blocks c t.members ++ zeros (2 * blocksize) ∧ ∀ m ∈ t.members, Fits c m := by
  obtain ⟨os1, fd, hopen, hopens⟩ := sh.openRoot s
  let s1 : Walk σ Fd := ⟨os1, [.openRoot (.ok fd)], .new⟩
  have hpack : packTar c os root s =
      (walkInto c os (pathLimit root) (packDir c os (pathLimit root) maxPackDepth) fd (joined []) s1).bind Walk.close := by
    simp only [packTar, Walk.call, hopen]
    rfl
  have hemits : Emits sh c s1
      (walkInto c os (pathLimit root) (packDir c os (pathLimit root) maxPackDepth) fd (joined []) s1) t.members :=
    emits_walkInto (.inl rfl) hwithin (fun {n perm names s} hmember hnode hdir =>
      emits_packDir (p := []) hwithin (Nat.add_comm _ _) hmember hnode hdir) hopens.self t.root
  unfold Emits at hemits
  change match Writer.new.writeAll c t.members with | .ok tw => _ | .error _ => _ at hemits
  rw [hpack]
  constructor
  · intro haccepted
    have hfits : ∀ m ∈ t.members, Fits c m := fun m hm => ⟨haccepted m hm, bodySize_of_mem_members hm⟩
    obtain ⟨tw, htw, hleft⟩ := exists_writeAll (w := .new) rfl hfits
    rw [htw] at hemits
    obtain ⟨s', hok, rfl, -⟩ := hemits
    obtain ⟨out, hout⟩ := exists_close hleft
    refine ⟨out, s'.calls, ?_⟩
    rw [hok]
    change s'.close = _
    rw [Walk.close, hout]
  · intro out calls hok
    split at hemits
    · next tw htw =>
      obtain ⟨s', hwalk, rfl, -⟩ := hemits
      rw [hwalk] at hok
      change s'.close = _ at hok
      have hsettled := settled_new.writeAll htw fun m hm => bodySize_of_mem_members hm
      unfold Walk.close at hok
      split at hok
      · next out' hout =>
        cases hok
        exact ⟨hsettled.close hout, hsettled.fits⟩
      · cases hok
    · obtain ⟨e, he⟩ := hemits
      rw [he] at hok
      cases hok

/-- **A tree that does not change comes back as it was**, but for the entries of the root that have the prefix of the
generation marker. -/
theorem unpackTar_packTar (sh : Shows os t) {root dest : Bytes} (hroot : t.Within (pathLimit root))
    (hdest : t.Within (pathLimit dest)) {s : σ} {out : Bytes} {calls : List (Call Fd)}
    (hok : packTar c os root s = .ok (out, calls)) : unpackTar c dest out = .ok t.restored := by
  obtain ⟨rfl, hfits⟩ := (packTar_tree sh hroot s).2 out calls hok
  exact unpackTar_members hdest hfits

/-! ## A system that shows a tree -/

/-- The descriptors are numbered; the state lists what they are on and how far they have been read. -/
def Tree.calls (t : Tree) : Os (List (List Bytes × ℕ)) ℕ where
  openRoot s := (s ++ [([], 0)], .ok s.length)
  readdirnames fd s :=
    match s[fd]?.bind fun f => t.node f.1 with
    | some (.dir _ names) => (s, .ok names)
    | _ => (s, .error .notdir)
  statAt fd n s :=
    match s[fd]?.bind fun f => t.node (f.1 ++ [n]) with
    | some x => (s, .ok x.kind)
    | none => (s, .error .noent)
  openAt fd n flags s :=
    match s[fd]?.bind fun f => (t.node (f.1 ++ [n])).map fun x => (f.1 ++ [n], x), flags with
    | some (_, .file _ _), .dir => (s, .error .notdir)
    | some (p, _), _ => (s ++ [(p, 0)], .ok s.length)
    | none, _ => (s, .error .noent)
  fstat fd s :=
    match s[fd]?.bind fun f => t.node f.1 with
    | some (.file perm body) => (s, .ok ⟨.reg, perm, body.length⟩)
    | some (.dir perm _) => (s, .ok ⟨.dir, perm, 4096⟩)
    | none => (s, .error .noent)
  read fd n s :=
    match s[fd]?.bind fun f => (t.node f.1).map fun x => (f.1, f.2, x) with
    | some (p, k, .file _ body) => (s.set fd (p, k + ((body.drop k).take n).length), .ok ((body.drop k).take n))
    | _ => (s, .error .isdir)

theorem opens_concat (s : List (List Bytes × ℕ)) :
    Opens (fun fd => s[fd]?) (fun fd => (s ++ [(p, 0)])[fd]?) s.length p where
  new := List.getElem?_eq_none (Nat.le_refl _)
  self := List.getElem?_concat_length
  other fd' hne := by
    rcases Nat.lt_or_ge fd' s.length with hlt | hge
    · exact List.getElem?_append_left hlt
    · rw [List.getElem?_eq_none hge, List.getElem?_eq_none]
      rw [List.length_append, List.length_singleton]
      omega

/-- It shows the tree. -/
def Tree.shows (t : Tree) : Shows t.calls t where
  opened s fd := s[fd]?
  openRoot s := ⟨_, _, rfl, opens_concat s⟩
  readdirnames {s fd p perm names} hfd hnode := by
    refine ⟨s, names, ?_, List.Perm.refl _, rfl⟩
    simp only [Tree.calls, hfd, Option.bind_some, hnode]
  statAt {s fd p n x} hfd hnode := by
    refine ⟨s, ?_, rfl⟩
    simp only [Tree.calls, hfd, Option.bind_some, hnode]
  openAt {s fd p n x} hfd hnode := by
    refine ⟨s ++ [(p ++ [n], 0)], s.length, ?_, opens_concat s⟩
    simp only [Tree.calls, hfd, Option.bind_some, hnode, Option.map_some]
    cases x <;> rfl
  fstat {s fd p x} hfd hnode := by
    cases x with
    | file perm body =>
      refine ⟨s, ⟨.reg, perm, body.length⟩, ?_, ⟨rfl, rfl, fun _ _ h => by cases h; rfl⟩, rfl⟩
      simp only [Tree.calls, hfd, Option.bind_some, hnode]
    | dir perm names =>
      refine ⟨s, ⟨.dir, perm, 4096⟩, ?_, ⟨rfl, rfl, fun _ _ h => by cases h⟩, rfl⟩
      simp only [Tree.calls, hfd, Option.bind_some, hnode]
  read {s fd p k perm body} n hfd hnode := by
    refine ⟨s.set fd (p, k + ((body.drop k).take n).length), (body.drop k).take n, ?_, List.take_prefix _ _,
      List.length_take_le _ _, fun h => ?_, ?_, fun fd' hne => List.getElem?_set_ne (Ne.symm hne)⟩
    · simp only [Tree.calls, hfd, Option.bind_some, hnode, Option.map_some]
    · rcases List.take_eq_nil_iff.mp h with h | h
      · exact .inl h
      · exact .inr (List.drop_eq_nil_iff.mp h)
    · have hlt : fd < s.length := (List.getElem?_eq_some_iff.mp hfd).1
      exact List.getElem?_set_self hlt

/-! ## Headers of one block -/

def Typeflag.byte : Typeflag → UInt8
  | .reg => 48
  | .link => 49
  | .symlink => 50
  | .special => 51
  | .dir => 53
  | .other => 55

def Typeflag.ofByte (b : UInt8) : Typeflag :=
  if b = 48 then .reg
  else if b = 49 then .link
  else if b = 50 then .symlink
  else if b = 51 ∨ b = 52 ∨ b = 54 then .special
  else if b = 53 then .dir
  else .other

theorem Typeflag.ofByte_byte (f : Typeflag) : Typeflag.ofByte f.byte = f := by
  cases f <;> decide

def ustarFront (h : Header) : Bytes := Lib.Tar.Header.front ⟨h.name, h.mode, h.size, h.typeflag.byte⟩ (octal 12 h.size)

def ustarBack (h : Header) : Bytes :=
  h.typeflag.byte :: (zeros 100 ++ (Format.pax.magic ++ (zeros 64 ++ (octal 8 0 ++ (octal 8 0 ++ zeros 167)))))

def ustarChecksum (h : Header) : Bytes := octal 7 (checksum (ustarFront h) (ustarBack h)) ++ [32]

/-- The header fits one block. -/
def Plain (h : Header) : Prop :=
  h.name.length ≤ 100 ∧ 0 ∉ h.name ∧ h.mode < 8 ^ 7 ∧ h.size < 8 ^ 11

instance : DecidablePred Plain := fun _ => inferInstanceAs (Decidable (_ ∧ _ ∧ _ ∧ _))

/-- The fields of a block. -/
def ustarParse (blk : Bytes) : Option Header := do
  let mode ← nti (field 100 8 blk)
  let size ← nti (field 124 12 blk)
  let sum ← nti (field 148 8 blk)
  let type ← blk[156]?
  if sum = checksum (blk.take 148) (blk.drop 156) ∧ field 257 8 blk = Format.pax.magic then
    some ⟨nts (field 0 100 blk), Typeflag.ofByte type, mode, size⟩
  else none

def ustarDecode (s : Bytes) : Option (Option (Header × Bytes)) :=
  if s.length < blocksize then none
  else if (s.take blocksize).all (· = 0) then some none
  else (ustarParse (s.take blocksize)).map fun h => some (h, s.drop blocksize)

theorem length_ustarBack (h : Header) : (ustarBack h).length = 356 := by
  have hmagic : Format.pax.magic.length = 8 := rfl
  have hdev : (octal 8 0).length = 8 := rfl
  simp only [ustarBack, List.length_cons, List.length_append, length_zeros, hmagic, hdev, Nat.reduceAdd]

section

variable {h : Header} (hplain : Plain h)

include hplain

theorem length_ustarFront : (ustarFront h).length = 148 :=
  length_front hplain.2.2.1 (length_octal (w := 12) hplain.2.2.2 (by decide))

theorem length_ustarChecksum : (ustarChecksum h).length = 8 := by
  have hlt : checksum (ustarFront h) (ustarBack h) < 8 ^ 6 := checksum_lt (by
    rw [List.length_append, length_ustarFront hplain, length_ustarBack]
    decide)
  rw [ustarChecksum, List.length_append, length_octal (w := 7) hlt (by decide), List.length_singleton]

/-- The fields of a block are those that were written. -/
theorem ustarParse_block : ustarParse (ustarFront h ++ (ustarChecksum h ++ ustarBack h)) = some h := by
  have hfront := length_ustarFront hplain
  have hchk := length_ustarChecksum hplain
  obtain ⟨hname, hnul, hmode, hsize⟩ := hplain
  have hmodelen := length_octal (w := 8) hmode (by decide)
  have hsizelen := length_octal (w := 12) hsize (by decide)
  -- the name, the mode and the size stand before the checksum, the magic behind it
  have h0 : field 0 100 (ustarFront h ++ (ustarChecksum h ++ ustarBack h)) = stn 100 h.name := by
    rw [ustarFront, Lib.Tar.Header.front, List.append_assoc]
    exact field_append (a := []) rfl length_stn
  have h100 : field 100 8 (ustarFront h ++ (ustarChecksum h ++ ustarBack h)) = octal 8 h.mode := by
    rw [ustarFront, Lib.Tar.Header.front, List.append_assoc, List.append_assoc]
    exact field_append length_stn hmodelen
  have h124 : field 124 12 (ustarFront h ++ (ustarChecksum h ++ ustarBack h)) = octal 12 h.size := by
    have : ustarFront h ++ (ustarChecksum h ++ ustarBack h) =
        (stn 100 h.name ++ (octal 8 h.mode ++ (octal 8 0 ++ octal 8 0))) ++
          (octal 12 h.size ++ (octal 12 0 ++ (ustarChecksum h ++ ustarBack h))) := by
      simp only [ustarFront, Lib.Tar.Header.front, List.append_assoc]
    rw [this]
    refine field_append ?_ hsizelen
    rw [List.length_append, length_stn, List.length_append, hmodelen]
    rfl
  have h148 : field 148 8 (ustarFront h ++ (ustarChecksum h ++ ustarBack h)) = ustarChecksum h := field_append hfront hchk
  have h257 : field 257 8 (ustarFront h ++ (ustarChecksum h ++ ustarBack h)) = Format.pax.magic := by
    have : ustarFront h ++ (ustarChecksum h ++ ustarBack h) =
        (ustarFront h ++ (ustarChecksum h ++ h.typeflag.byte :: zeros 100)) ++
          (Format.pax.magic ++ (zeros 64 ++ (octal 8 0 ++ (octal 8 0 ++ zeros 167)))) := by
      simp only [ustarBack, List.append_assoc, List.cons_append]
    rw [this]
    refine field_append ?_ rfl
    rw [List.length_append, hfront, List.length_append, hchk, List.length_cons, length_zeros]
  have hbehind : (ustarFront h ++ ustarChecksum h).length = 156 := by
    rw [List.length_append, hfront, hchk]
  have htype : (ustarFront h ++ (ustarChecksum h ++ ustarBack h))[156]? = some h.typeflag.byte := by
    rw [← List.append_assoc, List.getElem?_append_right (Nat.le_of_eq hbehind), hbehind]
    rfl
  have htake : (ustarFront h ++ (ustarChecksum h ++ ustarBack h)).take 148 = ustarFront h := List.take_left' hfront
  have hdrop : (ustarFront h ++ (ustarChecksum h ++ ustarBack h)).drop 156 = ustarBack h := by
    rw [← List.append_assoc]
    exact List.drop_left' hbehind
  have hsum : nti (ustarChecksum h) = some (checksum (ustarFront h) (ustarBack h)) := nti_octal_append 7 _ [32]
  have htext : nts (stn 100 h.name) = h.name := by
    rw [nts_stn hname, nts, List.takeWhile_eq_self_iff]
    exact fun b hb => decide_eq_true fun h => hnul (h ▸ hb)
  simp only [ustarParse, h0, h100, h124, h148, h257, htype, htake, hdrop, nti_octal, hsum, htext, Option.bind_eq_bind,
    Option.bind_some, and_self, if_true, Typeflag.ofByte_byte]

end

/-- A block of zeros is no header. -/
theorem ustarParse_zeros {blk : Bytes} (hz : blk.all (· = 0) = true) : ustarParse blk = none := by
  rw [Option.eq_none_iff_forall_ne_some]
  intro h hparse
  have hmem : (117 : UInt8) ∈ field 257 8 blk := by
    simp only [ustarParse, Option.bind_eq_bind, Option.bind_eq_some_iff] at hparse
    obtain ⟨_, -, _, -, _, -, _, -, hparse⟩ := hparse
    split_ifs at hparse with hc
    rw [hc.2]
    decide
  have := List.all_eq_true.mp hz 117 (List.mem_of_mem_drop (List.mem_of_mem_take hmem))
  exact absurd this (by decide)

/-- Headers that fit one block; the other headers are refused. -/
def ustar : Codec Header Header.bodySize where
  encode h := if Plain h then some (ustarFront h ++ (ustarChecksum h ++ ustarBack h)) else none
  decode := ustarDecode
  decode_encode h b rest hb := by
    split_ifs at hb with hplain
    cases hb
    have hlen : (ustarFront h ++ (ustarChecksum h ++ ustarBack h)).length = blocksize := by
      rw [List.length_append, List.length_append, length_ustarFront hplain, length_ustarChecksum hplain,
        length_ustarBack]
      rfl
    have hparse := ustarParse_block hplain
    have hnonzero : ¬ (ustarFront h ++ (ustarChecksum h ++ ustarBack h)).all (· = 0) = true := by
      intro hz
      rw [ustarParse_zeros hz] at hparse
      cases hparse
    rw [ustarDecode, List.take_left' hlen, List.drop_left' hlen, if_neg, if_neg hnonzero, hparse]
    · rfl
    · rw [List.length_append, hlen]
      omega
  decode_trailer := by
    rw [ustarDecode, if_neg, if_pos]
    · rw [List.all_eq_true]
      intro b hb
      rw [List.eq_of_mem_replicate (List.mem_of_mem_take hb)]
      decide
    · rw [length_zeros]
      omega
  decode_lt s h rest hs := by
    unfold ustarDecode at hs
    split_ifs at hs with hlen hzero
    · cases hs
    obtain ⟨h', -, heq⟩ := Option.map_eq_some_iff.mp hs
    cases heq
    rw [List.length_drop]
    have : 0 < blocksize := by decide
    omega

/-! ## Snapshots -/

/-- **A tree that does not change comes back as it was**, but for the entries of the root that have the prefix of the
generation marker; **of any tree**, an archive has as many bytes behind each header as it declares, and those of a file
were read from it or are zeros. -/
theorem snapshot_roundtrip (σ' Fd' : Type*) (sh : Shows os t) {root dest : Bytes} (hroot : t.Within (pathLimit root))
    (hdest : t.Within (pathLimit dest)) (s : σ) :
    ((∀ m ∈ t.members, (c.encode m.1).isSome) → ∃ out calls, packTar c os root s = .ok (out, calls)) ∧
      (∀ out calls, packTar c os root s = .ok (out, calls) → unpackTar c dest out = .ok t.restored) ∧
      ∀ (os' : Os σ' Fd') root s out calls, packTar c os' root s = .ok (out, calls) →
        ∃ ms, c.members (out.length + 1) out = .ok ms ∧ ∀ m ∈ ms, Fits c m ∧ (m.1.typeflag = .reg → ReadFrom calls m) := by
  refine ⟨(packTar_tree sh hroot s).1, fun out calls hok => unpackTar_packTar sh hroot hdest hok, ?_⟩
  intro os' root s out calls hok
  obtain ⟨ms, rfl, hfits, hkept⟩ := packTar_members hok
  refine ⟨ms, members_blocks hfits ?_, fun m hm => ⟨hfits m hm, fun hreg => ?_⟩⟩
  · rw [List.length_append]
    have := length_le_blocks hfits
    omega
  · rcases hkept m hm with ⟨-, hread⟩ | ⟨hdir, -⟩
    · exact hread
    · rw [hdir] at hreg
      cases hreg

/-- A world of one file, and a generation marker. -/
def World.node : List Bytes → Option Node
  | [] => some (.dir 0o755 [ascii "world", ascii ".mcsd_generation"])
  | [a] =>
    if a = ascii "world" then some (.dir 0o750 [ascii "level.dat"])
    else if a = ascii ".mcsd_generation" then some (.file 0o640 [55])
    else none
  | [a, b] => if a = ascii "world" ∧ b = ascii "level.dat" then some (.file 0o644 [1, 2, 3]) else none
  | _ => none

theorem World.eq_of_isSome (h : (World.node p).isSome) :
    p = [] ∨ p = [ascii "world"] ∨ p = [ascii ".mcsd_generation"] ∨ p = [ascii "world", ascii "level.dat"] := by
  unfold World.node at h
  split at h
  · exact .inl rfl
  · split_ifs at h with h1 h2
    · exact .inr (.inl (h1 ▸ rfl))
    · exact .inr (.inr (.inl (h2 ▸ rfl)))
    · cases h
  · split_ifs at h with h1
    · exact .inr (.inr (.inr (h1.1 ▸ h1.2 ▸ rfl)))
    · cases h
  · cases h

theorem World.eq_of_dir {perm : ℕ} {names : List Bytes} (h : World.node p = some (.dir perm names)) :
    p = [] ∧ names = [ascii "world", ascii ".mcsd_generation"] ∨ p = [ascii "world"] ∧ names = [ascii "level.dat"] := by
  rcases World.eq_of_isSome (Option.isSome_of_eq_some h) with rfl | rfl | rfl | rfl <;> cases h
  · exact .inl ⟨rfl, rfl⟩
  · exact .inr ⟨rfl, rfl⟩

def World.tree : Tree where
  node := World.node
  root := ⟨_, _, rfl⟩
  child p n := by
    constructor
    · intro h
      have hall := World.eq_of_isSome h
      rcases p with _ | ⟨a, _ | ⟨b, r⟩⟩
      · rcases hall with h | h | h | h <;> cases h
        · exact ⟨_, _, rfl, List.mem_cons_self⟩
        · exact ⟨_, _, rfl, List.mem_cons_of_mem _ List.mem_cons_self⟩
      · rcases hall with h | h | h | h <;> cases h
        exact ⟨_, _, rfl, List.mem_cons_self⟩
      · rcases hall with h | h | h | h <;> simp at h
    · rintro ⟨perm, names, hdir, hn⟩
      rcases World.eq_of_dir hdir with ⟨rfl, rfl⟩ | ⟨rfl, rfl⟩
      · rcases List.mem_cons.mp hn with rfl | hn
        · decide
        · rw [List.mem_singleton.mp hn]
          decide
      · rw [List.mem_singleton.mp hn]
        decide
  nodup p perm names h := by
    rcases World.eq_of_dir h with ⟨-, rfl⟩ | ⟨-, rfl⟩ <;> decide
  valid p perm names h n hn := by
    have hall : n ∈ [ascii "world", ascii ".mcsd_generation", ascii "level.dat"] := by
      rcases World.eq_of_dir h with ⟨-, rfl⟩ | ⟨-, rfl⟩ <;> simp only [List.mem_cons] at hn ⊢ <;> tauto
    simp only [List.mem_cons, List.not_mem_nil, or_false] at hall
    rcases hall with rfl | rfl | rfl <;> exact ⟨by decide, by decide, by decide, by decide⟩
  perm_lt p perm body h := by
    rcases World.eq_of_isSome (Option.isSome_of_eq_some h) with rfl | rfl | rfl | rfl <;> cases h <;> decide

theorem World.within {root : Bytes} (hroot : root.length ≤ 100) : World.tree.Within (pathLimit root) where
  depth p perm names _ h := by
    rcases World.eq_of_dir h with ⟨rfl, -⟩ | ⟨rfl, -⟩ <;> decide
  length p h := by
    have hlen : (joined p).length ≤ 100 := by
      rcases World.eq_of_isSome h.2.1 with rfl | rfl | rfl | rfl <;> decide
    rw [pathLimit, pathMax]
    omega

/-- All of its headers fit one block. -/
theorem World.accepted : ∀ m ∈ World.tree.members, (ustar.encode m.1).isSome := by
  intro m hm
  have hplain : Plain m.1 := by
    obtain ⟨p, hp, ⟨perm, body, hnode, rfl⟩ | ⟨perm, names, hnode, rfl⟩⟩ := of_mem_members hm
    · rcases World.eq_of_isSome hp.2.1 with rfl | rfl | rfl | rfl <;> cases hnode <;>
        exact ⟨by decide, by decide, by norm_num, by norm_num⟩
    · rcases World.eq_of_dir hnode with ⟨rfl, rfl⟩ | ⟨rfl, rfl⟩ <;> cases hnode <;>
        exact ⟨by decide, by decide, by norm_num, by norm_num⟩
  simp only [ustar, if_pos hplain, Option.isSome_some]

/-- The world is archived and comes back without the marker. -/
theorem snapshot_roundtrip_world :
    ∃ out calls, packTar ustar World.tree.calls (ascii "/srv/a") [] = .ok (out, calls) ∧
      unpackTar ustar (ascii "/srv/b") out = .ok World.tree.restored ∧
      World.tree.restored [ascii "world", ascii "level.dat"] = some (.file 0o644 [1, 2, 3]) ∧
      World.tree.restored [ascii ".mcsd_generation"] = none := by
  have ha : (ascii "/srv/a").length ≤ 100 := by decide
  have hb : (ascii "/srv/b").length ≤ 100 := by decide
  obtain ⟨hwritten, hback, -⟩ := snapshot_roundtrip (c := ustar) ℕ ℕ World.tree.shows (World.within ha)
    (World.within hb) []
  obtain ⟨out, calls, hok⟩ := hwritten World.accepted
  exact ⟨out, calls, hok, hback out calls hok, by decide, by decide⟩

end McServerDashboard.Worker.Archive
