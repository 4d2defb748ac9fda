import McServerDashboard.Fs.Mutators

/-!
# What a change of a tree leaves alone

* `lookup_moveEntries_ne`, `lookup_moveEntries_src`, `lookup_moveEntries_dst`: the entries after a rename.
* `TreeOp.Touches`: the paths that a change may touch; **`TreeOp.run_lookup`**: every other path keeps its entry.
* **`perform_lookup`**, **`perform_mkdirParents`**: a program that does not touch a path; the making of directories.
* **`atomicWrite_lookup`**, **`edit_currentTree`**: the file that a write leaves; the tree that an edit leaves.
-/

namespace McServerDashboard.Fs

open Lib

variable {t t' : Tree} {p q src dst : Path}

/-! ## Renames -/

/-- Where a rename moves an entry. -/
def moved (src dst : Path) (e : Sigma fun _ : Path => Node) : Sigma fun _ : Path => Node :=
  if src.isPrefixOf e.1 then ⟨dst ++ e.1.drop src.length, e.2⟩ else e

theorem moved_of_above {e : Sigma fun _ : Path => Node} (h : src <+: e.1) :
    moved src dst e = ⟨dst ++ e.1.drop src.length, e.2⟩ := if_pos (List.isPrefixOf_iff_prefix.mpr h)

theorem moved_of_not_above {e : Sigma fun _ : Path => Node} (h : ¬ src <+: e.1) : moved src dst e = e :=
  if_neg (h ∘ List.isPrefixOf_iff_prefix.mp)

theorem moved_snd {e : Sigma fun _ : Path => Node} : (moved src dst e).2 = e.2 := by
  unfold moved
  split_ifs <;> rfl

theorem lookup_moveEntries : (t.moveEntries src dst).lookup q =
    ((t.entries.filter fun e => !dst.isPrefixOf e.1).map (moved src dst)).dlookup q := AList.lookup_to_alist _

/-- The entry that is moved to `q`, when only what stands at `r` is moved there. -/
theorem lookup_moveEntries_of_iff {r : Path} (hr : ¬ dst <+: r)
    (h : ∀ e : Sigma fun _ : Path => Node, ¬ dst <+: e.1 → (q = (moved src dst e).1 ↔ r = e.1)) :
    (t.moveEntries src dst).lookup q = t.lookup r := by
  rw [lookup_moveEntries, AList.lookup]
  induction t.entries with
  | nil => rfl
  | cons e l ih =>
    by_cases hd : dst <+: e.1
    · have hne : r ≠ e.1 := fun he => hr (he ▸ hd)
      rw [List.filter_cons_of_neg (by simpa using hd), List.dlookup_cons_ne _ _ hne, ih]
    · rw [List.filter_cons_of_pos (by simpa [← List.isPrefixOf_iff_prefix] using hd), List.map_cons]
      by_cases he : r = e.1
      · have hm : moved src dst e = ⟨q, e.2⟩ := Sigma.ext ((h e hd).mpr he).symm (heq_of_eq moved_snd)
        have hself : e = ⟨r, e.2⟩ := Sigma.ext he.symm HEq.rfl
        rw [hm, List.dlookup_cons_eq, hself, List.dlookup_cons_eq]
      · rw [List.dlookup_cons_ne _ _ he, List.dlookup_cons_ne _ _ (mt (h e hd).mp he), ih]

/-- Elsewhere a rename changes nothing. -/
theorem lookup_moveEntries_ne (hsrc : ¬ src <+: q) (hdst : ¬ dst <+: q) :
    (t.moveEntries src dst).lookup q = t.lookup q := by
  refine lookup_moveEntries_of_iff hdst fun e _ => ?_
  by_cases hs : src <+: e.1
  · rw [moved_of_above hs]
    exact ⟨fun he => absurd (he ▸ List.prefix_append _ _) hdst, fun he => absurd (he ▸ hs) hsrc⟩
  · rw [moved_of_not_above hs]

/-- What stood at the source stands at the target. -/
theorem lookup_moveEntries_dst (h : ¬ dst <+: src) : (t.moveEntries src dst).lookup dst = t.lookup src := by
  refine lookup_moveEntries_of_iff h fun e hd => ?_
  by_cases hs : src <+: e.1
  · rw [moved_of_above hs]
    obtain ⟨r, hr⟩ := hs
    rw [← hr]
    simp
  · rw [moved_of_not_above hs]
    exact ⟨fun he => absurd (he ▸ List.prefix_rfl) hd, fun he => absurd (he ▸ List.prefix_rfl) hs⟩

/-- Nothing stands at the source, or below it. -/
theorem lookup_moveEntries_src (hsrc : src <+: q) (hdst : ¬ dst <+: q) : (t.moveEntries src dst).lookup q = none := by
  rw [lookup_moveEntries, List.dlookup_eq_none, List.keys, List.map_map, List.mem_map]
  rintro ⟨e, -, he⟩
  by_cases hs : src <+: e.1
  · rw [Function.comp, moved_of_above hs] at he
    exact hdst (he ▸ List.prefix_append _ _)
  · rw [Function.comp, moved_of_not_above hs] at he
    exact hs (he ▸ hsrc)

theorem entry_eq_ok {o : Option Node} (h : t.entry p = .ok o) : t.stat p.dropLast = .ok .dir ∧ o = t.node p := by
  unfold Tree.entry at h
  split at h
  · cases h
  · next hdir =>
    split_ifs at h
    exact ⟨hdir, (Except.ok.inj h).symm⟩
  · cases h

/-- A rename moves its source, which it does not do to a directory that its target is in. -/
theorem runRename_cases (h : TreeOp.runRename src dst t = .ok t') : src = dst ∧ t' = t ∨
    src ≠ dst ∧ t' = t.moveEntries src dst ∧ (t.node src = some .dir → ¬ src <+: dst) := by
  unfold TreeOp.runRename at h
  split at h
  · cases h
  · cases h
  · cases h
  · split at h
    next heq => exact .inl ⟨heq, (Except.ok.inj h).symm⟩
    next heq =>
    split at h
    · cases h
    next hsub =>
    have hnot : ¬ src <+: dst := fun hp => hsub (List.isPrefixOf_iff_prefix.mpr hp)
    split at h
    · cases h
    split at h
    · exact .inr ⟨heq, (Except.ok.inj h).symm, fun _ => hnot⟩
    · split at h <;> cases h
      exact .inr ⟨heq, rfl, fun _ => hnot⟩
    · cases h
  · next n _ hn hsrc _ =>
    split_ifs at h with heq
    · exact .inl ⟨heq, (Except.ok.inj h).symm⟩
    · refine .inr ⟨heq, (Except.ok.inj h).symm, fun hd => absurd ?_ hn⟩
      rw [← (entry_eq_ok hsrc).2] at hd
      exact Option.some.inj hd

/-! ## The other changes -/

/-- The paths whose entry a change may touch. -/
def TreeOp.Touches : TreeOp → Path → Prop
  | mkdir p, q => q = p
  | create p, q => q = p
  | fill p _, q => q = p
  | rename src dst, q => src <+: q ∨ dst <+: q
  | remove p, q => q = p
  | discard p, q => q = p

theorem runRemove_eq_ok (h : TreeOp.runRemove p t = .ok t') : t' = t.erase p := by
  unfold TreeOp.runRemove at h
  split at h
  · cases h
  · cases h
  · split_ifs at h
    exact (Except.ok.inj h).symm
  · exact (Except.ok.inj h).symm

/-- **A path that a change does not touch keeps its entry.** -/
theorem TreeOp.run_lookup {op : TreeOp} (h : op.run t = .ok t') (hq : ¬ op.Touches q) : t'.lookup q = t.lookup q := by
  cases op with
  | mkdir p =>
    simp only [run] at h
    split at h <;> cases h
    · exact AList.lookup_insert_ne hq
    · rfl
  | create p | fill p data =>
    simp only [run] at h
    split at h <;> cases h
    exact AList.lookup_insert_ne hq
  | rename src dst =>
    rcases runRename_cases h with ⟨-, rfl⟩ | ⟨-, rfl, -⟩
    · rfl
    · exact lookup_moveEntries_ne (fun hp => hq (.inl hp)) fun hp => hq (.inr hp)
  | remove p =>
    rw [runRemove_eq_ok h]
    exact AList.lookup_erase_ne hq
  | discard p =>
    simp only [run] at h
    split at h
    · next hr =>
      cases h
      rw [runRemove_eq_ok hr]
      exact AList.lookup_erase_ne hq
    · cases h
      rfl

/-! ## Programs -/

/-- **A program that does not touch a path leaves its entry.** -/
theorem perform_lookup {ops : List TreeOp} (h : perform TreeOp.run ops t = .ok t') (hq : ∀ op ∈ ops, ¬ op.Touches q) :
    t'.lookup q = t.lookup q :=
  perform_invariant TreeOp.run (I := fun u => u.lookup q = t.lookup q) h rfl
    fun op hop _ _ hu hrun => (op.run_lookup hrun (hq op hop)).trans hu

/-- The making of directories changes no entry that is there. -/
theorem perform_mkdirParents {n : Node} (h : perform TreeOp.run (mkdirParents p) t = .ok t') (hq : q ≠ [])
    (hn : t.lookup q = some n) : t'.lookup q = some n := by
  refine perform_invariant TreeOp.run (I := fun u => u.lookup q = some n) h hn fun op hop u u' hu hrun => ?_
  obtain ⟨r, -, rfl⟩ := List.mem_map.mp hop
  by_cases hqr : q = r
  · subst hqr
    simp only [TreeOp.run] at hrun
    split at hrun <;> cases hrun
    · next he =>
      have hnone := (entry_eq_ok he).2
      rw [Tree.node, if_neg hq, hu] at hnone
      cases hnone
    · exact hu
  · exact (TreeOp.run_lookup hrun hqr).trans hu

theorem mkdirParents_touches {op : TreeOp} (hop : op ∈ mkdirParents p) (h : op.Touches q) : q <+: p ∧ q ≠ [] := by
  obtain ⟨r, hr, rfl⟩ := List.mem_map.mp hop
  cases h
  refine ⟨(List.mem_inits _ _).mp (List.mem_of_mem_tail hr), ?_⟩
  rintro rfl
  cases p with
  | nil => simp at hr
  | cons a l => simp at hr

/-! ### Writes -/

theorem tempSibling_ne {salt : String} : tempSibling p salt ≠ p := by
  intro h
  have hlast : p.getLast? = some ("." ++ p.getLast?.getD "" ++ "." ++ salt ++ ".tmp") := by
    conv_lhs => rw [← h, tempSibling]
    exact List.getLast?_concat
  have hname := congrArg (fun x => (x.getD "").length) hlast
  simp only [Option.getD_some, String.length_append] at hname
  have hdot : ("." : String).length = 1 := rfl
  omega

theorem tempSibling_length {salt : String} (hp : p ≠ []) : (tempSibling p salt).length = p.length := by
  have hpos := List.length_pos_iff.mpr hp
  simp [tempSibling]
  omega

/-- Neither is above the other. -/
theorem not_prefix_tempSibling {salt : String} (hp : p ≠ []) :
    ¬ p <+: tempSibling p salt ∧ ¬ tempSibling p salt <+: p :=
  ⟨fun h => tempSibling_ne (h.eq_of_length (tempSibling_length hp).symm).symm,
    fun h => tempSibling_ne (h.eq_of_length (tempSibling_length hp))⟩

/-- **A write leaves the file, and nothing at its temp sibling.** -/
theorem atomicWrite_lookup {data : Bytes} {salt : String} (hp : p ≠ [])
    (h : perform TreeOp.run (atomicWrite p data salt) t = .ok t') :
    t'.lookup p = some (.file data) ∧ t'.lookup (tempSibling p salt) = none := by
  obtain ⟨t1, h1, h⟩ := ok_of_bind h
  obtain ⟨t2, h2, h⟩ := ok_of_bind h
  obtain ⟨t3, h3, h⟩ := ok_of_bind h
  cases h
  have hfill : t2.lookup (tempSibling p salt) = some (.file data) := by
    simp only [TreeOp.run] at h2
    split at h2 <;> cases h2
    exact AList.lookup_insert _
  rcases runRename_cases h3 with ⟨heq, -⟩ | ⟨-, rfl, -⟩
  · exact absurd heq tempSibling_ne
  · exact ⟨(lookup_moveEntries_dst (not_prefix_tempSibling hp).1).trans hfill,
      lookup_moveEntries_src List.prefix_rfl (not_prefix_tempSibling hp).1⟩

/-- The file that a write of `p` puts in place changes no other entry, except those at its temp sibling. -/
theorem atomicWrite_lookup_ne {data : Bytes} {salt : String} (hpq : ¬ p <+: q) (hsib : ¬ tempSibling p salt <+: q)
    (h : perform TreeOp.run (atomicWrite p data salt) t = .ok t') : t'.lookup q = t.lookup q := by
  refine perform_lookup h fun op hop => ?_
  have htemp : q ≠ tempSibling p salt := fun he => hsib (he ▸ List.prefix_rfl)
  simp only [atomicWrite, List.mem_cons, List.not_mem_nil, or_false] at hop
  rcases hop with rfl | rfl | rfl
  · exact htemp
  · exact htemp
  · exact not_or.mpr ⟨hsib, hpq⟩

/-! ## Edits of the live snapshot -/

/-- Changes of a directory, in whatever area it stands. -/
theorem perform_changes_dir {d : DirId} {area : Area} {ops : List TreeOp} {k k' : Disk}
    (hk : k.dirs.lookup d = some ⟨area, t⟩) (h : perform Write.run (ops.map (.change d)) k = .ok k') :
    ∃ t', perform TreeOp.run ops t = .ok t' ∧ k'.dirs.lookup d = some ⟨area, t'⟩ ∧ k'.current = k.current := by
  induction ops generalizing k t with
  | nil =>
    cases h
    exact ⟨t, rfl, hk, rfl⟩
  | cons op ops ih =>
    obtain ⟨k1, h1, h⟩ := ok_of_bind h
    simp only [Write.run, hk] at h1
    split at h1 <;> cases h1
    next u hu =>
    have hk1 : (k.setDir d ⟨area, u⟩).dirs.lookup d = some ⟨area, u⟩ := AList.lookup_insert _
    obtain ⟨t', ht', hk'⟩ := ih hk1 h
    refine ⟨t', ?_, hk'⟩
    simp only [perform, hu]
    exact ht'

theorem perform_changes {d : DirId} {ops : List TreeOp} {k k' : Disk} (hk : k.currentTree = some (d, t))
    (h : perform Write.run (ops.map (.change d)) k = .ok k') :
    ∃ t', perform TreeOp.run ops t = .ok t' ∧ k'.currentTree = some (d, t') := by
  obtain ⟨hcur, hdir⟩ := Disk.current_of_currentTree hk
  obtain ⟨t', ht', hdir', hcur'⟩ := perform_changes_dir hdir h
  refine ⟨t', ht', ?_⟩
  simp only [Disk.currentTree, hcur', hcur, hdir']

/-- The changes of the live snapshot are those of its tree, as far as they go. -/
theorem attempt_changes {d : DirId} {ops : List TreeOp} {k : Disk} (hk : k.currentTree = some (d, t)) :
    ∃ k', attempt Write.run (ops.map (.change d)) k = (k', (attempt TreeOp.run ops t).2) ∧
      k'.currentTree = some (d, (attempt TreeOp.run ops t).1) := by
  induction ops generalizing k t with
  | nil => exact ⟨k, rfl, hk⟩
  | cons op ops ih =>
    obtain ⟨hcur, hdir⟩ := Disk.current_of_currentTree hk
    cases hop : op.run t with
    | error e =>
      have hrun : Write.run (.change d op) k = .error e := by simp only [Write.run, hdir, hop]
      rw [List.map_cons, attempt_cons_error Write.run hrun, attempt_cons_error TreeOp.run hop]
      exact ⟨k, rfl, hk⟩
    | ok t' =>
      have hrun : Write.run (.change d op) k = .ok (k.setDir d ⟨.snapshots, t'⟩) := by
        simp only [Write.run, hdir, hop]
      have hk' : (k.setDir d ⟨.snapshots, t'⟩).currentTree = some (d, t') := by
        simp only [Disk.currentTree, Disk.setDir, hcur, AList.lookup_insert]
      rw [List.map_cons, attempt_cons_ok Write.run hrun, attempt_cons_ok TreeOp.run hop]
      exact ih hk'

theorem currentTree_mark {k k' : Disk} {m : Marker} (h : Write.run (.mark m) k = .ok k') :
    k'.currentTree = k.currentTree := by
  cases h
  rfl

/-- **The tree that an edit leaves.** -/
theorem edit_currentTree {k k' : Disk} {e : Edit} (hk : k.currentTree = some (e.live, t))
    (h : perform Write.run (editWrites k e) k = .ok k') : ∃ t', perform TreeOp.run e.ops t = .ok t' ∧
      (k'.currentTree = some (e.live, t') ∨ e.wipe = true ∧ k'.currentTree = none) := by
  obtain ⟨k2, h12, h3⟩ := (perform_append Write.run).mp h
  obtain ⟨k1, h1, h2⟩ := (perform_append Write.run).mp h12
  obtain ⟨t', ht', hk1⟩ := perform_changes hk h1
  refine ⟨t', ht', ?_⟩
  obtain ⟨k3, hmark, h3⟩ := ok_of_bind h3
  cases h3
  rw [currentTree_mark hmark]
  split_ifs at h2 with hw
  · obtain ⟨k4, hrm, h2⟩ := ok_of_bind h2
    cases h2
    obtain ⟨hcur, hdir⟩ := Disk.current_of_currentTree hk1
    simp only [Write.run, hdir] at hrm
    split_ifs at hrm with hempty <;> cases hrm
    · refine .inr ⟨hw, ?_⟩
      simp only [Disk.currentTree, hcur, AList.lookup_erase]
    · exact .inl hk1
  · cases h2
    exact .inl hk1

/-- **The tree that a first write publishes.** -/
theorem first_currentTree {d : DirId} {ops : List TreeOp} {k k' : Disk}
    (h : perform Write.run (firstWrites k d ops) k = .ok k') :
    ∃ t', perform TreeOp.run ops ∅ = .ok t' ∧ k'.currentTree = some (d, t') := by
  obtain ⟨k1, hmk, h⟩ := ok_of_bind h
  obtain ⟨k2, h2, h⟩ := (perform_append Write.run).mp h
  have hk1 : k1.dirs.lookup d = some ⟨.incoming, ∅⟩ := by
    simp only [Write.run] at hmk
    split at hmk <;> cases hmk
    exact AList.lookup_insert _
  obtain ⟨t', ht', hdir, -⟩ := perform_changes_dir hk1 h2
  refine ⟨t', ht', ?_⟩
  obtain ⟨k3, hmove, h⟩ := ok_of_bind h
  obtain ⟨k4, hflip, h⟩ := ok_of_bind h
  obtain ⟨k5, hmark, h⟩ := ok_of_bind h
  cases h
  rw [currentTree_mark hmark]
  simp only [Write.run, hdir] at hmove
  cases hmove
  cases hflip
  simp only [Disk.currentTree, Disk.setDir, AList.lookup_insert]

/-- An edit does not move `current`. -/
theorem edit_current {k k' : Disk} {e : Edit} (h : perform Write.run (editWrites k e) k = .ok k') :
    k'.current = k.current := by
  refine perform_invariant Write.run (I := fun u => u.current = k.current) h rfl fun w hw u u' hu hrun => ?_
  rw [Write.run_current hrun ?_ ?_, hu]
  all_goals
    simp only [editWrites, List.mem_append, List.mem_map, List.mem_singleton] at hw
    rcases hw with (⟨op, -, rfl⟩ | hw) | rfl
    · simp
    · split_ifs at hw
      · rw [List.mem_singleton] at hw
        simp [hw]
      · cases hw
    · simp

/-! ### The edits of the mutators -/

section

variable {k : Disk} {w : Work} {p src dst : RelPath}

theorem checkWriteFile_eq_ok {data : Bytes} {d : DirId} {salt : String} (hk : k.current ≠ none)
    (h : checkWriteFile p data d salt k = .ok w) : p.parts ≠ [] ∧ ∃ live t, k.currentTree = some (live, t) ∧
      w = .edit { live := live, ops := mkdirParents p.parts.dropLast ++ atomicWrite p.parts data salt,
                  undo := [.discard (tempSibling p.parts salt)] } := by
  simp only [checkWriteFile, if_neg hk] at h
  split at h
  · cases h
  next hp =>
  obtain ⟨⟨live, t⟩, hc, h⟩ := Lib.ok_of_bind h
  obtain ⟨-, -, h⟩ := Lib.ok_of_bind h
  split_ifs at h
  split at h <;> cases h
  exact ⟨hp, live, t, currentDir_ok hc, rfl⟩

theorem checkDeleteFile_eq_ok (h : checkDeleteFile p k = .ok w) : ∃ live t, k.currentTree = some (live, t) ∧
    w = .edit { live := live, ops := [.remove p.parts] } := by
  obtain ⟨⟨live, t⟩, hc, h⟩ := Lib.ok_of_bind h
  obtain ⟨-, -, h⟩ := Lib.ok_of_bind h
  split_ifs at h
  exact ⟨live, t, currentDir_ok hc, (Except.ok.inj h).symm⟩

theorem checkDeleteDir_eq_ok {order : List Path} (h : checkDeleteDir p order k = .ok w) :
    ∃ live t, k.currentTree = some (live, t) ∧ existingDir t p.parts ∧
      (p.parts = [] ∧ w = .edit { live := live, ops := order.map .remove, wipe := true } ∨
        p.parts ≠ [] ∧ w = .edit { live := live, ops := order.map .remove ++ [.remove p.parts] }) := by
  obtain ⟨⟨live, t⟩, hc, h⟩ := Lib.ok_of_bind h
  obtain ⟨-, -, h⟩ := Lib.ok_of_bind h
  split at h
  · cases h
  next hdir =>
  have hdir' : existingDir t p.parts := by
    simp only [Bool.or_eq_true, Bool.not_eq_true', not_or, Bool.not_eq_false] at hdir
    exact hdir.2
  refine ⟨live, t, currentDir_ok hc, hdir', ?_⟩
  split at h
  next hp => exact .inl ⟨hp, (Except.ok.inj h).symm⟩
  next hp => exact .inr ⟨hp, (Except.ok.inj h).symm⟩

theorem checkRename_eq_ok {isSource : Tree → Path → Bool} {missing : Err} (h : checkRename isSource missing src dst k = .ok w) :
    ∃ live t, k.currentTree = some (live, t) ∧ isSource t src.parts ∧
      w = .edit { live := live, ops := mkdirParents dst.parts.dropLast ++ [.rename src.parts dst.parts] } := by
  obtain ⟨⟨live, t⟩, hc, h⟩ := Lib.ok_of_bind h
  obtain ⟨-, -, h⟩ := Lib.ok_of_bind h
  obtain ⟨-, -, h⟩ := Lib.ok_of_bind h
  split_ifs at h with hlink hsrc
  refine ⟨live, t, currentDir_ok hc, ?_, (Except.ok.inj h).symm⟩
  simpa using hsrc

theorem checkMakeDir_eq_ok (h : checkMakeDir p k = .ok w) : ∃ live t, k.currentTree = some (live, t) ∧
    w = .edit { live := live, ops := mkdirParents p.parts } := by
  obtain ⟨⟨live, t⟩, hc, h⟩ := Lib.ok_of_bind h
  obtain ⟨-, -, h⟩ := Lib.ok_of_bind h
  split_ifs at h
  exact ⟨live, t, currentDir_ok hc, (Except.ok.inj h).symm⟩

end

end McServerDashboard.Fs
