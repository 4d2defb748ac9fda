import McServerDashboard.Fs.Frame

/-!
# Well-formed directory trees

A tree that the system calls made is *shaped*: every directory above an entry is there, and no name
is overlong. In a shaped tree an entry is found where it is, and nothing stands below a file.

* `walk_spec`, `stat_of_lookup`: what resolving a path says of the tree, and when a path resolves.
* `Tree.Shaped`, `Shaped.insert`, `Shaped.erase`: the invariant.
* **`atomicWrite_spec`**: in a shaped tree a write changes the entry of its file and no other.
* **`atomicWrite_ok`**: when it succeeds.
-/

namespace McServerDashboard.Fs

open Lib

variable {t t' : Tree} {p q pre rest : Path} {n : Node} {data : Bytes} {salt : String}

/-! ## Resolving a path -/

/-- What a walk that succeeds has met. -/
theorem walk_spec (h : t.walk pre rest = .ok n) : (∀ part ∈ rest, isOverlong part = false) ∧
    (∀ r, r <+: rest → r ≠ [] → r ≠ rest → t.lookup (pre ++ r) = some .dir) ∧
    (rest = [] → n = .dir) ∧ (rest ≠ [] → t.lookup (pre ++ rest) = some n) := by
  induction rest generalizing pre with
  | nil =>
    cases h
    refine ⟨fun _ hpart => absurd hpart List.not_mem_nil, fun r hr hne => ?_, fun _ => rfl, fun h => absurd rfl h⟩
    exact absurd (List.prefix_nil.mp hr) hne
  | cons part rest ih =>
    rw [Tree.walk_cons] at h
    split at h
    · cases h
    next hlong =>
    have hshort : isOverlong part = false := Bool.eq_false_iff.mpr hlong
    have hstop : ∀ {m : Node}, t.lookup (pre ++ [part]) = some m → rest = [] → m = n →
        (∀ x ∈ part :: rest, isOverlong x = false) ∧
        (∀ r, r <+: part :: rest → r ≠ [] → r ≠ part :: rest → t.lookup (pre ++ r) = some .dir) ∧
        (part :: rest = [] → n = .dir) ∧ (part :: rest ≠ [] → t.lookup (pre ++ part :: rest) = some n) := by
      rintro m hm rfl rfl
      refine ⟨fun x hx => List.mem_singleton.mp hx ▸ hshort, fun r hr hne hfull => ?_, nofun, fun _ => hm⟩
      rcases List.prefix_cons_iff.mp hr with rfl | ⟨r', rfl, hr'⟩
      · exact absurd rfl hne
      · exact absurd (List.prefix_nil.mp hr' ▸ rfl) hfull
    split at h
    · cases h
    · next hdir =>
      obtain ⟨hnames, habove, hroot, hlast⟩ := ih h
      refine ⟨fun x hx => ?_, fun r hr hne hfull => ?_, nofun, fun _ => ?_⟩
      · rcases List.mem_cons.mp hx with rfl | hx
        · exact hshort
        · exact hnames x hx
      · rcases List.prefix_cons_iff.mp hr with rfl | ⟨r', rfl, hr'⟩
        · exact absurd rfl hne
        · rcases eq_or_ne r' [] with rfl | hne'
          · exact hdir
          · rw [List.append_cons]
            exact habove r' hr' hne' fun he => hfull (he ▸ rfl)
      · rcases eq_or_ne rest [] with rfl | hne
        · rw [hroot rfl]
          exact hdir
        · rw [List.append_cons]
          exact hlast hne
    · next hlink =>
      split_ifs at h with hrest
      exact hstop hlink hrest (Except.ok.inj h)
    · next hfile =>
      split_ifs at h with hrest
      exact hstop hfile hrest (Except.ok.inj h)

/-- A walk over directories to an entry. -/
theorem walk_of (hnames : ∀ part ∈ rest, isOverlong part = false)
    (habove : ∀ r, r <+: rest → r ≠ [] → r ≠ rest → t.lookup (pre ++ r) = some .dir)
    (hroot : rest = [] → n = .dir) (hlast : rest ≠ [] → t.lookup (pre ++ rest) = some n) : t.walk pre rest = .ok n := by
  induction rest generalizing pre with
  | nil =>
    rw [hroot rfl]
    rfl
  | cons part rest ih =>
    rw [Tree.walk_cons, if_neg (Bool.eq_false_iff.mp (hnames part List.mem_cons_self))]
    rcases eq_or_ne rest [] with rfl | hne
    · rw [hlast nofun]
      cases n <;> rfl
    · have hdir : t.lookup (pre ++ [part]) = some .dir :=
        habove [part] ⟨rest, rfl⟩ (by simp) fun he => hne (List.cons.inj he).2.symm
      rw [hdir]
      refine ih (fun x hx => hnames x (List.mem_cons_of_mem _ hx)) (fun r hr _ hfull => ?_) (fun he => absurd he hne)
        fun _ => ?_
      · rw [← List.append_cons]
        exact habove (part :: r) (List.cons_prefix_cons.mpr ⟨rfl, hr⟩) nofun fun he => hfull (List.cons.inj he).2
      · rw [← List.append_cons]
        exact hlast nofun

theorem lookup_of_stat (h : t.stat p = .ok n) (hp : p ≠ []) : t.lookup p = some n := (walk_spec h).2.2.2 hp

theorem dir_of_stat (h : t.stat p = .ok n) (hqp : q <+: p) (hq : q ≠ []) (hne : q ≠ p) : t.lookup q = some .dir :=
  (walk_spec h).2.1 q hqp hq hne

theorem names_of_stat (h : t.stat p = .ok n) : ∀ part ∈ p, isOverlong part = false := (walk_spec h).1

/-- What is above a path that resolves is a directory. -/
theorem stat_above (h : t.stat p = .ok n) (hqp : q <+: p) (hne : q ≠ p) : t.stat q = .ok .dir := by
  refine walk_of (fun part hpart => names_of_stat h part (hqp.subset hpart)) (fun r hr hr0 _ => ?_) (fun _ => rfl)
    fun hq => dir_of_stat h hqp hq hne
  refine dir_of_stat h (hr.trans hqp) hr0 ?_
  rintro rfl
  exact hne (hqp.eq_of_length_le hr.length_le)

/-- Trees that agree along a path resolve it in the same way. -/
theorem stat_congr (h : ∀ q, q <+: p → q ≠ [] → t'.lookup q = t.lookup q) (hstat : t.stat p = .ok n) : t'.stat p = .ok n := by
  refine walk_of (names_of_stat hstat) (fun r hr hr0 hne => ?_) (walk_spec hstat).2.2.1 fun hp => ?_
  · exact (h r hr hr0).trans (dir_of_stat hstat hr hr0 hne)
  · exact (h p List.prefix_rfl hp).trans (lookup_of_stat hstat hp)

/-- The entry that a call on `p` acts on. -/
theorem entry_of_stat (hdir : t.stat p.dropLast = .ok .dir) (hname : ∀ part ∈ p.getLast?, isOverlong part = false) :
    t.entry p = .ok (t.node p) := by
  rw [Tree.entry, hdir]
  dsimp only
  cases hlast : p.getLast? with
  | none => rfl
  | some part =>
    rw [Option.map_some, Option.getD_some, if_neg]
    exact Bool.eq_false_iff.mp (hname part hlast)

/-- A call that looks at an entry has resolved the directory above it. -/
theorem entry_spec {o : Option Node} (h : t.entry p = .ok o) :
    t.stat p.dropLast = .ok .dir ∧ (∀ part ∈ p.getLast?, isOverlong part = false) ∧ o = t.node p := by
  unfold Tree.entry at h
  split at h
  · cases h
  · next hdir =>
    split_ifs at h with hlong
    refine ⟨hdir, fun part hpart => ?_, (Except.ok.inj h).symm⟩
    rw [Option.mem_def.mp hpart, Option.map_some, Option.getD_some] at hlong
    exact Bool.eq_false_iff.mpr hlong
  · cases h

/-! ## Shaped trees -/

/-- Every directory above an entry is there, and no name is overlong. -/
structure Tree.Shaped (t : Tree) : Prop where
  root : t.lookup [] = none
  names : ∀ q n, t.lookup q = some n → ∀ part ∈ q, isOverlong part = false
  above : ∀ q n r, t.lookup q = some n → r <+: q → r ≠ [] → r ≠ q → t.lookup r = some .dir

namespace Tree.Shaped

theorem empty : Tree.Shaped ∅ where
  root := AList.lookup_empty _
  names := fun q n h => absurd h (by rw [AList.lookup_empty]; nofun)
  above := fun q n r h => absurd h (by rw [AList.lookup_empty]; nofun)

theorem ne_root (h : t.Shaped) (hq : t.lookup q = some n) : q ≠ [] := by
  rintro rfl
  rw [h.root] at hq
  cases hq

/-- In a shaped tree an entry is found. -/
theorem stat_of_lookup (h : t.Shaped) (hq : t.lookup q = some n) : t.stat q = .ok n :=
  walk_of (h.names q n hq) (fun r hr hr0 hne => h.above q n r hq hr hr0 hne) (fun h0 => absurd h0 (h.ne_root hq)) fun _ => hq

/-- Nothing stands below what is no directory. -/
theorem none_below (h : t.Shaped) (hp : p ≠ []) (hdir : t.lookup p ≠ some .dir) (hpq : p <+: q) (hne : p ≠ q) :
    t.lookup q = none := by
  cases hq : t.lookup q with
  | none => rfl
  | some n => exact absurd (h.above q n p hq hpq hp hne) hdir

/-- A new entry in a directory, or another content of an entry that is no directory. -/
theorem insert (h : t.Shaped) (hp : p ≠ []) (hparent : t.stat p.dropLast = .ok .dir)
    (hname : ∀ part ∈ p.getLast?, isOverlong part = false) (hold : t.lookup p ≠ some .dir) : Shaped (t.insert p n) where
  root := by
    rw [AList.lookup_insert_ne hp.symm]
    exact h.root
  names := by
    intro q m hq part hpart
    rcases eq_or_ne q p with rfl | hne
    · rw [← List.dropLast_append_getLast hp] at hpart
      rcases List.mem_append.mp hpart with hpart | hpart
      · exact names_of_stat hparent part hpart
      · rw [List.mem_singleton.mp hpart]
        exact hname _ (List.getLast?_eq_some_getLast hp)
    · rw [AList.lookup_insert_ne hne] at hq
      exact h.names q m hq part hpart
  above := by
    intro q m r hq hr hr0 hne
    have hrp : r ≠ p := by
      rintro rfl
      rw [AList.lookup_insert_ne hne.symm, h.none_below hp hold hr hne] at hq
      cases hq
    rw [AList.lookup_insert_ne hrp]
    rcases eq_or_ne q p with rfl | hqp
    · have hup : r <+: q.dropLast := by
        obtain ⟨s, rfl⟩ := hr
        rcases List.eq_nil_or_concat s with rfl | ⟨s, x, rfl⟩
        · exact absurd (List.append_nil r).symm hne
        · rw [List.concat_eq_append, ← List.append_assoc, List.dropLast_concat]
          exact List.prefix_append _ _
      rcases eq_or_ne r q.dropLast with rfl | hne'
      · exact lookup_of_stat hparent hr0
      · exact dir_of_stat hparent hup hr0 hne'
    · rw [AList.lookup_insert_ne hqp] at hq
      exact h.above q m r hq hr hr0 hne

/-- An entry that is no directory may go. -/
theorem erase (h : t.Shaped) (hold : t.lookup p ≠ some .dir) : Shaped (t.erase p) where
  root := by
    rcases eq_or_ne p [] with rfl | hne
    · exact AList.lookup_erase _ _
    · rw [AList.lookup_erase_ne hne.symm]
      exact h.root
  names := by
    intro q m hq
    have hne : q ≠ p := by
      rintro rfl
      rw [AList.lookup_erase] at hq
      cases hq
    rw [AList.lookup_erase_ne hne] at hq
    exact h.names q m hq
  above := by
    intro q m r hq hr hr0 hne
    have hqp : q ≠ p := by
      rintro rfl
      rw [AList.lookup_erase] at hq
      cases hq
    rw [AList.lookup_erase_ne hqp] at hq
    have hdir := h.above q m r hq hr hr0 hne
    have hrp : r ≠ p := by
      rintro rfl
      exact hold hdir
    rw [AList.lookup_erase_ne hrp]
    exact hdir

end Tree.Shaped

theorem Tree.Shaped.congr (h : t.Shaped) (hsame : ∀ q, t'.lookup q = t.lookup q) : t'.Shaped where
  root := (hsame []).trans h.root
  names := fun q n hq => h.names q n ((hsame q).symm.trans hq)
  above := fun q n r hq hr hr0 hne => (hsame r).trans (h.above q n r ((hsame q).symm.trans hq) hr hr0 hne)

/-! ## The rename of a file over its sibling -/

section

variable {src dst : Path}

/-- What stood below the source stands below the target. -/
theorem lookup_moveEntries_below (s : Path) (h : ¬ dst <+: src ++ s) :
    (t.moveEntries src dst).lookup (dst ++ s) = t.lookup (src ++ s) := by
  refine lookup_moveEntries_of_iff h fun e hd => ?_
  by_cases hs : src <+: e.1
  · rw [moved_of_above hs]
    obtain ⟨r, hr⟩ := hs
    rw [← hr]
    simp
  · rw [moved_of_not_above hs]
    exact ⟨fun he => absurd (he ▸ List.prefix_append _ _) hd, fun he => absurd (he ▸ List.prefix_append _ _) hs⟩

/-- A file takes the place of its sibling. -/
theorem lookup_rename_file (h : t.Shaped) (hlen : src.length = dst.length) (hne : src ≠ dst) (hd0 : dst ≠ [])
    (hsrc : t.lookup src = some (.file data)) (hdst : t.lookup dst ≠ some .dir) (q : Path) :
    (t.moveEntries src dst).lookup q = ((t.erase src).insert dst (.file data)).lookup q := by
  have hs0 : src ≠ [] := h.ne_root hsrc
  have hapart : ∀ s, ¬ dst <+: src ++ s := by
    intro s hp
    have hpre := List.prefix_of_prefix_length_le hp (List.prefix_append src s) hlen.ge
    exact hne (hpre.eq_of_length hlen.symm).symm
  have hfile : t.lookup src ≠ some .dir := by
    rw [hsrc]
    nofun
  by_cases hdq : dst <+: q
  · obtain ⟨s, rfl⟩ := hdq
    rw [lookup_moveEntries_below s (hapart s)]
    rcases eq_or_ne s [] with rfl | hs
    · rw [List.append_nil, List.append_nil, AList.lookup_insert, hsrc]
    · have hbelow : ∀ p : Path, p ≠ p ++ s := fun p he => hs (List.append_right_eq_self.mp he.symm)
      have hsrc' : ¬ dst ++ s = src := fun he => hapart [] (he ▸ List.append_nil _ ▸ List.prefix_append _ _)
      rw [h.none_below hs0 hfile (List.prefix_append _ _) (hbelow src), AList.lookup_insert_ne (hbelow dst).symm,
        AList.lookup_erase_ne hsrc', h.none_below hd0 hdst (List.prefix_append _ _) (hbelow dst)]
  · have hqd : q ≠ dst := fun he => hdq (he ▸ List.prefix_rfl)
    rw [AList.lookup_insert_ne hqd]
    by_cases hsq : src <+: q
    · rw [lookup_moveEntries_src hsq hdq]
      rcases eq_or_ne q src with rfl | hqs
      · rw [AList.lookup_erase]
      · rw [AList.lookup_erase_ne hqs, h.none_below hs0 hfile hsq hqs.symm]
    · have hqs : q ≠ src := fun he => hsq (he ▸ List.prefix_rfl)
      rw [lookup_moveEntries_ne hsq hdq, AList.lookup_erase_ne hqs]

theorem node_of_ne (hp : p ≠ []) : t.node p = t.lookup p := if_neg hp

/-- A rename of a file that succeeds has found its target in a directory, and no directory at it. -/
theorem runRename_file (h : TreeOp.runRename src dst t = .ok t') (hs0 : src ≠ []) (hd0 : dst ≠ [])
    (hsrc : t.lookup src = some (.file data)) (hne : src ≠ dst) : t' = t.moveEntries src dst ∧
      t.lookup dst ≠ some .dir ∧ t.stat dst.dropLast = .ok .dir ∧ ∀ part ∈ dst.getLast?, isOverlong part = false := by
  have hcases := runRename_cases h
  unfold TreeOp.runRename at h
  split at h
  · cases h
  · cases h
  · cases h
  · next _ hentry _ =>
    have hnode := (entry_spec hentry).2.2
    rw [node_of_ne hs0, hsrc] at hnode
    cases hnode
  · next _ old _ _ hdst =>
    obtain ⟨hdir, hname, rfl⟩ := entry_spec hdst
    rw [if_neg hne] at h
    split_ifs at h with hold
    rw [node_of_ne hd0] at hold
    rcases hcases with ⟨he, -⟩ | ⟨-, hmove, -⟩
    · exact absurd he hne
    · exact ⟨hmove, hold, hdir, hname⟩

end

/-! ## Writes -/

theorem tempSibling_ne_nil : tempSibling p salt ≠ [] := by
  rw [tempSibling]
  exact List.append_ne_nil_of_right_ne_nil _ (List.cons_ne_nil _ _)

theorem dropLast_tempSibling : (tempSibling p salt).dropLast = p.dropLast := List.dropLast_concat

/-- Two inserts of the same path are the second. -/
theorem lookup_insert_insert (m : Node) : ((t.insert p m).insert p n).lookup q = (t.insert p n).lookup q := by
  rcases eq_or_ne q p with rfl | hne
  · rw [AList.lookup_insert, AList.lookup_insert]
  · rw [AList.lookup_insert_ne hne, AList.lookup_insert_ne hne, AList.lookup_insert_ne hne]

/-- **In a shaped tree a write changes the entry of its file and no other.** -/
theorem atomicWrite_spec (h : t.Shaped) (hp : p ≠ []) (hw : perform TreeOp.run (atomicWrite p data salt) t = .ok t') :
    t'.Shaped ∧ t.lookup p ≠ some .dir ∧ ∀ q, t'.lookup q = (t.insert p (.file data)).lookup q := by
  obtain ⟨t1, h1, hw⟩ := ok_of_bind hw
  obtain ⟨t2, h2, hw⟩ := ok_of_bind hw
  obtain ⟨t3, h3, hw⟩ := ok_of_bind hw
  cases hw
  have htemp : tempSibling p salt ≠ [] := tempSibling_ne_nil
  have hne : tempSibling p salt ≠ p := tempSibling_ne
  simp only [TreeOp.run] at h1
  split at h1 <;> try cases h1
  next hentry =>
  obtain ⟨hparent, hname, hnone⟩ := entry_spec hentry
  rw [node_of_ne htemp] at hnone
  have ht2 : t2 = (t.insert (tempSibling p salt) (.file [])).insert (tempSibling p salt) (.file data) := by
    simp only [TreeOp.run] at h2
    split at h2 <;> cases h2
    rfl
  have hlook : ∀ q, t2.lookup q = (t.insert (tempSibling p salt) (.file data)).lookup q := by
    intro q
    rw [ht2]
    exact lookup_insert_insert _
  have hshaped2 : t2.Shaped := by
    refine Tree.Shaped.congr (h.insert htemp hparent hname ?_) hlook
    rw [← hnone]
    exact fun h => by cases h
  have hsrc := (hlook (tempSibling p salt)).trans (AList.lookup_insert _)
  obtain ⟨rfl, hold, hdir, hlast⟩ := runRename_file h3 htemp hp hsrc hne
  have hold' : t.lookup p ≠ some .dir := by
    rw [hlook, AList.lookup_insert_ne hne.symm] at hold
    exact hold
  have hfinal : ∀ q, (t2.moveEntries (tempSibling p salt) p).lookup q = (t.insert p (.file data)).lookup q := by
    intro q
    rw [lookup_rename_file hshaped2 (tempSibling_length hp) hne hp hsrc hold]
    rcases eq_or_ne q p with rfl | hqp
    · rw [AList.lookup_insert, AList.lookup_insert]
    · rw [AList.lookup_insert_ne hqp, AList.lookup_insert_ne hqp]
      rcases eq_or_ne q (tempSibling p salt) with rfl | hqt
      · rw [AList.lookup_erase, ← hnone]
      · rw [AList.lookup_erase_ne hqt, hlook, AList.lookup_insert_ne hqt]
  refine ⟨Tree.Shaped.congr (h.insert hp ?_ hlast hold') hfinal, hold', hfinal⟩
  rw [← @dropLast_tempSibling p salt]
  exact hparent

/-- **When a write succeeds**: its directory is there, no directory is in its place, and there is room
for the name of the temp sibling, which nothing has yet. -/
theorem atomicWrite_ok (hp : p ≠ []) (hparent : t.stat p.dropLast = .ok .dir)
    (hname : ∀ part ∈ p.getLast?, isOverlong part = false)
    (htemp : ∀ part ∈ (tempSibling p salt).getLast?, isOverlong part = false)
    (hfree : t.lookup (tempSibling p salt) = none) (hold : t.lookup p ≠ some .dir) :
    ∃ t', perform TreeOp.run (atomicWrite p data salt) t = .ok t' := by
  have h0 : tempSibling p salt ≠ [] := tempSibling_ne_nil
  have hne : tempSibling p salt ≠ p := tempSibling_ne
  have hsib : t.stat (tempSibling p salt).dropLast = .ok .dir := by rwa [dropLast_tempSibling]
  have hkeep : ∀ n : Node, Tree.stat (t.insert (tempSibling p salt) n) p.dropLast = .ok .dir := by
    refine fun n => stat_congr (fun q hq _ => AList.lookup_insert_ne ?_) hparent
    rintro rfl
    have := hq.length_le
    rw [tempSibling_length hp, List.length_dropLast] at this
    have := List.length_pos_iff.mpr hp
    omega
  have h1 : TreeOp.run (.create (tempSibling p salt)) t = .ok (t.insert (tempSibling p salt) (.file [])) := by
    simp only [TreeOp.run, entry_of_stat hsib htemp, node_of_ne h0, hfree]
  have h2 : TreeOp.run (.fill (tempSibling p salt) data) (t.insert (tempSibling p salt) (.file [])) =
      .ok ((t.insert (tempSibling p salt) (.file [])).insert (tempSibling p salt) (.file data)) := by
    have hentry := entry_of_stat (p := tempSibling p salt) (dropLast_tempSibling ▸ hkeep (.file [])) htemp
    rw [node_of_ne h0, AList.lookup_insert] at hentry
    simp only [TreeOp.run, hentry]
  have h3 : ∃ t3, TreeOp.run (.rename (tempSibling p salt) p)
      ((t.insert (tempSibling p salt) (.file [])).insert (tempSibling p salt) (.file data)) = .ok t3 := by
    rw [AList.insert_insert]
    have hsrc := entry_of_stat (p := tempSibling p salt) (dropLast_tempSibling ▸ hkeep (.file data)) htemp
    have hdst := entry_of_stat (hkeep (.file data)) hname
    rw [node_of_ne h0, AList.lookup_insert] at hsrc
    rw [node_of_ne hp, AList.lookup_insert_ne hne.symm] at hdst
    simp only [TreeOp.run, TreeOp.runRename, hsrc, hdst, if_neg hne, if_neg hold]
    exact ⟨_, rfl⟩
  obtain ⟨t3, h3⟩ := h3
  refine ⟨t3, ?_⟩
  simp only [atomicWrite, perform, h1, h2, h3, Except.bind]

/-! ## Directories -/

/-- The making of a directory adds a directory where nothing was, or does nothing. -/
theorem run_mkdir (h : TreeOp.run (.mkdir p) t = .ok t') (hp : p ≠ []) : t' = t ∨
    t' = t.insert p .dir ∧ t.lookup p = none ∧ t.stat p.dropLast = .ok .dir ∧ ∀ part ∈ p.getLast?, isOverlong part = false := by
  simp only [TreeOp.run] at h
  split at h <;> try cases h
  · next hentry =>
    obtain ⟨hdir, hname, hnone⟩ := entry_spec hentry
    rw [node_of_ne hp] at hnone
    exact .inr ⟨rfl, hnone.symm, hdir, hname⟩
  · exact .inl rfl

theorem ne_nil_of_mem_mkdirParents {op : TreeOp} (h : op ∈ mkdirParents p) : ∃ r, op = .mkdir r ∧ r ≠ [] ∧ r <+: p := by
  obtain ⟨r, hr, rfl⟩ := List.mem_map.mp h
  obtain ⟨hpre, hne⟩ := mkdirParents_touches h (q := r) rfl
  exact ⟨r, rfl, hne, hpre⟩

/-- A directory that is there is not made again. -/
theorem mkdirParents_here (h : t.stat p = .ok .dir) : perform TreeOp.run (mkdirParents p) t = .ok t := by
  have hops : ∀ ops : List TreeOp, (∀ op ∈ ops, op ∈ mkdirParents p) → perform TreeOp.run ops t = .ok t := by
    intro ops
    induction ops with
    | nil => exact fun _ => rfl
    | cons op ops ih =>
      intro hall
      obtain ⟨r, rfl, hne, hpre⟩ := ne_nil_of_mem_mkdirParents (hall op List.mem_cons_self)
      have hup : r.dropLast <+: p := (List.dropLast_prefix r).trans hpre
      have hshort : r.dropLast ≠ p := by
        rintro rfl
        have := hpre.length_le
        rw [List.length_dropLast] at this
        have := List.length_pos_iff.mpr hne
        omega
      have hlook : t.lookup r = some .dir := by
        rcases eq_or_ne r p with rfl | hrp
        · exact lookup_of_stat h hne
        · exact dir_of_stat h hpre hne hrp
      have hentry := entry_of_stat (stat_above h hup hshort) fun part hpart =>
        names_of_stat h part (hpre.subset (List.mem_of_getLast? hpart))
      rw [node_of_ne hne, hlook] at hentry
      have hrun : TreeOp.run (.mkdir r) t = .ok t := by simp only [TreeOp.run, hentry]
      rw [perform, hrun]
      exact ih fun op hop => hall op (List.mem_cons_of_mem _ hop)
  exact hops _ fun _ hop => hop

end McServerDashboard.Fs
