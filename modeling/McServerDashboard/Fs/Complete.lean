import McServerDashboard.Fs.Live

/-!
# `current` resolves to a complete snapshot

What a directory is meant to hold (`book`) is compared with what it holds. A directory that is
live, or staged to be, is intact as long as the sweeps are timely, no publish moves a staging that its
cancelled task has opened, and no edit removes the working-set root.

* `Intact`: the directory is there with everything it is meant to hold.
* **`current_resolves`**: in every such run `current`, once published, resolves to an intact
  snapshot directory, and nothing is removing it or one that a publish is about to flip onto.
* `sweepBetweenMoveAndFlip`: a run in which a sweep judges a directory between its move and its
  flip; it ends with `current` naming a directory that has lost a member.
* `moveOfDiscarded`: the same without a sweep, by the removal that a cancelled commit has begun.
-/

namespace McServerDashboard.Fs

open Lib

variable {s s' : Srv} {t u : Tid} {d : DirId}

/-- The directory is there with everything it is meant to hold. -/
def Intact (s : Srv) (d : DirId) : Prop := ∃ a, s.disk.dirs.lookup d = some ⟨a, s.book d⟩

/-- Every directory that is live or may become so is intact. -/
def Whole (s : Srv) : Prop := ∀ d, 2 ≤ (s.th d).rank → ¬ Dead s d → Intact s d

/-- The edit that removes the working-set root with the live directory. -/
def Act.IsWipe : Act → Prop
  | .wipe _ _ => True
  | _ => False

instance (a : Act) : Decidable a.IsWipe := by
  induction a using Act.casesOn <;> (dsimp only [Act.IsWipe]; infer_instance)

/-! ## What a write does to a directory -/

theorem intact_of_same (hd : s'.disk.dirs.lookup d = s.disk.dirs.lookup d) (hb : s'.book d = s.book d)
    (h : Intact s d) : Intact s' d := by
  unfold Intact
  rw [hd, hb]
  exact h

theorem write_lookup_ne {w : Write} (h : w.target ≠ some d) :
    (s.write w).disk.dirs.lookup d = s.disk.dirs.lookup d := by
  unfold Srv.write
  split
  · next hr => exact Write.run_lookup_ne hr h
  · rfl

theorem intact_write_ne {w : Write} (hw : w.target ≠ some d) (h : Intact s d) :
    Intact (s.write w) d :=
  intact_of_same (write_lookup_ne hw) (by rw [write_book]) h

/-- A recorded change keeps every directory intact. -/
theorem intact_note {op : TreeOp} (h : Intact s d) :
    Intact ((s.write (.change u op)).note u op) d := by
  by_cases hu : d = u
  · subst hu
    obtain ⟨a, ha⟩ := h
    cases hr : op.run (s.book d) with
    | error e => exact ⟨a, by simp [Srv.note, Srv.write, Write.run, ha, hr]⟩
    | ok tree => exact ⟨a, by simp [Srv.note, Srv.write, Write.run, ha, hr, Disk.setDir]⟩
  · refine intact_of_same ?_ ?_ h
    · rw [note_disk]
      exact write_lookup_ne fun e => hu (Option.some.inj e).symm
    · unfold Srv.note
      split
      · simp [hu]
      · rw [write_book]

theorem intact_publish_move (h : Intact s d) : Intact (s.write (.move u)) d := by
  by_cases hu : d = u
  · subst hu
    obtain ⟨a, ha⟩ := h
    cases a with
    | incoming => exact ⟨.snapshots, by simp [Srv.write, Write.run, ha, Disk.setDir]⟩
    | snapshots => exact ⟨.snapshots, by simp [Srv.write, Write.run, ha]⟩
  · exact intact_write_ne (fun e => hu (Option.some.inj e).symm) h

theorem intact_make_self (hnew : s.area t = none) : Intact (s.make t) t := by
  have hx : s.disk.dirs.lookup t = none := by simpa [Srv.area] using hnew
  exact ⟨.incoming, by simp [Srv.make, Srv.write, Write.run, hx, Disk.setDir]⟩

theorem intact_make (hu : d ≠ t) (h : Intact s d) : Intact (s.make t) d :=
  intact_of_same (write_lookup_ne fun e => hu (Option.some.inj e).symm) (by simp [Srv.make, hu]) h

/-! ## Steps -/

/-- A step keeps an intact directory intact, unless it removes it: a dead one, or the root. -/
theorem intact_step (hi : Inv s) (a : Act) (hp : s.Pre a) (hw : ¬ a.IsWipe)
    (hrank : 2 ≤ (s.th d).rank) (hd : ¬ Dead s d) (h : Intact s d) : Intact (s.post a) d := by
  cases a with
  | begin t | makeFirst t ops =>
    have hu : d ≠ t := fun e => by
      have := rank_lt_of (n := 2) hp (by simp [Pc.rank])
      rw [e] at hrank
      omega
    exact intact_make hu h
  | fill t op | fillFirst t op ops | edit t e op ops | undo t live op ops => exact intact_note h
  | move t publisher => exact intact_publish_move h
  | wipe t e => exact absurd trivial hw
  | unlink t u p =>
    exact intact_write_ne (fun e => hd (Option.some.inj e ▸ hi.dead_of_removes hp)) h
  | rmdir t u =>
    have hr : (s.th t).removes t = some u ∨ u = t ∧ s.task t = .discarding := hp.imp_right fun hu => ⟨hu.1, hu.2.1⟩
    exact intact_write_ne (fun e => hd (Option.some.inj e ▸ hi.dead_of_removes hr)) h
  | _ => exact h

theorem write_lookup_none {w : Write} (hw : w ≠ .mkdir d) (h : s.disk.dirs.lookup d = none) :
    (s.write w).disk.dirs.lookup d = none := by
  unfold Srv.write
  split
  · next hr => exact Write.run_lookup_none hr hw h
  · exact h

/-- A directory is brought about by its own thread only. -/
theorem lookup_none_step (a : Act) (h : s.disk.dirs.lookup d = none) (hb : a ≠ .begin d)
    (hm : ∀ ops, a ≠ .makeFirst d ops) : (s.post a).disk.dirs.lookup d = none := by
  have hmake : ∀ t, d ≠ t → (s.make t).disk.dirs.lookup d = none := fun t hu =>
    write_lookup_none (fun e => hu (Write.mkdir.inj e).symm) h
  have hchange : ∀ u op, ((s.write (.change u op)).note u op).disk.dirs.lookup d = none := fun u op => by
    rw [note_disk]
    exact write_lookup_none (by simp) h
  cases a with
  | begin t => exact hmake t fun e => hb (e ▸ rfl)
  | makeFirst t ops => exact hmake t fun e => hm ops (e ▸ rfl)
  | fill t op | fillFirst t op ops => exact hchange t op
  | edit t e op ops => exact hchange e.live op
  | undo t live op ops => exact hchange live op
  | move t publisher | wipe t e | unlink t u p | rmdir t u => exact write_lookup_none (by simp) h
  | _ => exact h

theorem Inv.lookup_none (hi : Inv s) (hlt : (s.th d).rank < 2) : s.disk.dirs.lookup d = none := by
  cases ha : s.area d with
  | none => simpa [Srv.area] using ha
  | some a =>
    have := hi.begun ha
    omega

/-- A directory whose thread is ahead of the flip stands somewhere. -/
theorem Inv.area_isSome (hi : Inv s) (h2 : 2 ≤ (s.th d).rank) (hlt : s.rank d < 4) : s.area d ≠ none := by
  have hd := hi.thread d
  intro hn
  have hstaged : ¬ Staged s d := fun hst => absurd (hn.symm.trans hst.1) (by simp)
  have hs : (s.th d).rank = 2 → (s.task d).spoils = false := fun hr =>
    Bool.eq_false_iff.mpr fun hs => Nat.ne_of_lt hlt (if_pos ⟨hs, hr⟩)
  have hr := le_rank (s := s) (d := d)
  cases hpc : s.th d with
  | made | moved publisher =>
    rw [hpc] at hd
    exact absurd (hn.symm.trans hd.2) (by simp)
  | staging =>
    rw [hpc] at hd hs
    exact hstaged (hd (hs rfl))
  | firstMade ops =>
    rw [hpc] at hd
    exact absurd (hn.symm.trans hd.2.2) (by simp)
  | first ops =>
    rw [hpc] at hd
    exact hstaged hd.2.2
  | moving publisher =>
    rw [hpc] at hd hs
    exact hstaged (hd.2 (hs rfl))
  | _ =>
    rw [hpc] at h2 hr
    simp only [Pc.rank] at h2 hr
    omega

theorem Stepped.dead (hs : Stepped s s') (h : Dead s d) : Dead s' d := by
  obtain ⟨t, hf, -⟩ := hs
  exact hf.dead h

/-- A thread that goes past the flip without flipping leaves a dead directory. -/
theorem Stepped.dead_of_early (hs : Stepped s s') (hi : Inv s) (hlt : (s.th d).rank < 2)
    (h4 : s'.rank d = 4) : Dead s' d := by
  obtain ⟨t, hf, -⟩ := hs
  refine ⟨fun hc => ?_, h4⟩
  rcases hf.current with hcur | ⟨-, h3, hcur, -⟩
  · exact hi.not_current (by omega) (hcur ▸ hc)
  · rw [hcur, Option.some.injEq] at hc
    rw [hc] at h3
    omega

/-- A directory that a step begins is intact. -/
theorem intact_begun (hi : Inv s) (a : Act) (hp : s.Pre a) (ht : Timely s a) (hc : a ≠ .crash)
    (hlt : (s.th d).rank < 2) (hrank : 2 ≤ ((s.post a).th d).rank) (hd : ¬ Dead (s.post a) d) :
    Intact (s.post a) d := by
  have hs := stepped hi a hp ht hc
  have hnone := hi.lookup_none hlt
  have harea : s.area d = none := by rw [Srv.area, hnone]; rfl
  have h4 : (s.post a).rank d < 4 := lt_of_le_of_ne rank_le fun h4 => hd (hs.dead_of_early hi hlt h4)
  by_cases hb : a = .begin d
  · rw [hb]
    exact intact_make_self harea
  · by_cases hm : ∃ ops, a = .makeFirst d ops
    · obtain ⟨ops, rfl⟩ := hm
      exact intact_make_self harea
    · have hn := lookup_none_step a hnone hb fun ops e => hm ⟨ops, e⟩
      refine absurd ?_ ((inv_step hi a hp ht).area_isSome hrank h4)
      rw [Srv.area, hn]
      rfl

/-- **A step whose sweep is timely and that does not remove the root keeps every directory that is
or may become live intact.** -/
theorem whole_step (hi : Inv s) (h : Whole s) (a : Act) (hp : s.Pre a) (ht : Timely s a)
    (hw : ¬ a.IsWipe) : Whole (s.post a) := by
  intro d hrank hd
  by_cases hc : a = .crash
  · subst hc
    have h2 : 2 ≤ (s.th d).rank := by
      by_contra hlt
      refine hd ⟨hi.not_current (by omega), rank_of_four ?_⟩
      change (s.crash.th d).rank = 4
      have hr : 2 ≤ (s.crash.th d).rank := hrank
      simp only [Srv.crash] at hr ⊢
      cases hpc : s.th d <;> rw [hpc] at hr <;> first | rfl | exact absurd hr (by simp [Pc.rank])
    exact h d h2 fun hdd => hd ⟨hdd.1, rank_of_four (crash_rank h2)⟩
  · by_cases h2 : 2 ≤ (s.th d).rank
    · have hnd : ¬ Dead s d := fun hdd => hd ((stepped hi a hp ht hc).dead hdd)
      exact intact_step hi a hp hw h2 hnd (h d h2 hnd)
    · exact intact_begun hi a hp ht hc (by omega) hrank hd

/-! ## Runs -/

/-- The sweeps are timely and no edit removes the working-set root. -/
def Careful (s : Srv) (a : Act) : Prop := Timely s a ∧ ¬ a.IsWipe

instance (s : Srv) (a : Act) : Decidable (Careful s a) :=
  inferInstanceAs (Decidable (Timely s a ∧ ¬ a.IsWipe))

theorem whole_reach (h : server.Reach Careful .init s) : Inv s ∧ Whole s := by
  have hinit : Whole .init := fun d hd => absurd hd (by simp [Srv.init, Pc.rank])
  exact h.invariant (I := fun s => Inv s ∧ Whole s) ⟨inv_init, hinit⟩ fun u a hu hp hc =>
    ⟨inv_step hu.1 a hp hc.1, whole_step hu.1 hu.2 a hp hc.1 hc.2⟩

theorem write_current {w : Write} (hf : ∀ d, w ≠ .flip d) (hu : w ≠ .unlinkCurrent) :
    (s.write w).disk.current = s.disk.current := by
  unfold Srv.write
  split
  · next hr => exact Write.run_current hr hf hu
  · rfl

/-- No step takes `current` away. -/
theorem current_step (a : Act) (h : s.disk.current ≠ none) : (s.post a).disk.current ≠ none := by
  have hmake : ∀ t, (s.make t).disk.current ≠ none := fun t => by rwa [make_current]
  have hchange : ∀ u op, ((s.write (.change u op)).note u op).disk.current ≠ none := fun u op => by
    rwa [note_disk, write_current (by simp) (by simp)]
  have hwrite : ∀ w : Write, (∀ d, w ≠ .flip d) → w ≠ .unlinkCurrent →
      (s.write w).disk.current ≠ none := fun w hf hu => by rwa [write_current hf hu]
  cases a with
  | begin t => exact hmake t
  | makeFirst t ops => exact hmake t
  | fill t op | fillFirst t op ops => exact hchange t op
  | edit t e op ops => exact hchange e.live op
  | undo t live op ops => exact hchange live op
  | move t publisher => exact hwrite (.move t) (by simp) (by simp)
  | wipe t e => exact hwrite (.rmdir e.live) (by simp) (by simp)
  | unlink t u p => exact hwrite (.change u (.discard p)) (by simp) (by simp)
  | rmdir t u => exact hwrite (.rmdir u) (by simp) (by simp)
  | flip t publisher =>
    change some t ≠ none
    simp
  | _ => exact h

/-- `current` resolves to an intact snapshot directory that nothing is removing. -/
def Resolves (s : Srv) : Prop :=
  ∀ d, s.disk.current = some d →
    s.disk.dirs.lookup d = some ⟨.snapshots, s.book d⟩ ∧ Kept s d

/-- A directory a publish is about to flip onto is intact, and nothing is removing it. -/
def FlipReady (s : Srv) : Prop :=
  ∀ d publisher, s.th d = .moved publisher →
    s.disk.dirs.lookup d = some ⟨.snapshots, s.book d⟩ ∧ Kept s d

/-- **`current`, once published, always resolves to a complete snapshot, and no sweep or reclaim is
removing it or what a publish is about to flip it onto: in every run in which no sweep judges a
directory inside the two windows, no publish moves a staging that its cancelled task has opened, and no
edit removes the root.** -/
theorem current_resolves (h : server.Reach Careful .init s) :
    Resolves s ∧ FlipReady s ∧
      ∀ s', server.Reach Machine.Any s s' → s.disk.current ≠ none → s'.disk.current ≠ none := by
  obtain ⟨hi, hw⟩ := whole_reach h
  refine ⟨fun d hd => ?_, fun d publisher hd => ?_, fun s' hr h0 => ?_⟩
  · have hlive := hi.live d hd
    have halive : ¬ Dead s d := fun hdd => hdd.1 hd
    refine ⟨?_, hi.kept halive⟩
    obtain ⟨a, ha⟩ := hw d (by rw [hlive.1]; omega) halive
    cases a with
    | incoming => exact absurd (by rw [Srv.area, ha]; rfl) hlive.2
    | snapshots => exact ha
  · have hok : s.lock = some d ∧ s.area d = some .snapshots := hi.at hd
    have hrank : (s.th d).rank = 3 := congrArg Pc.rank hd
    have halive : ¬ Dead s d := fun hdd => by
      have h4 := hdd.2
      rw [rank_eq (by omega)] at h4
      omega
    refine ⟨?_, hi.kept halive⟩
    obtain ⟨a, ha⟩ := hw d (by omega) halive
    have harea : some a = some Area.snapshots := by rw [← hok.2, Srv.area, ha]; rfl
    rw [ha, Option.some.inj harea]
  · exact hr.invariant (I := fun u => u.disk.current ≠ none) h0 fun u a hu _ _ => current_step a hu

/-- A commit of `level.dat`, with the sweep after its flip. -/
def sweepAfterFlip : List Act :=
  [.begin 1, .register 1, .fill 1 (.create ["level.dat"]),
    .lockPublish 1 (.commit 1 (some "w") (some 0) (some true)) (some "w"), .move 1 (some "w"),
    .flip 1 (some "w"), .sweep 2 [1], .skipLive 2 1 []]

theorem current_resolves_sweepAfterFlip :
    ∃ s : Srv, s.disk.current = some 1 ∧ Resolves s ∧ FlipReady s ∧
      ∀ s', server.Reach Machine.Any s s' → s.disk.current ≠ none → s'.disk.current ≠ none := by
  have hrun : (((server.guard Careful).exec sweepAfterFlip .init).map fun s => s.disk.current) =
      some (some 1) := by decide
  obtain ⟨s, hr, hs⟩ := Machine.reach_of_exec_map hrun
  exact ⟨s, hs, current_resolves (Machine.reach_of_guard hr)⟩

/-! ## The windows -/

/-- A commit of `level.dat`, with a sweep between its move and its flip. -/
def sweepBetweenMoveAndFlip : List Act :=
  [.begin 1, .register 1, .fill 1 (.create ["level.dat"]),
    .lockPublish 1 (.commit 1 (some "w") (some 0) (some true)) (some "w"), .move 1 (some "w"),
    .sweep 2 [1], .compare 2 1 [],
    .flip 1 (some "w"),
    .remove 2 1 [], .unlink 2 1 ["level.dat"]]

/-- `current` names a directory from which `level.dat` is gone. -/
theorem not_resolves {as : List Act} (h : (server.exec as .init).map (fun s => (s.disk.current,
    (s.disk.dirs.lookup 1).map fun x => x.tree.lookup ["level.dat"], (s.book 1).lookup ["level.dat"])) =
      some (some 1, some none, some (.file []))) : ¬ ∀ s, server.Reach Machine.Any .init s → Resolves s := by
  intro hall
  obtain ⟨s, hr, hs⟩ := Machine.reach_of_exec_map h
  obtain ⟨hcur, htree, hbook⟩ : s.disk.current = some 1 ∧
      ((s.disk.dirs.lookup 1).map fun x => x.tree.lookup ["level.dat"]) = some none ∧
      (s.book 1).lookup ["level.dat"] = some (.file []) := by
    simpa only [Prod.mk.injEq] using hs
  rw [(hall s hr 1 hcur).1, Option.map_some, hbook] at htree
  cases htree

theorem sweepBetweenMoveAndFlip_resolves : ¬ ∀ s, server.Reach Machine.Any .init s → Resolves s :=
  not_resolves (show (server.exec sweepBetweenMoveAndFlip _).map _ = _ by decide)

/-- A commit of `level.dat` that is cancelled while its thread holds the lock: the cleanup opens the staging,
the thread moves it and flips, and the cleanup goes on in what is live. -/
def moveOfDiscarded : List Act :=
  [.begin 1, .register 1, .fill 1 (.create ["level.dat"]),
    .lockPublish 1 (.commit 1 (some "w") (some 0) (some true)) (some "w"), .cancel 1, .discard 1,
    .move 1 (some "w"), .flip 1 (some "w"), .unlink 1 1 ["level.dat"]]

theorem moveOfDiscarded_resolves : ¬ ∀ s, server.Reach Machine.Any .init s → Resolves s :=
  not_resolves (show (server.exec moveOfDiscarded _).map _ = _ by decide)

end McServerDashboard.Fs
