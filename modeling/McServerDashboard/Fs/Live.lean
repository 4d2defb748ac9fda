import McServerDashboard.Fs.Threads

/-!
# What the threads of one server keep

The invariant that makes publishes, edits, sweeps and readers safe together, as long as no sweep
judges a directory in the two windows in which nothing protects it, and no publish moves a staging that
its cancelled task has begun to remove (`Timely`).

* `Pc.rank`, `Srv.rank`: how far a directory is towards being live; it never goes back.
* `Dead`: a directory that no step will make live again.
* `Frame`: what a step of one thread leaves to the others.
* **`inv_reach`**: in a run of timely sweeps only dead directories are being removed.
-/

namespace McServerDashboard.Fs

open Lib

/-! ## Progress of a publish -/

/-- How far the thread is: 4 when its own directory is live, superseded or given up. -/
def Pc.rank : Pc → ℕ
  | idle => 0
  | firstMaking _ => 1
  | made => 2
  | staging => 2
  | firstMade _ => 2
  | first _ => 2
  | moving _ => 2
  | moved _ => 3
  | _ => 4

/-- The cancelled task has opened the staging. -/
def Task.spoils : Task → Bool
  | discarding => true
  | gone => true
  | _ => false

/-- A staging that its cancelled task has opened is given up, whatever its thread goes on with. -/
def Srv.rank (s : Srv) (d : DirId) : ℕ :=
  if (s.task d).spoils = true ∧ (s.th d).rank = 2 then 4 else (s.th d).rank

/-- `current` does not name `d`, and the thread that staged `d` will not flip it there. -/
def Dead (s : Srv) (d : DirId) : Prop := s.disk.current ≠ some d ∧ s.rank d = 4

/-- The directory was live once. -/
def WasLive (s : Srv) (d : DirId) : Prop := (s.th d).rank = 4 ∧ s.area d ≠ some .incoming

/-- The staging stands where it was made, and is registered. -/
def Staged (s : Srv) (t : Tid) : Prop := s.area t = some .incoming ∧ s.active t = true

/-- What holds for a thread at each of its positions. -/
def ThreadOk (s : Srv) (t : Tid) : Pc → Prop
  | .idle => s.task t = .awaiting ∧ s.area t = none
  | .made => s.task t = .awaiting ∧ s.area t = some .incoming
  | .staging => (s.task t).spoils = false → Staged s t
  | .firstMaking _ => s.lock = some t ∧ s.task t = .awaiting ∧ s.area t = none
  | .firstMade _ => s.lock = some t ∧ s.task t = .awaiting ∧ s.area t = some .incoming
  | .first _ => s.lock = some t ∧ s.task t = .awaiting ∧ Staged s t
  | .moving _ => s.lock = some t ∧ ((s.task t).spoils = false → Staged s t)
  | .moved _ => s.lock = some t ∧ s.area t = some .snapshots
  | .flipped _ old => s.lock = some t ∧ ∀ o, old = some o → Dead s o
  | .marking _ old => s.lock = some t ∧ ∀ o, old = some o → Dead s o
  | .unlocking old => s.lock = some t ∧ ∀ o, old = some o → Dead s o
  | .reclaiming old => Dead s old
  | .dropping => Dead s t
  | .editing e _ => s.lock = some t ∧ s.disk.current = some e.live
  | .editMarking => s.lock = some t
  | .undoing live _ => s.lock = some t ∧ s.disk.current = some live
  | .editUnlocking => s.lock = some t
  | .sweeping todo => ∀ d ∈ todo, 3 ≤ s.rank d
  | .compared d todo => Dead s d ∧ ∀ d ∈ todo, 3 ≤ s.rank d
  | .sweepingStaging todo => ∀ d ∈ todo, 2 ≤ s.rank d
  | .unpinned d todo => 3 ≤ s.rank d ∧ ∀ d ∈ todo, 2 ≤ s.rank d
  | .removing d todo .snapshots => Dead s d ∧ ∀ d ∈ todo, 3 ≤ s.rank d
  | .removing d todo .incoming => Dead s d ∧ ∀ d ∈ todo, 2 ≤ s.rank d
  | .resolved d _ => WasLive s d
  | .counted d _ => WasLive s d
  | .granted d _ => WasLive s d
  | .holding d => WasLive s d
  | .releasing d => WasLive s d
  | _ => True

/-- The invariant of the threads. -/
structure Inv (s : Srv) : Prop where
  thread : ∀ t, ThreadOk s t (s.th t)
  /-- The live directory was moved into `snapshots/`, and its publish is past the flip. -/
  live : ∀ d, s.disk.current = some d → WasLive s d
  /-- Only moved directories stand in `snapshots/`. -/
  landed : ∀ d, s.area d = some .snapshots → 3 ≤ s.rank d
  /-- What a cancelled task removes will not be live. -/
  discarding : ∀ d, s.task d = .discarding → Dead s d

/-! ## Frames -/

/-- What a step of `t` leaves to the other threads. -/
structure Frame (s s' : Srv) (t : Tid) : Prop where
  th : ∀ u, u ≠ t → s'.th u = s.th u
  task : ∀ u, u ≠ t → s'.task u = s.task u
  /-- The thread does not go back, and a staging that is given up stays so. -/
  rank : (s.th t).rank ≤ (s'.th t).rank ∧ s.rank t ≤ s'.rank t
  lock : ∀ u, u ≠ t → s.lock = some u → s'.lock = some u
  active : ∀ u, u ≠ t → s'.active u = s.active u
  area : ∀ u, u ≠ t → s.rank u < 4 → s'.area u = s.area u
  incoming : ∀ u, (s.th u).rank = 4 → s'.area u = some .incoming → s.area u = some .incoming
  snapshots : ∀ u, s'.area u = some .snapshots → s.area u = some .snapshots ∨ u = t ∧ 3 ≤ s'.rank t
  current : s'.disk.current = s.disk.current ∨
    s.lock = some t ∧ (s.th t).rank = 3 ∧ s'.disk.current = some t ∧ WasLive s' t

theorem Pc.rank_le (pc : Pc) : pc.rank ≤ 4 := by
  cases pc <;> simp [Pc.rank]

variable {s s' : Srv} {t u : Tid} {d : DirId} {pc : Pc}

/-! ### Ranks -/

theorem le_rank : (s.th d).rank ≤ s.rank d := by
  unfold Srv.rank
  split
  · exact Pc.rank_le _
  · exact le_rfl

theorem rank_le : s.rank d ≤ 4 := by
  unfold Srv.rank
  split
  · exact le_rfl
  · exact Pc.rank_le _

/-- Past the move, or before its staging is made, the thread alone decides. -/
theorem rank_eq (h : (s.th d).rank ≠ 2) : s.rank d = (s.th d).rank := if_neg fun hc => h hc.2

theorem rank_of_intact (h : (s.task d).spoils = false) : s.rank d = (s.th d).rank :=
  if_neg fun hc => Bool.false_ne_true (h.symm.trans hc.1)

theorem rank_of_four (h : (s.th d).rank = 4) : s.rank d = 4 := (rank_eq (by omega)).trans h

theorem rank_of_spoilt (h : (s.task d).spoils = true) (h2 : 2 ≤ (s.th d).rank) (h3 : (s.th d).rank ≠ 3) :
    s.rank d = 4 := by
  have hle := (s.th d).rank_le
  by_cases h4 : (s.th d).rank = 2
  · exact if_pos ⟨h, h4⟩
  · exact rank_of_four (by omega)

/-- A thread that goes on, but does not move a staging that is given up. -/
theorem rank_mono (htask : s'.task t = s.task t) (hle : (s.th t).rank ≤ (s'.th t).rank)
    (h3 : (s'.th t).rank = 3 → (s.th t).rank = 3 ∨ (s.task t).spoils = false) : s.rank t ≤ s'.rank t := by
  have := (s'.th t).rank_le
  unfold Srv.rank
  rw [htask]
  split_ifs with h h'
  · exact le_rfl
  · have hne : (s'.th t).rank ≠ 3 := fun he => by
      rcases h3 he with h2 | hs
      · omega
      · rw [hs] at h
        exact absurd h.1 Bool.false_ne_true
    have h2 : (s'.th t).rank ≠ 2 := fun he => h' ⟨h.1, he⟩
    omega
  · exact hle.trans this
  · exact hle

/-- The thread goes from one position to another, but for the move. -/
def Pc.Goes (p q : Pc) : Prop := p.rank ≤ q.rank ∧ q.rank ≠ 3

theorem Pc.Goes.last (h : pc.rank = 4) : (s.th t).Goes pc := ⟨h ▸ Pc.rank_le _, by omega⟩

theorem goes_of {p : Pc} (hp : s.th t = p) (h : p.rank ≤ pc.rank ∧ pc.rank ≠ 3) : (s.th t).Goes pc := hp ▸ h

theorem Frame.rank_le (hf : Frame s s' t) (u : Tid) : (s.th u).rank ≤ (s'.th u).rank := by
  by_cases h : u = t
  · exact h ▸ hf.rank.1
  · rw [hf.th u h]

theorem Frame.le_rank (hf : Frame s s' t) (u : Tid) : s.rank u ≤ s'.rank u := by
  by_cases h : u = t
  · exact h ▸ hf.rank.2
  · rw [Srv.rank, Srv.rank, hf.th u h, hf.task u h]

theorem Frame.rank_four (hf : Frame s s' t) (h : (s.th u).rank = 4) : (s'.th u).rank = 4 := by
  have h1 := hf.rank_le u
  have h2 := (s'.th u).rank_le
  omega

theorem Frame.four_rank (hf : Frame s s' t) (h : s.rank u = 4) : s'.rank u = 4 := by
  have h1 := hf.le_rank u
  have h2 := McServerDashboard.Fs.rank_le (s := s') (d := u)
  omega

theorem Frame.dead (hf : Frame s s' t) (h : Dead s d) : Dead s' d := by
  refine ⟨?_, hf.four_rank h.2⟩
  rcases hf.current with hc | ⟨-, h3, hc, -⟩
  · rw [hc]
    exact h.1
  · rw [hc, ne_eq, Option.some.injEq]
    rintro rfl
    have h4 := h.2
    rw [rank_eq (by omega)] at h4
    omega

theorem Frame.wasLive (hf : Frame s s' t) (h : WasLive s d) : WasLive s' d :=
  ⟨hf.rank_four h.1, fun ha => h.2 (hf.incoming d h.1 ha)⟩

theorem Frame.ranks (hf : Frame s s' t) {n : ℕ} {ds : List DirId} (h : ∀ d ∈ ds, n ≤ s.rank d) :
    ∀ d ∈ ds, n ≤ s'.rank d := fun d hd => (h d hd).trans (hf.le_rank d)

/-- A staging that is not given up stays where it is. -/
theorem Frame.staged (hf : Frame s s' t) (hu : u ≠ t) (hlt : (s.th u).rank < 4) (hs : (s.task u).spoils = false)
    (h : Staged s u) : Staged s' u := by
  refine ⟨?_, (hf.active u hu).trans h.2⟩
  rw [hf.area u hu (by rw [rank_of_intact hs]; exact hlt), h.1]

/-- A thread that did not move keeps what held for it. -/
theorem Frame.threadOk (hf : Frame s s' t) (hu : u ≠ t) (h : ThreadOk s u (s.th u)) :
    ThreadOk s' u (s'.th u) := by
  have hlock := hf.lock u hu
  have htask := hf.task u hu
  have hkeep : s.lock = some u → s'.disk.current = s.disk.current := fun hl => by
    rcases hf.current with hc | ⟨hl', -⟩
    · exact hc
    · rw [hl, Option.some.injEq] at hl'
      exact absurd hl' hu
  have harea : s.task u = .awaiting → (s.th u).rank < 4 → s'.area u = s.area u := fun hk hlt =>
    hf.area u hu (by rw [rank_of_intact (by rw [hk]; rfl)]; exact hlt)
  have hstaged := hf.staged hu
  rw [hf.th u hu]
  cases hpc : s.th u with
  | removing d todo area =>
    rw [hpc] at h
    cases area <;> exact ⟨hf.dead h.1, hf.ranks h.2⟩
  | idle | made =>
    rw [hpc] at h harea
    exact ⟨htask.trans h.1, (harea h.1 (by simp [Pc.rank])).trans h.2⟩
  | firstMaking ops | firstMade ops =>
    rw [hpc] at h harea
    exact ⟨hlock h.1, htask.trans h.2.1, (harea h.2.1 (by simp [Pc.rank])).trans h.2.2⟩
  | first ops =>
    rw [hpc] at h hstaged
    exact ⟨hlock h.1, htask.trans h.2.1, hstaged (by simp [Pc.rank]) (by rw [h.2.1]; rfl) h.2.2⟩
  | staging =>
    rw [hpc] at h hstaged
    intro hs
    rw [htask] at hs
    exact hstaged (by simp [Pc.rank]) hs (h hs)
  | moving publisher =>
    rw [hpc] at h hstaged
    refine ⟨hlock h.1, fun hs => ?_⟩
    rw [htask] at hs
    exact hstaged (by simp [Pc.rank]) hs (h.2 hs)
  | moved publisher =>
    rw [hpc] at h
    have h3 : s.rank u < 4 := by
      rw [rank_eq (by rw [hpc]; simp [Pc.rank]), hpc]
      simp [Pc.rank]
    exact ⟨hlock h.1, (hf.area u hu h3).trans h.2⟩
  | _ =>
    rw [hpc] at h
    first
      | exact trivial
      | exact hf.dead h
      | exact hf.wasLive h
      | exact hlock h
      | exact hf.ranks h
      | exact ⟨hlock h.1, fun o ho => hf.dead (h.2 o ho)⟩
      | exact ⟨hf.dead h.1, hf.ranks h.2⟩
      | exact ⟨h.1.trans (hf.le_rank _), hf.ranks h.2⟩
      | exact ⟨hlock h.1, (hkeep h.1).trans h.2⟩

/-- One step of some thread: its frame, and what holds for the thread that moved. -/
def Stepped (s s' : Srv) : Prop :=
  ∃ t, Frame s s' t ∧ ThreadOk s' t (s'.th t) ∧ (s'.task t = .discarding → s.task t = .discarding ∨ Dead s' t)

theorem Inv.step (h : Inv s) (hf : Frame s s' t) (own : ThreadOk s' t (s'.th t))
    (htask : s'.task t = .discarding → Dead s' t) : Inv s' where
  thread u := by
    by_cases hu : u = t
    · rw [hu]
      exact own
    · exact hf.threadOk hu (h.thread u)
  live d hd := by
    rcases hf.current with hc | ⟨-, -, hc, hw⟩
    · exact hf.wasLive (h.live d (hc ▸ hd))
    · rw [hc, Option.some.injEq] at hd
      exact hd ▸ hw
  landed d hd := by
    rcases hf.snapshots d hd with hs | ⟨rfl, hr⟩
    · exact (h.landed d hs).trans (hf.le_rank d)
    · exact hr
  discarding d hd := by
    by_cases hdt : d = t
    · exact hdt ▸ htask (hdt ▸ hd)
    · exact hf.dead (h.discarding d ((hf.task d hdt).symm.trans hd))

/-! ## The effects of the steps -/

@[simp] theorem goto_disk : (s.goto t pc).disk = s.disk := rfl
@[simp] theorem goto_lock : (s.goto t pc).lock = s.lock := rfl
@[simp] theorem goto_active : (s.goto t pc).active = s.active := rfl
@[simp] theorem goto_task : (s.goto t pc).task = s.task := rfl
@[simp] theorem goto_leases : (s.goto t pc).leases = s.leases := rfl
@[simp] theorem goto_book : (s.goto t pc).book = s.book := rfl
@[simp] theorem goto_area : (s.goto t pc).area d = s.area d := rfl
@[simp] theorem goto_self : (s.goto t pc).th t = pc := by simp [Srv.goto]

theorem rank_goto (htask : s'.task t = s.task t) (hgo : (s.th t).Goes pc) :
    (s.th t).rank ≤ ((s'.goto t pc).th t).rank ∧ s.rank t ≤ (s'.goto t pc).rank t := by
  rw [goto_self]
  refine ⟨hgo.1, rank_mono htask ?_ fun h => ?_⟩
  · rw [goto_self]
    exact hgo.1
  · rw [goto_self] at h
    exact absurd h hgo.2

theorem goto_ne (h : u ≠ t) : (s.goto t pc).th u = s.th u := by simp [Srv.goto, h]
@[simp] theorem setLock_task {l : Option Tid} : (s.setLock l).task = s.task := rfl
@[simp] theorem pin_task {b : Bool} : (s.pin d b).task = s.task := rfl
@[simp] theorem addLease_task : (s.addLease d).task = s.task := rfl
@[simp] theorem dropLease_task : (s.dropLease d).task = s.task := rfl
theorem pin_ne {b : Bool} (h : u ≠ d) : (s.pin d b).active u = s.active u := by simp [Srv.pin, h]

/-- A step that leaves every directory where it is, and `current`. -/
theorem frame_quiet (harea : ∀ u, s'.area u = s.area u) (hcur : s'.disk.current = s.disk.current)
    (hth : s'.th = s.th) (htask : s'.task = s.task) (hlock : ∀ u, u ≠ t → s.lock = some u → s'.lock = some u)
    (hactive : ∀ u, u ≠ t → s'.active u = s.active u) (hgo : (s.th t).Goes pc) :
    Frame s (s'.goto t pc) t where
  th u hu := by rw [goto_ne hu, hth]
  task u _ := congrFun htask u
  rank := rank_goto (congrFun htask t) hgo
  lock := hlock
  active := hactive
  area u _ _ := harea u
  incoming u _ h := (harea u) ▸ h
  snapshots u h := .inl ((harea u) ▸ h)
  current := .inl hcur

theorem frame_move (hgo : (s.th t).Goes pc) : Frame s (s.goto t pc) t :=
  frame_quiet (fun _ => rfl) rfl rfl rfl (fun _ _ h => h) (fun _ _ => rfl) hgo

theorem frame_lease (hdisk : s'.disk = s.disk) (hth : s'.th = s.th) (htask : s'.task = s.task)
    (hlock : s'.lock = s.lock) (hactive : s'.active = s.active) (hgo : (s.th t).Goes pc) :
    Frame s (s'.goto t pc) t :=
  frame_quiet (fun _ => by rw [Srv.area, hdisk]; rfl) (by rw [hdisk]) hth htask
    (fun _ _ h => hlock ▸ h) (fun _ _ => by rw [hactive]) hgo

theorem frame_pin {b : Bool} (hgo : (s.th t).Goes pc) : Frame s ((s.pin t b).goto t pc) t :=
  frame_quiet (fun _ => rfl) rfl rfl rfl (fun _ _ h => h) (fun _ hu => pin_ne hu) hgo

/-- Taking a free lock. -/
theorem frame_lock (hfree : s.lock = none) (hgo : (s.th t).Goes pc) :
    Frame s ((s.setLock (some t)).goto t pc) t :=
  frame_quiet (fun _ => rfl) rfl rfl rfl (fun _ _ h => by rw [hfree] at h; cases h) (fun _ _ => rfl) hgo

/-- Releasing the lock one holds. -/
theorem frame_unlock (hheld : s.lock = some t) (hgo : (s.th t).Goes pc) :
    Frame s ((s.setLock none).goto t pc) t :=
  frame_quiet (fun _ => rfl) rfl rfl rfl
    (fun u hu h => by
      rw [hheld, Option.some.injEq] at h
      exact absurd h.symm hu)
    (fun _ _ => rfl) hgo

/-- A step of the task of `t`, of which a staging that it has opened stays given up. -/
theorem frame_task {k : Task} {b : Bool} (hk : (s.task t).spoils = true → k.spoils = true) :
    Frame s ((s.pin t b).setTask t k) t where
  th _ _ := rfl
  task u hu := by simp [Srv.setTask, Srv.pin, hu]
  rank := by
    refine ⟨le_rfl, ?_⟩
    by_cases hs : (s.task t).spoils = true ∧ (s.th t).rank = 2
    · refine rank_le.trans (le_of_eq (rank_of_spoilt ?_ ?_ ?_).symm)
      · simpa [Srv.setTask, Srv.pin] using hk hs.1
      · exact le_of_eq hs.2.symm
      · rw [show (((s.pin t b).setTask t k).th t).rank = 2 from hs.2]
        simp
    · rw [show s.rank t = (s.th t).rank from if_neg hs]
      exact le_rank (s := (s.pin t b).setTask t k)
  lock _ _ h := h
  active u hu := pin_ne hu
  area _ _ _ := rfl
  incoming _ _ h := h
  snapshots _ h := .inl h
  current := .inl rfl

/-! ### Writes -/

@[simp] theorem write_th {w : Write} : (s.write w).th = s.th := by
  unfold Srv.write
  split <;> rfl

@[simp] theorem write_task {w : Write} : (s.write w).task = s.task := by
  unfold Srv.write
  split <;> rfl

@[simp] theorem write_lock {w : Write} : (s.write w).lock = s.lock := by
  unfold Srv.write
  split <;> rfl

@[simp] theorem write_active {w : Write} : (s.write w).active = s.active := by
  unfold Srv.write
  split <;> rfl

@[simp] theorem write_book {w : Write} : (s.write w).book = s.book := by
  unfold Srv.write
  split <;> rfl

@[simp] theorem note_disk {op : TreeOp} : (s.note d op).disk = s.disk := by
  unfold Srv.note
  split <;> rfl

@[simp] theorem note_th {op : TreeOp} : (s.note d op).th = s.th := by
  unfold Srv.note
  split <;> rfl

@[simp] theorem note_task {op : TreeOp} : (s.note d op).task = s.task := by
  unfold Srv.note
  split <;> rfl

@[simp] theorem note_lock {op : TreeOp} : (s.note d op).lock = s.lock := by
  unfold Srv.note
  split <;> rfl

@[simp] theorem note_active {op : TreeOp} : (s.note d op).active = s.active := by
  unfold Srv.note
  split <;> rfl

/-- A change inside a directory moves no directory. -/
theorem write_change {op : TreeOp} :
    (s.write (.change d op)).area u = s.area u ∧ (s.write (.change d op)).disk.current = s.disk.current := by
  unfold Srv.write Write.run
  dsimp only
  cases hx : s.disk.dirs.lookup d with
  | none => exact ⟨rfl, rfl⟩
  | some x =>
    dsimp only
    cases op.run x.tree with
    | error e => exact ⟨rfl, rfl⟩
    | ok tree =>
      refine ⟨?_, rfl⟩
      by_cases hu : u = d
      · subst hu
        simp [Srv.area, Disk.setDir, hx]
      · simp [Srv.area, Disk.setDir, AList.lookup_insert_ne hu]

/-- A directory that is removed itself is gone; no other is touched. -/
theorem write_rmdir :
    ((s.write (.rmdir d)).area u = s.area u ∨ u = d ∧ (s.write (.rmdir d)).area u = none) ∧
      (s.write (.rmdir d)).disk.current = s.disk.current := by
  unfold Srv.write Write.run
  dsimp only
  cases hx : s.disk.dirs.lookup d with
  | none => exact ⟨.inl rfl, rfl⟩
  | some x =>
    obtain ⟨a, tree⟩ := x
    dsimp only
    split_ifs
    · refine ⟨?_, rfl⟩
      by_cases hu : u = d
      · subst hu
        exact .inr ⟨rfl, by simp [Srv.area]⟩
      · exact .inl (by simp [Srv.area, AList.lookup_erase_ne hu])
    · exact ⟨.inl rfl, rfl⟩

theorem write_move (hok : (Write.run (.move d) s.disk).isOk) :
    (s.write (.move d)).area u = (if u = d then some .snapshots else s.area u) ∧
      (s.write (.move d)).disk.current = s.disk.current := by
  unfold Srv.write
  simp only [Write.run] at hok ⊢
  split at hok
  · refine ⟨?_, rfl⟩
    split_ifs with hu
    · subst hu
      simp [Srv.area, Disk.setDir]
    · simp [Srv.area, Disk.setDir, AList.lookup_insert_ne hu]
  · cases hok

theorem make_area (hnew : s.area t = none) :
    (s.make t).area u = (if u = t then some .incoming else s.area u) := by
  have hx : s.disk.dirs.lookup t = none := by simpa [Srv.area] using hnew
  simp only [Srv.make, Srv.write, Write.run, hx, Srv.area]
  split_ifs with hu
  · subst hu
    simp [Disk.setDir]
  · simp [Disk.setDir, AList.lookup_insert_ne hu]

@[simp] theorem make_task : (s.make t).task = s.task := write_task

theorem make_current : (s.make t).disk.current = s.disk.current := by
  unfold Srv.make Srv.write Write.run
  dsimp only
  cases s.disk.dirs.lookup t <;> rfl

theorem goto_same : s.goto t (s.th t) = s := by
  simp [Srv.goto]

theorem frame_change {op : TreeOp} : Frame s (s.write (.change d op)) t where
  th u _ := by rw [write_th]
  task u _ := by rw [write_task]
  rank := by
    rw [Srv.rank, Srv.rank, write_th, write_task]
    exact ⟨le_rfl, le_rfl⟩
  lock u _ h := by rw [write_lock]; exact h
  active u _ := by rw [write_active]
  area u _ _ := write_change.1
  incoming u _ h := write_change.1 ▸ h
  snapshots u h := .inl (write_change.1 ▸ h)
  current := .inl (write_change (u := t)).2

theorem note_area {op : TreeOp} : (s.note d op).area u = s.area u := by
  rw [Srv.area, note_disk]
  rfl

/-- A change of a member, recorded. -/
theorem frame_note {op : TreeOp} (hgo : (s.th t).Goes pc) :
    Frame s (((s.write (.change d op)).note d op).goto t pc) t :=
  frame_quiet (fun _ => by rw [note_area, write_change.1])
    (by rw [note_disk, (write_change (u := t)).2]) (by rw [note_th, write_th]) (by rw [note_task, write_task])
    (fun _ _ h => by rw [note_lock, write_lock]; exact h)
    (fun _ _ => by rw [note_active, write_active]) hgo

theorem frame_mark {m : Marker} (hgo : (s.th t).Goes pc) :
    Frame s ((s.write (.mark m)).goto t pc) t :=
  frame_quiet (fun _ => rfl) rfl rfl rfl (fun _ _ h => h) (fun _ _ => rfl) hgo

/-- Removing a directory whose publish is past the flip, or given up. -/
theorem frame_rmdir (hd : s.rank d = 4) : Frame s (s.write (.rmdir d)) t where
  th u _ := by rw [write_th]
  task u _ := by rw [write_task]
  rank := by
    rw [Srv.rank, Srv.rank, write_th, write_task]
    exact ⟨le_rfl, le_rfl⟩
  lock u _ h := by rw [write_lock]; exact h
  active u _ := by rw [write_active]
  area u _ hlt := by
    rcases (write_rmdir (s := s) (d := d) (u := u)).1 with h | ⟨rfl, -⟩
    · exact h
    · omega
  incoming u _ h := by
    rcases (write_rmdir (s := s) (d := d) (u := u)).1 with h' | ⟨-, h'⟩
    · exact h' ▸ h
    · rw [h'] at h
      cases h
  snapshots u h := by
    rcases (write_rmdir (s := s) (d := d) (u := u)).1 with h' | ⟨-, h'⟩
    · exact .inl (h' ▸ h)
    · rw [h'] at h
      cases h
  current := .inl (write_rmdir (u := t)).2

theorem Frame.goto (hf : Frame s s' t) (hth : s'.th t = s.th t) (htask : s'.task t = s.task t)
    (hgo : (s.th t).Goes pc) : Frame s (s'.goto t pc) t where
  th u hu := by rw [goto_ne hu, hf.th u hu]
  task := hf.task
  rank := rank_goto htask hgo
  lock := hf.lock
  active := hf.active
  area := hf.area
  incoming := hf.incoming
  snapshots u h := by
    rcases hf.snapshots u h with h' | ⟨rfl, h3⟩
    · exact .inl h'
    · refine .inr ⟨rfl, h3.trans ?_⟩
      have hle : s'.rank u = s.rank u := by rw [Srv.rank, Srv.rank, hth, htask]
      rw [hle]
      exact (rank_goto htask hgo).2
  current := by
    rcases hf.current with hc | ⟨hl, h3, hc, hw⟩
    · exact .inl hc
    · have := hf.rank.1
      rw [hth] at this
      have h4 := hw.1
      rw [hth] at h4
      omega

/-- Making one's own staging. -/
theorem frame_make (hnew : s.area t = none) (hlt : (s.th t).rank < 4) (hgo : (s.th t).Goes pc) :
    Frame s ((s.make t).goto t pc) t where
  th u hu := by rw [goto_ne hu, Srv.make, write_th]
  task u _ := by rw [goto_task, Srv.make, write_task]
  rank := rank_goto (by rw [Srv.make, write_task]) hgo
  lock u _ h := by rw [goto_lock, Srv.make, write_lock]; exact h
  active u _ := by rw [goto_active, Srv.make, write_active]
  area u hu _ := by rw [goto_area, make_area hnew, if_neg hu]
  incoming u h4 h := by
    have hu : u ≠ t := fun e => by rw [e] at h4; omega
    rw [goto_area, make_area hnew, if_neg hu] at h
    exact h
  snapshots u h := by
    rw [goto_area, make_area hnew] at h
    split_ifs at h
    · cases h
    · exact .inl h
  current := .inl make_current

/-- Moving one's own staging into `snapshots/`. -/
theorem frame_publish_move (hok : (Write.run (.move t) s.disk).isOk) (hlt : (s.th t).rank < 4)
    (hrank : (s.th t).rank ≤ 3) (h3 : pc.rank = 3) (hs : (s.task t).spoils = false) :
    Frame s ((s.write (.move t)).goto t pc) t where
  th u hu := by rw [goto_ne hu, write_th]
  task u _ := by rw [goto_task, write_task]
  rank := by
    have hle : (s.th t).rank ≤ (((s.write (.move t)).goto t pc).th t).rank := by rw [goto_self, h3]; exact hrank
    exact ⟨hle, rank_mono (by rw [goto_task, write_task]) hle fun _ => .inr hs⟩
  lock u _ h := by rw [goto_lock, write_lock]; exact h
  active u _ := by rw [goto_active, write_active]
  area u hu _ := by rw [goto_area, (write_move hok).1, if_neg hu]
  incoming u h4 h := by
    have hu : u ≠ t := fun e => by rw [e] at h4; omega
    rw [goto_area, (write_move hok).1, if_neg hu] at h
    exact h
  snapshots u h := by
    rw [goto_area, (write_move hok).1] at h
    split_ifs at h with hu
    · refine .inr ⟨hu, le_trans (le_of_eq ?_) le_rank⟩
      rw [goto_self, h3]
    · exact .inl h
  current := .inl (write_move (u := t) hok).2

/-- Flipping `current` onto one's own directory. -/
theorem frame_flip (hlock : s.lock = some t) (harea : s.area t = some .snapshots)
    (h3 : (s.th t).rank = 3) (h4 : pc.rank = 4) : Frame s ((s.write (.flip t)).goto t pc) t where
  th u hu := by rw [goto_ne hu, write_th]
  task u _ := by rw [goto_task, write_task]
  rank := rank_goto (by rw [write_task]) (.last h4)
  lock u _ h := h
  active u _ := rfl
  area u _ _ := rfl
  incoming u _ h := h
  snapshots u h := .inl h
  current := .inr ⟨hlock, h3, rfl, by rw [goto_self]; exact h4, by
    change s.area t ≠ some .incoming
    rw [harea]
    simp⟩

/-! ## The steps keep the invariant -/

/-- The sweep judges no directory in the windows in which nothing protects it: it re-reads
`current` for none that a publish has moved in and not yet flipped onto, and looks for the
staging lease of none that is made and not yet registered. And no publish moves a staging that the task it
was cancelled with has opened to remove it. -/
def Timely (s : Srv) : Act → Prop
  | .compare _ d _ => (s.th d).isMoved = false
  | .unpin _ d _ => (s.th d).isUnregistered = false
  | .move t _ => (s.task t).spoils = false
  | _ => True

instance (s : Srv) (a : Act) : Decidable (Timely s a) := by
  induction a using Act.casesOn <;> (dsimp only [Timely]; infer_instance)

theorem rank_lt_of {n : ℕ} (hpc : s.th t = pc) (h : pc.rank < n) : (s.th t).rank < n := hpc ▸ h

theorem Inv.at (h : Inv s) (hpc : s.th t = pc) : ThreadOk s t pc := hpc ▸ h.thread t

theorem Stepped.goto (hf : Frame s (s'.goto t pc) t) (own : ThreadOk (s'.goto t pc) t pc)
    (htask : s'.task t = s.task t := by simp) : Stepped s (s'.goto t pc) :=
  ⟨t, hf, by rw [goto_self]; exact own, fun h => .inl (htask ▸ h)⟩

/-- A thread that only moves on. -/
theorem Stepped.move (hgo : (s.th t).Goes pc)
    (own : Frame s (s.goto t pc) t → ThreadOk (s.goto t pc) t pc) : Stepped s (s.goto t pc) :=
  .goto (frame_move hgo) (own (frame_move hgo))

/-- Where a thread comes to whose task may be cancelled. -/
theorem resume_rank (h : pc.rank = 4) : (s.resume t pc).rank = 4 := by
  unfold Srv.resume
  split
  · exact h
  · rfl

theorem threadOk_resume (h : ThreadOk s' t pc) : ThreadOk s' t (s.resume t pc) := by
  unfold Srv.resume
  split
  · exact h
  · trivial

theorem Inv.not_current (h : Inv s) (hlt : (s.th t).rank < 4) : s.disk.current ≠ some t :=
  fun hc => by
    have := (h.live t hc).1
    omega

/-- A thread that gives up its staging before the move leaves a dead directory. -/
theorem Inv.drop (h : Inv s) (hlt : (s.th t).rank < 4) (hdisk : s'.disk = s.disk) (hpc : pc = .dropping ∨ pc = .over) :
    ThreadOk (s'.goto t pc) t pc := by
  rcases hpc with rfl | rfl
  · refine ⟨?_, rank_of_four ?_⟩
    · rw [goto_disk, hdisk]
      exact h.not_current hlt
    · rw [goto_self]
      rfl
  · trivial

theorem resume_cases : s.resume t pc = pc ∨ s.resume t pc = .over := by
  unfold Srv.resume
  split
  · exact .inl rfl
  · exact .inr rfl

theorem inv_init : Inv Srv.init where
  thread _ := ⟨rfl, rfl⟩
  live _ h := by cases h
  landed _ h := by cases h
  discarding _ h := by cases h

theorem crash_rank (h : 2 ≤ (s.th u).rank) : (s.crash.th u).rank = 4 := by
  simp only [Srv.crash]
  cases hpc : s.th u <;> rw [hpc] at h <;> first | rfl | exact absurd h (by simp [Pc.rank])

theorem two_le_of_rank (h : 2 ≤ s.rank d) : 2 ≤ (s.th d).rank := by
  unfold Srv.rank at h
  split at h
  · next hc => exact le_of_eq hc.2.symm
  · exact h

theorem inv_crash (h : Inv s) : Inv s.crash where
  thread t := by
    have ht := h.thread t
    simp only [Srv.crash]
    cases hpc : s.th t with
    | idle =>
      rw [hpc] at ht
      exact ⟨rfl, ht.2⟩
    | _ => trivial
  live d hd := ⟨crash_rank (by have := (h.live d hd).1; omega), (h.live d hd).2⟩
  landed d hd := by
    have h3 := h.landed d hd
    rw [rank_of_four (crash_rank (two_le_of_rank (by omega)))]
    omega
  discarding _ hd := by cases hd

/-- A directory that stands somewhere was begun. -/
theorem Inv.begun (h : Inv s) {a : Area} (ha : s.area d = some a) : 2 ≤ (s.th d).rank := by
  have hd := h.thread d
  by_contra hlt
  cases hpc : s.th d with
  | idle => rw [hpc] at hd; rw [hd.2] at ha; cases ha
  | firstMaking ops => rw [hpc] at hd; rw [hd.2.2] at ha; cases ha
  | _ => rw [hpc] at hlt; simp [Pc.rank] at hlt

/-- A listed directory without a staging lease, outside the registration window, is given up, or moved. -/
theorem Inv.unpinned (h : Inv s) (h2 : 2 ≤ s.rank d) (hact : s.active d = false)
    (hreg : (s.th d).isUnregistered = false) : 3 ≤ s.rank d := by
  have hd := h.thread d
  have hr := two_le_of_rank h2
  have hle := le_rank (s := s) (d := d)
  by_cases hs : (s.task d).spoils = true
  · by_cases h3 : (s.th d).rank = 3
    · omega
    · rw [rank_of_spoilt hs hr h3]
      omega
  have hs : (s.task d).spoils = false := Bool.eq_false_iff.mpr hs
  have hact : ¬ Staged s d := fun hst => Bool.false_ne_true (hact.symm.trans hst.2)
  cases hpc : s.th d with
  | staging =>
    rw [hpc] at hd
    exact absurd (hd hs) hact
  | moving publisher =>
    rw [hpc] at hd
    exact absurd (hd.2 hs) hact
  | first ops =>
    rw [hpc] at hd
    exact absurd hd.2.2 hact
  | made | firstMade ops =>
    rw [hpc] at hreg
    cases hreg
  | _ =>
    rw [hpc] at hr hle
    simp only [Pc.rank] at hr hle
    omega

/-- The directory `_current_dir` returns is live. -/
theorem current_of_live (h : s.live = some d) : s.disk.current = some d := by
  obtain ⟨⟨c, tree⟩, hc, rfl⟩ := Option.map_eq_some_iff.mp h
  exact (Disk.current_of_currentTree hc).1

theorem current_of_check {m : Mutator} {e : Edit} (h : m.check s.disk = .ok (.edit e)) :
    s.disk.current = some e.live := by
  obtain ⟨tree, hc⟩ := Mutator.check_live h
  exact (Disk.current_of_currentTree hc).1

/-- A directory that stands in `snapshots/` is past its flip, or about to be. -/
theorem rank_of_landed (h3 : 3 ≤ s.rank d) (hm : (s.th d).isMoved = false) : s.rank d = 4 := by
  have hr := two_le_of_rank (by omega : 2 ≤ s.rank d)
  by_cases hs : (s.task d).spoils = true ∧ (s.th d).rank = 2
  · exact if_pos hs
  rw [show s.rank d = (s.th d).rank from if_neg hs] at h3 ⊢
  cases hpc : s.th d <;> rw [hpc] at h3 hm <;> first
    | rfl
    | exact absurd h3 (by decide)
    | exact absurd hm Bool.true_eq_false.mp
    | exact absurd h3 (by simp [Pc.rank])

/-- A directory that is moved stands in `snapshots/`. -/
theorem Inv.not_moved (h : Inv s) (harea : s.area d = some .incoming) : (s.th d).rank ≠ 3 := by
  have hd := h.thread d
  cases hpc : s.th d with
  | moved publisher =>
    rw [hpc] at hd
    rw [hd.2] at harea
    cases harea
  | _ => simp [Pc.rank]

/-- A staging whose registration was looked for in vain, and that stands in `incoming/`, is given up. -/
theorem Inv.dead_of_unpinned (h : Inv s) (h3 : 3 ≤ s.rank d) (harea : s.area d = some .incoming) : Dead s d := by
  refine ⟨fun hc => (h.live d hc).2 harea, rank_of_landed h3 ?_⟩
  have hm := h.not_moved harea
  cases hpc : s.th d <;> rw [hpc] at hm <;> first | rfl | exact absurd rfl hm

/-- Who removes a directory: a thread, or the task of the operation that staged it. -/
theorem Inv.dead_of_removes (h : Inv s) (hr : (s.th t).removes t = some d ∨ d = t ∧ s.task t = .discarding) :
    Dead s d := by
  rcases hr with hr | ⟨rfl, hk⟩
  · have ht := h.thread t
    cases hpc : s.th t <;> rw [hpc] at ht hr <;> simp only [Pc.removes, reduceCtorEq, Option.some.injEq] at hr
    · exact hr ▸ ht
    · exact hr ▸ ht
    · next area => cases area <;> exact hr ▸ ht.1
  · exact h.discarding d hk

/-- Nothing is removing the directory: no sweep, reclaim or cleanup, and no cancelled task. -/
def Kept (s : Srv) (d : DirId) : Prop := (∀ t, (s.th t).removes t ≠ some d) ∧ s.task d ≠ .discarding

theorem Inv.kept (hi : Inv s) (hd : ¬ Dead s d) : Kept s d :=
  ⟨fun _ ht => hd (hi.dead_of_removes (.inl ht)), fun hk => hd (hi.discarding d hk)⟩

/-- The positions that no task awaits yet. -/
def Pc.isOpening : Pc → Bool
  | idle => true
  | made => true
  | firstMaking _ => true
  | firstMade _ => true
  | first _ => true
  | _ => false

theorem Inv.opening (h : Inv s) (hk : s.task t ≠ .awaiting) : (s.th t).isOpening = false := by
  have ht := h.thread t
  cases hpc : s.th t <;> rw [hpc] at ht <;> first
    | rfl
    | exact absurd ht.1 hk
    | exact absurd ht.2.1 hk

/-- A thread that stays where it is keeps what holds for it. -/
theorem Inv.stays (h : Inv s) (hf : Frame s s' t) (hth : s'.th = s.th) (hlock : s'.lock = s.lock)
    (hcur : s'.disk.current = s.disk.current) (hpc : (s.th t).isOpening = false)
    (hstaged : (s.th t).rank = 2 → (s'.task t).spoils = false →
      (s.task t).spoils = false ∧ (Staged s t → Staged s' t))
    (hmoved : (s.th t).isMoved = true → s'.area t = s.area t) : ThreadOk s' t (s'.th t) := by
  have ht := h.thread t
  rw [hth]
  cases hp : s.th t with
  | removing d todo area =>
    rw [hp] at ht
    cases area <;> exact ⟨hf.dead ht.1, hf.ranks ht.2⟩
  | staging =>
    rw [hp] at ht hstaged
    exact fun hs => (hstaged rfl hs).2 (ht (hstaged rfl hs).1)
  | moving publisher =>
    rw [hp] at ht hstaged
    exact ⟨hlock.trans ht.1, fun hs => (hstaged rfl hs).2 (ht.2 (hstaged rfl hs).1)⟩
  | moved publisher =>
    rw [hp] at ht hmoved
    exact ⟨hlock.trans ht.1, (hmoved rfl).trans ht.2⟩
  | _ =>
    rw [hp] at ht hpc
    first
      | exact trivial
      | exact hf.dead ht
      | exact hf.wasLive ht
      | exact hlock.trans ht
      | exact hf.ranks ht
      | exact ⟨hlock.trans ht.1, fun o ho => hf.dead (ht.2 o ho)⟩
      | exact ⟨hf.dead ht.1, hf.ranks ht.2⟩
      | exact ⟨ht.1.trans (hf.le_rank _), hf.ranks ht.2⟩
      | exact ⟨hlock.trans ht.1, hcur.trans ht.2⟩
      | exact absurd hpc Bool.true_eq_false.mp

/-- A step of the task of `t`. -/
theorem Inv.tasks (h : Inv s) {k : Task} {b : Bool} (hpc : (s.th t).isOpening = false)
    (hk : (s.task t).spoils = true → k.spoils = true) (hb : k.spoils = false → s.active t = true → b = true)
    (hdead : k = .discarding → Dead ((s.pin t b).setTask t k) t) : Stepped s ((s.pin t b).setTask t k) := by
  have hf : Frame s ((s.pin t b).setTask t k) t := frame_task hk
  have htask : ((s.pin t b).setTask t k).task t = k := by simp [Srv.setTask]
  refine ⟨t, hf, h.stays hf rfl rfl rfl hpc (fun _ hs => ?_) fun _ => rfl, fun hd => .inr (hdead (htask ▸ hd))⟩
  rw [htask] at hs
  refine ⟨Bool.eq_false_iff.mpr fun hx => Bool.false_ne_true (hs.symm.trans (hk hx)), fun hst => ⟨hst.1, ?_⟩⟩
  simpa [Srv.setTask, Srv.pin] using hb hs hst.2

/-- A removal of a member, or of the directory: nobody's but a dead one's. -/
theorem Inv.removed (h : Inv s) (hr : (s.th t).removes t = some d ∨ d = t ∧ s.task t = .discarding)
    (hf : Frame s s' t) (hth : s'.th = s.th) (htask : s'.task = s.task) (hlock : s'.lock = s.lock)
    (hcur : s'.disk.current = s.disk.current) : Stepped s s' := by
  have hpc : (s.th t).isOpening = false ∧ (s.task t = .discarding ∨ (s.th t).rank = 4) := by
    rcases hr with hr | ⟨-, hk⟩
    · cases hpc : s.th t <;> rw [hpc] at hr <;> first | exact ⟨rfl, .inr rfl⟩ | cases hr
    · exact ⟨h.opening (by rw [hk]; nofun), .inl hk⟩
  have hrank : s.rank t = 4 := hpc.2.elim (fun hk => (h.discarding t hk).2) rank_of_four
  refine ⟨t, hf, h.stays hf hth hlock hcur hpc.1 (fun h2 hs => ?_) (fun hm => ?_), fun hd => .inl (htask ▸ hd)⟩
  · rw [htask] at hs
    rw [rank_of_intact hs] at hrank
    omega
  · have h3 : (s.th t).rank = 3 := by
      cases hpc : s.th t <;> rw [hpc] at hm <;> first | rfl | cases hm
    rw [rank_eq (by omega)] at hrank
    omega

/-- What each step does, one case for each position in the source. -/
theorem stepped (h : Inv s) (a : Act) (hp : s.Pre a) (ht : Timely s a) (hc : a ≠ .crash) :
    Stepped s (s.post a) := by
  cases a with
  | begin t =>
    have own : s.task t = .awaiting ∧ s.area t = none := h.at hp
    refine .goto (frame_make own.2 (rank_lt_of hp (by simp [Pc.rank])) (goes_of hp (by simp [Pc.rank]))) ⟨?_, ?_⟩
    · rw [goto_task, make_task, own.1]
    · rw [goto_area, make_area own.2, if_pos rfl]
  | register t =>
    have own : s.task t = .awaiting ∧ s.area t = some .incoming := h.at hp
    exact .goto (frame_pin (goes_of hp (by simp [Pc.rank]))) fun _ => ⟨own.2, by simp [Srv.pin]⟩
  | fill t op =>
    have own : (s.task t).spoils = false → Staged s t := h.at hp.1.1
    have hf : Frame s (((s.write (.change t op)).note t op).goto t (s.th t)) t :=
      frame_note (goes_of hp.1.1 (by simp [hp.1.1, Pc.rank]))
    have hgoto : ((s.write (.change t op)).note t op).goto t (s.th t) = (s.write (.change t op)).note t op := by
      have hth : ((s.write (.change t op)).note t op).th = s.th := note_th.trans write_th
      rw [← hth, goto_same]
    rw [hgoto] at hf
    change Stepped s ((s.write (.change t op)).note t op)
    refine ⟨t, hf, h.stays hf (note_th.trans write_th) (note_lock.trans write_lock) ?_ ?_ (fun _ hs => ?_) (fun hm => ?_),
      fun hd => .inl ?_⟩
    · rw [note_disk, (write_change (u := t)).2]
    · rw [hp.1.1]
      rfl
    · rw [note_task, write_task] at hs
      refine ⟨hs, fun hst => ⟨note_area.trans (write_change.1.trans hst.1), ?_⟩⟩
      rw [note_active, write_active, hst.2]
    · exact note_area.trans write_change.1
    · rwa [note_task, write_task] at hd
  | abort t => exact .goto (frame_move (.last rfl)) (h.drop (rank_lt_of hp.1 (by simp [Pc.rank])) rfl (.inl rfl))
  | cancel t =>
    have hpc : (s.th t).isOpening = false := by
      have ha : (s.th t).isAwaited = true := hp.1
      cases hpc : s.th t <;> rw [hpc] at ha <;> first | rfl | cases ha
    have hs : s.setTask t .cancelled = (s.pin t (s.active t)).setTask t .cancelled := by
      simp [Srv.pin]
    change Stepped s (s.setTask t .cancelled)
    rw [hs]
    refine h.tasks hpc (fun hk => ?_) (fun _ ha => ha) nofun
    rw [hp.2] at hk
    cases hk
  | refuse t | dropped t | swept t | lease t | cancelLeasing t | missCurrent t cancelled =>
    exact .move (.last rfl) fun _ => trivial
  | discard t =>
    have hk : s.task t ≠ .awaiting := by
      rw [hp.1]
      nofun
    have hs : s.setTask t .discarding = (s.pin t (s.active t)).setTask t .discarding := by
      simp [Srv.pin]
    change Stepped s (s.setTask t .discarding)
    rw [hs]
    refine h.tasks (h.opening hk) (fun _ => rfl) (fun _ ha => ha) fun _ => ⟨fun hc => (h.live t hc).2 hp.2, ?_⟩
    refine rank_of_spoilt (by simp [Srv.setTask, Task.spoils]) (h.begun hp.2) fun h3 => ?_
    exact h.not_moved hp.2 h3
  | missDiscard t =>
    have hk : s.task t ≠ .awaiting := by
      rw [hp.1]
      nofun
    exact h.tasks (h.opening hk) (fun _ => rfl) (fun hx => by cases hx) nofun
  | discarded t =>
    have hk : s.task t ≠ .awaiting := by
      rw [hp]
      nofun
    exact h.tasks (h.opening hk) (fun _ => rfl) (fun hx => by cases hx) nofun
  | lockPublish t m publisher =>
    have own : (s.task t).spoils = false → Staged s t := h.at hp.1
    exact .goto (frame_lock hp.2.1 (goes_of hp.1 (by simp [Pc.rank]))) ⟨rfl, own⟩
  | move t publisher =>
    have own : s.lock = some t ∧ ((s.task t).spoils = false → Staged s t) := h.at hp.1
    refine .goto (frame_publish_move hp.2 (rank_lt_of hp.1 (by simp [Pc.rank]))
      (Nat.le_of_lt (rank_lt_of hp.1 (by simp [Pc.rank]))) rfl ht) ⟨?_, ?_⟩
    · rw [goto_lock, write_lock, own.1]
    · rw [goto_area, (write_move hp.2).1, if_pos rfl]
  | flip t publisher =>
    have own : s.lock = some t ∧ s.area t = some .snapshots := h.at hp
    have h3 : (s.th t).rank = 3 := congrArg Pc.rank hp
    have hf : Frame s ((s.write (.flip t)).goto t (.flipped publisher s.disk.current)) t :=
      frame_flip own.1 own.2 h3 rfl
    refine .goto hf ⟨own.1, fun o ho => ⟨?_, rank_of_four (hf.rank_four (h.live o ho).1)⟩⟩
    rintro hc
    have hot : t = o := Option.some.inj hc
    exact h.not_current (by omega) (hot ▸ ho)
  | checkOld t publisher old =>
    have own : s.lock = some t ∧ ∀ o, old = some o → Dead s o := h.at hp
    refine .move (goes_of hp (by simp [Pc.rank])) fun hf => ⟨own.1, fun o ho => hf.dead (own.2 o ?_)⟩
    exact (Option.filter_eq_some_iff.mp ho).1
  | mark t publisher old =>
    have own : s.lock = some t ∧ ∀ o, old = some o → Dead s o := h.at hp
    have hf : Frame s ((s.write (.mark (s.disk.marker.bump publisher))).goto t (.unlocking old)) t :=
      frame_mark (.last rfl)
    exact .goto hf ⟨own.1, fun o ho => hf.dead (own.2 o ho)⟩
  | unlock t old =>
    have own : s.lock = some t ∧ ∀ o, old = some o → Dead s o := h.at hp
    cases old with
    | none => exact .goto (frame_unlock own.1 (.last (resume_rank rfl))) (threadOk_resume trivial)
    | some o =>
      have hf : Frame s ((s.setLock none).goto t (s.resume t (.reclaiming o))) t :=
        frame_unlock own.1 (.last (resume_rank rfl))
      exact .goto hf (threadOk_resume (hf.dead (own.2 o rfl)))
  | failMove t publisher =>
    have own : s.lock = some t ∧ ((s.task t).spoils = false → Staged s t) := h.at hp
    exact .goto (frame_unlock own.1 (.last (resume_rank rfl)))
      (h.drop (rank_lt_of hp (by simp [Pc.rank])) rfl resume_cases)
  | failPublish t =>
    have own : s.lock = some t := by
      have hok := h.thread t
      have hpub : (s.th t).isPublishing = true := hp
      cases hpc : s.th t <;> rw [hpc] at hok hpub <;> first | exact hok.1 | cases hpub
    exact .goto (frame_unlock own (.last (resume_rank rfl))) (threadOk_resume trivial)
  | reclaimed t old => exact .move (.last (resume_rank rfl)) fun _ => threadOk_resume trivial
  | unregister t => exact .goto (frame_pin (.last rfl)) trivial
  | lockFirst t m ops =>
    have own : s.task t = .awaiting ∧ s.area t = none := h.at hp.1
    exact .goto (frame_lock hp.2.1 (goes_of hp.1 (by simp [Pc.rank]))) ⟨rfl, own⟩
  | makeFirst t ops =>
    have own : s.lock = some t ∧ s.task t = .awaiting ∧ s.area t = none := h.at hp
    refine .goto (frame_make own.2.2 (rank_lt_of hp (by simp [Pc.rank])) (goes_of hp (by simp [Pc.rank])))
      ⟨?_, ?_, ?_⟩
    · rw [goto_lock, Srv.make, write_lock, own.1]
    · rw [goto_task, make_task, own.2.1]
    · rw [goto_area, make_area own.2.2, if_pos rfl]
  | registerFirst t ops =>
    have own : s.lock = some t ∧ s.task t = .awaiting ∧ s.area t = some .incoming := h.at hp
    exact .goto (frame_pin (goes_of hp (by simp [Pc.rank]))) ⟨own.1, own.2.1, own.2.2, by simp [Srv.pin]⟩
  | fillFirst t op ops =>
    have own : s.lock = some t ∧ s.task t = .awaiting ∧ Staged s t := h.at hp.1
    refine .goto (frame_note (goes_of hp.1 (by simp [Pc.rank]))) ⟨?_, ?_, ?_, ?_⟩
    · rw [goto_lock, note_lock, write_lock, own.1]
    · rw [goto_task, note_task, write_task, own.2.1]
    · rw [goto_area, note_area, write_change.1, own.2.2.1]
    · rw [goto_active, note_active, write_active, own.2.2.2]
  | staged t =>
    have own : s.lock = some t ∧ s.task t = .awaiting ∧ Staged s t := h.at hp
    exact .move (goes_of hp (by simp [Pc.rank])) fun _ => ⟨own.1, fun _ => own.2.2⟩
  | failMakeFirst t ops =>
    have own : s.lock = some t ∧ s.task t = .awaiting ∧ s.area t = none := h.at hp
    exact .goto (frame_unlock own.1 (.last rfl)) trivial
  | failFirst t ops =>
    have own : s.lock = some t ∧ s.task t = .awaiting ∧ Staged s t := h.at hp
    exact .goto (frame_unlock own.1 (.last rfl)) (h.drop (rank_lt_of hp (by simp [Pc.rank])) rfl (.inl rfl))
  | lockEdit t m e =>
    exact .goto (frame_lock hp.2.1 (.last rfl)) ⟨rfl, current_of_check hp.2.2⟩
  | edit t e op ops =>
    have own : s.lock = some t ∧ s.disk.current = some e.live := h.at hp.1
    refine .goto (frame_note (.last rfl)) ⟨?_, ?_⟩
    · rw [goto_lock, note_lock, write_lock, own.1]
    · rw [goto_disk, note_disk, (write_change (u := t)).2, own.2]
  | wipe t e =>
    have own : s.lock = some t ∧ s.disk.current = some e.live := h.at hp.1
    refine .goto ((frame_rmdir (rank_of_four (h.live _ own.2).1)).goto (by rw [write_th]) (by rw [write_task])
      (.last rfl)) ?_
    change (s.write (.rmdir e.live)).lock = some t
    rw [write_lock, own.1]
  | edited t e =>
    have own : s.lock = some t ∧ s.disk.current = some e.live := h.at hp.1
    exact .move (.last rfl) fun _ => own.1
  | markEdit t =>
    have own : s.lock = some t := h.at hp
    exact .goto (frame_mark (.last rfl)) own
  | failMark t =>
    have own : s.lock = some t := h.at hp
    exact .move (.last rfl) fun _ => own
  | failEdit t e ops =>
    have own : s.lock = some t ∧ s.disk.current = some e.live := h.at hp
    exact .move (.last rfl) fun _ => own
  | undo t live op ops =>
    have own : s.lock = some t ∧ s.disk.current = some live := h.at hp
    refine .goto (frame_note (.last rfl)) ⟨?_, ?_⟩
    · rw [goto_lock, note_lock, write_lock, own.1]
    · rw [goto_disk, note_disk, (write_change (u := t)).2, own.2]
  | undone t live ops =>
    have own : s.lock = some t ∧ s.disk.current = some live := h.at hp
    exact .move (.last rfl) fun _ => own.1
  | unlockEdit t =>
    have own : s.lock = some t := h.at hp
    exact .goto (frame_unlock own (.last rfl)) trivial
  | unlink t d p =>
    exact h.removed hp frame_change write_th write_task write_lock (write_change (u := t)).2
  | rmdir t d =>
    have hr : (s.th t).removes t = some d ∨ d = t ∧ s.task t = .discarding := hp.imp_right fun hd => ⟨hd.1, hd.2.1⟩
    exact h.removed hr (frame_rmdir (h.dead_of_removes hr).2) write_th write_task write_lock
      (write_rmdir (u := t)).2
  | sweep t todo =>
    refine .move (.last rfl) fun hf d hd => ?_
    exact (h.landed d (hp.2 d hd)).trans (hf.le_rank d)
  | skipLive t d todo =>
    have own : ∀ u ∈ d :: todo, 3 ≤ s.rank u := h.at hp.1
    exact .move (.last rfl) fun hf => hf.ranks (List.forall_mem_cons.mp own).2
  | compare t d todo =>
    have own : ∀ u ∈ d :: todo, 3 ≤ s.rank u := h.at hp.1
    have h4 : s.rank d = 4 := rank_of_landed (own d List.mem_cons_self) ht
    exact .move (.last rfl) fun hf => ⟨hf.dead ⟨hp.2, h4⟩, hf.ranks (List.forall_mem_cons.mp own).2⟩
  | skipLeased t d todo =>
    have own : Dead s d ∧ ∀ u ∈ todo, 3 ≤ s.rank u := h.at hp.1
    exact .move (.last rfl) fun hf => hf.ranks own.2
  | remove t d todo =>
    have own : Dead s d ∧ ∀ u ∈ todo, 3 ≤ s.rank u := h.at hp.1
    exact .move (.last rfl) fun hf => ⟨hf.dead own.1, hf.ranks own.2⟩
  | removedSnapshot t d todo =>
    have own : Dead s d ∧ ∀ u ∈ todo, 3 ≤ s.rank u := h.at hp
    exact .move (.last rfl) fun hf => hf.ranks own.2
  | listStaging t todo =>
    refine .move (.last rfl) fun hf d hd => ?_
    exact ((h.begun (hp.2 d hd)).trans le_rank).trans (hf.le_rank d)
  | skipPinned t d todo =>
    have own : ∀ u ∈ d :: todo, 2 ≤ s.rank u := h.at hp.1
    exact .move (.last rfl) fun hf => hf.ranks (List.forall_mem_cons.mp own).2
  | unpin t d todo =>
    have own : ∀ u ∈ d :: todo, 2 ≤ s.rank u := h.at hp.1
    have h3 := h.unpinned (own d List.mem_cons_self) hp.2 ht
    exact .move (.last rfl) fun hf => ⟨h3.trans (hf.le_rank d), hf.ranks (List.forall_mem_cons.mp own).2⟩
  | removeStaging t d todo =>
    have own : 3 ≤ s.rank d ∧ ∀ u ∈ todo, 2 ≤ s.rank u := h.at hp.1
    have hdead : Dead s d := h.dead_of_unpinned own.1 hp.2
    exact .move (.last rfl) fun hf => ⟨hf.dead hdead, hf.ranks own.2⟩
  | missStaging t d todo =>
    have own : 3 ≤ s.rank d ∧ ∀ u ∈ todo, 2 ≤ s.rank u := h.at hp.1
    exact .move (.last rfl) fun hf => hf.ranks own.2
  | removedStaging t d todo =>
    have own : Dead s d ∧ ∀ u ∈ todo, 2 ≤ s.rank u := h.at hp
    exact .move (.last rfl) fun hf => hf.ranks own.2
  | resolve t d cancelled =>
    exact .move (.last rfl) fun hf => hf.wasLive (h.live d (current_of_live hp.2))
  | cancelResolved t d | cancelCounted t d | cancelGranted t d | deliver t d | reclaimOrphan t d | release t d =>
    have own : WasLive s d := h.at hp
    exact .move (.last rfl) fun hf => hf.wasLive own
  | acquire t d cancelled =>
    have own : WasLive s d := h.at hp
    have hf : Frame s ((s.addLease d).goto t (.counted d cancelled)) t :=
      frame_lease rfl rfl rfl rfl rfl (.last rfl)
    exact .goto hf (hf.wasLive own)
  | recheck t d cancelled =>
    have own : WasLive s d := h.at hp.1
    exact .move (.last rfl) fun hf => hf.wasLive own
  | retry t d cancelled | dropCount t d =>
    exact .goto (frame_lease rfl rfl rfl rfl rfl (.last rfl)) trivial
  | releaseAgain t =>
    have hr : (s.th t).isReleased = true := hp
    have hf : Frame s (s.goto t (s.th t)) t := by
      refine frame_move ⟨le_rfl, ?_⟩
      cases hpc : s.th t <;> rw [hpc] at hr <;> first | cases hr; done | simp [Pc.rank]
    rw [goto_same] at hf
    exact ⟨t, hf, h.thread t, fun hd => .inl hd⟩
  | crash => exact absurd rfl hc

/-- **Every step with a timely sweep keeps the invariant.** -/
theorem inv_step (h : Inv s) (a : Act) (hp : s.Pre a) (ht : Timely s a) : Inv (s.post a) := by
  by_cases hc : a = .crash
  · rw [hc]
    exact inv_crash h
  · obtain ⟨t, hf, own, htask⟩ := stepped h a hp ht hc
    exact h.step hf own fun hd => (htask hd).elim (fun hk => hf.dead (h.discarding t hk)) fun hdead => hdead

/-- **In a run whose sweeps are timely, the invariant holds throughout.** -/
theorem inv_reach {s : Srv} (h : server.Reach Timely .init s) : Inv s :=
  h.invariant inv_init fun _ a hu hp ht => inv_step hu a hp ht

end McServerDashboard.Fs
