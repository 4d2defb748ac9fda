import Mathlib.Data.Finset.Card
import McServerDashboard.Fs.Live

/-!
# Reader leases

A reader leases the live snapshot by reading `current`, counting the lease up and reading
`current` again; a reclaim checks the count after the flip and removes outside the lock.

* `LeaseCount`: the count of a directory is the number of readers with a lease on it that is
  granted, held or not yet counted down, so a lease released twice is counted down once.
* **`lease_law`**: with timely sweeps no directory that a reader holds is being removed.
* `granted_live`: a lease is granted only on the directory that is live at that step.
* `cancelled_stays`, `cancelled_ends`: a cancelled request never comes to hold a lease, and always
  comes to its end.
-/

namespace McServerDashboard.Fs

open Lib

variable {s s' : Srv} {t u : Tid} {d : DirId} {pc : Pc}

namespace Pc

/-- The directory the thread has a counted lease on. -/
def counts : Pc → Option DirId
  | counted d _ => some d
  | granted d _ => some d
  | holding d => some d
  | releasing d => some d
  | _ => none

/-- The directory whose lease is granted to the thread. -/
def secured : Pc → Option DirId
  | granted d _ => some d
  | holding d => some d
  | releasing d => some d
  | _ => none

/-- The directory the thread removes, or will remove without another look at its lease. -/
def condemns (t : Tid) : Pc → Option DirId
  | marking _ old => old
  | unlocking old => old
  | reclaiming old => some old
  | dropping => some t
  | removing d _ _ => some d
  | _ => none

/-- The task that asked for the lease was cancelled, its job still runs. -/
def isCancelled : Pc → Bool
  | leasing c => c
  | resolved _ c => c
  | counted _ c => c
  | granted _ c => c
  | _ => false

/-- The reader is done. -/
def isDone : Pc → Bool
  | released => true
  | «over» => true
  | _ => false

/-- The reader was cancelled or released: what it has counted it will count down. -/
def isClosing : Pc → Bool
  | releasing _ => true
  | pc => pc.isCancelled || pc.isDone

end Pc

theorem goto_th : (s.goto t pc).th u = if u = t then pc else s.th u := by
  by_cases h : u = t
  · rw [h, goto_self, if_pos rfl]
  · rw [goto_ne h, if_neg h]

theorem make_th : (s.make t).th = s.th := write_th

/-- A step of a thread that changes what it condemns, at the thread itself. -/
theorem condemns_goto (h : ((s'.goto t pc).th u).condemns u = some d) (hth : s'.th = s.th) :
    (s.th u).condemns u = some d ∨ u = t ∧ pc.condemns t = some d := by
  rw [goto_th] at h
  split_ifs at h with hu
  · exact .inr ⟨hu, hu ▸ h⟩
  · exact .inl (hth ▸ h)

/-- A thread that ends because its task was cancelled condemns nothing, and holds nothing. -/
theorem condemns_resume (h : (s.resume t pc).condemns u = some d) : pc.condemns u = some d := by
  unfold Srv.resume at h
  split at h
  · exact h
  · cases h

theorem secured_resume (h : (s.resume t pc).secured = some d) : pc.secured = some d := by
  unfold Srv.resume at h
  split at h
  · exact h
  · cases h

theorem counts_resume (h : pc.counts = none) : (s.resume t pc).counts = none := by
  unfold Srv.resume
  split
  · exact h
  · rfl

/-- What a thread comes to condemn has no lease, is a staging, or was never flipped onto. -/
theorem condemns_step (a : Act) (hp : s.Pre a) (h : ((s.post a).th u).condemns u = some d) :
    (s.th u).condemns u = some d ∨ s.leases d = 0 ∨ s.area d = some .incoming ∨ (s.th d).rank < 4 := by
  cases a with
  | abort t =>
    refine (condemns_goto h rfl).imp_right fun hc => .inr (.inr ?_)
    exact Option.some.inj hc.2 ▸ rank_lt_of hp.1 (by simp [Pc.rank])
  | checkOld t publisher old =>
    refine (condemns_goto h rfl).imp_right fun hc => .inl ?_
    simpa using (Option.filter_eq_some_iff.mp hc.2).2
  | mark t publisher old =>
    rcases condemns_goto h write_th with hu | ⟨rfl, hc⟩
    · exact .inl hu
    · exact .inl ((congrArg (Pc.condemns u) hp).trans hc)
  | unlock t old =>
    rcases condemns_goto h rfl with hu | ⟨rfl, hc⟩
    · exact .inl hu
    · have hc := condemns_resume hc
      cases old with
      | none => cases hc
      | some o => exact .inl ((congrArg (Pc.condemns u) hp).trans hc)
  | failMove t publisher =>
    refine (condemns_goto h rfl).imp_right fun hc => .inr (.inr ?_)
    exact Option.some.inj (condemns_resume hc.2) ▸ rank_lt_of hp (by simp [Pc.rank])
  | failPublish t | reclaimed t old =>
    refine (condemns_goto h rfl).imp_right fun hc => ?_
    cases condemns_resume hc.2
  | failFirst t ops =>
    refine (condemns_goto h rfl).imp_right fun hc => .inr (.inr ?_)
    exact Option.some.inj hc.2 ▸ rank_lt_of hp (by simp [Pc.rank])
  | remove t d' todo =>
    refine (condemns_goto h rfl).imp_right fun hc => .inl ?_
    exact Option.some.inj hc.2 ▸ hp.2
  | removeStaging t d' todo =>
    refine (condemns_goto h rfl).imp_right fun hc => .inr (.inl ?_)
    exact Option.some.inj hc.2 ▸ hp.2
  | crash =>
    simp only [Srv.post, Srv.crash] at h
    split at h <;> cases h
  | _ =>
    -- The other steps leave the thread at a position that condemns nothing.
    simp only [Srv.post, goto_th, write_th, note_th, make_th] at h
    first
      | exact .inl h
      | split_ifs at h
        · cases h
        · exact .inl h

theorem secured_goto {old : Pc} (h : ((s.goto u pc).th t).secured = some d) (hold : s.th u = old)
    (hpc : pc.secured = old.secured) : (s.th t).secured = some d := by
  rw [goto_th] at h
  split_ifs at h with hu
  · rw [hu, hold, ← hpc, h]
  · exact h

/-- **A lease is granted only on the directory that is live at that step, at the end of a lease
call on it.** -/
theorem granted_live (a : Act) (hp : s.Pre a) (h : ((s.post a).th t).secured = some d)
    (hn : (s.th t).secured ≠ some d) :
    s.live = some d ∧ ∃ c, a = .recheck t d c ∧ s.th t = .counted d c := by
  cases a with
  | recheck u d' c =>
    simp only [Srv.post, goto_th] at h
    split_ifs at h with hu
    · cases h
      exact ⟨hp.2, c, by rw [hu], by rw [hu]; exact hp.1⟩
    · exact absurd h hn
  | cancelGranted u d' | deliver u d' | reclaimOrphan u d' | release u d' => exact absurd (secured_goto h hp rfl) hn
  | unlock u old =>
    simp only [Srv.post, goto_th] at h
    split_ifs at h
    · cases old <;> cases secured_resume h
    · exact absurd h hn
  | failMove u publisher | failPublish u | reclaimed u old =>
    simp only [Srv.post, goto_th] at h
    split_ifs at h
    · cases secured_resume h
    · exact absurd h hn
  | crash =>
    simp only [Srv.post, Srv.crash] at h
    split at h <;> cases h
  | _ =>
    simp only [Srv.post, goto_th, write_th, note_th, make_th] at h
    first
      | exact absurd h hn
      | split_ifs at h
        · cases h
        · exact absurd h hn

/-! ## The counts -/

/-- The count of a directory is the number of threads with a counted lease on it. -/
def LeaseCount (s : Srv) (d : DirId) : Prop :=
  ∃ l : Finset Tid, l.card = s.leases d ∧ ∀ t, t ∈ l ↔ (s.th t).counts = some d

theorem write_leases {w : Write} : (s.write w).leases = s.leases := by
  unfold Srv.write
  split <;> rfl

theorem note_leases {op : TreeOp} : (s.note d op).leases = s.leases := by
  unfold Srv.note
  split <;> rfl

theorem leaseCount_of_same (hl : s'.leases = s.leases) (hth : s'.th = s.th) (h : LeaseCount s d) :
    LeaseCount s' d := by
  unfold LeaseCount
  rw [hl, hth]
  exact h

/-- A thread that moves without touching the counts. -/
theorem LeaseCount.goto {old : Pc} (h : LeaseCount s d) (hl : s'.leases = s.leases)
    (hth : s'.th = s.th) (hold : s.th t = old) (hpc : pc.counts = old.counts) :
    LeaseCount (s'.goto t pc) d := by
  obtain ⟨l, hcard, hmem⟩ := h
  refine ⟨l, by rw [hcard, goto_leases, hl], fun u => ?_⟩
  rw [hmem, goto_th]
  split_ifs with hu
  · rw [hpc, hu, hold]
  · rw [hth]

theorem LeaseCount.acquire (h : LeaseCount s d) {e : DirId} (hn : (s.th t).counts = none)
    (hpc : pc.counts = some e) : LeaseCount ((s.addLease e).goto t pc) d := by
  obtain ⟨l, hcard, hmem⟩ := h
  by_cases he : d = e
  · subst he
    have hnot : t ∉ l := fun ht => by rw [hmem, hn] at ht; cases ht
    refine ⟨insert t l, by simp [Finset.card_insert_of_notMem hnot, hcard, Srv.addLease], fun u => ?_⟩
    rw [Finset.mem_insert, hmem, goto_th]
    split_ifs with hu
    · simp [hu, hpc]
    · simp [hu, Srv.addLease]
  · refine ⟨l, by simp [hcard, Srv.addLease, he], fun u => ?_⟩
    rw [hmem, goto_th]
    split_ifs with hu
    · rw [hu, hn, hpc]
      simp [Ne.symm he]
    · rfl

theorem LeaseCount.drop (h : LeaseCount s d) {e : DirId} (he : (s.th t).counts = some e)
    (hpc : pc.counts = none) : LeaseCount ((s.dropLease e).goto t pc) d := by
  obtain ⟨l, hcard, hmem⟩ := h
  by_cases hd : d = e
  · subst hd
    have hin : t ∈ l := (hmem t).mpr he
    refine ⟨l.erase t, by simp [Finset.card_erase_of_mem hin, hcard, Srv.dropLease], fun u => ?_⟩
    rw [Finset.mem_erase, hmem, goto_th]
    split_ifs with hu
    · simp [hu, hpc]
    · simp [hu, Srv.dropLease]
  · refine ⟨l, by simp [hcard, Srv.dropLease, hd], fun u => ?_⟩
    rw [hmem, goto_th]
    split_ifs with hu
    · rw [hu, he, hpc]
      simp [Ne.symm hd]
    · rfl

theorem leaseCount_step (a : Act) (hp : s.Pre a) (h : LeaseCount s d) : LeaseCount (s.post a) d := by
  have hnote : ∀ e op, ((s.write (.change e op)).note e op).leases = s.leases := fun _ _ =>
    note_leases.trans write_leases
  have hnoteth : ∀ e op, ((s.write (.change e op)).note e op).th = s.th := fun _ _ =>
    note_th.trans write_th
  cases a with
  | acquire t e c => exact h.acquire (congrArg Pc.counts hp) rfl
  | retry t e c => exact h.drop (congrArg Pc.counts hp.1) rfl
  | dropCount t e => exact h.drop (congrArg Pc.counts hp) rfl
  | fill t op => exact leaseCount_of_same (hnote t op) (hnoteth t op) h
  | unlink t e p | rmdir t e => exact leaseCount_of_same write_leases write_th h
  | releaseAgain t => exact h
  | cancel t | discard t | missDiscard t | discarded t => exact leaseCount_of_same rfl rfl h
  | unlock t old => cases old <;> exact h.goto rfl rfl hp (counts_resume rfl)
  | failMove t publisher | reclaimed t old => exact h.goto rfl rfl hp (counts_resume rfl)
  | failPublish t =>
    have hpub : (s.th t).isPublishing = true := hp
    cases hpc : s.th t <;> rw [hpc] at hpub <;> first
      | exact h.goto rfl rfl hpc (counts_resume rfl)
      | cases hpub
  | crash =>
    refine ⟨∅, rfl, fun t => ?_⟩
    simp only [Srv.post, Srv.crash, Finset.notMem_empty, false_iff]
    split <;> simp [Pc.counts]
  | _ =>
    -- The thread moves between positions with the same count, after at most one write.
    first
      | exact h.goto rfl rfl hp rfl
      | exact h.goto rfl rfl hp.1 rfl
      | exact h.goto write_leases write_th hp rfl
      | exact h.goto write_leases write_th hp.1 rfl
      | exact h.goto (hnote _ _) (hnoteth _ _) hp rfl
      | exact h.goto (hnote _ _) (hnoteth _ _) hp.1 rfl

/-! ## Safety -/

/-- No granted lease is on a directory that a thread condemns, or a cancelled task removes. -/
def Protected (s : Srv) : Prop :=
  ∀ t d, (s.th t).secured = some d → (∀ u, (s.th u).condemns u ≠ some d) ∧ s.task d ≠ .discarding

theorem setTask_task {k : Task} (h : (s.setTask t k).task d = .discarding) :
    s.task d = .discarding ∨ d = t ∧ k = .discarding := by
  by_cases hd : d = t
  · exact .inr ⟨hd, by simpa [Srv.setTask, hd] using h⟩
  · exact .inl (by simpa [Srv.setTask, hd] using h)

/-- A cancelled task begins to remove a staging that stands in `incoming/`. -/
theorem discarding_step (a : Act) (hp : s.Pre a) (h : (s.post a).task d = .discarding) :
    s.task d = .discarding ∨ s.area d = some .incoming := by
  cases a with
  | cancel t | missDiscard t | discarded t => exact (setTask_task h).imp_right fun hk => by cases hk.2
  | discard t =>
    refine (setTask_task h).imp_right fun hk => ?_
    rw [hk.1]
    exact hp.2
  | crash => cases h
  | _ => exact .inl (by simpa [Srv.post, Srv.make] using h)

theorem Inv.dead_of_condemns (h : Inv s) (hc : (s.th u).condemns u = some d) : Dead s d := by
  have hu := h.thread u
  cases hpc : s.th u <;> rw [hpc] at hu hc <;> try cases hc; done
  · exact hu.2 d hc
  · exact hu.2 d hc
  · exact Option.some.inj hc ▸ hu
  · exact Option.some.inj hc ▸ hu
  · next area => cases area <;> exact Option.some.inj hc ▸ hu.1

theorem Inv.wasLive_of_secured (h : Inv s) (hs : (s.th t).secured = some d) : WasLive s d := by
  have ht := h.thread t
  cases hpc : s.th t <;> rw [hpc] at ht hs <;> first
    | exact Option.some.inj hs ▸ ht
    | cases hs

theorem LeaseCount.pos (h : LeaseCount s d) (hs : (s.th t).secured = some d) : s.leases d ≠ 0 := by
  obtain ⟨l, hcard, hmem⟩ := h
  have ht : t ∈ l := by
    rw [hmem]
    cases hpc : s.th t <;> rw [hpc] at hs <;> first
      | exact hs
      | cases hs
  rw [← hcard]
  exact Finset.card_ne_zero_of_mem ht

theorem protected_step (hi : Inv s) (hl : ∀ d, LeaseCount s d) (h : Protected s) (a : Act)
    (hp : s.Pre a) : Protected (s.post a) := by
  intro t d hs
  by_cases ht : (s.th t).secured = some d
  · refine ⟨fun u hc => ?_, fun hk => ?_⟩
    · rcases condemns_step a hp hc with hc' | h0 | harea | hrank
      · exact (h t d ht).1 u hc'
      · exact (hl d).pos ht h0
      · exact (hi.wasLive_of_secured ht).2 harea
      · have := (hi.wasLive_of_secured ht).1
        omega
    · rcases discarding_step a hp hk with hk' | harea
      · exact (h t d ht).2 hk'
      · exact (hi.wasLive_of_secured ht).2 harea
  · obtain ⟨hlive, c, rfl, -⟩ := granted_live a hp hs ht
    have hcur := current_of_live hlive
    -- The step is the reader's own, so whoever condemns `d` did so before.
    refine ⟨fun u hc => ?_, fun hk => (hi.discarding d hk).1 hcur⟩
    rcases condemns_goto hc rfl with hc' | ⟨-, hc'⟩
    · exact (hi.dead_of_condemns hc').1 hcur
    · cases hc'

theorem leases_reach (h : server.Reach Timely .init s) :
    Inv s ∧ (∀ d, LeaseCount s d) ∧ Protected s :=
  h.invariant (I := fun s => Inv s ∧ (∀ d, LeaseCount s d) ∧ Protected s)
    ⟨inv_init, fun d => ⟨∅, rfl, fun t => by simp [Srv.init, Pc.counts]⟩, fun t d hs => by cases hs⟩
    fun u a hu hp ht => ⟨inv_step hu.1 a hp ht, fun d => leaseCount_step a hp (hu.2.1 d),
      protected_step hu.1 hu.2.1 hu.2.2 a hp⟩

/-- With timely sweeps a directory that a reader holds is never being removed. -/
theorem holding_safe (h : server.Reach Timely .init s) (hd : s.th t = .holding d) : Kept s d := by
  obtain ⟨hc, hk⟩ := (leases_reach h).2.2 t d (congrArg Pc.secured hd)
  refine ⟨fun u hr => hc u ?_, hk⟩
  cases hpc : s.th u <;> rw [hpc] at hr <;> first
    | exact hr
    | cases hr

/-! ## Cancellation -/

theorem closing_goto {old : Pc} (h : (s.th t).isClosing = true) (hth : s'.th = s.th)
    (hold : s.th u = old) (hpc : old.isClosing = true → pc.isClosing = true) :
    ((s'.goto u pc).th t).isClosing = true := by
  rw [goto_th]
  split_ifs with hu
  · exact hpc (by rw [← hold, ← hu, h])
  · rw [hth, h]

/-- A request that is cancelled stays so until its lease is counted down. -/
theorem closing_step (a : Act) (hp : s.Pre a) (h : (s.th t).isClosing = true) :
    ((s.post a).th t).isClosing = true := by
  have hnoteth : ∀ e op, ((s.write (.change e op)).note e op).th = s.th := fun _ _ =>
    note_th.trans write_th
  cases a with
  | fill u op => exact (hnoteth u op) ▸ h
  | unlink u d p =>
    change ((s.write (.change d (.discard p))).th t).isClosing = true
    rw [write_th, h]
  | rmdir u d =>
    change ((s.write (.rmdir d)).th t).isClosing = true
    rw [write_th, h]
  | releaseAgain u => exact h
  | cancel u => exact h
  | discard u => exact h
  | missDiscard u => exact h
  | discarded u => exact h
  | unlock u old => cases old <;> exact closing_goto h rfl hp fun hc => by cases hc
  | failPublish u =>
    have hpub : (s.th u).isPublishing = true := hp
    cases hpc : s.th u <;> rw [hpc] at hpub <;> first
      | exact absurd hpub Bool.false_ne_true
      | exact closing_goto h rfl hpc fun hc => absurd hc Bool.false_ne_true
  | crash =>
    simp only [Srv.post, Srv.crash]
    split
    · next hpc =>
      rw [hpc] at h
      cases h
    · rfl
  | _ =>
    first
      | exact closing_goto h rfl hp fun hc => hc
      | exact closing_goto h rfl hp.1 fun hc => hc
      | exact closing_goto h rfl hp fun _ => rfl
      | exact closing_goto h rfl hp.1 fun _ => rfl
      | exact closing_goto h rfl hp fun hc => absurd hc Bool.false_ne_true
      | exact closing_goto h rfl hp.1 fun hc => absurd hc Bool.false_ne_true
      | exact closing_goto h write_th hp fun hc => absurd hc Bool.false_ne_true
      | exact closing_goto h write_th hp.1 fun hc => absurd hc Bool.false_ne_true
      | exact closing_goto h (hnoteth _ _) hp fun hc => absurd hc Bool.false_ne_true
      | exact closing_goto h (hnoteth _ _) hp.1 fun hc => absurd hc Bool.false_ne_true

/-- A cancelled request never comes to hold its lease. -/
theorem cancelled_stays (h : server.Reach Machine.Any s s') (hc : (s.th t).isCancelled = true) :
    (s'.th t).isClosing = true := by
  have hstart : (s.th t).isClosing = true := by
    unfold Pc.isClosing
    split
    · rfl
    · rw [hc, Bool.true_or]
  exact h.invariant (I := fun u => (u.th t).isClosing = true) hstart fun u a hu hp _ =>
    closing_step a hp hu

/-! A cancelled request can always run to its end by its own steps. -/

/-- The thread can get to its end. -/
def CanEnd (s : Srv) (t : Tid) : Prop :=
  ∃ s', server.Reach Machine.Any s s' ∧ (s'.th t).isDone = true

theorem canEnd_step (a : Act) (hp : s.Pre a) (h : CanEnd (s.post a) t) : CanEnd s t := by
  obtain ⟨s', hr, hd⟩ := h
  exact ⟨s', (Machine.Reach.refl.step a hp trivial).trans hr, hd⟩

theorem canEnd_of_done (h : (s.th t).isDone = true) : CanEnd s t := ⟨s, .refl, h⟩

theorem granted_ends (h : s.th t = .granted d true) : CanEnd s t := by
  refine canEnd_step (.reclaimOrphan t d) h (canEnd_step (.dropCount t d) goto_self ?_)
  exact canEnd_of_done (congrArg Pc.isDone goto_self)

theorem leasing_ends (h : s.th t = .leasing true) : CanEnd s t := by
  cases hl : s.live with
  | none =>
    exact canEnd_step (.missCurrent t true) ⟨h, hl⟩ (canEnd_of_done (congrArg Pc.isDone goto_self))
  | some d =>
    refine canEnd_step (.resolve t d true) ⟨h, hl⟩ (canEnd_step (.acquire t d true) goto_self ?_)
    exact canEnd_step (.recheck t d true) ⟨goto_self, hl⟩ (granted_ends goto_self)

theorem counted_ends (h : s.th t = .counted d true) : CanEnd s t := by
  by_cases hl : s.live = some d
  · exact canEnd_step (.recheck t d true) ⟨h, hl⟩ (granted_ends goto_self)
  · exact canEnd_step (.retry t d true) ⟨h, hl⟩ (leasing_ends goto_self)

theorem cancelled_ends (h : (s.th t).isCancelled = true) : CanEnd s t := by
  cases hpc : s.th t <;> rw [hpc] at h <;> first
    | exact absurd h Bool.false_ne_true
    | cases h
  · exact leasing_ends hpc
  · exact canEnd_step (.acquire t _ true) hpc (counted_ends goto_self)
  · exact counted_ends hpc
  · exact granted_ends hpc

/-! ## The law of the leases -/

/-- What the leases of a state promise. -/
structure LeaseLaw (s : Srv) : Prop where
  /-- No reclaim or sweep, and no cleanup, is removing a directory that a reader holds. -/
  safe : ∀ t d, s.th t = .holding d → Kept s d
  /-- A lease is granted on the directory that is live at a step of the lease call. -/
  live : ∀ a t d, s.Pre a → ((s.post a).th t).secured = some d → (s.th t).secured ≠ some d →
    s.live = some d ∧ ∃ c, s.th t = .counted d c
  /-- Every lease is counted once until it is released, and not after. -/
  count : ∀ d, LeaseCount s d
  /-- A cancelled request never holds, and can run to its end. -/
  cancelled : ∀ t, (s.th t).isCancelled = true →
    CanEnd s t ∧ ∀ s', server.Reach Machine.Any s s' → (s'.th t).isClosing = true

/-- **The leases keep their promises in every run in which no sweep judges a directory inside the
two windows and no publish moves a staging that its cancelled task has opened.** -/
theorem lease_law (h : server.Reach Timely .init s) : LeaseLaw s where
  safe _ _ hd := holding_safe h hd
  live a t d hp hs hn := by
    obtain ⟨hl, c, -, hc⟩ := granted_live a hp hs hn
    exact ⟨hl, c, hc⟩
  count := (leases_reach h).2.1
  cancelled _ hc := ⟨cancelled_ends hc, fun _ hr => cancelled_stays hr hc⟩

/-- A commit of `level.dat`, then a reader that leases it and a sweep. -/
def leaseBeforeSweep : List Act :=
  [.begin 1, .register 1, .fill 1 (.create ["level.dat"]),
    .lockPublish 1 (.commit 1 (some "w") (some 0) (some true)) (some "w"), .move 1 (some "w"),
    .flip 1 (some "w"), .sweep 2 [1], .skipLive 2 1 [],
    .lease 3, .resolve 3 1 false, .acquire 3 1 false, .recheck 3 1 false, .deliver 3 1]

theorem lease_law_leaseBeforeSweep : ∃ s, s.th 3 = .holding 1 ∧ LeaseLaw s := by
  have hrun : (((server.guard Timely).exec leaseBeforeSweep .init).map fun s => s.th 3) =
      some (.holding 1) := by decide
  obtain ⟨s, hr, hs⟩ := Machine.reach_of_exec_map hrun
  exact ⟨s, hs, lease_law (Machine.reach_of_guard hr)⟩

/-- The sweep judges the directory between its move and its flip; the reader leases it after. -/
def leaseOfJudged : List Act :=
  [.begin 1, .register 1, .fill 1 (.create ["level.dat"]),
    .lockPublish 1 (.commit 1 (some "w") (some 0) (some true)) (some "w"), .move 1 (some "w"),
    .sweep 2 [1], .compare 2 1 [], .remove 2 1 [],
    .flip 1 (some "w"),
    .lease 3, .resolve 3 1 false, .acquire 3 1 false, .recheck 3 1 false, .deliver 3 1]

theorem leaseOfJudged_lost : ¬ ∀ s, server.Reach Machine.Any .init s → LeaseLaw s := by
  intro h
  have hrun : (server.exec leaseOfJudged .init).map (fun s => (s.th 3, (s.th 2).removes 2)) =
      some (.holding 1, some 1) := by decide
  obtain ⟨s, hr, hs⟩ := Machine.reach_of_exec_map hrun
  rw [Prod.mk.injEq] at hs
  exact ((h s hr).safe 3 1 hs.1).1 2 hs.2

end McServerDashboard.Fs
