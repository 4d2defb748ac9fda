import McServerDashboard.Lib.Threads
import McServerDashboard.Storage.Marker

/-!
# Snapshot uploads of one server

`publish_snapshot` and the commit it ends in, for any number of uploads at the same time, between
edits, restores, first writes and prunes of the same server and arbitrary changes of its
assignment. The pre-stream guard reads the generation, the publisher and the assignment in calls
of their own; the commit re-checks the generation and runs the fence again under the server lock.
The marker is written after the flip: any thread may fail while it holds the lock, and one that
fails between the two leaves a live copy that the marker does not name.

* `Guard`: what an upload declared and what its guard read.
* `Step`, `uploads`: the steps of the threads and their interleavings.
* **`upload_commits`**: what holds whenever an upload is about to flip `current`.
* `unmarked_replaced`: a former Worker replaces a copy whose marker write failed.
-/

namespace McServerDashboard.Dataplane

open Lib

/-- A canonical Worker id. -/
abbrev WorkerId := String

/-- What the pre-stream guard of an upload has read. -/
structure Guard where
  worker : WorkerId
  /-- The declared base generation. -/
  base : ℕ
  generation : ℕ
  /-- The recorded publisher, where the guard read it. -/
  publisher : Option (Option String) := none
  /-- The assigned Worker, where the guard read it. -/
  assigned : Option (Option WorkerId) := none
  deriving DecidableEq

/-- What the threads share. -/
structure Store where
  marker : Marker
  /-- Ghost: who produced the live working set, if one is live. -/
  live : Option String
  /-- Ghost: the last change of the live working set was followed by its marker. -/
  marked : Bool
  assigned : Option WorkerId
  lock : Option ℕ
  deriving DecidableEq

/-- A server that was never published. -/
def Store.empty : Store := ⟨.absent, none, true, none, none⟩

/-- The mutators that produce a working set themselves. -/
inductive Author
  | edit
  | restore
  deriving DecidableEq

/-- The publisher recorded for it. -/
def Author.publisher : Author → String
  | edit => apiEditPublisher
  | restore => restorePublisher

/-- Where a thread stands. -/
inductive Pc
  | idle
  /-- An upload's headers are read. -/
  | arrived (worker : WorkerId) (base : ℕ)
  /-- The guard has read the generation. -/
  | compared (g : Guard)
  /-- The base lags, and the guard has read the publisher. -/
  | identified (g : Guard)
  /-- The guard allowed the upload. -/
  | streaming (g : Guard)
  /-- The early fence passed. -/
  | fenced (g : Guard)
  /-- Server lock held, generation re-checked, regions compared. -/
  | locked (g : Guard)
  /-- The fence passed under the lock; `assigned` is what it read. -/
  | cleared (g : Guard) (assigned : Option WorkerId)
  | flipped (g : Guard)
  | unlocking
  /-- An edit, a first write or a restore, lock held. -/
  | changing (a : Author)
  | changed (a : Author)
  /-- A prune, lock held. -/
  | pruning
  | pruneMarked
  | unlinked
  | «over»
  deriving DecidableEq

/-- May the guard go on without asking for the assignment? -/
def Guard.trusts (g : Guard) : Bool :=
  match g.publisher with
  | some none => true
  | some (some p) => p = g.worker
  | none => g.generation ≤ g.base

/-- The fence: passes unless another Worker is assigned. -/
def fence (worker : WorkerId) (assigned : Option WorkerId) : Bool :=
  match assigned with
  | none => true
  | some w => w = worker

/-- The steps of a thread. -/
inductive Step
  | arrive (worker : WorkerId) (base : ℕ)
  | readGeneration (worker : WorkerId) (base : ℕ)
  | readPublisher (g : Guard)
  | allow (g : Guard)
  | readAssigned (g : Guard)
  | earlyFence (g : Guard)
  | abort
  | lockCommit (g : Guard)
  | refuse (g : Guard)
  | lateFence (g : Guard)
  | flip (g : Guard) (assigned : Option WorkerId)
  | mark (g : Guard)
  | unlock
  | lockChange (a : Author)
  | refuseChange (a : Author)
  | change (a : Author)
  | markChange (a : Author)
  | lockPrune
  | prune
  | unlink
  | dropPublisher
  | fail
  | assign (w : Option WorkerId)
  deriving DecidableEq

/-- Before the lock, a thread may give up: a refusal, a fault, a disconnect. -/
def Pc.mayAbort : Pc → Bool
  | arrived _ _ => true
  | compared _ => true
  | identified _ => true
  | streaming _ => true
  | fenced _ => true
  | _ => false

/-- Under the lock, a thread may fail at any point: `_fsync_dir` or `_write_marker` raises, or the
process ends. -/
def Pc.mayFail : Pc → Bool
  | locked _ => true
  | cleared _ _ => true
  | flipped _ => true
  | unlocking => true
  | changing _ => true
  | changed _ => true
  | pruning => true
  | pruneMarked => true
  | unlinked => true
  | _ => false

/-- May thread `t` take the step? -/
def pre (_t : ℕ) (s : Store) (p : Pc) : Step → Prop
  | .arrive _ _ => p = .idle
  | .readGeneration worker base => p = .arrived worker base
  | .readPublisher g => p = .compared g ∧ g.base < g.generation
  | .allow g => (p = .compared g ∨ p = .identified g) ∧ g.trusts
  | .readAssigned g => p = .identified g ∧ g.trusts = false
  | .earlyFence g => p = .streaming g
  | .abort => p.mayAbort
  | .lockCommit g => p = .fenced g ∧ s.lock = none
  | .refuse g => p = .locked g
  | .lateFence g => p = .locked g
  | .flip g assigned => p = .cleared g assigned
  | .mark g => p = .flipped g
  | .unlock => p = .unlocking
  | .lockChange _ => p = .idle ∧ s.lock = none
  | .refuseChange a => p = .changing a
  | .change a => p = .changing a
  | .markChange a => p = .changed a
  | .lockPrune => p = .idle ∧ s.lock = none
  | .prune => p = .pruning
  | .unlink => p = .pruneMarked
  | .dropPublisher => p = .unlinked
  | .fail => p.mayFail
  | .assign _ => True

/-- The effect of the step on the store and on the thread. -/
def post (t : ℕ) (s : Store) (p : Pc) : Step → Store × Pc
  | .arrive worker base => (s, .arrived worker base)
  | .readGeneration worker base =>
    (s, .compared { worker := worker, base := base, generation := s.marker.generation })
  | .readPublisher g => (s, .identified { g with publisher := some s.marker.publisher })
  | .allow g => (s, .streaming g)
  | .readAssigned g =>
    (s, if s.assigned = some g.worker then .streaming { g with assigned := some s.assigned } else .over)
  | .earlyFence g => (s, if fence g.worker s.assigned then .fenced g else .over)
  | .abort => (s, .over)
  -- `StaleGenerationError` or `PrunedStoreError` when the generation moved.
  | .lockCommit g =>
    if s.marker.generation = g.generation then ({ s with lock := some t }, .locked g) else (s, .over)
  -- `MissingRegionsError`.
  | .refuse _ => ({ s with lock := none }, .over)
  | .lateFence g =>
    if fence g.worker s.assigned then (s, .cleared g s.assigned) else ({ s with lock := none }, .over)
  | .flip g _ => ({ s with live := some g.worker, marked := false }, .flipped g)
  | .mark g => ({ s with marker := s.marker.bump (some g.worker), marked := true }, .unlocking)
  | .unlock => ({ s with lock := none }, .over)
  | .lockChange a => ({ s with lock := some t }, .changing a)
  | .refuseChange _ => (s, .unlocking)
  | .change a => ({ s with live := some a.publisher, marked := false }, .changed a)
  | .markChange a =>
    ({ s with marker := s.marker.bump (some a.publisher), marked := true }, .unlocking)
  | .lockPrune => ({ s with lock := some t }, .pruning)
  | .prune =>
    if s.live = none then ({ s with marker := s.marker.bump none }, .unlocking)
    else ({ s with marker := s.marker.bump s.marker.publisher }, .pruneMarked)
  | .unlink => ({ s with live := none }, .unlinked)
  | .dropPublisher => ({ s with marker := ⟨s.marker.generation, none⟩ }, .unlocking)
  -- The lock is released on the way out; it does not outlive the process either.
  | .fail => ({ s with lock := none }, .over)
  | .assign w => ({ s with assigned := w }, p)

instance (t : ℕ) (s : Store) (p : Pc) (a : Step) : Decidable (pre t s p a) := by
  cases a <;> (unfold pre; infer_instance)

/-- The uploads and the other mutators of one server. -/
def uploads : Threads Store Pc Step := ⟨pre, post⟩

instance (t : ℕ) (s : Store) (p : Pc) (a : Step) : Decidable (uploads.pre t s p a) :=
  inferInstanceAs (Decidable (pre t s p a))

/-- Nothing published, no thread begun. -/
def start : Threads.Config Store Pc := ⟨.empty, fun _ => .idle⟩

/-! ## The assertions -/

/-- Where its marker was written, the recorded publisher is the producer of the live copy. -/
def Settled (s : Store) : Prop :=
  s.marked = true → ∀ c, s.live = some c → s.marker.publisher = some c

/-- Since the guard read the marker, its generation has not gone back, and at the same generation
its publisher was at most dropped. -/
def Guard.Fresh (g : Guard) (m : Marker) : Prop :=
  g.generation ≤ m.generation ∧
    (m.generation = g.generation → ∀ p, g.publisher = some p → m.publisher = p ∨ m.publisher = none)

/-- What the guard let through. -/
def Guard.Allowed (g : Guard) : Prop :=
  g.generation ≤ g.base ∨ g.publisher = some none ∨ g.publisher = some (some g.worker) ∨
    g.assigned = some (some g.worker)

/-- What holds for a thread at each of its positions. -/
def Ok (s : Store) (t : ℕ) : Pc → Prop
  | .compared g => g.Fresh s.marker
  | .identified g => g.Fresh s.marker
  | .streaming g => g.Fresh s.marker ∧ g.Allowed
  | .fenced g => g.Fresh s.marker ∧ g.Allowed
  | .locked g =>
    s.lock = some t ∧ Settled s ∧ s.marker.generation = g.generation ∧ g.Fresh s.marker ∧ g.Allowed
  | .cleared g a =>
    s.lock = some t ∧ Settled s ∧ s.marker.generation = g.generation ∧ g.Fresh s.marker ∧ g.Allowed ∧
      fence g.worker a = true
  | .flipped g => s.lock = some t ∧ s.live = some g.worker ∧ s.marked = false
  | .unlocking => s.lock = some t ∧ Settled s
  | .changing _ => s.lock = some t ∧ Settled s
  | .changed a => s.lock = some t ∧ s.live = some a.publisher ∧ s.marked = false
  | .pruning => s.lock = some t ∧ Settled s
  | .pruneMarked => s.lock = some t ∧ Settled s
  | .unlinked => s.lock = some t ∧ s.live = none
  | _ => True

/-- The shared invariant: between two holders of the lock the marker names the producer. -/
def Shared (s : Store) : Prop := s.lock = none → Settled s

variable {s s' : Store} {t u : ℕ} {g : Guard} {p : Pc}

/-- What a step of `t` does to the store that the other threads see. -/
structure Keeps (s s' : Store) (t : ℕ) : Prop where
  fresh : ∀ g : Guard, g.Fresh s.marker → g.Fresh s'.marker
  held : ∀ u, u ≠ t → s.lock = some u →
    s'.lock = some u ∧ s'.marker = s.marker ∧ s'.live = s.live ∧ s'.marked = s.marked

theorem Settled.congr (h : Settled s) (hm : s'.marker = s.marker) (hl : s'.live = s.live)
    (hk : s'.marked = s.marked) : Settled s' := by
  unfold Settled
  rw [hm, hl, hk]
  exact h

theorem settled_of_unmarked (h : s.marked = false) : Settled s := fun hm => by
  rw [h] at hm
  cases hm

theorem settled_of_live_none (h : s.live = none) : Settled s := fun _ c hc => by
  rw [h] at hc
  cases hc

/-- The assertions of the other threads survive the step. -/
theorem Keeps.ok (hk : Keeps s s' t) (hu : u ≠ t) (h : Ok s u p) : Ok s' u p := by
  have hheld := hk.held u hu
  have hsettled (hl : s.lock = some u) (h : Settled s) : Settled s' := by
    obtain ⟨-, hm, hv, hd⟩ := hheld hl
    exact h.congr hm hv hd
  cases p with
  | compared g | identified g => exact hk.fresh g h
  | streaming g | fenced g => exact ⟨hk.fresh g h.1, h.2⟩
  | locked g | cleared g a =>
    obtain ⟨hl, hm, -⟩ := hheld h.1
    exact ⟨hl, hsettled h.1 h.2.1, by rw [hm]; exact h.2.2⟩
  | flipped g | changed a =>
    obtain ⟨hl, -, hv, hd⟩ := hheld h.1
    exact ⟨hl, hv.trans h.2.1, hd.trans h.2.2⟩
  | unlocking | changing a | pruning | pruneMarked => exact ⟨(hheld h.1).1, hsettled h.1 h.2⟩
  | unlinked =>
    obtain ⟨hl, -, hv, -⟩ := hheld h.1
    exact ⟨hl, hv.trans h.2⟩
  | _ => trivial

theorem keeps_refl : Keeps s s t := ⟨fun _ h => h, fun _ _ h => ⟨h, rfl, rfl, rfl⟩⟩

/-- Only the holder of the lock changes the store. -/
theorem keeps_held (hl : s.lock = some t) (hf : ∀ g : Guard, g.Fresh s.marker → g.Fresh s'.marker) :
    Keeps s s' t :=
  ⟨hf, fun _ hu h => absurd (Option.some.inj (h.symm.trans hl)) hu⟩

theorem keeps_lock (hl : s.lock = none) : Keeps s { s with lock := some t } t :=
  ⟨fun _ h => h, fun u _ h => by rw [hl] at h; cases h⟩

theorem fresh_read (m : Marker) (worker : WorkerId) (base : ℕ) :
    Guard.Fresh { worker := worker, base := base, generation := m.generation } m :=
  ⟨Nat.le_refl _, fun _ p hp => by cases hp⟩

theorem Guard.Fresh.bump {m : Marker} (h : g.Fresh m) (publisher : Option String) :
    g.Fresh (m.bump publisher) := by
  have hle := h.1
  refine ⟨Nat.le_succ_of_le hle, fun he => ?_⟩
  simp only [Marker.bump] at he
  omega

theorem Guard.Fresh.drop {m : Marker} (h : g.Fresh m) : g.Fresh ⟨m.generation, none⟩ :=
  ⟨h.1, fun _ _ _ => .inr rfl⟩

theorem allowed_of_trusts (h : g.trusts = true) : g.Allowed := by
  unfold Guard.trusts at h
  split at h
  · next hp => exact .inr (.inl hp)
  · next p hp => exact .inr (.inr (.inl (by rw [hp, of_decide_eq_true h])))
  · exact .inl (of_decide_eq_true h)

/-! ## Steps -/

/-- One step keeps the shared invariant and the thread's assertion, and lets the others be. -/
def Steps (s : Store) (t : ℕ) (r : Store × Pc) : Prop := Shared r.1 ∧ Ok r.1 t r.2 ∧ Keeps s r.1 t

theorem Steps.same (hs : Shared s) (own : Ok s t p) : Steps s t (s, p) := ⟨hs, own, keeps_refl⟩

/-- A step of the holder that keeps the lock. -/
theorem Steps.held {r : Store × Pc} (hl : s.lock = some t) (hl' : r.1.lock = some t)
    (hf : ∀ g : Guard, g.Fresh s.marker → g.Fresh r.1.marker) (own : Ok r.1 t r.2) : Steps s t r :=
  ⟨fun h => (by rw [hl'] at h; cases h), own, keeps_held hl hf⟩

/-- Releasing the lock with the marker settled. -/
theorem Steps.released (hl : s.lock = some t) (hs : Settled s) :
    Steps s t ({ s with lock := none }, .over) :=
  ⟨fun _ => hs, trivial, keeps_held hl fun _ h => h⟩

/-- A thread that fails under the lock leaves the marker settled: at most a change without its
marker. -/
theorem Ok.fail (own : Ok s t p) (hp : p.mayFail = true) :
    Steps s t ({ s with lock := none }, .over) := by
  cases p with
  | locked g | cleared g a => exact .released own.1 own.2.1
  | flipped g | changed a => exact .released own.1 (settled_of_unmarked own.2.2)
  | unlocking | changing a | pruning | pruneMarked => exact .released own.1 own.2
  | unlinked => exact .released own.1 (settled_of_live_none own.2)
  | _ => cases hp

theorem steps (hs : Shared s) (own : Ok s t p) (a : Step) (hp : pre t s p a) :
    Steps s t (post t s p a) := by
  cases a with
  | arrive worker base | abort => exact .same hs trivial
  | readGeneration worker base => exact .same hs (fresh_read s.marker worker base)
  | readPublisher g =>
    obtain ⟨rfl, -⟩ := hp
    have hg : g.Fresh s.marker := own
    exact .same hs ⟨hg.1, fun _ q hq => .inl (Option.some.inj hq)⟩
  | allow g =>
    obtain ⟨rfl | rfl, htrust⟩ := hp <;> exact .same hs ⟨own, allowed_of_trusts htrust⟩
  | readAssigned g =>
    obtain ⟨rfl, -⟩ := hp
    have hg : g.Fresh s.marker := own
    simp only [post]
    split_ifs with ha
    · exact .same hs ⟨hg, .inr (.inr (.inr (congrArg some ha)))⟩
    · exact .same hs trivial
  | earlyFence g =>
    have hp : p = .streaming g := hp
    subst hp
    simp only [post]
    split_ifs
    · exact .same hs own
    · exact .same hs trivial
  | lockCommit g =>
    obtain ⟨rfl, hfree⟩ := hp
    have hg : g.Fresh s.marker ∧ g.Allowed := own
    simp only [post]
    split_ifs with hgen
    · exact ⟨fun h => (by cases h), ⟨rfl, (hs hfree).congr rfl rfl rfl, hgen, hg⟩, keeps_lock hfree⟩
    · exact .same hs trivial
  | refuse g =>
    have hp : p = .locked g := hp
    subst hp
    exact .released own.1 own.2.1
  | lateFence g =>
    have hp : p = .locked g := hp
    subst hp
    obtain ⟨hl, hset, hgen, hfresh, hallow⟩ := own
    simp only [post]
    split_ifs with hf
    · exact .same hs ⟨hl, hset, hgen, hfresh, hallow, hf⟩
    · exact .released hl hset
  | flip g assigned =>
    have hp : p = .cleared g assigned := hp
    subst hp
    exact .held own.1 own.1 (fun _ h => h) ⟨own.1, rfl, rfl⟩
  | mark g =>
    have hp : p = .flipped g := hp
    subst hp
    refine .held own.1 own.1 (fun _ h => h.bump _) ⟨own.1, fun _ c hc => ?_⟩
    exact own.2.1.symm.trans hc
  | unlock =>
    have hp : p = .unlocking := hp
    subst hp
    exact .released own.1 own.2
  | lockChange a | lockPrune =>
    exact ⟨fun h => (by cases h), ⟨rfl, (hs hp.2).congr rfl rfl rfl⟩, keeps_lock hp.2⟩
  | refuseChange a =>
    have hp : p = .changing a := hp
    subst hp
    exact .same hs own
  | change a =>
    have hp : p = .changing a := hp
    subst hp
    exact .held own.1 own.1 (fun _ h => h) ⟨own.1, rfl, rfl⟩
  | markChange a =>
    have hp : p = .changed a := hp
    subst hp
    refine .held own.1 own.1 (fun _ h => h.bump _) ⟨own.1, fun _ c hc => ?_⟩
    exact own.2.1.symm.trans hc
  | prune =>
    have hp : p = .pruning := hp
    subst hp
    simp only [post]
    split_ifs with hlive
    · exact .held own.1 own.1 (fun _ h => h.bump _) ⟨own.1, settled_of_live_none hlive⟩
    · -- The bump carries the publisher forward.
      exact .held own.1 own.1 (fun _ h => h.bump _) ⟨own.1, own.2⟩
  | unlink =>
    have hp : p = .pruneMarked := hp
    subst hp
    exact .held own.1 own.1 (fun _ h => h) ⟨own.1, rfl⟩
  | dropPublisher =>
    have hp : p = .unlinked := hp
    subst hp
    exact .held own.1 own.1 (fun _ h => h.drop) ⟨own.1, settled_of_live_none own.2⟩
  | fail => exact own.fail hp
  | assign w =>
    have hk : Keeps s { s with assigned := w } t :=
      ⟨fun _ h => h, fun _ _ h => ⟨h, rfl, rfl, rfl⟩⟩
    refine ⟨fun h => (hs h).congr rfl rfl rfl, ?_, hk⟩
    -- The assignment occurs in no assertion.
    cases p <;> exact own

/-- **The assertions hold along every run.** -/
theorem holds_reach {c : Threads.Config Store Pc}
    (h : uploads.machine.Reach Machine.Any start c) : Threads.Holds Shared Ok c := by
  have h0 : Threads.Holds Shared Ok start := ⟨fun _ => settled_of_live_none rfl, fun _ => trivial⟩
  refine Threads.invariant h h0 fun c t a hc hp _ => ?_
  obtain ⟨hs, hown, hk⟩ := steps hc.shared (hc.thread t) a hp
  exact ⟨hs, hown, fun u hu hok => hk.ok hu hok⟩

/-! ## Commits -/

/-- **Whenever an upload is about to flip `current`: the generation is the one its guard read; at
the guard its base was not older, or the recorded publisher was unknown or itself, or it was the
assigned Worker; the last assignment read is none or itself; and a live copy that another Worker
or the API produced and whose marker was written is replaced only from a base that was not older,
or by the Worker that was assigned.** -/
theorem upload_commits {c : Threads.Config Store Pc} {t : ℕ} {g : Guard} {assigned : Option WorkerId}
    (h : uploads.machine.Reach Machine.Any start c) (ht : c.th t = .cleared g assigned) :
    c.shared.marker.generation = g.generation ∧
      (g.generation ≤ g.base ∨ g.publisher = some none ∨ g.publisher = some (some g.worker) ∨
        g.assigned = some (some g.worker)) ∧
      (assigned = none ∨ assigned = some g.worker) ∧
      (c.shared.marked = true → ∀ producer, c.shared.live = some producer → producer ≠ g.worker →
        g.generation ≤ g.base ∨ g.assigned = some (some g.worker)) := by
  have hok := (holds_reach h).thread t
  rw [ht] at hok
  obtain ⟨-, hset, hgen, hfresh, hallow, hfence⟩ := hok
  refine ⟨hgen, hallow, ?_, fun hmarked producer hlive hne => ?_⟩
  · cases assigned with
    | none => exact .inl rfl
    | some w => exact .inr (congrArg some (of_decide_eq_true hfence))
  · have hpub := hset hmarked producer hlive
    rcases hallow with hb | hnone | hself | ha
    · exact .inl hb
    · -- An unknown publisher was recorded only while nothing was live.
      rcases hfresh.2 hgen none hnone with hm | hm <;> exact absurd (hpub.symm.trans hm) (by simp)
    · rcases hfresh.2 hgen _ hself with hm | hm
      · exact absurd (Option.some.inj (hpub.symm.trans hm)) hne
      · exact absurd (hpub.symm.trans hm) (by simp)
    · exact .inr ha

/-- What the guard reads for `b`, whose base lags behind the copy that `a` published. -/
def replacing : Guard where
  worker := "b"
  base := 0
  generation := 1
  publisher := some (some "a")
  assigned := some (some "b")

/-- Worker `a` publishes generation 1, and the server moves to Worker `b`. -/
def published : List (ℕ × Step) :=
  let first : Guard := { worker := "a", base := 0, generation := 0 }
  [(9, .assign (some "a")), (0, .arrive "a" 0), (0, .readGeneration "a" 0), (0, .allow first),
    (0, .earlyFence first), (0, .lockCommit first), (0, .lateFence first),
    (0, .flip first (some "a")), (0, .mark first), (0, .unlock), (9, .assign (some "b"))]

/-- `b` publishes from an older base. -/
def replacedUpload : List (ℕ × Step) :=
  let lagging : Guard := { worker := "b", base := 0, generation := 1 }
  let named : Guard := { lagging with publisher := some (some "a") }
  published ++ [(1, .arrive "b" 0), (1, .readGeneration "b" 0),
    (1, .readPublisher lagging), (1, .readAssigned named), (1, .earlyFence replacing),
    (1, .lockCommit replacing), (1, .lateFence replacing)]

theorem upload_commits_replacedUpload :
    ∃ c : Threads.Config Store Pc, c.shared.live = some "a" ∧ c.shared.marked = true ∧
      c.shared.marker.generation = replacing.generation ∧
      (replacing.generation ≤ replacing.base ∨ replacing.publisher = some none ∨
        replacing.publisher = some (some replacing.worker) ∨
        replacing.assigned = some (some replacing.worker)) ∧
      (some "b" = none ∨ some "b" = some replacing.worker) ∧
      (c.shared.marked = true → ∀ producer, c.shared.live = some producer →
        producer ≠ replacing.worker →
        replacing.generation ≤ replacing.base ∨ replacing.assigned = some (some replacing.worker)) := by
  have hrun : (uploads.machine.exec replacedUpload start).map
      (fun c => (c.shared.live, c.shared.marked, c.th 1)) =
      some (some "a", true, .cleared replacing (some "b")) := by decide
  obtain ⟨c, hr, hc⟩ := Machine.reach_of_exec_map hrun
  simp only [Prod.mk.injEq] at hc
  exact ⟨c, hc.1, hc.2.1, upload_commits hr hc.2.2⟩

/-- What the guard reads for `a`, whose base lags, after `b`'s copy went live without its marker. -/
def returning : Guard where
  worker := "a"
  base := 0
  generation := 1
  publisher := some (some "a")

/-- `b` publishes from generation 1 and its marker write fails, the server is released, and `a`
sends its first snapshot once more. -/
def unmarkedUpload : List (ℕ × Step) :=
  let next : Guard := { worker := "b", base := 1, generation := 1 }
  let lagging : Guard := { worker := "a", base := 0, generation := 1 }
  published ++ [(1, .arrive "b" 1), (1, .readGeneration "b" 1), (1, .allow next),
    (1, .earlyFence next), (1, .lockCommit next), (1, .lateFence next), (1, .flip next (some "b")),
    (1, .fail), (9, .assign none), (2, .arrive "a" 0), (2, .readGeneration "a" 0),
    (2, .readPublisher lagging), (2, .allow returning), (2, .earlyFence returning),
    (2, .lockCommit returning), (2, .lateFence returning)]

/-- **A copy whose marker was not written is replaced by a former Worker's stale one**: nothing was
assigned to it, its base is older, and the live copy is another Worker's. -/
theorem unmarked_replaced :
    ¬ ∀ c t g assigned, uploads.machine.Reach Machine.Any start c → c.th t = .cleared g assigned →
      ∀ producer, c.shared.live = some producer → producer ≠ g.worker →
        g.generation ≤ g.base ∨ g.assigned = some (some g.worker) := by
  intro h
  have hrun : (uploads.machine.exec unmarkedUpload start).map (fun c => (c.shared.live, c.th 2)) =
      some (some "b", .cleared returning none) := by decide
  obtain ⟨c, hr, hc⟩ := Machine.reach_of_exec_map hrun
  rw [Prod.mk.injEq] at hc
  rcases h c 2 returning none hr hc.2 "b" hc.1 (by decide) with hb | ha
  · exact absurd hb (by decide)
  · exact absurd ha (by decide)

end McServerDashboard.Dataplane
