import McServerDashboard.Fs.Mutators

/-!
# The generation of the filesystem store

A server's store over time: mutators run one after another under the server lock, each cut off
by an I/O error or a crash after any number of its writes, while work outside the lock (staging,
reclaiming, sweeping) changes directories that `current` does not name. The states of the
machine are the settled moments, at which no mutator holds the lock.

* `Torn`: a mutator was cut off with the published set changed and its marker not yet written.
* **`generation_published`**: the generation never decreases, and while no mutator is torn two
  settled moments of one generation have one published set.
-/

namespace McServerDashboard.Fs

open Lib

/-! ## Runs of a locked section -/

theorem runAll_marker {ws : List Write} {k : Disk}
    (h : ∀ w ∈ performed Write.run ws k, w.isMark = false) :
    (runAll Write.run ws k).1.marker = k.marker := by
  induction ws generalizing k with
  | nil => rfl
  | cons w ws ih =>
    cases hr : w.run k with
    | error e => rw [runAll_cons_error _ hr]
    | ok k' =>
      rw [performed_cons_ok _ hr] at h
      rw [runAll_cons_ok _ hr, ih fun w' hw' => h w' (List.mem_cons_of_mem _ hw'),
        Write.run_marker hr (h w List.mem_cons_self)]

/-- Once a marker write is performed the generation is that of the marks. -/
theorem runAll_generation {ws : List Write} {k : Disk} {g : ℕ} (hg : MarksAt g ws)
    (h : k.generation = g ∨ ∃ w ∈ performed Write.run ws k, w.isMark = true) :
    (runAll Write.run ws k).1.generation = g := by
  induction ws generalizing k with
  | nil => simpa [performed] using h
  | cons w ws ih =>
    cases hr : w.run k with
    | error e =>
      rw [performed_cons_error _ hr] at h
      rw [runAll_cons_error _ hr]
      simpa using h
    | ok k' =>
      rw [runAll_cons_ok _ hr]
      refine ih (fun m hm => hg m (List.mem_cons_of_mem _ hm)) ?_
      rw [performed_cons_ok _ hr] at h
      cases w with
      | mark m =>
        cases hr
        exact .inl (hg m List.mem_cons_self)
      | _ =>
        rcases h with hk | ⟨w', hw', hm⟩
        · left
          rw [Disk.generation, Write.run_marker hr rfl]
          exact hk
        · rcases List.mem_cons.mp hw' with rfl | hw'
          · cases hm
          · exact .inr ⟨w', hw', hm⟩

/-- Run a mutator under the lock, cut off after `cut` writes; the `except` handler after a cut or
a failed write is itself cut off after `undone` writes. -/
def Mutator.session (m : Mutator) (cut undone : ℕ) (k : Disk) : Disk :=
  match m.check k with
  | .error _ => k
  | .ok work =>
    let (k', left) := runAll Write.run ((work.plan k).writes.take cut) k
    if left.isEmpty && (work.plan k).writes.length ≤ cut then k'
    else (runAll Write.run ((work.plan k).undo.take undone) k').1

/-- The writes of a session up to the cut or the write that failed. -/
def Mutator.written (m : Mutator) (cut : ℕ) (k : Disk) : List Write :=
  match m.check k with
  | .error _ => []
  | .ok work => performed Write.run ((work.plan k).writes.take cut) k

variable {m : Mutator} {cut undone : ℕ} {k : Disk}

theorem undo_marker {plan : Plan} (h : plan.Advances k) (undone : ℕ) (k' : Disk) :
    (runAll Write.run (plan.undo.take undone) k').1.marker = k'.marker :=
  runAll_frame Write.run fun w hw _ _ hr =>
    Write.run_marker hr (h.undo w (List.mem_of_mem_take hw))

theorem session_marker {work : Work} (h : m.check k = .ok work) :
    (m.session cut undone k).marker =
      (runAll Write.run ((work.plan k).writes.take cut) k).1.marker := by
  simp only [Mutator.session, h]
  split_ifs
  · rfl
  · exact undo_marker (work.advances k) _ _

theorem session_refused {e : Err} (h : m.check k = .error e) : m.session cut undone k = k := by
  simp only [Mutator.session, h]

theorem marksAt_take {plan : Plan} (h : plan.Advances k) (cut : ℕ) :
    MarksAt (k.generation + 1) (plan.writes.take cut) := fun m hm => h.marks m (List.mem_of_mem_take hm)

/-- A session whose marker write was reached advances the generation by one. -/
theorem session_generation_marked (undone : ℕ) (h : ∃ w ∈ m.written cut k, w.isMark = true) :
    (m.session cut undone k).generation = k.generation + 1 := by
  unfold Mutator.written at h
  split at h
  · simp at h
  · next work hp =>
    rw [Disk.generation, session_marker hp]
    exact runAll_generation (marksAt_take (work.advances k) cut) (.inr h)

/-- A session whose marker write was not reached leaves the marker as it was. -/
theorem session_generation_unmarked (h : ∀ w ∈ m.written cut k, w.isMark = false) :
    (m.session cut undone k).generation = k.generation := by
  cases hp : m.check k with
  | error e => rw [session_refused hp]
  | ok work =>
    simp only [Mutator.written, hp] at h
    rw [Disk.generation, session_marker hp, runAll_marker h]
    rfl

/-! ## The store over time -/

/-- What happens to a store between two settled moments. -/
inductive Event
  /-- A mutator takes the lock and is cut off after `cut` of its writes. -/
  | session (m : Mutator) (cut undone : ℕ)
  /-- A write outside the lock. -/
  | outside (w : Write)

/-- The writes made outside the lock: to directories that `current` does not name. -/
def Write.IsOutside (k : Disk) : Write → Prop
  | mkdir _ => True
  | change d _ => k.current ≠ some d
  | rmdir d => k.current ≠ some d
  | _ => False

instance (k : Disk) (w : Write) : Decidable (w.IsOutside k) := by
  cases w <;> (unfold Write.IsOutside; infer_instance)

/-- The store of one server under its mutators. -/
def store : Machine Disk Event where
  pre k
    | .session _ _ _ => True
    | .outside w => w.IsOutside k
  post k
    | .session m cut undone => m.session cut undone k
    | .outside w => (runAll Write.run [w] k).1

instance (k : Disk) (a : Event) : Decidable (store.pre k a) := by
  cases a <;> (unfold store; infer_instance)

/-- The session was cut off with the published set changed and the marker not written. -/
def Torn (k : Disk) : Event → Prop
  | .session m cut undone =>
    (∀ w ∈ m.written cut k, w.isMark = false) ∧ (m.session cut undone k).published ≠ k.published
  | .outside _ => False

/-! ## The published set -/

theorem currentTree_setDir {d : DirId} {x : Dir} (h : k.current ≠ some d) :
    (k.setDir d x).currentTree = k.currentTree := by
  unfold Disk.currentTree Disk.setDir
  cases hc : k.current with
  | none => rfl
  | some c =>
    have hne : c ≠ d := fun e => h (by rw [hc, e])
    dsimp only
    rw [AList.lookup_insert_ne hne]

theorem currentTree_mkdir {d : DirId} (h : k.dirs.lookup d = none) :
    (k.setDir d ⟨.incoming, ∅⟩).currentTree = k.currentTree := by
  by_cases hc : k.current = some d
  · simp [Disk.currentTree, Disk.setDir, hc, h]
  · exact currentTree_setDir hc

theorem currentTree_erase {d : DirId} (h : k.current ≠ some d) :
    ({ k with dirs := k.dirs.erase d } : Disk).currentTree = k.currentTree := by
  unfold Disk.currentTree
  cases hc : k.current with
  | none => rfl
  | some c =>
    have hne : c ≠ d := fun e => h (by rw [hc, e])
    dsimp only
    rw [AList.lookup_erase_ne hne]

/-- Work outside the lock does not change what is published. -/
theorem outside_currentTree {w : Write} {k' : Disk} (hw : w.IsOutside k) (h : w.run k = .ok k') :
    k'.currentTree = k.currentTree := by
  cases w with
  | mkdir d =>
    simp only [Write.run] at h
    split at h <;> cases h
    next hd => exact currentTree_mkdir hd
  | change d op =>
    simp only [Write.run] at h
    split at h
    · cases h
    · split at h <;> cases h
      exact currentTree_setDir hw
  | rmdir d =>
    simp only [Write.run] at h
    split at h <;> cases h
    · split_ifs
      · exact currentTree_erase hw
      · rfl
    · rfl
  | _ => cases hw

theorem outside_run {w : Write} (hw : w.IsOutside k) :
    (runAll Write.run [w] k).1.generation = k.generation ∧
      (runAll Write.run [w] k).1.published = k.published := by
  cases hr : w.run k with
  | error e => simp only [runAll_cons_error _ hr, and_self]
  | ok k' =>
    rw [runAll_cons_ok _ hr, runAll_nil, Disk.published, Disk.published, outside_currentTree hw hr]
    refine ⟨?_, rfl⟩
    rw [Disk.generation, Write.run_marker hr (by cases w <;> first | rfl | cases hw)]
    rfl

/-- One event never lowers the generation. -/
theorem generation_le_step (k : Disk) (a : Event) (h : store.pre k a) :
    k.generation ≤ (store.post k a).generation := by
  cases a with
  | outside w => exact (outside_run h).1.ge
  | session m cut undone =>
    change k.generation ≤ (m.session cut undone k).generation
    by_cases hm : ∃ w ∈ m.written cut k, w.isMark = true
    · rw [session_generation_marked undone hm]
      omega
    · rw [session_generation_unmarked fun w hw => by simpa using fun h => hm ⟨w, hw, h⟩]

/-- One event that leaves the generation and tears nothing leaves the published set. -/
theorem published_step (k : Disk) (a : Event) (h : store.pre k a) (ht : ¬ Torn k a)
    (hg : (store.post k a).generation = k.generation) : (store.post k a).published = k.published := by
  cases a with
  | outside w => exact (outside_run h).2
  | session m cut undone =>
    change (m.session cut undone k).published = k.published
    by_contra hne
    refine ht ⟨fun w hw => ?_, hne⟩
    by_contra hm
    have hup := session_generation_marked undone ⟨w, hw, by simpa using hm⟩
    have hsame : (m.session cut undone k).generation = k.generation := hg
    omega

/-- **The generation never decreases, and where no mutator is cut off between its first change of
the published set and its marker write, two settled moments that report one generation have one
published set.** -/
theorem generation_published {s t : Disk} (h : store.Reach Machine.Any s t) :
    s.generation ≤ t.generation ∧
      (store.Reach (fun k a => ¬ Torn k a) s t → t.generation = s.generation →
        t.published = s.published) :=
  ⟨h.le_of_step fun k a hpre _ => generation_le_step k a hpre,
    fun hr => (hr.same_stamp generation_le_step published_step).2⟩

/-- The first publish of `world/a`, in the staging directory 0. -/
def writeA : Event := .session (.writeFile ⟨["world", "a"], by decide⟩ [1] 0 "s") 9 0

/-- An edit that adds `world/b`, cut off after `cut` writes. -/
def writeB (cut : ℕ) : Event := .session (.writeFile ⟨["world", "b"], by decide⟩ [2] 1 "s") cut 0

/-- `delete_dir` of `world`, with the process gone after the first of its two unlinks. -/
def crashedDelete : Event :=
  .session (.deleteDir ⟨["world"], by decide⟩ [["world", "a"], ["world", "b"]]) 1 0

/-- The edit has run to its end, and then a staging directory is made and filled. -/
def edited : Disk := store.post (store.post .empty writeA) (writeB 9)
def staged : Disk := store.post (store.post edited (.outside (.mkdir 5))) (.outside (.change 5 (.create ["x"])))

theorem edited_staged {I : Disk → Event → Prop} (h : ∀ k w, I k (Event.outside w)) : store.Reach I edited staged :=
  (Machine.Reach.refl.step (Event.outside (.mkdir 5)) trivial (h _ _)).step
    (Event.outside (.change 5 (.create ["x"]))) (by decide) (h _ _)

theorem generation_published_writeB :
    (store.post .empty writeA).generation ≤ staged.generation ∧ edited.generation = 2 ∧
      (staged.dirs.lookup 5).isSome ∧ staged.published = edited.published := by
  have hstart : store.Reach Machine.Any (store.post .empty writeA) staged :=
    (Machine.Reach.refl.step (writeB 9) trivial trivial).trans (edited_staged fun _ _ => trivial)
  exact ⟨(generation_published hstart).1, by decide, by decide,
    (generation_published (edited_staged fun _ _ => trivial)).2 (edited_staged fun _ _ => id) (by decide)⟩

/-- A `delete_dir` cut off between two unlinks: one generation, two published sets. -/
theorem crashedDelete_published :
    ¬ ∀ s t : Disk, store.Reach Machine.Any .empty s → store.Reach Machine.Any s t →
      t.generation = s.generation → t.published = s.published := by
  intro h
  have hs : store.Reach Machine.Any .empty (store.post (store.post .empty writeA) (writeB 9)) :=
    (Machine.Reach.refl.step writeA trivial trivial).step (writeB 9) trivial trivial
  have heq := h _ _ hs (Machine.Reach.refl.step crashedDelete trivial trivial) (by decide)
  have hat := congrArg (Option.map fun f => f ["world", "a"]) heq
  revert hat
  decide

end McServerDashboard.Fs
