import McServerDashboard.Lib.Run
import McServerDashboard.Obj.Mutators

/-!
# The generation of the object store

A server's objects over time: mutators one after another, each cut off by a failed request or a
stop of the process after any number of its requests, and between them requests on prefixes that
the pointer does not name. The states of the machine are the moments between two mutators.

* `Torn`: a mutator was cut off with the published set changed and its marker not yet written.
* **`marker_published`**: the generation never decreases, and while no mutator is torn two
  moments of one generation have one published set.
-/

namespace McServerDashboard.Obj

open Lib

/-- What happens to a store between two moments. -/
inductive Event
  /-- A mutator, cut off after `cut` of its requests and `undone` of its handler's. -/
  | session (m : Mutator) (cut undone : ℕ)
  /-- A request of a reclaim or a sweep. -/
  | outside (r : Request)

/-- The request is on an object that is not below the live prefix. -/
def Request.IsOutside (k : Bucket) : Request → Prop
  | put key _ => k.pointer.map .snapshot ≠ some key.under
  | copy _ dst => k.pointer.map .snapshot ≠ some dst.under
  | delete key => k.pointer.map .snapshot ≠ some key.under
  | _ => False

instance (k : Bucket) (r : Request) : Decidable (r.IsOutside k) := by
  cases r <;> (unfold Request.IsOutside; infer_instance)

/-- A request, or nothing where it fails. -/
def Request.apply (r : Request) (k : Bucket) : Bucket := (runAll run [r] k).1

/-- The store after a mutator that was cut off. -/
def Mutator.session (m : Mutator) (cut undone : ℕ) (k : Bucket) : Bucket :=
  (m.plan k).session Request.run cut undone k

/-- The objects of one server under its mutators. -/
def store : Machine Bucket Event where
  pre k
    | .session m _ _ => ∀ d ∈ m.drawn, k.isFresh d
    | .outside r => r.IsOutside k
  post k
    | .session m cut undone => m.session cut undone k
    | .outside r => r.apply k

instance (k : Bucket) (a : Event) : Decidable (store.pre k a) := by
  cases a <;> (unfold store; infer_instance)

/-- The mutator was cut off with the published set changed and the marker not written. -/
def Torn (k : Bucket) : Event → Prop
  | .session m cut undone =>
    stamping.Unmarked ((m.plan k).written Request.run cut k) ∧
      (m.session cut undone k).published ≠ k.published
  | .outside _ => False

variable {k : Bucket}

theorem outside_apply {r : Request} (h : r.IsOutside k) :
    (r.apply k).generation = k.generation ∧ (r.apply k).published = k.published := by
  unfold Request.apply
  cases hr : r.run k with
  | error e => simp only [runAll_cons_error _ hr, and_self]
  | ok k' =>
    rw [runAll_cons_ok _ hr, runAll_nil]
    refine ⟨Request.run_generation hr (by cases r <;> first | rfl | cases h), ?_⟩
    have hp : k'.pointer = k.pointer :=
      Request.run_pointer hr (by rintro d rfl; cases h) (by rintro rfl; cases h)
    unfold Bucket.published
    rw [hp]
    cases hd : k.pointer with
    | none => rfl
    | some d =>
      refine congrArg some (funext fun n => ?_)
      refine Request.run_lookup_ne hr fun ht => ?_
      cases r with
      | put key data | copy src dst | delete key =>
        rw [Option.some.inj ht] at h
        exact h (by rw [hd]; rfl)
      | _ => cases ht

theorem generation_session_marked {m : Mutator} {cut : ℕ} (undone : ℕ)
    (h : ¬ stamping.Unmarked ((m.plan k).written Request.run cut k)) :
    (m.session cut undone k).generation = k.generation + 1 :=
  Stamping.session_marked (m.advances k).undo (m.advances k).marks h

theorem generation_session_unmarked {m : Mutator} {cut : ℕ} (undone : ℕ)
    (h : stamping.Unmarked ((m.plan k).written Request.run cut k)) :
    (m.session cut undone k).generation = k.generation :=
  Stamping.session_unmarked (m.advances k).undo h

/-- One event never lowers the generation. -/
theorem generation_le_step (k : Bucket) (a : Event) (h : store.pre k a) :
    k.generation ≤ (store.post k a).generation := by
  cases a with
  | outside r => exact (outside_apply h).1.ge
  | session m cut undone =>
    by_cases hm : stamping.Unmarked ((m.plan k).written Request.run cut k)
    · exact (generation_session_unmarked undone hm).ge
    · have hup := generation_session_marked undone hm
      show k.generation ≤ (m.session cut undone k).generation
      omega

/-- One event that leaves the generation and tears nothing leaves the published set. -/
theorem published_step (k : Bucket) (a : Event) (h : store.pre k a) (ht : ¬ Torn k a)
    (hg : (store.post k a).generation = k.generation) : (store.post k a).published = k.published := by
  cases a with
  | outside r => exact (outside_apply h).2
  | session m cut undone =>
    show (m.session cut undone k).published = k.published
    by_contra hne
    refine ht ⟨?_, hne⟩
    by_contra hm
    have hup := generation_session_marked undone hm
    have hsame : (m.session cut undone k).generation = k.generation := hg
    omega

/-- The first publish, of `world/b` and `world/a`. -/
def commitWorld : Event :=
  .session (.commit [⟨["world", "b"], .file, [2]⟩, ⟨["world", "a"], .file, [1]⟩] 0 (some "w") (some 0) true
    (some true) false) 9 0

theorem isComponent_world : ∀ part ∈ (["world"] : Path), IsComponent part := by decide

/-- `delete_dir` of `world`, whose process stops after `cut` requests. -/
def deleteWorld (cut : ℕ) : Event := .session (.deleteDir ⟨["world"], isComponent_world⟩) cut 0

/-- The `delete_dir` has run to its end, and then a staging prefix is filled. -/
def deleted : Bucket := store.post (store.post .empty commitWorld) (deleteWorld 9)
def staged : Bucket := store.post deleted (.outside (.put ⟨.incoming 5, ["x"]⟩ []))

end McServerDashboard.Obj
