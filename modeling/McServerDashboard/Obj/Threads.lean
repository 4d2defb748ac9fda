import McServerDashboard.Lib.Threads
import McServerDashboard.Obj.Stream

/-!
# Publishes, edits, prunes and sweeps of one server's objects, interleaved

The threads that work on one server's prefix at the same time, request by request: snapshot commits,
restores and first-file publishes, in-place edits, the prune of a deleted server, and sweeps. The
copy of a publish and the work of a sweep run without the server lock.

* `Pc`: where each thread stands; `Store`: the bucket, the process memory and the ghosts.
* `advance`: the one next step of each position; `threads`: the steps of one thread.
* `Spaced`: the condition under which sweeps and prunes leave the publishes in progress alone.
-/

namespace McServerDashboard.Obj

open Lib

/-! ## Publishes -/

/-- A publish: a commit (`base` is its expected base), a restore, or the first file of a server
(`held`: its caller has the lock). `d` is the id of its transfer and of its snapshot. -/
structure Job where
  d : SnapshotId
  files : List (Name × Bytes)
  base : Option ℕ
  publisher : Option String
  held : Bool
  deriving DecidableEq

/-- The working set that staging `files` in turn makes. -/
def contentOf (files : List (Name × Bytes)) : Name → Option Bytes :=
  files.foldl (fun f x => Function.update f x.1 (some x.2)) fun _ => none

/-- What a request below the live prefix does to the working set. -/
def Request.onContent (r : Request) (f : Name → Option Bytes) : Name → Option Bytes :=
  match r with
  | put key data => Function.update f key.name (some data)
  | copy src dst => Function.update f dst.name (f src.name)
  | delete key => Function.update f key.name none
  | _ => f

/-- A publish in progress, before its flip: its id, its thread and its expected base. -/
structure Build where
  id : SnapshotId
  owner : ℕ
  base : Option ℕ
  deriving DecidableEq

/-- Its re-check will refuse it: the generation is past its base, or will be. -/
def Build.doomed (bound : ℕ) (e : Build) : Bool := e.base.any (· < bound)

/-! ## Positions -/

/-- What follows when the listed objects are deleted. -/
inductive After
  /-- Reclaim the superseded prefix. -/
  | old (d : SnapshotId) (old : Option SnapshotId)
  /-- Discard the staging of a refused publish. -/
  | discardIncoming (d : SnapshotId)
  /-- Release the staging lease and return. -/
  | finish (d : SnapshotId)
  /-- A prune goes on with `incoming/`; the flag: it found a pointer. -/
  | pruneIncoming (hadPointer : Bool)
  | pruneLast (hadPointer : Bool)
  deriving DecidableEq

/-- Where a thread stands. -/
inductive Pc
  | idle
  | staging (j : Job) (todo : List (Name × Bytes))
  | copying (j : Job) (todo : List Name)
  /-- Under the lock, before the re-check. -/
  | locked (j : Job)
  | passed (j : Job)
  | flipped (j : Job) (old : Option SnapshotId)
  | marked (j : Job) (old : Option SnapshotId)
  | reclaim (d : SnapshotId) (old : Option SnapshotId)
  | deleting (todo : List Key) (after : After)
  | editing (todo : List Request)
  | pruneMark
  | pruneUnpoint
  | pruneList (hadPointer : Bool)
  /-- `judged` caches the verdict on each snapshot prefix. -/
  | sweeping (todo : List Key) (judged : List (SnapshotId × Bool))
  /-- About to delete `key`. -/
  | condemned (key : Key) (todo : List Key) (judged : List (SnapshotId × Bool))
  deriving DecidableEq

/-! ## The shared store -/

/-- The bucket, the process memory, and as ghosts: the working set that is published, the publishes
in progress, and the generation that the store has when the lock is next free. -/
structure Store where
  bucket : Bucket
  lock : Option ℕ
  /-- `_active_staging`. -/
  active : List SnapshotId
  next : SnapshotId
  content : Name → Option Bytes
  building : List Build
  bound : ℕ

namespace Store

/-- A request takes effect; a failing one changes nothing. -/
def run (s : Store) (r : Request) : Store :=
  match r.run s.bucket with
  | .ok k => { s with bucket := k }
  | .error _ => s

/-- The publish of `d` is no longer in progress. -/
def without (s : Store) (d : SnapshotId) : Store :=
  { s with building := s.building.filter fun e => e.id ≠ d }

/-- Leave the lock, if it is the thread's. -/
def release (s : Store) (t : ℕ) : Store :=
  { s with lock := if s.lock = some t then none else s.lock }

/-- `list_objects` of a prefix. -/
def keysOf (s : Store) (p : Prefix) : List Key := (s.bucket.list p).map (Key.mk p)

end Store

/-- The area of a prefix. -/
def Prefix.isSnapshot : Prefix → Bool
  | snapshot _ => true
  | incoming _ => false

def Prefix.id : Prefix → SnapshotId
  | incoming d => d
  | snapshot d => d

/-! ## Steps -/

/-- Discard what a refused or failed publish has copied and staged. -/
def discard (s : Store) (d : SnapshotId) : Store × Pc :=
  (s.without d, .deleting (s.keysOf (.snapshot d)) (.discardIncoming d))

/-- `_sweep_server` at one key: an inactive staging object, or an object of a prefix that is neither
live nor leased by the cached verdict. -/
def consider (leased : Bool) (s : Store) (key : Key) (todo : List Key) (judged : List (SnapshotId × Bool)) : Pc :=
  match key.under with
  | .incoming d => if d ∈ s.active then .sweeping todo judged else .condemned key todo judged
  | .snapshot d =>
    match judged.lookup d with
    | some verdict => if verdict then .condemned key todo judged else .sweeping todo judged
    | none =>
      if s.bucket.pointer ≠ some d ∧ !leased then .condemned key todo ((d, true) :: judged)
      else .sweeping todo ((d, false) :: judged)

/-- The next step of a thread. `answer` is what stands outside the store: at the re-check, that the
missing-region gate or the publisher fence refuses; at a reclaim or a judgement, that the prefix is
leased. -/
def advance (answer : Bool) (t : ℕ) (s : Store) : Pc → Store × Pc
  | .idle => (s, .idle)
  | .staging j (x :: todo) => (s.run (.put ⟨.incoming j.d, x.1⟩ x.2), .staging j todo)
  | .staging j [] =>
    if s.bucket.list (.incoming j.d) = [] then discard s j.d
    else (s, .copying j (s.bucket.list (.incoming j.d)))
  | .copying j (n :: todo) =>
    match (Request.copy ⟨.incoming j.d, n⟩ ⟨.snapshot j.d, n⟩).run s.bucket with
    | .ok k => ({ s with bucket := k }, .copying j todo)
    | .error _ => discard s j.d
  | .copying j [] => ({ s with lock := some t }, .locked j)
  | .locked j =>
    if answer || j.base.any (· ≠ s.bucket.generation) then discard s j.d else (s, .passed j)
  | .passed j =>
    ({ s.without j.d with
        bucket := { s.bucket with pointer := some j.d }
        content := contentOf j.files },
      .flipped j s.bucket.pointer)
  | .flipped j old =>
    ({ s.run (.mark (s.bucket.marker.bump j.publisher)) with bound := s.bucket.generation + 1 }, .marked j old)
  | .marked j old => (if j.held then s else s.release t, .reclaim j.d old)
  | .reclaim d old => (s, .deleting (s.keysOf (.incoming d)) (.old d old))
  | .deleting (key :: todo) after => (s.run (.delete key), .deleting todo after)
  | .deleting [] (.old d none) => (s, .deleting [] (.finish d))
  | .deleting [] (.old d (some old)) =>
    (s, .deleting (if answer then [] else s.keysOf (.snapshot old)) (.finish d))
  | .deleting [] (.discardIncoming d) => (s, .deleting (s.keysOf (.incoming d)) (.finish d))
  | .deleting [] (.finish d) =>
    ({ s.release t with active := s.active.filter fun e => e ≠ d }, .idle)
  | .deleting [] (.pruneIncoming hadPointer) =>
    (s, .deleting (s.bucket.objs.keys.filter fun key => !key.under.isSnapshot) (.pruneLast hadPointer))
  | .deleting [] (.pruneLast hadPointer) =>
    (((if hadPointer then s.run (.mark ⟨s.bucket.generation, none⟩)
      else { s.run (.mark (s.bucket.marker.bump none)) with bound := s.bucket.generation + 1 })).release t, .idle)
  | .editing (r :: todo) =>
    match r.run s.bucket with
    | .ok k => ({ s with bucket := k, content := r.onContent s.content, bound := k.generation }, .editing todo)
    | .error _ => (s.release t, .idle)
  | .editing [] => (s.release t, .idle)
  | .pruneMark =>
    ({ s.run (.mark (s.bucket.marker.bump s.bucket.marker.publisher)) with bound := s.bucket.generation + 1 },
      .pruneUnpoint)
  | .pruneUnpoint => (s.run .unpoint, .pruneList true)
  | .pruneList hadPointer =>
    (if hadPointer then s else { s with bound := s.bucket.generation + 1 },
      .deleting (s.bucket.objs.keys.filter fun key => key.under.isSnapshot) (.pruneIncoming hadPointer))
  | .sweeping (key :: todo) judged => (s, consider answer s key todo judged)
  | .sweeping [] _ => (s, .idle)
  | .condemned key todo judged => (s.run (.delete key), .sweeping todo judged)

/-- A prune without a pointer between its first listing and its marker write. -/
def Pc.isUnmarked : Pc → Bool
  | deleting _ (.pruneIncoming hadPointer) => !hadPointer
  | deleting _ (.pruneLast hadPointer) => !hadPointer
  | _ => false

/-- A request of the thread fails. Before its flip a publish discards what it has; after it, it only
leaves. The others leave the lock and return. -/
def fault (t : ℕ) (s : Store) (pc : Pc) : Store × Pc :=
  match pc with
  | .staging j _ | .copying j _ | .locked j | .passed j => discard s j.d
  | .flipped j _ | .marked j _ => (s.release t, .deleting [] (.finish j.d))
  | .reclaim d _ => (s, .deleting [] (.finish d))
  | .deleting _ (.old d _) | .deleting _ (.discardIncoming d) | .deleting _ (.finish d) =>
    (s, .deleting [] (.finish d))
  | .deleting _ (.pruneIncoming _) | .deleting _ (.pruneLast _) =>
    ({ s.release t with bound := if pc.isUnmarked then s.bucket.generation else s.bound }, .idle)
  | _ => (s.release t, .idle)

/-- What a thread does next. -/
inductive Action
  /-- Begin a publish. -/
  | publish (files : List (Name × Bytes)) (base : Option ℕ) (publisher : Option String) (held : Bool)
  /-- Begin an in-place edit. -/
  | edit (m : Mutator)
  | prune
  | sweep
  | step (answer : Bool)
  | fail

/-- A first-file publish and a prune begin with the lock; a publish takes it at its re-check. -/
def threadPre (t : ℕ) (s : Store) (pc : Pc) : Action → Prop
  | .publish _ base _ held =>
    pc = .idle ∧ (held → s.lock = none ∧ s.bucket.pointer = none ∧ base = none)
  | .edit m => pc = .idle ∧ s.lock = none ∧ m.isEdit ∧ s.bucket.pointer ≠ none
  | .prune => pc = .idle ∧ s.lock = none
  | .sweep => pc = .idle
  | .step _ =>
    match pc with
    | .idle => False
    | .copying j [] => s.lock = if j.held then some t else none
    | _ => True
  | .fail => pc ≠ .idle

instance (t : ℕ) (s : Store) (pc : Pc) (a : Action) : Decidable (threadPre t s pc a) := by
  cases a with
  | step answer =>
    unfold threadPre
    cases pc with
    | copying j todo => cases todo <;> infer_instance
    | _ => infer_instance
  | _ => unfold threadPre; infer_instance

def threadPost (t : ℕ) (s : Store) (pc : Pc) : Action → Store × Pc
  | .publish files base publisher held =>
    ({ s with
        lock := if held then some t else s.lock
        active := s.next :: s.active
        next := s.next + 1
        building := ⟨s.next, t, base⟩ :: s.building },
      .staging ⟨s.next, files, base, publisher, held⟩ files)
  | .edit m => ({ s with lock := some t }, .editing (m.plan s.bucket).writes)
  | .prune =>
    ({ s with lock := some t }, if s.bucket.pointer = none then .pruneList false else .pruneMark)
  | .sweep => (s, .sweeping s.bucket.objs.keys [])
  | .step answer => advance answer t s pc
  | .fail => fault t s pc

/-- The steps of one thread. -/
def threads : Threads Store Pc Action := ⟨threadPre, threadPost⟩

instance (t : ℕ) (s : Store) (pc : Pc) (a : Action) : Decidable (threads.pre t s pc a) :=
  inferInstanceAs (Decidable (threadPre t s pc a))

/-- A process that starts over a bucket; `next` is the first id it draws. -/
def start (k : Bucket) (next : SnapshotId) : Threads.Config Store Pc where
  shared :=
    { bucket := k
      lock := none
      active := []
      next := next
      content := fun n => (k.published.map (· n)).getD none
      building := []
      bound := k.generation }
  th _ := .idle

/-- The ids in the bucket were drawn before. -/
def Drawn (k : Bucket) (next : SnapshotId) : Prop :=
  (∀ key ∈ k.objs.keys, key.under.id < next) ∧ ∀ d ∈ k.pointer, d < next

instance (k : Bucket) (next : SnapshotId) : Decidable (Drawn k next) := by
  unfold Drawn; infer_instance

/-! ## The condition -/

/-- The prefix that a sweep judges to be garbage at this key. -/
def judges (leased : Bool) (s : Store) (key : Key) (judged : List (SnapshotId × Bool)) : Option SnapshotId :=
  match key.under with
  | .incoming _ => none
  | .snapshot d => if judged.lookup d = none ∧ s.bucket.pointer ≠ some d ∧ !leased then some d else none

/-- The step leaves the publishes in progress alone. A sweep judges no prefix of a publish in
progress to be garbage; a prune lists, and one without a pointer fails, only when every publish in
progress is one that its generation refuses. -/
def SpacedStep (s : Store) (pc : Pc) (a : Action) : Prop :=
  match a, pc with
  | .step leased, .sweeping (key :: _) judged =>
    ∀ d ∈ judges leased s key judged, ∀ e ∈ s.building, e.id ≠ d
  | .step _, .pruneList hadPointer =>
    ∀ e ∈ s.building, e.doomed (if hadPointer then s.bucket.generation else s.bucket.generation + 1)
  | .step _, .deleting [] (.pruneIncoming _) => ∀ e ∈ s.building, e.doomed s.bound
  | .fail, pc => pc.isUnmarked → ∀ e ∈ s.building, e.doomed s.bucket.generation
  | _, _ => True

instance (s : Store) (pc : Pc) (a : Action) : Decidable (SpacedStep s pc a) := by
  unfold SpacedStep
  split <;> infer_instance

def Spaced (c : Threads.Config Store Pc) (x : ℕ × Action) : Prop := SpacedStep c.shared (c.th x.1) x.2

instance (c : Threads.Config Store Pc) (x : ℕ × Action) : Decidable (Spaced c x) :=
  inferInstanceAs (Decidable (SpacedStep _ _ _))

end McServerDashboard.Obj
