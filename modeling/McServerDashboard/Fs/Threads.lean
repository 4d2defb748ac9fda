import Mathlib.Logic.Function.Basic
import McServerDashboard.Fs.Mutators

/-!
# Publishes, edits, sweeps and readers of one server, interleaved

The threads that work on one server's store at the same time, step by step: snapshot commits,
restores and first-file publishes, in-place edits, the periodic sweep, and readers that lease the
live snapshot. A step is one atomic change of the disk or of the process memory (the server lock,
the active-staging set, the lease counts); a crash ends every thread and empties the memory.

* `Pc`: where each thread stands. A thread that stages a directory stages the one named after it.
* `Task`: the task that awaits the thread. One that is cancelled removes the staging, while the thread
  of a publish goes on.
* `Srv`: disk, memory, threads, and as a ghost `book d`, what the directory `d` is meant to hold.
* `Act`, `server`: the steps and their machine.
-/

namespace McServerDashboard.Fs

open Lib

/-- A thread: one operation, never reused. -/
abbrev Tid := ℕ

/-- Where a thread stands. -/
inductive Pc
  | idle
  /-- `mkdir` of the staging is done, the staging lease not yet taken. -/
  | made
  /-- Receiving, extracting and checking the staged set. -/
  | staging
  /-- `_publish_initial`, lock held: about to make its staging. -/
  | firstMaking (ops : List TreeOp)
  | firstMade (ops : List TreeOp)
  | first (ops : List TreeOp)
  /-- `_publish`, lock held: about to move the staging into `snapshots/`. -/
  | moving (publisher : Option String)
  | moved (publisher : Option String)
  /-- `current` is flipped; `old` is the snapshot it named before. -/
  | flipped (publisher : Option String) (old : Option DirId)
  /-- The lease of `old` is checked; about to write the marker. -/
  | marking (publisher : Option String) (old : Option DirId)
  | unlocking (old : Option DirId)
  /-- `_rmtree` of the superseded snapshot, outside the lock. -/
  | reclaiming (old : DirId)
  /-- `_rmtree` of the own staging after a refusal, a fault or an abort. -/
  | dropping
  | ending
  /-- An in-place edit, lock held. -/
  | editing (e : Edit) (ops : List TreeOp)
  | editMarking
  | undoing (live : DirId) (ops : List TreeOp)
  | editUnlocking
  /-- The sweep over the listed `snapshots/`. -/
  | sweeping (todo : List DirId)
  /-- `current` was re-read for `d` and names another. -/
  | compared (d : DirId) (todo : List DirId)
  /-- The sweep over the listed `incoming/`. -/
  | sweepingStaging (todo : List DirId)
  /-- `d` was found without a staging lease. -/
  | unpinned (d : DirId) (todo : List DirId)
  /-- The sweep's `_rmtree`. -/
  | removing (d : DirId) (todo : List DirId) (area : Area)
  /-- `_lease_current`; the flag says that the awaiting task was cancelled. -/
  | leasing (cancelled : Bool)
  | resolved (d : DirId) (cancelled : Bool)
  | counted (d : DirId) (cancelled : Bool)
  /-- The job has returned the lease, its caller has not received it. -/
  | granted (d : DirId) (cancelled : Bool)
  | holding (d : DirId)
  /-- The release closure's own lock is taken, the count not yet lowered. -/
  | releasing (d : DirId)
  | released
  | «over»
  deriving DecidableEq

/-- The task that awaits the thread of a commit or a restore. -/
inductive Task
  | awaiting
  /-- Cancelled, and about to `_rmtree` the staging: `abort_snapshot`, or the restore's own cleanup. -/
  | cancelled
  /-- The staging is open and is removed, wherever it is moved to. -/
  | discarding
  | gone
  deriving DecidableEq

/-- The store of one server and the process that serves it. -/
structure Srv where
  disk : Disk
  lock : Option Tid
  active : DirId → Bool
  leases : DirId → ℕ
  th : Tid → Pc
  task : Tid → Task
  /-- Ghost: what the directory is meant to hold, no removal counted. -/
  book : DirId → Tree

namespace Srv

/-- A fresh process over a server that was never published. -/
def init : Srv where
  disk := .empty
  lock := none
  active _ := false
  leases _ := 0
  th _ := .idle
  task _ := .awaiting
  book _ := ∅

def goto (s : Srv) (t : Tid) (pc : Pc) : Srv := { s with th := Function.update s.th t pc }

def setLock (s : Srv) (l : Option Tid) : Srv := { s with lock := l }

def setTask (s : Srv) (t : Tid) (k : Task) : Srv := { s with task := Function.update s.task t k }

/-- Where the thread comes to; once its task is cancelled nothing of it goes on. -/
def resume (s : Srv) (t : Tid) (pc : Pc) : Pc := if s.task t = .awaiting then pc else .over

def pin (s : Srv) (d : DirId) (b : Bool) : Srv := { s with active := Function.update s.active d b }

def addLease (s : Srv) (d : DirId) : Srv :=
  { s with leases := Function.update s.leases d (s.leases d + 1) }

/-- `_release_lease`: the count never goes below zero. -/
def dropLease (s : Srv) (d : DirId) : Srv :=
  { s with leases := Function.update s.leases d (s.leases d - 1) }

/-- One write to the disk; a failed one changes nothing. -/
def write (s : Srv) (w : Write) : Srv :=
  match w.run s.disk with
  | .ok k => { s with disk := k }
  | .error _ => s

/-- Record a change of `d` that belongs to its working set. -/
def note (s : Srv) (d : DirId) (op : TreeOp) : Srv :=
  match op.run (s.book d) with
  | .ok t => { s with book := Function.update s.book d t }
  | .error _ => s

/-- Create the staging of `t`. -/
def make (s : Srv) (t : Tid) : Srv :=
  { s.write (.mkdir t) with book := Function.update s.book t ∅ }

/-- The process is gone: every thread that began is over, the memory is empty. -/
def crash (s : Srv) : Srv :=
  { s with
    lock := none
    active := fun _ => false
    leases := fun _ => 0
    task := fun _ => .awaiting
    th := fun t => match s.th t with
      | .idle => .idle
      | _ => .over }

/-- Where the directory `d` stands. -/
def area (s : Srv) (d : DirId) : Option Area := (s.disk.dirs.lookup d).map (·.area)

end Srv

namespace Pc

/-- The directory a thread is removing, member by member. -/
def removes (t : Tid) : Pc → Option DirId
  | reclaiming old => some old
  | dropping => some t
  | removing d _ _ => some d
  | _ => none

/-- In `_publish` once its staging is moved. -/
def isPublishing : Pc → Bool
  | moved _ => true
  | flipped _ _ => true
  | marking _ _ => true
  | unlocking _ => true
  | _ => false

/-- A commit or a restore whose task awaits the thread that publishes. The first-file publish cleans up in
its own thread. -/
def isAwaited : Pc → Bool
  | staging => true
  | moving publisher => publisher != some apiEditPublisher
  | moved publisher => publisher != some apiEditPublisher
  | flipped publisher _ => publisher != some apiEditPublisher
  | marking publisher _ => publisher != some apiEditPublisher
  | unlocking _ => true
  | reclaiming _ => true
  | _ => false

/-- Moved into `snapshots/`, `current` not yet flipped onto it. -/
def isMoved : Pc → Bool
  | moved _ => true
  | _ => false

/-- The own staging directory is made and not yet registered. -/
def isUnregistered : Pc → Bool
  | made => true
  | firstMade _ => true
  | _ => false

/-- The release closure was called before. -/
def isReleased : Pc → Bool
  | releasing _ => true
  | released => true
  | _ => false

end Pc

/-- The steps. The first argument is the thread that moves. -/
inductive Act
  | begin (t : Tid)
  | register (t : Tid)
  | fill (t : Tid) (op : TreeOp)
  | abort (t : Tid)
  | cancel (t : Tid)
  | refuse (t : Tid)
  | discard (t : Tid)
  | missDiscard (t : Tid)
  | discarded (t : Tid)
  | lockPublish (t : Tid) (m : Mutator) (publisher : Option String)
  | move (t : Tid) (publisher : Option String)
  | flip (t : Tid) (publisher : Option String)
  | checkOld (t : Tid) (publisher : Option String) (old : Option DirId)
  | mark (t : Tid) (publisher : Option String) (old : Option DirId)
  | unlock (t : Tid) (old : Option DirId)
  | failMove (t : Tid) (publisher : Option String)
  | failPublish (t : Tid)
  | reclaimed (t : Tid) (old : DirId)
  | dropped (t : Tid)
  | unregister (t : Tid)
  | lockFirst (t : Tid) (m : Mutator) (ops : List TreeOp)
  | makeFirst (t : Tid) (ops : List TreeOp)
  | registerFirst (t : Tid) (ops : List TreeOp)
  | fillFirst (t : Tid) (op : TreeOp) (ops : List TreeOp)
  | staged (t : Tid)
  | failMakeFirst (t : Tid) (ops : List TreeOp)
  | failFirst (t : Tid) (ops : List TreeOp)
  | lockEdit (t : Tid) (m : Mutator) (e : Edit)
  | edit (t : Tid) (e : Edit) (op : TreeOp) (ops : List TreeOp)
  | wipe (t : Tid) (e : Edit)
  | edited (t : Tid) (e : Edit)
  | markEdit (t : Tid)
  | failMark (t : Tid)
  | failEdit (t : Tid) (e : Edit) (ops : List TreeOp)
  | undo (t : Tid) (live : DirId) (op : TreeOp) (ops : List TreeOp)
  | undone (t : Tid) (live : DirId) (ops : List TreeOp)
  | unlockEdit (t : Tid)
  | unlink (t : Tid) (d : DirId) (p : Path)
  | rmdir (t : Tid) (d : DirId)
  | sweep (t : Tid) (todo : List DirId)
  | skipLive (t : Tid) (d : DirId) (todo : List DirId)
  | compare (t : Tid) (d : DirId) (todo : List DirId)
  | skipLeased (t : Tid) (d : DirId) (todo : List DirId)
  | remove (t : Tid) (d : DirId) (todo : List DirId)
  | removedSnapshot (t : Tid) (d : DirId) (todo : List DirId)
  | listStaging (t : Tid) (todo : List DirId)
  | skipPinned (t : Tid) (d : DirId) (todo : List DirId)
  | unpin (t : Tid) (d : DirId) (todo : List DirId)
  | removeStaging (t : Tid) (d : DirId) (todo : List DirId)
  | missStaging (t : Tid) (d : DirId) (todo : List DirId)
  | removedStaging (t : Tid) (d : DirId) (todo : List DirId)
  | swept (t : Tid)
  | lease (t : Tid)
  | cancelLeasing (t : Tid)
  | cancelResolved (t : Tid) (d : DirId)
  | cancelCounted (t : Tid) (d : DirId)
  | cancelGranted (t : Tid) (d : DirId)
  | resolve (t : Tid) (d : DirId) (cancelled : Bool)
  | missCurrent (t : Tid) (cancelled : Bool)
  | acquire (t : Tid) (d : DirId) (cancelled : Bool)
  | recheck (t : Tid) (d : DirId) (cancelled : Bool)
  | retry (t : Tid) (d : DirId) (cancelled : Bool)
  | deliver (t : Tid) (d : DirId)
  | reclaimOrphan (t : Tid) (d : DirId)
  | release (t : Tid) (d : DirId)
  | dropCount (t : Tid) (d : DirId)
  | releaseAgain (t : Tid)
  | crash

namespace Srv

/-- The directory `_current_dir` returns. -/
def live (s : Srv) : Option DirId := s.disk.currentTree.map (·.1)

/-- May the step be taken? -/
def Pre (s : Srv) : Act → Prop
  | .begin t => s.th t = .idle
  | .register t => s.th t = .made
  | .fill t op => (s.th t = .staging ∧ s.task t = .awaiting) ∧ (Write.run (.change t op) s.disk).isOk
  | .abort t => s.th t = .staging ∧ s.task t = .awaiting
  -- At `staging`, the thread is trying the lock.
  | .cancel t => (s.th t).isAwaited ∧ s.task t = .awaiting
  | .refuse t => s.th t = .staging ∧ s.task t ≠ .awaiting
  | .discard t => s.task t = .cancelled ∧ s.area t = some .incoming
  | .missDiscard t => s.task t = .cancelled ∧ s.area t ≠ some .incoming
  | .discarded t => s.task t = .discarding
  | .lockPublish t m publisher =>
    s.th t = .staging ∧ s.lock = none ∧ m.check s.disk = .ok (.publish t publisher)
  | .move t publisher => s.th t = .moving publisher ∧ (Write.run (.move t) s.disk).isOk
  | .flip t publisher => s.th t = .moved publisher
  | .checkOld t publisher old => s.th t = .flipped publisher old
  | .mark t publisher old => s.th t = .marking publisher old
  | .unlock t old => s.th t = .unlocking old
  | .failMove t publisher => s.th t = .moving publisher
  | .failPublish t => (s.th t).isPublishing
  | .reclaimed t old => s.th t = .reclaiming old
  | .dropped t => s.th t = .dropping
  | .unregister t => s.th t = .ending
  | .lockFirst t m ops => s.th t = .idle ∧ s.lock = none ∧ m.check s.disk = .ok (.first t ops)
  | .makeFirst t ops => s.th t = .firstMaking ops
  | .registerFirst t ops => s.th t = .firstMade ops
  | .fillFirst t op ops => s.th t = .first (op :: ops) ∧ (Write.run (.change t op) s.disk).isOk
  | .staged t => s.th t = .first []
  | .failMakeFirst t ops => s.th t = .firstMaking ops
  | .failFirst t ops => s.th t = .first ops
  | .lockEdit t m e => s.th t = .idle ∧ s.lock = none ∧ m.check s.disk = .ok (.edit e)
  | .edit t e op ops =>
    s.th t = .editing e (op :: ops) ∧ (Write.run (.change e.live op) s.disk).isOk
  | .wipe t e => s.th t = .editing e [] ∧ e.wipe = true
  | .edited t e => s.th t = .editing e [] ∧ e.wipe = false
  | .markEdit t => s.th t = .editMarking
  | .failMark t => s.th t = .editMarking
  | .failEdit t e ops => s.th t = .editing e ops
  | .undo t live op ops => s.th t = .undoing live (op :: ops)
  | .undone t live ops => s.th t = .undoing live ops
  | .unlockEdit t => s.th t = .editUnlocking
  | .unlink t d _ => (s.th t).removes t = some d ∨ d = t ∧ s.task t = .discarding
  | .rmdir t d =>
    (s.th t).removes t = some d ∨ d = t ∧ s.task t = .discarding ∧ s.area d = some .incoming
  | .sweep t todo => s.th t = .idle ∧ ∀ d ∈ todo, s.area d = some .snapshots
  | .skipLive t d todo => s.th t = .sweeping (d :: todo) ∧ s.disk.current = some d
  | .compare t d todo => s.th t = .sweeping (d :: todo) ∧ s.disk.current ≠ some d
  | .skipLeased t d todo => s.th t = .compared d todo ∧ s.leases d ≠ 0
  | .remove t d todo => s.th t = .compared d todo ∧ s.leases d = 0
  | .removedSnapshot t d todo => s.th t = .removing d todo .snapshots
  | .listStaging t todo => s.th t = .sweeping [] ∧ ∀ d ∈ todo, s.area d = some .incoming
  | .skipPinned t d todo => s.th t = .sweepingStaging (d :: todo) ∧ s.active d = true
  | .unpin t d todo => s.th t = .sweepingStaging (d :: todo) ∧ s.active d = false
  | .removeStaging t d todo => s.th t = .unpinned d todo ∧ s.area d = some .incoming
  | .missStaging t d todo => s.th t = .unpinned d todo ∧ s.area d ≠ some .incoming
  | .removedStaging t d todo => s.th t = .removing d todo .incoming
  | .swept t => s.th t = .sweepingStaging []
  | .lease t => s.th t = .idle
  | .cancelLeasing t => s.th t = .leasing false
  | .cancelResolved t d => s.th t = .resolved d false
  | .cancelCounted t d => s.th t = .counted d false
  | .cancelGranted t d => s.th t = .granted d false
  | .resolve t d cancelled => s.th t = .leasing cancelled ∧ s.live = some d
  | .missCurrent t cancelled => s.th t = .leasing cancelled ∧ s.live = none
  | .acquire t d cancelled => s.th t = .resolved d cancelled
  | .recheck t d cancelled => s.th t = .counted d cancelled ∧ s.live = some d
  | .retry t d cancelled => s.th t = .counted d cancelled ∧ s.live ≠ some d
  | .deliver t d => s.th t = .granted d false
  | .reclaimOrphan t d => s.th t = .granted d true
  | .release t d => s.th t = .holding d
  | .dropCount t d => s.th t = .releasing d
  | .releaseAgain t => (s.th t).isReleased
  | .crash => True

/-- The effect of a step. -/
def post (s : Srv) : Act → Srv
  | .begin t => (s.make t).goto t .made
  | .register t => (s.pin t true).goto t .staging
  | .fill t op => (s.write (.change t op)).note t op
  | .abort t => s.goto t .dropping
  | .cancel t => s.setTask t .cancelled
  | .refuse t => s.goto t .over
  | .discard t => s.setTask t .discarding
  | .missDiscard t => (s.pin t false).setTask t .gone
  | .discarded t => (s.pin t false).setTask t .gone
  | .lockPublish t _ publisher => (s.setLock (some t)).goto t (.moving publisher)
  | .move t publisher => (s.write (.move t)).goto t (.moved publisher)
  | .flip t publisher => (s.write (.flip t)).goto t (.flipped publisher s.disk.current)
  | .checkOld t publisher old => s.goto t (.marking publisher (old.filter fun o => s.leases o = 0))
  | .mark t publisher old => (s.write (.mark (s.disk.marker.bump publisher))).goto t (.unlocking old)
  | .unlock t old =>
    (s.setLock none).goto t (s.resume t (match old with
      | none => .ending
      | some o => .reclaiming o))
  | .failMove t _ => (s.setLock none).goto t (s.resume t .dropping)
  -- The staging has been moved away, so its `_rmtree` finds nothing.
  | .failPublish t => (s.setLock none).goto t (s.resume t .ending)
  | .reclaimed t _ => s.goto t (s.resume t .ending)
  | .dropped t => s.goto t .ending
  | .unregister t => (s.pin t false).goto t .over
  | .lockFirst t _ ops => (s.setLock (some t)).goto t (.firstMaking ops)
  | .makeFirst t ops => (s.make t).goto t (.firstMade ops)
  | .registerFirst t ops => (s.pin t true).goto t (.first ops)
  | .fillFirst t op ops => ((s.write (.change t op)).note t op).goto t (.first ops)
  | .staged t => s.goto t (.moving (some apiEditPublisher))
  | .failMakeFirst t _ => (s.setLock none).goto t .over
  | .failFirst t _ => (s.setLock none).goto t .dropping
  | .lockEdit t _ e => (s.setLock (some t)).goto t (.editing e e.ops)
  | .edit t e op ops => ((s.write (.change e.live op)).note e.live op).goto t (.editing e ops)
  | .wipe t e => (s.write (.rmdir e.live)).goto t .editMarking
  | .edited t _ => s.goto t .editMarking
  | .markEdit t =>
    (s.write (.mark (s.disk.marker.bump (some apiEditPublisher)))).goto t .editUnlocking
  | .failMark t => s.goto t .editUnlocking
  | .failEdit t e _ => s.goto t (.undoing e.live e.undo)
  | .undo t live op ops => ((s.write (.change live op)).note live op).goto t (.undoing live ops)
  | .undone t _ _ => s.goto t .editUnlocking
  | .unlockEdit t => (s.setLock none).goto t .over
  | .unlink _ d p => s.write (.change d (.discard p))
  | .rmdir _ d => s.write (.rmdir d)
  | .sweep t todo => s.goto t (.sweeping todo)
  | .skipLive t _ todo => s.goto t (.sweeping todo)
  | .compare t d todo => s.goto t (.compared d todo)
  | .skipLeased t _ todo => s.goto t (.sweeping todo)
  | .remove t d todo => s.goto t (.removing d todo .snapshots)
  | .removedSnapshot t _ todo => s.goto t (.sweeping todo)
  | .listStaging t todo => s.goto t (.sweepingStaging todo)
  | .skipPinned t _ todo => s.goto t (.sweepingStaging todo)
  | .unpin t d todo => s.goto t (.unpinned d todo)
  | .removeStaging t d todo => s.goto t (.removing d todo .incoming)
  | .missStaging t _ todo => s.goto t (.sweepingStaging todo)
  | .removedStaging t _ todo => s.goto t (.sweepingStaging todo)
  | .swept t => s.goto t .over
  | .lease t => s.goto t (.leasing false)
  | .cancelLeasing t => s.goto t (.leasing true)
  | .cancelResolved t d => s.goto t (.resolved d true)
  | .cancelCounted t d => s.goto t (.counted d true)
  | .cancelGranted t d => s.goto t (.granted d true)
  | .resolve t d cancelled => s.goto t (.resolved d cancelled)
  | .missCurrent t _ => s.goto t .over
  | .acquire t d cancelled => (s.addLease d).goto t (.counted d cancelled)
  | .recheck t d cancelled => s.goto t (.granted d cancelled)
  | .retry t d cancelled => (s.dropLease d).goto t (.leasing cancelled)
  | .deliver t d => s.goto t (.holding d)
  | .reclaimOrphan t d => s.goto t (.releasing d)
  | .release t d => s.goto t (.releasing d)
  | .dropCount t d => (s.dropLease d).goto t .released
  | .releaseAgain _ => s
  | .crash => s.crash

instance (s : Srv) (a : Act) : Decidable (s.Pre a) := by
  cases a <;> (unfold Srv.Pre; infer_instance)

end Srv

/-- The threads of one server over its store. -/
def server : Machine Srv Act := ⟨Srv.Pre, Srv.post⟩

instance (s : Srv) (a : Act) : Decidable (server.pre s a) := inferInstanceAs (Decidable (s.Pre a))

end McServerDashboard.Fs
