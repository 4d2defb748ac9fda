import McServerDashboard.Lib.Run
import McServerDashboard.Schedules.Warnings

/-!
# The scheduler runner

A tick polls the due schedules and runs each: it claims the row under its lock, executes the action, records the run and
advances `next_run_at`. A failed backup is retried once, later. All of this is in transactions of their own, and rows
are created, edited and deleted at any await between them.

* `nextAfter`, `isStale`: the arithmetic; **`lt_nextAfter`**: the next occurrence is later.
* `Pc`, `Job`, `Job.next`: where the run of one schedule stands, and its steps between two awaits.
* `State`, `next`, `runner`: the process with its ticks, and the edits in flight.
-/

namespace McServerDashboard.Schedules.Runner

open Lib Lib.Properties Properties

/-! ## The next occurrence -/

/-- The port of the cron engine. -/
structure NextRunCalculator where
  nextAfter : Str → Str → Instant → Instant
  /-- The occurrence is strictly after. -/
  after : ∀ expr tz t, t < nextAfter expr tz t

/-- What the runner is made with. -/
structure RunScheduleTick where
  calculator : NextRunCalculator
  /-- The jitter of a schedule that runs at an interval, in microseconds. -/
  jitter : ScheduleId → ℕ → ℤ
  backupRetryDelay : ℤ

/-- `LATE_RUN_GRACE`. -/
def lateRunGrace : ℤ := seconds 300

/-- `_MAX_CONCURRENT_RUNS`. -/
def maxConcurrentRuns : ℕ := 4

/-- `next_interval_run`. -/
def nextIntervalRun (jitter : ℤ) (intervalSeconds : ℕ) (after : Instant) : Instant :=
  let interval := seconds intervalSeconds
  let k := (after - jitter) / interval + 1
  k * interval + jitter

/-- `_next_after`; the edits compute the same. -/
def nextAfter (t : RunScheduleTick) (schedule : Schedule) (after : Instant) : Instant :=
  match schedule.cadence with
  | .interval n _ => nextIntervalRun (t.jitter schedule.id n) n after
  | .cron expr _ => t.calculator.nextAfter expr schedule.timezone after

/-- **The next occurrence is later.** -/
theorem lt_nextAfter (t : RunScheduleTick) (schedule : Schedule) (after : Instant) :
    after < nextAfter t schedule after := by
  rw [nextAfter]
  cases schedule.cadence with
  | cron expr _ => exact t.calculator.after expr schedule.timezone after
  | interval n hfloor =>
    have hpos : 0 < seconds n := by
      rw [minIntervalSeconds] at hfloor
      rw [seconds]
      omega
    exact Int.lt_add_of_sub_right_lt (Int.lt_ediv_add_one_mul_self (after - t.jitter schedule.id n) hpos)

/-! ## One schedule -/

/-- `ScheduleRunOutcome`. -/
inductive Outcome
  | success
  | failure
  | skipped
  deriving DecidableEq

structure ActionResult where
  outcome : Outcome
  retryable : Bool
  deriving DecidableEq

/-- A due schedule as the poll listed it, in a tick that began at `now`, behind one that began at `prev`. -/
structure Due where
  schedule : Schedule
  now : Instant
  prev : Option Instant
  /-- Ghost: how often the row had been edited. -/
  version : ℕ
  deriving DecidableEq

/-- `_is_stale`. -/
def isStale (d : Due) : Bool :=
  match d.schedule.nextRunAt with
  | none => false
  | some next => if d.now - next ≤ lateRunGrace then false else if d.prev.any (· < next) then false else true

/-- What a run is made for. -/
inductive Origin
  | due (d : Due)
  | retry
  deriving DecidableEq

/-- A run, with what its advance writes for `last_run_at`. -/
inductive Run
  | due (d : Due) (lastRunAt : Option Instant)
  | retry (schedule : Schedule)
  deriving DecidableEq

def Run.schedule : Run → Schedule
  | .due d _ => d.schedule
  | .retry schedule => schedule

def Run.isRetry : Run → Bool
  | .due .. => false
  | .retry _ => true

/-- Where the run of a schedule stands in the tick. -/
inductive Pc
  | idle
  | queued (d : Due)
  /-- It is to be claimed. -/
  | starting (o : Origin)
  /-- The row has been read under its lock. -/
  | claimed (o : Origin) (current : Option Schedule)
  /-- The server is read. -/
  | loading (run : Run) (current : Schedule)
  | executing (run : Run)
  /-- The run is to be recorded. -/
  | executed (run : Run) (result : ActionResult) (finishedAt : Instant)
  /-- The transaction is committed; `recorded` is whether there was a row. -/
  | recorded (run : Run) (result : ActionResult) (finishedAt : Instant) (recorded : Bool)
  | done (server : Option ServerId)
  deriving DecidableEq

/-- The kind of a notification: `schedule_failed` or `schedule_recovered`. -/
inductive Notification
  | failed
  | recovered
  deriving DecidableEq

/-- What has happened to a schedule. -/
inductive Event
  /-- An occurrence was dispatched; `current` is the row that its claim read. -/
  | dispatched (d : Due) (current : Schedule)
  /-- An occurrence was handled: had the row been edited since the poll, and what is it now? -/
  | handled (edited : Bool) (row : Option Schedule) (now : Instant)
  /-- The retryable failure of a backup occurrence, which finished at `finishedAt`, was recorded. -/
  | failed (finishedAt : Instant)
  /-- The success of a backup occurrence was recorded. -/
  | succeeded
  /-- A retry was dispatched; `current` is the row that its claim read. -/
  | retried (current : Schedule) (now : Instant)
  | notified (kind : Notification)
  deriving DecidableEq

/-- All that there is of one schedule. -/
structure Job where
  row : Option Schedule := none
  /-- Ghost: how often the row was edited. -/
  version : ℕ := 0
  pc : Pc := .idle
  /-- `_backup_retry`. -/
  retry : Option Instant := none
  /-- `_notifying`. -/
  notifying : Bool := false
  /-- Ghost: the newest event is first. -/
  log : List Event := []
  deriving DecidableEq

/-- How `ExecuteScheduleAction` begins: the read of the server raises, its precondition is unmet, or it dispatches. -/
inductive Loaded
  | raised
  | skipped
  | dispatched
  deriving DecidableEq

/-- What may happen to one schedule. -/
inductive Step
  | create (row : Schedule)
  | delete
  /-- The run of a due schedule is begun. -/
  | start
  | claim
  /-- The claim raises. -/
  | fail
  /-- Behind the claim. -/
  | dispatch
  | load (found : Loaded)
  | finish (result : ActionResult)
  | record
  /-- The transaction of the record raises. -/
  | rollback
  /-- Behind the transaction. -/
  | conclude
  /-- The retry is begun, in a tick that began at `now`. -/
  | retry (now : Instant)
  deriving DecidableEq

namespace Job

variable (t : RunScheduleTick) (clock : Instant) (job : Job)

/-- `_forget`. -/
def forget : Job := { job with notifying := false, retry := none }

/-- `update`, behind `UpdateSchedule`: a row that is gone is not written. -/
def update (updated : Schedule) : Job :=
  match job.row with
  | none => job
  | some _ => { job with row := some updated, version := job.version + 1 }

/-- The poll of a tick. -/
def list (now : Instant) (prev : Option Instant) : Job :=
  match job.row with
  | none => { job with pc := .idle }
  | some row =>
    if row.enabled && row.nextRunAt.any (· ≤ now) then { job with pc := .queued ⟨row, now, prev, job.version⟩ }
    else { job with pc := .idle }

/-- `_run_due`, up to the claim, or to the record of an occurrence that is stale. -/
def start : Option Job :=
  match job.pc with
  | .queued d =>
    if d.schedule.action ≠ .backup && isStale d then
      some { job with pc := .executed (.due d d.schedule.lastRunAt) ⟨.skipped, true⟩ clock }
    else some { job with pc := .starting (.due d) }
  | _ => none

/-- `_claim`. -/
def claim : Option Job :=
  match job.pc with
  | .starting o => some { job with pc := .claimed o job.row }
  | _ => none

def fail : Option Job :=
  match job.pc with
  | .starting .retry => some { job with pc := .done none }
  | .starting (.due d) => some { job with pc := .done (some d.schedule.serverId) }
  | _ => none

/-- The occurrence is handled. -/
def handled (d : Due) : Job :=
  { job with log := .handled (job.version ≠ d.version) job.row clock :: job.log }

/-- Behind the claim: of `_run_due`, and of `_run_retry`. -/
def dispatch : Option Job :=
  match job.pc with
  | .claimed (.due d) none => some { (job.handled clock d).forget with pc := .done (some d.schedule.serverId) }
  | .claimed (.due d) (some current) =>
    if !current.enabled || current.nextRunAt ≠ d.schedule.nextRunAt then
      some { job.handled clock d with pc := .done (some d.schedule.serverId) }
    else some { job with pc := .loading (.due d (some clock)) current }
  | .claimed .retry none => some { job.forget with pc := .done none }
  | .claimed .retry (some current) =>
    if !current.enabled || current.action ≠ .backup then some { job with pc := .done none }
    else some { job with pc := .loading (.retry current) current, log := .retried current clock :: job.log }
  | _ => none

/-- `ExecuteScheduleAction`, up to the dispatch. -/
def load (found : Loaded) : Option Job :=
  match job.pc with
  | .loading run current =>
    match found with
    | .raised => some { job with pc := .done (some run.schedule.serverId) }
    | .skipped => some { job with pc := .executed run ⟨.skipped, true⟩ clock }
    | .dispatched =>
      match run with
      | .due d _ => some { job with pc := .executing run, log := .dispatched d current :: job.log }
      | .retry _ => some { job with pc := .executing run }
  | _ => none

/-- The action is over. -/
def finish (result : ActionResult) : Option Job :=
  match job.pc with
  | .executing run => some { job with pc := .executed run result clock }
  | _ => none

/-- The row of an enabled schedule, advanced. -/
def advanced (row : Schedule) (enabled : row.enabled = true) (next : Instant) (lastRunAt : Option Instant) : Schedule :=
  { row with
    nextRunAt := some next
    lastRunAt := lastRunAt
    undue := fun h => by
      rw [enabled] at h
      cases h }

/-- `advance_run_state`: `WHERE enabled AND next_run_at = fired`. -/
def advanceRunState (row : Schedule) (fired next : Instant) (lastRunAt : Option Instant) : Schedule :=
  if h : row.enabled = true ∧ row.nextRunAt = some fired then advanced row h.1 next lastRunAt else row

/-- `_advance`. -/
def advance (d : Due) (lastRunAt : Option Instant) (row : Schedule) : Schedule :=
  match d.schedule.nextRunAt with
  | none => row
  | some fired => advanceRunState row fired (nextAfter t d.schedule clock) lastRunAt

/-- The transaction of `_record`. -/
def record : Option Job :=
  match job.pc with
  | .executed (.due d lastRunAt) result finishedAt =>
    let row := job.row.map (advance t clock d lastRunAt)
    let log := if result.outcome = .success && d.schedule.action = .backup then .succeeded :: job.log else job.log
    some { job with
      row := row
      pc := .recorded (.due d lastRunAt) result finishedAt job.row.isSome
      log := .handled (job.version ≠ d.version) row clock :: log }
  | .executed (.retry schedule) result finishedAt =>
    some { job with pc := .recorded (.retry schedule) result finishedAt job.row.isSome }
  | _ => none

def rollback : Option Job :=
  match job.pc with
  | .executed run _ _ => some { job with pc := .done (some run.schedule.serverId) }
  | _ => none

/-- The notification of an outcome: of the first failure, and of the success behind it. -/
def notify (outcome : Outcome) : Job :=
  match outcome with
  | .success =>
    if job.notifying then { job with notifying := false, log := .notified .recovered :: job.log } else job
  | .failure => if job.notifying then job else { job with notifying := true, log := .notified .failed :: job.log }
  | .skipped => job

/-- `_reschedule_retry`. -/
def rescheduleRetry (result : ActionResult) (now : Instant) : Job :=
  if result.outcome = .failure && result.retryable then
    { job with retry := some (now + t.backupRetryDelay), log := .failed now :: job.log }
  else if result.outcome = .success then { job with retry := none }
  else job

/-- Behind the transaction: the rest of `_record`, and of `_run_due`. -/
def concluded (run : Run) (result : ActionResult) (finishedAt : Instant) (recorded : Bool) : Job :=
  let job := job.notify result.outcome
  let job := if recorded then job else job.forget
  if recorded && !run.isRetry && run.schedule.action = .backup then job.rescheduleRetry t result finishedAt else job

def conclude : Option Job :=
  match job.pc with
  | .recorded run result finishedAt recorded =>
    some { job.concluded t run result finishedAt recorded with pc := .done (some run.schedule.serverId) }
  | _ => none

/-- The loop over the pending retries; a schedule that this tick handled is passed over. -/
def retryDue (now : Instant) : Option Job :=
  match job.pc, job.retry with
  | .idle, some retryAt => if retryAt ≤ now then some { job with retry := none, pc := .starting .retry } else none
  | _, _ => none

/-- The schedule behind a step, if it can be taken. -/
def next : Step → Option Job
  | .create row => some { job with row := some row }
  | .delete => some { job with row := none }
  | .start => job.start clock
  | .claim => job.claim
  | .fail => job.fail
  | .dispatch => job.dispatch clock
  | .load found => job.load clock found
  | .finish result => job.finish clock result
  | .record => job.record t clock
  | .rollback => job.rollback
  | .conclude => job.conclude t
  | .retry now => job.retryDue now

end Job

/-! ## The process -/

def Origin.server : Origin → Option ServerId
  | .due d => some d.schedule.serverId
  | .retry => none

namespace Pc

/-- Whose group it is in. -/
def server : Pc → Option ServerId
  | .idle => none
  | .queued d => some d.schedule.serverId
  | .starting o | .claimed o _ => o.server
  | .loading run _ | .executing run | .executed run _ _ | .recorded run _ _ _ => some run.schedule.serverId
  | .done server => server

def isQueued : Pc → Bool
  | .queued _ => true
  | _ => false

/-- Nothing is under way. -/
def isOver : Pc → Bool
  | .idle | .done _ => true
  | _ => false

def isRetry : Pc → Bool
  | .starting .retry | .claimed .retry _ => true
  | .loading run _ | .executing run | .executed run _ _ | .recorded run _ _ _ => run.isRetry
  | _ => false

end Pc

/-- An edit in flight. -/
inductive Edit
  /-- The row has been read, unlocked. -/
  | loaded (existing : Schedule)
  /-- Its clock has been read, and the new row is made. -/
  | built (updated : Schedule)
  deriving DecidableEq

/-- What `UpdateSchedule` makes of a row. -/
def Edited (t : RunScheduleTick) (existing updated : Schedule) (now : Instant) : Prop :=
  updated.id = existing.id ∧ updated.serverId = existing.serverId ∧ updated.action = existing.action ∧
    updated.lastRunAt = existing.lastRunAt ∧
    updated.nextRunAt = if updated.enabled then some (nextAfter t updated now) else none

instance (t : RunScheduleTick) (existing updated : Schedule) (now : Instant) :
    Decidable (Edited t existing updated now) :=
  inferInstanceAs (Decidable (_ ∧ _))

inductive Phase
  | idle
  /-- A tick has begun at `now`, the one before at `prev`. -/
  | polling (now : Instant) (prev : Option Instant)
  /-- The due schedules run. -/
  | running (now : Instant) (prev : Option Instant)
  /-- The pending retries run, one after the other. -/
  | retrying (now : Instant) (busy : Option ScheduleId)
  deriving DecidableEq

structure State where
  clock : Instant
  /-- The schedules there have ever been. -/
  ids : List ScheduleId
  jobs : ScheduleId → Job
  edits : ℕ → Option Edit := fun _ => none
  /-- `_last_tick_at`. -/
  lastTickAt : Option Instant := none
  phase : Phase := .idle
  /-- Who holds `_bookkeeping_lock`. -/
  held : Option ScheduleId := none

/-- The process begins, on the rows that there are. -/
def State.start (clock : Instant) (rows : List Schedule) : State where
  clock := clock
  ids := rows.map (·.id)
  jobs := fun id =>
    match rows.find? (·.id = id) with
    | none => {}
    | some row => { row := some row }

namespace State

variable (s : State)

def pc (id : ScheduleId) : Pc := (s.jobs id).pc

def put (id : ScheduleId) (job : Job) : State :=
  { s with jobs := fun other => if other = id then job else s.jobs other }

/-- What becomes of the edit `k`. -/
def putEdit (k : ℕ) (edit : Option Edit) : State := { s with edits := fun i => if i = k then edit else s.edits i }

/-- The group of the server has begun and is not over: it is in the semaphore. -/
def groupOpen (server : ServerId) : Bool :=
  (s.ids.any fun id => (s.pc id).server = some server && !(s.pc id).isQueued) &&
    s.ids.any fun id => (s.pc id).server = some server && !(s.pc id).isOver

/-- The turn of a due schedule has come: the ones of its server that are before it are over, and so is the run of every
other; and its group is in the semaphore, or there is room. -/
def mayStart (id : ScheduleId) (schedule : Schedule) : Bool :=
  (s.ids.all fun other => other = id || (s.pc other).server ≠ some schedule.serverId ||
    match s.pc other with
    | .queued d => soonest schedule d.schedule
    | pc => pc.isOver) &&
  (s.groupOpen schedule.serverId ||
    ((s.ids.filterMap fun other => (s.pc other).server).dedup.filter s.groupOpen).length < maxConcurrentRuns)

/-- Is nobody else in the bookkeeping? The retries do not ask. -/
def free (id : ScheduleId) : Bool := (s.pc id).isRetry || s.held.isNone

/-- May the step be taken now? -/
def allows (id : ScheduleId) : Step → Bool
  | .create row => row.id = id && id ∉ s.ids
  | .start =>
    match s.phase, s.pc id with
    | .running _ _, .queued d => s.mayStart id d.schedule
    | _, _ => false
  | .claim | .fail | .record | .rollback => s.free id
  | .retry now =>
    match s.phase with
    | .retrying tick busy => now = tick && busy.all fun other => (s.pc other).isOver
    | _ => false
  | .delete | .dispatch | .load _ | .finish _ | .conclude => true

/-- What else the step changes. -/
def after (id : ScheduleId) : Step → State
  | .create _ => { s with ids := id :: s.ids }
  | .claim | .record => if (s.pc id).isRetry then s else { s with held := some id }
  | .dispatch | .conclude => if (s.pc id).isRetry then s else { s with held := none }
  | .retry _ =>
    match s.phase with
    | .retrying now _ => { s with phase := .retrying now (some id) }
    | _ => s
  | .delete | .start | .fail | .load _ | .finish _ | .rollback => s

end State

inductive Action
  /-- Time passes. -/
  | elapse (d : ℕ)
  /-- The edit `k` reads its row. -/
  | read (k : ℕ) (id : ScheduleId)
  /-- It reads the clock and makes the new row. -/
  | build (k : ℕ) (updated : Schedule)
  /-- It writes and commits. -/
  | write (k : ℕ)
  /-- A tick begins. -/
  | begin
  /-- Its poll has its rows. -/
  | list
  /-- Its poll raises. -/
  | unlisted
  | job (id : ScheduleId) (step : Step)
  /-- The due schedules are over. -/
  | retries
  /-- The tick is over. -/
  | leave
  deriving DecidableEq

/-- The state behind an action, if it can be taken. -/
def next (t : RunScheduleTick) (s : State) : Action → Option State
  | .elapse d => some { s with clock := s.clock + d }
  | .read k id => (s.jobs id).row.map fun row => s.putEdit k (some (.loaded row))
  | .build k updated =>
    match s.edits k with
    | some (.loaded existing) =>
      if Edited t existing updated s.clock then some (s.putEdit k (some (.built updated))) else none
    | _ => none
  | .write k =>
    match s.edits k with
    | some (.built updated) => some ((s.putEdit k none).put updated.id ((s.jobs updated.id).update updated))
    | _ => none
  | .begin =>
    match s.phase with
    | .idle => some { s with lastTickAt := some s.clock, phase := .polling s.clock s.lastTickAt }
    | _ => none
  | .list =>
    match s.phase with
    | .polling now prev => some { s with jobs := fun id => (s.jobs id).list now prev, phase := .running now prev }
    | _ => none
  | .unlisted =>
    match s.phase with
    | .polling _ _ => some { s with phase := .idle }
    | _ => none
  | .job id step =>
    if s.allows id step then ((s.jobs id).next t s.clock step).map fun job => (s.after id step).put id job else none
  | .retries =>
    match s.phase with
    | .running now _ =>
      if s.ids.all fun id => (s.pc id).isOver then some { s with phase := .retrying now none } else none
    | _ => none
  | .leave =>
    match s.phase with
    | .retrying now busy =>
      if (busy.all fun id => (s.pc id).isOver) && s.ids.all fun id => ((s.jobs id).retryDue now).isNone then
        some { s with phase := .idle }
      else none
    | _ => none

/-- The scheduler of one process, with what the others do to its rows. -/
def runner (t : RunScheduleTick) : Machine State Action where
  pre s a := (next t s a).isSome = true
  post s a := (next t s a).getD s

instance (t : RunScheduleTick) (s : State) (a : Action) : Decidable ((runner t).pre s a) :=
  inferInstanceAs (Decidable (_ = true))

end McServerDashboard.Schedules.Runner
