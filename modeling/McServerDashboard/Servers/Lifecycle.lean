import McServerDashboard.Lib.Threads
import McServerDashboard.Servers.Row

/-!
# The lifecycle flows of one server

Starts, placements, redispatches, restarts, drains, settings updates, stops, stale-assignment clears
and late snapshot results of one server, each flow a thread over the row, the lifecycle lock, the
stop-convergence guard and the control plane's records of final snapshots.

A flow reads the row, waits for the network as long as it takes and then writes. Every answer of a
Worker may be any; status reports, disconnects and restarts of the API come at any time.
-/

namespace McServerDashboard.Lifecycle

open Lib Servers

/-- The state of a command's future. -/
inductive Future
  | waiting
  | result
  | failed
  | cancelled
  deriving DecidableEq

structure State where
  row : Row
  /-- The lifecycle lock. -/
  lock : Option ℕ
  /-- The flow in `_claims`, and the one whose release is in `_shielded`. -/
  claims : Option ℕ
  shielded : Option ℕ
  /-- The Workers with an open session. -/
  session : WorkerId → Bool
  /-- The final-snapshot commands, by the number of the flow that sent each: `_pending`,
  `_snapshot_servers`, `_late_snapshots`. -/
  pending : List (ℕ × WorkerId)
  snapshotServers : List (ℕ × WorkerId)
  lateSnapshots : List (ℕ × WorkerId)
  future : ℕ → Future
  /-- Those in the outbound queue, and those sent and not answered yet. -/
  queue : List (ℕ × WorkerId)
  sent : List (ℕ × WorkerId)
  /-- The next placement's number, the Worker of each placement, and the starts sent (ghosts). -/
  nextPlacement : ℕ
  home : ℕ → WorkerId
  started : List (ℕ × WorkerId)
  /-- The settings updates that were acknowledged (a ghost). -/
  acked : List ℕ

/-- A final snapshot was dispatched, and its result has not come in on its session. -/
def State.Outstanding (s : State) : Prop := s.queue ≠ [] ∨ s.sent ≠ []

/-- `in_flight`. -/
def State.inFlight (s : State) : Bool :=
  s.claims.isSome || s.shielded.isSome || !s.snapshotServers.isEmpty || !s.lateSnapshots.isEmpty

/-! ## Positions -/

inductive Kind
  /-- `StartServer.__call__`, `place_and_start`, `redispatch_start`. -/
  | start
  | place
  | redispatch
  deriving DecidableEq

/-- What a launch works on: the Worker, the placement, whether the start was attempted and whether
the hydrate was skipped. -/
structure Launch where
  kind : Kind
  worker : WorkerId
  placement : ℕ
  attempted : Bool
  skip : Bool
  deriving DecidableEq

/-- The assignment that a stop-side flow is about to release. -/
structure Hold where
  worker : WorkerId
  placement : ℕ
  deriving DecidableEq

inductive StopFlow
  | stop
  | redispatchStop
  | clearStale
  deriving DecidableEq

/-- What a final snapshot is for. -/
inductive Purpose
  /-- The release of a stop, if `gate` (`at_rest_under_us`, or a confirmed stop). -/
  | release (gate : Bool)
  /-- Step B of a stale-assignment clear, with the observed state of step A. -/
  | stale (o : ObservedState)
  deriving DecidableEq

inductive Pc
  | idle
  /-- A placement: the lock is held; the row is read. -/
  | locked (k : Kind)
  | placing (k : Kind) (r : Row)
  /-- A launch: the read of the generations, the hydrate, the start. -/
  | generation (l : Launch)
  | hydrating (l : Launch)
  | toStart (l : Launch)
  | starting (l : Launch)
  | recordRunning (l : Launch)
  | compensate (l : Launch)
  | compensating (l : Launch) (r : Row)
  | unassign (l : Launch)
  | unassigning (l : Launch) (r : Row)
  | restarting (r : Row)
  | draining (r : Row)
  /-- A settings update: the lock is held; the row is read. -/
  | updateLocked
  | updating (r : Row)
  /-- The flow has the claim and has read nothing yet. -/
  | claimed (f : StopFlow)
  | flipping (r : Row)
  | stopSent (h : Hold)
  | confirmed (h : Hold)
  | notFound (h : Hold)
  | notFoundWrite (h : Hold)
  | toSnapshot (h : Hold) (p : Purpose)
  | snapshotting (h : Hold) (p : Purpose)
  /-- The wait is over its time, or its caller is cancelled: `discard_pending` is due. -/
  | timedOut (h : Hold) (p : Purpose)
  | abandoning (h : Hold)
  /-- The shielded release, with or without its caller. -/
  | clearing (h : Hold) (caller : Bool)
  | cleared (caller : Bool)
  | staleClear (h : Hold) (o : ObservedState)
  | lateClaimed (w : WorkerId)
  | lateClear (h : Hold)
  | «over»
  deriving DecidableEq

/-- The answer to a command, or that none came. -/
inductive Outcome
  | success
  | invalidState
  | busy
  | notFound
  /-- The refusal that names an absent working set. -/
  | absent
  | failed
  | unavailable
  deriving DecidableEq

/-- What a step leaves open: the Worker chosen, whether a fallible step succeeds, whether a hydrate
is skipped or a Worker connected, the clock. -/
structure Choice where
  worker : WorkerId
  ok : Bool
  flag : Bool
  now : ℕ
  deriving DecidableEq

inductive Action
  | startServer
  | placeAndStart
  | redispatchStart
  | restartServer
  | drain
  | updateServer
  | stopServer
  | redispatchStop
  | clearStale
  | step (x : Choice)
  | answer (o : Outcome)
  /-- The final snapshot is waited for too long. -/
  | timeout
  | cancel
  /-- The API goes down with the flow. -/
  | crash
  | report (w : WorkerId) (o : ObservedState) (now : ℕ)
  | markUnknown (w : WorkerId) (now : ℕ)
  | reset (now : ℕ)
  | openSession (w : WorkerId)
  | closeSession (w : WorkerId)
  /-- The session takes a message off its queue. -/
  | send (n : ℕ)
  /-- The result of command `n` comes in. -/
  | resolve (n : ℕ)
  deriving DecidableEq

/-! ## The control plane's records -/

/-- The table without command `n`. -/
def without (l : List (ℕ × WorkerId)) (n : ℕ) : List (ℕ × WorkerId) := l.filter (·.1 ≠ n)

/-- The table without the commands of `w`. -/
def apartFrom (l : List (ℕ × WorkerId)) (w : WorkerId) : List (ℕ × WorkerId) := l.filter (·.2 ≠ w)

/-- `discard_pending`. -/
def State.discardPending (s : State) (n : ℕ) : State :=
  { s with
    pending := without s.pending n
    snapshotServers := without s.snapshotServers n
    lateSnapshots := (s.snapshotServers.filter (·.1 = n)) ++ s.lateSnapshots }

/-- `_retire_worker_commands`; what is on the wire of the session is lost with it. -/
def State.retireWorkerCommands (s : State) (w : WorkerId) : State :=
  let gone := fun n => s.pending.any fun e => e.1 = n && e.2 = w
  { s with
    pending := apartFrom s.pending w
    snapshotServers := s.snapshotServers.filter fun e => !gone e.1
    lateSnapshots := apartFrom s.lateSnapshots w
    future := fun n => if gone n && s.future n = .waiting then .failed else s.future n
    queue := apartFrom s.queue w
    sent := apartFrom s.sent w }

/-- `_clear_on_late_snapshot`, and `clear_assignment_after_late_snapshot` up to its claim. -/
def State.clearOnLateSnapshot (t : ℕ) (s : State) (n : ℕ) : State × Pc :=
  match s.lateSnapshots.lookup n with
  | none => (s, .idle)
  | some w =>
    let s := { s with lateSnapshots := without s.lateSnapshots n }
    if s.inFlight then (s, .idle) else ({ s with claims := some t }, .lateClaimed w)

/-- `resolve`. -/
def State.resolve (t : ℕ) (s : State) (n : ℕ) : State × Pc :=
  let s := { s with sent := without s.sent n }
  match s.pending.lookup n with
  | none => s.clearOnLateSnapshot t n
  | some _ =>
    let snapshot := s.snapshotServers.filter (·.1 = n)
    let s := { s with pending := without s.pending n, snapshotServers := without s.snapshotServers n }
    if s.future n = .waiting then ({ s with future := Function.update s.future n .result }, .idle)
    else if s.future n = .cancelled then
      { s with lateSnapshots := snapshot ++ s.lateSnapshots }.clearOnLateSnapshot t n
    else (s, .idle)

/-- The session takes command `n` off its queue: `discard_if_stale`, or it is sent. -/
def State.send (s : State) (n : ℕ) : State :=
  if s.pending.any (·.1 = n) then
    { s with queue := without s.queue n, sent := s.queue.filter (·.1 = n) ++ s.sent }
  else { s with queue := without s.queue n, lateSnapshots := without s.lateSnapshots n }

/-- The dispatch of a final snapshot: the future, the record and the message. -/
def State.dispatchSnapshot (t : ℕ) (s : State) (w : WorkerId) : State :=
  { s with
    pending := (t, w) :: s.pending
    snapshotServers := (t, w) :: s.snapshotServers
    future := Function.update s.future t .waiting
    queue := (t, w) :: s.queue }

/-! ## Steps of a flow -/

/-- A write that may match nothing. -/
def State.write (s : State) (r : Option Row) : State := { s with row := r.getD s.row }

/-- The flow gives up its claim and ends. -/
def State.leave (s : State) : State × Pc := ({ s with claims := none }, .over)

/-- The flow gives up the lock and ends. -/
def State.unlock (s : State) : State × Pc := ({ s with lock := none }, .over)

/-- Where a launch that never reached the start goes. -/
def Launch.undo (l : Launch) : Pc :=
  match l.kind with
  | .start => .compensate l
  | .place => .unassign l
  | .redispatch => .over

/-- What the caller of `_launch` does with its outcome. -/
def Launch.settle (l : Launch) (o : Outcome) : Pc :=
  match o with
  | .success => .over
  | .unavailable => if l.attempted then .over else l.undo
  | o =>
    match l.kind with
    | .start =>
      if l.attempted && o = .invalidState then .recordRunning l
      else if l.attempted && o = .busy then .over
      else .compensate l
    | .place => if l.attempted then .over else .unassign l
    | .redispatch => if o = .invalidState then .recordRunning l else .over

/-- `stopped_intent_action`. -/
def stoppedIntentAction (r : Row) (connected : Bool) : Option StopFlow :=
  if r.assigned = none then none
  else if r.observed = .stopped || r.observed = .crashed then some .clearStale
  else if r.observed = .unknown || r.observed = .stopping then
    if connected then some .redispatchStop else some .clearStale
  else if connected then some .redispatchStop
  else none

/-- What follows the final snapshot; `live` says that its upload may still be going on. -/
def State.afterSnapshot (t : ℕ) (s : State) (h : Hold) (p : Purpose) (live : Bool) : State × Pc :=
  match p with
  | .release gate =>
    if gate && !live then ({ s with shielded := some t }, .clearing h true) else s.leave
  | .stale o => if live then s.leave else (s, .staleClear h o)

/-- The first read of a stop-side flow. -/
def State.readClaimed (s : State) (f : StopFlow) (connected : Bool) : State × Pc :=
  match s.row.assigned with
  | none => s.leave
  | some w =>
    let h : Hold := ⟨w, s.row.placement⟩
    match f with
    | .stop =>
      if s.row.desired = .running then (s, .flipping s.row)
      else
        match stoppedIntentAction s.row connected with
        | none => s.leave
        | some f => (s, .claimed f)
    | .redispatchStop => if s.row.desired = .stopped then (s, .stopSent h) else s.leave
    | .clearStale =>
      if s.row.desired = .stopped then
        if s.row.observed = .stopped || s.row.observed = .crashed then
          if connected then (s, .toSnapshot h (.stale s.row.observed))
          else (s, .staleClear h s.row.observed)
        else if s.row.observed = .unknown || s.row.observed = .stopping then
          -- The Worker may have come back since the row was selected.
          if connected then s.leave else (s, .staleClear h s.row.observed)
        else s.leave
      else s.leave

/-- The next step of a flow. -/
def advance (t : ℕ) (s : State) (x : Choice) : Pc → State × Pc
  | .locked .start =>
    if s.row.desired = .stopped ∧ s.row.assigned = none then (s, .placing .start s.row) else s.unlock
  | .locked _ =>
    if s.row.desired = .running ∧ s.row.assigned = none then (s, .placing .place s.row) else s.unlock
  | .placing k r =>
    let e := { r with desired := .running, assigned := some x.worker, placement := s.nextPlacement }
    match s.row.updateLifecycle e (if k = .start then .stopped else .running) true with
    | none => s.unlock
    | some row =>
      if x.ok then
        let l : Launch := ⟨k, x.worker, s.nextPlacement, false, false⟩
        ({ s with
            row := row
            lock := none
            nextPlacement := s.nextPlacement + 1
            home := Function.update s.home s.nextPlacement x.worker },
          if k = .start then .generation l else .hydrating l)
      else s.unlock
  | .generation l =>
    -- The reads fail, or say that the hydrate can be skipped, or that it cannot.
    (s, if x.ok then (if x.flag then .toStart { l with skip := true } else .hydrating l) else l.undo)
  | .toStart l =>
    ({ s with started := (l.placement, l.worker) :: s.started }, .starting { l with attempted := true })
  | .recordRunning l => (s.write (s.row.recordObservedState .running x.now false l.worker), .over)
  | .compensate l => (s, .compensating l s.row)
  | .compensating _ r =>
    (s.write (s.row.updateLifecycle { r with desired := .stopped, assigned := none } .running false), .over)
  | .unassign l => (s, if s.row.assigned = some l.worker then .unassigning l s.row else .over)
  | .unassigning _ r => (s.write (s.row.updateLifecycle { r with assigned := none } .running false), .over)
  -- The restart command that follows changes no row.
  | .restarting r => (s.write (s.row.updateLifecycle r .running false), .over)
  -- `_mark_stopped`.
  | .draining r => (s.write (s.row.updateLifecycle { r with desired := .stopped } .running false), .over)
  | .updateLocked => (s, .updating s.row)
  | .updating r =>
    if x.ok then ({ s with row := s.row.update r.config t, acked := t :: s.acked, lock := none }, .over)
    else s.unlock
  | .claimed f => s.readClaimed f x.flag
  | .flipping r =>
    match s.row.updateLifecycle { r with desired := .stopped } .running false, r.assigned with
    | some row, some w => ({ s with row := row }, .stopSent ⟨w, r.placement⟩)
    | _, _ => s.leave
  | .confirmed h =>
    (s.write (s.row.recordObservedState .stopped x.now false h.worker), .toSnapshot h (.release true))
  | .notFound h =>
    (s, if s.row.assigned = some h.worker ∧ s.row.observed = .crashed then .toSnapshot h (.release true)
      else .notFoundWrite h)
  | .notFoundWrite h =>
    let r := s.row.recordObservedState .stopped x.now false h.worker
    (s.write r, .toSnapshot h (.release r.isSome))
  | .toSnapshot h p =>
    if s.session h.worker then (s.dispatchSnapshot t h.worker, .snapshotting h p)
    else s.afterSnapshot t h p false
  | .snapshotting h p => s.afterSnapshot t h p false
  | .timedOut h p => (s.discardPending t).afterSnapshot t h p true
  | .abandoning _ => (s.discardPending t).leave
  | .clearing h caller =>
    (if x.ok then s.write (s.row.clearAssignmentAfterFinalSnapshot h.worker) else s, .cleared caller)
  | .cleared caller =>
    ({ s with shielded := none, claims := if caller then none else s.claims }, .over)
  | .staleClear h o =>
    -- Step C.
    (if o = .stopping then s.write (s.row.recordObservedState .unknown x.now true h.worker)
      else s.write (s.row.clearAssignmentAfterFinalSnapshot h.worker)).leave
  | .lateClaimed w =>
    if s.row.desired = .stopped ∧ (s.row.observed = .stopped ∨ s.row.observed = .crashed) ∧
        s.row.assigned = some w then (s, .lateClear ⟨w, s.row.placement⟩)
    else s.leave
  | .lateClear h => (s.write (s.row.clearAssignmentAfterFinalSnapshot h.worker)).leave
  | p => (s, p)

/-- The position is one that goes on by itself. -/
def canAdvance (t : ℕ) (s : State) : Pc → Prop
  | .idle => False
  | .over => False
  | .hydrating _ => False
  | .starting _ => False
  | .stopSent _ => False
  | .snapshotting _ _ => s.future t = .result ∨ s.future t = .failed
  | _ => True

/-- What an answer does to a flow that waits for one. -/
def answered (s : State) (o : Outcome) : Pc → State × Pc
  | .hydrating l => (s, if o = .success then .toStart l else l.settle o)
  | .starting l =>
    (s, if o = .absent && l.skip then .hydrating { l with skip := false } else l.settle o)
  | .stopSent h =>
    match o with
    | .success => (s, .confirmed h)
    | .notFound => (s, .notFound h)
    | .absent => (s, .notFound h)
    | _ => s.leave
  | p => (s, p)

/-- A command of the flow is sent, and its answer is waited for. -/
def awaits : Pc → Bool
  | .hydrating _ => true
  | .starting _ => true
  | .stopSent _ => true
  | _ => false

def awaitsSnapshot : Pc → Bool
  | .snapshotting _ _ => true
  | _ => false

/-- The future of `t` is cancelled, unless it is done. -/
def State.cancelFuture (t : ℕ) (s : State) : State :=
  if s.future t = .waiting then { s with future := Function.update s.future t .cancelled } else s

/-- The caller is cancelled. -/
def cancelled (t : ℕ) (s : State) : Pc → State × Pc
  | .idle => (s, .idle)
  | .locked _ => s.unlock
  | .placing _ _ => s.unlock
  | .updateLocked => s.unlock
  | .updating _ => s.unlock
  | .claimed _ => s.leave
  | .flipping _ => s.leave
  | .stopSent _ => s.leave
  | .confirmed _ => s.leave
  | .notFound _ => s.leave
  | .notFoundWrite _ => s.leave
  | .toSnapshot _ _ => s.leave
  | .snapshotting h _ => (s.cancelFuture t, .abandoning h)
  | .timedOut h _ => (s, .abandoning h)
  | .abandoning h => (s, .abandoning h)
  -- The release outlives its caller.
  | .clearing h true => ({ s with claims := none }, .clearing h false)
  | .clearing h false => (s, .clearing h false)
  | .cleared true => ({ s with claims := none }, .cleared false)
  | .cleared false => (s, .cleared false)
  | .staleClear _ _ => s.leave
  | .lateClaimed _ => s.leave
  | .lateClear _ => s.leave
  | _ => (s, .over)

/-- The API goes down: what the flow holds in memory is gone, and its connection's locks with it. -/
def crashed (t : ℕ) (s : State) : State × Pc :=
  let gone := fun o : Option ℕ => if o = some t then none else o
  ({ s with lock := gone s.lock, claims := gone s.claims, shielded := gone s.shielded }, .over)

/-- `claim`, or the refusal. -/
def State.claim (t : ℕ) (s : State) (f : StopFlow) : State × Pc :=
  if s.inFlight then (s, .over) else ({ s with claims := some t }, .claimed f)

def pre (t : ℕ) (s : State) (p : Pc) : Action → Prop
  | .startServer => p = .idle ∧ s.lock = none
  | .placeAndStart => p = .idle ∧ s.lock = none
  | .redispatchStart => p = .idle
  | .restartServer => p = .idle
  | .drain => p = .idle
  | .updateServer => p = .idle ∧ s.lock = none
  | .stopServer => p = .idle
  | .redispatchStop => p = .idle
  | .clearStale => p = .idle
  | .step _ => canAdvance t s p
  | .answer _ => awaits p = true
  | .timeout => awaitsSnapshot p = true
  | .cancel => True
  | .crash => True
  | .report _ _ _ => True
  | .markUnknown _ _ => True
  | .reset _ => True
  | .openSession _ => True
  | .closeSession _ => True
  | .send n => ∃ w, (n, w) ∈ s.queue
  | .resolve n => p = .idle ∧ ∃ w, (n, w) ∈ s.sent

def post (t : ℕ) (s : State) (p : Pc) : Action → State × Pc
  | .startServer => ({ s with lock := some t }, .locked .start)
  | .placeAndStart => ({ s with lock := some t }, .locked .place)
  | .redispatchStart =>
    match s.row.desired, s.row.assigned with
    | .running, some w => (s, .generation ⟨.redispatch, w, s.row.placement, false, false⟩)
    | _, _ => (s, .over)
  | .restartServer =>
    (s, if s.row.desired = .running ∧ s.row.assigned ≠ none then .restarting s.row else .over)
  | .drain =>
    (s, if s.row.desired = .running ∧ s.row.assigned ≠ none then .draining s.row else .over)
  | .updateServer => ({ s with lock := some t }, .updateLocked)
  | .stopServer => s.claim t .stop
  | .redispatchStop => s.claim t .redispatchStop
  | .clearStale => s.claim t .clearStale
  | .step x => advance t s x p
  | .answer o => answered s o p
  | .timeout =>
    match p with
    | .snapshotting h q => (s.cancelFuture t, .timedOut h q)
    | p => (s, p)
  | .cancel => cancelled t s p
  | .crash => crashed t s
  | .report w o now => (s.write (s.row.recordObservedState o now false w), p)
  | .markUnknown w now => ({ s with row := s.row.markWorkerServersUnknown w now }, p)
  | .reset now => ({ s with row := s.row.resetUnverifiableObservedStates now }, p)
  | .openSession w =>
    ({ s.retireWorkerCommands w with session := Function.update s.session w true }, p)
  | .closeSession w =>
    ({ s.retireWorkerCommands w with session := Function.update s.session w false }, p)
  | .send n => (s.send n, p)
  | .resolve n => s.resolve t n

instance (t : ℕ) (s : State) (p : Pc) : Decidable (canAdvance t s p) := by
  cases p <;> unfold canAdvance <;> infer_instance

instance (n : ℕ) (l : List (ℕ × WorkerId)) : Decidable (∃ w, (n, w) ∈ l) :=
  decidable_of_iff (l.any (·.1 = n) = true) (by simp [List.any_eq_true])

instance (t : ℕ) (s : State) (p : Pc) (a : Action) : Decidable (pre t s p a) := by
  cases a <;> unfold pre <;> infer_instance

def threads : Threads State Pc Action := ⟨pre, post⟩

instance (t : ℕ) (s : State) (p : Pc) (a : Action) : Decidable (threads.pre t s p a) :=
  inferInstanceAs (Decidable (pre t s p a))

abbrev Conf := Threads.Config State Pc

/-- A server just registered: stopped and never placed. -/
def start : Conf :=
  ⟨⟨⟨.stopped, .stopped, none, none, [], 0, 0⟩, none, none, none, fun _ => false, [], [], [],
    fun _ => .waiting, [], [], 1, fun _ => 0, [], []⟩, fun _ => .idle⟩

end McServerDashboard.Lifecycle
