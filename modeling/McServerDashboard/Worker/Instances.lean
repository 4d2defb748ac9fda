import McServerDashboard.Lib.Threads
import Mathlib.Data.Nat.Notation
import Mathlib.Tactic.SplitIfs

/-!
# The instances of one server on a Worker

Starts, stops, restarts, hydrates, stopped-id snapshots and scratch reclaims of one server id, the
orphan converger, the pumps of its instances and the manager's `Close`, each a thread over the
manager's maps at this id: `instances`, `reserved`, `orphans`, and the ledger of save-offs.

Commands of a dropped stream may still be running beside those of a new one, so any number of each may
be in flight. A driver call may take as long as it likes; an instance may exit at any time. A driver
`Start` that fails leaves no process and a driver `Stop` that succeeds leaves none.
-/

namespace McServerDashboard.Worker.Instances

open Lib

local instance (priority := 2000) lawfulBEq_line : @LawfulBEq (ℕ × ℕ) instBEqProd := inferInstance

inductive Answer
  | success
  | invalidState
  | busy
  | serverNotFound
  | driverUnavailable
  | internal
  deriving DecidableEq

structure State where
  /-- The maps at this id. A reservation names the thread that took it (a ghost: the code keeps a flag). -/
  instances : Option ℕ
  reserved : Option ℕ
  orphan : Option ℕ
  converging : Bool
  /-- A converger was started and has not run yet. -/
  spawned : Bool
  closed : Bool
  /-- The ledger: the generations in `pendingSaveOn` and `unsettledSaveOff`, `saveOffSeq`, `saveOnSealed`
  and the `written` edges. -/
  pending : Option ℕ
  unsettled : Option ℕ
  seq : ℕ
  sealed : Bool
  written : ℕ → Bool
  /-- The restores that `Close` has started. -/
  restores : List ℕ
  /-- The instances are numbered as they are launched; those whose process is gone. -/
  launched : ℕ
  dead : ℕ → Bool
  /-- Those known to have exited, and the one that the reservation's thread holds (ghosts). -/
  gone : ℕ → Bool
  held : Option ℕ
  /-- The save-off about to be sent; the save-offs sent; those that no save-on has made up for, with
  their instances; those that no save-on was tried for since they were sent, or since the stop of their
  instance failed; `seq` at the seal (ghosts). -/
  due : Option ℕ
  sent : List ℕ
  outstanding : List (ℕ × ℕ)
  untried : List ℕ
  sealedAt : Option ℕ

/-! ## Positions -/

/-- Who runs `attemptStop`: `StopServer`, the stop phase of `RestartServer`, the converger. -/
inductive Op
  | stop
  | restart
  | retry
  deriving DecidableEq

/-- Who restores save-on: a failed stop, or `Close`. -/
inductive Restorer
  | lane (op : Op) (i : ℕ)
  | close
  deriving DecidableEq

/-- `attemptStop` of an instance. -/
inductive StopPc
  | begin (graceful : Bool)
  /-- `flushBeforeStopWithDriver`. -/
  | opening
  | marking
  | saveOff (gen : ℕ)
  | saveOffWritten (gen : ℕ)
  | terminating
  | failed
  | recorded
  | stopped
  deriving DecidableEq

/-- `dialAndSaveOn` and what settles it, for the save-offs up to a generation; `covers` are those that
were sent before its save-on (a ghost). -/
inductive RestorePc
  | dialing (gen : ℕ)
  | sending (gen : ℕ)
  | sent (gen : ℕ) (covers : List (ℕ × ℕ))
  | settling (gen : ℕ)
  deriving DecidableEq

/-- What works on the scratch of an id that runs nothing. -/
inductive Work
  | hydrate
  | snapshot
  | reclaim
  deriving DecidableEq

inductive Pc
  | idle
  /-- `launchReserved`: the marker is checked, the driver starts, the instance is registered. -/
  | launching
  | starting
  | created (i : ℕ)
  | started (i : ℕ)
  /-- `handleRestart` has taken the instance and looks its driver up. -/
  | validating (i : ℕ)
  | stop (op : Op) (i : ℕ) (k : StopPc)
  | restore (r : Restorer) (k : RestorePc)
  /-- The stop has ended, confirmed or not. -/
  | releasing (op : Op) (i : ℕ) (stopped : Bool)
  | working (k : Work)
  /-- `convergeOrphan`: the orphan that the flags are of, and whether its last probe said dead. -/
  | parked (probed : Option ℕ) (sawDead : Bool)
  | probing (i : ℕ) (sawDead : Bool)
  | retrying (i : ℕ)
  | retiring (i : ℕ)
  /-- `Close`. -/
  | draining
  | sealing
  /-- `restoreSaveOnWhileClosing`: the wait for the save-off's write. -/
  | holding (gen : ℕ)
  | «over» (r : Answer)
  deriving DecidableEq

/-- What a step leaves open. -/
structure Choice where
  ok : Bool
  flag : Bool
  deriving DecidableEq

inductive Action
  | start
  | stopServer (graceful : Bool)
  | restart
  | work (k : Work)
  | converge
  | close
  /-- A restore that `Close` has started runs. -/
  | restore
  | step (x : Choice)
  /-- The process of an instance ends. -/
  | exit (i : ℕ)
  /-- The pump of an instance sees its crash, or the end of its events. -/
  | crashed (i : ℕ)
  | ended (i : ℕ)
  /-- A save-off of another server. -/
  | otherSaveOff
  deriving DecidableEq

/-! ## The manager's critical sections -/

/-- `reserve`. -/
def State.reserve (t : ℕ) (s : State) (p : Pc) : State × Pc :=
  if s.instances ≠ none then (s, .over .invalidState)
  else if s.orphan ≠ none then (s, .over .busy)
  else if s.reserved ≠ none then (s, .over .busy)
  else ({ s with reserved := some t }, p)

/-- `release`. -/
def State.release (s : State) : State := { s with reserved := none, held := none }

/-- The reservation of a command that takes an instance. -/
def State.take (t : ℕ) (s : State) (i : ℕ) : State := { s with reserved := some t, held := some i }

/-- `takeStoppableReserve`. -/
def State.takeStoppableReserve (t : ℕ) (s : State) (graceful : Bool) : State × Pc :=
  match s.instances with
  | some i => ({ s with instances := none }.take t i, .stop .stop i (.begin graceful))
  | none =>
    if s.reserved ≠ none then (s, .over .busy)
    else
      match s.orphan with
      | some i => (s.take t i, .stop .stop i (.begin graceful))
      | none => (s, .over .serverNotFound)

/-- `takeRunningReserve`. -/
def State.takeRunningReserve (t : ℕ) (s : State) : State × Pc :=
  match s.instances with
  | some i => ({ s with instances := none }.take t i, .validating i)
  | none =>
    if s.reserved ≠ none then (s, .over .busy)
    else if s.orphan ≠ none then (s, .over .invalidState)
    else (s, .over .serverNotFound)

/-- `takeOrphanReserve`, or the round is skipped. -/
def State.takeOrphanReserve (t : ℕ) (s : State) (i : ℕ) : State × Pc :=
  if s.reserved ≠ none then (s, .parked (some i) false)
  else if s.orphan = some i then (s.take t i, .stop .retry i (.begin true))
  else (s, .parked (some i) false)

/-- `restoreRunning`, and the registration of a started instance. -/
def State.register (s : State) (i : ℕ) : State := { s.release with instances := some i }

/-- `clearPendingSaveOnLocked`. -/
def State.clearPendingSaveOn (s : State) : State :=
  { s with pending := none, unsettled := none }

/-- Instance `i` is known to have exited. -/
def State.know (s : State) (i : ℕ) : State := { s with gone := Function.update s.gone i true }

/-- The process of instance `i` is gone. -/
def State.die (s : State) (i : ℕ) : State := { s with dead := Function.update s.dead i true }

/-- `forgetIf`. -/
def State.forgetIf (s : State) (i : ℕ) : State :=
  if s.instances = some i then { s with instances := none } else s

/-- `forgetOrphanIf`. -/
def State.forgetOrphanIf (s : State) (i : ℕ) : State :=
  if s.orphan = some i then { s with orphan := none }.clearPendingSaveOn else s

/-- `recordOrphan`, after which a save-on is due for every save-off. -/
def State.recordOrphan (s : State) (i : ℕ) : State :=
  if s.converging || s.closed then { s with orphan := some i, untried := s.outstanding.map Prod.fst }
  else
    { s with
      orphan := some i
      untried := s.outstanding.map Prod.fst
      converging := true
      spawned := true }

/-- `markPendingSaveOn` of a ledger that is not sealed. -/
def State.markPendingSaveOn (s : State) : State :=
  { s with
    seq := s.seq + 1
    pending := some (s.seq + 1)
    unsettled := some (s.seq + 1)
    due := some (s.seq + 1) }

/-- The write of a save-off to instance `i`. -/
def State.writeSaveOff (s : State) (i gen : ℕ) : State :=
  { s with
    due := none
    sent := gen :: s.sent
    outstanding := (gen, i) :: s.outstanding
    untried := gen :: s.untried }

/-- `settleSaveOff`. -/
def State.settleSaveOff (s : State) (gen : ℕ) : State :=
  { s with
    unsettled := s.unsettled.filter (gen < ·)
    pending := s.pending.filter (gen < ·) }

/-- `drainPendingSaveOn`. -/
def State.drainPendingSaveOn (s : State) : State :=
  { s with pending := none, restores := s.pending.toList ++ s.restores }

/-! ## Steps -/

/-- The next step of `attemptStop`. -/
def stopStep (s : State) (x : Choice) (op : Op) (i : ℕ) : StopPc → State × Pc
  | .begin graceful =>
    -- The driver does not flush an instance that has ended.
    (s, .stop op i (if graceful && x.ok then .opening else .terminating))
  | .opening => (s, .stop op i (if x.ok then .marking else .terminating))
  | .marking =>
    if s.sealed then (s, .stop op i .terminating)
    else (s.markPendingSaveOn, .stop op i (.saveOff (s.seq + 1)))
  | .saveOff gen =>
    (if x.ok then s.writeSaveOff i gen else { s with due := none }, .stop op i (.saveOffWritten gen))
  | .saveOffWritten gen =>
    ({ s with written := Function.update s.written gen true }, .stop op i .terminating)
  | .terminating => if x.ok then (s.die i, .stop op i .stopped) else (s, .stop op i .failed)
  | .failed => (s.recordOrphan i, .stop op i .recorded)
  | .recorded =>
    match s.unsettled with
    | some gen => (s, .restore (.lane op i) (.dialing gen))
    | none => (s, .releasing op i false)
  | .stopped =>
    ({ { s with orphan := none }.clearPendingSaveOn.know i with held := none },
      if op = .restart then .launching else .releasing op i true)

/-- Where a restore ends. -/
def Restorer.over : Restorer → Pc
  | .lane op i => .releasing op i false
  | .close => .over .success

/-- The next step of a restore. -/
def restoreStep (s : State) (x : Choice) (r : Restorer) : RestorePc → State × Pc
  | .dialing gen => ({ s with untried := [] }, if x.ok then .restore r (.sending gen) else r.over)
  | .sending gen => ({ s with untried := [] }, .restore r (.sent gen s.outstanding))
  | .sent gen covers =>
    if x.ok then
      ({ s with outstanding := s.outstanding.filter (· ∉ covers) }, .restore r (.settling gen))
    else (s, r.over)
  | .settling gen => (s.settleSaveOff gen, r.over)

/-- The next step of a thread. -/
def advance (t : ℕ) (s : State) (x : Choice) : Pc → State × Pc
  | .launching => if x.ok then (s, .starting) else (s.release, .over .serverNotFound)
  | .starting =>
    if x.ok then ({ s with launched := s.launched + 1, held := some s.launched }, .created s.launched)
    else (s.release, .over .internal)
  | .created i =>
    if x.ok then (s, .started i)
    else (((s.die i).know i).release, .over .internal)
  | .started i => (s.register i, .over .success)
  | .validating i =>
    if x.ok then (s, .stop .restart i (.begin true))
    else (s.register i, .over (if x.flag then .driverUnavailable else .internal))
  | .stop op i k => stopStep s x op i k
  | .restore r k => restoreStep s x r k
  | .releasing op i stopped =>
    (s.release,
      if op = .retry then .parked (some i) false else .over (if stopped then .success else .internal))
  | .working _ => (s.release, .over (if x.ok then .success else .internal))
  | .parked probed sawDead =>
    if s.closed && x.flag then (s, .over .success)
    else
      match s.orphan with
      | none => ({ s with converging := false }, .over .success)
      | some i => (s, .probing i (sawDead && probed = some i))
  | .probing i sawDead =>
    -- The probe answers, or cannot.
    if x.ok then
      if x.flag && s.dead i then (s, if sawDead then .retiring i else .parked (some i) true)
      else (s, .retrying i)
    else (s, .parked (some i) false)
  | .retrying i => s.takeOrphanReserve t i
  | .retiring i => ((s.forgetOrphanIf i).know i, .parked (some i) true)
  | .draining => (s.drainPendingSaveOn, .sealing)
  | .sealing =>
    ({ s.drainPendingSaveOn with
        sealed := true
        sealedAt := s.sealedAt.or (some s.seq) }, .over .success)
  | .holding gen =>
    (s, if x.ok && s.written gen then .restore .close (.dialing gen) else .over .success)
  | p => (s, p)

def Pc.rests : Pc → Bool
  | .idle => true
  | .over _ => true
  | _ => false

def pre (s : State) (p : Pc) : Action → Prop
  | .start => p = .idle
  | .stopServer _ => p = .idle
  | .restart => p = .idle
  | .work _ => p = .idle
  | .converge => p = .idle ∧ s.spawned = true
  | .close => p = .idle
  | .restore => p = .idle ∧ s.restores ≠ []
  | .step _ => p.rests = false
  | .exit i => i < s.launched
  | .crashed i => s.dead i = true
  | .ended i => s.dead i = true
  | .otherSaveOff => s.sealed = false

def post (t : ℕ) (s : State) (p : Pc) : Action → State × Pc
  | .start => s.reserve t .launching
  | .stopServer graceful => s.takeStoppableReserve t graceful
  | .restart => s.takeRunningReserve t
  | .work k => s.reserve t (.working k)
  | .converge => ({ s with spawned := false }, .parked none false)
  | .close => ({ s with closed := true }, .draining)
  | .restore =>
    match s.restores with
    | gen :: l => ({ s with restores := l }, .holding gen)
    | [] => (s, p)
  | .step x => advance t s x p
  | .exit i => (s.die i, p)
  | .crashed i => ((s.forgetIf i).know i, p)
  | .ended i => ((s.forgetOrphanIf i).know i, p)
  | .otherSaveOff => ({ s with seq := s.seq + 1 }, p)

def threads : Threads State Pc Action := ⟨fun _ => pre, post⟩

instance (s : State) (p : Pc) (a : Action) : Decidable (pre s p a) := by
  cases a <;> unfold pre <;> infer_instance

instance (t : ℕ) (s : State) (p : Pc) (a : Action) : Decidable (threads.pre t s p a) :=
  inferInstanceAs (Decidable (pre s p a))

abbrev Conf := Threads.Config State Pc

/-- A Worker that has just started. -/
def start : Conf :=
  ⟨⟨none, none, none, false, false, false, none, none, 0, false, fun _ => false, [], 0, fun _ => false,
    fun _ => false, none, none, [], [], [], none⟩, fun _ => .idle⟩

end McServerDashboard.Worker.Instances
