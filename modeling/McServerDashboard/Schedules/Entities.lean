import McServerDashboard.Lib.Characters
import McServerDashboard.Properties.Escapes
import McServerDashboard.Servers.Entities

/-!
# Schedules

A schedule runs one action on one server, on a cron expression or at a fixed interval. Instants
are whole microseconds since the epoch, ids are numbers.

* `WarningStep`, `Schedule`: the entities with what their constructors check.
* `isRunning`: the predicate of the server row that the runner gates on.
-/

namespace McServerDashboard.Schedules

open Lib Lib.Properties Properties Servers

abbrev ScheduleId := ℕ
abbrev ServerId := ℕ

/-- Microseconds since the epoch. -/
abbrev Instant := ℤ

/-- `timedelta(minutes=n)`. -/
def minutes (n : ℤ) : ℤ := n * 60000000

/-- `timedelta(seconds=n)`. -/
def seconds (n : ℤ) : ℤ := n * 1000000

/-- What a schedule does when it fires. -/
inductive ScheduleAction
  | command
  | start
  | stop
  | restart
  | backup
  deriving DecidableEq

/-- `MAX_WARNING_STEPS`. -/
def maxWarningSteps : ℕ := 5

/-- `MAX_WARNING_OFFSET_MINUTES`. -/
def maxWarningOffsetMinutes : ℤ := 120

/-- `WARNING_COMMAND_PREFIX`. -/
def warningCommandPrefix : Str := str "say "

/-- `MIN_INTERVAL_SECONDS`. -/
def minIntervalSeconds : ℕ := 60

/-- Neither of the line breaks that would smuggle in a second console line. -/
def SingleLine (line : Str) : Prop := ∀ c ∈ line, c.val ≠ 10 ∧ c.val ≠ 13

instance (line : Str) : Decidable (SingleLine line) := List.decidableBAll _ line

/-- When a schedule fires. -/
inductive Cadence
  | cron (expr : Str) (notBlank : strip expr ≠ [])
  | interval (seconds : ℕ) (floor : minIntervalSeconds ≤ seconds)
  deriving DecidableEq

/-- A player warning, broadcast before the action of a stop or restart schedule. -/
structure WarningStep where
  offsetMinutes : ℤ
  message : Str
  positive : 1 ≤ offsetMinutes
  bounded : offsetMinutes ≤ maxWarningOffsetMinutes
  notBlank : strip message ≠ []
  singleLine : SingleLine message
  deriving DecidableEq

/-- A row of the `schedule` table. -/
structure Schedule where
  id : ScheduleId
  serverId : ServerId
  action : ScheduleAction
  cadence : Cadence
  timezone : Str
  enabled : Bool
  command : Option Str
  warningSteps : List WarningStep
  onlyWhenRunning : Option Bool
  nextRunAt : Option Instant
  lastRunAt : Option Instant
  /-- A command schedule has a line, and no other has. -/
  carriesLine : if action = .command then ∃ line, command = some line ∧ strip line ≠ [] ∧ SingleLine line
    else command = none
  warns : warningSteps ≠ [] → action = .stop ∨ action = .restart
  gated : onlyWhenRunning.isSome = decide (action = .backup)
  few : warningSteps.length ≤ maxWarningSteps
  /-- The offsets of the steps are distinct. -/
  distinct : (warningSteps.map (·.offsetMinutes)).Nodup
  /-- A disabled schedule is not due. -/
  undue : enabled = false → nextRunAt = none
  deriving DecidableEq

/-- What the runner reads of a server row. -/
structure Server where
  communityId : ℕ
  desiredState : DesiredState
  observedState : ObservedState
  assignedWorkerId : Option ℕ
  deriving DecidableEq

/-- `_is_running`: settled-running. -/
def isRunning (server : Server) : Bool :=
  server.desiredState = .running && server.observedState = .running && server.assignedWorkerId.isSome

end McServerDashboard.Schedules
