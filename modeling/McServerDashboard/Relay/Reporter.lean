import Mathlib.Data.Finset.Basic
import Mathlib.Data.Finset.Filter
import Mathlib.Data.Finset.Dedup
import Mathlib.Data.Finset.Lattice.Lemmas
import Mathlib.Data.Finset.Range
import Mathlib.Data.Finset.SDiff
import Mathlib.Data.List.Basic
import McServerDashboard.Lib.Run

/-!
# The session reports of the relay

The reporter of the relay, its calls to the API, and the rows that the API keeps of the sessions.

* `Reporter`: the buffers; `Start`, `End`, `flush` with its chunks, the caps and the tombstones.
* `Register`, which holds the barrier against flushes; the API's `ReportSessions` and `close_absent`.
* `machine`: all of it in any order. A call that the relay has given up on may still reach the API.
-/

namespace McServerDashboard.Relay

open Lib

abbrev SessionID := ℕ
abbrev CallId := ℕ

inductive Event
  | sessionStart (id : SessionID)
  | sessionEnd (id : SessionID)
  deriving DecidableEq

/-- `MaxBufferedEvents` and `maxEventsPerReportRPC`. -/
structure Limits where
  maxBufferedEvents : ℕ
  maxEventsPerReportRPC : ℕ

def limits : Limits := ⟨10000, 3000⟩

/-- The `Reporter`, without `flightMu`. -/
structure Reporter where
  pendStarts : List SessionID
  pendEnds : List SessionID
  openIDs : Finset SessionID
  droppedStarts : Finset SessionID

namespace Reporter

variable (r : Reporter)

/-- `Start`. -/
def start (id : SessionID) : Reporter :=
  { r with pendStarts := r.pendStarts ++ [id], openIDs := insert id r.openIDs }

/-- `End`. -/
def finish (id : SessionID) : Reporter :=
  if id ∈ r.droppedStarts then { r with openIDs := r.openIDs.erase id, droppedStarts := r.droppedStarts.erase id }
  else { r with openIDs := r.openIDs.erase id, pendEnds := r.pendEnds ++ [id] }

end Reporter

/-- `capOldestStarts`: what stays, and what is dropped. -/
def capOldestStarts (L : Limits) (buf : List SessionID) : List SessionID × List SessionID :=
  (buf.drop (buf.length - L.maxBufferedEvents), buf.take (buf.length - L.maxBufferedEvents))

/-- `dropOrphanEnds`. -/
def dropOrphanEnds (ends tombstones : List SessionID) : List SessionID := ends.filter (· ∉ tombstones)

/-- `capOldest`. -/
def capOldest (L : Limits) (buf : List SessionID) : List SessionID := buf.drop (buf.length - L.maxBufferedEvents)

namespace Reporter

variable (r : Reporter)

/-- What the error path of `flush` puts back. -/
def restore (L : Limits) (starts ends : List SessionID) : Reporter :=
  let merged := capOldestStarts L (starts ++ r.pendStarts)
  { r with
    pendStarts := merged.1
    droppedStarts := r.droppedStarts ∪ merged.2.toFinset
    pendEnds := capOldest L (dropOrphanEnds (ends ++ r.pendEnds) merged.2) }

/-- A successful `flush` forgets the tombstones of sessions that have ended. -/
def settle : Reporter := { r with droppedStarts := r.droppedStarts ∩ r.openIDs }

end Reporter

/-! ## Calls -/

inductive Request
  | reportSessions (starts ends : List SessionID)
  | register (activeSessionIDs : Finset SessionID)

def Request.events : Request → List Event
  | .reportSessions starts ends => starts.map .sessionStart ++ ends.map .sessionEnd
  | .register _ => []

/-- Where a call stands at the API. -/
inductive Stage
  | sent
  /-- It is being handled; `todo` is what it has not recorded yet. -/
  | handling (todo : List Event)
  | done

structure Call where
  request : Request
  stage : Stage

/-- A `flush` past its first lock: what it has drained, what is not reported yet, and the call it waits for. -/
structure Flight where
  starts : List SessionID
  ends : List SessionID
  restStarts : List SessionID
  restEnds : List SessionID
  call : Option CallId

/-- Who holds `flightMu`. -/
inductive Barrier
  | free
  | flush (f : Flight)
  | register (k : CallId)

/-- A row of `game_session`: `started_at` and `ended_at` are set. -/
structure Row where
  started : Bool
  ended : Bool
  deriving DecidableEq

/-- `record_start`, `record_end`. -/
def record (row : SessionID → Option Row) : Event → SessionID → Option Row
  | .sessionStart id => Function.update row id (some ⟨true, (row id).any (·.ended)⟩)
  | .sessionEnd id => Function.update row id (some ⟨(row id).any (·.started), true⟩)

/-- `close_absent`. -/
def closeAbsent (row : SessionID → Option Row) (active : Finset SessionID) (id : SessionID) : Option Row :=
  if id ∈ active then row id else (row id).map fun r => ⟨r.started, true⟩

/-- The relay, the calls, and the API. -/
structure System where
  reporter : Reporter
  barrier : Barrier
  call : CallId → Option Call
  nextCall : CallId
  row : SessionID → Option Row
  /-- The sessions that have been started (a ghost). -/
  begun : Finset SessionID
  /-- The events that have reached the API (a ghost). -/
  received : List Event
  /-- The starts that the cap has dropped (a ghost). -/
  cappedStarts : Finset SessionID
  /-- The ends that the cap has dropped (a ghost). -/
  cappedEnds : Finset SessionID
  /-- The registrations that the relay has given up on (a ghost). -/
  givenUp : Finset CallId
  /-- The sessions whose rows orphan healing has closed while they were open (a ghost). -/
  healedOpen : Finset SessionID

def init : System where
  reporter := ⟨[], [], ∅, ∅⟩
  barrier := .free
  call _ := none
  nextCall := 0
  row _ := none
  begun := ∅
  received := []
  cappedStarts := ∅
  cappedEnds := ∅
  givenUp := ∅
  healedOpen := ∅

namespace System

variable (s : System)

/-- A call goes out. -/
def send (request : Request) : System :=
  { s with call := Function.update s.call s.nextCall (some ⟨request, .sent⟩), nextCall := s.nextCall + 1 }

/-- The first lock of `flush`. -/
def drain : System :=
  { s with
    reporter := { s.reporter with pendStarts := [], pendEnds := [] }
    barrier := .flush ⟨s.reporter.pendStarts, s.reporter.pendEnds, s.reporter.pendStarts, s.reporter.pendEnds, none⟩ }

/-- `min(len(starts), maxEventsPerReportRPC)`. -/
def nStarts (L : Limits) (f : Flight) : ℕ := min f.restStarts.length L.maxEventsPerReportRPC

def nEnds (L : Limits) (f : Flight) : ℕ := min f.restEnds.length (L.maxEventsPerReportRPC - nStarts L f)

/-- The next call of `reportChunked`. -/
def sendChunk (L : Limits) (f : Flight) : System :=
  { s.send (.reportSessions (f.restStarts.take (nStarts L f)) (f.restEnds.take (nEnds L f))) with
    barrier := .flush { f with call := some s.nextCall } }

/-- `reportChunked` goes on after a call. -/
def chunkDone (L : Limits) (f : Flight) : System :=
  { s with
    barrier := .flush { f with
      restStarts := f.restStarts.drop (nStarts L f), restEnds := f.restEnds.drop (nEnds L f), call := none } }

/-- `flush` ends in its error path. -/
def flushFailed (L : Limits) (f : Flight) : System :=
  let dropped := (capOldestStarts L (f.starts ++ s.reporter.pendStarts)).2
  let ends := dropOrphanEnds (f.ends ++ s.reporter.pendEnds) dropped
  { s with
    reporter := s.reporter.restore L f.starts f.ends
    barrier := .free
    cappedStarts := s.cappedStarts ∪ dropped.toFinset
    cappedEnds := s.cappedEnds ∪ (ends.take (ends.length - L.maxBufferedEvents)).toFinset }

/-- The call reaches the API. -/
def arrive (k : CallId) (c : Call) : System :=
  { s with
    call := Function.update s.call k (some { c with stage := .handling c.request.events })
    received := s.received ++ c.request.events }

/-- The API handles the next `n` events of the call; a start that cannot be recorded is dropped. -/
def handle (k : CallId) (c : Call) (todo : List Event) (n : ℕ) (bad : Finset SessionID) : System :=
  let events := (todo.take n).filter fun e => match e with
    | .sessionStart id => id ∉ bad
    | .sessionEnd _ => true
  { s with
    row := events.foldl record s.row
    call := Function.update s.call k (some { c with stage := .handling (todo.drop n) }) }

/-- The call is over: `ReportSessions` returns, or `Register` after orphan healing. -/
def answer (k : CallId) (c : Call) : System :=
  let s' := { s with call := Function.update s.call k (some { c with stage := .done }) }
  match c.request with
  | .reportSessions _ _ => s'
  | .register active =>
    { s' with
      row := closeAbsent s.row active
      healedOpen := s.healedOpen ∪ s.reporter.openIDs.filter fun id => id ∉ active ∧ (s.row id).any (!·.ended) }

end System

/-! ## Interleavings -/

inductive Action
  | start (id : SessionID)
  | finish (id : SessionID)
  | drain
  | sendChunk
  | chunkDone
  /-- The call fails or times out, wherever it stands. -/
  | chunkFailed
  | flushDone
  /-- `SnapshotActive`, and the `Register` call. -/
  | register
  | registered
  /-- The call fails or times out, wherever it stands. -/
  | registerFailed
  | arrive (k : CallId)
  | handle (k : CallId) (n : ℕ) (bad : Finset SessionID)
  | answer (k : CallId)

def pre (s : System) : Action → Prop
  -- A session id is a new UUID, and a session ends once.
  | .start id => id ∉ s.begun
  | .finish id => id ∈ s.reporter.openIDs
  | .drain => match s.barrier with
    | .free => s.reporter.pendStarts ≠ [] ∨ s.reporter.pendEnds ≠ []
    | _ => False
  | .sendChunk => match s.barrier with
    | .flush f => f.call = none ∧ (f.restStarts ≠ [] ∨ f.restEnds ≠ [])
    | _ => False
  | .chunkDone => match s.barrier with
    | .flush f => ∃ k ∈ f.call, ∃ c ∈ s.call k, match c.stage with
      | .done => True
      | _ => False
    | _ => False
  | .chunkFailed => match s.barrier with
    | .flush f => f.call ≠ none
    | _ => False
  | .flushDone => match s.barrier with
    | .flush f => f.call = none ∧ f.restStarts = [] ∧ f.restEnds = []
    | _ => False
  | .register => match s.barrier with
    | .free => True
    | _ => False
  | .registered => match s.barrier with
    | .register k => ∃ c ∈ s.call k, match c.stage with
      | .done => True
      | _ => False
    | _ => False
  | .registerFailed => match s.barrier with
    | .register _ => True
    | _ => False
  | .arrive k => ∃ c ∈ s.call k, match c.stage with
    | .sent => True
    | _ => False
  | .handle k _ _ => ∃ c ∈ s.call k, match c.stage with
    | .handling todo => todo ≠ []
    | _ => False
  | .answer k => ∃ c ∈ s.call k, match c.stage with
    | .handling todo => todo = []
    | _ => False

def post (L : Limits) (s : System) : Action → System
  | .start id => { s with reporter := s.reporter.start id, begun := insert id s.begun }
  | .finish id => { s with reporter := s.reporter.finish id }
  | .drain => s.drain
  | .sendChunk => match s.barrier with
    | .flush f => s.sendChunk L f
    | _ => s
  | .chunkDone => match s.barrier with
    | .flush f => s.chunkDone L f
    | _ => s
  | .chunkFailed => match s.barrier with
    | .flush f => s.flushFailed L f
    | _ => s
  | .flushDone => { s with reporter := s.reporter.settle, barrier := .free }
  | .register => { s.send (.register s.reporter.openIDs) with barrier := .register s.nextCall }
  | .registered => { s with barrier := .free }
  | .registerFailed => match s.barrier with
    | .register k => { s with barrier := .free, givenUp := insert k s.givenUp }
    | _ => s
  | .arrive k => match s.call k with
    | some c => s.arrive k c
    | none => s
  | .handle k n bad => match s.call k with
    | some ⟨request, .handling todo⟩ => s.handle k ⟨request, .handling todo⟩ todo n bad
    | _ => s
  | .answer k => match s.call k with
    | some c => s.answer k c
    | none => s

def machine (L : Limits) : Machine System Action := ⟨pre, post L⟩

end McServerDashboard.Relay
