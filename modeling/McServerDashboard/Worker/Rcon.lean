import Mathlib.Algebra.GroupWithZero.Nat
import Mathlib.Data.Int.Notation
import Mathlib.Data.List.Basic
import McServerDashboard.Lib.Framing
import McServerDashboard.Lib.Run

/-!
# Commands over RCON

A command is one request packet. Its response comes in any number of packets without an end marker, so a second, empty
command follows, whose one response is the end of the first. The server reads one packet at a time and drops the
connection when a read gets bytes of two.

* `Packet`: `write` and `read`; `framing`: what a read makes of the bytes it has.
* `Call`: the locals of `Execute`; `Call.turn`: a turn of its loop.
* `machine`: the client, a server that answers requests in order, and the connection; any call may be cut off.
* `Stage`: how far the server has come with the two requests of a call.
* **`execute_aligned`**: what a call returns, what is unanswered, and what follows a failure, in every run.
-/

namespace McServerDashboard.Worker.Rcon

open Lib

abbrev Bytes := List UInt8

/-! ## Packets -/

/-- A packet; the integers are `int32`. -/
structure Packet where
  id : BitVec 32
  typ : BitVec 32
  body : Bytes
  deriving DecidableEq

def typeResponseValue : BitVec 32 := 0
def typeExecCommand : BitVec 32 := 2

def maxBodyLen : ℕ := 4096 + 16
def maxResponseSize : ℕ := 1 <<< 20

/-- `binary.LittleEndian.PutUint32`. -/
def putUint32 (n : BitVec 32) : Bytes :=
  [.ofNat n.toNat, .ofNat (n.toNat / 256), .ofNat (n.toNat / 65536), .ofNat (n.toNat / 16777216)]

/-- `binary.LittleEndian.Uint32`. -/
def uint32 (b : Bytes) : BitVec 32 := BitVec.ofNat 32 (b.foldr (fun c n => c.toNat + 256 * n) 0)

/-- `write`: the frame of a packet. -/
def Packet.frame (p : Packet) : Bytes :=
  let payload := putUint32 p.id ++ putUint32 p.typ ++ p.body ++ [0, 0]
  putUint32 (BitVec.ofNat 32 payload.length) ++ payload

/-- `read`, of the bytes so far: the length, and then the packet. -/
def read (got : Bytes) : Scan Packet :=
  if got.length < 4 then .more (4 - got.length)
  else
    let length := (uint32 (got.take 4)).toInt
    if length < 10 ∨ (maxBodyLen : ℤ) < length then .refused
    else if got.length < 4 + length.toNat then .more (4 + length.toNat - got.length)
    else
      let buf := got.drop 4
      .whole ⟨uint32 (buf.take 4), uint32 ((buf.drop 4).take 4), (buf.take (length.toNat - 2)).drop 8⟩

/-- The length of the packet can be written as an `int32`. -/
def Packet.Fits (p : Packet) : Prop := p.body.length + 10 < 2 ^ 31

instance (p : Packet) : Decidable p.Fits := inferInstanceAs (Decidable (_ < _))

variable {p : Packet}

@[simp] theorem length_putUint32 (n : BitVec 32) : (putUint32 n).length = 4 := rfl

theorem uint32_putUint32 (n : BitVec 32) : uint32 (putUint32 n) = n := by
  have hn : n.toNat < 2 ^ 32 := n.isLt
  apply BitVec.eq_of_toNat_eq
  simp only [uint32, putUint32, List.foldr_cons, List.foldr_nil, UInt8.toNat_ofNat', BitVec.toNat_ofNat]
  omega

theorem length_frame (p : Packet) : p.frame.length = p.body.length + 14 := by
  simp [Packet.frame]
  omega

/-- The length in front of a frame. -/
theorem toInt_length (h : p.Fits) : (uint32 (p.frame.take 4)).toInt = p.body.length + 10 := by
  have htake : p.frame.take 4 = putUint32 (BitVec.ofNat 32 (p.body.length + 10)) := by
    rw [Packet.frame, List.take_left' (length_putUint32 _)]
    congr 2
    simp
    omega
  unfold Packet.Fits at h
  rw [htake, uint32_putUint32, BitVec.toInt_eq_toNat_of_lt] <;> rw [BitVec.toNat_ofNat] <;> omega

theorem read_part {got rest : Bytes} (hfit : p.Fits) (h : got ++ rest = p.frame) (hne : rest ≠ []) :
    read got = .refused ∨ ∃ n, read got = .more n ∧ n ≤ rest.length := by
  have hlength : got.length + rest.length = p.body.length + 14 := by
    rw [← length_frame, ← h, List.length_append]
  have hpos := List.length_pos_of_ne_nil hne
  rw [read]
  dsimp only
  split_ifs with hfour hbad hshort
  · exact .inr ⟨_, rfl, by omega⟩
  · exact .inl rfl
  · have htake : got.take 4 = p.frame.take 4 := by rw [← h, List.take_append_of_le_length (Nat.le_of_not_lt hfour)]
    rw [htake, toInt_length hfit] at hshort ⊢
    exact .inr ⟨_, rfl, by omega⟩
  · have htake : got.take 4 = p.frame.take 4 := by rw [← h, List.take_append_of_le_length (Nat.le_of_not_lt hfour)]
    rw [htake, toInt_length hfit] at hshort
    omega

theorem read_frame (hfit : p.Fits) : read p.frame = .refused ∨ read p.frame = .whole p := by
  have hlength := length_frame p
  rw [read, if_neg (by omega), toInt_length hfit]
  dsimp only
  split_ifs with hbad hshort
  · exact .inl rfl
  · omega
  · refine .inr ?_
    have hdrop : p.frame.drop 4 = putUint32 p.id ++ putUint32 p.typ ++ p.body ++ [0, 0] := by
      rw [Packet.frame, List.drop_left' (length_putUint32 _)]
    have hbody : (putUint32 p.id ++ putUint32 p.typ ++ p.body).length = ((p.body.length : ℤ) + 10).toNat - 2 := by
      simp
      omega
    rw [hdrop, List.take_left' hbody, List.append_assoc, List.append_assoc, List.append_assoc,
      List.take_left' (length_putUint32 _), List.drop_left' (length_putUint32 _), List.take_left' (length_putUint32 _),
      uint32_putUint32, uint32_putUint32]
    rfl

theorem frame_ne_nil (p : Packet) : p.frame ≠ [] := fun h => by
  have hlength := length_frame p
  rw [h] at hlength
  cases hlength

/-- The frames of packets, and `read`. -/
def framing : Framing UInt8 {p : Packet // p.Fits} where
  encode p := p.1.frame
  scan got :=
    match read got with
    | .more n => .more n
    | .refused => .refused
    | .whole p => if h : p.Fits then .whole ⟨p, h⟩ else .refused
  encode_ne_nil p := frame_ne_nil p.1
  scan_part p got rest h hne := by
    rcases read_part p.2 h hne with hr | ⟨n, hr, hn⟩
    · exact .inl (by rw [hr])
    · exact .inr ⟨n, by rw [hr], hn⟩
  scan_encode p := by
    rcases read_frame p.2 with hr | hr
    · exact .inl (by rw [hr])
    · exact .inr (by simp only [hr, dif_pos p.2])

/-! ## The client -/

/-- Why a read or a write fails: the peer has closed the connection, or something else. -/
inductive Cause
  | connClosed
  | other
  deriving DecidableEq

inductive Err
  | connBroken
  /-- `ctx.Err()`. -/
  | ctx
  | commandDropped (cause : Cause)
  | io (cause : Cause)
  | invalidLength (length : ℤ)
  | idMismatch (id cmdID markerID : BitVec 32)
  | unexpectedType (typ : BitVec 32)
  | responseTooLarge
  deriving DecidableEq

/-- `id`: the next one. -/
def nextID (id : BitVec 32) : BitVec 32 := (id + 1) &&& 0x7FFFFFFF

/-- The locals of `Execute`. -/
structure Call where
  /-- The number of the call. -/
  number : ℕ
  line : Bytes
  cmdID : BitVec 32
  markerID : BitVec 32
  /-- The bytes received before the response. -/
  written : ℕ
  markerSent : Bool
  buf : Bytes
  deriving DecidableEq

/-- The end of a turn of the loop. -/
inductive Turn
  | done (body : Bytes)
  | fail (e : Err)
  | next (call : Call)

/-- A turn of the loop, once the marker is sent. -/
def Call.turn (call : Call) (p : Packet) : Turn :=
  if p.id = call.markerID then .done call.buf
  else if p.id ≠ call.cmdID then .fail (.idMismatch p.id call.cmdID call.markerID)
  else if p.typ ≠ typeResponseValue then .fail (.unexpectedType p.typ)
  else
    let buf := call.buf ++ p.body
    if maxResponseSize < buf.length then .fail .responseTooLarge else .next { call with buf }

/-- Where the client is. -/
inductive Phase
  | idle
  /-- The write of the command. -/
  | sendCommand (call : Call)
  /-- A read, and its bytes so far. -/
  | receive (call : Call) (got : Bytes)
  /-- The write of the marker, behind the first packet of the response. -/
  | sendMarker (call : Call) (first : Packet)
  deriving DecidableEq

/-! ## The connection -/

/-- A request: the command of a call, or its marker. -/
structure Request where
  call : ℕ
  marker : Bool
  packet : Packet
  deriving DecidableEq

def Call.command (call : Call) : Request := ⟨call.number, false, ⟨call.cmdID, typeExecCommand, call.line⟩⟩

def Call.marker (call : Call) : Request := ⟨call.number, true, ⟨call.markerID, typeExecCommand, []⟩⟩

/-- A response packet, and the request that it answers. -/
structure Reply where
  request : Request
  packet : {p : Packet // p.Fits}
  deriving DecidableEq

/-- A request on its way: what is on the wire, and what the client has still to write. -/
structure Flight where
  request : Request
  unread : Bytes
  unsent : Bytes
  deriving DecidableEq

def Flight.send (n : ℕ) (f : Flight) : Flight :=
  { f with unread := f.unread ++ f.unsent.take n, unsent := f.unsent.drop n }

inductive Event
  | sent (bytes : Bytes)
  | returned (call : ℕ) (result : Except Err Bytes)

/-- A call has failed. -/
def Event.Failed : Event → Prop
  | .returned _ (.error _) => True
  | _ => False

structure State where
  nextID : BitVec 32
  broken : Bool
  received : ℕ
  phase : Phase
  /-- The requests on the way to the server, in order. -/
  wire : List Flight
  /-- The server has not closed the connection. -/
  connected : Bool
  /-- The requests that the server has read and not answered in full. -/
  queue : List Request
  /-- The first of them has a response packet. -/
  answered : Bool
  /-- The bytes on the way to the client. -/
  toClient : Bytes
  /-- How many calls there have been. -/
  calls : ℕ
  /-- The requests that the client has begun to write. -/
  requests : List Request
  /-- The response packets of calls that have returned, those read by the present call, and those on the way. -/
  past : List Reply
  heard : List Reply
  flying : List Reply
  history : List Event

/-- After `Dial`, whose handshake takes the first id. -/
def start : State where
  nextID := 2
  broken := false
  received := 0
  phase := .idle
  wire := []
  connected := true
  queue := []
  answered := false
  toClient := []
  calls := 0
  requests := []
  past := []
  heard := []
  flying := []
  history := []

namespace State

/-- The call returns an error, or that of its context if it is `cancelled`; the connection is broken and closed. -/
def fail (s : State) (cancelled : Bool) (number : ℕ) (e : Err) : State :=
  let e := if cancelled then .ctx else e
  { s with broken := true, phase := .idle, history := s.history ++ [.returned number (.error e)] }

/-- The call returns. -/
def succeed (s : State) (number : ℕ) (body : Bytes) : State :=
  { s with phase := .idle, past := s.past ++ s.heard, heard := [],
           history := s.history ++ [.returned number (.ok body)] }

/-- A request packet is handed to the connection. -/
def write (s : State) (r : Request) (phase : Phase) : State :=
  { s with phase, wire := s.wire ++ [⟨r, [], r.packet.frame⟩], requests := s.requests ++ [r] }

/-- The beginning of `Execute`. -/
def begin (s : State) (line : Bytes) : State :=
  let number := s.calls
  let s := { s with calls := s.calls + 1 }
  if s.broken then { s with history := s.history ++ [.returned number (.error .connBroken)] }
  else
    let cmdID := s.nextID
    let markerID := Rcon.nextID cmdID
    let call : Call := ⟨number, line, cmdID, markerID, 0, false, []⟩
    { s with nextID := Rcon.nextID markerID }.write call.command (.sendCommand call)

/-- A turn of the loop, with a packet. -/
def turn (s : State) (cancelled : Bool) (call : Call) (p : Packet) : State :=
  match call.turn p with
  | .done body => s.succeed call.number body
  | .fail e => s.fail cancelled call.number e
  | .next call => { s with phase := .receive call [] }

/-- Some bytes of the last request leave. -/
def send (s : State) (n : ℕ) : State :=
  match s.wire.getLast? with
  | none => s
  | some f =>
    { s with wire := s.wire.dropLast ++ [f.send n], history := s.history ++ [.sent (f.unsent.take n)] }

/-- The write returns. -/
def wrote (s : State) (cancelled : Bool) : State :=
  match s.phase with
  | .sendCommand call => { s with phase := .receive { call with written := s.received } [] }
  | .sendMarker call first => s.turn cancelled { call with markerSent := true } first
  | _ => s

/-- Some bytes arrive. -/
def recv (s : State) (n : ℕ) : State :=
  match s.phase with
  | .receive call got =>
    { s with phase := .receive call (got ++ s.toClient.take n), toClient := s.toClient.drop n,
             received := s.received + n }
  | _ => s

/-- `read` returns. -/
def readDone (s : State) (cancelled : Bool) : State :=
  match s.phase with
  | .receive call got =>
    match framing.scan got with
    | .more _ => s
    | .refused => s.fail cancelled call.number (.invalidLength (uint32 (got.take 4)).toInt)
    | .whole p =>
      let s := { s with heard := s.heard ++ s.flying.take 1, flying := s.flying.drop 1 }
      if call.markerSent then s.turn cancelled call p else s.write call.marker (.sendMarker call p)
  | _ => s

/-- A read or a write fails. -/
def cutOff (s : State) (cancelled : Bool) (cause : Cause) : State :=
  match s.phase with
  | .idle => s
  | .sendCommand call | .sendMarker call _ => s.fail cancelled call.number (.io cause)
  | .receive call _ =>
    s.fail cancelled call.number
      (if s.received = call.written ∧ cause = .connClosed then .commandDropped cause else .io cause)

/-- The server's read gets so many bytes; more than the first packet has left are of two packets. -/
def serverRead (s : State) (n : ℕ) : State :=
  match s.wire with
  | [] => s
  | f :: flights =>
    if f.unread.length < n then { s with connected := false }
    else if f.unread.drop n = [] ∧ f.unsent = [] then { s with wire := flights, queue := s.queue ++ [f.request] }
    else { s with wire := { f with unread := f.unread.drop n } :: flights }

/-- The server answers the first of its requests with one packet more; a marker has just one. -/
def reply (s : State) (typ : BitVec 32) (body : Bytes) : State :=
  match s.queue with
  | [] => s
  | r :: queue =>
    let p : Packet := ⟨r.packet.id, typ, body⟩
    if h : p.Fits then
      { s with
        toClient := s.toClient ++ p.frame
        flying := s.flying ++ [⟨r, ⟨p, h⟩⟩]
        queue := if r.marker then queue else s.queue
        answered := !r.marker }
    else s

end State

/-! ## The steps -/

inductive Step
  | execute (line : Bytes)
  | send (n : ℕ)
  | wrote (cancelled : Bool)
  | recv (n : ℕ)
  | readDone (cancelled : Bool)
  | cutOff (cancelled : Bool) (cause : Cause)
  | serverRead (n : ℕ)
  | reply (typ : BitVec 32) (body : Bytes)
  /-- The response of a command is complete. -/
  | finish
  /-- The server closes the connection. -/
  | drop

namespace Phase

/-- In a call of `write`. -/
def writing : Phase → Bool
  | sendCommand _ | sendMarker .. => true
  | _ => false

/-- The bytes of the present read. -/
def reading : Phase → Option Bytes
  | receive _ got => some got
  | _ => none

/-- How many bytes the present read asks for. -/
def needs (phase : Phase) : Option ℕ :=
  match phase.reading.map framing.scan with
  | some (.more n) => some n
  | _ => none

end Phase

def Step.pre (s : State) : Step → Prop
  | .execute _ => s.phase = .idle
  | .send n => s.phase.writing ∧ 0 < n ∧ ∃ f ∈ s.wire.getLast?, n ≤ f.unsent.length
  | .wrote _ => s.phase.writing ∧ ∀ f ∈ s.wire, f.unsent = []
  | .recv n => 0 < n ∧ n ≤ s.toClient.length ∧ ∃ need ∈ s.phase.needs, n ≤ need
  | .readDone _ => s.phase.reading ≠ none ∧ s.phase.needs = none
  | .cutOff .. => s.phase ≠ .idle
  | .serverRead n => s.connected ∧ 0 < n ∧ n ≤ (s.wire.map (·.unread.length)).sum
  | .reply typ body => s.connected ∧ ∃ r ∈ s.queue.head?, Packet.Fits ⟨r.packet.id, typ, body⟩
  | .finish => s.connected ∧ s.answered
  | .drop => s.connected

instance (s : State) : (a : Step) → Decidable (a.pre s)
  | .execute _ => inferInstanceAs (Decidable (_ = _))
  | .send _ => inferInstanceAs (Decidable (_ ∧ _ ∧ _))
  | .wrote _ => inferInstanceAs (Decidable (_ ∧ _))
  | .recv _ => inferInstanceAs (Decidable (_ ∧ _ ∧ _))
  | .readDone _ => inferInstanceAs (Decidable (_ ∧ _))
  | .cutOff .. => inferInstanceAs (Decidable (_ ≠ _))
  | .serverRead _ => inferInstanceAs (Decidable (_ ∧ _ ∧ _))
  | .reply .. => inferInstanceAs (Decidable (_ ∧ _))
  | .finish => inferInstanceAs (Decidable (_ ∧ _))
  | .drop => inferInstanceAs (Decidable (_ = true))

def Step.post (s : State) : Step → State
  | .execute line => s.begin line
  | .send n => s.send n
  | .wrote cancelled => s.wrote cancelled
  | .recv n => s.recv n
  | .readDone cancelled => s.readDone cancelled
  | .cutOff cancelled cause => s.cutOff cancelled cause
  | .serverRead n => s.serverRead n
  | .reply typ body => s.reply typ body
  | .finish => { s with queue := s.queue.tail, answered := false }
  | .drop => { s with connected := false }

/-- The client, the server and the connection. -/
def machine : Machine State Step := ⟨Step.pre, Step.post⟩

instance (s : State) (a : Step) : Decidable (machine.pre s a) := inferInstanceAs (Decidable (a.pre s))

/-! ## What is claimed -/

/-- The bodies of the packets that answer the command of a call. -/
def bodies (call : ℕ) (replies : List Reply) : Bytes :=
  (replies.filter fun r => r.request.call = call ∧ r.request.marker = false).flatMap (·.packet.1.body)

/-- Every response packet there has been. -/
def State.replies (s : State) : List Reply := s.past ++ s.heard ++ s.flying

/-- The client has read no response packet to the request. -/
def State.Unanswered (s : State) (r : Request) : Prop := ∀ x ∈ s.past ++ s.heard, x.request ≠ r

structure Aligned (s : State) : Prop where
  /-- A call that succeeds returns the packets that answer its command. -/
  result : ∀ call body, .returned call (.ok body) ∈ s.history → body = bodies call s.replies
  /-- There is one unanswered request at most. -/
  unanswered : ∀ r ∈ s.requests, ∀ r' ∈ s.requests, s.Unanswered r → s.Unanswered r' → r = r'
  /-- So no read of the server can get bytes of two. -/
  wire : s.wire.length ≤ 1
  /-- After a call that fails there are only calls that fail. -/
  poisoned : s.history.Pairwise fun e e' => e.Failed → e'.Failed

/-! ## The two requests of a call -/

/-- How far the server is with a command and, once it is sent `out`, its marker: the requests that it has not answered
in full, whether the first has a response packet, and the response packets so far. -/
inductive Stage (cmd mark : Request) (out : Bool) (pending : List Request) (answered : Bool) (replies : List Reply) :
    Prop
  | asked (hpending : pending = [cmd]) (hanswered : answered = false) (hout : out = false) (hreplies : replies = [])
  | answering (hpending : pending = cmd :: if out then [mark] else []) (hanswered : answered = true)
      (hreplies : replies ≠ []) (hall : ∀ x ∈ replies, x.request = cmd)
  | answered (hpending : pending = []) (hanswered : answered = false) (hout : out = false) (hreplies : replies ≠ [])
      (hall : ∀ x ∈ replies, x.request = cmd)
  | marked (hpending : pending = [mark]) (hanswered : answered = false) (hout : out = true) (hreplies : replies ≠ [])
      (hall : ∀ x ∈ replies, x.request = cmd)
  | complete (hpending : pending = []) (hanswered : answered = false) (hout : out = true) {before : List Reply}
      {x : Reply} (hreplies : replies = before ++ [x]) (hall : ∀ x ∈ before, x.request = cmd) (hx : x.request = mark)

namespace Stage

variable {cmd mark : Request} {out answered : Bool} {pending : List Request} {replies : List Reply}

theorem mem_request (h : Stage cmd mark out pending answered replies) {x : Reply} (hx : x ∈ replies) :
    x.request = cmd ∨ x.request = mark ∧ out = true := by
  cases h with
  | asked _ _ _ hreplies =>
    rw [hreplies] at hx
    cases hx
  | answering _ _ _ hall | answered _ _ _ _ hall | marked _ _ _ _ hall => exact .inl (hall x hx)
  | complete _ _ hout hreplies hall hlast =>
    rw [hreplies, List.mem_append, List.mem_singleton] at hx
    rcases hx with hx | rfl
    · exact .inl (hall x hx)
    · exact .inr ⟨hlast, hout⟩

/-- The marker is sent when the command has a response packet. -/
theorem send (h : Stage cmd mark false pending answered replies) (hne : replies ≠ []) :
    Stage cmd mark true (pending ++ [mark]) answered replies := by
  cases h with
  | asked _ _ _ hreplies => exact (hne hreplies).elim
  | answering hpending hanswered hreplies hall => exact .answering (by rw [hpending]; rfl) hanswered hreplies hall
  | answered hpending hanswered _ hreplies hall => exact .marked (by rw [hpending]; rfl) hanswered rfl hreplies hall
  | marked _ _ hout => cases hout
  | complete _ _ hout => cases hout

/-- The first pending request has a response packet more. -/
theorem reply {r : Request} {rest : List Request} {x : Reply} (h : Stage cmd mark out pending answered replies)
    (hcmd : cmd.marker = false) (hmark : mark.marker = true) (hpending : pending = r :: rest) (hx : x.request = r) :
    Stage cmd mark out (if r.marker then rest else pending) (!r.marker) (replies ++ [x]) := by
  cases h with
  | asked hp _ hout hreplies =>
    rw [hpending] at hp
    cases hp
    rw [hcmd, hout, hreplies]
    exact .answering (by rw [hpending]; rfl) rfl (List.cons_ne_nil _ _) (by simpa using hx)
  | answering hp _ _ hall =>
    rw [hp] at hpending
    cases hpending
    rw [hcmd, hp]
    refine .answering rfl rfl (by simp) fun y hy => ?_
    rw [List.mem_append, List.mem_singleton] at hy
    rcases hy with hy | rfl
    · exact hall y hy
    · exact hx
  | answered hp | complete hp =>
    rw [hpending] at hp
    cases hp
  | marked hp _ hout _ hall =>
    rw [hpending] at hp
    cases hp
    rw [hmark]
    exact .complete rfl rfl hout rfl hall hx

/-- The response of the command is complete. -/
theorem finish (h : Stage cmd mark out pending true replies) : Stage cmd mark out pending.tail false replies := by
  cases h with
  | asked _ hanswered | answered _ hanswered | marked _ hanswered | complete _ hanswered => cases hanswered
  | answering hpending _ hreplies hall =>
    rw [hpending]
    cases out with
    | false => exact .answered rfl rfl rfl hreplies hall
    | true => exact .marked rfl rfl rfl hreplies hall

/-- Behind the response to the marker there is nothing. -/
theorem end_of_mark {heard flying : List Reply} {x : Reply} (hne : cmd ≠ mark)
    (h : Stage cmd mark out pending answered (heard ++ [x] ++ flying)) (hx : x.request = mark) :
    flying = [] ∧ pending = [] ∧ answered = false := by
  have hmem : x ∈ heard ++ [x] ++ flying := by simp
  have hnot : ∀ replies : List Reply, (∀ y ∈ replies, y.request = cmd) → x ∉ replies := fun replies hall hin =>
    hne ((hall x hin).symm.trans hx)
  cases h with
  | asked _ _ _ hreplies =>
    rw [hreplies] at hmem
    cases hmem
  | answering _ _ _ hall | answered _ _ _ _ hall | marked _ _ _ _ hall => exact (hnot _ hall hmem).elim
  | complete hpending hanswered _ hreplies hall _ =>
    refine ⟨?_, hpending, hanswered⟩
    rcases List.eq_nil_or_concat' flying with hnil | ⟨between, last, rfl⟩
    · exact hnil
    · -- else the response of the marker is not the last
      rw [← List.append_assoc] at hreplies
      have hbefore := (List.append_inj' hreplies rfl).1
      exact (hnot _ hall (by rw [← hbefore]; simp)).elim

end Stage

/-! ## The invariant -/

/-- The requests on the way to the server, or not answered in full. -/
def State.pending (s : State) : List Request := s.queue ++ s.wire.map (·.request)

/-- A call under way, whose marker is sent if `out`; it has read `got` of the next packet. -/
structure Exchange (s : State) (c : Call) (out : Bool) (got : Bytes) : Prop where
  stage : Stage c.command c.marker out s.pending s.answered (s.heard ++ s.flying)
  queue : s.answered = true → s.queue ≠ []
  ids : c.cmdID ≠ c.markerID
  replied : ∀ x ∈ s.heard ++ s.flying, x.packet.1.id = x.request.packet.id
  carries : Carries framing got s.toClient (s.flying.map (·.packet))
  asked : ∀ r ∈ s.requests, s.Unanswered r → r = if out then c.marker else c.command
  past : ∀ x ∈ s.past, x.request.call < c.number
  number : c.number < s.calls
  fresh : ∀ body, .returned c.number (.ok body) ∉ s.history
  broken : s.broken = false

/-- No call is under way, and none has failed. -/
structure Quiet (s : State) : Prop where
  pending : s.pending = []
  answered : s.answered = false
  heard : s.heard = []
  flying : s.flying = []
  toClient : s.toClient = []
  requests : ∀ r ∈ s.requests, ¬s.Unanswered r

/-- What holds where the client is. -/
def State.At (s : State) : Phase → Prop
  | .idle => s.broken = false → Quiet s
  | .sendCommand c => Exchange s c false [] ∧ s.heard = [] ∧ c.buf = [] ∧ c.markerSent = false
  | .receive c got =>
    Exchange s c c.markerSent got ∧ (c.markerSent = false → s.heard = []) ∧ (∀ x ∈ s.heard, x.request = c.command) ∧
      c.buf = s.heard.flatMap (·.packet.1.body)
  | .sendMarker c first =>
    Exchange s c true [] ∧ c.buf = [] ∧ ∃ x, s.heard = [x] ∧ x.request = c.command ∧ x.packet.1 = first

/-- What holds wherever the client is. -/
structure Core (s : State) : Prop where
  result : ∀ call body, .returned call (.ok body) ∈ s.history → body = bodies call s.past
  returned : ∀ call body, .returned call (.ok body) ∈ s.history → call < s.calls ∧
    (∀ x ∈ s.heard ++ s.flying, x.request.call ≠ call) ∧ ∀ r ∈ s.pending, r.call ≠ call
  past : ∀ x ∈ s.past, x.request.call < s.calls
  unanswered : ∀ r ∈ s.requests, ∀ r' ∈ s.requests, s.Unanswered r → s.Unanswered r' → r = r'
  wire : s.wire.length ≤ 1
  poisoned : s.history.Pairwise fun e e' => e.Failed → e'.Failed
  sound : s.broken = false → ∀ e ∈ s.history, ¬e.Failed

def Inv (s : State) : Prop := Core s ∧ s.At s.phase

theorem bodies_append (call : ℕ) (replies replies' : List Reply) :
    bodies call (replies ++ replies') = bodies call replies ++ bodies call replies' := by
  rw [bodies, List.filter_append, List.flatMap_append]
  rfl

theorem bodies_eq_nil {call : ℕ} {replies : List Reply} (h : ∀ x ∈ replies, x.request.call ≠ call) :
    bodies call replies = [] := by
  rw [bodies, List.filter_eq_nil_iff.mpr fun x hx => by simp [h x hx]]
  rfl

theorem bodies_command {c : Call} {replies : List Reply} (h : ∀ x ∈ replies, x.request = c.command) :
    bodies c.number replies = replies.flatMap (·.packet.1.body) := by
  rw [bodies, List.filter_eq_self.mpr fun x hx => by simp [h x hx, Call.command]]

/-- **The invariant gives what is claimed.** -/
theorem Core.aligned {s : State} (h : Core s) : Aligned s := by
  refine ⟨fun call body hret => ?_, h.unanswered, h.wire, h.poisoned⟩
  obtain ⟨-, hother, -⟩ := h.returned call body hret
  rw [State.replies, List.append_assoc, bodies_append, bodies_eq_nil hother, List.append_nil]
  exact h.result call body hret

/-- The marker has another id than the command. -/
theorem nextID_ne (id : BitVec 32) : nextID id ≠ id := by
  intro h
  have hid : id.toNat < 2 ^ 32 := id.isLt
  have hmask := congrArg BitVec.toNat h
  rw [nextID, BitVec.toNat_and, BitVec.toNat_add] at hmask
  have hmod := Nat.and_two_pow_sub_one_eq_mod ((id.toNat + 1) % 2 ^ 32) 31
  have hsame : (id.toNat + 1) % 2 ^ 32 % 2 ^ 31 = id.toNat := hmod.symm.trans hmask
  omega

variable {s s' : State} {c : Call} {out : Bool} {got : Bytes}

/-! ## The server -/

/-- What is left alone by the server, and by the sending of bytes. -/
structure Kept (s s' : State) : Prop where
  broken : s'.broken = s.broken
  phase : s'.phase = s.phase
  calls : s'.calls = s.calls
  requests : s'.requests = s.requests
  past : s'.past = s.past
  heard : s'.heard = s.heard
  returned : ∀ call body, .returned call (.ok body) ∈ s'.history → .returned call (.ok body) ∈ s.history

theorem Kept.unanswered (h : Kept s s') (r : Request) : s'.Unanswered r ↔ s.Unanswered r := by
  rw [State.Unanswered, State.Unanswered, h.past, h.heard]

/-- The calls that have returned are not concerned. -/
theorem Core.kept (h : Core s) (hkept : Kept s s') (hflying : ∀ x ∈ s'.flying, x ∈ s.flying ∨ x.request ∈ s.pending)
    (hpending : ∀ r ∈ s'.pending, r ∈ s.pending) (hwire : s'.wire.length ≤ s.wire.length)
    (hpoisoned : s'.history.Pairwise fun e e' => e.Failed → e'.Failed)
    (hsound : s'.broken = false → ∀ e ∈ s'.history, ¬e.Failed) : Core s' := by
  refine ⟨fun call body hret => ?_, fun call body hret => ?_, ?_, ?_, Nat.le_trans hwire h.wire, hpoisoned, hsound⟩
  · rw [hkept.past]
    exact h.result call body (hkept.returned call body hret)
  · obtain ⟨hcalls, hother, hpend⟩ := h.returned call body (hkept.returned call body hret)
    rw [hkept.calls, hkept.heard]
    refine ⟨hcalls, fun x hx => ?_, fun r hr => hpend r (hpending r hr)⟩
    rcases List.mem_append.mp hx with hx | hx
    · exact hother x (List.mem_append_left _ hx)
    · rcases hflying x hx with hx | hx
      · exact hother x (List.mem_append_right _ hx)
      · exact hpend _ hx
  · rw [hkept.past, hkept.calls]
    exact h.past
  · rw [hkept.requests]
    simp only [hkept.unanswered]
    exact h.unanswered

/-- Neither is the phase, as far as the exchange is kept. -/
theorem Inv.kept (h : Inv s) (hkept : Kept s s') (hcore : Core s') (hquiet : Quiet s → Quiet s')
    (hexchange : ∀ c out got, Exchange s c out got → Exchange s' c out got) : Inv s' := by
  refine ⟨hcore, ?_⟩
  have hat := h.2
  rw [hkept.phase]
  cases hphase : s.phase with
  | idle =>
    rw [hphase] at hat
    exact fun hbroken => hquiet (hat (hkept.broken ▸ hbroken))
  | sendCommand c | receive c got | sendMarker c first =>
    rw [hphase] at hat
    obtain ⟨hex, hrest⟩ := hat
    refine ⟨hexchange _ _ _ hex, ?_⟩
    rwa [hkept.heard]

theorem Exchange.kept (h : Exchange s c out got) (hkept : Kept s s')
    (hstage : Stage c.command c.marker out s'.pending s'.answered (s'.heard ++ s'.flying))
    (hqueue : s'.answered = true → s'.queue ≠ [])
    (hreplied : ∀ x ∈ s'.heard ++ s'.flying, x.packet.1.id = x.request.packet.id)
    (hcarries : Carries framing got s'.toClient (s'.flying.map (·.packet))) : Exchange s' c out got := by
  refine ⟨hstage, hqueue, h.ids, hreplied, hcarries, ?_, ?_, ?_, fun body hbody => ?_, ?_⟩
  · rw [hkept.requests]
    simp only [hkept.unanswered]
    exact h.asked
  · rw [hkept.past]
    exact h.past
  · rw [hkept.calls]
    exact h.number
  · exact h.fresh body (hkept.returned _ _ hbody)
  · rw [hkept.broken]
    exact h.broken

/-- Requests move on, and nothing else. -/
theorem Inv.moved (h : Inv s) (hkept : Kept s s') (hpending : s'.pending = s.pending)
    (hanswered : s'.answered = s.answered) (hqueue : s.queue ≠ [] → s'.queue ≠ []) (hflying : s'.flying = s.flying)
    (htoClient : s'.toClient = s.toClient) (hwire : s'.wire.length ≤ s.wire.length)
    (hpoisoned : s'.history.Pairwise fun e e' => e.Failed → e'.Failed)
    (hsound : s'.broken = false → ∀ e ∈ s'.history, ¬e.Failed) : Inv s' := by
  refine h.kept hkept (h.1.kept hkept (fun x hx => .inl (hflying ▸ hx)) (fun r hr => hpending ▸ hr) hwire hpoisoned
    hsound) (fun hquiet => ?_) fun c out got hex => ?_
  · refine ⟨hpending.trans hquiet.pending, hanswered.trans hquiet.answered, hkept.heard.trans hquiet.heard,
      hflying.trans hquiet.flying, htoClient.trans hquiet.toClient, ?_⟩
    rw [hkept.requests]
    simp only [hkept.unanswered]
    exact hquiet.requests
  · refine hex.kept hkept ?_ (fun ha => hqueue (hex.queue (hanswered ▸ ha))) ?_ ?_
    · rw [hpending, hanswered, hkept.heard, hflying]
      exact hex.stage
    · rw [hkept.heard, hflying]
      exact hex.replied
    · rw [htoClient, hflying]
      exact hex.carries

theorem Inv.drop (h : Inv s) : Inv { s with connected := false } :=
  h.moved ⟨rfl, rfl, rfl, rfl, rfl, rfl, fun _ _ => id⟩ rfl rfl id rfl rfl (Nat.le_refl _) h.1.poisoned h.1.sound

theorem Inv.serverRead (h : Inv s) (n : ℕ) : Inv (s.serverRead n) := by
  rw [State.serverRead]
  split
  · exact h
  · next f flights hwire =>
    split_ifs
    · exact h.drop
    · refine h.moved ⟨rfl, rfl, rfl, rfl, rfl, rfl, fun _ _ => id⟩ ?_ rfl (fun _ => by simp) rfl rfl ?_ h.1.poisoned
        h.1.sound
      · simp [State.pending, hwire]
      · simp [hwire]
    · refine h.moved ⟨rfl, rfl, rfl, rfl, rfl, rfl, fun _ _ => id⟩ ?_ rfl id rfl rfl ?_ h.1.poisoned h.1.sound
      · simp [State.pending, hwire]
      · simp [hwire]

theorem Inv.replied {r : Request} {queue : List Request} {x : Reply} (h : Inv s) (hqueue : s.queue = r :: queue)
    (hx : x.request = r) (hid : x.packet.1.id = r.packet.id) : Inv { s with
      toClient := s.toClient ++ x.packet.1.frame, flying := s.flying ++ [x],
      queue := if r.marker then queue else s.queue, answered := !r.marker } := by
  have hpending : s.pending = r :: (queue ++ s.wire.map (·.request)) := by rw [State.pending, hqueue]; rfl
  have hafter : (if r.marker then queue else s.queue) ++ s.wire.map (·.request) =
      if r.marker then queue ++ s.wire.map (·.request) else s.pending := by split_ifs <;> rfl
  refine h.kept ⟨rfl, rfl, rfl, rfl, rfl, rfl, fun _ _ => id⟩ (h.1.kept ⟨rfl, rfl, rfl, rfl, rfl, rfl, fun _ _ => id⟩
    (fun y hy => ?_) (fun r' hr' => ?_) (Nat.le_refl _) h.1.poisoned h.1.sound) (fun hquiet => ?_) fun c out got hex =>
      hex.kept ⟨rfl, rfl, rfl, rfl, rfl, rfl, fun _ _ => id⟩ ?_ (fun ha => ?_) (fun y hy => ?_) ?_
  · rcases List.mem_append.mp hy with hy | hy
    · exact .inl hy
    · rw [List.mem_singleton.mp hy, hx, hpending]
      exact .inr List.mem_cons_self
  · rw [State.pending] at hr'
    dsimp only at hr'
    rw [hafter] at hr'
    split_ifs at hr'
    · rw [hpending]
      exact List.mem_cons_of_mem _ hr'
    · exact hr'
  · have hnil := hquiet.pending
    rw [hpending] at hnil
    cases hnil
  · have hstage := hex.stage.reply (x := x) rfl rfl hpending hx
    rw [List.append_assoc] at hstage
    rw [State.pending]
    dsimp only
    rw [hafter]
    exact hstage
  · dsimp only at ha ⊢
    rw [if_neg (by simpa using ha), hqueue]
    exact List.cons_ne_nil _ _
  · rw [← List.append_assoc] at hy
    rcases List.mem_append.mp hy with hy | hy
    · exact hex.replied y hy
    · rw [List.mem_singleton.mp hy, hid, hx]
  · have hemit := hex.carries.emit x.packet
    rwa [List.map_append]

theorem Inv.reply (h : Inv s) (typ : BitVec 32) (body : Bytes) : Inv (s.reply typ body) := by
  rw [State.reply]
  split
  · exact h
  · next r queue hqueue =>
    dsimp only
    by_cases hfits : Packet.Fits ⟨r.packet.id, typ, body⟩
    · rw [dif_pos hfits]
      exact h.replied (x := ⟨r, ⟨_, hfits⟩⟩) hqueue rfl rfl
    · rw [dif_neg hfits]
      exact h

theorem Inv.finish (h : Inv s) (hanswered : s.answered = true) :
    Inv { s with queue := s.queue.tail, answered := false } := by
  have hkept : Kept s { s with queue := s.queue.tail, answered := false } :=
    ⟨rfl, rfl, rfl, rfl, rfl, rfl, fun _ _ => id⟩
  refine h.kept hkept (h.1.kept hkept (fun _ => .inl) (fun r hr => ?_) (Nat.le_refl _) h.1.poisoned h.1.sound)
    (fun hquiet => ?_) fun c out got hex => hex.kept hkept ?_ (fun ha => by cases ha) hex.replied hex.carries
  · rcases List.mem_append.mp hr with hr | hr
    · exact List.mem_append_left _ (List.mem_of_mem_tail hr)
    · exact List.mem_append_right _ hr
  · rw [hquiet.answered] at hanswered
    cases hanswered
  · obtain ⟨r, queue, hqueue⟩ := List.exists_cons_of_ne_nil (hex.queue hanswered)
    have hstage := hex.stage
    rw [hanswered] at hstage
    have htail := hstage.finish
    rw [State.pending, hqueue, List.cons_append, List.tail_cons] at htail
    rw [State.pending]
    dsimp only
    rw [hqueue]
    exact htail

/-! ## The client -/

/-- Bytes of a request leave. -/
theorem Inv.send (h : Inv s) (hwriting : s.phase.writing = true) (n : ℕ) : Inv (s.send n) := by
  have hbroken : s.broken = false := by
    have hat := h.2
    cases hphase : s.phase with
    | idle | receive c got => rw [hphase] at hwriting; cases hwriting
    | sendCommand c | sendMarker c first =>
      rw [hphase] at hat
      exact hat.1.broken
  rw [State.send]
  split
  · exact h
  · next f hf =>
    have hwire : s.wire = s.wire.dropLast ++ [f] := (List.dropLast_append_getLast? f hf).symm
    refine h.moved ⟨rfl, rfl, rfl, rfl, rfl, rfl, fun call body hret => ?_⟩ ?_ rfl id rfl rfl ?_ ?_ fun _ e he => ?_
    · simpa using hret
    · rw [State.pending, State.pending, hwire]
      simp [Flight.send]
    · rw [hwire]
      simp
    · refine List.pairwise_append.mpr ⟨h.1.poisoned, List.pairwise_singleton _ _, fun e he e' _ hfailed => ?_⟩
      exact (h.1.sound hbroken e he hfailed).elim
    · rcases List.mem_append.mp he with he | he
      · exact h.1.sound hbroken e he
      · rw [List.mem_singleton.mp he]
        exact id

/-- The call under way fails. -/
theorem Core.fail (h : Core s) (cancelled : Bool) (number : ℕ) (e : Err) : Inv (s.fail cancelled number e) := by
  have hret : ∀ call body, .returned call (.ok body) ∈ (s.fail cancelled number e).history →
      .returned call (.ok body) ∈ s.history := fun call body hret => by simpa [State.fail] using hret
  refine ⟨⟨fun call body hbody => h.result call body (hret call body hbody),
    fun call body hbody => h.returned call body (hret call body hbody), h.past, h.unanswered, h.wire, ?_, ?_⟩, ?_⟩
  · refine List.pairwise_append.mpr ⟨h.poisoned, List.pairwise_singleton _ _, fun e he e' he' _ => ?_⟩
    rw [List.mem_singleton.mp he']
    exact trivial
  · exact fun hbroken => by cases hbroken
  · exact fun hbroken => by cases hbroken

theorem Inv.cutOff (h : Inv s) (cancelled : Bool) (cause : Cause) : Inv (s.cutOff cancelled cause) := by
  rw [State.cutOff]
  split
  · exact h
  · exact h.1.fail ..
  · exact h.1.fail ..
  · exact h.1.fail ..

/-- A response packet of the call is for its command or its marker. -/
theorem Exchange.request_call (h : Exchange s c out got) {x : Reply} (hx : x ∈ s.heard ++ s.flying) :
    x.request.call = c.number := by
  rcases h.stage.mem_request hx with hx | ⟨hx, -⟩ <;> rw [hx] <;> rfl

/-- The response of the marker ends the call. -/
theorem Inv.succeed {before : List Reply} {x : Reply} (h : Core s) (hex : Exchange s c true [])
    (hheard : s.heard = before ++ [x]) (hbefore : ∀ y ∈ before, y.request = c.command)
    (hbuf : c.buf = before.flatMap (·.packet.1.body)) (hx : x.request = c.marker) :
    Inv (s.succeed c.number c.buf) := by
  have hne : c.command ≠ c.marker := fun heq => hex.ids (congrArg (·.packet.id) heq)
  have hstage := hex.stage
  rw [hheard] at hstage
  obtain ⟨hflying, hpending, hanswered⟩ := hstage.end_of_mark hne hx
  have hresult : c.buf = bodies c.number (s.past ++ s.heard) := by
    have hpast : bodies c.number s.past = [] := bodies_eq_nil fun y hy => Nat.ne_of_lt (hex.past y hy)
    have hmarker : bodies c.number [x] = [] := by simp [bodies, hx, Call.marker]
    rw [bodies_append, hpast, List.nil_append, hheard, bodies_append, hmarker, List.append_nil, bodies_command hbefore,
      hbuf]
  have hreturned : ∀ call body, .returned call (.ok body) ∈ (s.succeed c.number c.buf).history →
      .returned call (.ok body) ∈ s.history ∨ call = c.number ∧ body = c.buf := fun call body hret => by
    simpa [State.succeed] using hret
  refine ⟨⟨fun call body hret => ?_, fun call body hret => ?_, fun y hy => ?_, fun r hr r' hr' hun hun' => ?_, h.wire,
    ?_, fun _ e he => ?_⟩, fun _ => ⟨hpending, hanswered, rfl, hflying, ?_, fun r hr hun => ?_⟩⟩
  · show body = bodies call (s.past ++ s.heard)
    rcases hreturned call body hret with hold | ⟨rfl, rfl⟩
    · have hother := (h.returned call body hold).2.1
      rw [bodies_append, bodies_eq_nil fun y hy => hother y (List.mem_append_left _ hy), List.append_nil]
      exact h.result call body hold
    · exact hresult
  · show call < s.calls ∧ (∀ y ∈ [] ++ s.flying, y.request.call ≠ call) ∧ ∀ r ∈ s.pending, r.call ≠ call
    rw [hflying, hpending]
    refine ⟨?_, fun y hy => (List.not_mem_nil hy).elim, fun r hr => (List.not_mem_nil hr).elim⟩
    rcases hreturned call body hret with hold | ⟨rfl, -⟩
    · exact (h.returned call body hold).1
    · exact hex.number
  · show y.request.call < s.calls
    rcases List.mem_append.mp hy with hy | hy
    · exact h.past y hy
    · rw [hex.request_call (List.mem_append_left _ hy)]
      exact hex.number
  · rw [State.Unanswered, State.succeed, List.append_nil] at hun hun'
    exact h.unanswered r hr r' hr' hun hun'
  · exact List.pairwise_append.mpr ⟨h.poisoned, List.pairwise_singleton _ _, fun e he _ _ hfailed =>
      (h.sound hex.broken e he hfailed).elim⟩
  · rcases List.mem_append.mp he with he | he
    · exact h.sound hex.broken e he
    · rw [List.mem_singleton.mp he]
      exact id
  · have hcarries := hex.carries
    rw [hflying] at hcarries
    exact hcarries.of_nil.2
  · rw [State.Unanswered, State.succeed, List.append_nil] at hun
    have hmarker : r = c.marker := hex.asked r hr hun
    exact hun x (by rw [hheard]; simp) (hx.trans hmarker.symm)

/-- A turn of the loop. -/
theorem Inv.turn {before : List Reply} {x : Reply} (h : Core s) (hex : Exchange s c true [])
    (hheard : s.heard = before ++ [x]) (hbefore : ∀ y ∈ before, y.request = c.command)
    (hbuf : c.buf = before.flatMap (·.packet.1.body)) (hsent : c.markerSent = true) (cancelled : Bool) :
    Inv (s.turn cancelled c x.packet.1) := by
  have hmem : x ∈ s.heard ++ s.flying := by
    rw [hheard]
    simp
  have hid := hex.replied x hmem
  rw [State.turn, Call.turn]
  dsimp only
  split_ifs with hmarker
  · -- the id of the marker: its response
    refine Inv.succeed h hex hheard hbefore hbuf ?_
    rcases hex.stage.mem_request hmem with hx | ⟨hx, -⟩
    · rw [hid, hx] at hmarker
      exact (hex.ids hmarker).elim
    · exact hx
  · exact h.fail ..
  · exact h.fail ..
  · exact h.fail ..
  · have hx : x.request = c.command := by
      rcases hex.stage.mem_request hmem with hx | ⟨hx, -⟩
      · exact hx
      · rw [hid, hx] at hmarker
        exact (hmarker rfl).elim
    refine ⟨⟨h.result, h.returned, h.past, h.unanswered, h.wire, h.poisoned, h.sound⟩, ?_, ?_, ?_, ?_⟩
    · dsimp only
      rw [hsent]
      exact ⟨hex.stage, hex.queue, hex.ids, hex.replied, hex.carries, hex.asked, hex.past, hex.number, hex.fresh,
        hex.broken⟩
    · intro hunsent
      rw [hsent] at hunsent
      cases hunsent
    · show ∀ y ∈ s.heard, y.request = c.command
      intro y hy
      rw [hheard, List.mem_append, List.mem_singleton] at hy
      rcases hy with hy | rfl
      · exact hbefore y hy
      · exact hx
    · show c.buf ++ x.packet.1.body = s.heard.flatMap (·.packet.1.body)
      rw [hheard, List.flatMap_append, List.flatMap_singleton, hbuf]

/-- Once a response packet of the command is there, the command is no longer on the way. -/
theorem Exchange.wire_eq_nil (h : Exchange s c false got) (hne : s.heard ++ s.flying ≠ []) : s.wire = [] := by
  have hmap : s.wire.map (·.request) = [] := by
    cases h.stage with
    | asked _ _ _ hreplies => exact (hne hreplies).elim
    | answering hpending hanswered =>
      obtain ⟨r, queue, hqueue⟩ := List.exists_cons_of_ne_nil (h.queue hanswered)
      rw [State.pending, hqueue, List.cons_append, if_neg Bool.false_ne_true, List.cons.injEq] at hpending
      exact (List.append_eq_nil_iff.mp hpending.2).2
    | answered hpending => exact (List.append_eq_nil_iff.mp hpending).2
    | marked _ _ hout => cases hout
    | complete _ _ hout => cases hout
  exact List.map_eq_nil_iff.mp hmap

/-- The marker is written, behind the first response packet. -/
theorem Inv.writeMarker {x : Reply} (h : Core s) (hex : Exchange s c false []) (hheard : s.heard = [x])
    (hbuf : c.buf = []) : Inv (s.write c.marker (.sendMarker c x.packet.1)) := by
  have hne : s.heard ++ s.flying ≠ [] := by
    rw [hheard]
    exact List.cons_ne_nil _ _
  have hx : x.request = c.command := by
    rcases hex.stage.mem_request (x := x) (by rw [hheard]; exact List.mem_cons_self) with hx | ⟨-, hout⟩
    · exact hx
    · cases hout
  have hwire := hex.wire_eq_nil hne
  have hpending : (s.write c.marker (.sendMarker c x.packet.1)).pending = s.pending ++ [c.marker] := by
    simp [State.pending, State.write]
  have hasked : ∀ r ∈ s.requests ++ [c.marker], s.Unanswered r → r = c.marker := by
    intro r hr hun
    rcases List.mem_append.mp hr with hr | hr
    · have hcmd : r = c.command := hex.asked r hr hun
      exact (hun x (by rw [hheard]; simp) (hx.trans hcmd.symm)).elim
    · exact List.mem_singleton.mp hr
  refine ⟨⟨h.result, fun call body hret => ?_, h.past, fun r hr r' hr' hun hun' => ?_, ?_, h.poisoned, h.sound⟩,
    ⟨?_, hex.queue, hex.ids, hex.replied, hex.carries, hasked, hex.past, hex.number, hex.fresh, hex.broken⟩, hbuf, x,
    hheard, hx, rfl⟩
  · obtain ⟨hcalls, hother, hpend⟩ := h.returned call body hret
    refine ⟨hcalls, hother, fun r hr => ?_⟩
    rw [hpending, List.mem_append, List.mem_singleton] at hr
    rcases hr with hr | rfl
    · exact hpend r hr
    · rintro rfl
      exact hex.fresh body hret
  · exact (hasked r hr hun).trans (hasked r' hr' hun').symm
  · show (s.wire ++ _).length ≤ 1
    rw [hwire]
    exact Nat.le_refl _
  · rw [hpending]
    exact hex.stage.send hne

/-- A read returns. -/
theorem Inv.readDone (h : Inv s) (cancelled : Bool) : Inv (s.readDone cancelled) := by
  rw [State.readDone]
  split
  · next c got hphase =>
    have hat := h.2
    rw [hphase] at hat
    obtain ⟨hex, hfirst, hheard, hbuf⟩ := hat
    split
    · exact h
    · exact h.1.fail ..
    · next p hscan =>
      obtain ⟨ps, hps, hcarries⟩ := hex.carries.whole hscan
      obtain ⟨x, flying, hflying, rfl, rfl⟩ := List.map_eq_cons_iff.mp hps
      have hsplit : s.heard ++ [x] ++ flying = s.heard ++ s.flying := by simp [hflying]
      have hun : ∀ r, ({ s with heard := s.heard ++ [x], flying := flying } : State).Unanswered r → s.Unanswered r :=
        fun r hr y hy => hr y (by
          rw [← List.append_assoc]
          exact List.mem_append_left _ hy)
      have hcore : Core { s with heard := s.heard ++ [x], flying := flying } := by
        refine ⟨h.1.result, ?_, h.1.past, fun r hr r' hr' hu hu' => h.1.unanswered r hr r' hr' (hun r hu) (hun r' hu'),
          h.1.wire, h.1.poisoned, h.1.sound⟩
        dsimp only
        rw [hsplit]
        exact h.1.returned
      have hnext : Exchange { s with heard := s.heard ++ [x], flying := flying } c c.markerSent [] := by
        refine ⟨?_, hex.queue, hex.ids, ?_, hcarries, fun r hr hu => hex.asked r hr (hun r hu), hex.past, hex.number,
          hex.fresh, hex.broken⟩
        · dsimp only
          rw [hsplit]
          exact hex.stage
        · dsimp only
          rw [hsplit]
          exact hex.replied
      rw [hflying]
      dsimp only [List.take_succ_cons, List.take_zero, List.drop_succ_cons, List.drop_zero]
      split_ifs with hsent
      · rw [hsent] at hnext
        exact Inv.turn hcore hnext rfl hheard hbuf hsent cancelled
      · have hunsent : c.markerSent = false := by simpa using hsent
        rw [hunsent] at hnext
        have hnil := hfirst hunsent
        refine Inv.writeMarker hcore hnext ?_ ?_
        · simp [hnil]
        · rw [hbuf, hnil]
          rfl
  · exact h

/-- A write returns. -/
theorem Inv.wrote (h : Inv s) (cancelled : Bool) : Inv (s.wrote cancelled) := by
  rw [State.wrote]
  have hat := h.2
  split
  · next c hphase =>
    rw [hphase] at hat
    obtain ⟨hex, hheard, hbuf, hunsent⟩ := hat
    refine ⟨⟨h.1.result, h.1.returned, h.1.past, h.1.unanswered, h.1.wire, h.1.poisoned, h.1.sound⟩, ?_,
      fun _ => hheard, fun y hy => ?_, ?_⟩
    · dsimp only
      rw [hunsent]
      exact ⟨hex.stage, hex.queue, hex.ids, hex.replied, hex.carries, hex.asked, hex.past, hex.number, hex.fresh,
        hex.broken⟩
    · rw [show s.heard = [] from hheard] at hy
      cases hy
    · show c.buf = s.heard.flatMap _
      rw [hheard, hbuf]
      rfl
  · next c first hphase =>
    rw [hphase] at hat
    obtain ⟨hex, hbuf, x, hheard, hx, rfl⟩ := hat
    have hex' : Exchange s { c with markerSent := true } true [] := ⟨hex.stage, hex.queue, hex.ids, hex.replied,
      hex.carries, hex.asked, hex.past, hex.number, hex.fresh, hex.broken⟩
    have hfirst : s.heard = [] ++ [x] := hheard
    exact Inv.turn h.1 hex' hfirst (fun y hy => (List.not_mem_nil hy).elim) hbuf rfl cancelled
  · exact h

/-- Bytes arrive, of those that the read has asked for. -/
theorem Inv.recv {n need : ℕ} (h : Inv s) (hneeds : s.phase.needs = some need) (hn : n ≤ need) : Inv (s.recv n) := by
  rw [State.recv]
  split
  · next c got hphase =>
    have hat := h.2
    rw [hphase] at hat hneeds
    obtain ⟨hex, hrest⟩ := hat
    have hscan : framing.scan got = .more need := by
      rw [Phase.needs, Phase.reading, Option.map_some] at hneeds
      cases hscan : framing.scan got with
      | more n' =>
        rw [hscan] at hneeds
        cases hneeds
        rfl
      | refused | whole p =>
        rw [hscan] at hneeds
        cases hneeds
    have hcarries := hex.carries
    rw [← List.take_append_drop n s.toClient] at hcarries
    have htake := hcarries.take hscan (Nat.le_trans (List.length_take_le _ _) hn)
    exact ⟨⟨h.1.result, h.1.returned, h.1.past, h.1.unanswered, h.1.wire, h.1.poisoned, h.1.sound⟩,
      ⟨hex.stage, hex.queue, hex.ids, hex.replied, htake, hex.asked, hex.past, hex.number, hex.fresh, hex.broken⟩,
      hrest⟩
  · exact h

/-- A call begins. -/
theorem Inv.begin (h : Inv s) (hidle : s.phase = .idle) (line : Bytes) : Inv (s.begin line) := by
  have hat := h.2
  rw [hidle] at hat
  have hcalls : ∀ call body, .returned call (.ok body) ∈ s.history → call < s.calls + 1 := fun call body hret =>
    Nat.lt_succ_of_lt (h.1.returned call body hret).1
  have hpast : ∀ x ∈ s.past, x.request.call < s.calls + 1 := fun x hx => Nat.lt_succ_of_lt (h.1.past x hx)
  rw [State.begin]
  dsimp only
  split_ifs with hbroken
  · have hret : ∀ call body, .returned call (.ok body) ∈ s.history ++ [.returned s.calls (.error .connBroken)] →
        .returned call (.ok body) ∈ s.history := fun call body hret => by simpa using hret
    refine ⟨⟨fun call body hb => h.1.result call body (hret call body hb), fun call body hb => ?_, hpast,
      h.1.unanswered, h.1.wire, ?_, ?_⟩, ?_⟩
    · have hold := hret call body hb
      exact ⟨hcalls call body hold, (h.1.returned call body hold).2⟩
    · refine List.pairwise_append.mpr ⟨h.1.poisoned, List.pairwise_singleton _ _, fun e he e' he' _ => ?_⟩
      rw [List.mem_singleton.mp he']
      exact trivial
    · exact fun hb => by rw [show s.broken = true from hbroken] at hb; cases hb
    · show State.At _ s.phase
      rw [hidle]
      exact fun hb => by rw [show s.broken = true from hbroken] at hb; cases hb
  · have hunbroken : s.broken = false := by simpa using hbroken
    have hquiet := hat hunbroken
    obtain ⟨hqueue, hwire⟩ := List.append_eq_nil_iff.mp hquiet.pending
    have hwire : s.wire = [] := List.map_eq_nil_iff.mp hwire
    have hasked : ∀ r ∈ s.requests ++ [Call.command ⟨s.calls, line, s.nextID, nextID s.nextID, 0, false, []⟩],
        s.Unanswered r → r = Call.command ⟨s.calls, line, s.nextID, nextID s.nextID, 0, false, []⟩ := by
      intro r hr hun
      rcases List.mem_append.mp hr with hr | hr
      · exact (hquiet.requests r hr hun).elim
      · exact List.mem_singleton.mp hr
    have hfresh : ∀ body, .returned s.calls (.ok body) ∉ s.history := fun body hret =>
      Nat.lt_irrefl _ (h.1.returned s.calls body hret).1
    refine ⟨⟨h.1.result, fun call body hret => ⟨hcalls call body hret, (h.1.returned call body hret).2.1, ?_⟩, hpast,
      fun r hr r' hr' hun hun' => (hasked r hr hun).trans (hasked r' hr' hun').symm, ?_, h.1.poisoned, h.1.sound⟩,
      ⟨?_, ?_, (nextID_ne s.nextID).symm, ?_, ?_, hasked, h.1.past, Nat.lt_succ_self _, hfresh, hunbroken⟩,
      hquiet.heard, rfl, rfl⟩
    · simp only [State.pending, State.write, hqueue, hwire, List.nil_append, List.map_cons, List.map_nil,
        List.mem_singleton, forall_eq]
      rintro rfl
      exact hfresh body hret
    · simp [State.write, hwire]
    · refine .asked ?_ hquiet.answered rfl ?_
      · simp [State.pending, State.write, hqueue, hwire]
      · simp [State.write, hquiet.heard, hquiet.flying]
    · simp [State.write, hquiet.answered]
    · simp [State.write, hquiet.heard, hquiet.flying]
    · simp only [State.write, hquiet.toClient, hquiet.flying]
      exact .nil

/-! ## Every run -/

theorem inv_start : Inv start :=
  ⟨⟨nofun, nofun, nofun, nofun, Nat.zero_le _, .nil, nofun⟩, fun _ => ⟨rfl, rfl, rfl, rfl, rfl, nofun⟩⟩

/-- Every step keeps the invariant. -/
theorem Inv.post (h : Inv s) (a : Step) (hpre : a.pre s) : Inv (a.post s) := by
  cases a with
  | execute line => exact h.begin hpre line
  | send n => exact h.send hpre.1 n
  | wrote cancelled => exact h.wrote cancelled
  | recv n =>
    obtain ⟨-, -, need, hneeds, hn⟩ := hpre
    exact h.recv hneeds hn
  | readDone cancelled => exact h.readDone cancelled
  | cutOff cancelled cause => exact h.cutOff cancelled cause
  | serverRead n => exact h.serverRead n
  | reply typ body => exact h.reply typ body
  | finish => exact h.finish hpre.2
  | drop => exact h.drop

/-- **In every run**, a call that succeeds has returned the bodies of the packets that answer its command; no two
requests are unanswered, and no read of the server can get bytes of two; and after a call that has failed, every call
fails and nothing is sent. -/
theorem execute_aligned (h : machine.Reach Machine.Any start s) : Aligned s :=
  (h.invariant inv_start fun _ a hinv hpre _ => hinv.post a hpre).1.aligned

/-- A command with a response of two packets. -/
def fragments : List Step :=
  [.execute [97], .send 10, .serverRead 10, .send 5, .wrote false, .serverRead 5, .reply 0 [98], .reply 0 [99], .recv 4,
    .recv 3, .recv 8, .readDone false, .send 14, .wrote false, .recv 4, .recv 11, .readDone false, .serverRead 14,
    .finish, .reply 0 [], .recv 4, .recv 10, .readDone false]

/-- What calls have returned. -/
def results (history : List Event) : List (ℕ × Option Bytes) :=
  history.filterMap fun
    | .returned call (.ok body) => some (call, some body)
    | .returned call (.error _) => some (call, none)
    | .sent _ => none

theorem execute_aligned_fragments :
    ∃ s : State, Aligned s ∧ results s.history = [(0, some [98, 99])] ∧ bodies 0 s.replies = [98, 99] := by
  have hrun : (machine.exec fragments start).map (fun s => (results s.history, bodies 0 s.replies)) =
      some ([(0, some [98, 99])], [98, 99]) := by decide
  obtain ⟨s, hs, heq⟩ := Machine.reach_of_exec_map hrun
  exact ⟨s, execute_aligned hs, (Prod.mk.inj heq).1, (Prod.mk.inj heq).2⟩

end McServerDashboard.Worker.Rcon
