import McServerDashboard.Lib.Run
import McServerDashboard.Relay.FlowTable

/-!
# Bedrock tunnels

One tunnel, from its bind to the return of `run`: the reader `pumpUDPToQueue`, the sweep loop, and `run` itself with
the pump of the Worker's datagrams. Each takes the lock of the table and the lock of the caps for one step at a time,
and calls the session recorder outside them.

* `Regular`: at most 2 ^ 32 flows, none of them evicted while the reader stores its session id.
* `Inv`: the two maps, what the reader knows, the sessions and the slots.
* **`flows_accounted`**: every order of the steps.
* **`teardown_keeps_slots`**: the final teardown drains the flows and leaves their slots.
-/

namespace McServerDashboard.Relay.Bedrock

open Lib

def maxDatagramPayload : ℕ := 1200

/-- The session recorder. -/
structure Sessions where
  /-- The sessions `0, …, started - 1` have been started. -/
  started : ℕ
  /-- How many times a session has been ended. -/
  ended : ℕ → ℕ
  /-- The flow id of a session (a ghost). -/
  flow : ℕ → ℕ
  /-- The connected datagrams of its flow when it was started (a ghost). -/
  datagrams : ℕ → ℕ

namespace Sessions

def start (s : Sessions) (id datagrams : ℕ) : Sessions :=
  { s with
    started := s.started + 1
    flow := Function.update s.flow s.started id
    datagrams := Function.update s.datagrams s.started datagrams }

/-- `End`. -/
def finish (s : Sessions) (sid : ℕ) : Sessions :=
  { s with ended := Function.update s.ended sid (s.ended sid + 1) }

end Sessions

/-- RakNet's `FLAG_VALID`. -/
def connected : List UInt8 → Bool
  | b :: _ => 0x80 ≤ b
  | [] => false

def unconnectedPing : List UInt8 → Bool
  | b :: _ => b == 0x01
  | [] => false

/-- The flow id before the payload of a frame. -/
def flowID : List UInt8 → Option ℕ
  | a :: b :: c :: d :: _ => some (((a.toNat * 256 + b.toNat) * 256 + c.toNat) * 256 + d.toNat)
  | _ => none

/-- Where `pumpUDPToQueue` stands. -/
inductive Reader (Addr : Type*)
  | reading
  | looking (addr : Addr) (data : List UInt8)
  /-- There is no flow; before `AllowJoin`. -/
  | admitting (addr : Addr) (data : List UInt8)
  /-- In `Acquire`. -/
  | loading (addr : Addr) (data : List UInt8)
  | reserving (addr : Addr) (data : List UInt8)
  | slotting (addr : Addr) (data : List UInt8)
  | undoing
  | creating (addr : Addr) (data : List UInt8)
  /-- Before `sessions.Start`. -/
  | starting (data : List UInt8) (id : ℕ)
  /-- Before `Promote`. -/
  | storing (data : List UInt8) (id sid : ℕ)
  | forwarding (data : List UInt8) (id : ℕ)
  | done

/-- Where the sweep loop stands. -/
inductive Sweep (Addr : Type*)
  | waiting
  /-- `Evict` has read the clock. -/
  | evicting (now : ℕ)
  | releasing (addrs : List Addr) (sids : List ℕ)
  /-- `Release` has yet to take the lock for the first of the addresses. -/
  | unslotting (addr : Addr) (addrs : List Addr) (sids : List ℕ)
  | ending (sids : List ℕ)
  | done

/-- Where `run` stands. -/
inductive Run
  /-- In `pumpQUICToUDP`. -/
  | pumping
  | closing
  /-- In `udpDone.Wait`. -/
  | waiting
  /-- Before the receive on `sweepDone`. -/
  | joining
  | draining
  | ending (sids : List ℕ)
  | returned

structure Tunnel (Addr Ip : Type*) where
  flows : FlowTable Addr
  caps : IPCaps Ip
  sessions : Sessions
  now : ℕ
  udpClosed : Bool
  reader : Reader Addr
  sweep : Sweep Addr
  run : Run

inductive Action (Addr : Type*)
  | tick (n : ℕ)
  /-- A new connection takes the port over, and closes the tunnel. -/
  | takeover
  | datagram (addr : Addr) (data : List UInt8)
  | readFails
  | allowJoin (ok : Bool)
  /-- The reader takes its next step. -/
  | read
  /-- A datagram of the Worker. -/
  | receive (data : List UInt8)
  | pumpEnds
  /-- `run` takes its next step. -/
  | run
  | drain (ps : List ℕ)
  | ticker
  /-- The sweep loop sees `ctx.Done`. -/
  | cancelled
  /-- The sweep takes its next step. -/
  | sweep
  | evict (ps : List ℕ)

/-- The constants of the tunnel, in ticks of the clock, and `HostOf`. -/
structure Params (Addr Ip : Type*) where
  idleTTL : ℕ
  second : ℕ
  host : Addr → Ip

variable {Addr Ip : Type*}

/-- The tunnel as `bind` makes it. -/
def init [Inhabited Addr] (maxConns : ℕ) (globalMax : ℤ) (now : ℕ) : Tunnel Addr Ip where
  flows := .new
  caps := .new maxConns globalMax
  sessions := ⟨0, fun _ => 0, fun _ => 0, fun _ => 0⟩
  now := now
  udpClosed := false
  reader := .reading
  sweep := .waiting
  run := .pumping

/-- The reader has a next step of its own. -/
def Reader.Moves : Reader Addr → Prop
  | .reading | .admitting _ _ | .done => False
  | _ => True

def Sweep.Moves : Sweep Addr → Prop
  | .releasing _ _ | .unslotting _ _ _ | .ending _ => True
  | _ => False

/-- `run` waits for the reader, and for the sweep. -/
def Tunnel.RunMoves (t : Tunnel Addr Ip) : Prop :=
  match t.run with
  | .closing | .ending _ => True
  | .waiting => t.reader = .done
  | .joining => t.sweep = .done
  | _ => False

variable (P : Params Addr Ip)

def pre (t : Tunnel Addr Ip) : Action Addr → Prop
  | .tick _ | .takeover => True
  | .datagram _ _ => t.reader = .reading ∧ t.udpClosed = false
  | .readFails => t.reader = .reading
  | .allowJoin _ => ∃ addr data, t.reader = .admitting addr data
  | .read => t.reader.Moves
  | .receive _ | .pumpEnds => t.run = .pumping
  | .run => t.RunMoves
  | .drain ps => t.run = .draining ∧ ps.Nodup ∧ ∀ p, p ∈ ps ↔ t.flows.Live p
  | .ticker | .cancelled => t.sweep = .waiting
  | .sweep => t.sweep.Moves
  | .evict ps => ∃ now, t.sweep = .evicting now ∧ ps.Nodup ∧ ∀ p, p ∈ ps ↔ t.flows.Live p ∧ t.flows.Idle P.idleTTL now p

variable [DecidableEq Addr] [DecidableEq Ip]

namespace Tunnel

variable (t : Tunnel Addr Ip)

/-- `pumpUDPToQueue`, one step of it. -/
def read : Tunnel Addr Ip :=
  match t.reader with
  | .looking addr data =>
    match t.flows.lookup t.now addr (connected data) with
    | (_, none) => { t with reader := .admitting addr data }
    | (f, some (id, promote)) =>
      { t with flows := f, reader := if promote then .starting data id else .forwarding data id }
  | .loading addr data => { t with reader := if t.caps.full then .reading else .reserving addr data }
  | .reserving addr data =>
    { t with caps := t.caps.add 1, reader := if (t.caps.add 1).exceeded then .undoing else .slotting addr data }
  | .slotting addr data =>
    match t.caps.take (P.host addr) with
    | none => { t with reader := .undoing }
    | some caps => { t with caps := caps, reader := .creating addr data }
  | .undoing => { t with caps := t.caps.add (-1), reader := .reading }
  | .creating addr data =>
    { t with flows := t.flows.create t.now addr (connected data), reader := .forwarding data t.flows.nextID }
  | .starting data id =>
    { t with
      sessions := t.sessions.start id ((t.flows.byID id).elim 0 fun p => (t.flows.entries p).seen)
      reader := .storing data id t.sessions.started }
  | .storing data id sid => { t with flows := t.flows.promote id sid, reader := .forwarding data id }
  | .forwarding data id =>
    { t with
      flows := if unconnectedPing data then (t.flows.allowPing P.second t.now id).1 else t.flows
      reader := .reading }
  | _ => t

/-- The reader and the verdict of `AllowJoin`. -/
def allowJoin (ok : Bool) : Tunnel Addr Ip :=
  match t.reader with
  | .admitting addr data => { t with reader := if ok then .loading addr data else .reading }
  | _ => t

/-- `sweepOnce` after `Evict`, one step of it. -/
def sweepStep : Tunnel Addr Ip :=
  match t.sweep with
  | .releasing [] sids => { t with sweep := .ending sids }
  | .releasing (addr :: addrs) sids => { t with caps := t.caps.add (-1), sweep := .unslotting addr addrs sids }
  | .unslotting addr addrs sids => { t with caps := t.caps.give (P.host addr), sweep := .releasing addrs sids }
  | .ending [] => { t with sweep := .waiting }
  | .ending (sid :: sids) => { t with sessions := t.sessions.finish sid, sweep := .ending sids }
  | _ => t

/-- `run` after the pump, one step of it. -/
def runStep : Tunnel Addr Ip :=
  match t.run with
  | .closing => { t with udpClosed := true, run := .waiting }
  | .waiting => { t with run := .joining }
  | .joining => { t with run := .draining }
  | .ending [] => { t with run := .returned }
  | .ending (sid :: sids) => { t with sessions := t.sessions.finish sid, run := .ending sids }
  | _ => t

/-- `pumpQUICToUDP`: a frame that is too short is dropped. -/
def receive (data : List UInt8) : Tunnel Addr Ip :=
  match flowID data with
  | none => t
  | some id => { t with flows := (t.flows.addrByID t.now id).1 }

end Tunnel

def post (t : Tunnel Addr Ip) : Action Addr → Tunnel Addr Ip
  | .tick n => { t with now := t.now + n }
  | .takeover => { t with udpClosed := true }
  | .datagram addr data =>
    { t with reader := if maxDatagramPayload < data.length then .reading else .looking addr data }
  | .readFails => { t with reader := .done }
  | .allowJoin ok => t.allowJoin ok
  | .read => t.read P
  | .receive data => t.receive data
  | .pumpEnds => { t with run := .closing }
  | .run => t.runStep
  | .drain ps => { t with flows := (t.flows.drain ps).1, run := .ending (t.flows.drain ps).2 }
  | .ticker => { t with sweep := .evicting t.now }
  | .cancelled => { t with sweep := .done }
  | .sweep => t.sweepStep P
  | .evict ps =>
    { t with flows := (t.flows.evict ps).1, sweep := .releasing (t.flows.evict ps).2.1 (t.flows.evict ps).2.2 }

def machine : Machine (Tunnel Addr Ip) (Action Addr) := ⟨pre P, post P⟩

variable {f : FlowTable Addr} {s : Sessions} {storing : Option (ℕ × ℕ)} {pending pending' ps : List ℕ}
  {p id sid n now : ℕ} {e : FlowEntry Addr} {addr : Addr} {counts : Bool} {data : List UInt8}

section Accounts

omit [DecidableEq Addr] [DecidableEq Ip]

/-- The flow that the reader is about to report, or to store the session id of. -/
def Reader.promoting : Reader Addr → Option ℕ
  | .starting _ id | .storing _ id _ => some id
  | _ => none

/-- At most 2 ^ 32 flows; no flow is evicted between the datagram that promotes it and `Promote`. -/
def Regular (t : Tunnel Addr Ip) : Action Addr → Prop
  | .read => (∃ addr data, t.reader = .creating addr data) → t.flows.created < 2 ^ 32
  | .evict ps => ∀ id, t.reader.promoting = some id → ∀ p ∈ ps, (t.flows.entries p).id ≠ id
  | _ => True

/-! ## The sessions -/

/-- Every session is of one flow, and is open, about to be ended, or ended. -/
structure Accounts (f : FlowTable Addr) (s : Sessions) (storing : Option (ℕ × ℕ)) (pending : List ℕ) : Prop where
  flow : ∀ sid, sid < s.started → s.flow sid < f.created ∧ flowPromoteThreshold ≤ (f.entries (s.flow sid)).seen
  datagrams : ∀ sid, sid < s.started → s.datagrams sid = flowPromoteThreshold
  inj : ∀ sid sid', sid < s.started → sid' < s.started → s.flow sid = s.flow sid' → sid = sid'
  /-- A promoted flow has its session. -/
  promoted : ∀ p, p < f.created → (f.entries p).promoted = true →
    (f.entries p).sessionID < s.started ∧ s.flow (f.entries p).sessionID = p
  /-- The session of a live flow is stored, or about to be. -/
  stored : ∀ sid, sid < s.started → f.Live (s.flow sid) → storing = some (s.flow sid, sid) ∨
    (f.entries (s.flow sid)).promoted = true ∧ (f.entries (s.flow sid)).sessionID = sid
  closed : ∀ sid, sid < s.started → ¬ f.Live (s.flow sid) → s.ended sid + pending.count sid = 1
  opened : ∀ sid, sid < s.started → f.Live (s.flow sid) → s.ended sid + pending.count sid = 0
  unstarted : ∀ sid, s.started ≤ sid → s.ended sid + pending.count sid = 0

theorem accounts_init [Inhabited Addr] :
    Accounts (.new : FlowTable Addr) ⟨0, fun _ => 0, fun _ => 0, fun _ => 0⟩ none [] := by
  constructor <;> simp [FlowTable.new]

/-- What a step may change of an entry, apart from `Promote`. -/
structure Touched (e e' : FlowEntry Addr) : Prop where
  id : e'.id = e.id
  addr : e'.addr = e.addr
  promoted : e'.promoted = e.promoted
  sessionID : e'.sessionID = e.sessionID
  seen : e.seen ≤ e'.seen
  ingress : e.ingress = min flowPromoteThreshold e.seen → e'.ingress = min flowPromoteThreshold e'.seen

theorem Touched.kept (h : Touched (f.entries p) e) : f.Kept p e := ⟨h.id, h.addr⟩

theorem touched_touch : Touched e (e.touch now counts).1 := by
  unfold FlowEntry.touch
  split_ifs with hc hle
  · exact ⟨rfl, rfl, rfl, rfl, Nat.le_succ _, fun h => by simp only; omega⟩
  · exact ⟨rfl, rfl, rfl, rfl, Nat.le_succ _, fun h => by simp only; omega⟩
  · exact ⟨rfl, rfl, rfl, rfl, Nat.le_refl _, fun h => h⟩

/-- The fifth connected datagram is the one that promotes. -/
theorem promotes_touch (h : e.ingress = min flowPromoteThreshold e.seen) (hp : (e.touch now counts).2 = true) :
    e.seen + 1 = flowPromoteThreshold ∧ (e.touch now counts).1.seen = flowPromoteThreshold := by
  unfold FlowEntry.touch at hp ⊢
  split_ifs at hp ⊢ with hc hle
  simp only [beq_iff_eq] at hp ⊢
  omega

theorem touched_allowPing {second : ℕ} : Touched e (e.allowPing second now).1 ∧ (e.allowPing second now).1.seen = e.seen := by
  unfold FlowEntry.allowPing
  split_ifs <;> exact ⟨⟨rfl, rfl, rfl, rfl, Nat.le_refl _, fun h => h⟩, rfl⟩

theorem Accounts.set (h : Accounts f s storing pending) (ht : Touched (f.entries p) e) :
    Accounts (f.set p e) s storing pending := by
  have hentry : ∀ q, ((f.set p e).entries q).promoted = (f.entries q).promoted ∧
      ((f.set p e).entries q).sessionID = (f.entries q).sessionID ∧
      (f.entries q).seen ≤ ((f.set p e).entries q).seen := fun q => by
    rw [FlowTable.entries_set]
    split_ifs with hq
    · subst hq
      exact ⟨ht.promoted, ht.sessionID, ht.seen⟩
    · exact ⟨rfl, rfl, Nat.le_refl _⟩
  have hlive : ∀ q, (f.set p e).Live q ↔ f.Live q := fun q => FlowTable.live_set ht.kept
  refine ⟨fun sid hsid => ?_, h.datagrams, h.inj, fun q hq hp => ?_, fun sid hsid hl => ?_, fun sid hsid hl => ?_,
    fun sid hsid hl => ?_, h.unstarted⟩
  · exact ⟨(h.flow sid hsid).1, (h.flow sid hsid).2.trans (hentry _).2.2⟩
  · rw [(hentry q).1] at hp
    rw [(hentry q).2.1]
    exact h.promoted q hq hp
  · rw [(hentry _).1, (hentry _).2.1]
    exact h.stored sid hsid ((hlive _).mp hl)
  · exact h.closed sid hsid fun hl' => hl ((hlive _).mpr hl')
  · exact h.opened sid hsid ((hlive _).mp hl)

theorem Accounts.create [DecidableEq Addr] (h : Accounts f s storing pending) (haddr : f.byAddr addr = none) :
    Accounts (f.create now addr counts) s storing pending := by
  have hentry : ∀ q, q ≠ f.created → (f.create now addr counts).entries q = f.entries q := fun q hq =>
    Function.update_of_ne hq _ _
  have hflow : ∀ sid, sid < s.started → s.flow sid ≠ f.created := fun sid hsid => Nat.ne_of_lt (h.flow sid hsid).1
  have hlive : ∀ sid, sid < s.started → ((f.create now addr counts).Live (s.flow sid) ↔ f.Live (s.flow sid)) :=
    fun sid hsid => by
      rw [FlowTable.live_create haddr]
      exact or_iff_left (hflow sid hsid)
  refine ⟨fun sid hsid => ?_, h.datagrams, h.inj, fun q hq hp => ?_, fun sid hsid hl => ?_, fun sid hsid hl => ?_,
    fun sid hsid hl => ?_, h.unstarted⟩
  · rw [hentry _ (hflow sid hsid)]
    exact ⟨Nat.lt_succ_of_lt (h.flow sid hsid).1, (h.flow sid hsid).2⟩
  · by_cases hq' : q = f.created
    · simp [hq', FlowTable.create] at hp
    · rw [hentry q hq'] at hp ⊢
      exact h.promoted q (Nat.lt_of_le_of_ne (Nat.le_of_lt_succ hq) hq') hp
  · rw [hentry _ (hflow sid hsid)]
    exact h.stored sid hsid ((hlive sid hsid).mp hl)
  · exact h.closed sid hsid fun hl' => hl ((hlive sid hsid).mpr hl')
  · exact h.opened sid hsid ((hlive sid hsid).mp hl)

/-- `sessions.Start` for a flow that has no session yet. -/
theorem Accounts.start (h : Accounts f s none pending) (hf : f.Valid) (hlive : f.Live id)
    (hseen : (f.entries id).seen = flowPromoteThreshold) (hnew : ∀ sid, sid < s.started → s.flow sid ≠ id) :
    Accounts f (s.start id flowPromoteThreshold) (some (id, s.started)) pending := by
  have hflow : ∀ sid, sid < s.started → (s.start id flowPromoteThreshold).flow sid = s.flow sid := fun sid hsid =>
    Function.update_of_ne (Nat.ne_of_lt hsid) _ _
  have hself : (s.start id flowPromoteThreshold).flow s.started = id := Function.update_self _ _ _
  have hcases : ∀ sid, sid < (s.start id flowPromoteThreshold).started → sid < s.started ∨ sid = s.started :=
    fun sid hsid => Nat.lt_or_eq_of_le (Nat.le_of_lt_succ hsid)
  refine ⟨fun sid hsid => ?_, fun sid hsid => ?_, fun sid sid' hsid hsid' he => ?_, fun p hp hpr => ?_,
    fun sid hsid hl => ?_, fun sid hsid hl => ?_, fun sid hsid hl => ?_, fun sid hsid => ?_⟩
  · rcases hcases sid hsid with hlt | rfl
    · rw [hflow sid hlt]
      exact h.flow sid hlt
    · rw [hself]
      exact ⟨hf.lt hlive, Nat.le_of_eq hseen.symm⟩
  · rcases hcases sid hsid with hlt | rfl
    · exact (Function.update_of_ne (Nat.ne_of_lt hlt) _ _).trans (h.datagrams sid hlt)
    · exact Function.update_self _ _ _
  · rcases hcases sid hsid with hlt | rfl <;> rcases hcases sid' hsid' with hlt' | rfl
    · rw [hflow sid hlt, hflow sid' hlt'] at he
      exact h.inj sid sid' hlt hlt' he
    · rw [hflow sid hlt, hself] at he
      exact absurd he (hnew sid hlt)
    · rw [hflow sid' hlt', hself] at he
      exact absurd he.symm (hnew sid' hlt')
    · rfl
  · obtain ⟨h1, h2⟩ := h.promoted p hp hpr
    exact ⟨Nat.lt_succ_of_lt h1, (hflow _ h1).trans h2⟩
  · rcases hcases sid hsid with hlt | rfl
    · rw [hflow sid hlt] at hl ⊢
      rcases h.stored sid hlt hl with hs | hs
      · cases hs
      · exact .inr hs
    · exact .inl (by rw [hself])
  · rcases hcases sid hsid with hlt | rfl
    · rw [hflow sid hlt] at hl
      exact h.closed sid hlt hl
    · rw [hself] at hl
      exact absurd hlive hl
  · rcases hcases sid hsid with hlt | rfl
    · rw [hflow sid hlt] at hl
      exact h.opened sid hlt hl
    · exact h.unstarted _ (Nat.le_refl _)
  · exact h.unstarted sid (Nat.le_of_succ_le hsid)

/-- `Promote` stores the session of a flow that is live. -/
theorem Accounts.promote (h : Accounts f s (some (id, sid)) pending) (hf : f.Valid) (hlive : f.Live id)
    (hsid : sid < s.started) (hflow : s.flow sid = id) : Accounts (f.promote id sid) s none pending := by
  have hid : f.byID id = some id := hf.byID_iff.mpr ⟨hlive, hf.number id (hf.lt hlive)⟩
  have hkept : f.Kept id { f.entries id with promoted := true, sessionID := sid } := ⟨rfl, rfl⟩
  have heq : f.promote id sid = f.set id { f.entries id with promoted := true, sessionID := sid } := by
    rw [FlowTable.promote, hid]
  have hseen : ∀ q, ((f.promote id sid).entries q).seen = (f.entries q).seen := fun q => by
    rw [heq, FlowTable.entries_set]
    split_ifs with hq
    · rw [hq]
    · rfl
  have hl : ∀ q, (f.promote id sid).Live q ↔ f.Live q := fun q => by rw [heq, FlowTable.live_set hkept]
  refine ⟨fun x hx => ?_, h.datagrams, h.inj, fun q hq hp => ?_, fun x hx hlx => .inr ?_,
    fun x hx hlx => h.closed x hx fun hlx' => hlx ((hl _).mpr hlx'),
    fun x hx hlx => h.opened x hx ((hl _).mp hlx), h.unstarted⟩
  · rw [hseen, heq]
    exact h.flow x hx
  · rw [heq, FlowTable.entries_set] at hp ⊢
    split_ifs at hp ⊢ with hq'
    · exact ⟨hsid, hflow.trans hq'.symm⟩
    · rw [heq] at hq
      exact h.promoted q hq hp
  · rw [heq, FlowTable.entries_set]
    split_ifs with hx'
    · exact ⟨rfl, h.inj _ _ hsid hx (hflow.trans hx'.symm)⟩
    · rcases h.stored x hx ((hl _).mp hlx) with hs | hs
      · cases hs
        exact absurd rfl hx'
      · exact hs

/-- `End` of a session that is pending. -/
theorem Accounts.finish (h : Accounts f s storing pending) (hcount : ∀ x, pending.count x = pending'.count x + if sid = x then 1 else 0) :
    Accounts f (s.finish sid) storing pending' := by
  have hsum : ∀ x, (s.finish sid).ended x + pending'.count x = s.ended x + pending.count x := fun x => by
    rw [hcount x, Sessions.finish]
    simp only [Function.update_apply, eq_comm (a := x)]
    split_ifs with hx
    · rw [hx]
      omega
    · omega
  refine ⟨h.flow, h.datagrams, h.inj, h.promoted, h.stored, fun x hx hl => ?_, fun x hx hl => ?_, fun x hx => ?_⟩
  · rw [hsum]
    exact h.closed x hx hl
  · rw [hsum]
    exact h.opened x hx hl
  · rw [hsum]
    exact h.unstarted x hx

theorem mem_endedSessions :
    sid ∈ f.endedSessions ps ↔ ∃ p ∈ ps, (f.entries p).promoted = true ∧ (f.entries p).sessionID = sid := by
  simp [FlowTable.endedSessions, and_assoc]

/-- The flows `ps` leave the table, and their sessions become pending. -/
theorem Accounts.surface {f' : FlowTable Addr} (h : Accounts f s storing pending) (hf : f.Valid) (hnd : ps.Nodup)
    (hps : ∀ p ∈ ps, f.Live p) (hstoring : ∀ x, storing = some x → x.1 ∉ ps)
    (hentries : f'.entries = f.entries) (hcreated : f'.created = f.created)
    (hlive : ∀ p, f'.Live p ↔ f.Live p ∧ p ∉ ps)
    (hcount : ∀ x, pending'.count x = pending.count x + (f.endedSessions ps).count x) :
    Accounts f' s storing pending' := by
  have hpromoted : ∀ p ∈ ps, (f.entries p).promoted = true →
      (f.entries p).sessionID < s.started ∧ s.flow (f.entries p).sessionID = p := fun p hp =>
    h.promoted p (hf.lt (hps p hp))
  have hended : ∀ x, x < s.started → (x ∈ f.endedSessions ps ↔ s.flow x ∈ ps) := fun x hx => by
    rw [mem_endedSessions]
    constructor
    · rintro ⟨p, hp, hpr, rfl⟩
      rwa [(hpromoted p hp hpr).2]
    · intro hp
      rcases h.stored x hx (hps _ hp) with hs | ⟨h1, h2⟩
      · exact absurd hp (hstoring _ hs)
      · exact ⟨_, hp, h1, h2⟩
  have hnodup : (f.endedSessions ps).Nodup := by
    refine List.Nodup.map_on (fun p hp q hq he => ?_) (hnd.filter _)
    rw [List.mem_filter] at hp hq
    rw [← (hpromoted p hp.1 hp.2).2, ← (hpromoted q hq.1 hq.2).2, he]
  have hone : ∀ x, x < s.started → (f.endedSessions ps).count x = if s.flow x ∈ ps then 1 else 0 := fun x hx => by
    rw [hnodup.count]
    simp only [hended x hx]
  refine ⟨fun x hx => ?_, h.datagrams, h.inj, fun q hq hp => ?_, fun x hx hl => ?_, fun x hx hl => ?_,
    fun x hx hl => ?_, fun x hx => ?_⟩
  · rw [hentries, hcreated]
    exact h.flow x hx
  · rw [hentries] at hp ⊢
    exact h.promoted q (hcreated ▸ hq) hp
  · rw [hentries]
    exact h.stored x hx ((hlive _).mp hl).1
  · rw [hcount, hone x hx]
    rw [hlive] at hl
    by_cases hp : s.flow x ∈ ps
    · have := h.opened x hx (hps _ hp)
      rw [if_pos hp]
      omega
    · have := h.closed x hx fun hl' => hl ⟨hl', hp⟩
      rw [if_neg hp]
      omega
  · obtain ⟨hl, hp⟩ := (hlive _).mp hl
    have := h.opened x hx hl
    rw [hcount, hone x hx, if_neg hp]
    omega
  · have hnot : x ∉ f.endedSessions ps := fun hm => by
      obtain ⟨p, hp, hpr, rfl⟩ := mem_endedSessions.mp hm
      exact absurd hx (Nat.not_le_of_lt (hpromoted p hp hpr).1)
    rw [hcount, List.count_eq_zero_of_not_mem hnot]
    exact h.unstarted x hx


end Accounts

/-! ## The invariant -/

/-- What the reader knows. -/
def Reader.Ok (f : FlowTable Addr) (s : Sessions) : Reader Addr → Prop
  | .admitting addr _ | .loading addr _ | .reserving addr _ | .slotting addr _ | .creating addr _ => f.byAddr addr = none
  | .starting _ id =>
    f.Live id ∧ (f.entries id).seen = flowPromoteThreshold ∧ ∀ sid, sid < s.started → s.flow sid ≠ id
  | .storing _ id sid => f.Live id ∧ sid < s.started ∧ s.flow sid = id
  | _ => True

/-- The flow and the session that the reader has yet to store. -/
def Reader.stored : Reader Addr → Option (ℕ × ℕ)
  | .storing _ id sid => some (id, sid)
  | _ => none

/-- The address for which the reader holds a slot. -/
def Reader.slot : Reader Addr → List Addr
  | .creating addr _ => [addr]
  | _ => []

/-- The addresses whose slots the sweep has yet to release. -/
def Sweep.addrs : Sweep Addr → List Addr
  | .releasing addrs _ => addrs
  | .unslotting addr addrs _ => addr :: addrs
  | _ => []

/-- The sessions that the sweep has yet to end. -/
def Sweep.sids : Sweep Addr → List ℕ
  | .releasing _ sids | .unslotting _ _ sids | .ending sids => sids
  | _ => []

/-- The sessions that `run` has yet to end. -/
def Run.sids : Run → List ℕ
  | .ending sids => sids
  | _ => []

/-- `run` has waited for the reader. -/
def Run.Waited : Run → Prop
  | .joining | .draining | .ending _ | .returned => True
  | _ => False

/-- `run` has waited for the sweep. -/
def Run.Joined : Run → Prop
  | .draining | .ending _ | .returned => True
  | _ => False

/-- `run` has drained the table. -/
def Run.Drained : Run → Prop
  | .ending _ | .returned => True
  | _ => False

/-- The per-IP slots, while the flows are in the table. -/
def Slots (t : Tunnel Addr Ip) : Prop :=
  0 < t.caps.maxConns → ¬ t.run.Drained → ∀ ip, t.caps.conns ip = (t.flows.liveOf P.host ip).card +
    (t.reader.slot ++ t.sweep.addrs).countP fun a => P.host a = ip

structure Inv (t : Tunnel Addr Ip) : Prop where
  valid : t.flows.Valid
  reader : t.reader.Ok t.flows t.sessions
  accounts : Accounts t.flows t.sessions t.reader.stored (t.sweep.sids ++ t.run.sids)
  slots : Slots P t
  waited : t.run.Waited → t.reader = .done
  joined : t.run.Joined → t.sweep = .done
  drained : t.run.Drained → ∀ p, ¬ t.flows.Live p

variable {P} {t u : Tunnel Addr Ip} {a : Action Addr} {r : Reader Addr}

theorem inv_init [Inhabited Addr] {maxConns : ℕ} {globalMax : ℤ} : Inv P (init maxConns globalMax now) := by
  refine ⟨FlowTable.valid_new, trivial, accounts_init, fun _ _ ip => ?_, ?_, ?_, ?_⟩
  · rfl
  all_goals exact fun h => absurd h id

/-! ### The reader -/

/-- The reader goes on with the table, the sessions and the caps as they are. -/
theorem Inv.goto (h : Inv P t) (hr : r.Ok t.flows t.sessions) (hstored : r.stored = t.reader.stored)
    (hslot : r.slot = t.reader.slot) (hdone : t.reader ≠ .done) : Inv P { t with reader := r } := by
  refine ⟨h.valid, hr, hstored ▸ h.accounts, ?_, fun hw => absurd (h.waited hw) hdone, h.joined, h.drained⟩
  have hs := h.slots
  unfold Slots at hs ⊢
  rwa [hslot]

/-- The reader changes the entry of a flow. -/
theorem Inv.touch (h : Inv P t) (he : Touched (t.flows.entries p) e) (hlive : t.flows.Live p)
    (hr : r.Ok (t.flows.set p e) t.sessions) (hstored : r.stored = t.reader.stored) (hslot : r.slot = t.reader.slot)
    (hdone : t.reader ≠ .done) : Inv P { t with flows := t.flows.set p e, reader := r } := by
  refine ⟨h.valid.set he.kept (he.ingress (h.valid.ingress p (h.valid.lt hlive))), hr, hstored ▸ h.accounts.set he, ?_,
    fun hw => absurd (h.waited hw) hdone, h.joined, fun hd q hq => h.drained hd q ((FlowTable.live_set he.kept).mp hq)⟩
  have hs := h.slots
  unfold Slots at hs ⊢
  rw [hslot]
  simpa only [FlowTable.liveOf_set he.kept] using hs

/-- The reader changes the caps. -/
theorem Inv.caps {caps : IPCaps Ip} (h : Inv P t) (hr : r.Ok t.flows t.sessions) (hstored : r.stored = t.reader.stored)
    (hmax : caps.maxConns = t.caps.maxConns) (hconns : 0 < t.caps.maxConns → ∀ ip,
      caps.conns ip + t.reader.slot.countP (fun a => P.host a = ip) =
        t.caps.conns ip + r.slot.countP fun a => P.host a = ip)
    (hdone : t.reader ≠ .done) : Inv P { t with caps := caps, reader := r } := by
  refine ⟨h.valid, hr, hstored ▸ h.accounts, fun hpos hnd ip => ?_, fun hw => absurd (h.waited hw) hdone, h.joined,
    h.drained⟩
  rw [hmax] at hpos
  have hs := h.slots hpos hnd ip
  have hc := hconns hpos ip
  rw [List.countP_append] at hs ⊢
  simp only
  omega

theorem Inv.lookup (h : Inv P t) (hr : t.reader = .looking addr data) : Inv P (t.read P) := by
  rw [Tunnel.read, hr]
  simp only [FlowTable.lookup]
  cases ha : t.flows.byAddr addr with
  | none => exact h.goto ha (by rw [hr]; rfl) (by rw [hr]; rfl) (by simp [hr])
  | some p =>
    obtain ⟨hlive, -⟩ := h.valid.byAddr_iff.mp ha
    have hin := h.valid.ingress p (h.valid.lt hlive)
    have hnum := h.valid.number p (h.valid.lt hlive)
    refine h.touch touched_touch hlive ?_ ?_ ?_ (by simp [hr])
    · split_ifs with hp
      · obtain ⟨hfour, hfive⟩ := promotes_touch hin hp
        rw [hnum]
        refine ⟨(FlowTable.live_set touched_touch.kept).mpr hlive, ?_, fun sid hsid he => ?_⟩
        · rw [FlowTable.entries_set, if_pos rfl]
          exact hfive
        · have := (h.accounts.flow sid hsid).2
          rw [he] at this
          omega
      · trivial
    · rw [hr]
      split_ifs <;> rfl
    · rw [hr]
      split_ifs <;> rfl

theorem Inv.slot (h : Inv P t) (hr : t.reader = .slotting addr data) : Inv P (t.read P) := by
  have hok := h.reader
  rw [hr] at hok
  rw [Tunnel.read, hr]
  simp only
  cases hc : t.caps.take (P.host addr) with
  | none => exact h.goto trivial (by rw [hr]; rfl) (by rw [hr]; rfl) (by simp [hr])
  | some caps =>
    refine h.caps hok (by rw [hr]; rfl) (IPCaps.maxConns_of_take hc) (fun hpos ip => ?_) (by simp [hr])
    rw [hr, IPCaps.conns_of_take hc hpos ip]
    simp [Reader.slot, List.countP_cons]

theorem Inv.create (h : Inv P t) (hr : t.reader = .creating addr data) (hlt : t.flows.created < 2 ^ 32) :
    Inv P (t.read P) := by
  have haddr := h.reader
  rw [hr] at haddr
  rw [Tunnel.read, hr]
  have hacc := h.accounts
  rw [hr] at hacc
  have hnd : ¬ t.run.Drained := fun hd => by
    have hw : t.run.Waited := by
      cases hrun : t.run <;> rw [hrun] at hd <;> first | exact absurd hd id | trivial
    exact absurd (hr.symm.trans (h.waited hw)) (by simp)
  refine ⟨h.valid.create haddr hlt, trivial, hacc.create haddr, fun hpos _ ip => ?_,
    fun hw => absurd (hr.symm.trans (h.waited hw)) (by simp), h.joined, fun hd => absurd hd hnd⟩
  have hs := h.slots hpos hnd ip
  rw [hr] at hs
  simp only [Reader.slot, List.nil_append, List.singleton_append, List.countP_cons, decide_eq_true_eq] at hs ⊢
  rw [FlowTable.card_liveOf_create h.valid haddr hlt]
  omega

theorem Inv.start (h : Inv P t) (hr : t.reader = .starting data id) : Inv P (t.read P) := by
  have hok := h.reader
  rw [hr] at hok
  obtain ⟨hlive, hseen, hnew⟩ := hok
  have hid : t.flows.byID id = some id := h.valid.byID_iff.mpr ⟨hlive, h.valid.number id (h.valid.lt hlive)⟩
  have hacc := h.accounts
  rw [hr] at hacc
  rw [Tunnel.read, hr]
  simp only [hid, Option.elim_some, hseen]
  refine ⟨h.valid, ⟨hlive, Nat.lt_succ_self _, Function.update_self _ _ _⟩, hacc.start h.valid hlive hseen hnew,
    fun hpos hnd ip => ?_, fun hw => absurd (hr.symm.trans (h.waited hw)) (by simp), h.joined, h.drained⟩
  have hs := h.slots hpos hnd ip
  rw [hr] at hs
  exact hs

theorem Inv.store (h : Inv P t) (hr : t.reader = .storing data id sid) : Inv P (t.read P) := by
  have hok := h.reader
  rw [hr] at hok
  obtain ⟨hlive, hsid, hflow⟩ := hok
  have hid : t.flows.byID id = some id := h.valid.byID_iff.mpr ⟨hlive, h.valid.number id (h.valid.lt hlive)⟩
  have hkept : t.flows.Kept id { t.flows.entries id with promoted := true, sessionID := sid } := ⟨rfl, rfl⟩
  have heq : t.flows.promote id sid = t.flows.set id { t.flows.entries id with promoted := true, sessionID := sid } := by
    rw [FlowTable.promote, hid]
  have hacc := h.accounts
  rw [hr] at hacc
  rw [Tunnel.read, hr]
  refine ⟨?_, trivial, hacc.promote h.valid hlive hsid hflow, fun hpos hnd ip => ?_,
    fun hw => absurd (hr.symm.trans (h.waited hw)) (by simp), h.joined, fun hd q hq => ?_⟩
  · simp only [heq]
    exact h.valid.set hkept (h.valid.ingress id (h.valid.lt hlive))
  · have hs := h.slots hpos hnd ip
    rw [hr] at hs
    simp only [heq, FlowTable.liveOf_set hkept]
    exact hs
  · simp only [heq, FlowTable.live_set hkept] at hq
    exact h.drained hd q hq

theorem Inv.forward (h : Inv P t) (hr : t.reader = .forwarding data id) : Inv P (t.read P) := by
  rw [Tunnel.read, hr]
  simp only
  split_ifs
  · rw [FlowTable.allowPing]
    cases hid : t.flows.byID id with
    | none => exact h.goto trivial (by rw [hr]; rfl) (by rw [hr]; rfl) (by simp [hr])
    | some p =>
      exact h.touch touched_allowPing.1 (h.valid.byID_iff.mp hid).1 trivial (by rw [hr]; rfl) (by rw [hr]; rfl) (by simp [hr])
  · exact h.goto trivial (by rw [hr]; rfl) (by rw [hr]; rfl) (by simp [hr])

theorem Inv.read (h : Inv P t) (hlt : (∃ addr data, t.reader = .creating addr data) → t.flows.created < 2 ^ 32) :
    Inv P (t.read P) := by
  have hok := h.reader
  cases hr : t.reader with
  | looking addr data => exact h.lookup hr
  | slotting addr data => exact h.slot hr
  | creating addr data => exact h.create hr (hlt ⟨addr, data, hr⟩)
  | starting data id => exact h.start hr
  | storing data id sid => exact h.store hr
  | forwarding data id => exact h.forward hr
  | loading addr data =>
    rw [hr] at hok
    rw [Tunnel.read, hr]
    refine h.goto ?_ ?_ ?_ (by simp [hr])
    · split_ifs
      · trivial
      · exact hok
    · rw [hr]
      split_ifs <;> rfl
    · rw [hr]
      split_ifs <;> rfl
  | reserving addr data =>
    rw [hr] at hok
    rw [Tunnel.read, hr]
    refine h.caps ?_ ?_ (IPCaps.add_conns 1).2 (fun _ ip => ?_) (by simp [hr])
    · split_ifs
      · trivial
      · exact hok
    · rw [hr]
      split_ifs <;> rfl
    · rw [(IPCaps.add_conns 1).1, hr]
      split_ifs <;> rfl
  | undoing =>
    rw [Tunnel.read, hr]
    refine h.caps trivial (by rw [hr]; rfl) (IPCaps.add_conns (-1)).2 (fun _ ip => ?_) (by simp [hr])
    rw [(IPCaps.add_conns (-1)).1, hr]
    rfl
  | reading | admitting | done =>
    rw [Tunnel.read, hr]
    exact h

theorem Inv.allowJoin {ok : Bool} (h : Inv P t) : Inv P (t.allowJoin ok) := by
  have hok := h.reader
  unfold Tunnel.allowJoin
  cases hr : t.reader with
  | admitting addr data =>
    rw [hr] at hok
    refine h.goto ?_ ?_ ?_ (by simp [hr])
    · cases ok
      · trivial
      · exact hok
    · rw [hr]
      cases ok <;> rfl
    · rw [hr]
      cases ok <;> rfl
  | _ => exact h

/-! ### The Worker's datagrams -/

omit [DecidableEq Addr] [DecidableEq Ip] in
theorem Reader.Ok.set (h : r.Ok f s) (he : Touched (f.entries p) e) (hseen : e.seen = (f.entries p).seen) :
    r.Ok (f.set p e) s := by
  have hs : ∀ q, ((f.set p e).entries q).seen = (f.entries q).seen := fun q => by
    rw [FlowTable.entries_set]
    split_ifs with hq
    · rw [hq, hseen]
    · rfl
  cases r with
  | starting data id => exact ⟨(FlowTable.live_set he.kept).mpr h.1, (hs id).trans h.2.1, h.2.2⟩
  | storing data id sid => exact ⟨(FlowTable.live_set he.kept).mpr h.1, h.2⟩
  | _ => exact h

theorem Inv.receive (h : Inv P t) : Inv P (t.receive data) := by
  unfold Tunnel.receive
  cases flowID data with
  | none => exact h
  | some id =>
    simp only [FlowTable.addrByID]
    cases hid : t.flows.byID id with
    | none => exact h
    | some p =>
      have he : Touched (t.flows.entries p) { t.flows.entries p with lastSeen := t.now } :=
        ⟨rfl, rfl, rfl, rfl, Nat.le_refl _, fun hin => hin⟩
      have hlive := (h.valid.byID_iff.mp hid).1
      refine ⟨h.valid.set he.kept (h.valid.ingress p (h.valid.lt hlive)), h.reader.set he rfl, h.accounts.set he, ?_,
        h.waited, h.joined, fun hd q hq => h.drained hd q ((FlowTable.live_set he.kept).mp hq)⟩
      have hs := h.slots
      unfold Slots at hs ⊢
      simpa only [FlowTable.liveOf_set he.kept] using hs

/-! ### The sweep -/

/-- The sweep goes on, with what it has yet to release and to end. -/
theorem Inv.sweepTo {w : Sweep Addr} (h : Inv P t) (haddrs : w.addrs = t.sweep.addrs) (hsids : w.sids = t.sweep.sids)
    (hdone : t.sweep ≠ .done) : Inv P { t with sweep := w } := by
  refine ⟨h.valid, h.reader, hsids ▸ h.accounts, ?_, h.waited, fun hj => absurd (h.joined hj) hdone, h.drained⟩
  have hs := h.slots
  unfold Slots at hs ⊢
  rwa [haddrs]

theorem Inv.sweep (h : Inv P t) : Inv P (t.sweepStep P) := by
  unfold Tunnel.sweepStep
  cases hw : t.sweep with
  | releasing addrs sids =>
    cases addrs with
    | nil => exact h.sweepTo (by rw [hw]; rfl) (by rw [hw]; rfl) (by simp [hw])
    | cons addr addrs =>
      have hacc := h.accounts
      rw [hw] at hacc
      refine ⟨h.valid, h.reader, hacc, fun hpos hnd ip => ?_, h.waited,
        fun hj => absurd (hw.symm.trans (h.joined hj)) (by simp), h.drained⟩
      have hs := h.slots ((IPCaps.add_conns (c := t.caps) (-1)).2 ▸ hpos) hnd ip
      rw [hw] at hs
      simp only [(IPCaps.add_conns (-1)).1]
      exact hs
  | unslotting addr addrs sids =>
    have hacc := h.accounts
    rw [hw] at hacc
    refine ⟨h.valid, h.reader, hacc, fun hpos hnd ip => ?_, h.waited,
      fun hj => absurd (hw.symm.trans (h.joined hj)) (by simp), h.drained⟩
    simp only [IPCaps.maxConns_give] at hpos
    have hs := h.slots hpos hnd ip
    rw [hw] at hs
    simp only [IPCaps.conns_give hpos]
    simp only [Sweep.addrs, List.countP_append, List.countP_cons, decide_eq_true_eq] at hs ⊢
    omega
  | ending sids =>
    cases sids with
    | nil => exact h.sweepTo (by rw [hw]; rfl) (by rw [hw]; rfl) (by simp [hw])
    | cons sid sids =>
      have hacc := h.accounts
      rw [hw] at hacc
      refine ⟨h.valid, h.reader, hacc.finish fun x => ?_, fun hpos hnd ip => ?_, h.waited,
        fun hj => absurd (hw.symm.trans (h.joined hj)) (by simp), h.drained⟩
      · simp [Sweep.sids, List.count_cons]
      · have hs := h.slots hpos hnd ip
        rw [hw] at hs
        exact hs
  | _ => exact h

theorem Inv.evict (h : Inv P t) (hw : t.sweep = .evicting now) (hnd : ps.Nodup) (hps : ∀ p ∈ ps, t.flows.Live p)
    (hreg : ∀ id, t.reader.promoting = some id → ∀ p ∈ ps, (t.flows.entries p).id ≠ id) :
    Inv P (post P t (.evict ps)) := by
  have hnot : ∀ id, t.reader.promoting = some id → id ∉ ps := fun id hid hm =>
    hreg id hid id hm (h.valid.number id (h.valid.lt (hps id hm)))
  have hstored : ∀ x, t.reader.stored = some x → x.1 ∉ ps := fun x hx => by
    refine hnot x.1 ?_
    cases hr : t.reader <;> rw [hr] at hx <;> cases hx
    rfl
  have hjoined : ¬ t.run.Joined := fun hj => absurd (hw.symm.trans (h.joined hj)) (by simp)
  have hdrained : ¬ t.run.Drained := fun hd => hjoined <| by
    cases hrun : t.run <;> rw [hrun] at hd <;> first | exact absurd hd id | trivial
  refine ⟨h.valid.delete hps, ?_, h.accounts.surface h.valid hnd hps hstored rfl rfl (fun _ => FlowTable.live_delete)
    fun x => ?_, fun hpos _ ip => ?_, h.waited, fun hj => absurd hj hjoined, fun hd => absurd hd hdrained⟩
  · have hok := h.reader
    change t.reader.Ok (t.flows.delete ps) t.sessions
    have hnone : ∀ a, t.flows.byAddr a = none → (t.flows.delete ps).byAddr a = none := fun a ha => by
      simp [FlowTable.delete, ha]
    cases hr : t.reader with
    | starting data id | storing data id sid =>
      rw [hr] at hok hnot
      exact ⟨FlowTable.live_delete.mpr ⟨hok.1, hnot id rfl⟩, hok.2⟩
    | admitting addr data | loading addr data | reserving addr data | slotting addr data | creating addr data =>
      rw [hr] at hok
      exact hnone _ hok
    | _ => trivial
  · rw [hw]
    simp only [post, FlowTable.evict, Sweep.sids, List.count_append, List.nil_append]
    omega
  · have hs := h.slots hpos hdrained ip
    rw [hw] at hs
    simp only [post, FlowTable.evict, Sweep.addrs, List.countP_append, List.countP_nil, Nat.add_zero] at hs ⊢
    have := FlowTable.card_liveOf_delete P.host ip h.valid hnd hps
    omega

/-! ### The teardown -/

theorem Inv.run (h : Inv P t) (hm : t.RunMoves) : Inv P t.runStep := by
  have hacc := h.accounts
  have hslots := h.slots
  unfold Tunnel.RunMoves at hm
  unfold Tunnel.runStep
  unfold Slots at hslots
  cases hr : t.run with
  | closing =>
    rw [hr] at hacc hslots
    exact ⟨h.valid, h.reader, hacc, fun hpos _ => hslots hpos id, fun hw => absurd hw id, fun hj => absurd hj id,
      fun hd => absurd hd id⟩
  | waiting =>
    rw [hr] at hm hacc hslots
    exact ⟨h.valid, h.reader, hacc, fun hpos _ => hslots hpos id, fun _ => hm, fun hj => absurd hj id,
      fun hd => absurd hd id⟩
  | joining =>
    rw [hr] at hm hacc hslots
    exact ⟨h.valid, h.reader, hacc, fun hpos _ => hslots hpos id, fun _ => h.waited (hr ▸ trivial), fun _ => hm,
      fun hd => absurd hd id⟩
  | ending sids =>
    rw [hr] at hacc
    have hwaited := h.waited (hr ▸ trivial)
    have hjoined := h.joined (hr ▸ trivial)
    have hdrained := h.drained (hr ▸ trivial)
    cases sids with
    | nil =>
      exact ⟨h.valid, h.reader, hacc, fun _ hd => absurd trivial hd, fun _ => hwaited, fun _ => hjoined,
        fun _ => hdrained⟩
    | cons sid sids =>
      refine ⟨h.valid, h.reader, hacc.finish fun x => ?_, fun _ hd => absurd trivial hd, fun _ => hwaited,
        fun _ => hjoined, fun _ => hdrained⟩
      simp only [Run.sids, List.count_append, List.count_cons, beq_iff_eq]
      omega
  | _ =>
    rw [hr] at hm
    exact absurd hm id

theorem Inv.drain (h : Inv P t) (hr : t.run = .draining) (hnd : ps.Nodup) (hps : ∀ p, p ∈ ps ↔ t.flows.Live p) :
    Inv P (post P t (.drain ps)) := by
  have hwaited := h.waited (hr ▸ trivial)
  have hjoined := h.joined (hr ▸ trivial)
  have hempty : ∀ p, ¬ (t.flows.drain ps).1.Live p := fun p hp => by cases hp
  refine ⟨h.valid.drain ps, ?_, h.accounts.surface h.valid hnd (fun p => (hps p).mp) (fun x hx => ?_) rfl rfl (fun p => ?_)
    fun x => ?_, fun _ hd => absurd trivial hd, fun _ => hwaited, fun _ => hjoined, fun _ => hempty⟩
  · change t.reader.Ok _ _
    rw [hwaited]
    trivial
  · rw [hwaited] at hx
    cases hx
  · exact ⟨fun hp => absurd hp (hempty p), fun ⟨hp, hnot⟩ => absurd ((hps p).mpr hp) hnot⟩
  · rw [hr]
    simp only [post, FlowTable.drain, Run.sids, List.count_append, List.append_nil]

/-! ### Every step -/

theorem inv_post (h : Inv P t) (hpre : pre P t a) (hreg : Regular t a) : Inv P (post P t a) := by
  cases a with
  | tick n | takeover => exact ⟨h.valid, h.reader, h.accounts, h.slots, h.waited, h.joined, h.drained⟩
  | datagram addr data =>
    obtain ⟨hr, -⟩ := hpre
    refine h.goto ?_ ?_ ?_ (by simp [hr])
    · split_ifs <;> trivial
    · rw [hr]
      split_ifs <;> rfl
    · rw [hr]
      split_ifs <;> rfl
  | readFails =>
    have hr : t.reader = .reading := hpre
    exact h.goto trivial (by rw [hr]; rfl) (by rw [hr]; rfl) (by simp [hr])
  | allowJoin ok => exact h.allowJoin
  | read => exact h.read hreg
  | receive data => exact h.receive
  | pumpEnds =>
    have hr : t.run = .pumping := hpre
    have hacc := h.accounts
    have hslots := h.slots
    unfold Slots at hslots
    rw [hr] at hacc hslots
    exact ⟨h.valid, h.reader, hacc, fun hpos _ => hslots hpos id, fun hw => absurd hw id, fun hj => absurd hj id,
      fun hd => absurd hd id⟩
  | run => exact h.run hpre
  | drain ps => exact h.drain hpre.1 hpre.2.1 hpre.2.2
  | ticker | cancelled =>
    have hw : t.sweep = .waiting := hpre
    exact h.sweepTo (by rw [hw]; rfl) (by rw [hw]; rfl) (by simp [hw])
  | sweep => exact h.sweep
  | evict ps =>
    obtain ⟨now, hw, hnd, hps⟩ := hpre
    exact h.evict hw hnd (fun p hp => ((hps p).mp hp).1) hreg

theorem inv_of_reach [Inhabited Addr] {maxConns : ℕ} {globalMax : ℤ}
    (h : (machine P).Reach Regular (init maxConns globalMax now) t) : Inv P t :=
  h.invariant inv_init fun _ _ => inv_post

/-! ## The flows of a tunnel -/

variable (P) in
structure Accounted (t : Tunnel Addr Ip) : Prop where
  /-- The address map and the id map are inverse bijections of addresses and ids. -/
  inverse : ∀ addr id, (t.flows.byAddr addr).map (fun p => (t.flows.entries p).id) = some id ↔
    (t.flows.byID id).map (fun p => (t.flows.entries p).addr) = some addr
  /-- They hold the same flows. -/
  same : ∀ p, (∃ addr, t.flows.byAddr addr = some p) ↔ ∃ id, t.flows.byID id = some p
  /-- No two flows share an id, the evicted ones included. -/
  ids : ∀ p q, p < t.flows.created → q < t.flows.created → (t.flows.entries p).id = (t.flows.entries q).id → p = q
  /-- A session is of a flow of the tunnel, at its fifth connected datagram. -/
  fifth : ∀ sid, sid < t.sessions.started →
    t.sessions.flow sid < t.flows.created ∧ t.sessions.datagrams sid = flowPromoteThreshold
  /-- No flow starts two sessions. -/
  once : ∀ sid sid', sid < t.sessions.started → sid' < t.sessions.started →
    t.sessions.flow sid = t.sessions.flow sid' → sid = sid'
  /-- No session is ended twice, and none that was not started. -/
  ended : ∀ sid, t.sessions.ended sid ≤ if sid < t.sessions.started then 1 else 0
  /-- When `run` returns every session has been ended. -/
  returned : t.run = .returned → ∀ sid, sid < t.sessions.started → t.sessions.ended sid = 1
  /-- Up to the final drain, the slots of an IP are its live flows, save while the reader or the sweep is about to
  make up the difference. -/
  slots : 0 < t.caps.maxConns → ¬ t.run.Drained → t.reader.slot = [] → t.sweep.addrs = [] →
    ∀ ip, t.caps.conns ip = (t.flows.liveOf P.host ip).card

theorem Inv.accounted (h : Inv P t) : Accounted P t := by
  have hacc := h.accounts
  refine ⟨fun addr id => ?_, fun p => ?_, fun p q hp hq he => ?_,
    fun sid hsid => ⟨(hacc.flow sid hsid).1, hacc.datagrams sid hsid⟩, hacc.inj, fun sid => ?_, fun hr sid hsid => ?_,
    fun hpos hnd hslot haddrs ip => ?_⟩
  · simp only [Option.map_eq_some_iff, h.valid.byAddr_iff, h.valid.byID_iff]
    exact exists_congr fun p => by rw [and_right_comm]
  · simp only [h.valid.byAddr_iff, h.valid.byID_iff, exists_and_left, exists_eq']
  · rwa [h.valid.number p hp, h.valid.number q hq] at he
  · split_ifs with hsid
    · by_cases hl : t.flows.Live (t.sessions.flow sid)
      · have := hacc.opened sid hsid hl
        omega
      · have := hacc.closed sid hsid hl
        omega
    · have := hacc.unstarted sid (Nat.le_of_not_lt hsid)
      omega
  · have hone := hacc.closed sid hsid (h.drained (hr ▸ trivial) _)
    rw [h.joined (hr ▸ trivial), hr] at hone
    exact hone
  · have hs := h.slots hpos hnd ip
    rwa [hslot, haddrs] at hs

/-- **The flows of a tunnel are accounted for** in every order of the datagrams, replies, sweeps, promotions and the
teardown. -/
theorem flows_accounted [Inhabited Addr] {maxConns : ℕ} {globalMax : ℤ}
    (h : (machine P).Reach Regular (init maxConns globalMax now) t) : Accounted P t := (inv_of_reach h).accounted

/-- The only flow of the tunnel. -/
theorem Inv.only (h : Inv P t) (hcreated : t.flows.created = 1) (hlive : t.flows.Live 0) (p : ℕ) :
    p ∈ [0] ↔ t.flows.Live p := by
  rw [List.mem_singleton]
  constructor
  · rintro rfl
    exact hlive
  · intro hp
    have := h.valid.lt hp
    omega

/-- A player connects, and the Worker disconnects. -/
theorem flows_accounted_played : ∃ t : Tunnel ℕ ℕ,
    (machine ⟨60, 1, (· / 10)⟩).Reach Regular (init 32 0 0) t ∧ t.run = .returned ∧ t.sessions.started = 1 ∧
      t.sessions.ended 0 = 1 ∧ Accounted ⟨60, 1, (· / 10)⟩ t := by
  have h0 : (machine (⟨60, 1, (· / 10)⟩ : Params ℕ ℕ)).Reach Regular (init 32 0 0) (init 32 0 0) := .refl
  have h1 := h0.step (Action.datagram 7 [0x80]) ⟨rfl, rfl⟩ trivial
  have h2 := h1.step Action.read trivial fun _ => by decide
  have h3 := h2.step (Action.allowJoin true) ⟨7, [0x80], rfl⟩ trivial
  have h4 := h3.step Action.read trivial fun _ => by decide
  have h5 := h4.step Action.read trivial fun _ => by decide
  have h6 := h5.step Action.read trivial fun _ => by decide
  have h7 := h6.step Action.read trivial fun _ => by decide
  have h8 := h7.step Action.read trivial fun _ => by decide
  have h9 := h8.step (Action.datagram 7 [0x80]) ⟨rfl, rfl⟩ trivial
  have h10 := h9.step Action.read trivial fun _ => by decide
  have h11 := h10.step Action.read trivial fun _ => by decide
  have h12 := h11.step (Action.datagram 7 [0x80]) ⟨rfl, rfl⟩ trivial
  have h13 := h12.step Action.read trivial fun _ => by decide
  have h14 := h13.step Action.read trivial fun _ => by decide
  have h15 := h14.step (Action.datagram 7 [0x80]) ⟨rfl, rfl⟩ trivial
  have h16 := h15.step Action.read trivial fun _ => by decide
  have h17 := h16.step Action.read trivial fun _ => by decide
  have h18 := h17.step (Action.datagram 7 [0x80]) ⟨rfl, rfl⟩ trivial
  have h19 := h18.step Action.read trivial fun _ => by decide
  have h20 := h19.step Action.read trivial fun _ => by decide
  have h21 := h20.step Action.read trivial fun _ => by decide
  have h22 := h21.step Action.read trivial fun _ => by decide
  have h23 := h22.step Action.pumpEnds rfl trivial
  have h24 := h23.step Action.run trivial trivial
  have h25 := h24.step Action.readFails rfl trivial
  have h26 := h25.step Action.run rfl trivial
  have h27 := h26.step Action.cancelled rfl trivial
  have h28 := h27.step Action.run rfl trivial
  have h29 := h28.step (Action.drain [0]) ⟨rfl, by decide, (inv_of_reach h28).only rfl rfl⟩ trivial
  have h30 := h29.step Action.run trivial trivial
  have h31 := h30.step Action.run trivial trivial
  exact ⟨_, h31, rfl, rfl, rfl, flows_accounted h31⟩

/-- **The final teardown drains the flows and leaves their slots**: the caps are dropped with the tunnel. -/
theorem teardown_keeps_slots : ∃ t : Tunnel ℕ ℕ,
    (machine ⟨60, 1, (· / 10)⟩).Reach Regular (init 32 0 0) t ∧ t.run = .returned ∧
      t.reader.slot = [] ∧ t.sweep.addrs = [] ∧ t.caps.conns 0 = 1 ∧ (t.flows.liveOf (· / 10) 0).card = 0 := by
  have h0 : (machine (⟨60, 1, (· / 10)⟩ : Params ℕ ℕ)).Reach Regular (init 32 0 0) (init 32 0 0) := .refl
  have h1 := h0.step (Action.datagram 7 [0x80]) ⟨rfl, rfl⟩ trivial
  have h2 := h1.step Action.read trivial fun _ => by decide
  have h3 := h2.step (Action.allowJoin true) ⟨7, [0x80], rfl⟩ trivial
  have h4 := h3.step Action.read trivial fun _ => by decide
  have h5 := h4.step Action.read trivial fun _ => by decide
  have h6 := h5.step Action.read trivial fun _ => by decide
  have h7 := h6.step Action.read trivial fun _ => by decide
  have h8 := h7.step Action.read trivial fun _ => by decide
  have h9 := h8.step Action.pumpEnds rfl trivial
  have h10 := h9.step Action.run trivial trivial
  have h11 := h10.step Action.readFails rfl trivial
  have h12 := h11.step Action.run rfl trivial
  have h13 := h12.step Action.cancelled rfl trivial
  have h14 := h13.step Action.run rfl trivial
  have h15 := h14.step (Action.drain [0]) ⟨rfl, by decide, (inv_of_reach h14).only rfl rfl⟩ trivial
  have h16 := h15.step Action.run trivial trivial
  exact ⟨_, h16, rfl, rfl, rfl, rfl, rfl⟩

end McServerDashboard.Relay.Bedrock
