import Mathlib.Algebra.Group.Nat.Defs
import Mathlib.Data.Finset.Card
import Mathlib.Data.Finset.Dedup

/-!
# The flow table of a Bedrock tunnel

The flows by client address and by flow id, with the slots that the clients' IP addresses hold. The entries are on a
heap, and have the numbers in which they were created.

* `FlowTable`: `Lookup`, `Create`, `Promote`, `AllowPing`, `AddrByID`, `Evict` and `Drain`.
* `FlowTable.Valid`: the two maps are inverse, and no id has come twice.
* `IPCaps`: the steps of `Acquire` and of `Release`.
-/

namespace McServerDashboard.Relay.Bedrock

def flowPromoteThreshold : ℕ := 5

def flowPingsPerSecond : ℕ := 5

structure FlowEntry (Addr : Type*) where
  id : ℕ
  addr : Addr
  lastSeen : ℕ
  pingWindowStart : ℕ
  pingCount : ℕ
  ingress : ℕ
  promoted : Bool
  sessionID : ℕ
  /-- How many connected datagrams have come (a ghost). -/
  seen : ℕ

structure FlowTable (Addr : Type*) where
  /-- The heap. -/
  entries : ℕ → FlowEntry Addr
  /-- How many entries have been created. -/
  created : ℕ
  nextID : ℕ
  byAddr : Addr → Option ℕ
  byID : ℕ → Option ℕ

variable {Addr : Type*}

/-- A datagram of the client: the entry, and whether this datagram promotes the flow. -/
def FlowEntry.touch (e : FlowEntry Addr) (now : ℕ) (counts : Bool) : FlowEntry Addr × Bool :=
  if counts then
    if flowPromoteThreshold ≤ e.ingress then ({ e with lastSeen := now, seen := e.seen + 1 }, false)
    else
      ({ e with lastSeen := now, seen := e.seen + 1, ingress := e.ingress + 1 },
        e.ingress + 1 == flowPromoteThreshold)
  else ({ e with lastSeen := now }, false)

/-- `AllowPing` on the entry; a second is `second` ticks of the clock. -/
def FlowEntry.allowPing (e : FlowEntry Addr) (second now : ℕ) : FlowEntry Addr × Bool :=
  if e.pingWindowStart + second ≤ now then ({ e with pingWindowStart := now, pingCount := 1 }, true)
  else if flowPingsPerSecond ≤ e.pingCount then (e, false)
  else ({ e with pingCount := e.pingCount + 1 }, true)

namespace FlowTable

/-- `NewFlowTable`. -/
def new [Inhabited Addr] : FlowTable Addr where
  entries _ := ⟨0, default, 0, 0, 0, 0, false, 0, 0⟩
  created := 0
  nextID := 0
  byAddr _ := none
  byID _ := none

variable (f : FlowTable Addr)

def set (p : ℕ) (e : FlowEntry Addr) : FlowTable Addr := { f with entries := Function.update f.entries p e }

/-- `Lookup`: the flow id of the address, and whether to promote it. -/
def lookup (now : ℕ) (addr : Addr) (counts : Bool) : FlowTable Addr × Option (ℕ × Bool) :=
  match f.byAddr addr with
  | none => (f, none)
  | some p =>
    (f.set p ((f.entries p).touch now counts).1, some ((f.entries p).id, ((f.entries p).touch now counts).2))

/-- `Create`, without the id it returns. -/
def create [DecidableEq Addr] (now : ℕ) (addr : Addr) (counts : Bool) : FlowTable Addr where
  entries := Function.update f.entries f.created
    ⟨f.nextID, addr, now, 0, 0, if counts then 1 else 0, false, 0, if counts then 1 else 0⟩
  created := f.created + 1
  nextID := (f.nextID + 1) % 2 ^ 32
  byAddr := Function.update f.byAddr addr (some f.created)
  byID := Function.update f.byID f.nextID (some f.created)

/-- `Promote`. -/
def promote (id sessionID : ℕ) : FlowTable Addr :=
  match f.byID id with
  | none => f
  | some p => f.set p { f.entries p with promoted := true, sessionID := sessionID }

/-- `AllowPing`. -/
def allowPing (second now id : ℕ) : FlowTable Addr × Bool :=
  match f.byID id with
  | none => (f, false)
  | some p => (f.set p ((f.entries p).allowPing second now).1, ((f.entries p).allowPing second now).2)

/-- `AddrByID`. -/
def addrByID (now id : ℕ) : FlowTable Addr × Option Addr :=
  match f.byID id with
  | none => (f, none)
  | some p => (f.set p { f.entries p with lastSeen := now }, some (f.entries p).addr)

/-- The flow is in the table. -/
def Live (p : ℕ) : Prop := f.byAddr (f.entries p).addr = some p

instance [DecidableEq Addr] (p : ℕ) : Decidable (f.Live p) := inferInstanceAs (Decidable (_ = _))

/-- The flow has been idle for `idleTTL` when the clock reads `now`. -/
def Idle (idleTTL now p : ℕ) : Prop := (f.entries p).lastSeen + idleTTL ≤ now

/-- Delete the flows `ps` from both maps. -/
def delete (ps : List ℕ) : FlowTable Addr where
  entries := f.entries
  created := f.created
  nextID := f.nextID
  byAddr addr := (f.byAddr addr).filter fun p => p ∉ ps
  byID id := if id ∈ ps.map fun p => (f.entries p).id then none else f.byID id

/-- The sessions of those of the flows that are promoted. -/
def endedSessions (ps : List ℕ) : List ℕ := (ps.filter fun p => (f.entries p).promoted).map fun p => (f.entries p).sessionID

/-- `Evict`, which finds the flows `ps` idle: the table, the addresses and the sessions. -/
def evict (ps : List ℕ) : FlowTable Addr × List Addr × List ℕ :=
  (f.delete ps, ps.map fun p => (f.entries p).addr, f.endedSessions ps)

/-- `Drain` of the flows `ps`, in the order in which it finds them, without their number. -/
def drain (ps : List ℕ) : FlowTable Addr × List ℕ :=
  ({ f with byAddr := fun _ => none, byID := fun _ => none }, f.endedSessions ps)

/-! ## The two maps -/

structure Valid : Prop where
  addr : ∀ addr p, f.byAddr addr = some p → (f.entries p).addr = addr ∧ f.byID (f.entries p).id = some p
  id : ∀ id p, f.byID id = some p → (f.entries p).id = id ∧ f.byAddr (f.entries p).addr = some p
  created : ∀ addr p, f.byAddr addr = some p → p < f.created
  nextID : f.nextID = f.created % 2 ^ 32
  /-- The id of a flow is its number. -/
  number : ∀ p, p < f.created → (f.entries p).id = p
  ingress : ∀ p, p < f.created → (f.entries p).ingress = min flowPromoteThreshold (f.entries p).seen

variable {f} {p q id now second idleTTL sid : ℕ} {addr : Addr} {counts : Bool} {e : FlowEntry Addr} {ps : List ℕ}

theorem Valid.lt (h : f.Valid) (hp : f.Live p) : p < f.created := h.created _ p hp

theorem Valid.byID_iff (h : f.Valid) : f.byID id = some p ↔ f.Live p ∧ (f.entries p).id = id := by
  constructor
  · intro hid
    obtain ⟨hi, ha⟩ := h.id id p hid
    exact ⟨ha, hi⟩
  · rintro ⟨hp, rfl⟩
    exact (h.addr _ p hp).2

theorem Valid.byAddr_iff (h : f.Valid) : f.byAddr addr = some p ↔ f.Live p ∧ (f.entries p).addr = addr := by
  constructor
  · intro ha
    obtain rfl := (h.addr addr p ha).1
    exact ⟨ha, rfl⟩
  · rintro ⟨hp, rfl⟩
    exact hp

theorem valid_new [Inhabited Addr] : (new : FlowTable Addr).Valid := by
  constructor <;> simp [new]

/-- The entry keeps what the maps are about. -/
structure Kept (f : FlowTable Addr) (p : ℕ) (e : FlowEntry Addr) : Prop where
  id : e.id = (f.entries p).id
  addr : e.addr = (f.entries p).addr

theorem entries_set : (f.set p e).entries q = if q = p then e else f.entries q := Function.update_apply ..

theorem addr_set (h : f.Kept p e) : ((f.set p e).entries q).addr = (f.entries q).addr := by
  rw [entries_set]
  split_ifs with hq
  · rw [hq, h.addr]
  · rfl

theorem id_set (h : f.Kept p e) : ((f.set p e).entries q).id = (f.entries q).id := by
  rw [entries_set]
  split_ifs with hq
  · rw [hq, h.id]
  · rfl

theorem live_set (h : f.Kept p e) : (f.set p e).Live q ↔ f.Live q := by
  unfold Live
  rw [addr_set h]
  rfl

theorem Valid.set (hf : f.Valid) (h : f.Kept p e) (hin : e.ingress = min flowPromoteThreshold e.seen) :
    (f.set p e).Valid where
  addr a q ha := by
    rw [addr_set h, id_set h]
    exact hf.addr a q ha
  id i q hi := by
    rw [addr_set h, id_set h]
    exact hf.id i q hi
  created := hf.created
  nextID := hf.nextID
  number q hq := by
    rw [id_set h]
    exact hf.number q hq
  ingress q hq := by
    rw [entries_set]
    split_ifs
    · exact hin
    · exact hf.ingress q hq

theorem Valid.create [DecidableEq Addr] (hf : f.Valid) (haddr : f.byAddr addr = none) (hlt : f.created < 2 ^ 32) :
    (f.create now addr counts).Valid := by
  have hnext : f.nextID = f.created := by rw [hf.nextID, Nat.mod_eq_of_lt hlt]
  have hnew : ∀ a p, f.byAddr a = some p → p ≠ f.created := fun a p hp => Nat.ne_of_lt (hf.created a p hp)
  refine ⟨fun a p hp => ?_, fun i p hp => ?_, fun a p hp => ?_, ?_, fun p hp => ?_, fun p hp => ?_⟩ <;>
    simp only [FlowTable.create] at *
  · rw [Function.update_apply] at hp
    split_ifs at hp with ha
    · cases hp
      simp [ha]
    · rw [Function.update_of_ne (hnew a p hp)]
      obtain ⟨h1, h2⟩ := hf.addr a p hp
      refine ⟨h1, ?_⟩
      have hid : (f.entries p).id ≠ f.nextID := by
        rw [hnext, hf.number p (hf.created a p hp)]
        exact hnew a p hp
      rw [Function.update_of_ne hid, h2]
  · rw [Function.update_apply] at hp
    split_ifs at hp with hi
    · cases hp
      simp [hi]
    · obtain ⟨h1, h2⟩ := hf.id i p hp
      rw [Function.update_of_ne (hnew _ p h2)]
      refine ⟨h1, ?_⟩
      have ha : (f.entries p).addr ≠ addr := fun ha => by
        rw [ha, haddr] at h2
        cases h2
      rw [Function.update_of_ne ha, h2]
  · rw [Function.update_apply] at hp
    split_ifs at hp
    · cases hp
      exact Nat.lt_succ_self _
    · exact Nat.lt_succ_of_lt (hf.created a p hp)
  · rw [hf.nextID]
    omega
  · by_cases h : p = f.created
    · simp [h, hnext]
    · rw [Function.update_of_ne h]
      exact hf.number p (Nat.lt_of_le_of_ne (Nat.le_of_lt_succ hp) h)
  · by_cases h : p = f.created
    · cases counts <;> simp [h, flowPromoteThreshold]
    · rw [Function.update_of_ne h]
      exact hf.ingress p (Nat.lt_of_le_of_ne (Nat.le_of_lt_succ hp) h)

theorem live_create [DecidableEq Addr] (haddr : f.byAddr addr = none) :
    (f.create now addr counts).Live q ↔ f.Live q ∨ q = f.created := by
  unfold Live
  simp only [FlowTable.create]
  by_cases hq : q = f.created
  · simp [hq]
  · rw [Function.update_of_ne hq]
    by_cases ha : (f.entries q).addr = addr
    · rw [ha, Function.update_self, haddr]
      simp [hq, Ne.symm hq]
    · rw [Function.update_of_ne ha]
      simp [hq]

theorem byAddr_delete : (f.delete ps).byAddr addr = some p ↔ f.byAddr addr = some p ∧ p ∉ ps := by
  simp [delete, Option.filter_eq_some_iff]

theorem live_delete : (f.delete ps).Live p ↔ f.Live p ∧ p ∉ ps := byAddr_delete

theorem Valid.delete (hf : f.Valid) (hps : ∀ p ∈ ps, f.Live p) : (f.delete ps).Valid := by
  have hid : ∀ p, f.Live p → ((f.entries p).id ∈ ps.map (fun q => (f.entries q).id) ↔ p ∈ ps) := fun p hp => by
    rw [List.mem_map]
    constructor
    · rintro ⟨q, hq, he⟩
      rw [hf.number q (hf.lt (hps q hq)), hf.number p (hf.lt hp)] at he
      exact he ▸ hq
    · exact fun h => ⟨p, h, rfl⟩
  refine ⟨fun a p hp => ?_, fun i p hp => ?_, fun a p hp => ?_, hf.nextID, hf.number, hf.ingress⟩
  · obtain ⟨ha, hnot⟩ := byAddr_delete.mp hp
    obtain ⟨h1, h2⟩ := hf.addr a p ha
    refine ⟨h1, ?_⟩
    have hlive : f.Live p := (hf.byAddr_iff.mp ha).1
    simp only [FlowTable.delete]
    rw [if_neg (by rwa [hid p hlive]), h2]
  · simp only [FlowTable.delete] at hp
    split_ifs at hp with hi
    obtain ⟨h1, h2⟩ := hf.id i p hp
    refine ⟨h1, byAddr_delete.mpr ⟨h2, ?_⟩⟩
    rw [← hid p h2]
    exact h1 ▸ hi
  · exact hf.created a p (byAddr_delete.mp hp).1

theorem Valid.drain (hf : f.Valid) (ps : List ℕ) : (f.drain ps).1.Valid :=
  ⟨by simp [FlowTable.drain], by simp [FlowTable.drain], by simp [FlowTable.drain], hf.nextID, hf.number, hf.ingress⟩

/-! ## The flows of an IP address -/

variable {Ip : Type*} [DecidableEq Ip] (host : Addr → Ip) (ip : Ip) [DecidableEq Addr]

/-- The live flows of `ip`. -/
def liveOf (f : FlowTable Addr) : Finset ℕ :=
  (Finset.range f.created).filter fun p => f.Live p ∧ host (f.entries p).addr = ip

variable {host ip}

theorem mem_liveOf (hf : f.Valid) : p ∈ f.liveOf host ip ↔ f.Live p ∧ host (f.entries p).addr = ip := by
  rw [liveOf, Finset.mem_filter, Finset.mem_range]
  exact ⟨fun h => h.2, fun h => ⟨hf.lt h.1, h⟩⟩

theorem liveOf_set (h : f.Kept p e) : (f.set p e).liveOf host ip = f.liveOf host ip := by
  unfold liveOf
  refine Finset.filter_congr fun q _ => ?_
  rw [live_set h, addr_set h]

theorem card_liveOf_create (hf : f.Valid) (haddr : f.byAddr addr = none) (hlt : f.created < 2 ^ 32) :
    ((f.create now addr counts).liveOf host ip).card = (f.liveOf host ip).card + if host addr = ip then 1 else 0 := by
  have hnot : f.created ∉ f.liveOf host ip := fun h => Nat.lt_irrefl _ (hf.lt ((mem_liveOf hf).mp h).1)
  have hself : ((f.create now addr counts).entries f.created).addr = addr := by simp [create]
  have hother : ∀ q, q ≠ f.created → ((f.create now addr counts).entries q).addr = (f.entries q).addr := fun q hq => by
    simp only [create, Function.update_of_ne hq]
  have hset : (f.create now addr counts).liveOf host ip =
      if host addr = ip then insert f.created (f.liveOf host ip) else f.liveOf host ip := by
    refine Finset.ext fun q => ?_
    rw [mem_liveOf (hf.create haddr hlt), live_create haddr]
    by_cases hq : q = f.created
    · subst hq
      rw [hself]
      split_ifs with h <;> simp [h, hnot]
    · rw [hother q hq]
      split_ifs with h <;> simp [hq, mem_liveOf hf]
  rw [hset]
  split_ifs with h
  · rw [Finset.card_insert_of_notMem hnot]
  · rfl

/-- The flows that are deleted are gone from those of their IP. -/
theorem card_liveOf_delete (host : Addr → Ip) (ip : Ip) (hf : f.Valid) (hnd : ps.Nodup) (hps : ∀ p ∈ ps, f.Live p) :
    ((f.delete ps).liveOf host ip).card + (ps.map fun p => (f.entries p).addr).countP (fun a => host a = ip) =
      (f.liveOf host ip).card := by
  have hcount : (ps.map fun p => (f.entries p).addr).countP (fun a => host a = ip) =
      (ps.toFinset.filter fun p => host (f.entries p).addr = ip).card := by
    rw [List.countP_map, List.countP_eq_length_filter, ← List.toFinset_card_of_nodup (hnd.filter _)]
    congr 1
    ext p
    simp
  rw [hcount, ← Finset.card_union_of_disjoint]
  · congr 1
    ext p
    rw [Finset.mem_union, mem_liveOf hf, mem_liveOf (hf.delete hps), live_delete, Finset.mem_filter, List.mem_toFinset]
    change (f.Live p ∧ p ∉ ps) ∧ host (f.entries p).addr = ip ∨ _ ↔ _
    have := hps p
    tauto
  · rw [Finset.disjoint_left]
    intro p hp hq
    rw [mem_liveOf (hf.delete hps), live_delete] at hp
    exact hp.1.2 (List.mem_toFinset.mp (Finset.mem_filter.mp hq).1)

end FlowTable

/-! ## The caps -/

structure IPCaps (Ip : Type*) where
  maxConns : ℕ
  globalMax : ℤ
  globalConns : ℤ
  conns : Ip → ℕ

namespace IPCaps

def defaultGlobalMax : ℤ := 10000

/-- `NewIPCaps`. -/
def new {Ip : Type*} (maxConns : ℕ) (globalMax : ℤ) : IPCaps Ip :=
  ⟨maxConns, if globalMax = 0 then defaultGlobalMax else globalMax, 0, fun _ => 0⟩

variable {Ip : Type*} [DecidableEq Ip] (c : IPCaps Ip)

/-- The fast path of `Acquire`. -/
def full : Bool := 0 < c.globalMax && c.globalMax ≤ c.globalConns

/-- `globalConns.Add(n)`, where there is a global cap. -/
def add (n : ℤ) : IPCaps Ip := if 0 < c.globalMax then { c with globalConns := c.globalConns + n } else c

/-- The reservation has gone past the ceiling. -/
def exceeded : Bool := 0 < c.globalMax && c.globalMax < c.globalConns

/-- `Acquire` under the lock: a slot of `ip`, unless it has all. -/
def take (ip : Ip) : Option (IPCaps Ip) :=
  if c.maxConns = 0 then some c
  else if c.maxConns ≤ c.conns ip then none
  else some { c with conns := Function.update c.conns ip (c.conns ip + 1) }

/-- `Release` under the lock. -/
def give (ip : Ip) : IPCaps Ip :=
  if c.maxConns = 0 then c
  else { c with conns := Function.update c.conns ip (if c.conns ip ≤ 1 then 0 else c.conns ip - 1) }

variable {c} {ip : Ip}

omit [DecidableEq Ip] in
theorem add_conns (n : ℤ) : (c.add n).conns = c.conns ∧ (c.add n).maxConns = c.maxConns := by
  unfold add
  split_ifs <;> exact ⟨rfl, rfl⟩

theorem maxConns_of_take {c' : IPCaps Ip} (h : c.take ip = some c') : c'.maxConns = c.maxConns := by
  unfold take at h
  split_ifs at h <;> cases h <;> rfl

theorem conns_of_take {c' : IPCaps Ip} (h : c.take ip = some c') (hmax : 0 < c.maxConns) (x : Ip) :
    c'.conns x = c.conns x + if ip = x then 1 else 0 := by
  unfold take at h
  rw [if_neg (by omega)] at h
  split_ifs at h
  cases h
  simp only [Function.update_apply, eq_comm (a := x)]
  split_ifs with hx
  · rw [hx]
  · rfl

theorem maxConns_give : (c.give ip).maxConns = c.maxConns := by
  unfold give
  split_ifs <;> rfl

theorem conns_give (hmax : 0 < c.maxConns) (x : Ip) :
    (c.give ip).conns x = c.conns x - if ip = x then 1 else 0 := by
  unfold give
  rw [if_neg (by omega)]
  simp only [Function.update_apply, eq_comm (a := x)]
  split_ifs with hx hle
  · subst hx
    omega
  · rw [hx]
  · rfl

end IPCaps

end McServerDashboard.Relay.Bedrock
