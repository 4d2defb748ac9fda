import Mathlib.Data.List.Induction
import McServerDashboard.Lib.Crowd
import McServerDashboard.Lib.Dict
import McServerDashboard.Lib.FixedWindow

/-!
# The caps for each address

How the relay bounds the connections and the joins of its listeners.

* `Pos`, `next`: the atomic steps of `Acquire` and of `Release`.
* `allowJoin`: `AllowJoin`, which is one step under its lock.
* `Counted`: who holds a slot, and who a place in the count of an address.
* **`caps_hold`**: no bound is passed whatever the interleaving, nothing is left counted, and no address joins
  at more than twice its rate.
-/

namespace McServerDashboard.Relay.IPCaps

open Lib

variable {Ip : Type*} [DecidableEq Ip]

/-- Instants and durations are in nanoseconds. -/
def second : ℤ := 1000000000

/-- `joinWindowSweepInterval`. -/
def joinWindowSweepInterval : ℤ := 60 * second

def maxJoinWindowEntries : ℕ := 10000

/-- `DefaultGlobalMax`. -/
def defaultGlobalMax : ℤ := 10000

/-- The fields that `NewIPCaps` sets for good. -/
structure Limits where
  maxConns : ℕ
  joinsPerSec : ℕ
  globalMax : ℤ
  logger : Bool

/-- `NewIPCaps`. -/
def newIPCaps (maxConns joinsPerSec : ℕ) (globalMax : ℤ) (logger : Bool) : Limits :=
  ⟨maxConns, joinsPerSec, if globalMax = 0 then defaultGlobalMax else globalMax, logger⟩

/-! ## Connections -/

/-- The global count, the connections of each address, and whether `mu` is locked. -/
structure Conns (Ip : Type*) [DecidableEq Ip] where
  globalConns : ℤ
  conns : Dict Ip ℕ
  locked : Bool

/-- Where a connection stands. -/
inductive Pos (Ip : Type*)
  /-- `Acquire` is about to load the global count. -/
  | load (ip : Ip)
  /-- About to add one to it. -/
  | add (ip : Ip)
  /-- Others were faster; about to take the one back. -/
  | undo
  | lock (ip : Ip)
  /-- Under the lock: about to compare and count. -/
  | count (ip : Ip)
  /-- Under the lock: the address is at its cap; about to take the one back. -/
  | full
  /-- About to unlock and to return `true` (`some`) or `false`. -/
  | unlock (ip : Option Ip)
  /-- `Acquire` has returned `true`. -/
  | held (ip : Ip)
  /-- `Release` is about to take one from the global count. -/
  | drop (ip : Ip)
  | relock (ip : Ip)
  /-- Under the lock: about to take one from the count of the address. -/
  | uncount (ip : Ip)
  | reunlock
  /-- `Acquire` has returned `false`, or `Release` has returned. -/
  | done
  deriving DecidableEq

variable (lim : Limits) (s : Conns Ip)

/-- `globalConns.Add(n)`, with the global cap enabled. -/
def Conns.addGlobal (n : ℤ) : Conns Ip :=
  if 0 < lim.globalMax then { s with globalConns := s.globalConns + n } else s

/-- `conns[ip]`. -/
def Conns.of (ip : Ip) : ℕ := (s.conns.get? ip).getD 0

/-- The next step of a connection. -/
def next : Pos Ip → Conns Ip × Pos Ip
  | .load ip => if 0 < lim.globalMax ∧ lim.globalMax ≤ s.globalConns then (s, .done) else (s, .add ip)
  | .add ip =>
    let s := s.addGlobal lim 1
    if 0 < lim.globalMax ∧ lim.globalMax < s.globalConns then (s, .undo)
    else if lim.maxConns = 0 then (s, .held ip)
    else (s, .lock ip)
  | .undo => (s.addGlobal lim (-1), .done)
  | .lock ip => ({ s with locked := true }, .count ip)
  | .count ip =>
    if lim.maxConns ≤ s.of ip then (s, .full)
    else ({ s with conns := s.conns.set ip (s.of ip + 1) }, .unlock (some ip))
  | .full => (s.addGlobal lim (-1), .unlock none)
  | .unlock ip => ({ s with locked := false }, ip.elim .done .held)
  | .held ip => (s, .drop ip)
  | .drop ip => (s.addGlobal lim (-1), if lim.maxConns = 0 then .done else .relock ip)
  | .relock ip => ({ s with locked := true }, .uncount ip)
  | .uncount ip =>
    if s.of ip ≤ 1 then ({ s with conns := s.conns.pop ip }, .reunlock)
    else ({ s with conns := s.conns.set ip (s.of ip - 1) }, .reunlock)
  | .reunlock => ({ s with locked := false }, .done)
  | .done => (s, .done)

/-- A lock is taken when it is free. -/
def canStep : Pos Ip → Prop
  | .lock _ => s.locked = false
  | .relock _ => s.locked = false
  | .done => False
  | _ => True

instance (p : Pos Ip) : Decidable (canStep s p) := by cases p <;> unfold canStep <;> infer_instance

/-- A connection begins with a call of `Acquire`. -/
def Pos.begins : Pos Ip → Prop
  | .load _ => True
  | _ => False

instance (p : Pos Ip) : Decidable p.begins := by cases p <;> unfold Pos.begins <;> infer_instance

/-- The connections of a listener. -/
def calls : Crowd (Conns Ip) (Pos Ip) Unit where
  pre s p _ := canStep s p
  post s p _ := next lim s p
  start := Pos.begins

abbrev Conf (Ip : Type*) [DecidableEq Ip] := Crowd.Config (Conns Ip) (Pos Ip)

def start : Conf Ip := ⟨⟨0, ∅, false⟩, []⟩

/-! ## Joins -/

/-- `rateWindow`. -/
structure RateWindow where
  windowStart : ℤ
  count : ℕ

structure Joins (Ip : Type*) [DecidableEq Ip] where
  joinWindows : Dict Ip RateWindow
  lastSweep : ℤ
  ceilingLogged : Bool

/-- No window, and the zero time. -/
def noJoins : Joins Ip := ⟨∅, 0, false⟩

variable (j : Joins Ip)

/-- `sweepExpired`. -/
def sweepExpired (now : ℤ) : Joins Ip :=
  if now - j.lastSweep < joinWindowSweepInterval then j
  else { j with
    lastSweep := now
    joinWindows := j.joinWindows.filter fun x => ¬second ≤ now - x.2.windowStart }

/-- `logCeilingReached`. -/
def logCeilingReached : Joins Ip := if lim.logger ∧ ¬j.ceilingLogged then { j with ceilingLogged := true } else j

/-- `AllowJoin`, at an instant. -/
def allowJoin (now : ℤ) (ip : Ip) : Joins Ip × Bool :=
  if lim.joinsPerSec = 0 then (j, true)
  else
    let j := sweepExpired j now
    let j := if j.joinWindows.length < maxJoinWindowEntries then { j with ceilingLogged := false } else j
    match j.joinWindows.get? ip with
    | none =>
      if maxJoinWindowEntries ≤ j.joinWindows.length then (logCeilingReached lim j, false)
      else ({ j with joinWindows := j.joinWindows.set ip ⟨now, 1⟩ }, true)
    | some w =>
      if second ≤ now - w.windowStart then ({ j with joinWindows := j.joinWindows.set ip ⟨now, 1⟩ }, true)
      else if lim.joinsPerSec ≤ w.count then (j, false)
      else ({ j with joinWindows := j.joinWindows.set ip ⟨w.windowStart, w.count + 1⟩ }, true)

/-- The joins after checks, and the checks that were admitted. -/
def joinsAfter (checks : List (ℤ × Ip)) : Joins Ip × List (ℤ × Ip) :=
  checks.foldl (fun (j, admitted) c =>
    let r := allowJoin lim j c.1 c.2
    (r.1, if r.2 then admitted ++ [c] else admitted)) (noJoins, [])

/-! ## Who holds what -/

variable {lim : Limits} {s : Conns Ip} {c d : Conf Ip} {p : Pos Ip} {ip x : Ip} {j : Joins Ip} {now : ℤ}

/-- The slot of a connection in the global count. -/
def Pos.slot : Pos Ip → ℕ
  | .undo | .lock _ | .count _ | .full | .unlock (some _) | .held _ | .drop _ => 1
  | _ => 0

/-- A slot within the global cap. -/
def Pos.reserved : Pos Ip → ℕ
  | .undo => 0
  | p => p.slot

/-- The place of a connection in the count of an address. -/
def Pos.place (x : Ip) : Pos Ip → ℕ
  | .unlock (some ip) | .held ip | .drop ip | .relock ip | .uncount ip => if ip = x then 1 else 0
  | _ => 0

/-- The connection was acquired, and its `Release` has not begun. -/
def Pos.acquired : Pos Ip → Bool
  | .held _ => true
  | _ => false

def Pos.acquiredBy (x : Ip) : Pos Ip → Bool
  | .held ip => ip = x
  | _ => false

/-- No call is in progress. -/
def Quiet (c : Conf Ip) : Prop := ∀ p ∈ c.procs, p = .done ∨ p.acquired = true

variable (hconns : 0 < lim.maxConns) (hglobal : 0 < lim.globalMax)

/-- The count of an address, which is deleted with its last connection. -/
def entry (n : ℕ) : Option ℕ := if n = 0 then none else some n

/-- **Every slot and every place is held by a connection.** -/
structure Counted (lim : Limits) (c : Conf Ip) : Prop where
  slots : c.shared.globalConns = c.total Pos.slot
  few : (c.total Pos.reserved : ℤ) ≤ lim.globalMax
  places : ∀ x, c.shared.conns.get? x = entry (c.total (Pos.place x))
  cap : ∀ x, c.total (Pos.place x) ≤ lim.maxConns

omit [DecidableEq Ip] in
theorem reserved_le_slot (p : Pos Ip) : p.reserved ≤ p.slot := by
  cases p <;> simp [Pos.reserved, Pos.slot]

theorem of_eq {n : ℕ} (h : s.conns.get? x = entry n) : s.of x = n := by
  rw [Conns.of, h, entry]
  split_ifs with hn
  · rw [hn]
    rfl
  · rfl

theorem addGlobal_eq (hglobal : 0 < lim.globalMax) (n : ℤ) :
    s.addGlobal lim n = { s with globalConns := s.globalConns + n } := if_pos hglobal

include hconns hglobal

/-- What a step does to the global count. -/
theorem next_slot (s : Conns Ip) (p : Pos Ip) :
    (next lim s p).1.globalConns + p.slot = s.globalConns + (next lim s p).2.slot := by
  have hmax : lim.maxConns ≠ 0 := Nat.pos_iff_ne_zero.mp hconns
  cases p with
  | load ip | count ip | uncount ip =>
    rw [next]
    split_ifs <;> rfl
  | add ip =>
    simp only [next, addGlobal_eq hglobal, if_neg hmax]
    split_ifs <;> simp [Pos.slot]
  | undo | full => simp [next, addGlobal_eq hglobal, Pos.slot]
  | drop ip => simp [next, addGlobal_eq hglobal, hmax, Pos.slot]
  | unlock ip => cases ip <;> rfl
  | lock ip | held ip | relock ip | reunlock | done => rfl

/-- A slot is taken within the cap. -/
theorem next_reserved (s : Conns Ip) (p : Pos Ip) : (next lim s p).2.reserved ≤ p.reserved ∨
    (next lim s p).2.slot = 1 ∧ p.slot = 0 ∧ (next lim s p).1.globalConns ≤ lim.globalMax := by
  have hmax : lim.maxConns ≠ 0 := Nat.pos_iff_ne_zero.mp hconns
  cases p with
  | load ip | count ip | uncount ip =>
    rw [next]
    split_ifs <;> exact .inl le_rfl
  | add ip =>
    simp only [next, addGlobal_eq hglobal, if_neg hmax]
    split_ifs with h
    · exact .inl (Nat.zero_le _)
    · exact .inr ⟨rfl, rfl, not_lt.mp fun hlt => h ⟨hglobal, hlt⟩⟩
  | unlock ip => cases ip <;> exact .inl le_rfl
  | drop ip =>
    simp only [next, if_neg hmax]
    exact .inl (Nat.zero_le _)
  | undo | full => exact .inl (Nat.zero_le _)
  | lock ip | held ip | relock ip | reunlock | done => exact .inl le_rfl

/-- **What a step does to the counts of the addresses**: one more below the cap, one less, or nothing. -/
theorem next_place (s : Conns Ip) (p : Pos Ip) :
    ((next lim s p).1.conns = s.conns ∧ ∀ x, (next lim s p).2.place x = p.place x) ∨
    (∃ ip, s.of ip < lim.maxConns ∧ (next lim s p).1.conns = s.conns.set ip (s.of ip + 1) ∧
      ∀ x, p.place x = 0 ∧ (next lim s p).2.place x = if ip = x then 1 else 0) ∨
    ∃ ip, (next lim s p).1.conns = (if s.of ip ≤ 1 then s.conns.pop ip else s.conns.set ip (s.of ip - 1)) ∧
      ∀ x, (p.place x = if ip = x then 1 else 0) ∧ (next lim s p).2.place x = 0 := by
  have hmax : lim.maxConns ≠ 0 := Nat.pos_iff_ne_zero.mp hconns
  cases p with
  | load ip =>
    refine .inl ?_
    rw [next]
    split_ifs <;> exact ⟨rfl, fun _ => rfl⟩
  | add ip =>
    refine .inl ?_
    simp only [next, addGlobal_eq hglobal, if_neg hmax]
    split_ifs <;> exact ⟨rfl, fun _ => rfl⟩
  | undo | full =>
    refine .inl ?_
    rw [next, addGlobal_eq hglobal]
    exact ⟨rfl, fun _ => rfl⟩
  | drop ip =>
    refine .inl ?_
    rw [next, addGlobal_eq hglobal, if_neg hmax]
    exact ⟨rfl, fun _ => rfl⟩
  | count ip =>
    rw [next]
    split_ifs with h
    · exact .inl ⟨rfl, fun _ => rfl⟩
    · exact .inr (.inl ⟨ip, not_le.mp h, rfl, fun _ => ⟨rfl, rfl⟩⟩)
  | uncount ip =>
    refine .inr (.inr ⟨ip, ?_⟩)
    rw [next]
    split_ifs <;> exact ⟨rfl, fun _ => ⟨rfl, rfl⟩⟩
  | unlock ip => cases ip <;> exact .inl ⟨rfl, fun _ => rfl⟩
  | lock ip | held ip | relock ip | reunlock | done => exact .inl ⟨rfl, fun _ => rfl⟩

theorem counted_step {i : ℕ} (h : Counted lim c) (hp : c.procs[i]? = some p) :
    Counted lim ((calls lim).after c i p ()) := by
  have hslot := Crowd.total_step (S := calls lim) (a := ()) (w := Pos.slot) hp
  have hreserved := Crowd.total_step (S := calls lim) (a := ()) (w := Pos.reserved) hp
  have hplace := fun x => Crowd.total_step (S := calls lim) (a := ()) (w := Pos.place x) hp
  have hglob := next_slot hconns hglobal c.shared p
  have hle : ((calls lim).after c i p ()).total Pos.reserved ≤ ((calls lim).after c i p ()).total Pos.slot :=
    Crowd.total_mono reserved_le_slot
  have hslots := h.slots
  have hfew := h.few
  change _ = _ + (next lim c.shared p).2.slot at hslot
  change _ = _ + (next lim c.shared p).2.reserved at hreserved
  refine ⟨?_, ?_, fun x => ?_, fun x => ?_⟩
  · show (next lim c.shared p).1.globalConns = _
    omega
  · rcases next_reserved hconns hglobal c.shared p with hr | ⟨h1, h0, hmax⟩
    · omega
    · -- The new slot is within the cap, and so are all of them.
      omega
  · have hx := hplace x
    change _ = _ + (next lim c.shared p).2.place x at hx
    show (next lim c.shared p).1.conns.get? x = _
    rcases next_place hconns hglobal c.shared p with ⟨hc, hpl⟩ | ⟨ip, -, hc, hpl⟩ | ⟨ip, hc, hpl⟩
    · have hsame : ((calls lim).after c i p ()).total (Pos.place x) = c.total (Pos.place x) := by
        rw [hpl x] at hx
        omega
      rw [hc, h.places x, hsame]
    · obtain ⟨h0, h1⟩ := hpl x
      rw [hc, Dict.get?_set, h.places x, of_eq (h.places ip)]
      rw [h0, h1] at hx
      by_cases hxi : x = ip
      · subst hxi
        rw [if_pos rfl] at hx ⊢
        rw [entry, if_neg (by omega)]
        congr 1
        omega
      · rw [if_neg hxi]
        rw [if_neg (Ne.symm hxi)] at hx
        congr 1
        omega
    · obtain ⟨h1, h0⟩ := hpl x
      have hmem : p.place x ≤ c.total (Pos.place x) := Crowd.le_total hp
      rw [hc, of_eq (h.places ip)]
      rw [h0, h1] at hx
      rw [h1] at hmem
      by_cases hxi : x = ip
      · subst hxi
        rw [if_pos rfl] at hx hmem
        split_ifs with hone
        · rw [Dict.get?_pop, if_pos rfl, entry, if_pos (by omega)]
        · rw [Dict.get?_set, if_pos rfl, entry, if_neg (by omega)]
          congr 1
          omega
      · rw [if_neg (Ne.symm hxi)] at hx
        have hsame : ((calls lim).after c i p ()).total (Pos.place x) = c.total (Pos.place x) := by omega
        rw [hsame, ← h.places x]
        split_ifs
        · rw [Dict.get?_pop, if_neg hxi]
        · rw [Dict.get?_set, if_neg hxi]
  · have hx := hplace x
    change _ = _ + (next lim c.shared p).2.place x at hx
    have hcap := h.cap x
    rcases next_place hconns hglobal c.shared p with ⟨-, hpl⟩ | ⟨ip, hlt, -, hpl⟩ | ⟨ip, -, hpl⟩
    · rw [hpl x] at hx
      omega
    · obtain ⟨h0, h1⟩ := hpl x
      rw [of_eq (h.places ip)] at hlt
      rw [h0, h1] at hx
      by_cases hxi : ip = x
      · subst hxi
        rw [if_pos rfl] at hx
        omega
      · rw [if_neg hxi] at hx
        omega
    · rw [(hpl x).2] at hx
      omega

theorem counted_reach (h : (calls lim).machine.Reach Machine.Any start c) : Counted lim c := by
  refine Crowd.invariant h ⟨rfl, hglobal.le, fun _ => rfl, fun _ => Nat.zero_le _⟩ (fun c p hc hp => ?_)
    fun c i p _ hc hp _ => counted_step hconns hglobal hc hp
  have hzero : p.slot = 0 ∧ p.reserved = 0 ∧ ∀ x, p.place x = 0 := by
    cases p with
    | load ip => exact ⟨rfl, rfl, fun _ => rfl⟩
    | _ => exact absurd hp id
  obtain ⟨h1, h2, h3⟩ := hzero
  refine ⟨?_, ?_, fun x => ?_, fun x => ?_⟩ <;> rw [Crowd.total_start]
  · rw [h1]
    exact hc.slots
  · rw [h2]
    exact hc.few
  · rw [h3 x]
    exact hc.places x
  · rw [h3 x]
    exact hc.cap x

/-! ## Joins -/

omit hconns hglobal in
/-- The windows that a sweep keeps. -/
theorem get?_sweep {w : RateWindow} (h : (sweepExpired j now).joinWindows.get? x = some w) :
    j.joinWindows.get? x = some w := by
  rw [sweepExpired] at h
  split_ifs at h
  · exact h
  · rw [Dict.get?_filter, Option.filter_eq_some_iff] at h
    exact h.1

omit hconns hglobal in
/-- A window that a sweep drops has run out. -/
theorem get?_swept {w : RateWindow} (h : (sweepExpired j now).joinWindows.get? x = none)
    (hw : j.joinWindows.get? x = some w) : second ≤ now - w.windowStart := by
  rw [sweepExpired] at h
  split_ifs at h
  · rw [hw] at h
    cases h
  · rw [Dict.get?_filter, hw, Option.filter_some] at h
    by_contra hlt
    rw [if_pos (by simpa using hlt)] at h
    cases h

omit hconns hglobal in
theorem length_sweep : (sweepExpired j now).joinWindows.length ≤ j.joinWindows.length := by
  rw [sweepExpired]
  split_ifs
  · exact le_rfl
  · exact Dict.length_filter_le

/-- What a check does to the window of its address that a sweep has left. -/
inductive Checked (lim : Limits) (now : ℤ) : Option RateWindow → Option RateWindow → Bool → Prop
  /-- A new address, at the ceiling. -/
  | denied : Checked lim now none none false
  | opened {o : Option RateWindow} (h : ∀ w, o = some w → second ≤ now - w.windowStart) :
      Checked lim now o (some ⟨now, 1⟩) true
  | spent (w : RateWindow) : Checked lim now (some w) (some w) false
  | counted {w : RateWindow} (h : now - w.windowStart < second) (hfew : w.count < lim.joinsPerSec) :
      Checked lim now (some w) (some ⟨w.windowStart, w.count + 1⟩) true

/-- A sweep, and whether the ceiling may be logged again. -/
def swept (j : Joins Ip) (now : ℤ) : Joins Ip :=
  let j := sweepExpired j now
  if j.joinWindows.length < maxJoinWindowEntries then { j with ceilingLogged := false } else j

omit hconns hglobal in
theorem swept_windows : (swept j now).joinWindows = (sweepExpired j now).joinWindows := by
  unfold swept
  dsimp only
  split_ifs <;> rfl

omit hconns hglobal in
theorem logged_windows : (logCeilingReached lim j).joinWindows = j.joinWindows := by
  unfold logCeilingReached
  split_ifs <;> rfl

omit hconns hglobal in
/-- **What a check does**: it touches the window of its own address only, and opens none at the ceiling. -/
theorem allowJoin_spec (hjoins : 0 < lim.joinsPerSec) (j : Joins Ip) (now : ℤ) (ip : Ip) :
    Checked lim now ((sweepExpired j now).joinWindows.get? ip) ((allowJoin lim j now ip).1.joinWindows.get? ip)
        (allowJoin lim j now ip).2 ∧
      (∀ x, x ≠ ip → (allowJoin lim j now ip).1.joinWindows.get? x = (sweepExpired j now).joinWindows.get? x) ∧
      (j.joinWindows.length ≤ maxJoinWindowEntries →
        (allowJoin lim j now ip).1.joinWindows.length ≤ maxJoinWindowEntries) := by
  have hallow : allowJoin lim j now ip =
      match (swept j now).joinWindows.get? ip with
      | none =>
        if maxJoinWindowEntries ≤ (swept j now).joinWindows.length then (logCeilingReached lim (swept j now), false)
        else ({ swept j now with joinWindows := (swept j now).joinWindows.set ip ⟨now, 1⟩ }, true)
      | some w =>
        if second ≤ now - w.windowStart then
          ({ swept j now with joinWindows := (swept j now).joinWindows.set ip ⟨now, 1⟩ }, true)
        else if lim.joinsPerSec ≤ w.count then (swept j now, false)
        else ({ swept j now with joinWindows := (swept j now).joinWindows.set ip ⟨w.windowStart, w.count + 1⟩ },
          true) := by
    rw [allowJoin, if_neg (Nat.pos_iff_ne_zero.mp hjoins)]
    rfl
  have hlength : (sweepExpired j now).joinWindows.length ≤ j.joinWindows.length := length_sweep
  rw [hallow, swept_windows]
  -- Setting the window of an address that has one keeps the length.
  have hset : ∀ {w v : RateWindow}, (sweepExpired j now).joinWindows.get? ip = some w →
      ((sweepExpired j now).joinWindows.set ip v).length = (sweepExpired j now).joinWindows.length := by
    intro w v hw
    rw [Dict.length_set, Dict.length_pop hw]
  cases ho : (sweepExpired j now).joinWindows.get? ip with
  | none =>
    dsimp only
    split_ifs with hfull
    · rw [logged_windows, swept_windows, ho]
      exact ⟨.denied, fun _ _ => rfl, fun h => hlength.trans h⟩
    · refine ⟨?_, fun x hx => by rw [Dict.get?_set, if_neg hx], fun _ => ?_⟩
      · rw [Dict.get?_set, if_pos rfl]
        exact .opened fun _ h => by cases h
      · rw [Dict.length_set, Dict.pop_of_none ho]
        omega
  | some w =>
    dsimp only
    split_ifs with hold hspent
    · refine ⟨?_, fun x hx => by rw [Dict.get?_set, if_neg hx], fun h => ?_⟩
      · rw [Dict.get?_set, if_pos rfl]
        refine .opened fun v hv => ?_
        obtain rfl := Option.some.inj hv
        exact hold
      · rw [hset ho]
        exact hlength.trans h
    · rw [swept_windows, ho]
      exact ⟨.spent w, fun _ _ => rfl, fun h => hlength.trans h⟩
    · refine ⟨?_, fun x hx => by rw [Dict.get?_set, if_neg hx], fun h => ?_⟩
      · rw [Dict.get?_set, if_pos rfl]
        exact .counted (not_le.mp hold) (not_le.mp hspent)
      · rw [hset ho]
        exact hlength.trans h

/-- The window of an address against the joins that were admitted from it, each in its window. -/
def Fits (l : List Windowed.Event) (later : ℤ → Prop) : Option RateWindow → Prop
  | none => ∀ e ∈ l, ∀ t, later t → e.opened + second ≤ t
  | some w => l.countP (·.opened = w.windowStart) = w.count ∧
      (∀ e ∈ l, e.opened = w.windowStart ∨ e.opened + second ≤ w.windowStart) ∧
      ∀ t, later t → w.windowStart ≤ t

/-- The admitted joins of an address fall in windows. -/
def Rated (lim : Limits) (x : Ip) (checks : List (ℤ × Ip)) (r : Joins Ip × List (ℤ × Ip)) : Prop :=
  ∃ l, Windowed second lim.joinsPerSec l ∧ l.map (·.at_) = (r.2.filter (·.2 = x)).map (·.1) ∧
    Fits l (fun t => ∀ c ∈ checks, c.1 ≤ t) (r.1.joinWindows.get? x)

omit hconns hglobal in
/-- Every window of an address has run out when it has none, or an old one. -/
theorem Fits.over {l : List Windowed.Event} {later : ℤ → Prop} {o : Option RateWindow} (h : Fits l later o)
    (hnow : later now) (ho : ∀ w, o = some w → second ≤ now - w.windowStart) :
    ∀ e ∈ l, e.opened + second ≤ now := by
  intro e he
  cases o with
  | none => exact h e he now hnow
  | some w =>
    have hw := ho w rfl
    rcases h.2.1 e he with heq | hle
    · omega
    · have hpos : 0 < second := by decide
      omega

omit hconns hglobal in
/-- The window of an address fits when a check has been made. -/
theorem rated_check (hjoins : 0 < lim.joinsPerSec) {checks : List (ℤ × Ip)} {admitted : List (ℤ × Ip)}
    (h : Rated lim x checks (j, admitted)) (hnow : ∀ c ∈ checks, c.1 ≤ now) :
    Rated lim x (checks ++ [(now, ip)]) ((allowJoin lim j now ip).1,
      if (allowJoin lim j now ip).2 then admitted ++ [(now, ip)] else admitted) := by
  obtain ⟨l, hl, htimes, hfits⟩ := h
  obtain ⟨hcheck, hothers, -⟩ := allowJoin_spec hjoins j now ip
  have hpos : 0 < second := by decide
  have hlater : ∀ t : ℤ, (∀ c ∈ checks ++ [(now, ip)], c.1 ≤ t) → (∀ c ∈ checks, c.1 ≤ t) ∧ now ≤ t := by
    intro t ht
    exact ⟨fun c hc => ht c (List.mem_append_left _ hc), ht (now, ip) (by simp)⟩
  -- After the sweep the window is the old one, or there is none and the old ones have run out.
  have hswept : Fits l (fun t => ∀ c ∈ checks ++ [(now, ip)], c.1 ≤ t)
      ((sweepExpired j now).joinWindows.get? x) := by
    cases ho : (sweepExpired j now).joinWindows.get? x with
    | some w =>
      have hw : Fits l _ (some w) := get?_sweep ho ▸ hfits
      exact ⟨hw.1, hw.2.1, fun t ht => hw.2.2 t (hlater t ht).1⟩
    | none =>
      have hover := hfits.over hnow fun w hw => get?_swept ho hw
      exact fun e he t ht => (hover e he).trans (hlater t ht).2
  by_cases hx : x = ip
  · subst hx
    have hover : ∀ o : Option RateWindow, o = (sweepExpired j now).joinWindows.get? x →
        (∀ w, o = some w → second ≤ now - w.windowStart) → ∀ e ∈ l, e.opened + second ≤ now := by
      rintro o rfl hold
      cases ho : (sweepExpired j now).joinWindows.get? x with
      | none => exact hfits.over hnow fun w hw => get?_swept ho hw
      | some w =>
        refine hfits.over hnow fun v hv => ?_
        rw [get?_sweep ho] at hv
        obtain rfl := Option.some.inj hv
        exact hold _ ho
    have hadmitted : ∀ s : ℤ, (l ++ [(⟨s, now⟩ : Windowed.Event)]).map (·.at_) =
        ((admitted ++ [(now, x)]).filter (·.2 = x)).map (·.1) := by
      intro s
      rw [List.filter_append, List.map_append, List.map_append, htimes]
      simp
    generalize (sweepExpired j now).joinWindows.get? x = o at hcheck hswept hover
    rw [Rated]
    dsimp only
    generalize (allowJoin lim j now x).1.joinWindows.get? x = o' at hcheck ⊢
    generalize (allowJoin lim j now x).2 = ok at hcheck ⊢
    cases hcheck with
    | denied | spent w => exact ⟨l, hl, htimes, hswept⟩
    | opened hold =>
      have hover := hover o rfl hold
      refine ⟨l ++ [⟨now, now⟩], hl.opens hjoins hpos hover, hadmitted now, ?_, fun e he => ?_,
        fun t ht => (hlater t ht).2⟩
      · have hnone : l.countP (·.opened = now) = 0 := by
          refine List.countP_eq_zero.mpr fun e he => ?_
          have := hover e he
          rw [decide_eq_true_eq]
          omega
        rw [List.countP_append, hnone]
        simp
      · rcases List.mem_append.mp he with he | he
        · exact .inr (hover e he)
        · rw [List.mem_singleton.mp he]
          exact .inl rfl
    | @counted w hyoung hfew =>
      obtain ⟨hcount, hwins, hstart⟩ := hswept
      have hle : w.windowStart ≤ now := hstart now fun c hc => by
        rcases List.mem_append.mp hc with hc | hc
        · exact hnow c hc
        · rw [List.mem_singleton.mp hc]
      refine ⟨l ++ [⟨w.windowStart, now⟩], hl.counts (hcount ▸ hfew) hle (by omega) hwins, hadmitted _, ?_,
        fun e he => ?_, hstart⟩
      · rw [List.countP_append, hcount]
        simp
      · rcases List.mem_append.mp he with he | he
        · exact hwins e he
        · rw [List.mem_singleton.mp he]
          exact .inl rfl
  · refine ⟨l, hl, ?_, ?_⟩
    · rw [htimes]
      split_ifs
      · rw [List.filter_append]
        simp [Ne.symm hx]
      · rfl
    · rw [hothers x hx]
      exact hswept

omit hconns hglobal in
/-- What holds after any checks at instants that do not decrease. -/
theorem joinsAfter_rated (hjoins : 0 < lim.joinsPerSec) {checks : List (ℤ × Ip)}
    (h : checks.Pairwise fun a b => a.1 ≤ b.1) :
    (joinsAfter lim checks).1.joinWindows.length ≤ maxJoinWindowEntries ∧
      ∀ x, Rated lim x checks (joinsAfter lim checks) := by
  induction checks using List.reverseRecOn with
  | nil => exact ⟨Nat.zero_le _, fun x => ⟨[], .nil, rfl, nofun⟩⟩
  | append_singleton checks c ih =>
    rw [List.pairwise_append] at h
    obtain ⟨hlen, hrated⟩ := ih h.1
    obtain ⟨now, ip⟩ := c
    rw [joinsAfter, List.foldl_append]
    refine ⟨(allowJoin_spec hjoins _ now ip).2.2 hlen, fun x => ?_⟩
    exact rated_check hjoins (hrated x) fun c hc => h.2.2 c hc (now, ip) (by simp)

/-- **The caps hold**, with all of them enabled.

* In every interleaving no more connections are held than the global cap, nor of one address than its own.
* When no call is in progress, the global count and the count of each address are those of the connections
  held, and an address that holds none has no entry.
* After any checks at instants that do not decrease, the joins have no more windows than they may, and in no
  span of a second was one address admitted more than twice its rate. -/
theorem caps_hold :
    (∀ c : Conf Ip, (calls lim).machine.Reach Machine.Any start c →
      (c.procs.countP Pos.acquired ≤ lim.globalMax ∧
        ∀ x, c.procs.countP (Pos.acquiredBy x) ≤ lim.maxConns) ∧
      (Quiet c → c.shared.globalConns = c.procs.countP Pos.acquired ∧
        ∀ x, c.shared.conns.get? x = entry (c.procs.countP (Pos.acquiredBy x)))) ∧
    (0 < lim.joinsPerSec → ∀ checks : List (ℤ × Ip), (checks.Pairwise fun a b => a.1 ≤ b.1) →
      (joinsAfter lim checks).1.joinWindows.length ≤ maxJoinWindowEntries ∧
        ∀ x a, (joinsAfter lim checks).2.countP (fun c => c.2 = x ∧ a ≤ c.1 ∧ c.1 < a + second) ≤
          2 * lim.joinsPerSec) := by
  refine ⟨fun c hc => ?_, fun hjoins checks h => ?_⟩
  · have hcounted := counted_reach hconns hglobal hc
    have hheld : c.procs.countP Pos.acquired ≤ c.total Pos.reserved := by
      rw [Crowd.countP_eq_total]
      exact Crowd.total_mono fun p => by cases p <;> simp [Pos.acquired, Pos.reserved, Pos.slot]
    have hheldBy : ∀ x, c.procs.countP (Pos.acquiredBy x) ≤ c.total (Pos.place x) := fun x => by
      rw [Crowd.countP_eq_total]
      exact Crowd.total_mono fun p => by cases p <;> simp [Pos.acquiredBy, Pos.place]
    refine ⟨⟨?_, fun x => (hheldBy x).trans (hcounted.cap x)⟩, fun hq => ⟨?_, fun x => ?_⟩⟩
    · have := hcounted.few
      omega
    · rw [hcounted.slots, Crowd.countP_eq_total]
      refine congrArg _ (Crowd.total_congr fun p hp => ?_)
      rcases hq p hp with rfl | hp
      · rfl
      · cases p <;> simp_all [Pos.acquired, Pos.slot]
    · rw [hcounted.places, Crowd.countP_eq_total]
      refine congrArg _ (Crowd.total_congr fun p hp => ?_)
      rcases hq p hp with rfl | hp
      · rfl
      · cases p <;> simp_all [Pos.acquired, Pos.acquiredBy, Pos.place]
  · obtain ⟨hlen, hrated⟩ := joinsAfter_rated hjoins h
    refine ⟨hlen, fun x a => ?_⟩
    obtain ⟨l, hl, htimes, -⟩ := hrated x
    have hrate := hl.rate a
    have hcount : (joinsAfter lim checks).2.countP (fun c => c.2 = x ∧ a ≤ c.1 ∧ c.1 < a + second) =
        (l.map (·.at_)).countP fun t => a ≤ t ∧ t < a + second := by
      rw [htimes, List.countP_map, List.countP_filter]
      refine List.countP_congr fun c _ => ?_
      simp [and_comm]
    rw [hcount, List.countP_map]
    exact hrate

omit hconns hglobal

instance (s : Conns Ip) (p : Pos Ip) (a : Unit) : Decidable ((calls lim).pre s p a) :=
  inferInstanceAs (Decidable (canStep s p))

instance (p : Pos Ip) : Decidable ((calls lim).start p) := inferInstanceAs (Decidable p.begins)

/-- Two connections of address `7`; the cap for each address refuses the second. -/
def twoConnections : List (Crowd.Move (Pos ℕ) Unit) :=
  .start (.load 7) :: List.replicate 5 (.step 0 ()) ++ .start (.load 7) :: List.replicate 6 (.step 1 ())

/-- **One connection is held**, and its address joins once. -/
theorem caps_hold_twoConnections : ∃ c : Conf ℕ, c.procs = [.held 7, .done] ∧ c.shared.globalConns = 1 ∧
    c.shared.conns.get? 7 = some 1 ∧ c.shared.conns.get? 8 = none ∧
    (joinsAfter (newIPCaps 1 1 0 true) [(0, 7), (5, 7)]).2.countP
      (fun c => c.2 = 7 ∧ 0 ≤ c.1 ∧ c.1 < 0 + second) ≤ 2 * 1 := by
  have hrun : ((calls (newIPCaps 1 1 0 true)).machine.exec twoConnections start).map (·.procs) =
      some [.held 7, .done] := by decide +kernel
  obtain ⟨c, hc, hp⟩ := Machine.reach_of_exec_map hrun
  obtain ⟨hconns, hjoins⟩ := @caps_hold ℕ _ (newIPCaps 1 1 0 true) (by decide) (by decide)
  obtain ⟨hglobal, hcounts⟩ := (hconns c hc).2 fun p hmem => by
    rw [hp] at hmem
    rcases List.mem_cons.mp hmem with rfl | hmem
    · exact .inr rfl
    · exact .inl (List.mem_singleton.mp hmem)
  refine ⟨c, hp, ?_, ?_, ?_, (hjoins (by decide) [(0, 7), (5, 7)] (by decide)).2 7 0⟩
  · rw [hglobal, hp]
    rfl
  · rw [hcounts, hp]
    rfl
  · rw [hcounts, hp]
    rfl

end McServerDashboard.Relay.IPCaps
