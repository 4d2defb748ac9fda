import Mathlib.Algebra.Group.Nat.Defs
import Mathlib.Order.Lattice
import Mathlib.Order.Nat
import McServerDashboard.Lib.Run
import McServerDashboard.Servers.Lifecycle

/-!
# The reconciler's backoff

Each tick of the reconciler reads the servers that have diverged and acts on those whose grace has passed, a few at a
time, each action for as long as it takes. A server whose action fails waits, twice as long each time, and is forgiven
when it has stayed settled or was not seen for long.

* `consider`, `settle`, `forgiveSettled`, `expireStale`: what a tick does about one server and its entry.
* `reconciler`: the machine of the ticks and of the actions within one, over all servers.
* `History`, `Diverges`: what happened to a server, and when it keeps diverging.
* **`backoff_grows`**: the entry of a server that keeps diverging counts its failed attempts, and between the ticks of
  two attempts the whole wait goes by.
-/

namespace McServerDashboard.Reconciler

open Lib Servers
open Lifecycle (Row StopFlow stoppedIntentAction)

/-! ## One server -/

/-- The instants and the spans are in microseconds. -/
def seconds (n : ℕ) : ℕ := 1000000 * n

/-- The settings, of which the last two are checked to be positive. -/
structure Settings where
  graceSeconds : ℕ
  heldStartGraceSeconds : ℕ
  refusedStopGraceSeconds : ℕ
  restartTimeoutSeconds : ℕ
  backoffBaseSeconds : ℕ
  backoffMaxSeconds : ℕ
  base_pos : 0 < backoffBaseSeconds
  max_pos : 0 < backoffMaxSeconds

/-- The row of a server. -/
structure Server extends Row where
  updatedAt : ℕ
  deriving DecidableEq

def isSettled (s : Server) : Bool :=
  if s.desired = .running then s.observed = .running && s.assigned.isSome
  else s.assigned.isNone && isAtRest s.desired s.observed

def notRunning : ObservedState → Bool
  | .stopped | .stopping | .restarting | .crashed | .unknown => true
  | _ => false

/-- `stop` is `redispatch_stop` or `clear_stale_assignment`. -/
inductive Action
  | placeAndStart
  | redispatchStart
  | stop (flow : StopFlow)
  deriving DecidableEq

def Action.starts : Action → Bool
  | .placeAndStart | .redispatchStart => true
  | .stop _ => false

/-- What the control plane, the storage and the refusals say of a candidate; the read of the generation may fail. -/
structure View where
  connected : Bool
  refusedAt : Option ℕ
  generation : Option ℕ
  holdsFresh : Bool

def actionFor (s : Server) (connected : Bool) : Option Action :=
  if s.desired = .running then
    if s.assigned = none then some .placeAndStart
    else if notRunning s.observed = false then none
    else if connected then some .redispatchStart
    else none
  else (stoppedIntentAction s.toRow connected).map .stop

def since (s : Server) : ℕ := max s.updatedAt (s.observedAt.getD s.updatedAt)

def withinGrace (s : Server) (now graceSeconds : ℕ) : Bool := now < since s + seconds graceSeconds

def previousStopRefused (s : Server) (v : View) : Bool := v.refusedAt.any (since s ≤ ·)

structure GraceDecision where
  graceSeconds : ℕ
  storeGeneration : Option ℕ

/-- `none` when the storage cannot be read. -/
def graceFor (cfg : Settings) (s : Server) (a : Action) (v : View) : Option GraceDecision :=
  if a = .stop .redispatchStop ∧ previousStopRefused s v = true then some ⟨cfg.refusedStopGraceSeconds, none⟩
  else if a ≠ .redispatchStart ∨ s.assigned = none then some ⟨cfg.graceSeconds, none⟩
  else
    let floor := if s.observed = .stopping then cfg.restartTimeoutSeconds else 0
    v.generation.map fun g =>
      if v.holdsFresh then ⟨max cfg.heldStartGraceSeconds floor, some g⟩ else ⟨max cfg.graceSeconds floor, none⟩

/-- The action that a candidate past its grace is due, with the generation that the grace was granted on. -/
def pastGrace (cfg : Settings) (now : ℕ) (s : Server) (v : View) : Option (Action × Option ℕ) :=
  match actionFor s v.connected with
  | none => none
  | some a =>
    match graceFor cfg s a v with
    | none => none
    | some d => if withinGrace s now d.graceSeconds then none else some (a, d.storeGeneration)

/-- `_Backoff`. -/
structure Backoff where
  failures : ℕ
  nextEligibleAt : ℕ
  delay : ℕ
  settledSince : Option ℕ
  lastSettledAt : Option ℕ
  deriving DecidableEq

/-- `_consider`: the action that is run. -/
def consider (cfg : Settings) (now : ℕ) (s : Server) (v : View) (entry : Option Backoff) :
    Option (Action × Option ℕ) :=
  (pastGrace cfg now s v).filter fun _ => entry.all (·.nextEligibleAt ≤ now)

/-- The wait after the `k`th failure. -/
def delayAfter (cfg : Settings) (k : ℕ) : ℕ :=
  seconds (min (cfg.backoffBaseSeconds * 2 ^ (k - 1)) cfg.backoffMaxSeconds)

def recordFailure (cfg : Settings) (now : ℕ) (previous : Option Backoff) : Backoff :=
  let failures := (previous.map Backoff.failures).getD 0 + 1
  ⟨failures, now + delayAfter cfg failures, delayAfter cfg failures, none, none⟩

/-- How a dispatch ends. -/
inductive Outcome
  | returned (observed : ObservedState)
  /-- The Worker refuses the command as busy. -/
  | busy
  /-- Another stop convergence is in flight. -/
  | conflict
  | failed
  deriving DecidableEq

/-- What `_run` leaves of the entry, in a tick that began at `now`. -/
def settle (cfg : Settings) (now : ℕ) (a : Action) (o : Outcome) (entry : Option Backoff) : Option Backoff :=
  match o with
  | .busy => if a.starts then entry else some (recordFailure cfg now entry)
  | .conflict => if a.starts then some (recordFailure cfg now entry) else entry
  | .failed => some (recordFailure cfg now entry)
  | .returned observed =>
    if a.starts = true ∧ observed = .crashed then some (recordFailure cfg now entry) else none

/-- What a tick reads of a server: a candidate, or the row that it looks up otherwise. -/
inductive Read
  | listed (s : Server)
  | other (s : Option Server)

def Read.settled : Read → Bool
  | .other (some s) => isSettled s
  | _ => false

/-- The server was deleted. -/
def Read.deleted : Read → Bool
  | .other none => true
  | _ => false

/-- `_forgive_settled`, of one entry. -/
def forgiveSettled (now : ℕ) (r : Read) (b : Backoff) : Option Backoff :=
  match r with
  | .other none => none
  | r =>
    if r.settled then
      let start := b.settledSince.getD now
      if start + b.delay ≤ now then none
      else some { b with settledSince := some start, lastSettledAt := some now }
    else some { b with settledSince := none }

/-- `_expire_stale`, of one entry. -/
def expireStale (cfg : Settings) (now : ℕ) (b : Backoff) : Option Backoff :=
  if max b.nextEligibleAt (b.lastSettledAt.getD b.nextEligibleAt) + seconds cfg.backoffMaxSeconds ≤ now then none
  else some b

/-! ## The ticks -/

/-- The attempt counts as failed: a crash restart does. -/
def Action.fails (a : Action) : Outcome → Bool
  | .busy => !a.starts
  | .conflict => a.starts
  | .failed => true
  | .returned observed => a.starts && observed = .crashed

/-- The attempt succeeds and is no crash restart. -/
def Action.succeeds (a : Action) : Outcome → Bool
  | .returned observed => !(a.starts && observed = .crashed)
  | _ => false

/-- What happened to a server (a ghost). -/
structure History where
  /-- The failed attempts, the start of the tick of the last one, and when it ended. -/
  failed : ℕ
  failedTick : ℕ
  failedEnd : ℕ
  /-- The start of the unbroken run of ticks that read it settled, and of the last tick that did. -/
  settledRun : Option ℕ
  lastSettled : Option ℕ
  /-- The starts of the ticks that found it a candidate past its grace, and whose attempt, if it was eligible,
  failed. -/
  due : List ℕ

/-- A tick that began at `t` has read the server. -/
def History.read (h : History) (t : ℕ) (settled : Bool) : History :=
  { h with
    settledRun := if settled then some (h.settledRun.getD t) else none
    lastSettled := if settled then some t else h.lastSettled }

/-- An attempt of the tick that began at `now` has ended at `t`. -/
def History.attempt (h : History) (now t : ℕ) (fails : Bool) : History :=
  if fails then { h with failed := h.failed + 1, failedTick := now, failedEnd := t, due := now :: h.due } else h

/-- The instant at which the server was eligible, or the last one at which it was read settled. -/
def History.slackFrom (cfg : Settings) (h : History) : ℕ :=
  max (h.failedTick + delayAfter cfg h.failed) (h.lastSettled.getD 0)

/-- A candidate of the tick that is in progress. -/
inductive Task
  | queued (s : Server)
  | running (a : Action) (generation : Option ℕ)
  deriving DecidableEq

def Task.isRunning : Task → Bool
  | .queued _ => false
  | .running _ _ => true

/-- Its attempt succeeds when it ends so. -/
def Task.succeeds (o : Outcome) : Task → Bool
  | .queued _ => false
  | .running a _ => a.succeeds o

def maxConcurrentActions : ℕ := 4

structure State (Id : Type) where
  clock : ℕ
  /-- The start of the last tick, which is over when it has no tasks left. -/
  now : ℕ
  attempts : Id → Option Backoff
  tasks : List (Id × Task)
  history : Id → History

inductive Act (Id : Type)
  /-- A tick begins and reads the candidates, and the other rows. -/
  | begin (t : ℕ) (listed : List (Id × Server)) (others : Id → Option Server)
  /-- The task gets its place and looks at its candidate. -/
  | consider (i t : ℕ) (v : View)
  | finish (i t : ℕ) (o : Outcome)

section Machine

variable {Id : Type} [DecidableEq Id]

def readOf (listed : List (Id × Server)) (others : Id → Option Server) (id : Id) : Read :=
  match listed.lookup id with
  | some s => .listed s
  | none => .other (others id)

/-- The number of recorded failures. -/
def failures (c : State Id) (id : Id) : ℕ := ((c.attempts id).map Backoff.failures).getD 0

/-- The ticks, one after the other, and the actions of each. -/
def reconciler (cfg : Settings) : Machine (State Id) (Act Id) where
  pre c
    | .begin t listed _ => c.tasks = [] ∧ c.clock ≤ t ∧ (listed.map Prod.fst).Nodup
    | .consider i t _ => c.clock ≤ t ∧ c.tasks.countP (·.2.isRunning) < maxConcurrentActions ∧
        ∃ x ∈ c.tasks[i]?, x.2.isRunning = false
    | .finish i t _ => c.clock ≤ t ∧ ∃ x ∈ c.tasks[i]?, x.2.isRunning = true
  post c
    | .begin t listed others =>
      { clock := t
        now := t
        attempts := fun id =>
          ((c.attempts id).bind (forgiveSettled t (readOf listed others id))).bind (expireStale cfg t)
        tasks := listed.map fun x => (x.1, .queued x.2)
        history := fun id => (c.history id).read t (readOf listed others id).settled }
    | .consider i t v =>
      match c.tasks[i]? with
      | some (id, .queued s) =>
        match Reconciler.consider cfg c.now s v (c.attempts id) with
        | some (a, generation) => { c with clock := t, tasks := c.tasks.set i (id, .running a generation) }
        | none =>
          { c with
            clock := t
            tasks := c.tasks.eraseIdx i
            history := if (pastGrace cfg c.now s v).isSome then
              Function.update c.history id { c.history id with due := c.now :: (c.history id).due } else c.history }
      | _ => c
    | .finish i t o =>
      match c.tasks[i]? with
      | some (id, .running a _) =>
        { c with
          clock := t
          attempts := Function.update c.attempts id (settle cfg c.now a o (c.attempts id))
          tasks := c.tasks.eraseIdx i
          history := Function.update c.history id ((c.history id).attempt c.now t (a.fails o)) }
      | _ => c

/-- The server keeps diverging: no action on it succeeds, it is not deleted, it is not read settled for as long as its
last wait, and it is a candidate past its grace again within the longest wait of being eligible or settled. -/
def Diverges (cfg : Settings) (id : Id) (c : State Id) : Act Id → Prop
  | .begin t listed others =>
    let r := readOf listed others id
    let h := (c.history id).read t r.settled
    r.deleted = false ∧ (0 < h.failed →
      h.settledRun.all (t < · + delayAfter cfg h.failed) = true ∧
      (h.slackFrom cfg + seconds cfg.backoffMaxSeconds ≤ t →
        ∃ u ∈ h.due, h.slackFrom cfg ≤ u ∧ u < h.slackFrom cfg + seconds cfg.backoffMaxSeconds))
  | .consider _ _ _ => True
  | .finish i _ o => ∀ x ∈ c.tasks[i]?, x.1 = id → x.2.succeeds o = false

instance (cfg : Settings) (c : State Id) (x : Act Id) : Decidable ((reconciler cfg).pre c x) :=
  match x with
  | .begin _ _ _ => inferInstanceAs (Decidable (_ ∧ _ ∧ _))
  | .consider _ _ _ => inferInstanceAs (Decidable (_ ∧ _ ∧ ∃ x ∈ _, _))
  | .finish _ _ _ => inferInstanceAs (Decidable (_ ∧ ∃ x ∈ _, _))

instance (cfg : Settings) (id : Id) (c : State Id) (x : Act Id) : Decidable (Diverges cfg id c x) :=
  match x with
  | .begin _ _ _ => inferInstanceAs (Decidable (_ ∧ (_ → _ ∧ (_ → ∃ u ∈ _, _))))
  | .consider _ _ _ => inferInstanceAs (Decidable True)
  | .finish _ _ _ => inferInstanceAs (Decidable (∀ x ∈ _, _))

/-- An API that has just started. -/
def start : State Id := ⟨0, 0, fun _ => none, [], fun _ => ⟨0, 0, 0, none, none, []⟩⟩

/-! ## What the entry says -/

variable {cfg : Settings} {c d : State Id} {id : Id} {h : History} {b : Backoff} {t i : ℕ} {a : Action} {o : Outcome}
  {r : Read} {s : Server} {v : View} {g : Option ℕ}

theorem seconds_pos {n : ℕ} (hn : 0 < n) : 0 < seconds n := Nat.mul_pos (by decide) hn

theorem delayAfter_pos (cfg : Settings) (k : ℕ) : 0 < delayAfter cfg k :=
  seconds_pos (lt_min (Nat.mul_pos cfg.base_pos (Nat.two_pow_pos _)) cfg.max_pos)

/-- **What an attempt leaves of the entry**: a failure is recorded, a success forgives, and what is neither changes
nothing. -/
theorem settle_eq (entry : Option Backoff) : settle cfg t a o entry =
    if a.fails o then some (recordFailure cfg t entry) else if a.succeeds o then none else entry := by
  cases o with
  | failed => rfl
  | busy | conflict => cases a <;> rfl
  | returned observed =>
    rw [settle, Action.fails, Action.succeeds]
    by_cases hcrash : a.starts = true ∧ observed = .crashed
    · rw [if_pos hcrash, if_pos (by simp [hcrash])]
    · have hfalse : (a.starts && decide (observed = .crashed)) = false := by
        rw [← Bool.not_eq_true, Bool.and_eq_true, decide_eq_true_eq]
        exact hcrash
      rw [if_neg hcrash, hfalse]
      rfl

/-- The entry is what the history of its server makes it. -/
structure Tracks (cfg : Settings) (h : History) (b : Backoff) : Prop where
  failures : b.failures = h.failed
  eligible : b.nextEligibleAt = h.failedTick + delayAfter cfg h.failed
  delay : b.delay = delayAfter cfg h.failed
  settled : b.settledSince = h.settledRun
  slack : max b.nextEligibleAt (b.lastSettledAt.getD b.nextEligibleAt) = h.slackFrom cfg

structure Inv (cfg : Settings) (id : Id) (c : State Id) : Prop where
  clock : c.now ≤ c.clock
  settled : ∀ u, (c.history id).lastSettled = some u → u ≤ c.now
  due : ∀ u ∈ (c.history id).due,
    u ≤ c.now ∧ (0 < (c.history id).failed → u < (c.history id).failedTick + delayAfter cfg (c.history id).failed)
  fresh : (c.history id).failed = 0 → c.attempts id = none
  entry : 0 < (c.history id).failed → ∃ b, c.attempts id = some b ∧ Tracks cfg (c.history id) b
  tasks : ∀ x ∈ c.tasks, x.1 = id → (c.history id).settledRun = none

omit [DecidableEq Id] in
theorem Inv.failures_eq (hi : Inv cfg id c) : failures c id = (c.history id).failed := by
  rcases Nat.eq_zero_or_pos (c.history id).failed with hzero | hpos
  · rw [failures, hi.fresh hzero, hzero]
    rfl
  · obtain ⟨b, hb, ht⟩ := hi.entry hpos
    rw [failures, hb]
    exact ht.failures

/-! ## One step -/

/-- **The reads of a tick leave the entry**: the run of settled reads is too short to forgive, and the server has been
a candidate too lately to expire. -/
theorem Tracks.read (ht : Tracks cfg h b) (hrow : r.deleted = false)
    (hrun : (h.read t r.settled).settledRun.all (t < · + delayAfter cfg h.failed) = true)
    (hfresh : r.settled = false → t < h.slackFrom cfg + seconds cfg.backoffMaxSeconds) :
    ∃ b', (forgiveSettled t r b).bind (expireStale cfg t) = some b' ∧ Tracks cfg (h.read t r.settled) b' := by
  have hforgive : forgiveSettled t r b =
      if r.settled then
        if b.settledSince.getD t + b.delay ≤ t then none
        else some { b with settledSince := some (b.settledSince.getD t), lastSettledAt := some t }
      else some { b with settledSince := none } := by
    cases r with
    | listed s => rfl
    | other x =>
      cases x with
      | none => cases hrow
      | some s => rfl
  have heligible : b.nextEligibleAt ≤ h.slackFrom cfg := by
    rw [ht.eligible]
    exact le_max_left _ _
  rw [hforgive]
  cases hsettled : r.settled with
  | true =>
    rw [hsettled] at hrun
    have hlt : t < h.settledRun.getD t + delayAfter cfg h.failed := of_decide_eq_true hrun
    rw [if_pos rfl, ht.settled, ht.delay, if_neg (Nat.not_le.mpr hlt)]
    have hkeep : ¬ max b.nextEligibleAt t + seconds cfg.backoffMaxSeconds ≤ t :=
      Nat.not_le.mpr ((le_max_right _ _).trans_lt (Nat.lt_add_of_pos_right (seconds_pos cfg.max_pos)))
    refine ⟨_, if_neg hkeep, ht.failures, ht.eligible, rfl, rfl, ?_⟩
    change max b.nextEligibleAt t = max _ t
    rw [ht.eligible]
    rfl
  | false =>
    have hkeep : ¬ max b.nextEligibleAt (b.lastSettledAt.getD b.nextEligibleAt) + seconds cfg.backoffMaxSeconds ≤
        t := by
      rw [ht.slack]
      exact Nat.not_le.mpr (hfresh hsettled)
    exact ⟨_, if_neg hkeep, ht.failures, ht.eligible, ht.delay, rfl, ht.slack⟩

theorem Inv.begin {listed : List (Id × Server)} {others : Id → Option Server} (hi : Inv cfg id c)
    (hpre : (reconciler cfg).pre c (.begin t listed others)) (hd : Diverges cfg id c (.begin t listed others)) :
    Inv cfg id ((reconciler cfg).post c (.begin t listed others)) := by
  obtain ⟨-, hclock, hnodup⟩ := hpre
  obtain ⟨hrow, hdiv⟩ := hd
  have hnow : c.now ≤ t := hi.clock.trans hclock
  refine ⟨le_rfl, fun u hu => ?_, fun u hu => ⟨(hi.due u hu).1.trans hnow, (hi.due u hu).2⟩, fun hzero => ?_,
    fun hpos => ?_, fun x hx hid => ?_⟩
  · change (if (readOf listed others id).settled then some t else (c.history id).lastSettled) = some u at hu
    split_ifs at hu
    · exact (Option.some.inj hu).ge
    · exact (hi.settled u hu).trans hnow
  · change ((c.attempts id).bind _).bind _ = none
    rw [hi.fresh hzero]
    rfl
  · obtain ⟨b, hb, ht⟩ := hi.entry hpos
    obtain ⟨hrun, hagain⟩ := hdiv hpos
    have hfresh : (readOf listed others id).settled = false →
        t < (c.history id).slackFrom cfg + seconds cfg.backoffMaxSeconds := by
      intro hsettled
      have hslack : ((c.history id).read t (readOf listed others id).settled).slackFrom cfg =
          (c.history id).slackFrom cfg := by
        rw [hsettled]
        rfl
      by_contra hle
      obtain ⟨u, hu, hfrom, -⟩ := hagain (by rw [hslack]; exact Nat.not_lt.mp hle)
      rw [hslack] at hfrom
      exact absurd ((hi.due u hu).2 hpos) (Nat.not_lt.mpr ((le_max_left _ _).trans hfrom))
    obtain ⟨b', hb', ht'⟩ := ht.read hrow hrun hfresh
    refine ⟨b', ?_, ht'⟩
    change ((c.attempts id).bind _).bind _ = some b'
    rw [hb]
    exact hb'
  -- A candidate was not read settled.
  · obtain ⟨y, hy, rfl⟩ := List.mem_map.mp hx
    have hlisted : ∃ s, readOf listed others id = .listed s := by
      rw [readOf]
      split
      next s _ => exact ⟨s, rfl⟩
      next hnone =>
        rw [List.lookup_eq_none_iff] at hnone
        exact absurd hid.symm (by simpa using hnone y hy)
    obtain ⟨s, hs⟩ := hlisted
    change (if (readOf listed others id).settled then some _ else none) = none
    rw [hs]
    rfl

omit [DecidableEq Id] in
theorem Inv.of (hh : d.history id = h) (hclock : d.now ≤ d.clock) (hsettled : ∀ u, h.lastSettled = some u → u ≤ d.now)
    (hdue : ∀ u ∈ h.due, u ≤ d.now ∧ (0 < h.failed → u < h.failedTick + delayAfter cfg h.failed))
    (hfresh : h.failed = 0 → d.attempts id = none)
    (hentry : 0 < h.failed → ∃ b, d.attempts id = some b ∧ Tracks cfg h b)
    (htasks : ∀ x ∈ d.tasks, x.1 = id → h.settledRun = none) : Inv cfg id d := by
  subst hh
  exact ⟨hclock, hsettled, hdue, hfresh, hentry, htasks⟩

omit [DecidableEq Id] in
/-- A step that leaves the entry of the server, and its history. -/
theorem Inv.keep (hi : Inv cfg id c) (hd : d.attempts id = c.attempts id) (hh : d.history id = c.history id)
    (hnow : d.now = c.now) (hclock : c.clock ≤ d.clock)
    (htasks : ∀ x ∈ d.tasks, x.1 = id → (c.history id).settledRun = none) : Inv cfg id d := by
  refine .of hh (hnow ▸ hi.clock.trans hclock) ?_ ?_ ?_ ?_ htasks
  · exact hnow ▸ hi.settled
  · exact hnow ▸ hi.due
  · exact hd ▸ hi.fresh
  · exact hd ▸ hi.entry

theorem post_consider {id' : Id} (hx : c.tasks[i]? = some (id', .queued s)) :
    (reconciler cfg).post c (.consider i t v) =
      match Reconciler.consider cfg c.now s v (c.attempts id') with
      | some (a, g) => { c with clock := t, tasks := c.tasks.set i (id', .running a g) }
      | none =>
        { c with
          clock := t
          tasks := c.tasks.eraseIdx i
          history := if (pastGrace cfg c.now s v).isSome then
              Function.update c.history id' { c.history id' with due := c.now :: (c.history id').due }
            else c.history } := by
  change (match c.tasks[i]? with
    | some (id, .queued s) => _
    | _ => _) = _
  rw [hx]

/-- Only a server that waits is turned away past its grace. -/
theorem ineligible {now : ℕ} {entry : Option Backoff} (hnone : consider cfg now s v entry = none)
    (hdue : (pastGrace cfg now s v).isSome = true) : ∃ b, entry = some b ∧ now < b.nextEligibleAt := by
  obtain ⟨x, hx⟩ := Option.isSome_iff_exists.mp hdue
  rw [consider, hx, Option.filter_eq_none_iff] at hnone
  have hwaits := hnone x rfl
  cases entry with
  | none => exact absurd rfl hwaits
  | some b => exact ⟨b, rfl, Nat.not_le.mp fun hle => hwaits (decide_eq_true hle)⟩

theorem Inv.consider (hi : Inv cfg id c) (hpre : (reconciler cfg).pre c (.consider i t v)) :
    Inv cfg id ((reconciler cfg).post c (.consider i t v)) := by
  obtain ⟨hclock, -, ⟨id', task⟩, hx, hqueued⟩ := hpre
  have hx : c.tasks[i]? = some (id', task) := hx
  have hsub : ∀ x ∈ c.tasks.eraseIdx i, x ∈ c.tasks := fun x hx => List.mem_of_mem_eraseIdx hx
  cases task with
  | running a g => cases hqueued
  | queued s =>
    rw [post_consider hx]
    cases hcons : Reconciler.consider cfg c.now s v (c.attempts id') with
    | some ag =>
      refine hi.keep rfl rfl rfl hclock fun x hx' hid => ?_
      rcases List.mem_or_eq_of_mem_set hx' with hx' | rfl
      · exact hi.tasks x hx' hid
      · exact hi.tasks _ (List.mem_of_getElem? hx) hid
    | none =>
      simp only
      split_ifs with hdue
      · by_cases hid : id' = id
        · subst hid
          have hother : ∀ u ∈ c.now :: (c.history id').due, u ≤ c.now ∧ (0 < (c.history id').failed →
              u < (c.history id').failedTick + delayAfter cfg (c.history id').failed) := by
            rintro u (_ | ⟨_, hu⟩)
            · refine ⟨le_rfl, fun hpos => ?_⟩
              obtain ⟨b, hb, hlt⟩ := ineligible hcons hdue
              obtain ⟨b', hb', ht⟩ := hi.entry hpos
              cases hb.symm.trans hb'
              exact ht.eligible ▸ hlt
            · exact hi.due u hu
          refine .of (Function.update_self _ _ _) (hi.clock.trans hclock) hi.settled hother hi.fresh (fun hpos => ?_)
            fun x hx' => hi.tasks x (hsub x hx')
          obtain ⟨b, hb, ht⟩ := hi.entry hpos
          exact ⟨b, hb, ht.failures, ht.eligible, ht.delay, ht.settled, ht.slack⟩
        · exact hi.keep rfl (Function.update_of_ne (Ne.symm hid) _ _) rfl hclock fun x hx' => hi.tasks x (hsub x hx')
      · exact hi.keep rfl rfl rfl hclock fun x hx' => hi.tasks x (hsub x hx')

theorem post_finish {id' : Id} (hx : c.tasks[i]? = some (id', .running a g)) :
    (reconciler cfg).post c (.finish i t o) =
      { c with
        clock := t
        attempts := Function.update c.attempts id' (settle cfg c.now a o (c.attempts id'))
        tasks := c.tasks.eraseIdx i
        history := Function.update c.history id' ((c.history id').attempt c.now t (a.fails o)) } := by
  change (match c.tasks[i]? with
    | some (id, .running a _) => _
    | _ => _) = _
  rw [hx]

/-- **A failure is one more**, and the server waits from the start of the tick. -/
theorem Tracks.fail {entry : Option Backoff} {now : ℕ} (hentry : (entry.map Backoff.failures).getD 0 = h.failed)
    (hrun : h.settledRun = none) (hsettled : ∀ u, h.lastSettled = some u → u ≤ now) :
    Tracks cfg (h.attempt now t true) (recordFailure cfg now entry) := by
  have hrecord : recordFailure cfg now entry =
      ⟨h.failed + 1, now + delayAfter cfg (h.failed + 1), delayAfter cfg (h.failed + 1), none, none⟩ := by
    rw [recordFailure, hentry]
  rw [hrecord]
  refine ⟨rfl, rfl, rfl, hrun.symm, ?_⟩
  have hlast : h.lastSettled.getD 0 ≤ now + delayAfter cfg (h.failed + 1) := by
    cases hl : h.lastSettled with
    | none => exact Nat.zero_le _
    | some u => exact (hsettled u hl).trans (Nat.le_add_right _ _)
  change max _ _ = max (now + delayAfter cfg (h.failed + 1)) (h.lastSettled.getD 0)
  rw [max_eq_left hlast]
  exact max_self _

theorem Inv.finish (hi : Inv cfg id c) (hpre : (reconciler cfg).pre c (.finish i t o))
    (hd : Diverges cfg id c (.finish i t o)) : Inv cfg id ((reconciler cfg).post c (.finish i t o)) := by
  obtain ⟨hclock, ⟨id', task⟩, hx, hrunning⟩ := hpre
  have hx : c.tasks[i]? = some (id', task) := hx
  have hsub : ∀ x ∈ c.tasks.eraseIdx i, x ∈ c.tasks := fun x hx => List.mem_of_mem_eraseIdx hx
  cases task with
  | queued s => cases hrunning
  | running a g =>
    rw [post_finish hx]
    by_cases hid : id' = id
    · subst hid
      have hsucceeds : a.succeeds o = false := hd _ hx rfl
      have hrun := hi.tasks _ (List.mem_of_getElem? hx) rfl
      cases hfails : a.fails o with
      | false =>
        have hsettle : settle cfg c.now a o (c.attempts id') = c.attempts id' := by
          rw [settle_eq, hfails, hsucceeds]
          rfl
        rw [hsettle, Function.update_eq_self]
        refine hi.keep rfl ?_ rfl hclock fun x hx' => hi.tasks x (hsub x hx')
        exact Function.update_self _ _ _
      | true =>
        have ht : Tracks cfg ((c.history id').attempt c.now t true) (recordFailure cfg c.now (c.attempts id')) :=
          .fail hi.failures_eq hrun hi.settled
        have hlt : c.now < c.now + delayAfter cfg ((c.history id').failed + 1) :=
          Nat.lt_add_of_pos_right (delayAfter_pos cfg _)
        refine .of (Function.update_self _ _ _) (hi.clock.trans hclock) hi.settled ?_
          (fun hzero => absurd hzero (Nat.succ_ne_zero _)) (fun _ => ⟨_, ?_, ht⟩) fun x hx' _ => hrun
        · rintro u (_ | ⟨_, hu⟩)
          · exact ⟨le_rfl, fun _ => hlt⟩
          · exact ⟨(hi.due u hu).1, fun _ => (hi.due u hu).1.trans_lt hlt⟩
        · change Function.update c.attempts id' _ id' = _
          rw [Function.update_self, settle_eq, hfails]
          rfl
    · exact hi.keep (Function.update_of_ne (Ne.symm hid) _ _) (Function.update_of_ne (Ne.symm hid) _ _) rfl hclock
        fun x hx' => hi.tasks x (hsub x hx')

omit [DecidableEq Id] in
theorem inv_start : Inv cfg id (start : State Id) where
  clock := le_rfl
  settled := nofun
  due := nofun
  fresh _ := rfl
  entry := nofun
  tasks := nofun

theorem Inv.step {x : Act Id} (hi : Inv cfg id c) (hpre : (reconciler cfg).pre c x) (hd : Diverges cfg id c x) :
    Inv cfg id ((reconciler cfg).post c x) := by
  cases x with
  | begin t listed others => exact hi.begin hpre hd
  | consider i t v => exact hi.consider hpre
  | finish i t o => exact hi.finish hpre hd

theorem inv_of_reach (h : (reconciler cfg).Reach (Diverges cfg id) start c) : Inv cfg id c :=
  h.invariant inv_start fun _ _ hi hpre hd => hi.step hpre hd

/-- No step lowers the number of failed attempts. -/
theorem failed_mono (h : (reconciler cfg).Reach (Diverges cfg id) c d) :
    (c.history id).failed ≤ (d.history id).failed := by
  refine h.le_of_step (f := fun u => (u.history id).failed) fun u x hpre _ => ?_
  cases x with
  | begin t listed others => exact le_rfl
  | consider i t v =>
    obtain ⟨-, -, ⟨id', task⟩, hx, hqueued⟩ := hpre
    cases task with
    | running a g => cases hqueued
    | queued s =>
      rw [post_consider hx]
      split
      next => exact le_rfl
      next =>
        dsimp only
        split_ifs
        · by_cases hid : id = id'
          · subst hid
            rw [Function.update_self]
          · rw [Function.update_of_ne hid]
        · exact le_rfl
  | finish i t o =>
    obtain ⟨-, ⟨id', task⟩, hx, hrunning⟩ := hpre
    cases task with
    | queued s => cases hrunning
    | running a g =>
      rw [post_finish hx]
      dsimp only
      by_cases hid : id = id'
      · subst hid
        rw [Function.update_self, History.attempt]
        split_ifs
        · exact Nat.le_succ _
        · exact le_rfl
      · rw [Function.update_of_ne hid]

/-! ## The result -/

/-- **The wait of a server that keeps diverging grows and is not forgotten.** The failures recorded are the failed
attempts; they never fall; an attempt adds one unless it was refused as busy or gave way to another convergence; and an
action is run only in a tick that begins when the whole wait has gone by since the tick of the last failed attempt
began. -/
theorem backoff_grows (cfg : Settings) (id : Id) (c : State Id)
    (h : (reconciler cfg).Reach (Diverges cfg id) start c) :
    failures c id = (c.history id).failed ∧
    (∀ d, (reconciler cfg).Reach (Diverges cfg id) c d → failures c id ≤ failures d id) ∧
    (∀ i t o a g, (reconciler cfg).pre c (.finish i t o) → c.tasks[i]? = some (id, .running a g) →
      a.succeeds o = false →
      failures ((reconciler cfg).post c (.finish i t o)) id = failures c id + if a.fails o then 1 else 0) ∧
    (∀ i t s v, (reconciler cfg).pre c (.consider i t v) → c.tasks[i]? = some (id, .queued s) →
      (consider cfg c.now s v (c.attempts id)).isSome = true → 0 < failures c id →
      (c.history id).failedTick + delayAfter cfg (failures c id) ≤ c.now ∧ c.now ≤ t) := by
  have hi := inv_of_reach h
  refine ⟨hi.failures_eq, fun d hd => ?_, fun i t o a g hpre hx hsucceeds => ?_, fun i t s v hpre hx hrun hpos => ?_⟩
  · rw [hi.failures_eq, (inv_of_reach (h.trans hd)).failures_eq]
    exact failed_mono hd
  · rw [post_finish hx, failures]
    dsimp only
    rw [Function.update_self, settle_eq, hsucceeds]
    cases a.fails o <;> rfl
  · rw [hi.failures_eq] at hpos ⊢
    obtain ⟨b, hb, ht⟩ := hi.entry hpos
    obtain ⟨x, hx⟩ := Option.isSome_iff_exists.mp hrun
    rw [consider, Option.filter_eq_some_iff, hb] at hx
    have heligible : b.nextEligibleAt ≤ c.now := of_decide_eq_true hx.2
    exact ⟨ht.eligible ▸ heligible, hi.clock.trans hpre.1⟩

end Machine

/-! ## A server that crashed -/

theorem base_pos_stock : 0 < 30 := by decide

def stock : Settings := ⟨660, 90, 30, 600, 30, 3600, base_pos_stock, by decide⟩

def crashed : Server :=
  { desired := .running, observed := .crashed, observedAt := some 0, assigned := some 1, config := [], placement := 0,
    edits := 0, updatedAt := 0 }

def view : View := ⟨true, none, some 0, false⟩

/-- A tick at second 1000 dispatches a start, which fails at second 1025; the next tick begins at second 1031. -/
def crashLoop : List (Act ℕ) :=
  [.begin (seconds 1000) [(0, crashed)] fun _ => none, .consider 0 (seconds 1000) view,
    .finish 0 (seconds 1025) .failed, .begin (seconds 1031) [(0, crashed)] fun _ => none]

/-- The state after some of these steps, in which the server keeps diverging. -/
theorem reach_crashLoop {β : Type} {as : List (Act ℕ)} {f : State ℕ → β} {x : β}
    (h : (((reconciler stock).guard (Diverges stock 0)).exec as start).map f = some x) :
    ∃ c, (reconciler stock).Reach (Diverges stock 0) start c ∧ f c = x := by
  obtain ⟨c, hc, hx⟩ := Machine.reach_of_exec_map h
  exact ⟨c, Machine.reach_of_guard hc, hx⟩

/-- The start is due again when thirty seconds have gone by since the tick began. -/
theorem backoff_grows_crashLoop : ∃ c : State ℕ, failures c 0 = 1 ∧ c.now = seconds 1031 ∧
    (c.history 0).failedTick + delayAfter stock (failures c 0) ≤ c.now := by
  have hrun : (((reconciler stock).guard (Diverges stock 0)).exec crashLoop start).map (fun c =>
      (decide ((reconciler stock).pre c (.consider 0 (seconds 1031) view) ∧ c.tasks[0]? = some (0, .queued crashed)),
        (consider stock c.now crashed view (c.attempts 0)).isSome, failures c 0, c.now)) =
      some (true, true, 1, seconds 1031) := by decide
  obtain ⟨c, hc, hx⟩ := reach_crashLoop hrun
  obtain ⟨hpre, hx⟩ := Prod.mk.inj hx
  obtain ⟨hrun, hx⟩ := Prod.mk.inj hx
  obtain ⟨hfailures, hnow⟩ := Prod.mk.inj hx
  obtain ⟨hpre, htask⟩ := of_decide_eq_true hpre
  have hwait := (backoff_grows stock 0 c hc).2.2.2 0 _ crashed view hpre htask hrun (hfailures ▸ Nat.one_pos)
  exact ⟨c, hfailures, hnow, hwait.1⟩

/-- **An attempt that is refused as busy is not counted, and one that takes long cuts the wait after it short.** -/
theorem wait_cut_short :
    (¬ ∀ c, (reconciler stock).Reach (Diverges stock 0) start c → ∀ i t o a g,
      (reconciler stock).pre c (.finish i t o) → c.tasks[i]? = some (0, .running a g) → a.succeeds o = false →
      failures ((reconciler stock).post c (.finish i t o)) 0 = failures c 0 + 1) ∧
    ¬ ∀ c, (reconciler stock).Reach (Diverges stock 0) start c → ∀ i t s v,
      (reconciler stock).pre c (.consider i t v) → c.tasks[i]? = some (0, .queued s) →
      (consider stock c.now s v (c.attempts 0)).isSome = true → 0 < failures c 0 →
      (c.history 0).failedEnd + delayAfter stock (failures c 0) ≤ t := by
  constructor
  · intro h
    have hrun : (((reconciler stock).guard (Diverges stock 0)).exec (crashLoop.take 2) start).map (fun c =>
        (decide ((reconciler stock).pre c (.finish 0 (seconds 1001) .busy) ∧
          c.tasks[0]? = some (0, .running .redispatchStart none)), failures c 0,
          failures ((reconciler stock).post c (.finish 0 (seconds 1001) .busy)) 0)) = some (true, 0, 0) := by decide
    obtain ⟨c, hc, hx⟩ := reach_crashLoop hrun
    obtain ⟨hpre, hx⟩ := Prod.mk.inj hx
    obtain ⟨hbefore, hafter⟩ := Prod.mk.inj hx
    obtain ⟨hpre, htask⟩ := of_decide_eq_true hpre
    have hone := h c hc 0 _ .busy _ _ hpre htask rfl
    rw [hbefore, hafter] at hone
    cases hone
  · intro h
    have hrun : (((reconciler stock).guard (Diverges stock 0)).exec crashLoop start).map (fun c =>
        (decide ((reconciler stock).pre c (.consider 0 (seconds 1031) view) ∧ c.tasks[0]? = some (0, .queued crashed)),
          (consider stock c.now crashed view (c.attempts 0)).isSome, failures c 0, (c.history 0).failedEnd)) =
        some (true, true, 1, seconds 1025) := by decide
    obtain ⟨c, hc, hx⟩ := reach_crashLoop hrun
    obtain ⟨hpre, hx⟩ := Prod.mk.inj hx
    obtain ⟨hrun, hx⟩ := Prod.mk.inj hx
    obtain ⟨hfailures, hend⟩ := Prod.mk.inj hx
    obtain ⟨hpre, htask⟩ := of_decide_eq_true hpre
    have hwait := h c hc 0 _ crashed view hpre htask hrun (hfailures ▸ Nat.one_pos)
    rw [hfailures, hend] at hwait
    exact absurd hwait (by decide)

end McServerDashboard.Reconciler
