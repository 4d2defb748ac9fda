import McServerDashboard.Lib.Crowd
import McServerDashboard.Worker.Instances
import Mathlib.Data.List.Infix

/-!
# The orphans of failed stops

A stop that cannot confirm the end of its instance leaves a record of it, and one goroutine of the manager, the
converger, probes the instance until the record is gone. Here are the maps of the manager at one server id, the
commands, pumps and convergers as goroutines that come and go, and `Close`; what an instance answers to a probe or a
stop is open.

* `State`, `Pc`: what the goroutines share, and where one stands.
* `advance`, `manager`: the atomic steps, and the machine of all of them.
* `unknownRuns`: the runs of undetermined probes of one instance.
* `Inv`: who holds the id and who converges, and what the flags of a converger say of its probes.
* **`orphans_converge`**: one converger is at work for a record, a record goes only for a reason, and a converger
  reports `unknown` once for each of its runs.
-/

namespace McServerDashboard.Worker.Orphans

open Lib
open Instances (Answer)

/-! ## The manager at one server id -/

/-- The driver and the version that a start names. -/
structure Launch where
  driver : List UInt8
  mcVersion : List UInt8
  deriving DecidableEq

/-- `orphanEntry`, or a running instance with what it was started with. -/
structure Entry where
  inst : ℕ
  launch : Launch
  deriving DecidableEq

/-- What `ProbeAlive` answers. -/
inductive Liveness
  | alive
  | dead
  | undetermined
  deriving DecidableEq

structure State where
  instances : Option Entry
  orphan : Option Entry
  /-- The goroutines that the flags `reserved` and `converging` stand for (a ghost: the code keeps the flags). -/
  reserved : Option ℕ
  converging : Option ℕ
  closed : Bool
  shutdown : Bool
  /-- The instances are numbered as they are launched. -/
  launched : ℕ
  /-- The instances whose events have ended. -/
  exited : ℕ → Bool
  /-- The instances that a stop has confirmed; the probes answered and acted upon and the reports of `unknown`, each
  with its converger (ghosts). -/
  confirmed : List ℕ
  probes : List (ℕ × ℕ × Liveness)
  unknowns : List (ℕ × ℕ)

/-- The flags of `convergeOrphan`, and the instance they describe. -/
structure Flags where
  probed : Option ℕ
  sawDead : Bool
  reportedUnknown : Bool
  deriving DecidableEq

/-- Who runs `attemptStop`. -/
inductive Op
  | stop
  | restart
  | retry
  deriving DecidableEq

/-- `attemptStop`: in the driver's `Stop`, and after it. -/
inductive Attempt
  | stopping
  | failed
  | stopped
  deriving DecidableEq

inductive Command
  | start (launch : Launch)
  | stop
  | restart
  /-- A hydrate, a snapshot of a stopped server, or the reclaim of its scratch. -/
  | work
  deriving DecidableEq

/-- Where a goroutine stands. -/
inductive Pc
  | taking (cmd : Command)
  /-- `handleRestart` looks the driver up. -/
  | validating (e : Entry)
  | attempting (op : Op) (e : Entry) (k : Attempt)
  | releasing (op : Op) (e : Entry) (stopped : Bool)
  /-- `launchReserved`: the driver starts, and the instance is registered. -/
  | launching (launch : Launch)
  | registering (e : Entry)
  | startingPumps (inst : ℕ)
  | working
  | pumping (inst : ℕ)
  /-- `convergeOrphan`. -/
  | parked (f : Flags)
  | probing (f : Flags) (e : Entry)
  | retrying (e : Entry)
  | retiring (f : Flags) (e : Entry)
  /-- A command has its result; a pump or a converger has only to return. -/
  | answered (r : Answer)
  | gone
  deriving DecidableEq

/-- What a step leaves open. -/
inductive Choice
  | ok
  | failed (r : Answer)
  /-- The `select` sees the shutdown. -/
  | quit
  | probe (r : Liveness)
  /-- The instance says that it crashed, or its events have ended. -/
  | crashed
  | ended
  deriving DecidableEq

/-! ## The critical sections -/

/-- `reserve`. -/
def State.reserve (i : ℕ) (s : State) (p : Pc) : State × Pc :=
  if s.instances ≠ none then (s, .answered .invalidState)
  else if s.orphan ≠ none then (s, .answered .busy)
  else if s.reserved ≠ none then (s, .answered .busy)
  else ({ s with reserved := some i }, p)

def State.takeStoppableReserve (i : ℕ) (s : State) : State × Pc :=
  match s.instances with
  | some e => ({ s with instances := none, reserved := some i }, .attempting .stop e .stopping)
  | none =>
    if s.reserved ≠ none then (s, .answered .busy)
    else
      match s.orphan with
      | some e => ({ s with reserved := some i }, .attempting .stop e .stopping)
      | none => (s, .answered .serverNotFound)

def State.takeRunningReserve (i : ℕ) (s : State) : State × Pc :=
  match s.instances with
  | some e => ({ s with instances := none, reserved := some i }, .validating e)
  | none =>
    if s.reserved ≠ none then (s, .answered .busy)
    else if s.orphan ≠ none then (s, .answered .invalidState)
    else (s, .answered .serverNotFound)

/-- The flags after a probe of `inst` that is neither dead nor undetermined. -/
def cleared (inst : ℕ) : Flags := ⟨some inst, false, false⟩

/-- `takeOrphanReserve`, or the round is skipped. -/
def State.takeOrphanReserve (i : ℕ) (s : State) (inst : ℕ) : State × Pc :=
  if s.reserved ≠ none then (s, .parked (cleared inst))
  else
    match s.orphan with
    | some e =>
      if e.inst = inst then ({ s with reserved := some i }, .attempting .retry e .stopping)
      else (s, .parked (cleared inst))
    | none => (s, .parked (cleared inst))

def State.release (s : State) : State := { s with reserved := none }

/-- `restoreRunning`, and the registration of a started instance. -/
def State.register (s : State) (e : Entry) : State := { s with instances := some e, reserved := none }

def State.forgetIf (s : State) (inst : ℕ) : State :=
  if s.instances.map Entry.inst = some inst then { s with instances := none } else s

def State.forgetOrphanIf (s : State) (inst : ℕ) : State :=
  if s.orphan.map Entry.inst = some inst then { s with orphan := none } else s

/-- `recordOrphan`; a converger that it starts is goroutine `n`. -/
def State.recordOrphan (n : ℕ) (s : State) (e : Entry) : State × List Pc :=
  if s.converging = none ∧ s.closed = false then
    ({ s with orphan := some e, converging := some n }, [.parked ⟨none, false, false⟩])
  else ({ s with orphan := some e }, [])

/-- `currentOrphan`, and the flags when the record has changed hands. -/
def State.currentOrphan (s : State) (f : Flags) : State × Pc :=
  match s.orphan with
  | none => ({ s with converging := none }, .gone)
  | some e => (s, .probing (if f.probed = some e.inst then f else cleared e.inst) e)

/-- Converger `i` acts upon the answer to its probe. -/
def State.answer (i : ℕ) (s : State) (f : Flags) (e : Entry) (r : Liveness) : State × Pc :=
  let s := { s with probes := s.probes ++ [(i, e.inst, r)] }
  match r with
  | .undetermined =>
    (if f.reportedUnknown then s else { s with unknowns := s.unknowns ++ [(i, e.inst)] },
      .parked { f with sawDead := false, reportedUnknown := true })
  | .alive => (s, .retrying e)
  | .dead =>
    (s, if f.sawDead then .retiring f e else .parked { f with sawDead := true, reportedUnknown := false })

/-! ## The machine -/

/-- Where `attemptStop` goes on after a stop that is confirmed. -/
def Op.stopped (e : Entry) : Op → Pc
  | .restart => .launching e.launch
  | op => .releasing op e true

/-- What is left when the id is released. -/
def Op.released (e : Entry) (stopped : Bool) : Op → Pc
  | .retry => .parked (cleared e.inst)
  | _ => .answered (if stopped then .success else .internal)

/-- A step that starts no goroutine. -/
def alone (r : State × Pc) : State × Pc × List Pc := (r.1, r.2, [])

/-- The next step of goroutine `i`, of `n`, with the goroutines that it starts. -/
def advance (n i : ℕ) (s : State) (x : Choice) : Pc → State × Pc × List Pc
  | .taking (.start launch) => alone (s.reserve i (.launching launch))
  | .taking .stop => alone (s.takeStoppableReserve i)
  | .taking .restart => alone (s.takeRunningReserve i)
  | .taking .work => alone (s.reserve i .working)
  | .validating e =>
    match x with
    | .failed r => alone (s.register e, .answered r)
    | _ => alone (s, .attempting .restart e .stopping)
  | .attempting op e .stopping =>
    match x with
    | .failed _ => alone (s, .attempting op e .failed)
    | _ => alone ({ s with confirmed := e.inst :: s.confirmed }, .attempting op e .stopped)
  | .attempting op e .failed => ((s.recordOrphan n e).1, .releasing op e false, (s.recordOrphan n e).2)
  | .attempting op e .stopped => alone ({ s with orphan := none }, op.stopped e)
  | .releasing op e stopped => alone (s.release, op.released e stopped)
  | .launching launch =>
    match x with
    | .failed r => alone (s.release, .answered r)
    | _ => alone ({ s with launched := s.launched + 1 }, .registering ⟨s.launched, launch⟩)
  | .registering e => alone (s.register e, .startingPumps e.inst)
  | .startingPumps inst => (s, .answered .success, if s.closed then [] else [.pumping inst])
  | .working =>
    match x with
    | .failed r => alone (s.release, .answered r)
    | _ => alone (s.release, .answered .success)
  | .pumping inst =>
    match x with
    | .crashed => alone (s.forgetIf inst, .pumping inst)
    | .ended => alone (s.forgetOrphanIf inst, .gone)
    | _ => alone (s, .gone)
  | .parked f =>
    match x with
    | .quit => alone (s, .gone)
    | _ => alone (s.currentOrphan f)
  | .probing f e =>
    if s.shutdown then alone (s, .gone)
    else
      match x with
      | .probe r => alone (s.answer i f e r)
      | _ => alone (s, .probing f e)
  | .retrying e => alone (s.takeOrphanReserve i e.inst)
  | .retiring f e => alone (s.forgetOrphanIf e.inst, .parked f)
  | .answered r => alone (s, .answered r)
  | .gone => alone (s, .gone)

/-- The driver's call, or a step that cannot fail, has returned. -/
def Choice.returns : Choice → Bool
  | .ok | .failed _ => true
  | _ => false

/-- The goroutine can take the step. -/
def Pc.ready (s : State) (x : Choice) : Pc → Prop
  | .answered _ | .gone => False
  | .pumping inst => x = .crashed ∨ x = .ended ∧ s.exited inst = true ∨ x = .quit ∧ s.shutdown = true
  | .parked _ => x = .ok ∨ x = .quit ∧ s.shutdown = true
  | .probing _ _ => ∃ r, x = .probe r
  | _ => x.returns = true

instance (x : Choice) : Decidable (∃ r, x = .probe r) :=
  match x with
  | .probe r => .isTrue ⟨r, rfl⟩
  | .ok | .failed _ | .quit | .crashed | .ended => .isFalse nofun

instance (s : State) (x : Choice) (p : Pc) : Decidable (p.ready s x) := by
  cases p <;> unfold Pc.ready <;> infer_instance

abbrev Manager := Crowd.Config State Pc

inductive Act
  /-- A command arrives. -/
  | command (cmd : Command)
  | step (i : ℕ) (x : Choice)
  /-- An instance reaches its end. -/
  | exit (inst : ℕ)
  /-- `Close`, up to its join. -/
  | close
  | stopBackground
  deriving DecidableEq

def manager : Machine Manager Act where
  pre c
    | .command _ | .close => True
    | .step i x => ∃ p ∈ c.procs[i]?, p.ready c.shared x
    | .exit inst => inst < c.shared.launched
    | .stopBackground => c.shared.closed = true
  post c
    | .command cmd => ⟨c.shared, c.procs ++ [.taking cmd]⟩
    | .step i x =>
      match c.procs[i]? with
      | some p =>
        let (s, p, new) := advance c.procs.length i c.shared x p
        ⟨s, c.procs.set i p ++ new⟩
      | none => c
    | .exit inst => ⟨{ c.shared with exited := Function.update c.shared.exited inst true }, c.procs⟩
    | .close => ⟨{ c.shared with closed := true }, c.procs⟩
    | .stopBackground => ⟨{ c.shared with shutdown := true }, c.procs⟩

instance (c : Manager) (a : Act) : Decidable (manager.pre c a) :=
  match a with
  | .command _ | .close => inferInstanceAs (Decidable True)
  | .step i x => inferInstanceAs (Decidable (∃ p ∈ c.procs[i]?, p.ready c.shared x))
  | .exit _ => inferInstanceAs (Decidable (_ < _))
  | .stopBackground => inferInstanceAs (Decidable (_ = _))

/-- A Worker that has just started. -/
def start : Manager :=
  ⟨⟨none, none, none, none, false, false, 0, fun _ => false, [], [], []⟩, []⟩

/-! ## What the goroutines have logged -/

section Logs

variable {β : Type} {i j : ℕ} {x : β} {l : List (ℕ × β)}

/-- What goroutine `i` has logged. -/
def of (i : ℕ) (l : List (ℕ × β)) : List β := (l.filter fun x => x.1 = i).map Prod.snd

theorem of_self : of i (l ++ [(i, x)]) = of i l ++ [x] := by simp [of]

theorem of_other (h : j ≠ i) : of j (l ++ [(i, x)]) = of j l := by simp [of, h.symm]

theorem getLast?_of (h : l.getLast? = some (i, x)) : (of i l).getLast? = some x := by
  obtain ⟨l, rfl⟩ := List.getLast?_eq_some_iff.mp h
  rw [of_self, List.getLast?_concat]

theorem of_eq_nil (h : ∀ x ∈ l, x.1 < j) : of j l = [] := by
  have hne : ∀ x ∈ l, ¬ decide (x.1 = j) = true := fun x hx hxj => (h x hx).ne (of_decide_eq_true hxj)
  rw [of, List.filter_eq_nil_iff.mpr hne]
  rfl

end Logs

/-- The instances of the runs of undetermined probes, when `last` was the probe before. -/
def runsAfter (last : Option (ℕ × Liveness)) : List (ℕ × Liveness) → List ℕ
  | [] => []
  | x :: l => (if x.2 = .undetermined ∧ last ≠ some x then [x.1] else []) ++ runsAfter (some x) l

/-- The instances of the runs of undetermined probes, in order. -/
def unknownRuns (l : List (ℕ × Liveness)) : List ℕ := runsAfter none l

theorem runsAfter_concat {x : ℕ × Liveness} {l : List (ℕ × Liveness)} {last : Option (ℕ × Liveness)} :
    runsAfter last (l ++ [x]) =
      runsAfter last l ++ if x.2 = .undetermined ∧ l.getLast?.or last ≠ some x then [x.1] else [] := by
  induction l generalizing last with
  | nil => exact List.append_nil _
  | cons y l ih =>
    have hlast : (y :: l).getLast?.or last = l.getLast?.or (some y) := by
      rw [List.getLast?_cons]
      cases l.getLast? <;> rfl
    rw [List.cons_append, runsAfter, ih, runsAfter, List.append_assoc, hlast]

/-- **A probe begins a run unless the last one was undetermined and of the same instance.** -/
theorem unknownRuns_concat {x : ℕ × Liveness} {l : List (ℕ × Liveness)} :
    unknownRuns (l ++ [x]) =
      unknownRuns l ++ if x.2 = .undetermined ∧ l.getLast? ≠ some x then [x.1] else [] := by
  rw [unknownRuns, runsAfter_concat, Option.or_none]
  rfl

/-! ## What a goroutine knows -/

/-- The flags describe the converger's last probe. -/
structure Flags.Ok (s : State) (i : ℕ) (f : Flags) : Prop where
  sawDead : f.sawDead = true → ∃ a, f.probed = some a ∧ s.probes.getLast? = some (i, a, .dead)
  unknown : f.reportedUnknown = true ↔
    ∃ a, f.probed = some a ∧ (of i s.probes).getLast? = some (a, .undetermined)

/-- The flags are of the instance that was probed last. -/
def Flags.Latest (s : State) (i : ℕ) (f : Flags) : Prop :=
  ∀ x, (of i s.probes).getLast? = some x → f.probed = some x.1

/-- The flags of a converger that is at work. -/
def Pc.flags : Pc → Option Flags
  | .attempting .retry e _ | .releasing .retry e _ | .retrying e => some (cleared e.inst)
  | .parked f | .probing f _ | .retiring f _ => some f
  | _ => none

/-- A converger that is at work. -/
def Pc.drives (p : Pc) : Prop := p.flags ≠ none

/-- The goroutine holds the id. -/
def Pc.holds : Pc → Bool
  | .validating _ | .attempting _ _ _ | .releasing _ _ _ | .launching _ | .registering _ | .working => true
  | _ => false

def Pc.Facts (s : State) (i : ℕ) : Pc → Prop
  | .attempting _ e k => (∀ x, s.orphan = some x → x.inst = e.inst) ∧ (k = .stopped → e.inst ∈ s.confirmed)
  | .validating _ | .launching _ | .registering _ | .working => s.orphan = none
  | .probing f e => f.probed = some e.inst
  | .retrying e => s.probes.getLast? = some (i, e.inst, .alive)
  | .retiring _ e => ∃ l, s.probes = l ++ [(i, e.inst, .dead), (i, e.inst, .dead)]
  | _ => True

structure Pc.Ok (s : State) (i : ℕ) (p : Pc) : Prop where
  holds : p.holds = true → s.reserved = some i ∧ s.instances = none
  drives : ∀ f, p.flags = some f → s.converging = some i ∧ f.Ok s i ∧ ((∀ e, p ≠ .probing f e) → f.Latest s i)
  facts : p.Facts s i

/-- What the maps say of each other. -/
structure State.Ok (s : State) : Prop where
  tracked : s.instances ≠ none → s.reserved = none ∧ s.orphan = none
  driven : s.closed = false → s.orphan ≠ none → s.converging ≠ none

/-- Why the record of an instance may go: it has exited, its stop was confirmed, or it was seen dead by two probes, one
after the other. -/
def State.Over (s : State) (inst : ℕ) : Prop :=
  s.exited inst = true ∨ inst ∈ s.confirmed ∨ ∃ i l, s.probes = l ++ [(i, inst, .dead), (i, inst, .dead)]

/-- What a step leaves to goroutine `j`. -/
structure Spares (s s' : State) (j : ℕ) : Prop where
  reserved : s.reserved = some j → s'.reserved = some j ∧ (s.instances = none → s'.instances = none) ∧
    (s'.orphan = s.orphan ∨ s'.orphan = none)
  converging : s.converging = some j → s'.converging = some j ∧ s'.probes = s.probes
  probes : of j s'.probes = of j s.probes
  unknowns : of j s'.unknowns = of j s.unknowns
  confirmed : ∀ a ∈ s.confirmed, a ∈ s'.confirmed

/-- A step of goroutine `i`, of `n`. -/
structure Steps (n i : ℕ) (s : State) (p : Pc) (s' : State) (p' : Pc) (new : List Pc) : Prop where
  maps : s'.Ok
  closed : s'.closed = s.closed
  shutdown : s'.shutdown = s.shutdown
  own : p'.Ok s' i
  starts : new = [] ∨ ∃ q, new = [q] ∧ q.Ok s' n
  converger : s.closed = false → ∀ j, s'.converging = some j →
    j ≠ i ∧ s.converging = some j ∨ j = i ∧ p'.drives ∨ j = n ∧ ∃ q : Pc, new = [q] ∧ q.drives
  spares : ∀ j, j ≠ i → Spares s s' j
  reports : of i s'.unknowns = unknownRuns (of i s'.probes)
  known : ∀ x ∈ s'.probes, x ∈ s.probes ∨ x.1 = i
  kept : ∀ e, s.orphan = some e → (∃ e', s'.orphan = some e' ∧ e'.inst = e.inst) ∨ s.Over e.inst
  unstarted : s.closed = true → ∀ q ∈ new, ¬ Pc.drives q
  stays : p'.drives → p.drives

/-- What holds before a step of goroutine `i`. -/
structure Before (i : ℕ) (s : State) (p : Pc) : Prop where
  maps : s.Ok
  own : p.Ok s i
  drives : s.closed = false → s.converging = some i → p.drives
  reports : of i s.unknowns = unknownRuns (of i s.probes)
  shutdown : s.shutdown = true → s.closed = true

/-- A step that leaves the converger's flag and the logs of the convergers. -/
structure Quiet (s s' : State) : Prop where
  closed : s'.closed = s.closed
  shutdown : s'.shutdown = s.shutdown
  converging : s'.converging = s.converging
  probes : s'.probes = s.probes
  unknowns : s'.unknowns = s.unknowns
  confirmed : ∀ a ∈ s.confirmed, a ∈ s'.confirmed
  orphan : s'.orphan = s.orphan ∨ s'.orphan = none

variable {n i j : ℕ} {s s' : State} {p p' : Pc} {new : List Pc} {f : Flags} {e : Entry} {x : Choice}

theorem Quiet.flags (hq : Quiet s s') (h : f.Ok s i) : f.Ok s' i := by
  obtain ⟨hdead, hunknown⟩ := h
  rw [← hq.probes] at hdead hunknown
  exact ⟨hdead, hunknown⟩

theorem Quiet.latest (hq : Quiet s s') (h : f.Latest s i) : f.Latest s' i := by
  rw [Flags.Latest, hq.probes]
  exact h

/-- A converger that goes on with its flags. -/
theorem Quiet.drives (hq : Quiet s s') (h : p.Ok s i) (hflags : p'.flags = p.flags)
    (hp : ∀ f e, p ≠ .probing f e) : ∀ f, p'.flags = some f →
      s'.converging = some i ∧ f.Ok s' i ∧ ((∀ e, p' ≠ .probing f e) → f.Latest s' i) := by
  intro f hf
  obtain ⟨hconv, hok, hlatest⟩ := h.drives f (hflags ▸ hf)
  exact ⟨hq.converging.trans hconv, hq.flags hok, fun _ => hq.latest (hlatest fun e => hp f e)⟩

/-- **The rule for quiet steps.** -/
theorem Quiet.steps (hq : Quiet s s') (h : Before i s p)
    (htracked : s'.instances ≠ none → s'.reserved = none ∧ s'.orphan = none)
    (hreserved : ∀ j, j ≠ i → s.reserved = some j → s'.reserved = some j ∧ (s.instances = none → s'.instances = none))
    (hover : s'.orphan = s.orphan ∨ ∀ e, s.orphan = some e → s.Over e.inst) (hown : p'.Ok s' i)
    (hdrives : s.closed = false → p.drives → p'.drives) (hstays : p'.drives → p.drives)
    (hnew : new = [] ∨ ∃ inst, new = [.pumping inst]) : Steps n i s p s' p' new where
  maps := ⟨htracked, fun hopen horphan => by
    rw [hq.converging]
    refine h.maps.driven (hq.closed ▸ hopen) fun hnone => horphan ?_
    exact hq.orphan.elim (fun heq => heq.trans hnone) id⟩
  closed := hq.closed
  shutdown := hq.shutdown
  own := hown
  starts := hnew.imp_right fun ⟨inst, hinst⟩ => ⟨_, hinst, nofun, nofun, trivial⟩
  converger hopen j hj := by
    rw [hq.converging] at hj
    by_cases hji : j = i
    · subst hji
      exact .inr (.inl ⟨rfl, hdrives hopen (h.drives hopen hj)⟩)
    · exact .inl ⟨hji, hj⟩
  spares j hj :=
    { reserved := fun hr => ⟨(hreserved j hj hr).1, (hreserved j hj hr).2, hq.orphan⟩
      converging := fun hc => ⟨hq.converging.trans hc, hq.probes⟩
      probes := by rw [hq.probes]
      unknowns := by rw [hq.unknowns]
      confirmed := hq.confirmed }
  reports := by
    rw [hq.probes, hq.unknowns]
    exact h.reports
  known x hx := .inl (hq.probes ▸ hx)
  kept e he := hover.imp (fun heq => ⟨e, heq.trans he, rfl⟩) fun hover => hover e he
  unstarted _ q hq' := by
    rcases hnew with rfl | ⟨inst, rfl⟩
    · cases hq'
    · obtain rfl := List.mem_singleton.mp hq'
      exact fun hd => hd rfl
  stays := hstays

theorem Quiet.refl : Quiet s s := ⟨rfl, rfl, rfl, rfl, rfl, fun _ ha => ha, .inl rfl⟩

/-- A step that changes nothing but where the goroutine stands. -/
theorem Before.stay (h : Before i s p) (hown : p'.Ok s i) (hdrives : s.closed = false → p.drives → p'.drives)
    (hstays : p'.drives → p.drives) : Steps n i s p s p' [] :=
  Quiet.refl.steps h h.maps.tracked (fun _ _ hr => ⟨hr, id⟩) (.inl rfl) hown hdrives hstays (.inl rfl)

/-- A goroutine with nothing to keep. -/
structure Pc.Free (p : Pc) : Prop where
  holds : p.holds = false
  flags : p.flags = none
  facts : ∀ s i, p.Facts s i

theorem Pc.Free.ok (h : p.Free) : p.Ok s i where
  holds hh := by
    rw [h.holds] at hh
    cases hh
  drives f hf := by
    rw [h.flags] at hf
    cases hf
  facts := h.facts s i

theorem Pc.Free.not_drives (h : p.Free) : ¬ p.drives := fun hd => hd h.flags

theorem free_answered (r : Answer) : (Pc.answered r).Free := ⟨rfl, rfl, fun _ _ => trivial⟩

theorem free_gone : Pc.gone.Free := ⟨rfl, rfl, fun _ _ => trivial⟩

/-- A command that only has its result now. -/
theorem Before.answer (h : Before i s p) (hp : ¬ p.drives) (hp' : p'.Free) : Steps n i s p s p' [] :=
  h.stay hp'.ok (fun _ hd => absurd hd hp) fun hd => absurd hd hp'.not_drives

/-! ## The reservation -/

/-- The goroutine takes the id, which nobody holds. -/
theorem Before.take (h : Before i s p) (hr : s.reserved = none) (hinst : s'.instances = none)
    (hs' : s' = { s with instances := s'.instances, reserved := some i })
    (hdrives : s.closed = false → p.drives → p'.drives) (hstays : p'.drives → p.drives) (hown : p'.Ok s' i) :
    Steps n i s p s' p' [] := by
  have hq : Quiet s s' := by
    rw [hs']
    exact ⟨rfl, rfl, rfl, rfl, rfl, fun _ ha => ha, .inl rfl⟩
  refine hq.steps h (fun hne => absurd hinst hne) (fun j _ hj => ?_) (.inl ?_) hown hdrives hstays (.inl rfl)
  · cases hr.symm.trans hj
  · rw [hs']

/-- The goroutine, which holds the id, gives it up. -/
theorem Before.release (h : Before i s p) (hr : s.reserved = some i)
    (hinst : ∀ e, s'.instances = some e → s'.orphan = none)
    (hs' : s' = { s with instances := s'.instances, reserved := none })
    (hdrives : s.closed = false → p.drives → p'.drives) (hstays : p'.drives → p.drives) (hown : p'.Ok s' i) :
    Steps n i s p s' p' [] := by
  have hq : Quiet s s' := by
    rw [hs']
    exact ⟨rfl, rfl, rfl, rfl, rfl, fun _ ha => ha, .inl rfl⟩
  have hnone : s'.reserved = none := by rw [hs']
  refine hq.steps h (fun hne => ⟨hnone, ?_⟩) (fun j hj hrj => ?_) (.inl ?_) hown hdrives hstays (.inl rfl)
  · obtain ⟨e, he⟩ := Option.ne_none_iff_exists'.mp hne
    exact hinst e he
  · exact absurd (Option.some.inj (hrj.symm.trans hr)) hj
  · rw [hs']

theorem steps_reserve (h : Before i s p) (hp : ¬ p.drives) (hp' : ¬ p'.drives)
    (hfacts : ∀ s' : State, s'.orphan = none → p'.Facts s' i) :
    Steps n i s p (s.reserve i p').1 (s.reserve i p').2 [] := by
  rw [State.reserve]
  split_ifs with hinst horphan hres
  · exact h.answer hp (free_answered _)
  · exact h.answer hp (free_answered _)
  · exact h.answer hp (free_answered _)
  · rw [ne_eq, not_not] at hinst horphan hres
    exact h.take hres hinst rfl (fun _ hd => absurd hd hp) (fun hd => absurd hd hp')
      ⟨fun _ => ⟨rfl, hinst⟩, fun f hf => absurd (ne_of_eq_of_ne hf (Option.some_ne_none f)) hp', hfacts _ horphan⟩

theorem steps_takeStoppableReserve (h : Before i s p) (hp : ¬ p.drives) :
    Steps n i s p (s.takeStoppableReserve i).1 (s.takeStoppableReserve i).2 [] := by
  have htaken : ∀ (s' : State) (e : Entry), s'.reserved = some i → s'.instances = none →
      (∀ x, s'.orphan = some x → x.inst = e.inst) → (Pc.attempting .stop e .stopping).Ok s' i :=
    fun s' e hr hinst horphan => ⟨fun _ => ⟨hr, hinst⟩, nofun, horphan, nofun⟩
  have hstays : ∀ e, ¬ (Pc.attempting .stop e .stopping).drives := fun e hd => hd rfl
  unfold State.takeStoppableReserve
  split
  next e hinst =>
    obtain ⟨hr, horphan⟩ := h.maps.tracked (hinst ▸ Option.some_ne_none e)
    refine h.take hr rfl rfl (fun _ hd => absurd hd hp) (fun hd => absurd hd (hstays e)) (htaken _ e rfl rfl ?_)
    intro x hx
    cases horphan.symm.trans hx
  next hinst =>
    split_ifs with hr
    · exact h.answer hp (free_answered _)
    · rw [ne_eq, not_not] at hr
      split
      next e horphan =>
        refine h.take hr hinst rfl (fun _ hd => absurd hd hp) (fun hd => absurd hd (hstays e)) (htaken _ e rfl hinst ?_)
        intro x hx
        cases horphan.symm.trans hx
        rfl
      next => exact h.answer hp (free_answered _)

theorem steps_takeRunningReserve (h : Before i s p) (hp : ¬ p.drives) :
    Steps n i s p (s.takeRunningReserve i).1 (s.takeRunningReserve i).2 [] := by
  unfold State.takeRunningReserve
  split
  next e hinst =>
    obtain ⟨hr, horphan⟩ := h.maps.tracked (hinst ▸ Option.some_ne_none e)
    have hown : (Pc.validating e).Ok { s with instances := none, reserved := some i } i :=
      ⟨fun _ => ⟨rfl, rfl⟩, nofun, horphan⟩
    exact h.take hr rfl rfl (fun _ hd => absurd hd hp) (fun hd => absurd rfl hd) hown
  next => split_ifs <;> exact h.answer hp (free_answered _)

theorem quiet_maps (running : Option Entry) (holder : Option ℕ) :
    Quiet s { s with instances := running, reserved := holder } :=
  ⟨rfl, rfl, rfl, rfl, rfl, fun _ ha => ha, .inl rfl⟩

theorem steps_takeOrphanReserve (h : Before i s (.retrying e)) :
    Steps n i s (.retrying e) (s.takeOrphanReserve i e.inst).1 (s.takeOrphanReserve i e.inst).2 [] := by
  have hdrives : (Pc.retrying e).drives := Option.some_ne_none _
  have hskip : Steps n i s (.retrying e) s (.parked (cleared e.inst)) [] :=
    h.stay ⟨nofun, Quiet.refl.drives h.own rfl nofun, trivial⟩ (fun _ _ => Option.some_ne_none _) fun _ => hdrives
  unfold State.takeOrphanReserve
  split_ifs with hr
  · exact hskip
  · rw [ne_eq, not_not] at hr
    split
    next x horphan =>
      split_ifs with hinst
      · have hnone : s.instances = none := by
          by_contra hne
          cases horphan.symm.trans (h.maps.tracked hne).2
        refine h.take hr hnone rfl (fun _ _ => Option.some_ne_none _) (fun _ => hdrives)
          ⟨fun _ => ⟨rfl, hnone⟩, ?_, ?_, nofun⟩
        · exact (quiet_maps s.instances (some i)).drives h.own (by rw [Pc.flags, hinst]; rfl) nofun
        · intro y hy
          cases horphan.symm.trans hy
          rfl
      · exact hskip
    next => exact hskip

/-! ## Stops and launches -/

theorem drives_of_flags (h : p'.flags = p.flags) : p.drives → p'.drives := fun hd hnone => hd (h ▸ hnone)

theorem steps_stopping (op : Op) (h : Before i s (.attempting op e .stopping)) (x : Choice) :
    Steps n i s (.attempting op e .stopping) (advance n i s x (.attempting op e .stopping)).1
      (advance n i s x (.attempting op e .stopping)).2.1 (advance n i s x (.attempting op e .stopping)).2.2 := by
  have hflags : ∀ k, (Pc.attempting op e k).flags = (Pc.attempting op e .stopping).flags := fun k => by cases op <;> rfl
  have hstopped : Steps n i s (.attempting op e .stopping) { s with confirmed := e.inst :: s.confirmed }
      (.attempting op e .stopped) [] := by
    have hq : Quiet s { s with confirmed := e.inst :: s.confirmed } :=
      ⟨rfl, rfl, rfl, rfl, rfl, fun _ ha => List.mem_cons_of_mem _ ha, .inl rfl⟩
    exact hq.steps h h.maps.tracked (fun _ _ hr => ⟨hr, id⟩) (.inl rfl)
      ⟨h.own.holds, hq.drives h.own (hflags _) nofun, h.own.facts.1, fun _ => List.mem_cons_self⟩
      (fun _ => drives_of_flags (hflags _)) (drives_of_flags (hflags _).symm) (.inl rfl)
  cases x with
  | failed r =>
    exact h.stay ⟨h.own.holds, Quiet.refl.drives h.own (hflags _) nofun, h.own.facts.1, nofun⟩
      (fun _ => drives_of_flags (hflags _)) (drives_of_flags (hflags _).symm)
  | ok | quit | probe | crashed | ended => exact hstopped

/-- **The record is written and the converger's flag claimed in one step.** -/
theorem steps_recordOrphan (op : Op) (h : Before i s (.attempting op e .failed)) (hknown : ∀ x ∈ s.probes, x.1 < n) :
    Steps n i s (.attempting op e .failed) (s.recordOrphan n e).1 (.releasing op e false) (s.recordOrphan n e).2 := by
  obtain ⟨hr, hinst⟩ := h.own.holds rfl
  have hflags : (Pc.releasing op e false).flags = (Pc.attempting op e .failed).flags := by cases op <;> rfl
  have hkept : ∀ x, s.orphan = some x → e.inst = x.inst := fun x hx => (h.own.facts.1 x hx).symm
  have hother : ∀ j, j ≠ i → s.reserved ≠ some j := fun j hj hrj => hj (Option.some.inj (hrj.symm.trans hr))
  rw [State.recordOrphan]
  split_ifs with hspawn
  · obtain ⟨hnone, hopen⟩ := hspawn
    have hidle : ∀ j, s.converging ≠ some j := fun j hj => by cases hnone.symm.trans hj
    have hnodrive : ∀ f, (Pc.attempting op e .failed).flags ≠ some f := fun f hf => hidle i (h.own.drives f hf).1
    refine
      { maps := ⟨fun hne => absurd hinst hne, fun _ _ => Option.some_ne_none n⟩
        closed := rfl
        shutdown := rfl
        own := ⟨fun _ => ⟨hr, hinst⟩, fun f hf => absurd (hflags ▸ hf) (hnodrive f), trivial⟩
        starts := .inr ⟨_, rfl, nofun, fun f hf => ?_, trivial⟩
        converger := fun _ j hj => .inr (.inr ⟨(Option.some.inj hj).symm, _, rfl, Option.some_ne_none _⟩)
        spares := fun j hj =>
          ⟨fun hrj => absurd hrj (hother j hj), fun hcj => absurd hcj (hidle j), rfl, rfl, fun _ ha => ha⟩
        reports := h.reports
        known := fun x hx => .inl hx
        kept := fun x hx => .inl ⟨e, rfl, hkept x hx⟩
        unstarted := fun hclosed => by cases hopen.symm.trans hclosed
        stays := drives_of_flags hflags.symm }
    obtain rfl := Option.some.inj hf
    have hnil : of n s.probes = [] := of_eq_nil hknown
    refine ⟨rfl, ⟨nofun, nofun, nofun⟩, fun _ x hx => ?_⟩
    rw [hnil] at hx
    cases hx
  · have hclaimed : s.closed = false → s.converging ≠ none := fun hopen hnone => hspawn ⟨hnone, hopen⟩
    refine
      { maps := ⟨fun hne => absurd hinst hne, fun hopen _ => hclaimed hopen⟩
        closed := rfl
        shutdown := rfl
        own := ⟨fun _ => ⟨hr, hinst⟩, fun f hf => ?_, trivial⟩
        starts := .inl rfl
        converger := fun hopen j hj => ?_
        spares := fun j hj => ⟨fun hrj => absurd hrj (hother j hj), fun hcj => ⟨hcj, rfl⟩, rfl, rfl, fun _ ha => ha⟩
        reports := h.reports
        known := fun x hx => .inl hx
        kept := fun x hx => .inl ⟨e, rfl, hkept x hx⟩
        unstarted := nofun
        stays := drives_of_flags hflags.symm }
    · obtain ⟨hconv, hok, hlatest⟩ := h.own.drives f (hflags ▸ hf)
      exact ⟨hconv, ⟨hok.sawDead, hok.unknown⟩, fun _ => hlatest nofun⟩
    · by_cases hji : j = i
      · exact .inr (.inl ⟨hji, drives_of_flags hflags (h.drives hopen (hji ▸ hj))⟩)
      · exact .inl ⟨hji, hj⟩

/-- The stop was confirmed. -/
theorem steps_stopped (op : Op) (h : Before i s (.attempting op e .stopped)) :
    Steps n i s (.attempting op e .stopped) { s with orphan := none } (op.stopped e) [] := by
  obtain ⟨hr, hinst⟩ := h.own.holds rfl
  have hflags : (op.stopped e).flags = (Pc.attempting op e .stopped).flags := by cases op <;> rfl
  have hq : Quiet s { s with orphan := none } := ⟨rfl, rfl, rfl, rfl, rfl, fun _ ha => ha, .inr rfl⟩
  refine hq.steps h (fun hne => absurd hinst hne) (fun _ _ hrj => ⟨hrj, id⟩) (.inr fun x hx => ?_)
    ⟨fun _ => ⟨hr, hinst⟩, hq.drives h.own hflags nofun, ?_⟩ (fun _ => drives_of_flags hflags)
    (drives_of_flags hflags.symm) (.inl rfl)
  · rw [h.own.facts.1 x hx]
    exact .inr (.inl (h.own.facts.2 rfl))
  · cases op with
    | restart => exact rfl
    | stop | retry => exact trivial

theorem steps_releasing (op : Op) (b : Bool) (h : Before i s (.releasing op e b)) :
    Steps n i s (.releasing op e b) s.release (op.released e b) [] := by
  obtain ⟨hr, hinst⟩ := h.own.holds rfl
  have hflags : (op.released e b).flags = (Pc.releasing op e b).flags := by cases op <;> rfl
  refine h.release hr (fun x hx => ?_) rfl (fun _ => drives_of_flags hflags) (drives_of_flags hflags.symm) ⟨?_, ?_, ?_⟩
  · cases hinst.symm.trans hx
  · cases op <;> nofun
  · exact (quiet_maps s.instances none).drives h.own hflags nofun
  · cases op <;> exact trivial

/-- An instance is registered under the id that the goroutine holds. -/
theorem steps_register (h : Before i s p) (hholds : p.holds = true) (horphan : s.orphan = none) (hp : ¬ p.drives)
    (hp' : p'.Free) : Steps n i s p (s.register e) p' [] :=
  h.release (h.own.holds hholds).1 (fun _ _ => horphan) rfl (fun _ hd => absurd hd hp)
    (fun hd => absurd hd hp'.not_drives) hp'.ok

/-- The goroutine gives the id up and has its result. -/
theorem steps_release (h : Before i s p) (hholds : p.holds = true) (hp : ¬ p.drives) (hp' : p'.Free) :
    Steps n i s p s.release p' [] := by
  obtain ⟨hr, hinst⟩ := h.own.holds hholds
  refine h.release hr (fun x hx => ?_) rfl (fun _ hd => absurd hd hp) (fun hd => absurd hd hp'.not_drives) hp'.ok
  cases hinst.symm.trans hx

theorem steps_launching {launch : Launch} (h : Before i s (.launching launch)) :
    Steps n i s (.launching launch) { s with launched := s.launched + 1 } (.registering ⟨s.launched, launch⟩) [] := by
  have hq : Quiet s { s with launched := s.launched + 1 } := ⟨rfl, rfl, rfl, rfl, rfl, fun _ ha => ha, .inl rfl⟩
  exact hq.steps h h.maps.tracked (fun _ _ hr => ⟨hr, id⟩) (.inl rfl) ⟨h.own.holds, nofun, h.own.facts⟩
    (fun _ hd => absurd rfl hd) (fun hd => absurd rfl hd) (.inl rfl)

/-! ## Pumps and convergers -/

theorem quiet_forgetIf (inst : ℕ) : Quiet s (s.forgetIf inst) := by
  rw [State.forgetIf]
  split_ifs
  · exact ⟨rfl, rfl, rfl, rfl, rfl, fun _ ha => ha, .inl rfl⟩
  · exact .refl

theorem quiet_forgetOrphanIf (inst : ℕ) : Quiet s (s.forgetOrphanIf inst) := by
  rw [State.forgetOrphanIf]
  split_ifs
  · exact ⟨rfl, rfl, rfl, rfl, rfl, fun _ ha => ha, .inr rfl⟩
  · exact .refl

theorem steps_forgetIf (h : Before i s p) {inst : ℕ} (hp : ¬ p.drives) (hp' : p'.Free) :
    Steps n i s p (s.forgetIf inst) p' [] := by
  refine (quiet_forgetIf inst).steps h ?_ (fun _ _ => ?_) (.inl ?_) hp'.ok (fun _ hd => absurd hd hp)
    (fun hd => absurd hd hp'.not_drives) (.inl rfl)
  all_goals
    rw [State.forgetIf]
    split_ifs
  · exact fun hne => absurd rfl hne
  · exact h.maps.tracked
  · exact fun hr => ⟨hr, fun _ => rfl⟩
  · exact fun hr => ⟨hr, id⟩
  · rfl
  · rfl

/-- **A record goes with a reason.** -/
theorem steps_forgetOrphanIf (h : Before i s p) {inst : ℕ} (hover : s.Over inst)
    (hown : p'.Ok (s.forgetOrphanIf inst) i) (hdrives : p.drives → p'.drives) (hstays : p'.drives → p.drives) :
    Steps n i s p (s.forgetOrphanIf inst) p' [] := by
  refine (quiet_forgetOrphanIf inst).steps h ?_ (fun _ _ => ?_) ?_ hown (fun _ => hdrives) hstays (.inl rfl)
  all_goals
    rw [State.forgetOrphanIf]
    split_ifs with hinst
  · exact fun hne => ⟨(h.maps.tracked hne).1, rfl⟩
  · exact h.maps.tracked
  · exact fun hr => ⟨hr, id⟩
  · exact fun hr => ⟨hr, id⟩
  · refine .inr fun x hx => ?_
    rw [hx] at hinst
    rwa [Option.some.inj hinst]
  · exact .inl rfl

/-- A converger that the shutdown ends. -/
theorem Before.quit (h : Before i s p) (hshutdown : s.shutdown = true) : Steps n i s p s .gone [] :=
  h.stay free_gone.ok (fun hopen => by cases hopen.symm.trans (h.shutdown hshutdown))
    fun hd => absurd hd free_gone.not_drives

/-- **The converger sees that there is no record and clears its flag, or probes the one there is.** -/
theorem steps_currentOrphan (h : Before i s (.parked f)) :
    Steps n i s (.parked f) (s.currentOrphan f).1 (s.currentOrphan f).2 [] := by
  have hdrives : (Pc.parked f).drives := Option.some_ne_none _
  obtain ⟨hconv, hok, hlatest⟩ := h.own.drives f rfl
  unfold State.currentOrphan
  split
  next horphan =>
    have hother : ∀ j, j ≠ i → s.converging ≠ some j := fun j hj hcj => hj (Option.some.inj (hcj.symm.trans hconv))
    exact
      { maps := ⟨h.maps.tracked, fun _ hne => absurd horphan hne⟩
        closed := rfl
        shutdown := rfl
        own := free_gone.ok
        starts := .inl rfl
        converger := fun _ _ hj => by cases hj
        spares := fun j hj =>
          ⟨fun hr => ⟨hr, id, .inl rfl⟩, fun hcj => absurd hcj (hother j hj), rfl, rfl, fun _ ha => ha⟩
        reports := h.reports
        known := fun x hx => .inl hx
        kept := fun x hx => by cases horphan.symm.trans hx
        unstarted := nofun
        stays := fun _ => hdrives }
  next e horphan =>
    refine h.stay ⟨nofun, fun g hg => ?_, ?_⟩ (fun _ _ => Option.some_ne_none _) fun _ => hdrives
    · obtain rfl := Option.some.inj hg
      refine ⟨hconv, ?_, fun hne => absurd rfl (hne e)⟩
      split_ifs with hprobed
      · exact hok
      -- The record has changed hands: the last probe was of another instance.
      · refine ⟨nofun, nofun, fun ⟨a, ha, hlast⟩ => ?_⟩
        obtain rfl := Option.some.inj ha
        exact absurd (hlatest nofun _ hlast) hprobed
    · change (if f.probed = some e.inst then f else cleared e.inst).probed = some e.inst
      split_ifs with hprobed
      · exact hprobed
      · rfl

/-- What an answer leaves of the maps, and of the logs of the others. -/
structure Logs (i : ℕ) (s s' : State) : Prop where
  instances : s'.instances = s.instances
  orphan : s'.orphan = s.orphan
  reserved : s'.reserved = s.reserved
  converging : s'.converging = s.converging
  closed : s'.closed = s.closed
  shutdown : s'.shutdown = s.shutdown
  confirmed : s'.confirmed = s.confirmed
  probes : ∀ j, j ≠ i → of j s'.probes = of j s.probes
  unknowns : ∀ j, j ≠ i → of j s'.unknowns = of j s.unknowns
  known : ∀ x ∈ s'.probes, x ∈ s.probes ∨ x.1 = i
  reports : of i s'.unknowns = unknownRuns (of i s'.probes)

theorem Logs.steps (hl : Logs i s s') (h : Before i s p) (hconv : s.converging = some i) (hown : p'.Ok s' i)
    (hdrives : p'.drives) (hstays : p.drives) : Steps n i s p s' p' [] where
  maps := ⟨fun hne => by
    rw [hl.reserved, hl.orphan]
    exact h.maps.tracked (hl.instances ▸ hne), fun hopen hne => by
    rw [hl.converging]
    exact h.maps.driven (hl.closed ▸ hopen) (hl.orphan ▸ hne)⟩
  closed := hl.closed
  shutdown := hl.shutdown
  own := hown
  starts := .inl rfl
  converger _ j hj := .inr (.inl ⟨Option.some.inj ((hl.converging.symm.trans hj).symm.trans hconv), hdrives⟩)
  spares j hj :=
    { reserved := fun hr => ⟨hl.reserved.trans hr, fun hnone => hl.instances.trans hnone, .inl hl.orphan⟩
      converging := fun hcj => absurd (Option.some.inj (hcj.symm.trans hconv)) hj
      probes := hl.probes j hj
      unknowns := hl.unknowns j hj
      confirmed := fun _ ha => hl.confirmed ▸ ha }
  reports := hl.reports
  known := hl.known
  kept e he := .inl ⟨e, hl.orphan.trans he, rfl⟩
  unstarted := nofun
  stays _ := hstays

/-- The flags after an answer. -/
theorem flags_answered {inst : ℕ} {r : Liveness} (hs' : s'.probes = s.probes ++ [(i, inst, r)])
    (hprobed : f.probed = some inst) (hdead : f.sawDead = true → r = .dead)
    (hunknown : f.reportedUnknown = true ↔ r = .undetermined) : f.Ok s' i ∧ f.Latest s' i := by
  have hlast : (of i s'.probes).getLast? = some (inst, r) := by rw [hs', of_self, List.getLast?_concat]
  refine ⟨⟨fun hsaw => ⟨inst, hprobed, ?_⟩, hunknown.trans ⟨fun hr => ⟨inst, hprobed, hr ▸ hlast⟩, ?_⟩⟩, fun x hx => ?_⟩
  · rw [hs', List.getLast?_concat, hdead hsaw]
  · rintro ⟨a, -, ha⟩
    exact (Prod.mk.inj (Option.some.inj (hlast.symm.trans ha))).2
  · obtain rfl := Option.some.inj (hlast.symm.trans hx)
    exact hprobed

/-- **An answer is reported as `unknown` exactly where it begins a run.** -/
theorem steps_answer (h : Before i s (.probing f e)) (r : Liveness) :
    Steps n i s (.probing f e) (s.answer i f e r).1 (s.answer i f e r).2 [] := by
  obtain ⟨hconv, hok, -⟩ := h.own.drives f rfl
  have hprobed : f.probed = some e.inst := h.own.facts
  have hflag : f.reportedUnknown = true ↔ (of i s.probes).getLast? = some (e.inst, .undetermined) := by
    refine hok.unknown.trans ⟨fun ⟨a, ha, hlast⟩ => ?_, fun hlast => ⟨_, hprobed, hlast⟩⟩
    rwa [Option.some.inj (hprobed.symm.trans ha)]
  have hdrives : (Pc.probing f e).drives := Option.some_ne_none _
  have hknown : ∀ x ∈ s.probes ++ [(i, e.inst, r)], x ∈ s.probes ∨ x.1 = i := fun x hx =>
    (List.mem_append.mp hx).imp_right fun hx => by rw [List.mem_singleton.mp hx]
  have hlogs : ∀ unknowns : List (ℕ × ℕ), (∀ j, j ≠ i → of j unknowns = of j s.unknowns) →
      (of i unknowns = of i s.unknowns ++
        if r = .undetermined ∧ (of i s.probes).getLast? ≠ some (e.inst, r) then [e.inst] else []) →
      Logs i s { s with probes := s.probes ++ [(i, e.inst, r)], unknowns := unknowns } := fun unknowns hother hown =>
    ⟨rfl, rfl, rfl, rfl, rfl, rfl, rfl, fun _ hj => of_other hj, hother, hknown, by
      rw [of_self, unknownRuns_concat, ← h.reports]
      exact hown⟩
  -- A determined answer is not reported.
  have hquiet : r ≠ .undetermined → Logs i s { s with probes := s.probes ++ [(i, e.inst, r)] } := fun hr =>
    hlogs s.unknowns (fun _ _ => rfl) (by rw [if_neg fun hcond => hr hcond.1, List.append_nil])
  have hflags : ∀ (s' : State) (g : Flags), s'.probes = s.probes ++ [(i, e.inst, r)] → g.probed = some e.inst →
      (g.sawDead = true → r = .dead) → (g.reportedUnknown = true ↔ r = .undetermined) → g.Ok s' i ∧ g.Latest s' i :=
    fun _ _ => flags_answered
  cases r with
  | undetermined =>
    have hown : ∀ s' : State, s'.probes = s.probes ++ [(i, e.inst, .undetermined)] → s'.converging = some i →
        (Pc.parked { f with sawDead := false, reportedUnknown := true }).Ok s' i := by
      refine fun s' hs' hconv' => ⟨nofun, fun g hg => ?_, trivial⟩
      obtain rfl := Option.some.inj hg
      obtain ⟨hok', hlatest⟩ := hflags s' { f with sawDead := false, reportedUnknown := true } hs' hprobed nofun
        ⟨fun _ => rfl, fun _ => rfl⟩
      exact ⟨hconv', hok', fun _ => hlatest⟩
    simp only [State.answer]
    split_ifs with hreported
    · refine (hlogs s.unknowns (fun _ _ => rfl) ?_).steps h hconv (hown _ rfl hconv) (Option.some_ne_none _) hdrives
      rw [if_neg fun hcond => hcond.2 (hflag.mp hreported), List.append_nil]
    · refine (hlogs _ (fun _ hj => of_other hj) ?_).steps h hconv (hown _ rfl hconv) (Option.some_ne_none _) hdrives
      rw [of_self, if_pos ⟨rfl, fun hlast => hreported (hflag.mpr hlast)⟩]
  | alive =>
    refine (hquiet nofun).steps h hconv ⟨nofun, fun g hg => ?_, List.getLast?_concat⟩ (Option.some_ne_none _) hdrives
    obtain rfl := Option.some.inj hg
    obtain ⟨hok', hlatest⟩ := hflags { s with probes := s.probes ++ [(i, e.inst, .alive)] } (cleared e.inst) rfl rfl
      nofun ⟨nofun, nofun⟩
    exact ⟨hconv, hok', fun _ => hlatest⟩
  | dead =>
    simp only [State.answer]
    split_ifs with hsaw
    · obtain ⟨a, ha, hlast⟩ := hok.sawDead hsaw
      obtain rfl := Option.some.inj (hprobed.symm.trans ha)
      have hnot : f.reportedUnknown = true ↔ Liveness.dead = .undetermined := by
        refine ⟨fun hreported => ?_, nofun⟩
        cases (hflag.mp hreported).symm.trans (getLast?_of hlast)
      obtain ⟨hok', hlatest⟩ := hflags { s with probes := s.probes ++ [(i, e.inst, .dead)] } f rfl hprobed
        (fun _ => rfl) hnot
      obtain ⟨l, hl⟩ := List.getLast?_eq_some_iff.mp hlast
      refine (hquiet nofun).steps h hconv ⟨nofun, fun g hg => ?_, l, ?_⟩ (Option.some_ne_none _) hdrives
      · obtain rfl := Option.some.inj hg
        exact ⟨hconv, hok', fun _ => hlatest⟩
      · rw [hl, List.append_assoc]
        rfl
    · refine (hquiet nofun).steps h hconv ⟨nofun, fun g hg => ?_, trivial⟩ (Option.some_ne_none _) hdrives
      obtain rfl := Option.some.inj hg
      obtain ⟨hok', hlatest⟩ := hflags { s with probes := s.probes ++ [(i, e.inst, .dead)] }
        { f with sawDead := true, reportedUnknown := false } rfl hprobed (fun _ => rfl) ⟨nofun, nofun⟩
      exact ⟨hconv, hok', fun _ => hlatest⟩

/-- **What one step of a goroutine does.** -/
theorem advance_steps (h : Before i s p) (hready : p.ready s x) (hknown : ∀ y ∈ s.probes, y.1 < n) :
    Steps n i s p (advance n i s x p).1 (advance n i s x p).2.1 (advance n i s x p).2.2 := by
  cases p with
  | taking cmd =>
    cases cmd with
    | start launch | work => exact steps_reserve h (fun hd => hd rfl) (fun hd => hd rfl) fun _ horphan => horphan
    | stop => exact steps_takeStoppableReserve h fun hd => hd rfl
    | restart => exact steps_takeRunningReserve h fun hd => hd rfl
  | validating e =>
    have hnext : Steps n i s (.validating e) s (.attempting .restart e .stopping) [] :=
      h.stay ⟨h.own.holds, nofun, fun y hy => (nomatch h.own.facts.symm.trans hy), nofun⟩ (fun _ hd => absurd rfl hd)
        fun hd => absurd rfl hd
    cases x with
    | failed r => exact steps_register h rfl h.own.facts (fun hd => hd rfl) (free_answered r)
    | ok | quit | probe | crashed | ended => exact hnext
  | attempting op e k =>
    cases k with
    | stopping => exact steps_stopping op h x
    | failed => exact steps_recordOrphan op h hknown
    | stopped => exact steps_stopped op h
  | releasing op e b => exact steps_releasing op b h
  | launching launch =>
    cases x with
    | failed r => exact steps_release h rfl (fun hd => hd rfl) (free_answered r)
    | ok | quit | probe | crashed | ended => exact steps_launching h
  | registering e => exact steps_register h rfl h.own.facts (fun hd => hd rfl) ⟨rfl, rfl, fun _ _ => trivial⟩
  | startingPumps inst =>
    refine Quiet.refl.steps h h.maps.tracked (fun _ _ hr => ⟨hr, id⟩) (.inl rfl) (free_answered _).ok
      (fun _ hd => absurd rfl hd) (fun hd => absurd rfl hd) ?_
    rw [advance]
    split_ifs
    · exact .inl rfl
    · exact .inr ⟨inst, rfl⟩
  | working =>
    cases x with
    | failed r => exact steps_release h rfl (fun hd => hd rfl) (free_answered r)
    | ok | quit | probe | crashed | ended => exact steps_release h rfl (fun hd => hd rfl) (free_answered _)
  | pumping inst =>
    rcases hready with rfl | ⟨rfl, hexited⟩ | ⟨rfl, hshutdown⟩
    · exact steps_forgetIf h (fun hd => hd rfl) ⟨rfl, rfl, fun _ _ => trivial⟩
    · exact steps_forgetOrphanIf h (.inl hexited) free_gone.ok (fun hd => absurd rfl hd) fun hd => absurd rfl hd
    · exact h.quit hshutdown
  | parked f =>
    rcases hready with rfl | ⟨rfl, hshutdown⟩
    · exact steps_currentOrphan h
    · exact h.quit hshutdown
  | probing f e =>
    obtain ⟨r, rfl⟩ := hready
    rw [advance]
    split_ifs with hshutdown
    · exact h.quit hshutdown
    · exact steps_answer h r
  | retrying e => exact steps_takeOrphanReserve h
  | retiring f e =>
    obtain ⟨l, hl⟩ := h.own.facts
    exact steps_forgetOrphanIf h (.inr (.inr ⟨i, l, hl⟩))
      ⟨nofun, (quiet_forgetOrphanIf e.inst).drives h.own rfl nofun, trivial⟩ (fun _ => Option.some_ne_none _)
      fun _ => Option.some_ne_none _
  | answered r | gone => exact hready.elim

/-! ## The invariant -/

structure Inv (c : Manager) : Prop where
  maps : c.shared.Ok
  ok : ∀ i p, c.procs[i]? = some p → Pc.Ok c.shared i p
  converger : c.shared.closed = false → ∀ i, c.shared.converging = some i → ∃ p, c.procs[i]? = some p ∧ Pc.drives p
  known : ∀ x ∈ c.shared.probes, x.1 < c.procs.length
  reports : ∀ i, of i c.shared.unknowns = unknownRuns (of i c.shared.probes)
  shutdown : c.shared.shutdown = true → c.shared.closed = true

/-- A step of another goroutine leaves what this one knows. -/
theorem Pc.Ok.spared (h : p.Ok s j) (hs : Spares s s' j) : p.Ok s' j := by
  have hheld : p.holds = true → s.orphan = s'.orphan ∨ s'.orphan = none := fun hp =>
    (hs.reserved (h.holds hp).1).2.2.imp_left Eq.symm
  refine ⟨fun hp => ?_, fun f hf => ?_, ?_⟩
  · obtain ⟨hr, hinst⟩ := h.holds hp
    obtain ⟨hr', hinst', -⟩ := hs.reserved hr
    exact ⟨hr', hinst' hinst⟩
  · obtain ⟨hconv, hok, hlatest⟩ := h.drives f hf
    obtain ⟨hconv', hprobes⟩ := hs.converging hconv
    refine ⟨hconv', ⟨?_, ?_⟩, fun hp => ?_⟩
    · rw [hprobes]
      exact hok.sawDead
    · rw [hprobes]
      exact hok.unknown
    · rw [Flags.Latest, hprobes]
      exact hlatest hp
  · have hfacts := h.facts
    cases p with
    | attempting op e k =>
      refine ⟨fun y hy => ?_, fun hk => hs.confirmed _ (hfacts.2 hk)⟩
      rcases hheld rfl with heq | hnone
      · exact hfacts.1 y (heq.trans hy)
      · cases hnone.symm.trans hy
    | validating | launching | registering | working =>
      rcases hheld rfl with heq | hnone
      · exact heq.symm.trans hfacts
      · exact hnone
    | probing f e => exact hfacts
    | retrying e => exact (congrArg List.getLast? (hs.converging (h.drives _ rfl).1).2).trans hfacts
    | retiring f e =>
      obtain ⟨l, hl⟩ := hfacts
      exact ⟨l, (hs.converging (h.drives _ rfl).1).2.trans hl⟩
    | taking | releasing | startingPumps | pumping | parked | answered | gone => exact trivial

variable {c : Manager} {q : Pc}

/-- The goroutines after a step of goroutine `i`. -/
theorem get_step (h : (c.procs.set i p' ++ new)[j]? = some q) (hp : c.procs[i]? = some p)
    (hnew : new = [] ∨ ∃ q, new = [q] ∧ q.Ok s' c.procs.length) :
    j = i ∧ q = p' ∨ j ≠ i ∧ c.procs[j]? = some q ∨ j = c.procs.length ∧ new = [q] := by
  have hlen : (c.procs.set i p').length = c.procs.length := List.length_set
  obtain ⟨hi, -⟩ := List.getElem?_eq_some_iff.mp hp
  rcases lt_or_ge j c.procs.length with hlt | hge
  · rw [List.getElem?_append_left (hlen.symm ▸ hlt)] at h
    by_cases hji : j = i
    · subst hji
      rw [List.getElem?_set_self hi] at h
      exact .inl ⟨rfl, (Option.some.inj h).symm⟩
    · rw [List.getElem?_set_ne (Ne.symm hji)] at h
      exact .inr (.inl ⟨hji, h⟩)
  · rw [List.getElem?_append_right (hlen.symm ▸ hge), hlen] at h
    rcases hnew with rfl | ⟨y, rfl, -⟩
    · cases h
    · obtain ⟨hlt, hy⟩ := List.getElem?_eq_some_iff.mp h
      have hj : j = c.procs.length := by
        have hlt' : j - c.procs.length < 1 := hlt
        omega
      subst hj
      simp only [Nat.sub_self, List.getElem_cons_zero] at hy
      exact .inr (.inr ⟨rfl, by rw [hy]⟩)

theorem Inv.before (h : Inv c) (hp : c.procs[i]? = some p) : Before i c.shared p where
  maps := h.maps
  own := h.ok i p hp
  drives hopen hconv := by
    obtain ⟨q, hq, hd⟩ := h.converger hopen i hconv
    cases hp.symm.trans hq
    exact hd
  reports := h.reports i
  shutdown := h.shutdown

/-- **The step of a goroutine keeps the invariant.** -/
theorem Inv.steps (h : Inv c) (hp : c.procs[i]? = some p) (hs : Steps c.procs.length i c.shared p s' p' new) :
    Inv ⟨s', c.procs.set i p' ++ new⟩ := by
  obtain ⟨hi, -⟩ := List.getElem?_eq_some_iff.mp hp
  have hlen : (c.procs.set i p').length = c.procs.length := List.length_set
  refine ⟨hs.maps, fun j q hq => ?_, fun hopen j hj => ?_, fun y hy => ?_, fun j => ?_, fun hshutdown => ?_⟩
  · rcases get_step hq hp hs.starts with ⟨rfl, rfl⟩ | ⟨hji, hold⟩ | ⟨rfl, hnew⟩
    · exact hs.own
    · exact (h.ok j q hold).spared (hs.spares j hji)
    · rcases hs.starts with hnil | ⟨y, hy, hok⟩
      · cases hnil.symm.trans hnew
      · cases hy.symm.trans hnew
        exact hok
  · rcases hs.converger (hs.closed ▸ hopen) j hj with ⟨hji, hconv⟩ | ⟨rfl, hd⟩ | ⟨rfl, q, rfl, hd⟩
    · obtain ⟨q, hq, hd⟩ := h.converger (hs.closed ▸ hopen) j hconv
      obtain ⟨hlt, -⟩ := List.getElem?_eq_some_iff.mp hq
      refine ⟨q, ?_, hd⟩
      change (c.procs.set i p' ++ new)[j]? = some q
      rw [List.getElem?_append_left (hlen.symm ▸ hlt), List.getElem?_set_ne (Ne.symm hji)]
      exact hq
    · refine ⟨p', ?_, hd⟩
      change (c.procs.set j p' ++ new)[j]? = some p'
      rw [List.getElem?_append_left (hlen.symm ▸ hi), List.getElem?_set_self hi]
    · refine ⟨q, ?_, hd⟩
      change (c.procs.set i p' ++ [q])[c.procs.length]? = some q
      rw [List.getElem?_append_right hlen.le, hlen, Nat.sub_self]
      rfl
  · have hlt : y.1 < c.procs.length := (hs.known y hy).elim (h.known y) fun hyi => hyi ▸ hi
    change y.1 < (c.procs.set i p' ++ new).length
    rw [List.length_append, hlen]
    exact Nat.lt_add_right _ hlt
  · change of j s'.unknowns = unknownRuns (of j s'.probes)
    by_cases hji : j = i
    · subst hji
      exact hs.reports
    · rw [(hs.spares j hji).unknowns, (hs.spares j hji).probes]
      exact h.reports j
  · change s'.closed = true
    rw [hs.closed]
    exact h.shutdown (hs.shutdown ▸ hshutdown)

/-- A goroutine's step in the machine. -/
theorem post_step (hp : c.procs[i]? = some p) : manager.post c (.step i x) =
    ⟨(advance c.procs.length i c.shared x p).1,
      c.procs.set i (advance c.procs.length i c.shared x p).2.1 ++ (advance c.procs.length i c.shared x p).2.2⟩ := by
  change (match c.procs[i]? with
    | some p =>
      (⟨(advance c.procs.length i c.shared x p).1, c.procs.set i (advance c.procs.length i c.shared x p).2.1 ++
        (advance c.procs.length i c.shared x p).2.2⟩ : Manager)
    | none => c) = _
  rw [hp]

/-- The step is one that `Steps` describes. -/
theorem Inv.advance (h : Inv c) (hp : c.procs[i]? = some p) (hready : p.ready c.shared x) :
    Steps c.procs.length i c.shared p (advance c.procs.length i c.shared x p).1
      (advance c.procs.length i c.shared x p).2.1 (advance c.procs.length i c.shared x p).2.2 :=
  advance_steps (h.before hp) hready h.known

theorem Inv.post {a : Act} (h : Inv c) (hpre : manager.pre c a) : Inv (manager.post c a) := by
  cases a with
  | command cmd =>
    refine ⟨h.maps, fun i p hp => ?_, fun hopen i hi => ?_, fun y hy => ?_, h.reports, h.shutdown⟩
    · change (c.procs ++ [Pc.taking cmd])[i]? = some p at hp
      rcases lt_or_ge i c.procs.length with hlt | hge
      · rw [List.getElem?_append_left hlt] at hp
        exact h.ok i p hp
      · rw [List.getElem?_append_right hge] at hp
        have hmem := List.mem_of_getElem? hp
        obtain rfl := List.mem_singleton.mp hmem
        exact ⟨nofun, nofun, trivial⟩
    · obtain ⟨p, hp, hd⟩ := h.converger hopen i hi
      obtain ⟨hlt, -⟩ := List.getElem?_eq_some_iff.mp hp
      exact ⟨p, (List.getElem?_append_left hlt).trans hp, hd⟩
    · change y.1 < (c.procs ++ [Pc.taking cmd]).length
      rw [List.length_append]
      exact Nat.lt_add_right _ (h.known y hy)
  | step i x =>
    obtain ⟨p, hp, hready⟩ := hpre
    rw [post_step hp]
    exact h.steps hp (h.advance hp hready)
  | exit inst =>
    exact ⟨⟨h.maps.tracked, h.maps.driven⟩, fun i p hp => (h.ok i p hp).spared
      ⟨fun hr => ⟨hr, id, .inl rfl⟩, fun hc => ⟨hc, rfl⟩, rfl, rfl, fun _ ha => ha⟩, h.converger, h.known, h.reports,
      h.shutdown⟩
  | close =>
    exact ⟨⟨h.maps.tracked, nofun⟩, fun i p hp => (h.ok i p hp).spared
      ⟨fun hr => ⟨hr, id, .inl rfl⟩, fun hc => ⟨hc, rfl⟩, rfl, rfl, fun _ ha => ha⟩, nofun, h.known, h.reports,
      fun _ => rfl⟩
  | stopBackground =>
    exact ⟨⟨h.maps.tracked, h.maps.driven⟩, fun i p hp => (h.ok i p hp).spared
      ⟨fun hr => ⟨hr, id, .inl rfl⟩, fun hc => ⟨hc, rfl⟩, rfl, rfl, fun _ ha => ha⟩, h.converger, h.known, h.reports,
      fun _ => hpre⟩

theorem inv_start : Inv start where
  maps := ⟨fun hne => absurd rfl hne, fun _ hne => absurd rfl hne⟩
  ok := nofun
  converger := nofun
  known := nofun
  reports _ := rfl
  shutdown := nofun

theorem inv_of_reach (h : manager.Reach Machine.Any start c) : Inv c :=
  h.invariant inv_start fun _ _ hinv hpre _ => hinv.post hpre

/-- Goroutine `i` is a converger at work. -/
def Converges (c : Manager) (i : ℕ) : Prop := ∃ p : Pc, c.procs[i]? = some p ∧ p.drives

/-- A converger at work has the flag, so there is one. -/
theorem Inv.converges_unique (h : Inv c) (hi : Converges c i) (hj : Converges c j) : i = j := by
  obtain ⟨p, hp, hdp⟩ := hi
  obtain ⟨q, hq, hdq⟩ := hj
  obtain ⟨f, hf⟩ := Option.ne_none_iff_exists'.mp hdp
  obtain ⟨g, hg⟩ := Option.ne_none_iff_exists'.mp hdq
  have hconv := ((h.ok i p hp).drives f hf).1
  exact Option.some.inj (hconv.symm.trans ((h.ok j q hq).drives g hg).1)

/-- The goroutine that holds the id is the only one. -/
theorem Inv.holds_unique {p q : Pc} (h : Inv c) (hp : c.procs[i]? = some p) (hq : c.procs[j]? = some q)
    (hhp : p.holds = true) (hhq : q.holds = true) : i = j := by
  have hi := ((h.ok i p hp).holds hhp).1
  exact Option.some.inj (hi.symm.trans ((h.ok j q hq).holds hhq).1)

/-! ## What a converger does next -/

/-- The steps that a converger takes until it looks for the record again. -/
def Pc.rest : Pc → ℕ
  | .probing _ _ => 5
  | .retrying _ => 4
  | .attempting _ _ .stopping => 3
  | .attempting _ _ _ => 2
  | .retiring _ _ | .releasing _ _ _ => 1
  | _ => 0

/-- **A converger comes to probe the record, if there still is one and the manager is not closed.** -/
theorem rest_advance (hd : p.drives) (hready : p.ready s x) :
    (advance n i s x p).2.1.drives ∧ (advance n i s x p).2.1.rest < p.rest ∨
    (∃ f e, s.orphan = some e ∧ (advance n i s x p).2.1 = .probing f e) ∨
    (advance n i s x p).2.1 = .gone ∧ (s.orphan = none ∨ s.shutdown = true) := by
  cases p with
  | attempting op e k =>
    cases op with
    | stop | restart => exact absurd rfl hd
    | retry =>
      cases k with
      | stopping => cases x <;> exact .inl ⟨Option.some_ne_none _, (by decide : 2 < 3)⟩
      | failed | stopped => exact .inl ⟨Option.some_ne_none _, (by decide : 1 < 2)⟩
  | releasing op e b =>
    cases op with
    | stop | restart => exact absurd rfl hd
    | retry => exact .inl ⟨Option.some_ne_none _, Nat.one_pos⟩
  | parked f =>
    rcases hready with rfl | ⟨rfl, hshutdown⟩
    · change _ ∨ (∃ g e, s.orphan = some e ∧ (s.currentOrphan f).2 = .probing g e) ∨ (s.currentOrphan f).2 = .gone ∧ _
      unfold State.currentOrphan
      split
      next horphan => exact .inr (.inr ⟨rfl, .inl horphan⟩)
      next e horphan => exact .inr (.inl ⟨_, e, horphan, rfl⟩)
    · exact .inr (.inr ⟨rfl, .inr hshutdown⟩)
  | probing f e =>
    obtain ⟨r, rfl⟩ := hready
    rw [Orphans.advance]
    split_ifs with hshutdown
    · exact .inr (.inr ⟨rfl, .inr hshutdown⟩)
    · cases r with
      | undetermined =>
        refine .inl ⟨Option.some_ne_none _, (by decide : 0 < 5)⟩
      | alive => exact .inl ⟨Option.some_ne_none _, (by decide : 4 < 5)⟩
      | dead =>
        change (s.answer i f e .dead).2.drives ∧ (s.answer i f e .dead).2.rest < _ ∨ _
        simp only [State.answer]
        split_ifs
        · exact .inl ⟨Option.some_ne_none _, (by decide : 1 < 5)⟩
        · exact .inl ⟨Option.some_ne_none _, (by decide : 0 < 5)⟩
  | retrying e =>
    change (s.takeOrphanReserve i e.inst).2.drives ∧ (s.takeOrphanReserve i e.inst).2.rest < 4 ∨ _
    unfold State.takeOrphanReserve
    split_ifs
    · exact .inl ⟨Option.some_ne_none _, (by decide : 0 < 4)⟩
    · split
      · split_ifs
        · exact .inl ⟨Option.some_ne_none _, (by decide : 3 < 4)⟩
        · exact .inl ⟨Option.some_ne_none _, (by decide : 0 < 4)⟩
      · exact .inl ⟨Option.some_ne_none _, (by decide : 0 < 4)⟩
  | retiring f e => exact .inl ⟨Option.some_ne_none _, Nat.one_pos⟩
  | taking | validating | launching | registering | startingPumps | working | pumping | answered | gone =>
    exact absurd rfl hd

/-- Where the goroutine stands after its step. -/
theorem post_own (hp : c.procs[i]? = some p) :
    (manager.post c (.step i x)).procs[i]? = some (advance c.procs.length i c.shared x p).2.1 := by
  obtain ⟨hi, -⟩ := List.getElem?_eq_some_iff.mp hp
  rw [post_step hp]
  change (c.procs.set i _ ++ _)[i]? = _
  rw [List.getElem?_append_left (lt_of_lt_of_eq hi List.length_set.symm), List.getElem?_set_self hi]

/-- A converger is never stuck. -/
theorem exists_step (hp : c.procs[i]? = some p) (hd : p.drives) : ∃ x, manager.pre c (.step i x) := by
  cases p with
  | attempting | releasing | retrying | retiring => exact ⟨.ok, _, hp, rfl⟩
  | parked => exact ⟨.ok, _, hp, .inl rfl⟩
  | probing => exact ⟨.probe .undetermined, _, hp, _, rfl⟩
  | taking | validating | launching | registering | startingPumps | working | pumping | answered | gone =>
    exact absurd rfl hd

/-- A converger of a manager that is closed was one before. -/
theorem Inv.old_post {a : Act} (h : Inv c) (hclosed : c.shared.closed = true) (hpre : manager.pre c a) :
    (manager.post c a).shared.closed = true ∧ ∀ j, Converges (manager.post c a) j → Converges c j := by
  cases a with
  | command cmd =>
    refine ⟨hclosed, fun j ⟨q, hq, hd⟩ => ⟨q, ?_, hd⟩⟩
    change (c.procs ++ [Pc.taking cmd])[j]? = some q at hq
    rcases lt_or_ge j c.procs.length with hlt | hge
    · rwa [List.getElem?_append_left hlt] at hq
    · rw [List.getElem?_append_right hge] at hq
      obtain rfl := List.mem_singleton.mp (List.mem_of_getElem? hq)
      exact absurd rfl hd
  | step i x =>
    obtain ⟨p, hp, hready⟩ := hpre
    have hsteps := h.advance hp hready
    rw [post_step hp]
    refine ⟨hsteps.closed.trans hclosed, fun j ⟨q, hq, hd⟩ => ?_⟩
    rcases get_step hq hp hsteps.starts with ⟨rfl, rfl⟩ | ⟨-, hold⟩ | ⟨-, hnew⟩
    · exact ⟨p, hp, hsteps.stays hd⟩
    · exact ⟨q, hold, hd⟩
    · exact absurd hd (hsteps.unstarted hclosed q (by rw [hnew]; exact List.mem_singleton_self q))
  | exit | stopBackground => exact ⟨hclosed, fun _ hj => hj⟩
  | close => exact ⟨rfl, fun _ hj => hj⟩

/-- **A manager that is closed starts no converger.** -/
theorem Inv.old {d : Manager} (h : Inv c) (hclosed : c.shared.closed = true) (hr : manager.Reach Machine.Any c d) :
    ∀ j, Converges d j → Converges c j := by
  have hkeep := hr.invariant (I := fun u => Inv u ∧ u.shared.closed = true ∧ ∀ j, Converges u j → Converges c j)
    ⟨h, hclosed, fun _ hj => hj⟩ fun u a ⟨hinv, hshut, hold⟩ hpre _ => by
      obtain ⟨hclosed', hpost⟩ := hinv.old_post hshut hpre
      exact ⟨hinv.post hpre, hclosed', fun j hj => hold j (hpost j hj)⟩
  exact hkeep.2.2

/-- A record stays unless its instance is over. -/
theorem Inv.kept {a : Act} (h : Inv c) (hpre : manager.pre c a) (he : c.shared.orphan = some e) :
    (∃ e', (manager.post c a).shared.orphan = some e' ∧ e'.inst = e.inst) ∨ c.shared.Over e.inst := by
  cases a with
  | step i x =>
    obtain ⟨p, hp, hready⟩ := hpre
    rw [post_step hp]
    exact (h.advance hp hready).kept e he
  | command | exit | close | stopBackground => exact .inl ⟨e, he, rfl⟩

theorem reserve_snd (q : Pc) : (s.reserve i q).2 = q ∨ ∃ r, (s.reserve i q).2 = .answered r := by
  unfold State.reserve
  split_ifs
  · exact .inr ⟨_, rfl⟩
  · exact .inr ⟨_, rfl⟩
  · exact .inr ⟨_, rfl⟩
  · exact .inl rfl

/-- A retry begins with `takeOrphanReserve`. -/
theorem retry_of_advance (h : (advance n i s x p).2.1 = .attempting .retry e .stopping) :
    ∃ e', p = .retrying e' ∧ e.inst = e'.inst ∧ s.reserved = none ∧ s.orphan = some e := by
  cases p with
  | taking cmd =>
    cases cmd with
    | start launch =>
      change (s.reserve i (.launching launch)).2 = _ at h
      rcases reserve_snd (s := s) (i := i) (.launching launch) with hq | ⟨r, hq⟩ <;> cases hq.symm.trans h
    | work =>
      change (s.reserve i .working).2 = _ at h
      rcases reserve_snd (s := s) (i := i) .working with hq | ⟨r, hq⟩ <;> cases hq.symm.trans h
    | stop =>
      change (s.takeStoppableReserve i).2 = _ at h
      unfold State.takeStoppableReserve at h
      split at h
      · cases h
      · split_ifs at h
        split at h <;> cases h
    | restart =>
      change (s.takeRunningReserve i).2 = _ at h
      unfold State.takeRunningReserve at h
      split at h
      · cases h
      · split_ifs at h
  | attempting op e' k =>
    cases k with
    | stopping => cases x <;> cases h
    | failed => cases h
    | stopped => cases op <;> cases h
  | releasing op => cases op <;> cases h
  | validating | launching | working | pumping => cases x <;> cases h
  | registering | startingPumps | retiring | answered | gone => cases h
  | parked f =>
    have hcurrent : (s.currentOrphan f).2 ≠ .attempting .retry e .stopping := by
      unfold State.currentOrphan
      split <;> nofun
    cases x with
    | quit => cases h
    | ok | failed | probe | crashed | ended => exact absurd h hcurrent
  | probing f e' =>
    have hanswer : ∀ r, (s.answer i f e' r).2 ≠ .attempting .retry e .stopping := by
      intro r
      cases r with
      | undetermined | alive => nofun
      | dead =>
        simp only [State.answer]
        split_ifs <;> nofun
    cases x with
    | probe r =>
      rw [Orphans.advance] at h
      split_ifs at h
      · cases h
      · exact absurd h (hanswer r)
    | ok | failed | quit | crashed | ended =>
      rw [Orphans.advance] at h
      split_ifs at h <;> cases h
      all_goals nofun
  | retrying e' =>
    change (s.takeOrphanReserve i e'.inst).2 = _ at h
    unfold State.takeOrphanReserve at h
    split_ifs at h with hr
    rw [ne_eq, not_not] at hr
    split at h
    next y hy =>
      split_ifs at h with hinst
      cases h
      exact ⟨e', rfl, hinst, hr, hy⟩
    next => cases h

/-- A retry begins only from a record that nobody works on. -/
theorem Inv.retry (h : Inv c) (hpre : manager.pre c (.step i x))
    (hpost : (manager.post c (.step i x)).procs[i]? = some (.attempting .retry e .stopping)) :
    c.shared.orphan = some e ∧ c.shared.probes.getLast? = some (i, e.inst, .alive) ∧
      ∀ (j : ℕ) (q : Pc), c.procs[j]? = some q → q.holds = false := by
  obtain ⟨p, hp, hready⟩ := hpre
  obtain ⟨e', rfl, hinst, hr, horphan⟩ := retry_of_advance (Option.some.inj ((post_own hp).symm.trans hpost))
  have hfree : ∀ (j : ℕ) (q : Pc), c.procs[j]? = some q → q.holds = false := by
    intro j q hq
    by_contra hhold
    cases hr.symm.trans ((h.ok j q hq).holds (Bool.not_eq_false _ ▸ hhold)).1
  refine ⟨horphan, ?_, hfree⟩
  rw [hinst]
  exact (h.ok i _ hp).facts

/-! ## The result -/

/-- **A record has one converger at work, and goes only for a reason.** In every reachable state: one converger at most
is at work; while the manager is open there is one for a record, which can always go on and comes to probe the record
unless it finds none; a closed manager starts none; a record stays until its instance has exited, was confirmed stopped,
or was seen dead by two probes one after the other; a retry begins only from the record of the instance that the
converger has just seen alive, while nobody holds the id, and then nobody else does; and each converger has reported
`unknown` once for each run of undetermined probes of one instance that it made. -/
theorem orphans_converge (c : Manager) (h : manager.Reach Machine.Any start c) :
    (∀ i j, Converges c i → Converges c j → i = j) ∧
    (c.shared.closed = false → c.shared.orphan ≠ none → ∃ i, Converges c i) ∧
    (∀ i (p : Pc), c.procs[i]? = some p → p.drives → (∃ x, manager.pre c (.step i x)) ∧
      ∀ x, manager.pre c (.step i x) → ∃ p' : Pc, (manager.post c (.step i x)).procs[i]? = some p' ∧
        (p'.drives ∧ p'.rest < p.rest ∨ (∃ f e, c.shared.orphan = some e ∧ p' = .probing f e) ∨
          p' = .gone ∧ (c.shared.orphan = none ∨ c.shared.shutdown = true))) ∧
    (c.shared.closed = true → ∀ d, manager.Reach Machine.Any c d → ∀ j, Converges d j → Converges c j) ∧
    (∀ a e, manager.pre c a → c.shared.orphan = some e →
      (∃ e', (manager.post c a).shared.orphan = some e' ∧ e'.inst = e.inst) ∨ c.shared.Over e.inst) ∧
    (∀ i x e, manager.pre c (.step i x) →
      (manager.post c (.step i x)).procs[i]? = some (.attempting .retry e .stopping) →
      c.shared.orphan = some e ∧ c.shared.probes.getLast? = some (i, e.inst, .alive) ∧
        ∀ (j : ℕ) (q : Pc), c.procs[j]? = some q → q.holds = false) ∧
    (∀ (i : ℕ) e k, c.procs[i]? = some (.attempting .retry e k) → (∀ x, c.shared.orphan = some x → x.inst = e.inst) ∧
      ∀ (j : ℕ) (q : Pc), c.procs[j]? = some q → q.holds = true → j = i) ∧
    (∀ i, of i c.shared.unknowns = unknownRuns (of i c.shared.probes)) := by
  have hinv := inv_of_reach h
  refine ⟨fun i j => hinv.converges_unique, fun hopen horphan => ?_,
    fun i p hp hd => ⟨exists_step hp hd, fun x hpre => ?_⟩,
    fun hclosed d hr => hinv.old hclosed hr, fun a e hpre he => hinv.kept hpre he, fun i x e => hinv.retry,
    fun i e k hp => ⟨(hinv.ok i _ hp).facts.1, fun j q hq hhold => hinv.holds_unique hq hp hhold rfl⟩, hinv.reports⟩
  · obtain ⟨i, hi⟩ := Option.ne_none_iff_exists'.mp (hinv.maps.driven hopen horphan)
    obtain ⟨p, hp, hd⟩ := hinv.converger hopen i hi
    exact ⟨i, p, hp, hd⟩
  · obtain ⟨q, hq, hready⟩ := hpre
    cases hp.symm.trans hq
    exact ⟨_, post_own hp, rest_advance hd hready⟩

/-! ## A record that comes back -/

/-- A server is started, and its stop is not confirmed: goroutine 3 is the converger, and its first probe is
undetermined. -/
def wedged : List Act :=
  [.command (.start ⟨[], []⟩), .step 0 .ok, .step 0 .ok, .step 0 .ok, .step 0 .ok, .command .stop, .step 2 .ok,
    .step 2 (.failed .internal), .step 2 .ok, .step 2 .ok, .step 3 .ok, .step 3 (.probe .undetermined)]

/-- After two undetermined probes `unknown` was reported once. -/
theorem orphans_converge_wedged : ∃ c : Manager, Converges c 3 ∧
    of 3 c.shared.probes = [(0, .undetermined), (0, .undetermined)] ∧ of 3 c.shared.unknowns = [0] ∧
    of 3 c.shared.unknowns = unknownRuns (of 3 c.shared.probes) := by
  have hrun : (manager.exec (wedged ++ [.step 3 .ok, .step 3 (.probe .undetermined)]) start).map
      (fun c => (decide (c.procs[3]? = some (.parked ⟨some 0, false, true⟩)), c.shared.probes, c.shared.unknowns)) =
      some (true, [(3, 0, .undetermined), (3, 0, .undetermined)], [(3, 0)]) := by decide
  obtain ⟨c, hc, hlogs⟩ := Machine.reach_of_exec_map hrun
  obtain ⟨hproc, hlogs⟩ := Prod.mk.inj hlogs
  obtain ⟨hprobes, hunknowns⟩ := Prod.mk.inj hlogs
  refine ⟨c, ⟨_, of_decide_eq_true hproc, nofun⟩, ?_, ?_, (orphans_converge c hc).2.2.2.2.2.2.2 3⟩
  · rw [hprobes]
    decide
  · rw [hunknowns]
    decide

/-- **A second converger reports the same run again**: a stop takes the orphan over, the instance's pump removes the
record, the converger ends, and the stop that fails after all records the orphan anew. -/
theorem unknown_repeated : ¬ ∀ c, manager.Reach Machine.Any start c →
    c.shared.unknowns.map Prod.snd = unknownRuns (c.shared.probes.map Prod.snd) := by
  intro h
  have hrun : (manager.exec (wedged ++ [.command .stop, .step 4 .ok, .exit 0, .step 1 .ended, .step 3 .ok,
      .step 4 (.failed .internal), .step 4 .ok, .step 4 .ok, .step 5 .ok, .step 5 (.probe .undetermined)]) start).map
      (fun c => (c.shared.probes.map Prod.snd, c.shared.unknowns.map Prod.snd)) =
      some ([(0, .undetermined), (0, .undetermined)], [0, 0]) := by decide
  obtain ⟨c, hc, hlogs⟩ := Machine.reach_of_exec_map hrun
  have hsame := h c hc
  rw [(Prod.mk.inj hlogs).1, (Prod.mk.inj hlogs).2] at hsame
  exact absurd hsame (by decide)

end McServerDashboard.Worker.Orphans
