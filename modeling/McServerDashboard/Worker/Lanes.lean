import McServerDashboard.Lib.Crowd
import Mathlib.Data.List.Infix
import Mathlib.Logic.Function.Basic

/-!
# The command lanes of a session

A stream hands each command to the lane of its server, and every lane has a goroutine that executes its commands one
after the other. When a stream ends its goroutines go on until they notice.

* `Shared`, `Lane`: what the streams and the limit are, and a lane with its goroutine.
* `dispatch`, `runLane`: the atomic steps; `runner`: the machine of all of them, over streams that come and go.
* `Inv`: a lane in a map has the one goroutine that works for it, and what was received is what was executed and what
  waits there.
* **`lanes_exact`**: the commands that a stream received for a server are executed in their order, each once unless the
  stream ends first, and the slots are those of the goroutines that hold one.
-/

namespace McServerDashboard.Worker.Lanes

open Lib

variable {Id : Type} [DecidableEq Id]

/-! ## The session -/

/-- The kinds of commands; `unsupported` are those that no handler takes. -/
inductive Kind
  | startServer
  | stopServer
  | restartServer
  | serverCommand
  | hydrateTrigger
  | snapshotTrigger
  | readFile
  | editFile
  | listFiles
  | tunnelDial
  | openBedrockTunnel
  | closeBedrockTunnel
  | unsupported
  deriving DecidableEq

def isQuickCommand : Kind → Bool
  | .serverCommand | .tunnelDial | .openBedrockTunnel | .closeBedrockTunnel => true
  | _ => false

structure Command (Id : Type) where
  commandID : ℕ
  serverID : Id
  kind : Kind
  deriving DecidableEq

def Command.quick (cmd : Command Id) : Bool := isQuickCommand cmd.kind

def maxConcurrentLanes : ℕ := 4

/-- The capacity of a stream's channel of results. -/
def resultsCap : ℕ := maxConcurrentLanes + 1

/-- Where the goroutine of a lane stands. -/
inductive Pc (Id : Type)
  /-- Before its `go` statement. -/
  | unstarted
  /-- At the head of the loop. -/
  | top
  | taken (cmd : Command Id)
  | waiting (cmd : Command Id)
  | acquired (cmd : Command Id)
  /-- In the handler. -/
  | running (cmd : Command Id) (slot : Bool)
  | emitting (slot : Bool)
  | releasing
  | removing
  | gone
  deriving DecidableEq

/-- A lane and its goroutine. -/
structure Lane (Id : Type) where
  stream : ℕ
  serverID : Id
  queue : List (Command Id)
  pc : Pc Id

/-- The dispatcher of a stream; the lanes are numbered in the order they are created. -/
structure Stream (Id : Type) where
  ended : Bool
  lanes : Id → Option ℕ
  results : ℕ

/-- What the goroutines share, with the commands received and executed so far. -/
structure Shared (Id : Type) where
  sem : ℕ
  /-- The streams so far. -/
  opened : ℕ
  streams : ℕ → Stream Id
  received : List (ℕ × Command Id)
  executed : List (ℕ × Command Id)

def Shared.setStream (s : Shared Id) (k : ℕ) (f : Stream Id → Stream Id) : Shared Id :=
  { s with streams := Function.update s.streams k (f (s.streams k)) }

def Shared.setLane (s : Shared Id) (k : ℕ) (id : Id) (i : Option ℕ) : Shared Id :=
  s.setStream k fun x => { x with lanes := Function.update x.lanes id i }

/-- The stream is served. -/
def Shared.live (s : Shared Id) (k : ℕ) : Prop := k < s.opened ∧ (s.streams k).ended = false

instance (s : Shared Id) (k : ℕ) : Decidable (s.live k) := inferInstanceAs (Decidable (_ ∧ _))

abbrev Session (Id : Type) := Crowd.Config (Shared Id) (Lane Id)

/-- The handler is called. -/
def Shared.execute (s : Shared Id) (k : ℕ) (cmd : Command Id) : Shared Id :=
  { s with executed := s.executed ++ [(k, cmd)] }

/-- The next step of a lane's goroutine is not blocked; `b` is the case that a `select` takes. -/
def Lane.ready (s : Shared Id) (l : Lane Id) (b : Bool) : Prop :=
  match l.pc, b with
  | .gone, _ => False
  | .waiting _, true => s.sem < maxConcurrentLanes
  | .emitting _, true => (s.streams l.stream).results < resultsCap
  | .waiting _, false | .emitting _, false => (s.streams l.stream).ended = true
  | _, _ => True

instance (s : Shared Id) (l : Lane Id) (b : Bool) : Decidable (l.ready s b) := by
  unfold Lane.ready
  split <;> infer_instance

/-- After the result of a command. -/
def afterEmit (slot : Bool) : Pc Id := if slot then .releasing else .top

/-- The next step of `runLane`. -/
def runLane (s : Shared Id) (l : Lane Id) (b : Bool) : Shared Id × Lane Id :=
  match l.pc with
  | .unstarted => (s, { l with pc := .top })
  | .top =>
    match l.queue with
    | [] => (s.setLane l.stream l.serverID none, { l with pc := .gone })
    | cmd :: rest => (s, { l with queue := rest, pc := .taken cmd })
  | .taken cmd =>
    if cmd.quick then (s.execute l.stream cmd, { l with pc := .running cmd false })
    else if (s.streams l.stream).ended then (s, { l with pc := .removing })
    else (s, { l with pc := .waiting cmd })
  | .waiting cmd =>
    if b then ({ s with sem := s.sem + 1 }, { l with pc := .acquired cmd }) else (s, { l with pc := .removing })
  | .acquired cmd => (s.execute l.stream cmd, { l with pc := .running cmd true })
  | .running _ slot => (s, { l with pc := .emitting slot })
  | .emitting slot =>
    if b then (s.setStream l.stream fun x => { x with results := x.results + 1 }, { l with pc := afterEmit slot })
    else (s, { l with pc := afterEmit slot })
  | .releasing => ({ s with sem := s.sem - 1 }, { l with pc := .top })
  | .removing => (s.setLane l.stream l.serverID none, { l with pc := .gone })
  | .gone => (s, l)

/-- `dispatch` up to its `go` statement, which is the first step of a new lane's goroutine. -/
def dispatch (c : Session Id) (k : ℕ) (cmd : Command Id) : Session Id :=
  let s := { c.shared with received := c.shared.received ++ [(k, cmd)] }
  match (c.shared.streams k).lanes cmd.serverID with
  | some i => ⟨s, c.procs.modify i fun l => { l with queue := l.queue ++ [cmd] }⟩
  | none => ⟨s.setLane k cmd.serverID (some c.procs.length), c.procs ++ [⟨k, cmd.serverID, [cmd], .unstarted⟩]⟩

inductive Act (Id : Type)
  /-- A new stream, when there is no other. -/
  | connect
  /-- The stream ends: `serve` returns. -/
  | drop
  /-- The stream's receive loop hands a command to the dispatcher. -/
  | receive (k : ℕ) (cmd : Command Id)
  /-- `serve` takes a result. -/
  | send
  | step (i : ℕ) (b : Bool)

/-- The last stream. -/
def Shared.last (s : Shared Id) : ℕ := s.opened - 1

/-- Any number of streams, one after the other, and the goroutines that they leave behind. -/
def runner : Machine (Session Id) (Act Id) where
  pre c
    | .connect => ¬ c.shared.live c.shared.last
    | .drop => c.shared.live c.shared.last
    | .receive k _ => k < c.shared.opened
    | .send => c.shared.live c.shared.last ∧ 0 < (c.shared.streams c.shared.last).results
    | .step i b => ∃ l ∈ c.procs[i]?, l.ready c.shared b
  post c
    | .connect => ⟨{ c.shared with opened := c.shared.opened + 1 }, c.procs⟩
    | .drop => ⟨c.shared.setStream c.shared.last fun x => { x with ended := true }, c.procs⟩
    | .receive k cmd => dispatch c k cmd
    | .send => ⟨c.shared.setStream c.shared.last fun x => { x with results := x.results - 1 }, c.procs⟩
    | .step i b =>
      match c.procs[i]? with
      | some l => ⟨(runLane c.shared l b).1, c.procs.set i (runLane c.shared l b).2⟩
      | none => c

instance (c : Session Id) (a : Act Id) : Decidable (runner.pre c a) :=
  match a with
  | .connect => inferInstanceAs (Decidable (¬ _))
  | .drop => inferInstanceAs (Decidable (c.shared.live _))
  | .receive _ _ => inferInstanceAs (Decidable (_ < _))
  | .send => inferInstanceAs (Decidable (_ ∧ _))
  | .step i b => inferInstanceAs (Decidable (∃ l ∈ c.procs[i]?, l.ready c.shared b))

def start : Session Id := ⟨⟨0, 0, fun _ => ⟨false, fun _ => none, 0⟩, [], []⟩, []⟩

/-! ## What one step of a goroutine does -/

/-- The command that the goroutine has taken and not executed. -/
def Pc.current : Pc Id → List (Command Id)
  | .taken cmd | .waiting cmd | .acquired cmd => [cmd]
  | _ => []

/-- What the goroutine still has to execute. -/
def Lane.work (l : Lane Id) : List (Command Id) := l.pc.current ++ l.queue

/-- The slots that the goroutine holds. -/
def Pc.slots : Pc Id → ℕ
  | .acquired _ | .releasing => 1
  | .running _ slot | .emitting slot => slot.toNat
  | _ => 0

def Lane.slots (l : Lane Id) : ℕ := l.pc.slots

/-- Only a command that is not quick takes a slot, and only an ended stream's goroutine gives up. -/
def Lane.Ok (s : Shared Id) (l : Lane Id) : Prop :=
  match l.pc with
  | .waiting cmd | .acquired cmd => cmd.quick = false
  | .running cmd slot => slot = !cmd.quick
  | .removing => (s.streams l.stream).ended = true
  | _ => True

/-- A step of the goroutine of `l`, or of the receive loop that hands it `new`. -/
structure Steps (new : List (Command Id)) (s : Shared Id) (l : Lane Id) (s' : Shared Id) (l' : Lane Id) : Prop where
  stream : l'.stream = l.stream
  serverID : l'.serverID = l.serverID
  opened : s'.opened = s.opened
  ended : ∀ k, (s'.streams k).ended = (s.streams k).ended
  lanes : ∀ k id, (s'.streams k).lanes id =
    if l'.pc = .gone ∧ k = l.stream ∧ id = l.serverID then none else (s.streams k).lanes id
  received : s'.received = s.received ++ new.map (l.stream, ·)
  fresh : ∀ cmd ∈ new, cmd.serverID = l.serverID
  work : ∃ cmds, s'.executed = s.executed ++ cmds.map (l.stream, ·) ∧ (cmds ++ l'.work).Sublist (l.work ++ new) ∧
    ((s.streams l.stream).ended = false → cmds ++ l'.work = l.work ++ new)
  gone : l'.pc = .gone → (s.streams l.stream).ended = false → l'.work = []
  sem : s'.sem + l.slots = s.sem + l'.slots
  bound : s.sem ≤ maxConcurrentLanes → s'.sem ≤ maxConcurrentLanes
  ok : l'.Ok s'

variable {s s' : Shared Id} {l l' : Lane Id} {b : Bool} {k : ℕ} {id : Id} {cmd : Command Id}

omit [DecidableEq Id] in
theorem setStream_self (f : Stream Id → Stream Id) : (s.setStream k f).streams k = f (s.streams k) :=
  Function.update_self _ _ _

omit [DecidableEq Id] in
theorem setStream_of_ne (f : Stream Id → Stream Id) {j : ℕ} (h : j ≠ k) :
    (s.setStream k f).streams j = s.streams j :=
  Function.update_of_ne h _ _

omit [DecidableEq Id] in
theorem setStream_ended {f : Stream Id → Stream Id} (hf : ∀ x, (f x).ended = x.ended) (j : ℕ) :
    ((s.setStream k f).streams j).ended = (s.streams j).ended := by
  by_cases h : j = k
  · subst h
    rw [setStream_self, hf]
  · rw [setStream_of_ne f h]

omit [DecidableEq Id] in
theorem setStream_lanes {f : Stream Id → Stream Id} (hf : ∀ x, (f x).lanes = x.lanes) (j : ℕ) :
    ((s.setStream k f).streams j).lanes = (s.streams j).lanes := by
  by_cases h : j = k
  · subst h
    rw [setStream_self, hf]
  · rw [setStream_of_ne f h]

theorem setLane_lanes (i : Option ℕ) (j : ℕ) (id' : Id) :
    ((s.setLane k id i).streams j).lanes id' = if j = k ∧ id' = id then i else (s.streams j).lanes id' := by
  by_cases h : j = k
  · subst h
    rw [Shared.setLane, setStream_self]
    exact (Function.update_apply _ _ _ _).trans (if_congr ⟨fun h => ⟨rfl, h⟩, fun h => h.2⟩ rfl rfl)
  · rw [Shared.setLane, setStream_of_ne _ h, if_neg fun hj => h hj.1]

/-- A step of the goroutine, which leaves the names and what was received. -/
theorem Steps.own {queue : List (Command Id)} {pc : Pc Id} (hopened : s'.opened = s.opened)
    (hreceived : s'.received = s.received) (hended : ∀ k, (s'.streams k).ended = (s.streams k).ended)
    (hlanes : ∀ k id, (s'.streams k).lanes id =
      if pc = .gone ∧ k = l.stream ∧ id = l.serverID then none else (s.streams k).lanes id)
    (cmds : List (Command Id)) (hexecuted : s'.executed = s.executed ++ cmds.map (l.stream, ·))
    (hsub : (cmds ++ (pc.current ++ queue)).Sublist l.work)
    (hall : (s.streams l.stream).ended = false → cmds ++ (pc.current ++ queue) = l.work)
    (hgone : pc = .gone → (s.streams l.stream).ended = false → queue = [])
    (hsem : s'.sem + l.slots = s.sem + pc.slots) (hbound : s.sem ≤ maxConcurrentLanes → s'.sem ≤ maxConcurrentLanes)
    (hok : Lane.Ok s' { l with queue := queue, pc := pc }) :
    Steps [] s l s' { l with queue := queue, pc := pc } where
  stream := rfl
  serverID := rfl
  opened := hopened
  ended := hended
  lanes := hlanes
  received := hreceived.trans (List.append_nil _).symm
  fresh := nofun
  work := ⟨cmds, hexecuted, by rw [List.append_nil]; exact hsub, fun h => by rw [List.append_nil]; exact hall h⟩
  gone h hlive := by
    have hpc : pc = .gone := h
    change pc.current ++ queue = []
    rw [hgone hpc hlive, hpc]
    rfl
  sem := hsem
  bound := hbound
  ok := hok

/-- A step that changes nothing but the place of the goroutine. -/
theorem Steps.quiet {queue : List (Command Id)} {pc : Pc Id} (hwork : pc.current ++ queue = l.work)
    (hslots : pc.slots = l.slots) (hgone : pc ≠ .gone) (hok : Lane.Ok s { l with queue := queue, pc := pc }) :
    Steps [] s l s { l with queue := queue, pc := pc } :=
  .own rfl rfl (fun _ => rfl) (fun _ _ => by rw [if_neg fun h => hgone h.1]) [] (List.append_nil _).symm
    (by rw [List.nil_append, hwork]) (fun _ => hwork) (fun h => absurd h hgone) (by rw [hslots]) (fun h => h) hok

/-- The goroutine of an ended stream gives its command up. -/
theorem Steps.giveUp (hended : (s.streams l.stream).ended = true) (hwork : l.work = cmd :: l.queue)
    (hslots : l.slots = 0) : Steps [] s l s { l with pc := .removing } :=
  .own rfl rfl (fun _ => rfl) (fun _ _ => by rw [if_neg fun h => nomatch h.1]) [] (List.append_nil _).symm
    (by rw [hwork]; exact List.sublist_cons_self _ _) (fun hlive => by cases hlive.symm.trans hended) nofun
    (by rw [hslots]; rfl) (fun h => h) hended

/-- The goroutine calls the handler. -/
theorem Steps.execute {pc : Pc Id} (hwork : l.work = cmd :: l.queue) (hslots : pc.slots = l.slots)
    (hcurrent : pc.current = []) (hgone : pc ≠ .gone) (hok : Lane.Ok s { l with pc := pc }) :
    Steps [] s l (s.execute l.stream cmd) { l with pc := pc } := by
  have hall : [cmd] ++ (pc.current ++ l.queue) = l.work := by
    rw [hwork, hcurrent]
    rfl
  exact .own rfl rfl (fun _ => rfl) (fun _ _ => by rw [if_neg fun h => hgone h.1]; rfl) [cmd] rfl
    (by rw [hall]) (fun _ => hall) (fun h => absurd h hgone) (congrArg (s.sem + ·) hslots.symm) (fun h => h) hok

/-- The goroutine of an ended stream, or of an empty lane, removes its lane. -/
theorem Steps.remove (hqueue : (s.streams l.stream).ended = false → l.queue = []) (hcurrent : l.pc.current = [])
    (hslots : l.slots = 0) : Steps [] s l (s.setLane l.stream l.serverID none) { l with pc := .gone } := by
  have hsame : ([] : List (Command Id)) ++ (Pc.gone.current ++ l.queue) = l.work := by
    rw [Lane.work, hcurrent]
    rfl
  have hended : ∀ j, ((s.setLane l.stream l.serverID none).streams j).ended = _ := setStream_ended fun _ => rfl
  refine .own rfl rfl hended (fun j id' => ?_) [] (List.append_nil _).symm (by rw [hsame]) (fun _ => hsame)
    (fun _ => hqueue) (by rw [hslots]; rfl) (fun h => h) trivial
  rw [setLane_lanes]
  exact if_congr ⟨fun h => ⟨rfl, h⟩, fun h => h.2⟩ rfl rfl

/-- **What a step of `runLane` does.** -/
theorem runLane_steps (hok : l.Ok s) (hslots : l.slots ≤ s.sem) (hready : l.ready s b) :
    Steps [] s l (runLane s l b).1 (runLane s l b).2 := by
  obtain ⟨stream, serverID, queue, pc⟩ := l
  cases pc with
  | unstarted | running cmd slot => exact .quiet rfl rfl nofun trivial
  | top =>
    cases queue with
    | nil => exact .remove (fun _ => rfl) rfl rfl
    | cons cmd rest => exact .quiet rfl rfl nofun trivial
  | taken cmd =>
    simp only [runLane]
    split_ifs with hquick hended
    · exact .execute rfl rfl rfl nofun (show false = !cmd.quick by rw [hquick]; rfl)
    · exact .giveUp hended rfl rfl
    · exact .quiet rfl rfl nofun (Bool.eq_false_iff.mpr hquick)
  | waiting cmd =>
    cases b with
    | true =>
      exact .own rfl rfl (fun _ => rfl) (fun _ _ => by rw [if_neg fun h => (nomatch h.1)]; rfl) []
        (List.append_nil _).symm (List.Sublist.refl _) (fun _ => rfl) nofun rfl (fun _ => hready) hok
    | false => exact .giveUp hready rfl rfl
  | acquired cmd =>
    have hslow : cmd.quick = false := hok
    exact .execute rfl rfl rfl nofun (show true = !cmd.quick by rw [hslow]; rfl)
  | emitting slot =>
    cases b with
    | false => cases slot <;> exact .quiet rfl rfl nofun trivial
    | true =>
      have hended : ∀ j, ((s.setStream stream fun x => { x with results := x.results + 1 }).streams j).ended = _ :=
        setStream_ended fun _ => rfl
      have hlanes : ∀ j, ((s.setStream stream fun x => { x with results := x.results + 1 }).streams j).lanes = _ :=
        setStream_lanes fun _ => rfl
      cases slot <;> exact .own rfl rfl hended (fun k id => by rw [if_neg fun h => (nomatch h.1), ← hlanes]; rfl) []
        (List.append_nil _).symm (List.Sublist.refl _) (fun _ => rfl) nofun rfl (fun h => h) trivial
  | releasing =>
    have hpos : 1 ≤ s.sem := hslots
    exact .own rfl rfl (fun _ => rfl) (fun _ _ => by rw [if_neg fun h => nomatch h.1]; rfl) []
      (List.append_nil _).symm (List.Sublist.refl _) (fun _ => rfl) nofun (Nat.sub_add_cancel hpos)
      (Nat.sub_le _ _).trans trivial
  | removing =>
    have hended : (s.streams stream).ended = true := hok
    exact .remove (fun hlive => by cases hlive.symm.trans hended) rfl rfl
  | gone => exact hready.elim

variable (cmd) in
/-- A lane is handed a command. -/
theorem Steps.enqueue (hgone : l.pc ≠ .gone) (hok : l.Ok s) :
    Steps [{ cmd with serverID := l.serverID }] s l
      { s with received := s.received ++ [(l.stream, { cmd with serverID := l.serverID })] }
      { l with queue := l.queue ++ [{ cmd with serverID := l.serverID }] } where
  stream := rfl
  serverID := rfl
  opened := rfl
  ended _ := rfl
  lanes _ _ := by rw [if_neg fun h => hgone h.1]
  received := rfl
  fresh := fun x hx => by rw [List.mem_singleton.mp hx]
  work := by
    have hall : ([] : List (Command Id)) ++ (l.pc.current ++ (l.queue ++ [{ cmd with serverID := l.serverID }])) =
        l.work ++ [{ cmd with serverID := l.serverID }] := by
      rw [Lane.work, List.nil_append, List.append_assoc]
    exact ⟨[], (List.append_nil _).symm, hall ▸ List.Sublist.refl _, fun _ => hall⟩
  gone h := absurd h hgone
  sem := rfl
  bound h := h
  ok := hok

/-! ## The invariant -/

/-- What the stream `k` has in a log for a server. -/
def of (k : ℕ) (id : Id) (log : List (ℕ × Command Id)) : List (Command Id) :=
  (log.filter fun x => x.1 = k ∧ x.2.serverID = id).map Prod.snd

/-- What the lane of a server still has to execute. -/
def pending (c : Session Id) (k : ℕ) (id : Id) : List (Command Id) :=
  ((c.shared.streams k).lanes id).elim [] fun i => (c.procs[i]?).elim [] Lane.work

structure Inv (c : Session Id) : Prop where
  /-- A lane in a map has a goroutine. -/
  map : ∀ k id i, (c.shared.streams k).lanes id = some i →
    ∃ l, c.procs[i]? = some l ∧ l.stream = k ∧ l.serverID = id ∧ l.pc ≠ .gone
  /-- A goroutine works for the lane in the map. -/
  lane : ∀ i l, c.procs[i]? = some l → l.pc ≠ .gone → (c.shared.streams l.stream).lanes l.serverID = some i
  ok : ∀ l ∈ c.procs, l.Ok c.shared
  servers : ∀ l ∈ c.procs, ∀ cmd ∈ l.work, cmd.serverID = l.serverID
  opened : ∀ l ∈ c.procs, l.stream < c.shared.opened
  /-- Only the last stream is served. -/
  ended : ∀ k, k + 1 < c.shared.opened → (c.shared.streams k).ended = true
  /-- A goroutine of a stream that is served leaves no command behind. -/
  gone : ∀ l ∈ c.procs, l.pc = .gone → (c.shared.streams l.stream).ended = false → l.work = []
  sem : c.shared.sem = c.total Lane.slots
  bound : c.shared.sem ≤ maxConcurrentLanes
  order : ∀ k id, (of k id c.shared.executed ++ pending c k id).Sublist (of k id c.shared.received)
  exact : ∀ k id, (c.shared.streams k).ended = false →
    of k id c.shared.executed ++ pending c k id = of k id c.shared.received

variable {c : Session Id} {i : ℕ} {procs : List (Lane Id)} {cmds : List (Command Id)}

theorem of_append (k : ℕ) (id : Id) (log log' : List (ℕ × Command Id)) :
    of k id (log ++ log') = of k id log ++ of k id log' := by
  rw [of, List.filter_append, List.map_append]
  rfl

theorem of_self (hcmds : ∀ cmd ∈ cmds, cmd.serverID = id) : of k id (cmds.map (k, ·)) = cmds := by
  induction cmds with
  | nil => rfl
  | cons cmd cmds ih =>
    have hcmd : (k, cmd).1 = k ∧ (k, cmd).2.serverID = id := ⟨rfl, hcmds cmd List.mem_cons_self⟩
    have hrest := ih fun x hx => hcmds x (List.mem_cons_of_mem _ hx)
    rw [of] at hrest ⊢
    rw [List.map_cons, List.filter_cons, if_pos (decide_eq_true hcmd), List.map_cons, hrest]

theorem of_other {k' : ℕ} {id' : Id} (hcmds : ∀ cmd ∈ cmds, cmd.serverID = id) (hne : ¬ (k' = k ∧ id' = id)) :
    of k' id' (cmds.map (k, ·)) = [] := by
  rw [of, List.map_eq_nil_iff, List.filter_eq_nil_iff]
  rintro x hx
  obtain ⟨cmd, hcmd, rfl⟩ := List.mem_map.mp hx
  rw [decide_eq_true_eq]
  exact fun h => hne ⟨h.1.symm, h.2.symm.trans (hcmds cmd hcmd)⟩

omit [DecidableEq Id] in
theorem pending_none (h : (c.shared.streams k).lanes id = none) : pending c k id = [] := by
  rw [pending, h]
  rfl

omit [DecidableEq Id] in
theorem pending_some (h : (c.shared.streams k).lanes id = some i) (hl : c.procs[i]? = some l) :
    pending c k id = l.work := by
  rw [pending, h, Option.elim_some, hl]
  rfl

omit [DecidableEq Id] in
theorem pending_congr {c' : Session Id} (hlanes : (c'.shared.streams k).lanes id = (c.shared.streams k).lanes id)
    (hprocs : ∀ i, (c.shared.streams k).lanes id = some i → c'.procs[i]? = c.procs[i]?) :
    pending c' k id = pending c k id := by
  rw [pending, pending, hlanes]
  cases h : (c.shared.streams k).lanes id with
  | none => rfl
  | some i => rw [Option.elim_some, Option.elim_some, hprocs i h]

omit [DecidableEq Id] in
theorem Lane.Ok.mono (h : l.Ok s)
    (hended : (s.streams l.stream).ended = true → (s'.streams l.stream).ended = true) : l.Ok s' := by
  obtain ⟨stream, serverID, queue, pc⟩ := l
  cases pc with
  | removing => exact hended h
  | waiting cmd | acquired cmd | running cmd slot => exact h
  | _ => trivial

/-- What happens to the streams alone. -/
theorem Inv.streams (h : Inv c) (hsem : s'.sem = c.shared.sem) (hreceived : s'.received = c.shared.received)
    (hexecuted : s'.executed = c.shared.executed)
    (hlanes : ∀ k, (s'.streams k).lanes = (c.shared.streams k).lanes)
    (hended : ∀ k, (c.shared.streams k).ended = true → (s'.streams k).ended = true)
    (hopened : c.shared.opened ≤ s'.opened) (hlast : ∀ k, k + 1 < s'.opened → (s'.streams k).ended = true) :
    Inv ⟨s', c.procs⟩ := by
  have hlive : ∀ k, (s'.streams k).ended = false → (c.shared.streams k).ended = false := by
    intro k hk
    by_contra hne
    cases hk.symm.trans (hended k (Bool.eq_true_of_not_eq_false hne))
  have hpending : ∀ k id, pending ⟨s', c.procs⟩ k id = pending c k id := fun k id =>
    pending_congr (congrFun (hlanes k) id) fun _ _ => rfl
  refine ⟨fun k id i hi => ?_, fun i l hl hgone => ?_, fun l hl => (h.ok l hl).mono (hended _), h.servers,
    fun l hl => (h.opened l hl).trans_le hopened, hlast, fun l hl hgone hk => h.gone l hl hgone (hlive _ hk),
    hsem.trans h.sem, hsem.trans_le h.bound, fun k id => ?_, fun k id hk => ?_⟩
  · exact h.map k id i ((congrFun (hlanes k) id).symm.trans hi)
  · exact (congrFun (hlanes l.stream) l.serverID).trans (h.lane i l hl hgone)
  · rw [hpending, hexecuted, hreceived]
    exact h.order k id
  · rw [hpending, hexecuted, hreceived]
    exact h.exact k id (hlive k hk)

omit [DecidableEq Id] in
theorem getElem?_lt (h : procs[i]? = some l) : i < procs.length := (List.getElem?_eq_some_iff.mp h).1

omit [DecidableEq Id] in
theorem getElem?_set_self' (h : procs[i]? = some l) : (procs.set i l')[i]? = some l' := by
  rw [List.getElem?_set_self (getElem?_lt h)]

omit [DecidableEq Id] in
/-- A lane after the `i`th was replaced. -/
theorem mem_set (h : l ∈ procs.set i l') : l = l' ∨ l ∈ procs := (List.mem_or_eq_of_mem_set h).symm

/-- **A step of a goroutine keeps the invariant.** -/
theorem Inv.steps (h : Inv c) (hl : c.procs[i]? = some l) (hgone : l.pc ≠ .gone) {new : List (Command Id)}
    (hs : Steps new c.shared l s' l') :
    Inv ⟨s', c.procs.set i l'⟩ := by
  have hmem : l ∈ c.procs := List.mem_of_getElem? hl
  have hmap : (c.shared.streams l.stream).lanes l.serverID = some i := h.lane i l hl hgone
  -- the lanes of the other servers are elsewhere
  have hother : ∀ k id j, ¬ (k = l.stream ∧ id = l.serverID) → (c.shared.streams k).lanes id = some j → j ≠ i := by
    rintro k id j hne hj rfl
    obtain ⟨l1, hl1, hk, hid, -⟩ := h.map k id j hj
    cases hl.symm.trans hl1
    exact hne ⟨hk.symm, hid.symm⟩
  have hkeep : ∀ k id, ¬ (k = l.stream ∧ id = l.serverID) → (s'.streams k).lanes id = (c.shared.streams k).lanes id :=
    fun k id hne => (hs.lanes k id).trans (if_neg fun h => hne h.2)
  obtain ⟨cmds, hexecuted, hsub, hall⟩ := hs.work
  have hserver : ∀ cmd ∈ cmds ++ l'.work, cmd.serverID = l.serverID := fun cmd hcmd =>
    (List.mem_append.mp (hsub.subset hcmd)).elim (h.servers l hmem cmd) (hs.fresh cmd)
  have hcmds : ∀ cmd ∈ cmds, cmd.serverID = l.serverID := fun cmd hcmd => hserver cmd (List.mem_append_left _ hcmd)
  have hpending : ∀ k id, ¬ (k = l.stream ∧ id = l.serverID) → pending ⟨s', c.procs.set i l'⟩ k id = pending c k id :=
    fun k id hne => pending_congr (hkeep k id hne) fun j hj => List.getElem?_set_ne (hother k id j hne hj).symm
  have hbefore : pending c l.stream l.serverID = l.work := pending_some hmap hl
  refine ⟨fun k id j hj => ?_, fun j l1 hl1 hgone1 => ?_, fun l1 hl1 => ?_, fun l1 hl1 cmd hcmd => ?_, fun l1 hl1 => ?_,
    fun k hk => ?_, fun l1 hl1 hgone1 hlive => ?_, ?_, hs.bound h.bound, fun k id => ?_, fun k id hlive => ?_⟩
  · by_cases hkid : k = l.stream ∧ id = l.serverID
    · have hj' := (hs.lanes k id).symm.trans hj
      by_cases hgone' : l'.pc = .gone
      · rw [if_pos ⟨hgone', hkid⟩] at hj'
        cases hj'
      · rw [if_neg fun h => hgone' h.1, hkid.1, hkid.2, hmap] at hj'
        cases hj'
        exact ⟨l', getElem?_set_self' hl, hs.stream.trans hkid.1.symm, hs.serverID.trans hkid.2.symm, hgone'⟩
    · have hj' : (c.shared.streams k).lanes id = some j := (hkeep k id hkid).symm.trans hj
      obtain ⟨l1, hl1, hrest⟩ := h.map k id j hj'
      exact ⟨l1, (List.getElem?_set_ne (hother k id j hkid hj').symm).trans hl1, hrest⟩
  · by_cases hji : i = j
    · subst hji
      cases (getElem?_set_self' hl).symm.trans hl1
      change (s'.streams l'.stream).lanes l'.serverID = some i
      rw [hs.lanes, if_neg fun h => hgone1 h.1, hs.stream, hs.serverID]
      exact hmap
    · have hl1' : c.procs[j]? = some l1 := (List.getElem?_set_ne hji).symm.trans hl1
      have hmap1 := h.lane j l1 hl1' hgone1
      refine (hkeep _ _ fun hkid => hji ?_).trans hmap1
      rw [hkid.1, hkid.2, hmap] at hmap1
      exact Option.some.inj hmap1
  · rcases mem_set hl1 with rfl | hl1
    · exact hs.ok
    · exact (h.ok l1 hl1).mono fun hk => (hs.ended _).trans hk
  · rcases mem_set hl1 with rfl | hl1
    · exact (hserver cmd (List.mem_append_right _ hcmd)).trans hs.serverID.symm
    · exact h.servers l1 hl1 cmd hcmd
  · refine lt_of_lt_of_eq ?_ hs.opened.symm
    rcases mem_set hl1 with rfl | hl1
    · exact hs.stream.trans_lt (h.opened l hmem)
    · exact h.opened l1 hl1
  · exact (hs.ended k).trans (h.ended k (hk.trans_eq hs.opened))
  · have hlive' : (c.shared.streams l1.stream).ended = false := (hs.ended _).symm.trans hlive
    rcases mem_set hl1 with rfl | hl1
    · exact hs.gone hgone1 (hs.stream ▸ hlive')
    · exact h.gone l1 hl1 hgone1 hlive'
  · have hsum : ((c.procs.set i l').map Lane.slots).sum + l.slots = c.total Lane.slots + l'.slots := Crowd.sum_set hl
    have hsem := hs.sem
    rw [h.sem] at hsem
    exact Nat.add_right_cancel (hsem.trans hsum.symm)
  · rw [hexecuted, of_append, hs.received, of_append]
    by_cases hkid : k = l.stream ∧ id = l.serverID
    · rw [hkid.1, hkid.2, of_self hcmds, of_self hs.fresh]
      have horder := h.order l.stream l.serverID
      rw [hbefore] at horder
      refine List.Sublist.trans ?_ (horder.append (List.Sublist.refl new))
      rw [List.append_assoc, List.append_assoc]
      refine List.Sublist.append_left (List.Sublist.trans (List.Sublist.append_left ?_ _) hsub) _
      by_cases hgone' : l'.pc = .gone
      · rw [pending_none ((hs.lanes _ _).trans (if_pos ⟨hgone', rfl, rfl⟩))]
        exact List.nil_sublist _
      · rw [pending_some ((hs.lanes _ _).trans ((if_neg fun h => hgone' h.1).trans hmap)) (getElem?_set_self' hl)]
    · rw [of_other hcmds hkid, of_other hs.fresh hkid, List.append_nil, List.append_nil, hpending k id hkid]
      exact h.order k id
  · have hlive' : (c.shared.streams k).ended = false := (hs.ended k).symm.trans hlive
    rw [hexecuted, of_append, hs.received, of_append]
    by_cases hkid : k = l.stream ∧ id = l.serverID
    · have hexact := h.exact k id hlive'
      rw [hkid.1] at hlive'
      rw [hkid.1, hkid.2, hbefore] at hexact
      rw [hkid.1, hkid.2, of_self hcmds, of_self hs.fresh, ← hexact, List.append_assoc, List.append_assoc,
        ← hall hlive']
      congr 2
      by_cases hgone' : l'.pc = .gone
      · rw [pending_none ((hs.lanes _ _).trans (if_pos ⟨hgone', rfl, rfl⟩)), hs.gone hgone' hlive']
      · exact pending_some ((hs.lanes _ _).trans ((if_neg fun h => hgone' h.1).trans hmap)) (getElem?_set_self' hl)
    · rw [of_other hcmds hkid, of_other hs.fresh hkid, List.append_nil, List.append_nil, hpending k id hkid]
      exact h.exact k id hlive'

/-- **A new lane keeps the invariant**: it takes the place that is free in the map, with one command. -/
theorem Inv.create (h : Inv c) (hk : l.stream < c.shared.opened)
    (hnone : (c.shared.streams l.stream).lanes l.serverID = none) (hgone : l.pc ≠ .gone) (hwork : l.work = [cmd])
    (hcmd : cmd.serverID = l.serverID) (hslots : l.slots = 0) (hok : l.Ok s') (hsem : s'.sem = c.shared.sem)
    (hopened : s'.opened = c.shared.opened) (hexecuted : s'.executed = c.shared.executed)
    (hreceived : s'.received = c.shared.received ++ [cmd].map (l.stream, ·))
    (hended : ∀ k, (s'.streams k).ended = (c.shared.streams k).ended)
    (hlanes : ∀ k id, (s'.streams k).lanes id =
      if k = l.stream ∧ id = l.serverID then some c.procs.length else (c.shared.streams k).lanes id) :
    Inv ⟨s', c.procs ++ [l]⟩ := by
  have hlast : (c.procs ++ [l])[c.procs.length]? = some l := List.getElem?_concat_length
  have hold : ∀ {j l1}, c.procs[j]? = some l1 → (c.procs ++ [l])[j]? = some l1 := fun hj =>
    (List.getElem?_append_left (getElem?_lt hj)).trans hj
  have hfresh : ∀ x ∈ [cmd], x.serverID = l.serverID := fun x hx => by rw [List.mem_singleton.mp hx, hcmd]
  have hmem : ∀ l1 ∈ c.procs ++ [l], l1 ∈ c.procs ∨ l1 = l := fun l1 hl1 =>
    (List.mem_append.mp hl1).imp id List.mem_singleton.mp
  have hpending : ∀ k id, pending ⟨s', c.procs ++ [l]⟩ k id =
      pending c k id ++ if k = l.stream ∧ id = l.serverID then [cmd] else [] := by
    intro k id
    split_ifs with hkid
    · rw [hkid.1, hkid.2, pending_none hnone, List.nil_append, ← hwork]
      exact pending_some ((hlanes _ _).trans (if_pos ⟨rfl, rfl⟩)) hlast
    · rw [List.append_nil]
      refine pending_congr ((hlanes k id).trans (if_neg hkid)) fun j hj => ?_
      obtain ⟨l1, hl1, -⟩ := h.map k id j hj
      exact (hold hl1).trans hl1.symm
  have hof : ∀ k id, of k id s'.received =
      of k id c.shared.received ++ if k = l.stream ∧ id = l.serverID then [cmd] else [] := by
    intro k id
    rw [hreceived, of_append]
    split_ifs with hkid
    · rw [hkid.1, hkid.2, of_self hfresh]
    · rw [of_other hfresh hkid]
  refine ⟨fun k id j hj => ?_, fun j l1 hl1 hgone1 => ?_, fun l1 hl1 => ?_, fun l1 hl1 x hx => ?_, fun l1 hl1 => ?_,
    fun k hk => ?_, fun l1 hl1 hgone1 hlive => ?_, ?_, hsem.trans_le h.bound, fun k id => ?_, fun k id hlive => ?_⟩
  · have hj' := (hlanes k id).symm.trans hj
    split_ifs at hj' with hkid
    · cases hj'
      exact ⟨l, hlast, hkid.1.symm, hkid.2.symm, hgone⟩
    · obtain ⟨l1, hl1, hrest⟩ := h.map k id j hj'
      exact ⟨l1, hold hl1, hrest⟩
  · refine (hlanes _ _).trans ?_
    rcases lt_or_ge j c.procs.length with hlt | hge
    · have hl1' : c.procs[j]? = some l1 := (List.getElem?_append_left hlt).symm.trans hl1
      have hmap1 := h.lane j l1 hl1' hgone1
      rw [if_neg]
      · exact hmap1
      · rintro ⟨hs, hid⟩
        rw [hs, hid, hnone] at hmap1
        cases hmap1
    · have hj : j = c.procs.length := by
        have hlt := getElem?_lt hl1
        rw [List.length_append, List.length_singleton] at hlt
        omega
      subst hj
      cases hlast.symm.trans hl1
      rw [if_pos ⟨rfl, rfl⟩]
  · rcases hmem l1 hl1 with hl1 | rfl
    · exact (h.ok l1 hl1).mono fun hk => (hended _).trans hk
    · exact hok
  · rcases hmem l1 hl1 with hl1 | rfl
    · exact h.servers l1 hl1 x hx
    · exact hfresh x (hwork ▸ hx)
  · refine lt_of_lt_of_eq ?_ hopened.symm
    rcases hmem l1 hl1 with hl1 | rfl
    · exact h.opened l1 hl1
    · exact hk
  · exact (hended k).trans (h.ended k (hk.trans_eq hopened))
  · rcases hmem l1 hl1 with hl1 | rfl
    · exact h.gone l1 hl1 hgone1 ((hended _).symm.trans hlive)
    · exact absurd hgone1 hgone
  · refine hsem.trans (h.sem.trans ?_)
    rw [Crowd.total_start, hslots]
    rfl
  · rw [hpending, hof, hexecuted, ← List.append_assoc]
    exact (h.order k id).append (List.Sublist.refl _)
  · rw [hpending, hof, hexecuted, ← List.append_assoc, h.exact k id ((hended k).symm.trans hlive)]

/-- **A command that is handed over keeps the invariant.** -/
theorem Inv.dispatch (h : Inv c) (hk : k < c.shared.opened) (cmd : Command Id) : Inv (dispatch c k cmd) := by
  rw [Lanes.dispatch]
  cases hmap : (c.shared.streams k).lanes cmd.serverID with
  | some i =>
    obtain ⟨l, hl, rfl, hid, hgone⟩ := h.map k cmd.serverID i hmap
    have hcmd : ({ cmd with serverID := l.serverID } : Command Id) = cmd := by rw [hid]
    have henqueue := h.steps hl hgone (Steps.enqueue cmd hgone (h.ok l (List.mem_of_getElem? hl)))
    rw [hcmd] at henqueue
    have hset : c.procs.modify i (fun l => { l with queue := l.queue ++ [cmd] }) =
        c.procs.set i { l with queue := l.queue ++ [cmd] } := by
      rw [List.modify_eq_set_getElem?, hl]
      rfl
    simp only [hset]
    exact henqueue
  | none =>
    exact h.create (l := ⟨k, cmd.serverID, [cmd], .unstarted⟩) hk hmap nofun rfl rfl rfl trivial rfl rfl rfl rfl
      (setStream_ended fun _ => rfl) (setLane_lanes _)

theorem Inv.start : Inv (start : Session Id) where
  map := nofun
  lane := nofun
  ok := nofun
  servers := nofun
  opened := nofun
  ended := nofun
  gone := nofun
  sem := rfl
  bound := Nat.zero_le _
  order _ _ := List.Sublist.refl _
  exact _ _ _ := rfl

/-- **The invariant holds along every run.** -/
theorem inv_of_reach (h : runner.Reach Machine.Any start c) : Inv c := by
  refine h.invariant Inv.start fun c a hc hpre _ => ?_
  cases a with
  | connect =>
    refine hc.streams rfl rfl rfl (fun _ => rfl) (fun _ h => h) (Nat.le_succ _) fun k hk => ?_
    by_contra hended
    have hk' : k + 1 < c.shared.opened + 1 := hk
    rcases lt_or_eq_of_le (Nat.lt_succ_iff.mp hk') with hlt | heq
    · exact hended (hc.ended k hlt)
    · have hlast : c.shared.last = k := by rw [Shared.last, ← heq, Nat.add_sub_cancel]
      have hnot : ¬ c.shared.live c.shared.last := hpre
      rw [hlast] at hnot
      exact hnot ⟨by omega, Bool.eq_false_iff.mpr hended⟩
  | drop =>
    have hended : ∀ k, (c.shared.streams k).ended = true →
        ((c.shared.setStream c.shared.last fun x => { x with ended := true }).streams k).ended = true := by
      intro k hk
      by_cases hlast : k = c.shared.last
      · rw [hlast, setStream_self]
      · rw [setStream_of_ne _ hlast, hk]
    exact hc.streams rfl rfl rfl (setStream_lanes fun _ => rfl) hended le_rfl fun k hk => hended k (hc.ended k hk)
  | receive k cmd => exact hc.dispatch hpre cmd
  | send =>
    have hended : ∀ k, ((c.shared.setStream c.shared.last fun x => { x with results := x.results - 1 }).streams k).ended
        = (c.shared.streams k).ended := setStream_ended fun _ => rfl
    exact hc.streams rfl rfl rfl (setStream_lanes fun _ => rfl) (fun k hk => (hended k).trans hk) le_rfl
      fun k hk => (hended k).trans (hc.ended k hk)
  | step i b =>
    obtain ⟨l, hl, hready⟩ := hpre
    have hl' : c.procs[i]? = some l := hl
    have hgone : l.pc ≠ .gone := by
      intro hgone
      simp only [Lane.ready, hgone] at hready
    have hslots : l.slots ≤ c.shared.sem := hc.sem ▸ Crowd.le_total hl'
    have hsteps := hc.steps hl' hgone (runLane_steps (hc.ok l (List.mem_of_getElem? hl')) hslots hready)
    change Inv (match c.procs[i]? with
      | some l => ⟨(runLane c.shared l b).1, c.procs.set i (runLane c.shared l b).2⟩
      | none => c)
    rw [hl']
    exact hsteps

/-! ## Progress -/

/-- The steps of the goroutines and of the sender. -/
def Act.internal : Act Id → Prop
  | .send | .step _ _ => True
  | _ => False

/-- No goroutine can take a step. -/
def Quiet (c : Session Id) : Prop := ∀ a, Act.internal a → ¬ runner.pre c a

omit [DecidableEq Id] in
/-- What can block a goroutine: the limit, and a full channel of a stream that is served. -/
theorem Lane.blocked (hblocked : ∀ b, ¬ l.ready s b) : l.pc = .gone ∨
    (∃ cmd, l.pc = .waiting cmd) ∧ maxConcurrentLanes ≤ s.sem ∨
    (s.streams l.stream).ended = false ∧ resultsCap ≤ (s.streams l.stream).results := by
  obtain ⟨stream, serverID, queue, pc⟩ := l
  cases pc with
  | gone => exact .inl rfl
  | waiting cmd => exact .inr (.inl ⟨⟨cmd, rfl⟩, not_lt.mp (hblocked true)⟩)
  | emitting slot => exact .inr (.inr ⟨Bool.eq_false_iff.mpr (hblocked false), not_lt.mp (hblocked true)⟩)
  | _ => exact absurd trivial (hblocked true)

/-- **In a quiet session every goroutine is gone.** -/
theorem Quiet.gone (hq : Quiet c) (h : Inv c) : ∀ l ∈ c.procs, l.pc = .gone := by
  have hblocked : ∀ l ∈ c.procs, ∀ b, ¬ l.ready c.shared b := by
    intro l hl b hready
    obtain ⟨i, hi⟩ := List.mem_iff_getElem?.mp hl
    exact hq (.step i b) trivial ⟨l, hi, hready⟩
  -- the sender would take a result from a full channel
  have hfull : ∀ l ∈ c.procs, (c.shared.streams l.stream).ended = false →
      ¬ resultsCap ≤ (c.shared.streams l.stream).results := by
    intro l hl hlive hcap
    have hopened := h.opened l hl
    have hlast : c.shared.last = l.stream := by
      by_contra hne
      rw [h.ended l.stream (by rw [Shared.last] at hne; omega)] at hlive
      cases hlive
    refine hq .send trivial ⟨?_, ?_⟩
    · rw [hlast]
      exact ⟨hopened, hlive⟩
    · rw [hlast]
      exact lt_of_lt_of_le (by decide) hcap
  have hwaiting : ∀ l ∈ c.procs, l.pc = .gone ∨ (∃ cmd, l.pc = .waiting cmd) ∧ maxConcurrentLanes ≤ c.shared.sem := by
    intro l hl
    rcases Lane.blocked (hblocked l hl) with hgone | hwait | ⟨hlive, hcap⟩
    · exact .inl hgone
    · exact .inr hwait
    · exact absurd hcap (hfull l hl hlive)
  -- so nobody holds a slot
  have hslots : c.shared.sem = 0 := by
    rw [h.sem, Crowd.Config.total, List.sum_eq_zero_iff]
    intro n hn
    obtain ⟨l, hl, rfl⟩ := List.mem_map.mp hn
    rcases hwaiting l hl with hgone | ⟨⟨cmd, hcmd⟩, -⟩
    · rw [Lane.slots, hgone]
      rfl
    · rw [Lane.slots, hcmd]
      rfl
  intro l hl
  refine (hwaiting l hl).resolve_right fun hwait => ?_
  have hcap := hwait.2
  rw [hslots] at hcap
  exact absurd hcap (by decide)

/-- What was received on a stream that is served has been executed. -/
theorem Quiet.executed (hq : Quiet c) (h : Inv c) (hlive : (c.shared.streams k).ended = false) :
    of k id c.shared.executed = of k id c.shared.received := by
  have hnone : (c.shared.streams k).lanes id = none := by
    by_contra hne
    obtain ⟨i, hi⟩ := Option.ne_none_iff_exists'.mp hne
    obtain ⟨l, hl, -, -, hgone⟩ := h.map k id i hi
    exact hgone (hq.gone h l (List.mem_of_getElem? hl))
  have hexact := h.exact k id hlive
  rwa [pending_none hnone, List.append_nil] at hexact

/-- The steps that a goroutine can still take for the command it has. -/
def Pc.rest : Pc Id → ℕ
  | .unstarted => 2
  | .top => 1
  | .taken _ => 8
  | .waiting _ => 7
  | .acquired _ => 6
  | .running _ _ => 5
  | .emitting _ => 4
  | .releasing => 2
  | .removing => 1
  | .gone => 0

def Lane.rest (l : Lane Id) : ℕ := l.pc.rest + 8 * l.queue.length

/-- A bound on the steps that the session can take without a new command. -/
def rest (c : Session Id) : ℕ := c.total Lane.rest + (c.shared.streams c.shared.last).results

theorem runLane_rest (hready : l.ready s b) : (runLane s l b).1.last = s.last ∧
    (runLane s l b).2.rest + ((runLane s l b).1.streams s.last).results < l.rest + (s.streams s.last).results := by
  have hremove : ((s.setLane l.stream l.serverID none).streams s.last).results = (s.streams s.last).results := by
    by_cases hlast : s.last = l.stream
    · rw [Shared.setLane, hlast, setStream_self]
    · rw [Shared.setLane, setStream_of_ne _ hlast]
  have hsend : ((s.setStream l.stream fun x => { x with results := x.results + 1 }).streams s.last).results ≤
      (s.streams s.last).results + 1 := by
    by_cases hlast : s.last = l.stream
    · rw [hlast, setStream_self]
    · rw [setStream_of_ne _ hlast]
      exact Nat.le_succ _
  obtain ⟨stream, serverID, queue, pc⟩ := l
  cases pc with
  | unstarted | running cmd slot | releasing | acquired cmd =>
    exact ⟨rfl, by simp only [runLane, Shared.execute, Lane.rest, Pc.rest]; omega⟩
  | top =>
    cases queue with
    | nil => exact ⟨rfl, by simp only [runLane, hremove, Lane.rest, Pc.rest]; omega⟩
    | cons cmd rest => exact ⟨rfl, by simp only [runLane, Lane.rest, Pc.rest, List.length_cons]; omega⟩
  | taken cmd =>
    simp only [runLane]
    split_ifs <;> exact ⟨rfl, by simp only [Shared.execute, Lane.rest, Pc.rest]; omega⟩
  | waiting cmd => cases b <;> exact ⟨rfl, by simp [runLane, Lane.rest, Pc.rest]⟩
  | emitting slot =>
    cases slot <;> cases b
    all_goals
      refine ⟨rfl, ?_⟩
      simp only [runLane, afterEmit, if_true, Bool.false_eq_true, if_false, Lane.rest, Pc.rest] at hsend ⊢
      omega
  | removing => exact ⟨rfl, by simp only [runLane, hremove, Lane.rest, Pc.rest]; omega⟩
  | gone => exact hready.elim

/-- **Each step uses up some of the rest.** -/
theorem rest_step {a : Act Id} (ha : a.internal) (hpre : runner.pre c a) : rest (runner.post c a) < rest c := by
  cases a with
  | connect | drop | receive => exact ha.elim
  | send =>
    have hpos : 0 < (c.shared.streams c.shared.last).results := hpre.2
    refine Nat.add_lt_add_left ?_ _
    change ((c.shared.setStream c.shared.last fun x => { x with results := x.results - 1 }).streams
      c.shared.last).results < _
    rw [setStream_self]
    exact Nat.sub_lt hpos Nat.one_pos
  | step i b =>
    obtain ⟨l, hl, hready⟩ := hpre
    have hl' : c.procs[i]? = some l := hl
    obtain ⟨hlast, hless⟩ := runLane_rest hready
    have hsum : ((c.procs.set i (runLane c.shared l b).2).map Lane.rest).sum + l.rest =
        c.total Lane.rest + (runLane c.shared l b).2.rest := Crowd.sum_set hl'
    change rest (match c.procs[i]? with
      | some l => ⟨(runLane c.shared l b).1, c.procs.set i (runLane c.shared l b).2⟩
      | none => c) < _
    rw [hl']
    change ((c.procs.set i (runLane c.shared l b).2).map Lane.rest).sum +
      ((runLane c.shared l b).1.streams (runLane c.shared l b).1.last).results < c.total Lane.rest + _
    rw [hlast]
    omega

/-- The steps that are taken use up the rest. -/
theorem length_le_rest {as : List (Act Id)} {d : Session Id} (has : ∀ a ∈ as, a.internal)
    (h : runner.exec as c = some d) : as.length + rest d ≤ rest c := by
  induction as generalizing c with
  | nil =>
    cases h
    exact (Nat.zero_add _).le
  | cons a as ih =>
    rw [Machine.exec] at h
    split_ifs at h with hpre
    have hstep := rest_step (has a List.mem_cons_self) hpre
    have hrest := ih (fun x hx => has x (List.mem_cons_of_mem _ hx)) h
    rw [List.length_cons]
    omega

/-! ## The result -/

/-- The goroutine is in the handler with a command that is not quick. -/
def Lane.runsSlow (l : Lane Id) : Bool :=
  match l.pc with
  | .running cmd _ => !cmd.quick
  | _ => false

omit [DecidableEq Id] in
theorem Lane.Ok.runsSlow_le (h : l.Ok s) : (if l.runsSlow then 1 else 0) ≤ l.slots := by
  obtain ⟨stream, serverID, queue, pc⟩ := l
  cases pc with
  | running cmd slot =>
    obtain rfl : slot = !cmd.quick := h
    have htoNat : ∀ b : Bool, (if b then 1 else 0) ≤ b.toNat := by decide
    exact htoNat (!cmd.quick)
  | _ => exact Nat.zero_le _

/-- **The lanes lose nothing, keep the order of a stream, and share the limit.** In every reachable state the commands
executed for a server are, stream by stream, some of those received, in their order and each once; on a stream that is
served the others wait at a lane, whose one goroutine is there; the slots taken are those that goroutines hold; and
without new commands the goroutines come to rest with every command of a stream that is served executed. -/
theorem lanes_exact (c : Session Id) (h : runner.Reach Machine.Any start c) :
    (∀ k id, (of k id c.shared.executed).Sublist (of k id c.shared.received)) ∧
    (∀ k id, (c.shared.streams k).ended = false →
      of k id c.shared.executed ++ pending c k id = of k id c.shared.received) ∧
    (∀ k id i, (c.shared.streams k).lanes id = some i →
      ∃ l, c.procs[i]? = some l ∧ l.stream = k ∧ l.serverID = id ∧ l.pc ≠ .gone) ∧
    (∀ i l, c.procs[i]? = some l → l.pc ≠ .gone → (c.shared.streams l.stream).lanes l.serverID = some i) ∧
    (∀ l ∈ c.procs, l.work ≠ [] → (c.shared.streams l.stream).ended = false → l.pc ≠ .gone) ∧
    c.shared.sem = c.total Lane.slots ∧ c.total Lane.slots ≤ maxConcurrentLanes ∧
    c.procs.countP Lane.runsSlow ≤ maxConcurrentLanes ∧
    (∀ as d, (∀ a ∈ as, Act.internal a) → runner.exec as c = some d → as.length ≤ rest c) ∧
    (Quiet c → c.shared.sem = 0 ∧ ∀ k id, (c.shared.streams k).ended = false →
      of k id c.shared.executed = of k id c.shared.received) := by
  have hinv := inv_of_reach h
  have hbound : c.total Lane.slots ≤ maxConcurrentLanes := hinv.sem ▸ hinv.bound
  refine ⟨fun k id => (List.sublist_append_left _ _).trans (hinv.order k id), hinv.exact, hinv.map, hinv.lane,
    fun l hl hwork hlive hgone => hwork (hinv.gone l hl hgone hlive), hinv.sem, hbound, ?_,
    fun as d has hexec => (Nat.le_add_right _ _).trans (length_le_rest has hexec),
    fun hq => ⟨?_, fun k id hlive => hq.executed hinv hlive⟩⟩
  · rw [Crowd.countP_eq_total]
    exact (List.sum_le_sum fun l hl => (hinv.ok l hl).runsSlow_le).trans hbound
  · rw [hinv.sem, Crowd.Config.total, List.sum_eq_zero_iff]
    intro n hn
    obtain ⟨l, hl, rfl⟩ := List.mem_map.mp hn
    rw [Lane.slots, hq.gone hinv l hl]
    rfl

/-! ## Commands from several streams -/

/-- A command for one server. -/
def toOne (commandID : ℕ) (kind : Kind) : Command ℕ := ⟨commandID, 7, kind⟩

/-- Of two commands the first is in the handler, and the other waits. -/
theorem lanes_exact_twoCommands : ∃ c : Session ℕ, of 0 7 c.shared.executed = [toOne 1 .stopServer] ∧
    pending c 0 7 = [toOne 2 .serverCommand] ∧ c.procs.countP Lane.runsSlow = 1 ∧
    of 0 7 c.shared.executed ++ pending c 0 7 = of 0 7 c.shared.received := by
  have hrun : (runner.exec [.connect, .receive 0 (toOne 1 .stopServer), .step 0 true, .step 0 true, .step 0 true,
      .step 0 true, .step 0 true, .receive 0 (toOne 2 .serverCommand)] start).map
      (fun c => (of 0 7 c.shared.executed, pending c 0 7, c.procs.countP Lane.runsSlow, (c.shared.streams 0).ended)) =
      some ([toOne 1 .stopServer], [toOne 2 .serverCommand], 1, false) := by decide
  obtain ⟨c, hc, hlogs⟩ := Machine.reach_of_exec_map hrun
  obtain ⟨hexecuted, hlogs⟩ := Prod.mk.inj hlogs
  obtain ⟨hpending, hlogs⟩ := Prod.mk.inj hlogs
  obtain ⟨hslow, hlive⟩ := Prod.mk.inj hlogs
  exact ⟨c, hexecuted, hpending, hslow, (lanes_exact c hc).2.1 0 7 hlive⟩

/-- The order in which the commands for a server are received and executed, whatever their stream. -/
def forServer (id : Id) (log : List (ℕ × Command Id)) : List (Command Id) :=
  (log.filter fun x => x.2.serverID = id).map Prod.snd

/-- **A stream that has ended executes a command after one of the next stream.** -/
theorem order_lost : ¬ ∀ (c : Session ℕ) (id : ℕ), runner.Reach Machine.Any start c →
    (forServer id c.shared.executed).Sublist (forServer id c.shared.received) := by
  intro h
  have hrun : (runner.exec [.connect, .receive 0 (toOne 1 .stopServer), .step 0 true, .step 0 true, .step 0 true,
      .step 0 true, .step 0 true, .receive 0 (toOne 2 .serverCommand), .drop, .connect,
      .receive 1 (toOne 3 .serverCommand), .step 1 true, .step 1 true, .step 1 true, .step 0 true, .step 0 false,
      .step 0 true, .step 0 true, .step 0 true] start).map
      (fun c => (forServer 7 c.shared.executed, forServer 7 c.shared.received)) =
      some ([toOne 1 .stopServer, toOne 3 .serverCommand, toOne 2 .serverCommand],
        [toOne 1 .stopServer, toOne 2 .serverCommand, toOne 3 .serverCommand]) := by decide
  obtain ⟨c, hc, hlogs⟩ := Machine.reach_of_exec_map hrun
  have hsub := h c 7 hc
  rw [(Prod.mk.inj hlogs).1, (Prod.mk.inj hlogs).2] at hsub
  exact absurd hsub (by decide)

end McServerDashboard.Worker.Lanes
