import McServerDashboard.Lib.Threads
import Mathlib.Data.Nat.Notation
import Mathlib.Tactic.SplitIfs

/-!
# The scratch of one server on a Worker

Hydrates, running-id and stopped-id snapshots of one server id, each a thread over the directories
that the scratch root holds for it: the working dir, the slot `.displaced-<id>`, the sets superseded by
a hydrate and the trees that a sweep has taken out of the slot.

A directory is numbered when it is made and keeps its number through renames: an open descriptor and a
pinned identity name the directory, a path names what sits there now. Any call may fail, and the process
may crash between two of them.
-/

namespace McServerDashboard.Worker.Scratch

open Lib

local instance (priority := 2000) lawfulBEq_temp : @LawfulBEq (ℕ × ℕ) instBEqProd := inferInstance

/-- Who deletes a tree. -/
inductive Cause
  /-- `sweepHydrateLeftovers`. -/
  | leftover
  /-- A hydrate, of the set it superseded, for the recovery tree it found in the slot. -/
  | dropped (kept : ℕ)
  /-- A hydrate, of what the slot held without a working set. -/
  | cleared
  /-- The sweep of a running-id snapshot: what it had packed, and the working dir it found after it took
  the tree out of the slot. -/
  | swept (packed : ℕ) (dest : Option ℕ)
  /-- A stopped-id snapshot: its sweep, and `removeScratch`. -/
  | final
  | scratch
  /-- The boot, `ReclaimInterruptedDisplacedSweeps` and `ReclaimHydrateLeftovers`. -/
  | reclaimed
  deriving DecidableEq

/-- The name that a tree sits under. -/
inductive Place
  | unborn
  /-- The temp tree of a hydrate. -/
  | temp
  /-- The working dir. -/
  | dest
  /-- `.displaced-<id>`. -/
  | slot
  /-- `.hydrate-<id>-superseded-*` and `.sweeping-<id>-*`. -/
  | superseded
  | sweeping
  | lost (cause : Cause)
  deriving DecidableEq

/-- Where a hydrate parks the live set. -/
inductive Aside
  | slot
  | superseded
  deriving DecidableEq

def Aside.place : Aside → Place
  | .slot => .slot
  | .superseded => .superseded

structure State where
  dest : Option ℕ
  slot : Option ℕ
  /-- The trees are numbered as they are made. -/
  trees : ℕ
  place : ℕ → Place
  /-- `holdsWorkingSet`: more than the generation marker and its temps. -/
  world : ℕ → Bool
  marker : ℕ → Option ℕ
  /-- The marker temps: their directory and name. -/
  temps : List (ℕ × ℕ)
  names : ℕ
  /-- The reservation, the working-set lock and the slot claim, by thread. -/
  reserved : Option ℕ
  lock : Option ℕ
  claim : Option ℕ
  /-- The life of the process that runs, and whether it still boots. -/
  boot : ℕ
  booting : Bool
  /-- The generation of the store. -/
  store : ℕ
  /-- The newest store generation that a tree was hydrated from or published as; the set that a hydrate
  may have to rename back; the superseded set that it has still to decide on; the tree that the sweep
  with the claim has taken out of the slot; the generation that a thread's last guard check found in the
  working dir (ghosts). -/
  origin : ℕ → ℕ
  aside : Option (ℕ × Aside)
  pending : Option ℕ
  detached : Option ℕ
  seen : List (ℕ × ℕ)

/-! ## Positions -/

/-- An unpacked tree and the generation that it was served at. -/
structure Fetched where
  tree : ℕ
  gen : ℕ
  deriving DecidableEq

/-- Who stamps a generation: a hydrate, or the tail of a running-id snapshot with the directory that it
has pinned and the one that it has packed. -/
structure Writer where
  gen : ℕ
  pin : Option (ℕ × ℕ)
  deriving DecidableEq

/-- `recordGeneration` and `writeGenerationGuarded`. -/
inductive WritePc
  | locking
  | guarding
  | making
  | opening
  | creating (dir : ℕ)
  | fencing (dir name : ℕ)
  | renaming (dir name : ℕ)
  | rechecking (dir : ℕ)
  | clearing (dir : ℕ)
  deriving DecidableEq

/-- Who sweeps the slot: the tail of a running-id snapshot, with the generation that it declares, or a
stopped-id snapshot. -/
inductive Sweeper
  | tail (p q : ℕ) (declared : Option ℕ)
  | final
  deriving DecidableEq

/-- `sweepDisplaced`. -/
inductive SweepPc
  | claiming
  | detaching
  | verifying (y : ℕ)
  | returning (y : ℕ)
  | removing (y : ℕ) (cause : Cause)
  deriving DecidableEq

inductive Pc
  | idle
  /-- `handleHydrate` and `unpackAndSwap`. -/
  | leftovers
  | fetching
  | unpacked (f : Fetched)
  | clearing (f : Fetched)
  | parking (f : Fetched) (a : Aside)
  | swapping (f : Fetched) (parked : Option (ℕ × Aside))
  | restoring (l : ℕ) (a : Aside)
  | dropping (f : Fetched) (l : ℕ)
  | discarding (f : Fetched) (l kept : ℕ)
  | reparking (f : Fetched) (l : ℕ)
  | recording (f : Fetched)
  /-- The hydrate fails: the set that it had parked, and whether that was renamed back. -/
  | failed (parked : Option (ℕ × Bool))
  | write (w : Writer) (k : WritePc)
  | releasing (declared : Option ℕ)
  /-- `snapshotBody` of a running id. -/
  | pinned (p : ℕ)
  | packed (p q : ℕ)
  | gating (p q : ℕ) (declared : Option ℕ)
  | sweep (v : Sweeper) (k : SweepPc)
  /-- `snapshotBody` of a stopped id. -/
  | packing
  | finalLeftovers
  | removing
  | «over» (declared : Option ℕ)
  deriving DecidableEq

/-- A thread, and the life of the process that it runs in. -/
structure Thread where
  boot : ℕ
  pc : Pc
  deriving DecidableEq

/-- What a step leaves open. -/
structure Choice where
  ok : Bool
  flag : Bool := false
  world : Bool := true
  /-- The leftovers that stay. -/
  keep : List ℕ := []
  deriving DecidableEq

inductive Action
  | hydrate
  /-- A snapshot of a running id, and of a stopped one. -/
  | snapshot
  | final
  | step (x : Choice)
  /-- The server writes its world. -/
  | play
  /-- Another Worker, or the API, publishes. -/
  | publish
  | crash
  /-- The boot reclaims. -/
  | reclaim (keep : List ℕ)
  deriving DecidableEq

/-! ## The scratch root -/

/-- A tree is renamed, or deleted. -/
def State.put (s : State) (i : ℕ) (w : Place) : State := { s with place := Function.update s.place i w }

/-- A tree is made. -/
def State.create (s : State) (w : Place) (world : Bool) (marker : Option ℕ) (gen : ℕ) : State :=
  { s with
    trees := s.trees + 1
    place := Function.update s.place s.trees w
    world := Function.update s.world s.trees world
    marker := Function.update s.marker s.trees marker
    origin := Function.update s.origin s.trees gen }

/-- `sweepHydrateLeftovers`. -/
def State.sweepLeftovers (s : State) (keep : List ℕ) : State :=
  { s with
    place := fun i => if s.place i = .superseded ∧ i ∉ keep then .lost .leftover else s.place i }

/-- What is left under names that nobody reads at boot. -/
def State.reclaim (s : State) (keep : List ℕ) : State :=
  { s with
    place := fun i =>
      if (s.place i = .superseded ∨ s.place i = .sweeping) ∧ i ∉ keep then .lost .reclaimed else s.place i }

/-- A slot that holds no working set is cleared. -/
def State.clearSlot (s : State) : State :=
  match s.slot with
  | some y => { s.put y (.lost .cleared) with slot := none }
  | none => s

/-- The live set is parked. -/
def State.park (s : State) (l : ℕ) (a : Aside) : State :=
  { s.put l a.place with
    dest := none
    slot := if a = .slot then some l else s.slot
    aside := some (l, a)
    pending := if a = .superseded then some l else none }

/-- `os.MkdirAll` of the working dir. -/
def State.mkdirAll (s : State) : State :=
  match s.dest with
  | some _ => s
  | none => { s.create .dest false none 0 with dest := some s.trees }

/-- The store publishes what was packed. -/
def State.publish (s : State) (q : ℕ) : State :=
  { s with store := s.store + 1, origin := Function.update s.origin q (s.store + 1) }

/-- The generation in the working dir, at a thread's last check. -/
def State.see (s : State) (t : ℕ) : State :=
  match s.dest.bind s.marker with
  | some gen => { s with seen := (t, gen) :: s.seen }
  | none => s

def State.unlock (s : State) : State := { s with lock := none }

/-- `releaseDisplacedSlot`. -/
def State.releaseSlot (s : State) : State := { s with claim := none, detached := none }

/-! ## Steps -/

/-- A directory that was pinned is still the working dir. -/
def Writer.current (s : State) (w : Writer) : Bool :=
  match w.pin with
  | some (p, _) => s.dest = some p
  | none => true

/-- Where a stamp ends. -/
def Writer.over (w : Writer) (declared : Option ℕ) : Pc :=
  match w.pin with
  | some (p, q) => .gating p q declared
  | none => .releasing declared

def Sweeper.current (s : State) : Sweeper → Bool
  | .tail p _ _ => s.dest = some p
  | .final => true

def Sweeper.over : Sweeper → Pc
  | .tail _ _ declared => .over declared
  | .final => .releasing none

def Sweeper.cause (s : State) : Sweeper → Cause
  | .tail _ q _ => .swept q s.dest
  | .final => .final

/-- The next step of a stamp; one that cannot check its guard takes the directory for replaced. -/
def writeStep (t : ℕ) (s : State) (x : Choice) (w : Writer) : WritePc → State × Pc
  | .locking =>
    if x.ok ∧ s.lock = none then ({ s with lock := some t }, .write w .guarding) else (s, w.over none)
  | .guarding => if x.ok ∧ w.current s then (s, .write w .making) else (s.unlock, w.over none)
  | .making => if x.ok then (s.mkdirAll, .write w .opening) else (s.unlock, w.over none)
  | .opening =>
    match s.dest with
    | some d => if x.ok then (s, .write w (.creating d)) else (s.unlock, w.over none)
    | none => (s.unlock, w.over none)
  | .creating d =>
    if x.ok then
      ({ s with temps := (d, s.names) :: s.temps, names := s.names + 1 }, .write w (.fencing d s.names))
    else (s.unlock, w.over none)
  | .fencing d m =>
    if x.ok ∧ w.current s then (s, .write w (.renaming d m))
    else ({ s.unlock with temps := s.temps.erase (d, m) }, w.over none)
  | .renaming d m =>
    if x.ok ∧ (d, m) ∈ s.temps then
      ({ s with temps := s.temps.erase (d, m), marker := Function.update s.marker d (some w.gen) },
        .write w (.rechecking d))
    else ({ s.unlock with temps := s.temps.erase (d, m) }, w.over none)
  | .rechecking d =>
    if x.ok ∧ w.current s then (s.see t, .write w (.clearing d)) else ((s.see t).unlock, w.over none)
  | .clearing d =>
    -- `sweepGenerationTemps`, and the sync of the directory.
    ({ s.unlock with temps := s.temps.filter (·.1 ≠ d) }, w.over (if x.ok then some w.gen else none))

/-- The next step of a sweep. -/
def sweepStep (t : ℕ) (s : State) (x : Choice) (v : Sweeper) : SweepPc → State × Pc
  | .claiming => if s.claim = none then ({ s with claim := some t }, .sweep v .detaching) else (s, v.over)
  | .detaching =>
    match s.slot with
    | some y =>
      if x.ok then
        ({ s.put y .sweeping with slot := none, detached := some y }, .sweep v (.verifying y))
      else (s.releaseSlot, v.over)
    | none => (s.releaseSlot, v.over)
  | .verifying y =>
    if v.current s ∧ (x.ok ∨ v = .final) then (s.releaseSlot, .sweep v (.removing y (v.cause s)))
    else (s, .sweep v (.returning y))
  | .returning y =>
    -- What provably holds no working set is left, and a rename does not go over what is in the slot.
    if x.ok ∧ (s.world y = true ∨ x.flag = true) ∧ s.slot = none then
      ({ s.releaseSlot.put y .slot with slot := some y }, v.over)
    else (s.releaseSlot, v.over)
  | .removing y cause => (if x.ok ∧ s.place y = .sweeping then s.put y (.lost cause) else s, v.over)

/-- The next step of a thread. -/
def advance (t : ℕ) (s : State) (x : Choice) : Pc → State × Pc
  | .leftovers => (s.sweepLeftovers x.keep, .fetching)
  | .fetching =>
    if x.ok then
      -- A 200 serves what the store publishes, or a JAR alone; a 204 has no generation.
      if x.flag then (s.create .temp x.world (some s.store) s.store, .unpacked ⟨s.trees, s.store⟩)
      else if x.world then (s.create .temp true (some 0) 0, .unpacked ⟨s.trees, 0⟩)
      else (s, .write ⟨0, none⟩ .locking)
    else (s, .failed none)
  | .unpacked f =>
    if x.ok then
      match s.dest, s.slot with
      | none, _ => (s, .swapping f none)
      | some _, none => (s, .parking f .slot)
      | some _, some y => if s.world y then (s, .parking f .superseded) else (s, .clearing f)
    else (s, .failed none)
  | .clearing f => (if x.ok then s.clearSlot else s, .parking f .slot)
  | .parking f a =>
    match s.dest with
    | some l =>
      if x.ok ∧ (a = .slot → s.slot = none) then (s.park l a, .swapping f (some (l, a)))
      else (s, .failed none)
    | none => (s, .failed none)
  | .swapping f parked =>
    if x.ok ∧ s.dest = none then
      ({ s.put f.tree .dest with dest := some f.tree, aside := none },
        match parked with
        | some (l, .superseded) => .dropping f l
        | _ => .recording f)
    else
      match parked with
      | some (l, a) => (s, .restoring l a)
      | none => (s, .failed none)
  | .restoring l .slot =>
    match s.slot with
    | some y =>
      if x.ok ∧ s.dest = none then
        ({ s.put y .dest with slot := none, dest := some y, aside := none }, .failed (some (l, true)))
      else (s, .failed (some (l, false)))
    | none => (s, .failed (some (l, false)))
  | .restoring l .superseded =>
    if x.ok ∧ s.dest = none ∧ s.place l = .superseded then
      ({ s.put l .dest with dest := some l, aside := none, pending := none }, .failed (some (l, true)))
    else (s, .failed (some (l, false)))
  | .dropping f l =>
    if x.ok then
      match s.slot with
      | some y => (s, .discarding f l y)
      | none => (s, .reparking f l)
    else ({ s with pending := none }, .recording f)
  | .discarding f l kept => ({ s.put l (.lost (.dropped kept)) with pending := none }, .recording f)
  | .reparking f l =>
    if x.ok ∧ s.slot = none then
      ({ s.put l .slot with slot := some l, pending := none }, .recording f)
    else ({ s with pending := none }, .recording f)
  | .recording f => if x.ok then (s, .write ⟨f.gen, none⟩ .locking) else (s, .failed none)
  | .failed _ => ({ s with aside := none, pending := none }, .releasing none)
  | .write w k => writeStep t s x w k
  | .releasing declared => ({ s with reserved := none }, .over declared)
  | .pinned p =>
    match s.dest with
    -- The API refuses an empty pack.
    | some q => if x.ok ∧ s.world q = true then (s, .packed p q) else (s, .over none)
    | none => (s, .over none)
  | .packed p q =>
    if x.ok then (s.publish q, .write ⟨s.store + 1, some (p, q)⟩ .locking) else (s, .over none)
  | .gating p q declared =>
    if x.ok ∧ s.dest = some p then (s, .sweep (.tail p q declared) .claiming) else (s, .over declared)
  | .sweep v k => sweepStep t s x v k
  | .packing =>
    match s.dest with
    | some q => if x.ok ∧ s.world q = true then (s.publish q, .finalLeftovers) else (s, .releasing none)
    | none => (s, .releasing none)
  | .finalLeftovers => (s.sweepLeftovers x.keep, .removing)
  | .removing =>
    (match s.dest with
      | some d => if x.ok then { s.put d (.lost .scratch) with dest := none } else s
      | none => s, .sweep .final .claiming)
  | p => (s, p)

def Pc.rests : Pc → Bool
  | .idle => true
  | .over _ => true
  | _ => false

def pre (s : State) (p : Thread) : Action → Prop
  | .hydrate => p.pc = .idle
  | .snapshot => p.pc = .idle
  | .final => p.pc = .idle
  | .step _ => p.boot = s.boot ∧ p.pc.rests = false
  | .play => s.reserved = none
  | .publish => True
  | .crash => True
  | .reclaim _ => s.booting = true

/-- A command begins. -/
def State.begin (s : State) : State := { s with booting := false }

/-- `reserve`, of an id that nobody else holds. -/
def State.reserve (t : ℕ) (s : State) (p : Pc) : State × Pc :=
  if s.reserved = none then ({ s with reserved := some t }, p) else (s, .over none)

def post (t : ℕ) (s : State) (p : Thread) : Action → State × Thread
  | .hydrate => ((s.begin.reserve t .leftovers).1, ⟨s.boot, (s.begin.reserve t .leftovers).2⟩)
  | .final => ((s.begin.reserve t .packing).1, ⟨s.boot, (s.begin.reserve t .packing).2⟩)
  | .snapshot =>
    match s.dest with
    | some d => (s.begin, ⟨s.boot, .pinned d⟩)
    | none => (s.begin, ⟨s.boot, .over none⟩)
  | .step x => ((advance t s x p.pc).1, ⟨s.boot, (advance t s x p.pc).2⟩)
  | .play =>
    match s.dest with
    | some d => ({ s with world := Function.update s.world d true }, p)
    | none => (s, p)
  | .publish => ({ s with store := s.store + 1 }, p)
  | .crash =>
    ({ s with
        boot := s.boot + 1
        booting := true
        reserved := none
        lock := none
        claim := none
        detached := none
        aside := none
        pending := none }, p)
  | .reclaim keep => (s.reclaim keep, p)

def threads : Threads State Thread Action := ⟨fun _ => pre, post⟩

instance (s : State) (p : Thread) (a : Action) : Decidable (pre s p a) := by
  cases a <;> unfold pre <;> infer_instance

instance (t : ℕ) (s : State) (p : Thread) (a : Action) : Decidable (threads.pre t s p a) :=
  inferInstanceAs (Decidable (pre s p a))

abbrev Conf := Threads.Config State Thread

/-- A scratch root that holds nothing of the id. -/
def start : Conf :=
  ⟨⟨none, none, 0, fun _ => .unborn, fun _ => false, fun _ => none, [], 0, none, none, none, 0, false, 0,
    fun _ => 0, none, none, none, []⟩, fun _ => ⟨0, .idle⟩⟩

end McServerDashboard.Worker.Scratch
