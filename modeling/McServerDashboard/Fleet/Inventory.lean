import McServerDashboard.Lib.Locks
import McServerDashboard.Lib.Threads

/-!
# The held-generation inventory

Launches and snapshots of one server, on the API and on its Workers. The API keeps, for each Worker,
the generation of the working set the Worker holds, and skips the hydrate of a launch when that is
no older than the store.

Each thread is one command flow of the API (`Flow`) together with the Worker's handling of the
command it sent (`Job`), which goes on when the flow gives up. A Worker runs the commands of one
stream one at a time; those of a dropped stream may still be running beside them.

The answer to a command may be taken up at any later time, also when its session is long superseded.
-/

namespace McServerDashboard.Fleet

open Lib

abbrev WorkerId := ℕ

/-- A generation of the store; `0` is that of a server never published. -/
abbrev Generation := ℕ

/-- What there is of the server at one Worker. -/
structure Worker where
  /-- The number of its current stream to the API. -/
  stream : ℕ
  /-- An instance is registered. -/
  running : Bool
  /-- The command that holds the id's reservation. -/
  reserved : Option ℕ
  /-- The generation the reserved hydrate has downloaded and not yet swapped in. -/
  pulled : Option Generation
  /-- The identity of the directory at the working-dir path. -/
  dir : ℕ
  /-- The generation its tree was last hydrated from or published as (a ghost). -/
  tree : Generation
  /-- The generation marker in that directory. -/
  marker : Option Generation
  /-- The `Register` messages sent: the stream and the marker it advertises. -/
  adverts : List (ℕ × Option Generation)

/-- The store's settled generation, the Workers, and what the API keeps of each. -/
structure Inventory where
  store : Generation
  worker : WorkerId → Worker
  /-- The command a lane of a stream is at. -/
  lane : Locks (WorkerId × ℕ)
  /-- `_held`. -/
  held : WorkerId → Option Generation
  /-- The stream whose session is open. -/
  session : WorkerId → Option ℕ

/-! ## Positions -/

inductive Command
  | hydrate
  | snapshot
  /-- `skipped` is the store generation for which the hydrate was skipped. -/
  | start (skipped : Option Generation)
  deriving DecidableEq

/-- A command's answer. -/
inductive Answer
  /-- Success, with the generation the Worker declares it holds. -/
  | ok (declared : Option Generation)
  /-- The working set the launch relies on is not there. -/
  | absent
  | failed
  deriving DecidableEq

/-- Where an API flow stands. -/
inductive Flow
  | idle
  /-- `StartServer`, or `redispatch_start` with the store generation its caller has read. -/
  | assigned (w : WorkerId) (given : Option Generation)
  | sawHeld (w : WorkerId) (held given : Option Generation)
  /-- `_generation_before_hydrate`. -/
  | beforeHydrate (w : WorkerId)
  | toHydrate (w : WorkerId) (read : Option Generation)
  | hydrating (w : WorkerId) (read : Option Generation)
  | toStart (w : WorkerId) (skipped : Option Generation)
  | starting (w : WorkerId) (skipped : Option Generation)
  | toSnapshot (w : WorkerId)
  | snapshotting (w : WorkerId)
  | «over»
  deriving DecidableEq

/-- Where the Worker stands with the command; `σ` is the stream the command came by. -/
inductive Job
  | none
  | queued (w : WorkerId) (σ : ℕ) (cmd : Command)
  /-- A hydrate: reserved, downloaded `g`, swapped in. -/
  | pulling (w : WorkerId) (σ : ℕ)
  | pulled (w : WorkerId) (g : Generation)
  | swapped (w : WorkerId) (g : Generation)
  /-- A snapshot of the running id that packs directory `d`; not `live` once abandoned at its
  deadline. -/
  | packing (w : WorkerId) (σ d : ℕ) (live : Bool)
  | published (w : WorkerId) (σ d : ℕ) (g : Generation) (live : Bool)
  | uploaded (w : WorkerId) (d : ℕ) (g : Generation) (live : Bool)
  /-- A snapshot of the stopped id. -/
  | atRest (w : WorkerId)
  | atRestPublished (w : WorkerId)
  | launching (w : WorkerId) (skipped : Option Generation)
  /-- The instance was booted from a tree of generation `g`. -/
  | launched (skipped : Option Generation) (g : Generation)
  | answered (a : Answer)
  deriving DecidableEq

structure Pos where
  flow : Flow
  job : Job
  deriving DecidableEq

inductive Action
  /-- A launch is due on `w`; `given` says that the reconciler has read the store's generation. -/
  | launch (w : WorkerId) (given : Bool)
  /-- `place_and_start`: a placement that always hydrates. -/
  | place (w : WorkerId)
  | snapshot (w : WorkerId)
  /-- The flow's next step; `ok` is the outcome of a read that can fail. -/
  | api (ok : Bool)
  /-- The caller is cancelled, the answer is waited for too long, or the session ends. -/
  | giveUp
  /-- The Worker's next step; `ok` is the outcome of a step that can go either way. -/
  | work (ok : Bool)
  /-- The command fails on the Worker, or its answer is due before its body ends. -/
  | fault
  /-- The instance exits. -/
  | exit (w : WorkerId)
  /-- The Worker opens its next stream and advertises its marker. -/
  | reconnect (w : WorkerId)
  /-- `register` of a `Register` message, whichever reaches the API next. -/
  | register (w : WorkerId) (n : ℕ)
  /-- `open_session`. -/
  | openSession (w : WorkerId) (n : ℕ)
  /-- An at-rest edit, a first file or a restore. -/
  | edit
  deriving DecidableEq

/-! ## Steps -/

def Inventory.setWorker (s : Inventory) (w : WorkerId) (x : Worker) : Inventory :=
  { s with worker := Function.update s.worker w x }

/-- `record_held_generation`; `none` records nothing. -/
def Inventory.record (s : Inventory) (w : WorkerId) (g : Option Generation) : Inventory :=
  match g with
  | none => s
  | some g => { s with held := Function.update s.held w (some g) }

/-- `skip_hydrate`. -/
def skipHydrate (held : Option Generation) (store : Generation) : Bool := held.any (store ≤ ·)

/-- The command goes to the open session's stream, if there is one. -/
def Inventory.dispatch (s : Inventory) (w : WorkerId) (cmd : Command) (next : Flow) : Inventory × Pos :=
  match s.session w with
  | none => (s, ⟨.over, .none⟩)
  | some σ => (s, ⟨next, .queued w σ cmd⟩)

/-- The next step of a flow, which for one that waits takes up the answer. -/
def advanceApi (s : Inventory) (ok : Bool) (p : Pos) : Inventory × Pos :=
  match p.flow with
  | .assigned w given => (s, { p with flow := .sawHeld w (s.held w) given })
  | .sawHeld w held given =>
    let store := given.getD s.store
    if skipHydrate held store then (s, { p with flow := .toStart w (some store) })
    else (s, { p with flow := .beforeHydrate w })
  | .beforeHydrate w => (s, { p with flow := .toHydrate w (if ok then some s.store else none) })
  | .toHydrate w read => s.dispatch w .hydrate (.hydrating w read)
  | .hydrating w read =>
    match p.job with
    | .answered (.ok declared) =>
      -- The declared generation, or the one read before the transfer.
      (s.record w (declared <|> read), { p with flow := .toStart w none })
    | _ => (s, { p with flow := .over })
  | .toStart w skipped => s.dispatch w (.start skipped) (.starting w skipped)
  | .starting w skipped =>
    match p.job with
    | .answered .absent =>
      -- The refusal of a launch that skipped its hydrate is replayed with one.
      if skipped.isSome then (s, { p with flow := .beforeHydrate w })
      else (s, { p with flow := .over })
    | _ => (s, { p with flow := .over })
  | .toSnapshot w => s.dispatch w .snapshot (.snapshotting w)
  | .snapshotting w =>
    match p.job with
    | .answered (.ok declared) => (s.record w declared, { p with flow := .over })
    | _ => (s, { p with flow := .over })
  | .idle => (s, p)
  | .over => (s, p)

/-- A flow that waits does so for an answer. -/
def canAdvanceApi (p : Pos) : Bool :=
  match p.flow with
  | .hydrating _ _ | .starting _ _ | .snapshotting _ =>
    match p.job with
    | .answered _ => true
    | .launched _ _ => true
    | _ => false
  | .idle => false
  | .over => false
  | _ => true

/-- The command of `t` is answered: its lane goes on. -/
def Inventory.answer (s : Inventory) (t : ℕ) (j : Job) : Inventory × Job := ({ s with lane := s.lane.release t }, j)

/-- The command of `t` is answered and gives the reservation of `w` back. -/
def Inventory.finish (s : Inventory) (t : ℕ) (w : WorkerId) (j : Job) : Inventory × Job :=
  (s.setWorker w { s.worker w with reserved := none, pulled := none }).answer t j

/-- The Worker begins with a queued command. -/
def beginJob (t : ℕ) (s : Inventory) (w : WorkerId) (σ : ℕ) (cmd : Command) : Inventory × Job :=
  let x := s.worker w
  let s := { s with lane := s.lane.take t (w, σ) }
  let reserve (j : Job) : Inventory × Job :=
    -- `reserve`: refused while an instance is registered or another command has the id.
    if x.running || x.reserved.isSome then s.answer t (.answered .failed)
    else (s.setWorker w { x with reserved := some t }, j)
  match cmd with
  | .hydrate => reserve (.pulling w σ)
  | .start skipped => reserve (.launching w skipped)
  | .snapshot => if x.running then (s, .packing w σ x.dir true) else reserve (.atRest w)

/-- The store publishes what `w` uploads; the tree is what was published while it is still at the
path. -/
def Inventory.publish (s : Inventory) (w : WorkerId) (d : ℕ) : Inventory :=
  let x := s.worker w
  { s.setWorker w { x with tree := if x.dir = d then s.store + 1 else x.tree } with
    store := s.store + 1 }

/-- The next step of the Worker. -/
def advanceWork (t : ℕ) (s : Inventory) (ok : Bool) : Job → Inventory × Job
  | .queued w σ cmd => beginJob t s w σ cmd
  | .pulling w _ =>
    (s.setWorker w { s.worker w with pulled := some s.store }, .pulled w s.store)
  | .pulled w g =>
    let x := s.worker w
    if g = 0 && ok then
      -- Nothing is published: the marker is all that is written.
      (s.setWorker w { x with marker := some 0, pulled := none }, .swapped w g)
    else
      (s.setWorker w { x with dir := x.dir + 1, tree := g, marker := some g, pulled := none },
        .swapped w g)
  -- `recordGeneration`, whose write may fail.
  | .swapped w g => s.finish t w (.answered (.ok (if ok then some g else none)))
  | .packing w σ d live => (s.publish w d, .published w σ d (s.store + 1) live)
  | .published w _ d g live => (s, .uploaded w d g live)
  | .uploaded w d g live =>
    let x := s.worker w
    -- `recordGenerationIfUnchanged`.
    if x.dir = d && ok then
      let s := s.setWorker w { x with marker := some g }
      if live then s.answer t (.answered (.ok (some g))) else (s, .answered .failed)
    else if live then s.answer t (.answered (.ok none)) else (s, .answered .failed)
  | .atRest w => (s.publish w (s.worker w).dir, .atRestPublished w)
  | .atRestPublished w =>
    let x := s.worker w
    -- `removeScratch`, which an abandoned body skips.
    let s := if ok then s.setWorker w { x with dir := x.dir + 1, marker := none } else s
    s.finish t w (.answered (.ok none))
  | .launching w skipped =>
    let x := s.worker w
    match x.marker with
    | none => s.finish t w (.answered .absent)
    | some _ =>
      (s.setWorker w { x with running := true }).finish t w (.launched skipped x.tree)
  | j => (s, j)

/-- The Worker's next step can be taken: the lane is free, and a transfer's stream is up. -/
def canWork (t : ℕ) (s : Inventory) : Job → Prop
  | .queued w σ _ => σ ≤ (s.worker w).stream ∧ s.lane.Free t (w, σ)
  | .pulling w σ => (s.worker w).stream = σ
  | .published w σ _ _ live => live = true ∧ (s.worker w).stream = σ
  | .none => False
  | .launched _ _ => False
  | .answered _ => False
  | _ => True

/-- A failure, and the deadline of a snapshot of the running id, whose body goes on. -/
def faultWork (t : ℕ) (s : Inventory) : Job → Inventory × Job
  | .pulling w _ => s.finish t w (.answered .failed)
  | .pulled w _ => s.finish t w (.answered .failed)
  | .packing w σ d _ => s.answer t (.packing w σ d false)
  | .published w σ d g _ => s.answer t (.published w σ d g false)
  | .uploaded w d g _ => s.answer t (.uploaded w d g false)
  | .atRest w => s.finish t w (.answered .failed)
  | .launching w _ => s.finish t w (.answered .failed)
  | j => (s, j)

instance (t : ℕ) (s : Inventory) (j : Job) : Decidable (canWork t s j) := by
  cases j <;> unfold canWork <;> infer_instance

def threadPre (t : ℕ) (s : Inventory) (p : Pos) : Action → Prop
  | .launch _ _ => p.flow = .idle
  | .place _ => p.flow = .idle
  | .snapshot _ => p.flow = .idle
  | .api _ => canAdvanceApi p = true
  | .giveUp => True
  | .work _ => canWork t s p.job
  | .fault => True
  | .exit _ => True
  | .reconnect _ => True
  | .register w n => n < (s.worker w).adverts.length
  | .openSession w n => n < (s.worker w).adverts.length
  | .edit => True

def threadPost (t : ℕ) (s : Inventory) (p : Pos) : Action → Inventory × Pos
  | .launch w given =>
    (s, { p with flow := .assigned w (if given then some s.store else none) })
  | .place w => (s, { p with flow := .beforeHydrate w })
  | .snapshot w => (s, { p with flow := .toSnapshot w })
  | .api ok => advanceApi s ok p
  | .giveUp => (s, { p with flow := .over })
  | .work ok => ((advanceWork t s ok p.job).1, { p with job := (advanceWork t s ok p.job).2 })
  | .fault => ((faultWork t s p.job).1, { p with job := (faultWork t s p.job).2 })
  | .exit w => (s.setWorker w { s.worker w with running := false }, p)
  | .reconnect w =>
    let x := s.worker w
    (s.setWorker w
      { x with stream := x.stream + 1, adverts := (x.stream + 1, x.marker) :: x.adverts }, p)
  | .register w n =>
    ({ s with held := Function.update s.held w ((s.worker w).adverts[n]?.bind (·.2)) }, p)
  | .openSession w n =>
    ({ s with session := Function.update s.session w ((s.worker w).adverts[n]?.map (·.1)) }, p)
  | .edit => ({ s with store := s.store + 1 }, p)

instance (t : ℕ) (s : Inventory) (p : Pos) (a : Action) : Decidable (threadPre t s p a) := by
  cases a <;> unfold threadPre <;> infer_instance

def threads : Threads Inventory Pos Action := ⟨threadPre, threadPost⟩

instance (t : ℕ) (s : Inventory) (p : Pos) (a : Action) : Decidable (threads.pre t s p a) :=
  inferInstanceAs (Decidable (threadPre t s p a))

abbrev Conf := Threads.Config Inventory Pos

/-- Nothing published, nothing held, no Worker connected. -/
def start : Conf :=
  ⟨⟨0, fun _ => ⟨0, false, none, none, 0, 0, none, []⟩, fun _ => none, fun _ => none,
    fun _ => none⟩, fun _ => ⟨.idle, .none⟩⟩

end McServerDashboard.Fleet
