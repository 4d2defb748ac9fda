import Mathlib.Logic.Function.Basic
import Mathlib.Data.Nat.Notation
import Mathlib.Data.List.Nodup
import McServerDashboard.Lib.Run

/-!
# Commands, their callers and the sessions they ride on

* `ControlPlane`: the state that the servicer and the callers share; one definition for each of its methods.
* `machine`: sessions, callers and results in any order.
* **`commands_settled`**: a result is consumed once, an old session's end touches no command of the new one, and no
  record outlives the sessions of its Worker.
-/

namespace McServerDashboard.Fleet.ControlPlane

open Lib

abbrev WorkerId := ℕ
abbrev ServerId := ℕ
abbrev CommandId := ℕ
abbrev SessionToken := ℕ
abbrev QueueId := ℕ

/-- A `CommandResult`: `code` is the text of its error code. -/
structure CommandResult where
  success : Bool
  message : String
  code : String
  deriving DecidableEq

/-- `_failure_detail`. -/
def failureDetail (result : CommandResult) : Option String :=
  if result.success then none else some (if result.message = "" then result.code else result.message)

/-- A future; a result stands with the Worker that reported it. -/
inductive Future
  | pending
  | result (w : WorkerId) (r : CommandResult)
  | failed
  | cancelled
  deriving DecidableEq

def Future.done (f : Future) : Bool := f ≠ .pending

/-- Where the task that awaits a future stands. -/
inductive Caller
  | waiting
  /-- A timeout or a cancellation is due at its next step. -/
  | cancelling
  | returned (r : CommandResult)
  | raised
  deriving DecidableEq

/-- Who consumes the result of a command. -/
inductive Consumer
  | caller (r : CommandResult)
  /-- `clear_held_assignment_on_late_snapshot`. -/
  | lateSink (s : ServerId) (succeeded : Bool) (message : Option String)
  deriving DecidableEq

/-- A result that is consumed, and the Worker that reported it. -/
structure Consumption where
  command : CommandId
  reporter : WorkerId
  consumer : Consumer
  deriving DecidableEq

/-- What is known of a command that has been dispatched. -/
structure Dispatch where
  worker : WorkerId
  /-- The session that was current (a ghost). -/
  session : SessionToken
  /-- The result is only logged. -/
  fireAndForget : Bool
  deriving DecidableEq

/-- Where the handler of a `Session` stands. -/
inductive Handler
  | registered (w : WorkerId)
  | serving (w : WorkerId) (q : QueueId)
  | ended
  deriving DecidableEq

/-- `ControlPlaneState`, the futures, the queues, and the tasks around them. -/
structure State where
  outbound : WorkerId → Option QueueId
  sessions : WorkerId → Option SessionToken
  pending : CommandId → Option WorkerId
  snapshotServers : CommandId → Option (WorkerId × ServerId)
  lateSnapshots : CommandId → Option (WorkerId × ServerId)
  latestOpened : WorkerId → Option SessionToken
  future : CommandId → Future
  queue : QueueId → List CommandId
  nextQueue : QueueId
  caller : CommandId → Option Caller
  dispatched : CommandId → Option Dispatch
  handler : SessionToken → Option Handler
  consumed : List Consumption

def init : State where
  outbound _ := none
  sessions _ := none
  pending _ := none
  snapshotServers _ := none
  lateSnapshots _ := none
  latestOpened _ := none
  future _ := .pending
  queue _ := []
  nextQueue := 0
  caller _ := none
  dispatched _ := none
  handler _ := none
  consumed := []

namespace State

variable (st : State)

/-- `_retire_worker_commands`. -/
def retireWorkerCommands (w : WorkerId) : State :=
  { st with
    pending := fun c => if st.pending c = some w then none else st.pending c
    snapshotServers := fun c => if st.pending c = some w then none else st.snapshotServers c
    future := fun c => if st.pending c = some w ∧ !(st.future c).done then .failed else st.future c
    lateSnapshots := fun c => if (st.lateSnapshots c).map (·.1) = some w then none else st.lateSnapshots c }

/-- `session < self._latest_opened.get(worker_id, session)`. -/
def stale (w : WorkerId) (s : SessionToken) : Prop := s < (st.latestOpened w).getD s

instance (w : WorkerId) (s : SessionToken) : Decidable (st.stale w s) := inferInstanceAs (Decidable (_ < _))

/-- `open_session`, of a session that is not stale. -/
def openSession (w : WorkerId) (s : SessionToken) : State :=
  let st := { st with latestOpened := Function.update st.latestOpened w (some s) }
  let st := st.retireWorkerCommands w
  { st with
    outbound := Function.update st.outbound w (some st.nextQueue)
    sessions := Function.update st.sessions w (some s)
    nextQueue := st.nextQueue + 1 }

/-- `close_session`. -/
def closeSession (w : WorkerId) (q : QueueId) : State :=
  if st.outbound w = some q then
    { st with outbound := Function.update st.outbound w none, sessions := Function.update st.sessions w none }
  else st

/-- `register_pending`. -/
def registerPending (c : CommandId) (w : WorkerId) (snapshotServer : Option ServerId) : State :=
  { st with
    pending := Function.update st.pending c (some w)
    future := Function.update st.future c .pending
    snapshotServers := match snapshotServer with
      | some s => Function.update st.snapshotServers c (some (w, s))
      | none => st.snapshotServers }

/-- `discard_pending`. -/
def discardPending (c : CommandId) : State :=
  { st with
    pending := Function.update st.pending c none
    snapshotServers := Function.update st.snapshotServers c none
    lateSnapshots := match st.snapshotServers c with
      | some snapshot => Function.update st.lateSnapshots c (some snapshot)
      | none => st.lateSnapshots }

/-- `_clear_on_late_snapshot`. -/
def clearOnLateSnapshot (c : CommandId) (w : WorkerId) (r : CommandResult) : State :=
  match st.lateSnapshots c with
  | none => st
  | some (dispatchedWorker, s) =>
    if dispatchedWorker ≠ w then st
    else
      { st with
        lateSnapshots := Function.update st.lateSnapshots c none
        consumed := ⟨c, w, .lateSink s r.success (failureDetail r)⟩ :: st.consumed }

/-- `resolve`. -/
def resolve (c : CommandId) (w : WorkerId) (r : CommandResult) : State :=
  match st.pending c with
  | none => st.clearOnLateSnapshot c w r
  | some owner =>
    if owner ≠ w then st
    else
      let popped := { st with
        pending := Function.update st.pending c none
        snapshotServers := Function.update st.snapshotServers c none }
      if !(st.future c).done then { popped with future := Function.update st.future c (.result w r) }
      else match st.snapshotServers c with
        | some snapshot =>
          if st.future c = .cancelled then
            { popped with lateSnapshots := Function.update st.lateSnapshots c (some snapshot) }.clearOnLateSnapshot c w r
          else popped
        | none => popped

/-- `fail_worker_pending`. -/
def failWorkerPending (w : WorkerId) (s : SessionToken) : State :=
  if st.sessions w ≠ some s then st else st.retireWorkerCommands w

/-- `discard_if_stale`: what it leaves. -/
def discardIfStale (c : CommandId) : State :=
  if (st.pending c).isSome then st else { st with lateSnapshots := Function.update st.lateSnapshots c none }

/-- `_teardown`, as far as the commands go. -/
def teardown (s : SessionToken) : State :=
  match st.handler s with
  | some (.serving w q) =>
    { (st.failWorkerPending w s).closeSession w q with handler := Function.update st.handler s (some .ended) }
  | some (.registered w) => { st.failWorkerPending w s with handler := Function.update st.handler s (some .ended) }
  | _ => st

/-- `dispatch` up to its await, with `outbound_for` not `None`. -/
def dispatch (c : CommandId) (w : WorkerId) (q : QueueId) (session : SessionToken) (snapshotServer : Option ServerId)
    (fireAndForget : Bool) : State :=
  let st := st.registerPending c w snapshotServer
  { st with
    queue := Function.update st.queue q (st.queue q ++ [c])
    caller := Function.update st.caller c (some .waiting)
    dispatched := Function.update st.dispatched c (some ⟨w, session, fireAndForget⟩) }

/-- The task is cancelled, or its timeout fires: the future it waits for is cancelled, unless it is done. -/
def cancel (c : CommandId) : State :=
  { st with
    future := if (st.future c).done then st.future else Function.update st.future c .cancelled
    caller := Function.update st.caller c (some .cancelling) }

/-- The task goes on past its await. -/
def resume (c : CommandId) : State :=
  match st.caller c with
  | some .waiting =>
    match st.future c with
    | .result w r =>
      { st with
        caller := Function.update st.caller c (some (.returned r))
        consumed := ⟨c, w, .caller r⟩ :: st.consumed }
    | _ =>
      let st := if (st.dispatched c).any (·.fireAndForget) then st.discardPending c else st
      { st with caller := Function.update st.caller c (some .raised) }
  | some .cancelling =>
    let st := st.discardPending c
    { st with caller := Function.update st.caller c (some .raised) }
  | _ => st

end State

/-! ## Interleavings -/

inductive Action
  /-- A handler has registered its Worker. -/
  | register (s : SessionToken) (w : WorkerId)
  | openSession (s : SessionToken)
  | teardown (s : SessionToken)
  | dispatch (c : CommandId) (w : WorkerId) (snapshotServer : Option ServerId) (fireAndForget : Bool)
  /-- The timeout of a caller, or its cancellation. -/
  | cancel (c : CommandId)
  | resume (c : CommandId)
  /-- The handler of a session takes the next command off its queue. -/
  | send (s : SessionToken)
  /-- A result, of any command and from any Worker. -/
  | result (c : CommandId) (w : WorkerId) (r : CommandResult)
  deriving DecidableEq

def pre (st : State) : Action → Prop
  | .register s _ => st.handler s = none
  | .openSession s => match st.handler s with
    | some (.registered w) => ¬st.stale w s
    | _ => False
  | .teardown s => st.handler s ≠ none ∧ st.handler s ≠ some .ended
  -- A command id is a new UUID.
  | .dispatch c w _ _ => st.dispatched c = none ∧ (st.outbound w).isSome
  | .cancel c => st.caller c = some .waiting
  | .resume c => st.caller c = some .cancelling ∨ st.caller c = some .waiting ∧ (st.future c).done
  | .send s => match st.handler s with
    | some (.serving _ q) => st.queue q ≠ []
    | _ => False
  | .result _ _ _ => True

def post (st : State) : Action → State
  | .register s w => { st with handler := Function.update st.handler s (some (.registered w)) }
  | .openSession s => match st.handler s with
    | some (.registered w) =>
      { st.openSession w s with handler := Function.update st.handler s (some (.serving w st.nextQueue)) }
    | _ => st
  | .teardown s => st.teardown s
  | .dispatch c w snapshotServer fireAndForget => match st.outbound w, st.sessions w with
    | some q, some s => st.dispatch c w q s snapshotServer fireAndForget
    | _, _ => st
  | .cancel c => st.cancel c
  | .resume c => st.resume c
  | .send s => match st.handler s with
    | some (.serving _ q) => match st.queue q with
      | c :: rest => { st with queue := Function.update st.queue q rest }.discardIfStale c
      | [] => st
    | _ => st
  | .result c w r => st.resolve c w r

def machine : Machine State Action := ⟨pre, post⟩

instance (st : State) (a : Action) : Decidable (machine.pre st a) := by
  cases a <;> simp only [machine, pre] <;> (try split) <;> infer_instance

/-! ## What every state keeps -/

variable {st : State} {c : CommandId} {w : WorkerId} {s : SessionToken} {q : QueueId} {r : CommandResult}

/-- No result of the command has been consumed. -/
def State.Unconsumed (st : State) (c : CommandId) : Prop := ∀ x ∈ st.consumed, x.command ≠ c

/-- The command was sent to the Worker. -/
def State.SentTo (st : State) (c : CommandId) (w : WorkerId) : Prop := (st.dispatched c).map (·.worker) = some w

/-- The command was sent to the Worker by the session that is its current one. -/
def State.Live (st : State) (c : CommandId) (w : WorkerId) : Prop :=
  st.SentTo c w ∧ st.sessions w = (st.dispatched c).map (·.session)

structure Inv (st : State) : Prop where
  /-- A current session is being served, on the current queue. -/
  serving : ∀ w s, st.sessions w = some s → ∃ q, st.outbound w = some q ∧ st.handler s = some (.serving w q)
  outbound : ∀ w, (st.outbound w).isSome → (st.sessions w).isSome
  queue_lt : ∀ s w q, st.handler s = some (.serving w q) → q < st.nextQueue
  queue_inj : ∀ s s' w w' q, st.handler s = some (.serving w q) → st.handler s' = some (.serving w' q) → s = s'
  pending : ∀ c w, st.pending c = some w → st.Live c w ∧ st.Unconsumed c ∧ (st.future c = .pending ∨ st.future c = .cancelled)
  snapshot : ∀ c w s, st.snapshotServers c = some (w, s) → st.pending c = some w
  late : ∀ c w s, st.lateSnapshots c = some (w, s) → st.pending c = none ∧ st.Live c w ∧ st.Unconsumed c ∧
    ∀ w r, st.future c ≠ .result w r
  result : ∀ c w r, st.future c = .result w r → st.SentTo c w ∧ (st.caller c = some .waiting → st.Unconsumed c)
  waiting : ∀ c, st.caller c = some .waiting → st.future c ≠ .cancelled
  cancelling : ∀ c, st.caller c = some .cancelling → st.future c ≠ .pending
  nodup : (st.consumed.map (·.command)).Nodup
  owner : ∀ x ∈ st.consumed, st.SentTo x.command x.reporter

theorem inv_init : Inv init := by
  constructor <;> simp [init]

theorem Inv.retire (h : Inv st) (w : WorkerId) : Inv (st.retireWorkerCommands w) := by
  obtain ⟨h1, h2, h3, h4, h5, h6, h7, h8, h9, h10, h11, h12⟩ := h
  constructor <;> simp only [State.retireWorkerCommands, State.Live, State.SentTo, State.Unconsumed, Future.done] at * <;> grind -linarith

theorem Inv.discardPending (h : Inv st) (c : CommandId) (hc : st.future c ≠ .pending) : Inv (st.discardPending c) := by
  obtain ⟨h1, h2, h3, h4, h5, h6, h7, h8, h9, h10, h11, h12⟩ := h
  unfold State.discardPending
  split
  · next snapshot hs =>
    obtain ⟨w, s⟩ := snapshot
    constructor <;> simp only [State.Live, State.SentTo, State.Unconsumed, Function.update_apply] at * <;> grind -linarith
  · constructor <;> simp only [State.Live, State.SentTo, State.Unconsumed, Function.update_apply] at * <;> grind -linarith

theorem Inv.clearOnLateSnapshot (h : Inv st) : Inv (st.clearOnLateSnapshot c w r) := by
  simp only [State.clearOnLateSnapshot]
  split
  · exact h
  · next dispatchedWorker s hl =>
    split_ifs with hw
    · exact h
    · obtain ⟨h1, h2, h3, h4, h5, h6, h7, h8, h9, h10, h11, h12⟩ := h
      constructor <;> simp only [State.Live, State.SentTo, State.Unconsumed, Function.update_apply] at * <;> grind -linarith

/-- The command is no longer pending. -/
theorem Inv.pop (h : Inv st) : Inv { st with
    pending := Function.update st.pending c none, snapshotServers := Function.update st.snapshotServers c none } := by
  obtain ⟨h1, h2, h3, h4, h5, h6, h7, h8, h9, h10, h11, h12⟩ := h
  constructor <;> simp only [State.Live, State.SentTo, State.Unconsumed, Function.update_apply] at * <;> grind -linarith

/-- Its future has the result. -/
theorem Inv.popDone (h : Inv st) (hp : st.pending c = some w) (hd : (!(st.future c).done) = true) : Inv { st with
    pending := Function.update st.pending c none, snapshotServers := Function.update st.snapshotServers c none,
    future := Function.update st.future c (.result w r) } := by
  obtain ⟨h1, h2, h3, h4, h5, h6, h7, h8, h9, h10, h11, h12⟩ := h
  constructor <;> simp only [State.Live, State.SentTo, State.Unconsumed, Function.update_apply, Future.done] at * <;> grind -linarith

/-- Its caller has given up, and a late result clears the snapshot. -/
theorem Inv.popLate {snapshot : WorkerId × ServerId} (h : Inv st) (hp : st.pending c = some w)
    (hs : st.snapshotServers c = some snapshot) (hd : ¬(!(st.future c).done) = true)
    (hcancelled : st.future c = .cancelled) : Inv { st with
      pending := Function.update st.pending c none, snapshotServers := Function.update st.snapshotServers c none,
      lateSnapshots := Function.update st.lateSnapshots c (some snapshot) } := by
  obtain ⟨w', s⟩ := snapshot
  obtain ⟨h1, h2, h3, h4, h5, h6, h7, h8, h9, h10, h11, h12⟩ := h
  constructor <;> simp only [State.Live, State.SentTo, State.Unconsumed, Function.update_apply] at * <;> grind -linarith

theorem Inv.resolve (h : Inv st) : Inv (st.resolve c w r) := by
  simp only [State.resolve]
  split
  · exact h.clearOnLateSnapshot
  · next owner hp =>
    by_cases hw : owner ≠ w
    · rwa [if_pos hw]
    rw [if_neg hw]
    obtain rfl : owner = w := not_not.mp hw
    by_cases hd : !(st.future c).done
    · rw [if_pos hd]
      exact h.popDone hp hd
    · rw [if_neg hd]
      split
      · next snapshot hs =>
        split_ifs with hcancelled
        · exact (h.popLate hp hs hd hcancelled).clearOnLateSnapshot
        · exact h.pop
      · exact h.pop

theorem Inv.openSession (h : Inv st) (hs : st.handler s = some (.registered w)) :
    Inv { st.openSession w s with handler := Function.update st.handler s (some (.serving w st.nextQueue)) } := by
  have hretire : ∀ c, (st.retireWorkerCommands w).pending c ≠ some w ∧
      ∀ s, (st.retireWorkerCommands w).lateSnapshots c ≠ some (w, s) := by
    intro c
    simp only [State.retireWorkerCommands]
    grind -linarith
  obtain ⟨h1, h2, h3, h4, h5, h6, h7, h8, h9, h10, h11, h12⟩ := h.retire w
  constructor <;> simp only [State.openSession, State.retireWorkerCommands, State.Live, State.SentTo, State.Unconsumed, Function.update_apply] at * <;> grind -linarith

/-- The end of the current session. -/
theorem teardown_current (h : Inv st) (hs : st.handler s = some (.serving w q)) (hcurrent : st.sessions w = some s) :
    st.teardown s = { st.retireWorkerCommands w with
      outbound := Function.update st.outbound w none
      sessions := Function.update st.sessions w none
      handler := Function.update st.handler s (some .ended) } := by
  obtain ⟨q', hq', hs'⟩ := h.serving w s hcurrent
  obtain rfl : q = q' := by
    rw [hs, Option.some.injEq, Handler.serving.injEq] at hs'
    exact hs'.2
  have hout : (st.retireWorkerCommands w).outbound w = some q := hq'
  simp only [State.teardown, hs, State.failWorkerPending, hcurrent, ne_eq, not_true_eq_false, if_false, State.closeSession,
    hout, if_true]
  rfl

/-- **The end of a superseded session** changes nothing but its handler. -/
theorem teardown_superseded (h : Inv st) (hs : st.handler s = some (.serving w q)) (hcurrent : st.sessions w ≠ some s) :
    st.teardown s = { st with handler := Function.update st.handler s (some .ended) } := by
  have hout : st.outbound w ≠ some q := by
    intro hq
    obtain ⟨s', hs'⟩ := Option.isSome_iff_exists.mp (h.outbound w (by simp [hq]))
    obtain ⟨q', hq', hserving⟩ := h.serving w s' hs'
    rw [hq, Option.some.injEq] at hq'
    rw [← hq'] at hserving
    exact hcurrent (h.queue_inj _ _ _ _ _ hs hserving ▸ hs')
  simp only [State.teardown, hs, State.failWorkerPending, ne_eq, hcurrent, not_false_eq_true, if_true, State.closeSession,
    hout, if_false]

/-- A session that ends before it opens has no commands. -/
theorem teardown_registered (h : Inv st) (hs : st.handler s = some (.registered w)) :
    st.teardown s = { st with handler := Function.update st.handler s (some .ended) } := by
  have hcurrent : st.sessions w ≠ some s := by
    intro hcurrent
    obtain ⟨q, -, hserving⟩ := h.serving w s hcurrent
    rw [hs] at hserving
    cases hserving
  simp only [State.teardown, hs, State.failWorkerPending, ne_eq, hcurrent, not_false_eq_true, if_true]

/-- The handler of a session that is not current ends. -/
theorem Inv.ended (h : Inv st) (hs : ∀ w, st.sessions w ≠ some s) :
    Inv { st with handler := Function.update st.handler s (some .ended) } := by
  obtain ⟨h1, h2, h3, h4, h5, h6, h7, h8, h9, h10, h11, h12⟩ := h
  constructor <;> simp only [State.Live, State.SentTo, State.Unconsumed, Function.update_apply] at * <;> grind -linarith

/-- A session is current for the Worker it serves only. -/
theorem Inv.current (h : Inv st) {w' : WorkerId} (hs : st.handler s = some (.serving w q)) (hw : st.sessions w' = some s) :
    w' = w := by
  obtain ⟨q', -, hserving⟩ := h.serving w' s hw
  rw [hs, Option.some.injEq, Handler.serving.injEq] at hserving
  exact hserving.1.symm

theorem Inv.teardown (h : Inv st) : Inv (st.teardown s) := by
  cases hs : st.handler s with
  | none => simpa only [State.teardown, hs] using h
  | some handler =>
    cases handler with
    | registered w =>
      rw [teardown_registered h hs]
      refine h.ended fun w' hw => ?_
      obtain ⟨q, -, hserving⟩ := h.serving w' s hw
      rw [hs] at hserving
      cases hserving
    | serving w q =>
      by_cases hcurrent : st.sessions w = some s
      · rw [teardown_current h hs hcurrent]
        have hretire : ∀ c, (st.retireWorkerCommands w).pending c ≠ some w ∧
            ∀ s, (st.retireWorkerCommands w).lateSnapshots c ≠ some (w, s) := by
          intro c
          simp only [State.retireWorkerCommands]
          grind -linarith
        have hcur : ∀ w', st.sessions w' = some s → w' = w := fun _ => h.current hs
        obtain ⟨h1, h2, h3, h4, h5, h6, h7, h8, h9, h10, h11, h12⟩ := h.retire w
        constructor <;> simp only [State.retireWorkerCommands, State.Live, State.SentTo, State.Unconsumed,
          Function.update_apply] at * <;> grind -linarith
      · rw [teardown_superseded h hs hcurrent]
        exact h.ended fun w' hw => hcurrent (h.current hs hw ▸ hw)
    | ended => simpa only [State.teardown, hs] using h

theorem Inv.dispatch {snapshotServer : Option ServerId} {fireAndForget : Bool} (h : Inv st)
    (hc : st.dispatched c = none) (hs : st.sessions w = some s) :
    Inv (st.dispatch c w q s snapshotServer fireAndForget) := by
  obtain ⟨h1, h2, h3, h4, h5, h6, h7, h8, h9, h10, h11, h12⟩ := h
  cases snapshotServer with
  | none => constructor <;> simp only [State.dispatch, State.registerPending, State.Live, State.SentTo, State.Unconsumed, Function.update_apply] at * <;> grind -linarith
  | some s =>
    constructor <;> simp only [State.dispatch, State.registerPending, State.Live, State.SentTo, State.Unconsumed, Function.update_apply] at * <;> grind -linarith

theorem Inv.cancel (h : Inv st) : Inv (st.cancel c) := by
  obtain ⟨h1, h2, h3, h4, h5, h6, h7, h8, h9, h10, h11, h12⟩ := h
  constructor <;> simp only [State.cancel, State.Live, State.SentTo, State.Unconsumed, Function.update_apply,
    Future.done] at * <;> grind -linarith

/-- A task that is over waits for nothing. -/
theorem Inv.raised (h : Inv st) : Inv { st with caller := Function.update st.caller c (some .raised) } := by
  obtain ⟨h1, h2, h3, h4, h5, h6, h7, h8, h9, h10, h11, h12⟩ := h
  constructor <;> simp only [State.Live, State.SentTo, State.Unconsumed, Function.update_apply] at * <;> grind -linarith

theorem Inv.resume (h : Inv st) (hc : st.caller c = some .waiting → (st.future c).done) : Inv (st.resume c) := by
  simp only [State.resume]
  split
  · next hw =>
    split
    · next w r hf =>
      obtain ⟨h1, h2, h3, h4, h5, h6, h7, h8, h9, h10, h11, h12⟩ := h
      constructor <;> simp only [State.Live, State.SentTo, State.Unconsumed, Function.update_apply] at * <;> grind -linarith
    · have hdone : st.future c ≠ .pending := by simpa [Future.done] using hc hw
      have hdiscard := h.discardPending c hdone
      split_ifs
      · exact hdiscard.raised
      · exact h.raised
  · next hcancelling => exact (h.discardPending c (h.cancelling c hcancelling)).raised
  · exact h

theorem Inv.send (h : Inv st) {rest : List CommandId} :
    Inv ({ st with queue := Function.update st.queue q rest }.discardIfStale c) := by
  obtain ⟨h1, h2, h3, h4, h5, h6, h7, h8, h9, h10, h11, h12⟩ := h
  simp only [State.discardIfStale]
  split_ifs
  · constructor <;> assumption
  · constructor <;> simp only [State.Live, State.SentTo, State.Unconsumed, Function.update_apply] at * <;> grind -linarith

theorem Inv.register (h : Inv st) (hs : st.handler s = none) :
    Inv { st with handler := Function.update st.handler s (some (.registered w)) } := by
  obtain ⟨h1, h2, h3, h4, h5, h6, h7, h8, h9, h10, h11, h12⟩ := h
  constructor <;> simp only [State.Live, State.SentTo, State.Unconsumed, Function.update_apply] at * <;> grind -linarith

theorem Inv.step (h : Inv st) (a : Action) (hpre : pre st a) : Inv (post st a) := by
  cases a with
  | register s w => exact h.register hpre
  | openSession s =>
    simp only [post]
    split
    · next w hs => exact h.openSession hs
    · exact h
  | teardown s => exact h.teardown
  | dispatch c w snapshotServer fireAndForget =>
    simp only [post]
    split
    · next q s _ hs => exact h.dispatch hpre.1 hs
    · exact h
  | cancel c => exact h.cancel
  | resume c =>
    refine h.resume fun hw => ?_
    rcases hpre with hc | hc
    · rw [hw] at hc
      cases hc
    · exact hc.2
  | send s =>
    simp only [post]
    split
    · split
      · exact h.send
      · exact h
    · exact h
  | result c w r => exact h.resolve

theorem inv_of_reach (h : machine.Reach Machine.Any init st) : Inv st :=
  h.invariant inv_init fun _ a hu hpre _ => hu.step a hpre

/-! ## The results -/

/-- The end of a session leaves the commands of the others as they are. -/
theorem teardown_frame {d : Dispatch} (h : Inv st) (hd : st.dispatched c = some d) (hne : d.session ≠ s) :
    (st.teardown s).future c = st.future c ∧ (st.teardown s).pending c = st.pending c ∧
      (st.teardown s).snapshotServers c = st.snapshotServers c ∧ (st.teardown s).lateSnapshots c = st.lateSnapshots c ∧
      (st.teardown s).caller c = st.caller c := by
  cases hs : st.handler s with
  | none => simp [State.teardown, hs]
  | some handler =>
    cases handler with
    | registered w => simp [teardown_registered h hs]
    | serving w q =>
      by_cases hcurrent : st.sessions w = some s
      · have hlive : ¬st.Live c w := by
          rintro ⟨-, hsession⟩
          rw [hcurrent, hd, Option.map_some, Option.some.injEq] at hsession
          exact hne hsession.symm
        have hpending : st.pending c ≠ some w := fun hp => hlive (h.pending c w hp).1
        have hlate : (st.lateSnapshots c).map (·.1) ≠ some w := by
          intro hl
          obtain ⟨⟨w', s'⟩, hrecord, rfl⟩ := Option.map_eq_some_iff.mp hl
          exact hlive (h.late c _ _ hrecord).2.1
        simp [teardown_current h hs hcurrent, State.retireWorkerCommands, hpending, hlate]
      · simp [teardown_superseded h hs hcurrent]
    | ended => simp [State.teardown, hs]

/-- Nothing is kept of the command. -/
def State.Untracked (st : State) (c : CommandId) (w : WorkerId) : Prop :=
  st.pending c ≠ some w ∧ ∀ s, st.snapshotServers c ≠ some (w, s) ∧ st.lateSnapshots c ≠ some (w, s)

/-- **Commands and their results**, whatever the order of sessions, callers and results.

* No command has two results consumed, and what is consumed was reported by the Worker that the command was sent to.
* The end of a session touches no command that another session has dispatched.
* Where no session of a Worker is open, nothing is kept of its commands. -/
theorem commands_settled (h : machine.Reach Machine.Any init st) :
    ((∀ c, (st.consumed.filter (·.command = c)).length ≤ 1) ∧
      ∀ x ∈ st.consumed, (st.dispatched x.command).map (·.worker) = some x.reporter) ∧
    (∀ s, machine.pre st (.teardown s) → ∀ c d, st.dispatched c = some d → d.session ≠ s →
      let st' := machine.post st (.teardown s)
      st'.future c = st.future c ∧ st'.pending c = st.pending c ∧ st'.snapshotServers c = st.snapshotServers c ∧
        st'.lateSnapshots c = st.lateSnapshots c ∧ st'.caller c = st.caller c) ∧
    ∀ w, (∀ s q, st.handler s ≠ some (.serving w q)) → ∀ c, st.Untracked c w := by
  have hinv := inv_of_reach h
  refine ⟨⟨fun c => ?_, hinv.owner⟩, fun s _ c d hd hne => teardown_frame hinv hd hne, fun w hw c => ?_⟩
  · have hcount : (st.consumed.filter (·.command = c)).length = (st.consumed.map (·.command)).count c := by
      rw [List.count, List.countP_map, List.countP_eq_length_filter]
      rfl
    rw [hcount]
    exact List.nodup_iff_count_le_one.mp hinv.nodup c
  · have hnone : st.sessions w = none := by
      by_contra hsome
      obtain ⟨s, hs⟩ := Option.ne_none_iff_exists'.mp hsome
      obtain ⟨q, -, hserving⟩ := hinv.serving w s hs
      exact hw s q hserving
    have hlive : ¬st.Live c w := by
      rintro ⟨hsent, hsession⟩
      obtain ⟨d, hd, -⟩ := Option.map_eq_some_iff.mp hsent
      rw [hnone, hd] at hsession
      cases hsession
    have hpending : st.pending c ≠ some w := fun hp => hlive (hinv.pending c w hp).1
    exact ⟨hpending, fun s => ⟨fun hs => hpending (hinv.snapshot c w s hs), fun hl => hlive (hinv.late c w s hl).2.1⟩⟩

/-- A final snapshot whose caller is cancelled; the wrong Worker and then the right one report its result, and the
session ends. -/
def lateRun : List Action :=
  [.register 0 7, .openSession 0, .dispatch 1 7 (some 5) false, .dispatch 2 7 none false, .cancel 1, .resume 1,
    .result 1 8 ⟨true, "", "ok"⟩, .result 1 7 ⟨true, "", "ok"⟩, .register 1 7, .openSession 1, .dispatch 3 7 none true,
    .resume 2, .teardown 0, .result 3 7 ⟨true, "", "ok"⟩, .resume 3, .teardown 1]

theorem commands_settled_lateRun : ∃ st, machine.Reach Machine.Any init st ∧
    st.consumed = [⟨3, 7, .caller ⟨true, "", "ok"⟩⟩, ⟨1, 7, .lateSink 5 true none⟩] ∧
    (∀ c, (st.consumed.filter (·.command = c)).length ≤ 1) ∧
    ∀ w, (∀ s q, st.handler s ≠ some (.serving w q)) → ∀ c, st.Untracked c w := by
  have hrun : (machine.exec lateRun init).map (·.consumed) =
      some [⟨3, 7, .caller ⟨true, "", "ok"⟩⟩, ⟨1, 7, .lateSink 5 true none⟩] := by decide +kernel
  obtain ⟨st, hreach, hconsumed⟩ := Machine.reach_of_exec_map hrun
  exact ⟨st, hreach, hconsumed, (commands_settled hreach).1.1, (commands_settled hreach).2.2⟩

end McServerDashboard.Fleet.ControlPlane
