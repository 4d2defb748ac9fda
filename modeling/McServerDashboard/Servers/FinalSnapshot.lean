import McServerDashboard.Dataplane.Publish
import McServerDashboard.Servers.Entities

/-!
# Final snapshots and at-rest mutations

One server: the stops that take its final snapshot, the starts that hydrate a Worker, the
snapshots that the Workers upload, and the mutations of the authoritative copy that are allowed
while the row is at rest. The uploads and the writes of the store take the steps of
`Dataplane.uploads`; a mutation holds the lifecycle lock around its own.

* `Server`: the row, the flows and the working sets, with ghost counts of the mutations.
* `Act`, `server`: the steps and their interleavings.
* `Act.refusesForMutation`: the refusal of an upload as stale that a mutation is the cause of.
-/

namespace McServerDashboard.Servers

open Lib Dataplane

/-- A Worker's working set: the generation recorded for it, and (ghost) how many of the server's
at-rest mutations are in it. -/
structure Scratch where
  base : ℕ
  seen : ℕ
  deriving DecidableEq

/-- A snapshot that a Worker is uploading: the working set it was packed from. -/
structure Upload where
  worker : WorkerId
  base : ℕ
  seen : ℕ
  final : Bool
  deriving DecidableEq

/-- Where the stop of the server stands. `StopConvergenceGuard` lets one flow run at a time. -/
inductive Flow
  | free
  /-- `desired=stopped` is recorded and the stop was sent to the Worker. -/
  | stopping (w : WorkerId)
  /-- The process is gone, the final snapshot is owed. -/
  | stopped (w : WorkerId)
  | snapshotting (w : WorkerId)
  /-- The final snapshot settled, the release is owed. -/
  | settled (w : WorkerId)
  deriving DecidableEq

/-- The server, with the state of the store that its uploads and mutations share. -/
structure Server where
  store : Store
  desired : DesiredState
  observed : ObservedState
  /-- The holder of the lifecycle lock. -/
  lifecycle : Option ℕ
  /-- A start placed on the Worker that did not hydrate it yet. -/
  starting : Option WorkerId
  flow : Flow
  scratch : WorkerId → Option Scratch
  uploads : List (ℕ × Upload)
  /-- Ghost: the mutations that were written and marked. -/
  acked : ℕ
  /-- Ghost: the mutations that are in the live copy. -/
  seen : ℕ
  /-- Ghost: the generation of the last mutation. -/
  mutated : ℕ

inductive Act
  /-- A step of an upload or of a mutation at the store. -/
  | store (a : Dataplane.Step)
  /-- A committed upload ends and its Worker receives the answer. -/
  | answered
  /-- A mutation has the lifecycle lock and finds the row at rest. -/
  | beginEdit
  | endEdit
  /-- A start places the server. -/
  | place (w : WorkerId)
  /-- The placed Worker unpacks the live copy. -/
  | hydrate (w : WorkerId)
  /-- The placed Worker keeps the working set it holds. -/
  | skipHydrate (w : WorkerId) (sc : Scratch)
  /-- The start failed before it was sent. -/
  | compensate (w : WorkerId)
  /-- An operator stop. -/
  | stop (w : WorkerId)
  /-- The stop of a row that is already meant to be stopped. -/
  | redispatchStop (w : WorkerId)
  /-- The release of a row at rest that is still assigned, its final snapshot first. -/
  | clearStale (w : WorkerId)
  /-- The Worker reports the process gone; `applied` is whether the write of the row won. -/
  | confirm (w : WorkerId) (applied : Bool)
  /-- The final snapshot is dispatched and the Worker begins to upload it. -/
  | dispatch (w : WorkerId) (sc : Scratch)
  /-- The Worker holds no working set. -/
  | absent (w : WorkerId)
  /-- The result of the final snapshot, or the end of the Worker's session. -/
  | settle (w : WorkerId)
  | release (w : WorkerId)
  /-- The flow ends without a release. -/
  | giveUp
  /-- A periodic snapshot. -/
  | snapshot (w : WorkerId) (sc : Scratch)
  | report (o : ObservedState)
  deriving DecidableEq

/-- May the stop end here without a release? -/
def Flow.mayGiveUp : Flow → Bool
  | stopping _ => true
  | stopped _ => true
  | settled _ => true
  | _ => false

/-- May thread `t` take this step at the store? A Worker whose working set is at generation 0
declares no base, and the pre-stream guard then asks for nothing else. -/
def storePre (t : ℕ) (s : Server) (p : Pc) : Dataplane.Step → Prop
  | .allow g => if g.base = 0 then p = .compared g else Dataplane.pre t s.store p (.allow g)
  | .readPublisher g => g.base ≠ 0 ∧ Dataplane.pre t s.store p (.readPublisher g)
  | .lockChange a => a = .edit ∧ s.lifecycle = some t ∧ Dataplane.pre t s.store p (.lockChange a)
  | .arrive _ _ => False
  | .lockPrune => False
  | .prune => False
  | .unlink => False
  | .dropPublisher => False
  | .assign _ => False
  | a => Dataplane.pre t s.store p a

/-- May thread `t` take the action? -/
def pre (t : ℕ) (s : Server) (p : Pc) : Act → Prop
  | .store a => storePre t s p a
  | .answered => p = .unlocking ∧ (s.uploads.lookup t).isSome
  | .beginEdit => p = .idle ∧ s.lifecycle = none ∧ isAtRest s.desired s.observed
  | .endEdit => s.lifecycle = some t ∧ (p = .idle ∨ p = .over)
  -- `update_lifecycle(expected_from=STOPPED, require_unassigned)`, under the lifecycle lock.
  | .place _ => s.lifecycle = none ∧ s.desired = .stopped ∧ s.store.assigned = none
  | .hydrate w => s.starting = some w ∧ s.store.lock = none
  | .skipHydrate w sc =>
    s.starting = some w ∧ s.store.lock = none ∧ s.scratch w = some sc ∧ s.store.marker.generation ≤ sc.base
  | .compensate w => s.starting = some w
  | .stop w => s.flow = .free ∧ s.desired = .running ∧ s.store.assigned = some w
  | .redispatchStop w => s.flow = .free ∧ s.desired = .stopped ∧ s.store.assigned = some w
  | .clearStale w =>
    s.flow = .free ∧ isAtRest s.desired s.observed ∧ s.store.assigned = some w
  | .confirm w _ => s.flow = .stopping w
  | .dispatch w sc => s.flow = .stopped w ∧ s.scratch w = some sc ∧ p = .idle
  | .absent w => s.flow = .stopped w ∧ s.scratch w = none
  | .settle w => s.flow = .snapshotting w
  | .release w => s.flow = .settled w
  | .giveUp => s.flow.mayGiveUp
  | .snapshot w sc =>
    s.desired = .running ∧ s.store.assigned = some w ∧ s.starting = none ∧ s.scratch w = some sc ∧ p = .idle
  | .report _ => True

/-- What a step at the store does to the ghost counts. -/
def Server.count (s : Server) (t : ℕ) : Dataplane.Step → Server
  | .flip _ _ => { s with seen := ((s.uploads.lookup t).map Upload.seen).getD s.seen }
  | .change _ => { s with seen := s.acked + 1 }
  | .markChange _ => { s with acked := s.acked + 1, mutated := s.store.marker.generation + 1 }
  -- A mutation that failed before its marker is not acknowledged.
  | .fail => { s with seen := min s.seen s.acked }
  | _ => s

/-- The uploads but the one of thread `t`. -/
def Server.without (s : Server) (t : ℕ) : List (ℕ × Upload) := s.uploads.filter fun x => x.1 ≠ t

/-- A step of thread `t` at the store. -/
def Server.take (s : Server) (t : ℕ) (p : Pc) (a : Dataplane.Step) : Server × Pc :=
  let r := Dataplane.post t s.store p a
  ({ s.count t a with store := r.1, uploads := if r.2 = .over then s.without t else s.uploads }, r.2)

/-- The Worker receives the answer to a published upload: it removes the working set after its
final snapshot, and records the new generation otherwise. -/
def Upload.received (k : Upload) (generation : ℕ) (sc : Option Scratch) : Option Scratch :=
  if k.final then none else sc.map fun sc => { sc with base := generation }

/-- The server and the thread's position after the action. -/
def post (t : ℕ) (s : Server) (p : Pc) : Act → Server × Pc
  | .store a => s.take t p a
  | .answered =>
    match s.uploads.lookup t with
    | some k =>
      let sc := k.received s.store.marker.generation (s.scratch k.worker)
      ({ s with
          store := { s.store with lock := none }
          uploads := s.without t
          scratch := Function.update s.scratch k.worker sc }, .over)
    | none => (s, p)
  | .beginEdit => ({ s with lifecycle := some t }, p)
  | .endEdit => ({ s with lifecycle := none }, .over)
  | .place w =>
    ({ s with
        desired := .running
        starting := some w
        store := { s.store with assigned := some w } }, p)
  | .hydrate w =>
    ({ s with
        starting := none
        scratch := Function.update s.scratch w (some ⟨s.store.marker.generation, s.seen⟩) }, p)
  | .skipHydrate _ _ => ({ s with starting := none }, p)
  | .compensate _ =>
    -- `update_lifecycle(expected_from=RUNNING)`.
    if s.desired = .running then
      ({ s with desired := .stopped, starting := none, store := { s.store with assigned := none } }, p)
    else ({ s with starting := none }, p)
  | .stop w => ({ s with desired := .stopped, flow := .stopping w }, p)
  | .redispatchStop w => ({ s with flow := .stopping w }, p)
  | .clearStale w => ({ s with flow := .stopped w }, p)
  | .confirm w applied =>
    -- `record_observed_state(expected_worker)`.
    if applied ∧ s.store.assigned = some w then ({ s with observed := .stopped, flow := .stopped w }, p)
    else ({ s with flow := .stopped w }, p)
  | .dispatch w sc =>
    ({ s with flow := .snapshotting w, uploads := (t, ⟨w, sc.base, sc.seen, true⟩) :: s.uploads },
      .arrived w sc.base)
  | .absent w => ({ s with flow := .settled w }, p)
  | .settle w => ({ s with flow := .settled w }, p)
  | .release w =>
    -- `clear_assignment_after_final_snapshot`.
    if s.desired = .stopped ∧ s.store.assigned = some w then
      ({ s with flow := .free, store := { s.store with assigned := none } }, p)
    else ({ s with flow := .free }, p)
  | .giveUp => ({ s with flow := .free }, p)
  | .snapshot w sc =>
    ({ s with uploads := (t, ⟨w, sc.base, sc.seen, false⟩) :: s.uploads }, .arrived w sc.base)
  | .report o => ({ s with observed := o }, p)

instance (t : ℕ) (s : Server) (p : Pc) (a : Dataplane.Step) : Decidable (storePre t s p a) := by
  induction a using Dataplane.Step.casesOn <;> (dsimp only [storePre]; infer_instance)

instance (t : ℕ) (s : Server) (p : Pc) (a : Act) : Decidable (pre t s p a) := by
  cases a <;> (unfold pre; infer_instance)

/-- The server's flows. -/
def server : Threads Server Pc Act := ⟨pre, post⟩

instance (t : ℕ) (s : Server) (p : Pc) (a : Act) : Decidable (server.pre t s p a) :=
  inferInstanceAs (Decidable (pre t s p a))

/-- A new server: never published, at rest, on no Worker. -/
def Server.new : Server where
  store := .empty
  desired := .stopped
  observed := .stopped
  lifecycle := none
  starting := none
  flow := .free
  scratch _ := none
  uploads := []
  acked := 0
  seen := 0
  mutated := 0

def start : Threads.Config Server Pc := ⟨.new, fun _ => .idle⟩

/-- The step refuses the upload as stale, and a mutation after the generation that the upload is
compared by is the cause: at the guard, one after the declared base; at the commit, one after the
generation that the guard read. -/
def Act.refusesForMutation (s : Server) : Act → Prop
  | .store (.readAssigned g) => s.store.assigned ≠ some g.worker ∧ g.base < s.mutated
  | .store (.lockCommit g) =>
    s.store.marker.generation ≠ g.generation ∧ g.generation < s.mutated
  | _ => False

instance (s : Server) (a : Act) : Decidable (a.refusesForMutation s) := by
  unfold Act.refusesForMutation
  split <;> infer_instance

/-- The assigned Worker, if there is one, holds no working set of the server. -/
def Server.assignedIsClean (s : Server) : Bool :=
  match s.store.assigned with
  | none => true
  | some w => s.scratch w = none

/-- The condition on a step: a mutation is written only while no snapshot of the server is being
uploaded and the assigned Worker holds no working set, and a server is stopped only when no start
is between its placement and its hydrate. -/
def Apart (c : Threads.Config Server Pc) (x : ℕ × Act) : Prop :=
  match x.2 with
  | .store (.change _) => c.shared.uploads = [] ∧ c.shared.assignedIsClean
  | .stop _ => c.shared.starting = none
  | _ => True

instance (c : Threads.Config Server Pc) (x : ℕ × Act) : Decidable (Apart c x) := by
  unfold Apart
  split <;> infer_instance

end McServerDashboard.Servers
