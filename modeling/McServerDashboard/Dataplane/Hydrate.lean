import Mathlib.Algebra.BigOperators.Group.List.Basic
import Mathlib.Algebra.GroupWithZero.Nat
import McServerDashboard.Lib.Run

/-!
# The transfer permits of hydrate requests

`hydrate_working_set` takes a permit of the transfer semaphore before it awaits anything else, and
hands it to the body of the response: an async generator that releases it in its `finally` block.
Once the handler has returned, the body is in the hands of the server, which may advance it, close
it, or drop it. Snapshot uploads share the semaphore and hold a permit for an `async with` block.

* `hydrateWorkingSet`: the handler, for every end of the calls it awaits.
* `Body.advance`, `Body.close`: an async generator. One that was never advanced has no `finally`
  block to run.
* `transfers`: the requests of one process, in any order of their steps.
* `owing_step`: one step keeps the sum of the free permits and of those that are owed.
* **`settled_iff`**: every permit comes back exactly once iff no body that carries one was closed
  before it was first advanced.
-/

namespace McServerDashboard.Dataplane.Hydrate

open Lib

/-- The bytes of one chunk of a body. -/
abbrev Chunk := List UInt8

/-! ## Bodies -/

/-- Where the frame of an async generator stands. -/
inductive Frame
  | fresh
  /-- Inside the `try` block, at a `yield`. -/
  | suspended
  | finished
  deriving DecidableEq

/-- The body iterator of a response. -/
structure Body where
  /-- Is the iterator wrapped in `_releasing`? -/
  releasing : Bool
  /-- The chunks that the wrapped iterator still has to give. -/
  inner : List Chunk
  frame : Frame := .fresh
  deriving DecidableEq

/-- `_empty`. -/
def empty : Body := ⟨false, [], .fresh⟩

/-- `_releasing`: release the permit when the iteration ends. -/
def releasing (inner : List Chunk) : Body := ⟨true, inner, .fresh⟩

namespace Body

/-- The calls of `release` in the `finally` block. -/
def finalizer (b : Body) : ℕ := if b.releasing then 1 else 0

/-- `__anext__`, with the number of releases. The iterator inside may raise, and the task may be
cancelled while it waits for the chunk; both leave the `try` block, as the last chunk does. -/
def advance (b : Body) (raises : Bool) : Body × ℕ :=
  match b.frame, b.inner with
  | .finished, _ => (b, 0)
  | _, [] => ({ b with frame := .finished }, b.finalizer)
  | _, _ :: inner =>
    if raises then ({ b with frame := .finished }, b.finalizer)
    else ({ b with inner := inner, frame := .suspended }, 0)

/-- The number of releases of `aclose()`, whether the response calls it or the event loop does
once nothing refers to the generator any more. -/
def close (b : Body) : ℕ := if b.frame = .suspended then b.finalizer else 0

/-- Closing the body now loses its permit. -/
def Unopened (b : Body) : Prop := b.releasing ∧ b.frame = .fresh

instance (b : Body) : Decidable b.Unopened := inferInstanceAs (Decidable (_ ∧ _))

end Body

/-! ## The handler -/

/-- What an awaited call may raise: `NotFoundError`, or anything else, a cancellation included. -/
inductive Raised
  | notFound
  | other
  deriving DecidableEq

/-- A primed stream: its first chunk, the others, and the generation of the leased snapshot. -/
structure Primed where
  first : Chunk
  rest : List Chunk
  generation : ℕ
  deriving DecidableEq

/-- A streaming response. -/
structure Response where
  status : ℕ := 200
  mediaType : String := "application/x-tar"
  headers : List (String × String)
  /-- Has each send a deadline (`_DeadlineStreamingResponse`)? -/
  deadline : Bool := false
  body : Body
  deriving DecidableEq

/-- `_JAR_RELPATH`. -/
def jarRelpath : String := "server.jar"

/-- The headers of every hydrate response. -/
def hydrateHeaders (generation : ℕ) : List (String × String) :=
  [("X-Working-Set-Generation", toString generation), ("Cache-Control", "no-store")]

/-- `_single_member_tar`: the member and two zero blocks. -/
def singleMemberTar (member : Chunk) : List Chunk := [member, List.replicate (512 * 2) 0]

/-- `_prime`: the first chunk is replayed. -/
def Primed.replay (p : Primed) : List Chunk := p.first :: p.rest

/-- `_with_jar_member`. -/
def withJarMember (workingSet : List Chunk) (jarMember : Chunk) : List Chunk := jarMember :: workingSet

/-- `hydrate_working_set` once it holds a permit, with the number of releases it makes. `jar` is
how the lookup of the jar member ends, `source` what priming the hydrate source without the
excluded names gives. -/
def hydrateWorkingSet (jar : Except Raised (Option Chunk)) (source : List String → Except Raised Primed) :
    Except Raised Response × ℕ :=
  match jar with
  | .error e => (.error e, 1)
  | .ok jarMember =>
    let exclude := if jarMember.isSome then [jarRelpath] else []
    match source exclude with
    | .error .notFound =>
      match jarMember with
      | none => (.ok { status := 204, headers := hydrateHeaders 0, body := empty }, 1)
      | some member => (.ok { headers := hydrateHeaders 0, body := releasing (singleMemberTar member) }, 0)
    | .error .other => (.error .other, 1)
    | .ok primed =>
      let headers := hydrateHeaders primed.generation
      match jarMember with
      | none => (.ok { headers := headers, deadline := true, body := releasing primed.replay }, 0)
      | some member =>
        (.ok { headers := headers, deadline := true, body := releasing (withJarMember primed.replay member) }, 0)

/-! ## Requests -/

/-- The two routes that take a permit. -/
inductive Route
  | hydrate
  | snapshot
  deriving DecidableEq

/-- Where a request stands. -/
inductive Phase
  /-- In `acquire`. -/
  | waiting
  /-- The permit is taken, and the handler runs. -/
  | handling
  /-- The handler has returned, and the server has the response. -/
  | responding (r : Response)
  | ended
  deriving DecidableEq

/-- A request. -/
structure Request where
  route : Route
  phase : Phase := .waiting
  /-- Ghost: has it taken a permit? -/
  acquired : Bool := false
  /-- Ghost: how often it has released one. -/
  released : ℕ := 0
  /-- Ghost: was its body closed unopened? -/
  unopened : Bool := false
  deriving DecidableEq

/-- The steps of a request that has arrived. -/
inductive Move
  /-- The task is cancelled while it waits for a permit. -/
  | cancel
  /-- The handler of a hydrate request ends. -/
  | handle (jar : Except Raised (Option Chunk)) (source : List String → Except Raised Primed)
  /-- The `async with` block of a snapshot upload is left, in whatever way. -/
  | publish
  /-- The server asks the body for a chunk. -/
  | advance (raises : Bool)
  /-- The response is over or given up: a send failed or stalled, the task was cancelled, or the
  response was never sent at all. -/
  | close

namespace Request

/-- One step of a request, with the number of releases it makes. -/
def move (q : Request) : Move → Option (Request × ℕ)
  | .cancel => if q.phase = .waiting then some ({ q with phase := .ended }, 0) else none
  | .handle jar source =>
    if q.route = .hydrate ∧ q.phase = .handling then
      match hydrateWorkingSet jar source with
      | (.ok r, n) => some ({ q with phase := .responding r }, n)
      | (.error _, n) => some ({ q with phase := .ended }, n)
    else none
  | .publish =>
    if q.route = .snapshot ∧ q.phase = .handling then some ({ q with phase := .ended }, 1) else none
  | .advance raises =>
    match q.phase with
    | .responding r =>
      if (r.body.advance raises).1.frame = .finished then
        some ({ q with phase := .ended }, (r.body.advance raises).2)
      else some ({ q with phase := .responding { r with body := (r.body.advance raises).1 } }, (r.body.advance raises).2)
    | _ => none
  | .close =>
    match q.phase with
    | .responding r => some ({ q with phase := .ended, unopened := r.body.Unopened }, r.body.close)
    | _ => none

/-- `n` releases are made on behalf of the request. -/
def credit (q : Request) (n : ℕ) : Request := { q with released := q.released + n }

/-- The permits that it has taken and still owes. -/
def owed (q : Request) : ℕ := if q.acquired ∧ q.released = 0 then 1 else 0

end Request

/-! ## The process -/

/-- The semaphore and all the requests so far. -/
structure Transfers where
  permits : ℕ
  requests : List Request := []

/-- The steps of the process. -/
inductive Step
  | arrive (route : Route)
  | acquire (i : ℕ)
  | move (i : ℕ) (m : Move)

namespace Transfers

/-- What the step `m` of request `i` gives. -/
def moved (s : Transfers) (i : ℕ) (m : Move) : Option (Request × ℕ) := s.requests[i]?.bind (·.move m)

end Transfers

/-- The interleavings of any number of requests. -/
def transfers : Machine Transfers Step where
  pre s a := match a with
    | .arrive _ => True
    | .acquire i => 0 < s.permits ∧ s.requests[i]?.map Request.phase = some .waiting
    | .move i m => (s.moved i m).isSome = true
  post s a := match a with
    | .arrive route => { s with requests := s.requests ++ [{ route := route }] }
    | .acquire i => match s.requests[i]? with
      | some q =>
        { permits := s.permits - 1, requests := s.requests.set i { q with phase := .handling, acquired := true } }
      | none => s
    | .move i m => match s.moved i m with
      | some (q, n) => { permits := s.permits + n, requests := s.requests.set i (q.credit n) }
      | none => s

instance (s : Transfers) (a : Step) : Decidable (transfers.pre s a) :=
  match a with
  | .arrive _ => isTrue trivial
  | .acquire _ => inferInstanceAs (Decidable (_ ∧ _))
  | .move _ _ => inferInstanceAs (Decidable (_ = true))

/-- The process before its first request. -/
def Transfers.start (permits : ℕ) : Transfers := ⟨permits, []⟩

/-- Does closing the body of the request now lose a permit? -/
def Request.Leaks (q : Request) : Prop :=
  match q.phase with
  | .responding r => r.body.Unopened
  | _ => False

instance (q : Request) : Decidable q.Leaks := by
  unfold Request.Leaks
  split <;> infer_instance

/-- The step closes no body that carries a permit and was never advanced. -/
def Opens (s : Transfers) : Step → Prop
  | .move i .close => ∀ q ∈ s.requests[i]?, ¬ q.Leaks
  | _ => True

instance (s : Transfers) (a : Step) : Decidable (Opens s a) := by
  unfold Opens
  split <;> infer_instance

/-- All permits that were taken for at most `n` come back, each once. -/
structure Settled (n : ℕ) (s : Transfers) : Prop where
  /-- No request ever releases twice. -/
  atMostOnce : ∀ q ∈ s.requests, q.released ≤ 1
  /-- A request that has ended has released the permit it took. -/
  once : ∀ q ∈ s.requests, q.phase = .ended → q.released = if q.acquired then 1 else 0
  /-- With nothing in flight, all permits are free. -/
  idle : (∀ q ∈ s.requests, q.phase = .ended) → s.permits = n

/-! ## One request -/

/-- What holds of a request in each phase. -/
def Request.Ok (q : Request) : Prop :=
  match q.phase with
  | .waiting => q.acquired = false ∧ q.released = 0 ∧ q.unopened = false
  | .handling => q.acquired = true ∧ q.released = 0 ∧ q.unopened = false
  | .responding r => q.acquired = true ∧ r.body.finalizer + q.released = 1 ∧ q.unopened = false ∧
      r.body.frame ≠ .finished
  | .ended => (q.unopened = true → q.acquired = true) ∧
      q.released = if q.acquired = true ∧ q.unopened = false then 1 else 0

/-- **The handler releases the permit or hands it to a fresh body.** -/
theorem hydrateWorkingSet_settles (jar : Except Raised (Option Chunk)) (source : List String → Except Raised Primed) :
    match hydrateWorkingSet jar source with
    | (.ok r, k) => r.body.frame = .fresh ∧ r.body.finalizer + k = 1
    | (.error _, k) => k = 1 := by
  rcases jar with e | jarMember
  · rfl
  unfold hydrateWorkingSet
  dsimp only
  rcases source (if jarMember.isSome then [jarRelpath] else []) with (_ | _) | primed
  · cases jarMember <;> exact ⟨rfl, rfl⟩
  · rfl
  · cases jarMember <;> exact ⟨rfl, rfl⟩

theorem Body.advance_frame (b : Body) (raises : Bool) (hb : b.frame ≠ .finished) :
    (b.advance raises).2 = (if (b.advance raises).1.frame = .finished then b.finalizer else 0) ∧
      ((b.advance raises).1.frame ≠ .finished → (b.advance raises).1.finalizer = b.finalizer) := by
  obtain ⟨rel, inner, frame⟩ := b
  rcases frame with _ | _ | _
  · rcases inner with _ | ⟨c, inner⟩
    · exact ⟨rfl, fun _ => rfl⟩
    · cases raises <;> exact ⟨rfl, fun _ => rfl⟩
  · rcases inner with _ | ⟨c, inner⟩
    · exact ⟨rfl, fun _ => rfl⟩
    · cases raises <;> exact ⟨rfl, fun _ => rfl⟩
  · exact absurd rfl hb

namespace Request

variable {q q' : Request} {m : Move} {k : ℕ}

theorem owed_add_released (ha : q.acquired = true) (hr : q.released ≤ 1) : q.owed + q.released = 1 := by
  rcases Nat.le_one_iff_eq_zero_or_eq_one.mp hr with h0 | h1
  · rw [owed, if_pos ⟨ha, h0⟩, h0]
  · rw [owed, if_neg (by omega), h1]

/-- What a request owes less by a step, it has given back. -/
theorem owed_credit {p : Request} (ha : q.acquired = true) (hp : p.acquired = true) (hr : p.released = q.released)
    (hk : q.released + k ≤ 1) : (p.credit k).owed + k = q.owed := by
  have hbefore : q.owed + q.released = 1 := owed_add_released ha (by omega)
  have hafter : (p.credit k).owed + (p.released + k) = 1 := owed_add_released hp (by change p.released + k ≤ 1; omega)
  omega

/-- A request that holds a permit may end by giving it back. -/
theorem ok_ended (ha : q.acquired = true) (hu : q.unopened = false) (hr : q.released + k = 1) :
    (credit { q with phase := .ended } k).Ok ∧ (credit { q with phase := .ended } k).owed + k = q.owed := by
  refine ⟨⟨fun _ => ha, ?_⟩, owed_credit ha ha rfl (by omega)⟩
  change q.released + k = _
  rw [hr, if_pos ⟨ha, hu⟩]

/-- The permit of a request that has answered is with the body, or has been given back. -/
theorem ok_responding {r : Response} (ha : q.acquired = true) (hu : q.unopened = false)
    (hr : r.body.finalizer + (q.released + k) = 1) (hframe : r.body.frame ≠ .finished) :
    (credit { q with phase := .responding r } k).Ok ∧
      (credit { q with phase := .responding r } k).owed + k = q.owed :=
  ⟨⟨ha, hr, hu, hframe⟩, owed_credit ha ha rfl (by omega)⟩

/-- Closing a suspended body gives its permit back; closing a fresh one does not. -/
theorem ok_closed {r : Response} (ha : q.acquired = true) (hr : r.body.finalizer + q.released = 1)
    (hframe : r.body.frame ≠ .finished) :
    (credit { q with phase := .ended, unopened := r.body.Unopened } r.body.close).Ok ∧
      (credit { q with phase := .ended, unopened := r.body.Unopened } r.body.close).owed + r.body.close = q.owed := by
  have hle : r.body.close ≤ r.body.finalizer := by
    rw [Body.close]
    split_ifs
    · exact Nat.le_refl _
    · exact Nat.zero_le _
  refine ⟨⟨fun _ => ha, ?_⟩, owed_credit ha ha rfl (by omega)⟩
  change q.released + r.body.close = if q.acquired = true ∧ decide r.body.Unopened = false then 1 else 0
  by_cases hun : r.body.Unopened
  · have hfinalizer : r.body.finalizer = 1 := if_pos hun.1
    have hclose : r.body.close = 0 := if_neg (by rw [hun.2]; decide)
    rw [if_neg (by simp [hun]), hclose]
    omega
  · rw [if_pos ⟨ha, by simp [hun]⟩]
    rcases Bool.eq_false_or_eq_true r.body.releasing with hrel | hrel
    · have hsuspended : r.body.frame = .suspended := by
        cases hf : r.body.frame with
        | fresh => exact absurd ⟨hrel, hf⟩ hun
        | suspended => rfl
        | finished => exact absurd hf hframe
      rw [Body.close, if_pos hsuspended]
      omega
    · have hfinalizer : r.body.finalizer = 0 := by rw [Body.finalizer, hrel]; rfl
      omega

/-- **One step of a request** keeps the sum of what it owes and what it gives back. -/
theorem ok_move (h : q.Ok) (hm : q.move m = some (q', k)) :
    (q'.credit k).Ok ∧ (q'.credit k).owed + k = q.owed := by
  cases m with
  | cancel =>
    rw [move] at hm
    split_ifs at hm with hq
    obtain ⟨rfl, rfl⟩ := Prod.mk.inj (Option.some.inj hm)
    rw [Ok, hq] at h
    obtain ⟨ha, hr, hu⟩ := h
    simp [Ok, credit, owed, ha, hr, hu]
  | handle jar source =>
    rw [move] at hm
    split_ifs at hm with hq
    rw [Ok, hq.2] at h
    obtain ⟨ha, hr, hu⟩ := h
    have hsettles := hydrateWorkingSet_settles jar source
    split at hm
    · next r n hhandler =>
      rw [hhandler] at hsettles
      obtain ⟨rfl, rfl⟩ := Prod.mk.inj (Option.some.inj hm)
      refine ok_responding ha hu ?_ ?_
      · rw [hr, Nat.zero_add]
        exact hsettles.2
      · rw [hsettles.1]
        decide
    · next e n hhandler =>
      rw [hhandler] at hsettles
      obtain ⟨rfl, rfl⟩ := Prod.mk.inj (Option.some.inj hm)
      exact ok_ended ha hu (by rw [hr, Nat.zero_add]; exact hsettles)
  | publish =>
    rw [move] at hm
    split_ifs at hm with hq
    obtain ⟨rfl, rfl⟩ := Prod.mk.inj (Option.some.inj hm)
    rw [Ok, hq.2] at h
    exact ok_ended h.1 h.2.2 (by rw [h.2.1])
  | advance raises =>
    rw [move] at hm
    split at hm
    · next r hq =>
      rw [Ok, hq] at h
      obtain ⟨ha, hsum, hu, hframe⟩ := h
      obtain ⟨hcalls, hkeeps⟩ := r.body.advance_frame raises hframe
      split_ifs at hm with hfinished
      · obtain ⟨rfl, rfl⟩ := Prod.mk.inj (Option.some.inj hm)
        rw [if_pos hfinished] at hcalls
        exact ok_ended ha hu (by rw [hcalls]; omega)
      · obtain ⟨rfl, rfl⟩ := Prod.mk.inj (Option.some.inj hm)
        rw [if_neg hfinished] at hcalls
        refine ok_responding ha hu ?_ hfinished
        rw [hkeeps hfinished, hcalls]
        exact hsum
    · cases hm
  | close =>
    rw [move] at hm
    split at hm
    · next r hq =>
      obtain ⟨rfl, rfl⟩ := Prod.mk.inj (Option.some.inj hm)
      rw [Ok, hq] at h
      exact ok_closed h.1 h.2.1 h.2.2.2
    · cases hm

/-- Only closing an unopened body marks a request as such. -/
theorem unopened_move (hm : q.move m = some (q', k)) :
    q'.unopened = q.unopened ∨ m = .close ∧ q'.unopened = decide q.Leaks := by
  cases m with
  | cancel | publish =>
    rw [move] at hm
    split_ifs at hm
    obtain ⟨rfl, -⟩ := Prod.mk.inj (Option.some.inj hm)
    exact .inl rfl
  | handle jar source =>
    rw [move] at hm
    split_ifs at hm
    split at hm <;> obtain ⟨rfl, -⟩ := Prod.mk.inj (Option.some.inj hm) <;> exact .inl rfl
  | advance raises =>
    rw [move] at hm
    split at hm
    · split_ifs at hm <;> obtain ⟨rfl, -⟩ := Prod.mk.inj (Option.some.inj hm) <;> exact .inl rfl
    · cases hm
  | close =>
    rw [move] at hm
    split at hm
    · next r hresponding =>
      obtain ⟨rfl, -⟩ := Prod.mk.inj (Option.some.inj hm)
      refine .inr ⟨rfl, ?_⟩
      simp only [Leaks, hresponding]
    · cases hm

end Request

/-! ## All requests -/

/-- Replacing one element replaces its share of a sum. -/
theorem sum_map_set {α : Type*} (f : α → ℕ) {l : List α} {i : ℕ} {a : α} (h : l[i]? = some a) (b : α) :
    ((l.set i b).map f).sum + f a = (l.map f).sum + f b := by
  induction l generalizing i with
  | nil => cases h
  | cons c l ih =>
    cases i with
    | zero =>
      obtain rfl := Option.some.inj h
      simp only [List.set_cons_zero, List.map_cons, List.sum_cons]
      omega
    | succ i =>
      have := ih h
      simp only [List.set_cons_succ, List.map_cons, List.sum_cons]
      omega

namespace Transfers

/-- The permits that are owed. -/
def owed (s : Transfers) : ℕ := (s.requests.map Request.owed).sum

/-- Every request is in order, and every permit is free or owed. -/
structure Owing (n : ℕ) (s : Transfers) : Prop where
  ok : ∀ q ∈ s.requests, q.Ok
  sum : s.permits + s.owed = n

variable {n i k : ℕ} {s t : Transfers} {a : Step}

/-- One request is replaced, and the permits follow it. -/
theorem Owing.set (h : s.Owing n) {q q' : Request} {p : ℕ} (hq : s.requests[i]? = some q) (hok : q'.Ok)
    (hp : p + q'.owed = s.permits + q.owed) : Owing n ⟨p, s.requests.set i q'⟩ := by
  refine ⟨fun r hr => ?_, ?_⟩
  · rcases List.mem_or_eq_of_mem_set hr with hr | rfl
    · exact h.ok r hr
    · exact hok
  · have hsum := sum_map_set Request.owed hq q'
    have := h.sum
    rw [owed] at this ⊢
    dsimp only
    omega

theorem owing_step (h : s.Owing n) (hpre : transfers.pre s a) : (transfers.post s a).Owing n := by
  cases a with
  | arrive route =>
    refine ⟨fun q hq => ?_, ?_⟩
    · rcases List.mem_append.mp hq with hq | hq
      · exact h.ok q hq
      · obtain rfl := List.mem_singleton.mp hq
        exact ⟨rfl, rfl, rfl⟩
    · have := h.sum
      simp only [transfers, owed, List.map_append, List.sum_append] at this ⊢
      exact this
  | acquire i =>
    obtain ⟨hpos, hphase⟩ := hpre
    obtain ⟨q, hq, hwaiting⟩ := Option.map_eq_some_iff.mp hphase
    have hpost : transfers.post s (.acquire i) =
        ⟨s.permits - 1, s.requests.set i { q with phase := .handling, acquired := true }⟩ := by
      simp only [transfers, hq]
    have hok := h.ok q (List.mem_of_getElem? hq)
    rw [Request.Ok, hwaiting] at hok
    obtain ⟨ha, hr, hu⟩ := hok
    rw [hpost]
    refine h.set hq ⟨rfl, hr, hu⟩ ?_
    have hbefore : q.owed = 0 := by rw [Request.owed, ha]; rfl
    have hafter : Request.owed { q with phase := .handling, acquired := true } = 1 := if_pos ⟨rfl, hr⟩
    omega
  | move i m =>
    obtain ⟨⟨q', k⟩, hmoved⟩ := Option.isSome_iff_exists.mp hpre
    obtain ⟨q, hq, hm⟩ := Option.bind_eq_some_iff.mp hmoved
    obtain ⟨hok, howed⟩ := Request.ok_move (h.ok q (List.mem_of_getElem? hq)) hm
    have hpost : transfers.post s (.move i m) = ⟨s.permits + k, s.requests.set i (q'.credit k)⟩ := by
      simp only [transfers, hmoved]
    rw [hpost]
    exact h.set hq hok (by omega)

theorem owing_of_reach {P : Transfers → Step → Prop} (h : transfers.Reach P (start n) t) : t.Owing n := by
  refine h.invariant ⟨fun q hq => absurd hq List.not_mem_nil, Nat.add_zero n⟩ fun u a hu hpre _ => ?_
  exact owing_step hu hpre

/-! ## Results -/

theorem Owing.settled (h : t.Owing n) (hopened : ∀ q ∈ t.requests, q.unopened = false) : Settled n t := by
  have honce : ∀ q ∈ t.requests, q.phase = .ended → q.released = if q.acquired then 1 else 0 := by
    intro q hq hended
    have hok := h.ok q hq
    rw [Request.Ok, hended] at hok
    simpa [hopened q hq] using hok.2
  refine ⟨fun q hq => ?_, honce, fun hended => ?_⟩
  · have hok := h.ok q hq
    rw [Request.Ok] at hok
    split at hok
    · omega
    · omega
    · omega
    · rw [hok.2]
      split_ifs <;> decide
  · have howed : t.owed = 0 := by
      refine List.sum_eq_zero fun x hx => ?_
      obtain ⟨q, hq, rfl⟩ := List.mem_map.mp hx
      have hreleased := honce q hq (hended q hq)
      rw [Request.owed, if_neg]
      rintro ⟨hacquired, hzero⟩
      rw [hacquired, hzero] at hreleased
      cases hreleased
    have := h.sum
    omega

/-- A body that was closed unopened keeps its permit for good. -/
theorem Owing.opened (h : t.Owing n) (hsettled : Settled n t) : ∀ q ∈ t.requests, q.unopened = false := by
  intro q hq
  rw [Bool.eq_false_iff]
  intro hun
  have hok := h.ok q hq
  rw [Request.Ok] at hok
  split at hok
  · rw [hun] at hok
    exact absurd hok.2.2 (by decide)
  · rw [hun] at hok
    exact absurd hok.2.2 (by decide)
  · rw [hun] at hok
    exact absurd hok.2.2.1 (by decide)
  · next hended =>
    have honce := hsettled.once q hq hended
    rw [hok.2, hok.1 hun, hun] at honce
    exact absurd honce (by decide)

/-- No body is closed unopened by a step that opens what it closes. -/
theorem opened_step (h : ∀ q ∈ s.requests, q.unopened = false) (hpre : transfers.pre s a) (hopens : Opens s a) :
    ∀ q ∈ (transfers.post s a).requests, q.unopened = false := by
  have hset : ∀ {i : ℕ} {q' : Request}, q'.unopened = false → ∀ q ∈ s.requests.set i q', q.unopened = false := by
    intro i q' hq' q hq
    rcases List.mem_or_eq_of_mem_set hq with hq | rfl
    · exact h q hq
    · exact hq'
  cases a with
  | arrive route =>
    intro q hq
    rcases List.mem_append.mp hq with hq | hq
    · exact h q hq
    · obtain rfl := List.mem_singleton.mp hq
      rfl
  | acquire i =>
    obtain ⟨-, hphase⟩ := hpre
    obtain ⟨q, hq, -⟩ := Option.map_eq_some_iff.mp hphase
    simp only [transfers, hq]
    exact hset (h q (List.mem_of_getElem? hq))
  | move i m =>
    obtain ⟨⟨q', k⟩, hmoved⟩ := Option.isSome_iff_exists.mp hpre
    obtain ⟨q, hq, hm⟩ := Option.bind_eq_some_iff.mp hmoved
    simp only [transfers, hmoved]
    refine hset ?_
    change q'.unopened = false
    rcases Request.unopened_move hm with hsame | ⟨rfl, hclosed⟩
    · rw [hsame]
      exact h q (List.mem_of_getElem? hq)
    · rw [hclosed]
      exact decide_eq_false (hopens q hq)

/-- **Every permit comes back exactly once** iff no body that carries one was closed before it was
first advanced; and it does in every run that closes no such body. -/
theorem settled_iff (n : ℕ) :
    (∀ t, transfers.Reach Machine.Any (start n) t → (Settled n t ↔ ∀ q ∈ t.requests, q.unopened = false)) ∧
      ∀ t, transfers.Reach Opens (start n) t → Settled n t := by
  refine ⟨fun t ht => ?_, fun t ht => ?_⟩
  · have howing := owing_of_reach ht
    exact ⟨howing.opened, howing.settled⟩
  · have hopened : ∀ q ∈ t.requests, q.unopened = false := by
      refine ht.invariant (I := fun u => ∀ q ∈ u.requests, q.unopened = false) ?_ fun u a hu hpre hopens => ?_
      · exact fun q hq => absurd hq List.not_mem_nil
      · exact opened_step hu hpre hopens
    exact (owing_of_reach ht).settled hopened

/-- A hydrate request on a server with a published set, its body read to the end. -/
def streamed : List Step :=
  [.arrive .hydrate, .acquire 0, .move 0 (.handle (.ok none) fun _ => .ok ⟨[1], [[2]], 3⟩),
    .move 0 (.advance false), .move 0 (.advance false), .move 0 (.advance false)]

theorem settled_iff_streamed : ∃ t, transfers.Reach Opens (start 1) t ∧ t.requests.map (·.phase) = [.ended] ∧
    Settled 1 t ∧ ∀ q ∈ t.requests, q.unopened = false := by
  have hrun : ((transfers.guard Opens).exec streamed (start 1)).map (·.requests.map (·.phase)) = some [.ended] := rfl
  obtain ⟨t, ht, hended⟩ := Machine.reach_of_exec_map hrun
  have hreach := Machine.reach_of_guard ht
  have hsettled := (settled_iff 1).2 t hreach
  exact ⟨t, hreach, hended, hsettled, ((settled_iff 1).1 t hreach.any).mp hsettled⟩

/-- The same request, whose client is gone before the response is first sent. -/
def abandoned : List Step :=
  [.arrive .hydrate, .acquire 0, .move 0 (.handle (.ok none) fun _ => .ok ⟨[1], [[2]], 3⟩), .move 0 .close]

/-- **The only permit is lost** with nothing in flight. -/
theorem not_settled : ∃ t, transfers.Reach Machine.Any (start 1) t ∧ t.requests.map (·.phase) = [.ended] ∧
    t.permits = 0 ∧ ¬ Settled 1 t := by
  have hrun : (transfers.exec abandoned (start 1)).map (fun t => (t.requests.map (·.phase), t.permits)) =
      some ([.ended], 0) := rfl
  obtain ⟨t, ht, hend⟩ := Machine.reach_of_exec_map hrun
  obtain ⟨hended, hpermits⟩ := Prod.mk.inj hend
  refine ⟨t, ht, hended, hpermits, fun hsettled => ?_⟩
  have hidle : ∀ q ∈ t.requests, q.phase = .ended := by
    intro q hq
    have : q.phase ∈ t.requests.map (·.phase) := List.mem_map_of_mem hq
    rw [hended] at this
    exact List.mem_singleton.mp this
  have := hsettled.idle hidle
  omega

end Transfers

end McServerDashboard.Dataplane.Hydrate
