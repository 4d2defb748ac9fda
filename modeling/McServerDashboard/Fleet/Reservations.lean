import McServerDashboard.Fleet.Registry
import McServerDashboard.Lib.Locks
import McServerDashboard.Lib.Threads

/-!
# Reservations of placements

The placing flows `StartServer.__call__` and `place_and_start` over the fleet registry, each a thread, among
registrations, disconnects, drains and the decrements of every other flow. A flow goes from one await to the next in
one step; an exception or a cancellation may come at each await.

* `Inv`, `Ok`: who has reserved what.
* `Settled`: each reservation is settled once, by its flow; no placement overloads a Worker or takes a drained one.
* **`reservations_settled`**: every interleaving.
-/

namespace McServerDashboard.Fleet.Placing

open Lib

/-- The registry, the clock and the lifecycle locks, with ghosts. -/
structure State where
  registry : Registry
  now : ℕ
  /-- The lifecycle lock of each server. -/
  lock : Locks ServerId
  /-- The flow that has made a reservation that is there (a ghost). -/
  holder : WorkerId → ServerId → Option ℕ
  /-- How many reservations a flow has made (a ghost). -/
  made : ℕ → ℕ
  /-- How many reservations a flow has taken out of the registry by confirming them (a ghost). -/
  confirmed : ℕ → ℕ
  /-- And by releasing them (a ghost). -/
  released : ℕ → ℕ

/-- Where a placing flow stands. -/
inductive Pc
  | idle
  /-- It holds the lock, and makes the server ready. -/
  | locked (s : ServerId)
  /-- At the await of `update_lifecycle`. -/
  | updating (s : ServerId) (w : WorkerId)
  /-- At the await of `clear_sync_pending`. -/
  | clearing (s : ServerId) (w : WorkerId)
  /-- At the await of `commit`. -/
  | committing (s : ServerId) (w : WorkerId)
  /-- It leaves the transaction and gives the lock back, after a placement on `w` or an exception. -/
  | leaving (s : ServerId) (w : Option WorkerId)
  | launching (s : ServerId) (w : WorkerId)
  /-- In `_compensate` or `_unassign`. -/
  | compensating (s : ServerId) (w : WorkerId)
  | done

inductive Action
  | tick (n : ℕ)
  | register (worker : WorkerId) (capabilities : WorkerCapabilities) (held : Dict ServerId ℕ)
  | heartbeat (w : WorkerId)
  | disconnect (w : WorkerId) (session : ℕ)
  | drain (w : WorkerId) (draining : Bool)
  | recordHeld (w : WorkerId) (s : ServerId) (generation : ℕ)
  /-- A stop, a drain or another flow that gives an assignment up. -/
  | decrement (w : WorkerId) (s : ServerId)
  | acquire (s : ServerId)
  /-- The server is not to be started, or cannot be made ready. -/
  | refuse
  /-- `cpu` is the committed CPU that was read from the database. -/
  | place (cpu : WorkerId → ℕ) (memoryLimitMb : Option ℕ)
  /-- The await returns; the compare-and-set of `update_lifecycle` has matched. -/
  | proceed
  /-- The await raises, or the compare-and-set has not matched. -/
  | fail
  /-- `ok` is false where the exits of the contexts raise. -/
  | unlock (ok : Bool)
  /-- The start is sent, and its outcome keeps the assignment. -/
  | launched
  | notLaunched
  /-- The compensation; `reverted` is what its compare-and-set says. -/
  | compensate (reverted : Bool)

structure Params where
  /-- The heartbeat timeout. -/
  timeout : ℕ
  /-- `int(mb * MEMORY_RESERVE_FRACTION)`. -/
  fraction : ℕ → ℕ

def pre (_ : ℕ) (f : State) : Pc → Action → Prop
  | .idle, .tick _ | .idle, .register _ _ _ | .idle, .heartbeat _ | .idle, .disconnect _ _ | .idle, .drain _ _
  | .idle, .recordHeld _ _ _ | .idle, .decrement _ _ => True
  | .idle, .acquire s => f.lock s = none
  | .locked _, .refuse | .locked _, .place _ _ => True
  | .updating _ _, .proceed | .updating _ _, .fail | .clearing _ _, .proceed | .clearing _ _, .fail
  | .committing _ _, .proceed | .committing _ _, .fail => True
  | .leaving _ _, .unlock _ => True
  | .launching _ _, .launched | .launching _ _, .notLaunched => True
  | .compensating _ _, .compensate _ => True
  | _, _ => False

/-- Count the key `t` up by one. -/
def bump (counts : ℕ → ℕ) (t : ℕ) : ℕ → ℕ := Function.update counts t (counts t + 1)

namespace State

variable (f : State)

/-- The reservation is there. -/
def Booked (w : WorkerId) (s : ServerId) : Bool := ((f.registry.reservedOf w).get? s).isSome

def hold (w : WorkerId) (s : ServerId) (t : Option ℕ) : WorkerId → ServerId → Option ℕ :=
  fun w' s' => if w' = w ∧ s' = s then t else f.holder w' s'

/-- Flow `t` has placed `s` on `w`, and the registry is `r`. -/
def reserve (t : ℕ) (s : ServerId) (w : WorkerId) (r : Registry) : State :=
  { f with registry := r, holder := f.hold w s (some t), made := bump f.made t }

/-- `increment_assignment`. -/
def confirm (t : ℕ) (s : ServerId) (w : WorkerId) : State :=
  { f with
    registry := f.registry.incrementAssignment w s
    holder := f.hold w s none
    confirmed := if f.Booked w s then bump f.confirmed t else f.confirmed }

/-- `release_reservation`. -/
def release (t : ℕ) (s : ServerId) (w : WorkerId) : State :=
  { f with
    registry := f.registry.releaseReservation w s
    holder := f.hold w s none
    released := if f.Booked w s then bump f.released t else f.released }

end State

variable (P : Params)

def post (t : ℕ) (f : State) : Pc → Action → State × Pc
  | .idle, .tick n => ({ f with now := f.now + n }, .idle)
  | .idle, .register w capabilities held =>
    ({ f with registry := f.registry.register ⟨w, capabilities, f.now, false, false⟩ held }, .idle)
  | .idle, .heartbeat w => ({ f with registry := f.registry.recordHeartbeat w f.now }, .idle)
  | .idle, .disconnect w session => ({ f with registry := f.registry.markDisconnected w session }, .idle)
  | .idle, .drain w draining => ({ f with registry := f.registry.setDraining w draining }, .idle)
  | .idle, .recordHeld w s generation => ({ f with registry := f.registry.recordHeldGeneration w s generation }, .idle)
  | .idle, .decrement w s => ({ f with registry := f.registry.decrementAssignment w s }, .idle)
  | .idle, .acquire s => ({ f with lock := f.lock.take t s }, .locked s)
  | .locked s, .refuse => (f, .leaving s none)
  | .locked s, .place cpu memoryLimitMb =>
    match f.registry.place P.fraction f.now P.timeout cpu s memoryLimitMb with
    | (r, some w) => (f.reserve t s w r, .updating s w)
    | (r, none) => ({ f with registry := r }, .leaving s none)
  | .updating s w, .proceed => (f, .clearing s w)
  | .clearing s w, .proceed => (f, .committing s w)
  -- The confirmation follows the commit without an await.
  | .committing s w, .proceed => (f.confirm t s w, .leaving s (some w))
  | .updating s w, .fail | .clearing s w, .fail | .committing s w, .fail => (f.release t s w, .leaving s none)
  | .leaving s (some w), .unlock true => ({ f with lock := f.lock.release t }, .launching s w)
  | .leaving _ _, .unlock _ => ({ f with lock := f.lock.release t }, .done)
  | .launching _ _, .launched => (f, .done)
  | .launching s w, .notLaunched => (f, .compensating s w)
  | .compensating s w, .compensate reverted =>
    (if reverted then { f with registry := f.registry.decrementAssignment w s } else f, .done)
  | p, _ => (f, p)

def threads : Threads State Pc Action := ⟨pre, post P⟩

/-- No flow has begun, and the registry knows the drains that were persisted. -/
def start (drained : Finset WorkerId) (now : ℕ) : Threads.Config State Pc :=
  ⟨⟨.new drained, now, fun _ => none, fun _ _ => none, fun _ => 0, fun _ => 0, fun _ => 0⟩, fun _ => .idle⟩

/-! ## What the flows know -/

/-- The server whose lock the flow holds. -/
def Pc.lock : Pc → Option ServerId
  | .locked s | .updating s _ | .clearing s _ | .committing s _ | .leaving s _ => some s
  | _ => none

/-- The reservation that the flow has yet to settle. -/
def Pc.held : Pc → Option (WorkerId × ServerId)
  | .updating s w | .clearing s w | .committing s w => some (w, s)
  | _ => none

/-- The flow has not placed yet. -/
def Pc.Fresh : Pc → Prop
  | .idle | .locked _ => True
  | _ => False

structure Inv (f : State) : Prop where
  valid : f.registry.Valid
  booked : ∀ w s, f.Booked w s = true ↔ ∃ t, f.holder w s = some t
  known : ∀ w s t, f.holder w s = some t → (f.registry.committed.get? w).isSome

structure Ok (f : State) (t : ℕ) (p : Pc) : Prop where
  lock : ∀ s, f.lock s = some t ↔ p.lock = some s
  holder : ∀ w s, f.holder w s = some t ↔ p.held = some (w, s)
  settled : f.made t = f.confirmed t + f.released t + if p.held.isSome then 1 else 0
  fresh : p.Fresh → f.made t = 0
  once : f.made t ≤ 1

/-- What one step of `t` must keep. -/
structure Steps (f : State) (t : ℕ) (r : State × Pc) : Prop where
  inv : Inv r.1
  own : Ok r.1 t r.2
  others : ∀ u q, u ≠ t → Ok f u q → Ok r.1 u q

/-- The reservations stay, whatever else the registry takes down. -/
structure Calm (r' r : Registry) : Prop where
  valid : r.Valid → r'.Valid
  reserved : ∀ w, r'.reservedOf w = r.reservedOf w
  committed : ∀ w, (r.committed.get? w).isSome → (r'.committed.get? w).isSome

variable {P} {f : State} {t u : ℕ} {p q : Pc} {s : ServerId} {w : WorkerId} {r : Registry}

section Calm

variable {worker : Worker} {held : Dict ServerId ℕ} {n : ℕ} {b : Bool}

theorem calm_register (hfresh : worker.draining = false) : Calm (r.register worker held) r := by
  refine ⟨fun h => h.register hfresh, fun x => ?_, fun x hx => Registry.isSome_set (.inr hx)⟩
  unfold Registry.register Registry.reservedOf
  simp only
  split_ifs with h
  · rfl
  · rw [Dict.get?_set]
    split_ifs with hx
    · subst hx
      rw [Option.not_isSome_iff_eq_none.mp h]
      rfl
    · rfl

theorem calm_recordHeartbeat : Calm (r.recordHeartbeat w n) r := by
  refine ⟨fun h => h.recordHeartbeat, fun x => ?_, fun x hx => ?_⟩ <;> unfold Registry.recordHeartbeat
  · split <;> rfl
  · split <;> exact hx

theorem calm_markDisconnected : Calm (r.markDisconnected w n) r := by
  refine ⟨fun h => h.markDisconnected, fun x => ?_, fun x hx => ?_⟩ <;> unfold Registry.markDisconnected
  · split
    · rfl
    · split_ifs <;> rfl
  · split
    · exact hx
    · split_ifs <;> exact hx

theorem calm_setDraining : Calm (r.setDraining w b) r := by
  refine ⟨fun h => h.setDraining, fun x => ?_, fun x hx => ?_⟩ <;> unfold Registry.setDraining
  · split <;> rfl
  · split <;> exact hx

theorem calm_recordHeld : Calm (r.recordHeldGeneration w s n) r := by
  refine ⟨fun h => h.recordHeldGeneration, fun x => ?_, fun x hx => ?_⟩ <;> unfold Registry.recordHeldGeneration
  · split <;> rfl
  · split <;> exact hx

theorem calm_decrement : Calm (r.decrementAssignment w s) r := by
  refine ⟨fun h => h.decrementAssignment, fun x => Registry.reservedOf_decrement, fun x hx => ?_⟩
  unfold Registry.decrementAssignment
  split_ifs
  · exact Registry.isSome_set (.inr hx)
  · exact hx

end Calm

/-! ### One step -/

/-- The flow goes on where it holds the same, and the registry stays calm. -/
theorem Steps.calm {r : Registry} {now : ℕ} (hi : Inv f) (hok : Ok f t p) (hr : Calm r f.registry)
    (hlock : q.lock = p.lock) (hheld : q.held = p.held) (hfresh : q.Fresh → p.Fresh) :
    Steps f t ({ f with registry := r, now := now }, q) := by
  refine ⟨⟨hr.valid hi.valid, fun w s => ?_, fun w s u hu => hr.committed w (hi.known w s u hu)⟩, ?_,
    fun u q _ hu => ⟨hu.lock, hu.holder, hu.settled, hu.fresh, hu.once⟩⟩
  · rw [← hi.booked w s]
    simp only [State.Booked, hr.reserved]
  · refine ⟨fun s => ?_, fun w s => ?_, ?_, fun h => hok.fresh (hfresh h), hok.once⟩
    · rw [hlock]
      exact hok.lock s
    · rw [hheld]
      exact hok.holder w s
    · rw [hheld]
      exact hok.settled

theorem calm_refl : Calm r r := ⟨fun h => h, fun _ => rfl, fun _ h => h⟩

theorem Steps.goto (hi : Inv f) (hok : Ok f t p) (hlock : q.lock = p.lock) (hheld : q.held = p.held)
    (hfresh : q.Fresh → p.Fresh) : Steps f t (f, q) := Steps.calm hi hok calm_refl hlock hheld hfresh

theorem steps_acquire (hi : Inv f) (hok : Ok f t .idle) (hfree : f.lock s = none) :
    Steps f t ({ f with lock := f.lock.take t s }, .locked s) := by
  refine ⟨⟨hi.valid, hi.booked, hi.known⟩, ⟨fun s' => ?_, hok.holder, hok.settled, fun _ => hok.fresh trivial, hok.once⟩,
    fun u q hu h => ⟨fun s' => ?_, h.holder, h.settled, h.fresh, h.once⟩⟩
  · have := hok.lock s'
    simp only [Locks.take, Function.update_apply, Pc.lock] at this ⊢
    split_ifs with hs
    · simp [hs]
    · simp [this, Ne.symm hs]
  · rw [← h.lock s']
    simp only [Locks.take, Function.update_apply]
    split_ifs with hs
    · subst hs
      simp [hfree, hu.symm]
    · rfl

theorem steps_unlock (hi : Inv f) (hok : Ok f t p) (hheld : p.held = none) (hq : q.lock = none) (hq' : q.held = none)
    (hfresh : ¬ q.Fresh) : Steps f t ({ f with lock := f.lock.release t }, q) := by
  refine ⟨⟨hi.valid, hi.booked, hi.known⟩, ⟨fun s' => ?_, fun w s => ?_, ?_, fun h => absurd h hfresh, hok.once⟩,
    fun u q hu h => ⟨fun s' => ?_, h.holder, h.settled, h.fresh, h.once⟩⟩
  · rw [hq]
    simp [Locks.release]
  · rw [hq', ← hheld]
    exact hok.holder w s
  · rw [hq', ← hheld]
    exact hok.settled
  · rw [← h.lock s']
    simp only [Locks.release]
    split_ifs with hs
    · simp [hs, hu.symm]
    · rfl

theorem Pc.lock_of_held (h : p.held = some (w, s)) : p.lock = some s := by
  cases p with
  | updating s' w' | clearing s' w' | committing s' w' =>
    cases h
    rfl
  | _ => cases h

/-- The flow that holds the lock of a server is the only one to reserve for it. -/
theorem holder_none (hc : ∀ u, ∃ q, Ok f u q) (hok : Ok f t p) (hlock : p.lock = some s)
    (hheld : p.held = none) : f.holder w s = none := by
  cases hw : f.holder w s with
  | none => rfl
  | some u =>
    obtain ⟨q, hq⟩ := hc u
    have hqheld := (hq.holder w s).mp hw
    have hqlock := Pc.lock_of_held hqheld
    have hut : u = t := by
      have h1 := (hq.lock s).mpr hqlock
      rw [(hok.lock s).mpr hlock, Option.some.injEq] at h1
      exact h1.symm
    subst hut
    have := (hok.holder w s).mp hw
    rw [hheld] at this
    cases this

theorem steps_place {m : ℕ} (hi : Inv f) (hc : ∀ u, ∃ q, Ok f u q) (hok : Ok f t (.locked s))
    (hw : (f.registry.committed.get? w).isSome) :
    Steps f t (f.reserve t s w (f.registry.reserve w s m), .updating s w) := by
  have hnone := holder_none (w := w) hc hok rfl rfl
  have hmade : f.made t = 0 := hok.fresh trivial
  have hsettled := hok.settled
  refine ⟨⟨hi.valid.reserve, fun w' s' => ?_, fun w' s' u hu => ?_⟩,
    ⟨hok.lock, fun w' s' => ?_, ?_, fun h => absurd h id, ?_⟩,
    fun u q hu h => ⟨h.lock, fun w' s' => ?_, ?_, fun hf => ?_, ?_⟩⟩
  · have hb := hi.booked w' s'
    simp only [State.Booked, State.reserve, State.hold, Registry.reservedOf_reserve hw] at hb ⊢
    by_cases hx : w' = w
    · subst hx
      rw [if_pos rfl, Dict.get?_set]
      by_cases hs : s' = s
      · simp [hs]
      · simpa [hs] using hb
    · simpa [hx] using hb
  · have hkeep : ∀ x, (f.registry.committed.get? x).isSome → ((f.registry.reserve w s m).committed.get? x).isSome :=
      fun x hx => by
        rw [Registry.reserve, if_pos hw]
        exact hx
    simp only [State.reserve, State.hold] at hu
    split_ifs at hu with h
    · exact hkeep w' (h.1 ▸ hw)
    · exact hkeep w' (hi.known w' s' u hu)
  · have hh := hok.holder w' s'
    simp only [State.reserve, State.hold, Pc.held, Option.some.injEq, Prod.mk.injEq] at hh ⊢
    split_ifs with h
    · simp [h.1, h.2]
    · simp only [hh, reduceCtorEq, false_iff]
      exact fun he => h ⟨he.1.symm, he.2.symm⟩
  · simp only [State.reserve, bump, Function.update_self, Pc.held, Option.isSome_some, if_true] at hsettled ⊢
    simp only [Option.isSome_none, Bool.false_eq_true, if_false] at hsettled
    omega
  · simp only [State.reserve, bump, Function.update_self]
    omega
  · rw [← h.holder w' s']
    simp only [State.reserve, State.hold]
    split_ifs with hx
    · rw [hx.1, hx.2, hnone]
      simp [hu.symm]
    · rfl
  · simp only [State.reserve, bump, Function.update_of_ne hu]
    exact h.settled
  · simp only [State.reserve, bump, Function.update_of_ne hu]
    exact h.fresh hf
  · simp only [State.reserve, bump, Function.update_of_ne hu]
    exact h.once

/-- The flow takes its reservation out of the registry, and counts that once. -/
theorem steps_settle {r' : Registry} {confirmed released : ℕ → ℕ} (hi : Inv f) (hok : Ok f t p)
    (hheld : p.held = some (w, s)) (hlock : q.lock = p.lock) (hq : q.held = none) (hfresh : ¬ q.Fresh)
    (hvalid : r'.Valid) (hreserved : ∀ x, r'.reservedOf x = if x = w then (f.registry.reservedOf w).pop s else
      f.registry.reservedOf x)
    (hcommitted : ∀ x, (f.registry.committed.get? x).isSome → (r'.committed.get? x).isSome)
    (hcount : ∀ u, confirmed u + released u = f.confirmed u + f.released u + if u = t then 1 else 0) :
    Steps f t ({ f with
      registry := r', holder := f.hold w s none, confirmed := confirmed, released := released }, q) := by
  have hsettled := hok.settled
  rw [hheld] at hsettled
  refine ⟨⟨hvalid, fun w' s' => ?_, fun w' s' u hu => ?_⟩,
    ⟨fun s' => ?_, fun w' s' => ?_, ?_, fun h => absurd h hfresh, hok.once⟩,
    fun u x hu h => ⟨h.lock, fun w' s' => ?_, ?_, h.fresh, h.once⟩⟩
  · have hb := hi.booked w' s'
    simp only [State.Booked, State.hold, hreserved] at hb ⊢
    by_cases hx : w' = w
    · subst hx
      rw [if_pos rfl, Dict.get?_pop]
      by_cases hs : s' = s
      · simp [hs]
      · simpa [hs] using hb
    · simpa [hx] using hb
  · simp only [State.hold] at hu
    split_ifs at hu with h
    exact hcommitted w' (hi.known w' s' u hu)
  · rw [hlock]
    exact hok.lock s'
  · have hh := hok.holder w' s'
    rw [hheld, Option.some.injEq, Prod.mk.injEq] at hh
    simp only [State.hold, hq, reduceCtorEq, iff_false]
    split_ifs with h
    · simp
    · exact fun he => h ⟨(hh.mp he).1.symm, (hh.mp he).2.symm⟩
  · have := hcount t
    rw [if_pos rfl] at this
    simp only [hq, Option.isSome_none, Option.isSome_some, if_true, Bool.false_eq_true, if_false] at hsettled ⊢
    omega
  · rw [← h.holder w' s']
    simp only [State.hold]
    split_ifs with hx
    · rw [hx.1, hx.2, (hok.holder w s).mpr hheld]
      simp [hu.symm]
    · rfl
  · have hc := hcount u
    rw [if_neg hu] at hc
    have := h.settled
    simp only
    omega

theorem booked_of_held (hi : Inv f) (hok : Ok f t p) (hheld : p.held = some (w, s)) : f.Booked w s = true :=
  (hi.booked w s).mpr ⟨t, (hok.holder w s).mpr hheld⟩

theorem bump_apply {counts : ℕ → ℕ} : bump counts t u = counts u + if u = t then 1 else 0 := by
  rw [bump, Function.update_apply]
  split_ifs with h
  · rw [h]
  · rfl

theorem steps_confirm (hi : Inv f) (hok : Ok f t (.committing s w)) :
    Steps f t (f.confirm t s w, .leaving s (some w)) := by
  have hw := hi.known w s t ((hok.holder w s).mpr rfl)
  refine steps_settle hi hok rfl rfl rfl id hi.valid.incrementAssignment (fun x => Registry.reservedOf_increment hw)
    (fun x hx => ?_) fun u => ?_
  · unfold Registry.incrementAssignment
    rw [if_pos hw]
    split
    · exact hx
    · exact Registry.isSome_set (.inr hx)
  · rw [booked_of_held hi hok rfl, if_pos rfl, bump_apply]
    omega

theorem steps_release (hi : Inv f) (hok : Ok f t p) (hheld : p.held = some (w, s)) (hlock : p.lock = some s) :
    Steps f t (f.release t s w, .leaving s none) := by
  refine steps_settle hi hok hheld hlock.symm rfl id hi.valid.releaseReservation
    (fun x => Registry.reservedOf_release) (fun x hx => ?_) fun u => ?_
  · unfold Registry.releaseReservation
    split_ifs <;> exact hx
  · rw [booked_of_held hi hok hheld, if_pos rfl, bump_apply]
    omega

theorem steps_post (hi : Inv f) (hc : ∀ u, ∃ q, Ok f u q) (hok : Ok f t p) {a : Action} (hpre : pre t f p a) :
    Steps f t (post P t f p a) := by
  cases p <;> cases a <;> try exact absurd hpre id
  case idle.tick n => exact .calm hi hok calm_refl rfl rfl id
  case idle.register w capabilities held => exact .calm hi hok (calm_register rfl) rfl rfl id
  case idle.heartbeat w => exact .calm hi hok calm_recordHeartbeat rfl rfl id
  case idle.disconnect w session => exact .calm hi hok calm_markDisconnected rfl rfl id
  case idle.drain w b => exact .calm hi hok calm_setDraining rfl rfl id
  case idle.recordHeld w s n => exact .calm hi hok calm_recordHeld rfl rfl id
  case idle.decrement w s => exact .calm hi hok calm_decrement rfl rfl id
  case idle.acquire s => exact steps_acquire hi hok hpre
  case locked.refuse s => exact .goto hi hok rfl rfl fun h => absurd h id
  case locked.place s cpu memoryLimitMb =>
    simp only [post]
    generalize hplace : f.registry.place P.fraction f.now P.timeout cpu s memoryLimitMb = x
    obtain ⟨r, w⟩ := x
    cases w with
    | none =>
      have := Registry.place_none (r := f.registry) (by rw [hplace])
      rw [hplace] at this
      simp only at this ⊢
      subst this
      exact .goto hi hok rfl rfl fun h => absurd h id
    | some w =>
      obtain ⟨hr, x, worker, hx, hid, -⟩ := Registry.place_eq (by rw [hplace])
      rw [hplace] at hr
      simp only at hr
      subst hr
      obtain rfl : x = w := (hi.valid.id x worker hx).symm.trans hid
      exact steps_place hi hc hok (hi.valid.committed x (by rw [hx]; rfl))
  case updating.proceed s w => exact .goto hi hok rfl rfl fun h => absurd h id
  case clearing.proceed s w => exact .goto hi hok rfl rfl fun h => absurd h id
  case committing.proceed s w => exact steps_confirm hi hok
  case updating.fail s w => exact steps_release hi hok rfl rfl
  case clearing.fail s w => exact steps_release hi hok rfl rfl
  case committing.fail s w => exact steps_release hi hok rfl rfl
  case leaving.unlock s w ok =>
    cases w <;> cases ok <;> exact steps_unlock hi hok rfl rfl rfl id
  case launching.launched s w => exact .goto hi hok rfl rfl fun h => absurd h id
  case launching.notLaunched s w => exact .goto hi hok rfl rfl fun h => absurd h id
  case compensating.compensate s w reverted =>
    cases reverted
    · exact .goto hi hok rfl rfl fun h => absurd h id
    · exact .calm hi hok calm_decrement rfl rfl fun h => absurd h id

/-! ## Every run -/

variable {c d : Threads.Config State Pc} {drained : Finset WorkerId} {now : ℕ}

theorem holds_start : Threads.Holds Inv Ok (start drained now) := by
  refine ⟨⟨Registry.valid_new, fun w s => ?_, fun w s t h => by cases h⟩,
    fun t => ⟨fun s => ?_, fun w s => ?_, rfl, fun _ => rfl, Nat.zero_le _⟩⟩
  · simp [start, State.Booked, Registry.new, Registry.reservedOf, Dict.get?_empty]
  · simp [start, Pc.lock]
  · simp [start, Pc.held]

theorem holds_of_reach (h : (threads P).machine.Reach Machine.Any (start drained now) c) : Threads.Holds Inv Ok c := by
  refine Threads.invariant h holds_start fun c t a hc hpre _ => ?_
  obtain ⟨hi, hown, hothers⟩ := steps_post hc.shared (fun u => ⟨_, hc.thread u⟩) (hc.thread t) hpre
  exact ⟨hi, hown, fun u hu => hothers u _ hu⟩

/-- A flow that has begun overloads no Worker. -/
theorem within_of_post {a : Action} {worker : Worker} (hi : Inv f) (hp : p ≠ .idle) (hpre : pre t f p a)
    (hworker : f.registry.workers.get? worker.id = some worker) :
    (post P t f p a).1.registry.Within f.registry P.fraction worker := by
  have hsame : f.registry.Within f.registry P.fraction worker :=
    Registry.Lighter.within fun _ => ⟨Nat.le_refl _, Nat.le_refl _⟩
  cases p <;> cases a <;> first | exact absurd hpre id | exact absurd rfl hp | skip
  case locked.place s cpu memoryLimitMb =>
    have hwithin := Registry.within_of_place P.fraction f.now P.timeout cpu s memoryLimitMb hi.valid hworker
    simp only [post]
    generalize f.registry.place P.fraction f.now P.timeout cpu s memoryLimitMb = x at hwithin ⊢
    obtain ⟨r, _ | w⟩ := x <;> exact hwithin
  case committing.proceed => exact Registry.lighter_increment.within
  case updating.fail | clearing.fail | committing.fail => exact Registry.lighter_release.within
  case leaving.unlock s w ok => cases w <;> cases ok <;> exact hsame
  case compensating.compensate s w reverted =>
    cases reverted
    · exact hsame
    · exact Registry.lighter_decrement.within
  all_goals exact hsame

/-- Only the operator takes a drain back, whatever registers. -/
theorem drained_of_post {a : Action} (hw : w ∈ f.registry.drained) (ha : a ≠ .drain w false) (hpre : pre t f p a) :
    w ∈ (post P t f p a).1.registry.drained := by
  cases p <;> cases a <;> first | exact absurd hpre id | exact hw | skip
  case idle.heartbeat x =>
    simp only [post, Registry.recordHeartbeat]
    split <;> exact hw
  case idle.disconnect x session =>
    simp only [post, Registry.markDisconnected]
    split
    · exact hw
    · split_ifs <;> exact hw
  case idle.drain x b =>
    simp only [post, Registry.setDraining]
    split
    · exact hw
    · cases b with
      | true => exact Finset.mem_insert_of_mem hw
      | false => exact Finset.mem_erase.mpr ⟨fun h => ha (by rw [h]), hw⟩
  case idle.recordHeld x s n =>
    simp only [post, Registry.recordHeldGeneration]
    split <;> exact hw
  case idle.decrement x s =>
    simp only [post, Registry.decrementAssignment]
    split_ifs <;> exact hw
  case locked.place s cpu memoryLimitMb =>
    simp only [post, Registry.place]
    split
    · next h =>
      split at h
      · cases h
        simp only [State.reserve, Registry.reserve]
        split_ifs <;> exact hw
      · cases h
    · next h =>
      split at h
      · cases h
      · cases h
        exact hw
  case committing.proceed s x =>
    simp only [post, State.confirm, Registry.incrementAssignment]
    split_ifs
    · split <;> exact hw
    · exact hw
  case updating.fail s x | clearing.fail s x | committing.fail s x =>
    simp only [post, State.release, Registry.releaseReservation]
    split_ifs <;> exact hw
  case leaving.unlock s x ok => cases x <;> cases ok <;> exact hw
  case compensating.compensate s x reverted =>
    simp only [post, Registry.decrementAssignment]
    split_ifs <;> exact hw

variable (P) in
structure Settled (c : Threads.Config State Pc) : Prop where
  /-- A reservation that is in the registry is that of a flow that has yet to confirm or release it. -/
  held : ∀ w s, c.shared.Booked w s = true ↔ ∃ t, (c.th t).held = some (w, s)
  /-- No two flows hold one reservation. -/
  one : ∀ t u x, (c.th t).held = some x → (c.th u).held = some x → t = u
  /-- A flow makes one reservation at most, and once it has left it behind, it has confirmed or released it once. -/
  once : ∀ t, c.shared.made t = c.shared.confirmed t + c.shared.released t + (if (c.th t).held.isSome then 1 else 0) ∧
    c.shared.made t ≤ 1
  /-- A step of a flow loads no Worker beyond what it declares. -/
  within : ∀ t a worker, c.th t ≠ .idle → pre t c.shared (c.th t) a →
    c.shared.registry.workers.get? worker.id = some worker →
    (post P t c.shared (c.th t) a).1.registry.Within c.shared.registry P.fraction worker
  /-- No placement chooses a drained Worker. -/
  spared : ∀ cpu s memoryLimitMb w,
    (c.shared.registry.place P.fraction c.shared.now P.timeout cpu s memoryLimitMb).2 = some w →
    w ∉ c.shared.registry.drained
  /-- A drained Worker stays so until the operator takes it back. -/
  marked : ∀ t a w, pre t c.shared (c.th t) a → w ∈ c.shared.registry.drained → a ≠ .drain w false →
    w ∈ (post P t c.shared (c.th t) a).1.registry.drained

/-- **Every reservation is settled once, by its flow**, no placement overloads a Worker, and none takes one that is
drained. -/
theorem reservations_settled (h : (threads P).machine.Reach Machine.Any (start drained now) c) : Settled P c := by
  have hc := holds_of_reach h
  refine ⟨fun w s => ?_, fun t u x ht hu => ?_, fun t => ⟨(hc.thread t).settled, (hc.thread t).once⟩,
    fun t a worker hp hpre hworker => within_of_post hc.shared hp hpre hworker, fun cpu s memoryLimitMb w hw => ?_,
    fun t a w hpre hw ha => drained_of_post hw ha hpre⟩
  · rw [hc.shared.booked w s]
    exact exists_congr fun t => (hc.thread t).holder w s
  · obtain ⟨w, s⟩ := x
    have h1 := ((hc.thread t).holder w s).mpr ht
    rw [((hc.thread u).holder w s).mpr hu, Option.some.injEq] at h1
    exact h1.symm
  · obtain ⟨worker, -, -, hnot⟩ := Registry.online_of_place hc.shared.valid hw
    exact hnot

/-- A Worker is drained and registers again while a placement on it commits; the next placement passes it by. -/
theorem reservations_settled_drained : ∃ c : Threads.Config State Pc,
    (threads ⟨30, (· / 10)⟩).machine.Reach Machine.Any (start ∅ 5) c ∧ c.th 1 = .leaving 7 (some 3) ∧
      c.th 2 = .leaving 8 none ∧ c.shared.registry.load 3 = 1 ∧ Settled ⟨30, (· / 10)⟩ c := by
  have h0 : (threads ⟨30, (· / 10)⟩).machine.Reach Machine.Any (start ∅ 5) (start ∅ 5) := .refl
  have h1 := h0.step (0, Action.register 3 ⟨[.container], 4, 0⟩ ∅) trivial trivial
  have h2 := h1.step (1, Action.acquire 7) rfl trivial
  have h3 := h2.step (1, Action.place (fun _ => 0) (some 2048)) trivial trivial
  have h4 := h3.step (0, Action.drain 3 true) trivial trivial
  have h5 := h4.step (1, Action.proceed) trivial trivial
  have h6 := h5.step (0, Action.register 3 ⟨[.container], 4, 0⟩ ∅) trivial trivial
  have h7 := h6.step (1, Action.proceed) trivial trivial
  have h8 := h7.step (1, Action.proceed) trivial trivial
  have h9 := h8.step (2, Action.acquire 8) rfl trivial
  have h10 := h9.step (2, Action.place (fun _ => 0) none) trivial trivial
  exact ⟨_, h10, rfl, rfl, rfl, reservations_settled h10⟩

end McServerDashboard.Fleet.Placing
