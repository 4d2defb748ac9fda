import Mathlib.Data.Finset.Erase
import Mathlib.Data.Finset.Insert
import McServerDashboard.Lib.Dict

/-!
# The fleet registry and placement

The in-memory registry of the Workers, with the servers that are committed to each and those that a placement has
reserved; the greedy placement over its candidates.

* `Registry`: registrations, sessions, drains, reservations and their confirmation.
* `place`, `Registry.place`: the choice of a Worker, and the reservation made with it.
* `Registry.Valid`: the records of a Worker are there together, and its flag is the operator's intent.
* **`online_of_place`**, **`within_of_place`**: a Worker that is chosen is not draining, and has room.
-/

namespace McServerDashboard.Fleet.Placing

open Lib

/-- The id of a Worker; the order is that of the UUIDs' spellings. -/
abbrev WorkerId := ℕ

abbrev ServerId := ℕ

inductive DriverKind
  | container
  deriving DecidableEq

structure WorkerCapabilities where
  drivers : List DriverKind
  maxServers : ℕ
  memoryBytes : ℕ

structure Worker where
  id : WorkerId
  capabilities : WorkerCapabilities
  lastHeartbeatAt : ℕ
  disconnected : Bool
  draining : Bool

inductive WorkerStatus
  | online
  | offline
  | draining
  deriving DecidableEq

def Worker.status (w : Worker) (now timeout : ℕ) : WorkerStatus :=
  if w.disconnected then .offline
  else if w.lastHeartbeatAt + timeout < now then .offline
  else if w.draining then .draining
  else .online

/-! ## Placement -/

structure PlacementCandidate where
  workerId : WorkerId
  drivers : List DriverKind
  capacity : ℕ
  load : ℕ
  memoryCapacityMb : ℕ
  committedMemoryMb : ℕ
  committedCpuMillis : ℕ

def memoryReserveMb : ℕ := 1024

/-- `_reserve_mb`; `fraction` is `int(mb * MEMORY_RESERVE_FRACTION)`. -/
def reserveMb (fraction : ℕ → ℕ) (memoryCapacityMb : ℕ) : ℕ := max memoryReserveMb (fraction memoryCapacityMb)

namespace PlacementCandidate

variable (c : PlacementCandidate) (fraction : ℕ → ℕ)

/-- `_fits_memory`. -/
def fitsMemory (needed : Option ℕ) : Bool :=
  if needed.getD 0 = 0 || c.memoryCapacityMb = 0 then true
  else c.committedMemoryMb + needed.getD 0 + reserveMb fraction c.memoryCapacityMb ≤ c.memoryCapacityMb

/-- `can_host`, for one server. -/
def canHost (driver : DriverKind) (neededMemoryMb : Option ℕ) : Bool :=
  if driver ∉ c.drivers then false
  else if c.capacity ≠ 0 ∧ c.capacity < c.load + 1 then false
  else c.fitsMemory fraction neededMemoryMb

/-- The order of the keys that `place` minimises. -/
def before (c' : PlacementCandidate) : Bool :=
  c.load < c'.load || c.load = c'.load && (c.committedCpuMillis < c'.committedCpuMillis ||
    c.committedCpuMillis = c'.committedCpuMillis && c.workerId < c'.workerId)

end PlacementCandidate

/-- The first of the candidates that no other comes before. -/
def least : List PlacementCandidate → Option PlacementCandidate
  | [] => none
  | c :: cs => some (cs.foldl (fun best c => if c.before best then c else best) c)

def place (fraction : ℕ → ℕ) (candidates : List PlacementCandidate) (driver : DriverKind) (neededMemoryMb : Option ℕ) :
    Option WorkerId :=
  (least (candidates.filter fun c => c.canHost fraction driver neededMemoryMb)).map (·.workerId)

theorem mem_of_foldl {cs : List PlacementCandidate} {c : PlacementCandidate} :
    cs.foldl (fun best c => if c.before best then c else best) c ∈ c :: cs := by
  induction cs generalizing c with
  | nil => exact List.mem_singleton_self c
  | cons d cs ih =>
    rw [List.foldl_cons]
    rcases List.mem_cons.mp (ih (c := if d.before c then d else c)) with h | h
    · rw [h]
      split_ifs
      · exact List.mem_cons_of_mem _ List.mem_cons_self
      · exact List.mem_cons_self
    · exact List.mem_cons_of_mem _ (List.mem_cons_of_mem _ h)

theorem mem_of_least {cs : List PlacementCandidate} {c : PlacementCandidate} (h : least cs = some c) : c ∈ cs := by
  cases cs with
  | nil => cases h
  | cons d cs =>
    rw [least, Option.some.injEq] at h
    exact h ▸ mem_of_foldl

theorem place_some {fraction : ℕ → ℕ} {cs : List PlacementCandidate} {driver : DriverKind} {needed : Option ℕ}
    {w : WorkerId} (h : place fraction cs driver needed = some w) :
    ∃ c ∈ cs, c.workerId = w ∧ c.canHost fraction driver needed = true := by
  obtain ⟨c, hc, rfl⟩ := Option.map_eq_some_iff.mp h
  obtain ⟨hmem, hhost⟩ := List.mem_filter.mp (mem_of_least hc)
  exact ⟨c, hmem, rfl, hhost⟩

/-! ## The registry -/

/-- `InMemoryWorkerRegistry`. -/
structure Registry where
  workers : Dict WorkerId Worker
  sessions : Dict WorkerId ℕ
  nextSession : ℕ
  committed : Dict WorkerId (Dict ServerId ℕ)
  nextSeq : ℕ
  confirmedSeq : Dict WorkerId (Dict ServerId ℕ)
  decrementedSeq : Dict WorkerId (Dict ServerId ℕ)
  reserved : Dict WorkerId (Dict ServerId ℕ)
  drained : Finset WorkerId
  held : Dict WorkerId (Dict ServerId ℕ)

namespace Registry

/-- A fresh registry, with the drains that were persisted. -/
def new (drained : Finset WorkerId) : Registry := ⟨∅, ∅, 0, ∅, 0, ∅, ∅, ∅, drained, ∅⟩

variable (r : Registry)

def committedOf (w : WorkerId) : Dict ServerId ℕ := (r.committed.get? w).getD ∅

def reservedOf (w : WorkerId) : Dict ServerId ℕ := (r.reserved.get? w).getD ∅

def register (worker : Worker) (held : Dict ServerId ℕ) : Registry where
  workers := r.workers.set worker.id (if worker.id ∈ r.drained then { worker with draining := true } else worker)
  sessions := r.sessions.set worker.id r.nextSession
  nextSession := r.nextSession + 1
  committed := r.committed.set worker.id ∅
  nextSeq := r.nextSeq
  confirmedSeq := r.confirmedSeq.set worker.id ∅
  decrementedSeq := r.decrementedSeq.set worker.id ∅
  reserved := if (r.reserved.get? worker.id).isSome then r.reserved else r.reserved.set worker.id ∅
  drained := r.drained
  held := r.held.set worker.id held

def recordHeldGeneration (w : WorkerId) (s : ServerId) (generation : ℕ) : Registry :=
  match r.held.get? w with
  | none => r
  | some held => { r with held := r.held.set w (held.set s generation) }

def recordHeartbeat (w : WorkerId) (at' : ℕ) : Registry :=
  match r.workers.get? w with
  | none => r
  | some worker => { r with workers := r.workers.set w { worker with lastHeartbeatAt := at', disconnected := false } }

def markDisconnected (w : WorkerId) (session : ℕ) : Registry :=
  match r.workers.get? w with
  | none => r
  | some worker =>
    if r.sessions.get? w = some session then
      { r with workers := r.workers.set w { worker with disconnected := true } }
    else r

def setDraining (w : WorkerId) (draining : Bool) : Registry :=
  match r.workers.get? w with
  | none => r
  | some worker =>
    { r with
      drained := if draining then insert w r.drained else r.drained.erase w
      workers := r.workers.set w { worker with draining := draining } }

def reserve (w : WorkerId) (s : ServerId) (memoryMb : ℕ) : Registry :=
  if (r.committed.get? w).isSome then { r with reserved := r.reserved.set w ((r.reservedOf w).set s memoryMb) } else r

def releaseReservation (w : WorkerId) (s : ServerId) : Registry :=
  if (r.reserved.get? w).isSome then { r with reserved := r.reserved.set w ((r.reservedOf w).pop s) } else r

def incrementAssignment (w : WorkerId) (s : ServerId) : Registry :=
  if (r.committed.get? w).isSome then
    match (r.reservedOf w).get? s with
    | none => r
    | some memoryMb =>
      { r with
        reserved := r.reserved.set w ((r.reservedOf w).pop s)
        committed := r.committed.set w ((r.committedOf w).set s memoryMb)
        confirmedSeq := r.confirmedSeq.set w (((r.confirmedSeq.get? w).getD ∅).set s r.nextSeq)
        nextSeq := r.nextSeq + 1 }
  else r

def decrementAssignment (w : WorkerId) (s : ServerId) : Registry :=
  if (r.committed.get? w).isSome then
    { r with
      committed := r.committed.set w ((r.committedOf w).pop s)
      confirmedSeq := r.confirmedSeq.set w (((r.confirmedSeq.get? w).getD ∅).pop s)
      decrementedSeq := r.decrementedSeq.set w (((r.decrementedSeq.get? w).getD ∅).set s r.nextSeq)
      nextSeq := r.nextSeq + 1 }
  else r

/-- `_load`. -/
def load (w : WorkerId) : ℕ := (r.committedOf w).length + (r.reservedOf w).length

/-- `committed_memory_mb` and `reserved_memory_mb`. -/
def memoryMb (w : WorkerId) : ℕ := (r.committedOf w).total id + (r.reservedOf w).total id

/-- A candidate as the registry makes it, with the committed CPU of the database folded in. -/
def candidate (cpu : WorkerId → ℕ) (worker : Worker) : PlacementCandidate where
  workerId := worker.id
  drivers := worker.capabilities.drivers
  capacity := worker.capabilities.maxServers
  load := r.load worker.id
  memoryCapacityMb := worker.capabilities.memoryBytes / (1024 * 1024)
  committedMemoryMb := r.memoryMb worker.id
  committedCpuMillis := cpu worker.id

def candidatesForPlacement (now timeout : ℕ) (cpu : WorkerId → ℕ) : List PlacementCandidate :=
  ((r.workers.items.map Prod.snd).filter fun worker => worker.status now timeout = .online).map (r.candidate cpu)

/-- `FleetControlPlaneAdapter.place`: the choice and the reservation, without an await between them. -/
def place (fraction : ℕ → ℕ) (now timeout : ℕ) (cpu : WorkerId → ℕ) (s : ServerId) (memoryLimitMb : Option ℕ) :
    Registry × Option WorkerId :=
  match Placing.place fraction (r.candidatesForPlacement now timeout cpu) .container memoryLimitMb with
  | some w => (r.reserve w s (memoryLimitMb.getD 0), some w)
  | none => (r, none)

/-! ### What a step does to the loads -/

variable {r} {w x : WorkerId} {s : ServerId} {m : ℕ}

theorem reservedOf_reserve (h : (r.committed.get? w).isSome) :
    (r.reserve w s m).reservedOf x = if x = w then (r.reservedOf w).set s m else r.reservedOf x := by
  rw [reserve, if_pos h]
  unfold reservedOf
  rw [Dict.get?_set]
  split_ifs <;> rfl

theorem reservedOf_release :
    (r.releaseReservation w s).reservedOf x = if x = w then (r.reservedOf w).pop s else r.reservedOf x := by
  unfold releaseReservation
  split_ifs with h hx hx
  · subst hx
    simp [reservedOf, Dict.get?_set]
  · simp [reservedOf, Dict.get?_set, hx]
  · subst hx
    have hnone : r.reserved.get? x = none := by simpa using h
    unfold reservedOf
    rw [hnone]
    rfl
  · rfl

theorem committedOf_release : (r.releaseReservation w s).committedOf x = r.committedOf x := by
  unfold releaseReservation
  split_ifs <;> rfl

theorem committedOf_reserve : (r.reserve w s m).committedOf x = r.committedOf x := by
  unfold reserve
  split_ifs <;> rfl

theorem reservedOf_increment (h : (r.committed.get? w).isSome) :
    (r.incrementAssignment w s).reservedOf x = if x = w then (r.reservedOf w).pop s else r.reservedOf x := by
  rw [incrementAssignment, if_pos h]
  cases hs : (r.reservedOf w).get? s with
  | none =>
    split_ifs with hx
    · rw [hx, Dict.pop_of_none hs]
    · rfl
  | some m =>
    simp only [reservedOf, Dict.get?_set]
    split_ifs <;> rfl

theorem committedOf_increment (h : (r.committed.get? w).isSome) (hs : (r.reservedOf w).get? s = some m) :
    (r.incrementAssignment w s).committedOf x = if x = w then (r.committedOf w).set s m else r.committedOf x := by
  rw [incrementAssignment, if_pos h, hs]
  simp only [committedOf, Dict.get?_set]
  split_ifs <;> rfl

theorem reservedOf_decrement : (r.decrementAssignment w s).reservedOf x = r.reservedOf x := by
  unfold decrementAssignment
  split_ifs <;> rfl

theorem committedOf_decrement :
    (r.decrementAssignment w s).committedOf x = if x = w then (r.committedOf w).pop s else r.committedOf x := by
  unfold decrementAssignment
  split_ifs with h hx hx
  · subst hx
    simp [committedOf, Dict.get?_set]
  · simp [committedOf, Dict.get?_set, hx]
  · subst hx
    have hnone : r.committed.get? x = none := by simpa using h
    unfold committedOf
    rw [hnone]
    rfl
  · rfl

/-- No Worker is loaded more, or given more memory. -/
def Lighter (r' r : Registry) : Prop := ∀ w, r'.load w ≤ r.load w ∧ r'.memoryMb w ≤ r.memoryMb w

theorem lighter_release : (r.releaseReservation w s).Lighter r := by
  intro x
  unfold load memoryMb
  rw [committedOf_release, reservedOf_release]
  split_ifs with hx
  · subst hx
    exact ⟨Nat.add_le_add_left Dict.length_pop_le _, Nat.add_le_add_left Dict.total_pop_le _⟩
  · exact ⟨Nat.le_refl _, Nat.le_refl _⟩

theorem lighter_decrement : (r.decrementAssignment w s).Lighter r := by
  intro x
  unfold load memoryMb
  rw [reservedOf_decrement, committedOf_decrement]
  split_ifs with hx
  · subst hx
    exact ⟨Nat.add_le_add_right Dict.length_pop_le _, Nat.add_le_add_right Dict.total_pop_le _⟩
  · exact ⟨Nat.le_refl _, Nat.le_refl _⟩

/-- A confirmation moves what was reserved. -/
theorem lighter_increment : (r.incrementAssignment w s).Lighter r := by
  intro x
  by_cases h : (r.committed.get? w).isSome
  · cases hs : (r.reservedOf w).get? s with
    | none =>
      rw [incrementAssignment, if_pos h, hs]
      exact ⟨Nat.le_refl _, Nat.le_refl _⟩
    | some m =>
      unfold load memoryMb
      rw [reservedOf_increment h, committedOf_increment h hs]
      split_ifs with hx
      · subst hx
        rw [Dict.length_set, Dict.total_set, Dict.length_pop hs, Dict.total_pop hs]
        have hlen := Dict.length_pop_le (d := r.committedOf x) (k := s)
        have htotal := Dict.total_pop_le (d := r.committedOf x) (k := s) (f := id)
        omega
      · exact ⟨Nat.le_refl _, Nat.le_refl _⟩
  · rw [incrementAssignment, if_neg h]
    exact ⟨Nat.le_refl _, Nat.le_refl _⟩

/-! ## The records of a Worker -/

/-- What is kept of a Worker goes together, and its flag is what the operator has said of it. -/
structure Valid (r : Registry) : Prop where
  id : ∀ w worker, r.workers.get? w = some worker → worker.id = w
  committed : ∀ w, (r.workers.get? w).isSome → (r.committed.get? w).isSome
  draining : ∀ w worker, r.workers.get? w = some worker → (worker.draining = true ↔ w ∈ r.drained)

theorem valid_new {drained : Finset WorkerId} : (new drained).Valid :=
  ⟨fun _ _ h => (by cases h), fun _ h => (by cases h), fun _ _ h => (by cases h)⟩

section Valid

variable {worker worker' : Worker}

/-- The record of one Worker is replaced; the intent of the others stays. -/
theorem Valid.set {r' : Registry} (h : r.Valid) (hworkers : r'.workers = r.workers.set w worker)
    (hcommitted : ∀ x, x = w ∨ (r.committed.get? x).isSome → (r'.committed.get? x).isSome) (hid : worker.id = w)
    (hdraining : worker.draining = true ↔ w ∈ r'.drained) (hothers : ∀ x, x ≠ w → (x ∈ r'.drained ↔ x ∈ r.drained)) :
    r'.Valid := by
  refine ⟨fun x y hx => ?_, fun x hx => ?_, fun x y hx => ?_⟩
  · rw [hworkers, Dict.get?_set] at hx
    split_ifs at hx with hxw
    · cases hx
      exact hid.trans hxw.symm
    · exact h.id x y hx
  · rw [hworkers, Dict.get?_set] at hx
    split_ifs at hx with hxw
    · exact hcommitted x (.inl hxw)
    · exact hcommitted x (.inr (h.committed x hx))
  · rw [hworkers, Dict.get?_set] at hx
    split_ifs at hx with hxw
    · cases hx
      rw [hxw]
      exact hdraining
    · rw [hothers x hxw]
      exact h.draining x y hx

/-- The Workers and the intents stay as they are. -/
theorem Valid.keep {r' : Registry} (h : r.Valid) (hworkers : r'.workers = r.workers) (hdrained : r'.drained = r.drained)
    (hcommitted : ∀ x, (r.committed.get? x).isSome → (r'.committed.get? x).isSome) : r'.Valid :=
  ⟨hworkers ▸ h.id, fun x hx => hcommitted x (h.committed x (hworkers ▸ hx)), hworkers ▸ hdrained ▸ h.draining⟩

theorem isSome_set {d : Dict WorkerId (Dict ServerId ℕ)} {v : Dict ServerId ℕ} (hx : x = w ∨ (d.get? x).isSome) :
    ((d.set w v).get? x).isSome := by
  rw [Dict.get?_set]
  split_ifs with h
  · rfl
  · exact hx.resolve_left h

theorem Valid.register {held : Dict ServerId ℕ} (h : r.Valid) (hfresh : worker.draining = false) :
    (r.register worker held).Valid := by
  refine h.set rfl (fun x hx => isSome_set hx) ?_ ?_ fun _ _ => .rfl
  · split_ifs <;> rfl
  · unfold Registry.register
    split_ifs with hd <;> simp [hd, hfresh]

/-- The record of a Worker that is there is replaced. -/
theorem Valid.replace {r' : Registry} (h : r.Valid) (hw : r.workers.get? w = some worker)
    (hworkers : r'.workers = r.workers.set w worker') (hcommitted : r'.committed = r.committed)
    (hid : worker'.id = worker.id) (hdraining : worker'.draining = true ↔ w ∈ r'.drained)
    (hothers : ∀ x, x ≠ w → (x ∈ r'.drained ↔ x ∈ r.drained)) : r'.Valid := by
  refine h.set hworkers (fun x hx => ?_) (hid.trans (h.id w worker hw)) hdraining hothers
  rw [hcommitted]
  rcases hx with rfl | hx
  · exact h.committed x (by rw [hw]; rfl)
  · exact hx

theorem Valid.recordHeartbeat {n : ℕ} (h : r.Valid) : (r.recordHeartbeat w n).Valid := by
  unfold Registry.recordHeartbeat
  split
  · exact h
  · next worker hw =>
    exact h.replace hw rfl rfl rfl (h.draining w worker hw) fun _ _ => .rfl

theorem Valid.markDisconnected {session : ℕ} (h : r.Valid) : (r.markDisconnected w session).Valid := by
  unfold Registry.markDisconnected
  split
  · exact h
  · next worker hw =>
    split_ifs
    · exact h.replace hw rfl rfl rfl (h.draining w worker hw) fun _ _ => .rfl
    · exact h

theorem Valid.setDraining {b : Bool} (h : r.Valid) : (r.setDraining w b).Valid := by
  unfold Registry.setDraining
  split
  · exact h
  · next worker hw =>
    refine h.replace hw rfl rfl rfl ?_ fun x hx => ?_
    · cases b <;> simp
    · cases b <;> simp [hx]

theorem Valid.reserve (h : r.Valid) : (r.reserve w s m).Valid := by
  unfold Registry.reserve
  split_ifs
  · exact h.keep rfl rfl fun _ hx => hx
  · exact h

theorem Valid.releaseReservation (h : r.Valid) : (r.releaseReservation w s).Valid := by
  unfold Registry.releaseReservation
  split_ifs
  · exact h.keep rfl rfl fun _ hx => hx
  · exact h

theorem Valid.incrementAssignment (h : r.Valid) : (r.incrementAssignment w s).Valid := by
  unfold Registry.incrementAssignment
  split_ifs
  · split
    · exact h
    · exact h.keep rfl rfl fun _ hx => isSome_set (.inr hx)
  · exact h

theorem Valid.decrementAssignment (h : r.Valid) : (r.decrementAssignment w s).Valid := by
  unfold Registry.decrementAssignment
  split_ifs
  · exact h.keep rfl rfl fun _ hx => isSome_set (.inr hx)
  · exact h

theorem Valid.recordHeldGeneration {n : ℕ} (h : r.Valid) : (r.recordHeldGeneration w s n).Valid := by
  unfold Registry.recordHeldGeneration
  split
  · exact h
  · exact h.keep rfl rfl fun _ hx => hx

end Valid

/-! ## A Worker that is chosen -/

section Place

variable {fraction : ℕ → ℕ} {now timeout : ℕ} {cpu : WorkerId → ℕ} {needed : Option ℕ}

/-- A placement that finds no Worker reserves nothing. -/
theorem place_none (h : (r.place fraction now timeout cpu s needed).2 = none) :
    (r.place fraction now timeout cpu s needed).1 = r := by
  unfold place at h ⊢
  split at h
  · cases h
  · rfl

theorem place_eq (h : (r.place fraction now timeout cpu s needed).2 = some w) :
    (r.place fraction now timeout cpu s needed).1 = r.reserve w s (needed.getD 0) ∧
      ∃ x worker, r.workers.get? x = some worker ∧ worker.id = w ∧ worker.status now timeout = .online ∧
        (r.candidate cpu worker).canHost fraction .container needed = true := by
  unfold place at h ⊢
  split at h
  · next w' hw =>
    cases h
    obtain ⟨c, hc, rfl, hhost⟩ := place_some hw
    refine ⟨rfl, ?_⟩
    obtain ⟨worker, hworker, rfl⟩ := List.mem_map.mp hc
    obtain ⟨hmem, hstatus⟩ := List.mem_filter.mp hworker
    obtain ⟨⟨x, worker'⟩, hitem, rfl⟩ := List.mem_map.mp hmem
    exact ⟨x, worker', Dict.get?_eq_some.mpr hitem, rfl, of_decide_eq_true hstatus, hhost⟩
  · cases h

/-- The Worker that is chosen is online, and no operator has drained it. -/
theorem online_of_place (hr : r.Valid) (h : (r.place fraction now timeout cpu s needed).2 = some w) :
    ∃ worker, r.workers.get? w = some worker ∧ worker.status now timeout = .online ∧ w ∉ r.drained := by
  obtain ⟨-, x, worker, hx, hid, honline, -⟩ := place_eq h
  obtain rfl : x = w := (hr.id x worker hx).symm.trans hid
  refine ⟨worker, hx, honline, fun hd => ?_⟩
  have hdraining := (hr.draining x worker hx).mpr hd
  unfold Worker.status at honline
  rw [hdraining, if_pos rfl] at honline
  split_ifs at honline

/-- What a step may do to a Worker: it is not given more than it has, unless it has room for that. -/
structure Within (r' r : Registry) (fraction : ℕ → ℕ) (worker : Worker) : Prop where
  load : r'.load worker.id ≤ r.load worker.id ∨ worker.capabilities.maxServers = 0 ∨
    r'.load worker.id ≤ worker.capabilities.maxServers
  memory : r'.memoryMb worker.id ≤ r.memoryMb worker.id ∨ worker.capabilities.memoryBytes / (1024 * 1024) = 0 ∨
    r'.memoryMb worker.id + reserveMb fraction (worker.capabilities.memoryBytes / (1024 * 1024)) ≤
      worker.capabilities.memoryBytes / (1024 * 1024)

theorem Lighter.within {r' : Registry} {worker : Worker} (h : r'.Lighter r) : r'.Within r fraction worker :=
  ⟨.inl (h worker.id).1, .inl (h worker.id).2⟩

/-- **A placement keeps within what the Workers declare.** -/
theorem within_of_place (fraction : ℕ → ℕ) (now timeout : ℕ) (cpu : WorkerId → ℕ) (s : ServerId) (needed : Option ℕ)
    {worker : Worker} (hr : r.Valid) (hworker : r.workers.get? worker.id = some worker) :
    (r.place fraction now timeout cpu s needed).1.Within r fraction worker := by
  cases h : (r.place fraction now timeout cpu s needed).2 with
  | none =>
    rw [place_none h]
    exact Lighter.within fun _ => ⟨Nat.le_refl _, Nat.le_refl _⟩
  | some w =>
    obtain ⟨hplace, x, chosen, hx, hid, -, hhost⟩ := place_eq h
    obtain rfl : x = w := (hr.id x chosen hx).symm.trans hid
    have hcommitted := hr.committed x (by rw [hx]; rfl)
    rw [hplace]
    by_cases hw : worker.id = x
    · obtain rfl : worker = chosen := by
        rw [hw, hx] at hworker
        exact (Option.some.inj hworker).symm
      have hload : (r.reserve x s (needed.getD 0)).load x ≤ r.load x + 1 := by
        unfold load
        rw [committedOf_reserve, reservedOf_reserve hcommitted, if_pos rfl, Dict.length_set]
        have := Dict.length_pop_le (d := r.reservedOf x) (k := s)
        omega
      have hmemory : (r.reserve x s (needed.getD 0)).memoryMb x ≤ r.memoryMb x + needed.getD 0 := by
        unfold memoryMb
        rw [committedOf_reserve, reservedOf_reserve hcommitted, if_pos rfl, Dict.total_set]
        have := Dict.total_pop_le (d := r.reservedOf x) (k := s) (f := id)
        simp only [id] at this ⊢
        omega
      unfold PlacementCandidate.canHost PlacementCandidate.fitsMemory candidate at hhost
      simp only at hhost
      rw [hw] at hhost
      constructor
      · rw [hw]
        split_ifs at hhost with h1 h2
        all_goals omega
      · rw [hw]
        split_ifs at hhost with h1 h2 h3
        · simp only [Bool.or_eq_true, decide_eq_true_eq] at h3
          rcases h3 with h3 | h3
          · left
            omega
          · exact .inr (.inl h3)
        · have := of_decide_eq_true hhost
          right; right
          omega
    · refine Within.mk (.inl ?_) (.inl ?_)
      · unfold load
        rw [committedOf_reserve, reservedOf_reserve hcommitted, if_neg hw]
      · unfold memoryMb
        rw [committedOf_reserve, reservedOf_reserve hcommitted, if_neg hw]

end Place

end Registry

end McServerDashboard.Fleet.Placing
