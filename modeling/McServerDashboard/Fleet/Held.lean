import Mathlib.Order.Nat
import McServerDashboard.Fleet.Inventory

/-!
# The inventory never overstates

* `Worker.Known`: the Worker's tree is no older than a generation, and no swap-in makes it older.
* `Worker.Spares`: what a step leaves to the other commands at a Worker.
* **`held_le_tree`**: along every run the generation recorded for a Worker is at most that of its
  tree, so a launch that skips its hydrate boots no older working set than the store had when its
  generation was read.
-/

namespace McServerDashboard.Fleet

open Lib

variable {s s' : Inventory} {t u : ℕ} {p : Pos} {w v : WorkerId} {x x' : Worker}
  {g h store store' : Generation} {σ d : ℕ} {lane lane' : Locks (WorkerId × ℕ)}

/-! ## One Worker -/

/-- The tree is at least of generation `h`, and so is what is about to replace it. -/
def Worker.Known (x : Worker) (h : Generation) : Prop :=
  h ≤ x.tree ∧ ∀ g, x.pulled = some g → h ≤ g

structure Worker.Inv (x : Worker) (store : Generation) : Prop where
  marker : ∀ g, x.marker = some g → x.Known g
  adverts : ∀ σ g, (σ, some g) ∈ x.adverts → x.Known g
  tree : x.tree ≤ store
  pulled : ∀ g, x.pulled = some g → g ≤ store ∧ x.reserved ≠ none
  running : x.running = true → x.reserved = none

/-- What a step of `t` leaves to the other commands at `w`. -/
structure Worker.Spares (w : WorkerId) (x x' : Worker) (store : Generation) (lane : Locks (WorkerId × ℕ))
    (t : ℕ) : Prop where
  known : ∀ h, x.Known h → x'.Known h
  stream : x.stream ≤ x'.stream
  dir : x.dir ≤ x'.dir
  tree : x'.dir = x.dir → x.tree ≤ x'.tree
  reserved : ∀ u, u ≠ t → x.reserved = some u → x'.reserved = some u ∧ x'.pulled = x.pulled
  /-- A new download is of what the store has, by the lane of the current stream. -/
  pulled : ∀ g, x'.pulled = some g →
    x.pulled = some g ∨ g = store ∧ x'.stream = x.stream ∧ lane (w, x.stream) = some t

theorem Worker.Spares.refl : Worker.Spares w x x store lane t :=
  ⟨fun _ h => h, le_rfl, le_rfl, fun _ => le_rfl, fun _ _ h => ⟨h, rfl⟩, fun _ h => .inl h⟩

theorem Worker.Inv.mono (hi : x.Inv store) (hle : store ≤ store') : x.Inv store' :=
  { hi with tree := hi.tree.trans hle, pulled := fun g h => ⟨(hi.pulled g h).1.trans hle, (hi.pulled g h).2⟩ }

theorem Worker.Inv.not_pulled (hi : x.Inv store) (hr : x.reserved = none) : x.pulled = none := by
  by_contra hp
  obtain ⟨g, hg⟩ := Option.ne_none_iff_exists'.mp hp
  exact (hi.pulled g hg).2 hr

/-- Nothing is being swapped in. -/
theorem Worker.known_of_not_pulled (hp : x.pulled = none) (hle : h ≤ x.tree) : x.Known h :=
  ⟨hle, fun g hg => by rw [hp] at hg; cases hg⟩

/-! ## The invariant -/

structure Inv (s : Inventory) : Prop where
  worker : ∀ w, (s.worker w).Inv s.store
  held : ∀ w g, s.held w = some g → (s.worker w).Known g

/-- The lane stays with `t` while its stream lasts, and no hydrate of that stream is going on. -/
def Alone (s : Inventory) (t : ℕ) (w : WorkerId) (σ : ℕ) : Prop :=
  s.lane (w, σ) = some t ∧ ((s.worker w).stream = σ → (s.worker w).pulled = none)

/-- `d` was the working dir by stream `σ`. -/
def Pinned (s : Inventory) (w : WorkerId) (σ d : ℕ) : Prop :=
  σ ≤ (s.worker w).stream ∧ d ≤ (s.worker w).dir

/-- What holds of a command at the Worker. -/
def JobOk (s : Inventory) (t : ℕ) : Job → Prop
  | .queued w _ (.start skipped) => ∀ h ∈ skipped, (s.worker w).Known h
  | .pulling w σ =>
    (s.worker w).reserved = some t ∧ (s.worker w).pulled = none ∧ s.lane (w, σ) = some t
  | .pulled w g => (s.worker w).reserved = some t ∧ (s.worker w).pulled = some g
  | .swapped w g =>
    (s.worker w).reserved = some t ∧ (s.worker w).pulled = none ∧ (s.worker w).Known g
  | .packing w σ d live => Pinned s w σ d ∧ (live = true → Alone s t w σ)
  | .published w σ d g live => Pinned s w σ d ∧ (live = true → Alone s t w σ) ∧ g ≤ s.store ∧
      ((s.worker w).dir = d → g ≤ (s.worker w).tree)
  | .uploaded w d g _ => d ≤ (s.worker w).dir ∧ g ≤ s.store ∧
      ((s.worker w).dir = d → g ≤ (s.worker w).tree) ∧ ∀ g', (s.worker w).pulled = some g' → g ≤ g'
  | .atRest w => (s.worker w).reserved = some t
  | .atRestPublished w => (s.worker w).reserved = some t
  | .launching w skipped => (s.worker w).reserved = some t ∧ ∀ h ∈ skipped, (s.worker w).Known h
  | .launched skipped g => ∀ h ∈ skipped, h ≤ g
  | _ => True

/-- The answer to a hydrate is a generation that the store had before the transfer. -/
def Hydrating (s : Inventory) (w : WorkerId) (read : Option Generation) : Job → Prop
  | .queued v _ cmd => v = w ∧ cmd = .hydrate ∧ ∀ h ∈ read, h ≤ s.store
  | .pulling v _ => v = w ∧ ∀ h ∈ read, h ≤ s.store
  | .pulled v g => v = w ∧ ∀ h ∈ read, h ≤ g
  | .swapped v _ => v = w ∧ ∀ h ∈ read, (s.worker w).Known h
  | .answered (.ok declared) => ∀ h ∈ declared <|> read, (s.worker w).Known h
  | .answered _ => True
  | _ => False

def Snapshotting (s : Inventory) (w : WorkerId) : Job → Prop
  | .queued v _ cmd => v = w ∧ cmd = .snapshot
  | .packing v _ _ _ => v = w
  | .published v _ _ _ _ => v = w
  | .uploaded v _ _ _ => v = w
  | .atRest v => v = w
  | .atRestPublished v => v = w
  | .answered (.ok declared) => ∀ h ∈ declared, (s.worker w).Known h
  | .answered _ => True
  | _ => False

def FlowOk (s : Inventory) (f : Flow) (j : Job) : Prop :=
  match f with
  | .sawHeld w held _ => ∀ h ∈ held, (s.worker w).Known h
  | .toHydrate _ read => ∀ h ∈ read, h ≤ s.store
  | .hydrating w read => Hydrating s w read j
  | .toStart w skipped => ∀ h ∈ skipped, (s.worker w).Known h
  | .snapshotting w => Snapshotting s w j
  | _ => True

def Ok (s : Inventory) (t : ℕ) (p : Pos) : Prop := JobOk s t p.job ∧ FlowOk s p.flow p.job

/-! ## What a step leaves to the others -/

structure Spares (s s' : Inventory) (t : ℕ) : Prop where
  store : s.store ≤ s'.store
  worker : ∀ w, (s.worker w).Spares w (s'.worker w) s.store s.lane t
  lane : ∀ k u, u ≠ t → s.lane k = some u → s'.lane k = some u

theorem Spares.refl : Spares s s t := ⟨le_rfl, fun _ => .refl, fun _ _ _ h => h⟩

theorem Spares.known (hs : Spares s s' t) {o : Option Generation} (h : ∀ h ∈ o, (s.worker w).Known h) :
    ∀ h ∈ o, (s'.worker w).Known h :=
  fun g hg => (hs.worker w).known g (h g hg)

theorem Spares.pinned (hs : Spares s s' t) (h : Pinned s w σ d) : Pinned s' w σ d :=
  ⟨h.1.trans (hs.worker w).stream, h.2.trans (hs.worker w).dir⟩

theorem Spares.le_tree (hs : Spares s s' t) (hd : d ≤ (s.worker w).dir)
    (h : (s.worker w).dir = d → g ≤ (s.worker w).tree) : (s'.worker w).dir = d → g ≤ (s'.worker w).tree := by
  intro hd'
  have hdir := (hs.worker w).dir
  have heq : (s.worker w).dir = d := by omega
  exact (h heq).trans ((hs.worker w).tree (hd'.trans heq.symm))

/-- The lane keeps the hydrates of the stream away. -/
theorem Spares.alone (hs : Spares s s' t) (hu : u ≠ t) (hσ : σ ≤ (s.worker w).stream) (h : Alone s u w σ) :
    Alone s' u w σ := by
  refine ⟨hs.lane _ u hu h.1, fun hσ' => ?_⟩
  have hstream := (hs.worker w).stream
  have heq : (s.worker w).stream = σ := by omega
  have hp := h.2 heq
  by_contra hne
  obtain ⟨g, hg⟩ := Option.ne_none_iff_exists'.mp hne
  rcases (hs.worker w).pulled g hg with hold | ⟨-, -, hlane⟩
  · rw [hp] at hold
    cases hold
  · rw [heq, h.1] at hlane
    exact hu (Option.some.inj hlane)

theorem Spares.jobOk (hs : Spares s s' t) (hu : u ≠ t) {j : Job} (h : JobOk s u j) : JobOk s' u j := by
  cases j with
  | queued w σ cmd =>
    cases cmd with
    | start skipped => exact hs.known h
    | hydrate => trivial
    | snapshot => trivial
  | pulling w σ =>
    obtain ⟨hr, hp, hl⟩ := h
    obtain ⟨hr', hp'⟩ := (hs.worker w).reserved u hu hr
    exact ⟨hr', hp'.trans hp, hs.lane _ u hu hl⟩
  | pulled w g =>
    obtain ⟨hr', hp'⟩ := (hs.worker w).reserved u hu h.1
    exact ⟨hr', hp'.trans h.2⟩
  | swapped w g =>
    obtain ⟨hr, hp, hk⟩ := h
    obtain ⟨hr', hp'⟩ := (hs.worker w).reserved u hu hr
    exact ⟨hr', hp'.trans hp, (hs.worker w).known g hk⟩
  | packing w σ d live => exact ⟨hs.pinned h.1, fun hl => hs.alone hu h.1.1 (h.2 hl)⟩
  | published w σ d g live =>
    obtain ⟨hpin, halone, hstore, htree⟩ := h
    exact ⟨hs.pinned hpin, fun hl => hs.alone hu hpin.1 (halone hl), hstore.trans hs.store,
      hs.le_tree hpin.2 htree⟩
  | uploaded w d g live =>
    obtain ⟨hd, hstore, htree, hpulled⟩ := h
    refine ⟨hd.trans (hs.worker w).dir, hstore.trans hs.store, hs.le_tree hd htree, fun g' hg' => ?_⟩
    rcases (hs.worker w).pulled g' hg' with hold | ⟨rfl, -, -⟩
    · exact hpulled g' hold
    · exact hstore
  | atRest w | atRestPublished w => exact ((hs.worker w).reserved u hu h).1
  | launching w skipped => exact ⟨((hs.worker w).reserved u hu h.1).1, hs.known h.2⟩
  | launched skipped g => exact h
  | none => trivial
  | answered a => trivial

theorem Spares.flowOk (hs : Spares s s' t) {f : Flow} {j : Job} (h : FlowOk s f j) : FlowOk s' f j := by
  cases f with
  | sawHeld w held given | toStart w skipped => exact hs.known h
  | toHydrate w read => exact fun g hg => (h g hg).trans hs.store
  | hydrating w read =>
    cases j with
    | queued v σ cmd => exact ⟨h.1, h.2.1, fun g hg => (h.2.2 g hg).trans hs.store⟩
    | pulling v σ => exact ⟨h.1, fun g hg => (h.2 g hg).trans hs.store⟩
    | pulled v g => exact h
    | swapped v g => exact ⟨h.1, hs.known h.2⟩
    | answered a =>
      cases a with
      | ok declared => exact hs.known h
      | absent => trivial
      | failed => trivial
    | _ => exact h
  | snapshotting w =>
    cases j with
    | answered a =>
      cases a with
      | ok declared => exact hs.known h
      | absent => trivial
      | failed => trivial
    | _ => exact h
  | _ => trivial

theorem Spares.ok (hs : Spares s s' t) (hu : u ≠ t) (h : Ok s u p) : Ok s' u p :=
  ⟨hs.jobOk hu h.1, hs.flowOk h.2⟩

/-! ## Steps of the Worker -/

/-- What a step of the Worker keeps of its command. -/
structure JobSteps (s : Inventory) (t : ℕ) (j : Job) (r : Inventory × Job) : Prop where
  inv : Inv r.1
  others : Spares s r.1 t
  own : JobOk r.1 t r.2
  hydrating : ∀ w read, Hydrating s w read j → Hydrating r.1 w read r.2
  snapshotting : ∀ w, Snapshotting s w j → Snapshotting r.1 w r.2

/-- A step changes one Worker. -/
theorem inv_worker (s' : Inventory) (w : WorkerId) (x' : Worker) (hi : Inv s) (hw : s'.worker = Function.update s.worker w x') (hh : s'.held = s.held)
    (hst : s.store ≤ s'.store) (hl : ∀ k u, u ≠ t → s.lane k = some u → s'.lane k = some u)
    (hx : x'.Inv s'.store) (hsp : (s.worker w).Spares w x' s.store s.lane t) : Inv s' ∧ Spares s s' t := by
  have hsp' : Spares s s' t := by
    refine ⟨hst, fun v => ?_, hl⟩
    rw [hw]
    by_cases hv : v = w
    · subst hv
      rw [Function.update_self]
      exact hsp
    · rw [Function.update_of_ne hv]
      exact .refl
  refine ⟨⟨fun v => ?_, fun v g hg => ?_⟩, hsp'⟩
  · rw [hw]
    by_cases hv : v = w
    · subst hv
      rw [Function.update_self]
      exact hx
    · rw [Function.update_of_ne hv]
      exact (hi.worker v).mono hst
  · rw [hh] at hg
    exact (hsp'.worker v).known g (hi.held v g hg)

@[simp] theorem setWorker_worker : (s.setWorker w x).worker = Function.update s.worker w x := rfl

@[simp] theorem answer_fst {j : Job} : (s.answer t j).1 = { s with lane := s.lane.release t } := rfl

@[simp] theorem answer_snd {j : Job} : (s.answer t j).2 = j := rfl

/-- A command that is answered gives up its lane only. -/
theorem inv_answer (lane : Locks (WorkerId × ℕ)) (hi : Inv s)
    (hl : ∀ k u, u ≠ t → s.lane k = some u → lane k = some u) :
    Inv { s with lane := lane } ∧ Spares s { s with lane := lane } t :=
  ⟨⟨hi.worker, hi.held⟩, ⟨le_rfl, fun _ => .refl, hl⟩⟩

/-- The reservation given back. -/
def Worker.freed (x : Worker) : Worker := { x with reserved := none, pulled := none }

theorem Worker.Inv.freed (hi : x.Inv store) : x.freed.Inv store where
  marker g hg := known_of_not_pulled rfl (hi.marker g hg).1
  adverts σ g hg := known_of_not_pulled rfl (hi.adverts σ g hg).1
  tree := hi.tree
  pulled g hg := by cases hg
  running _ := rfl

theorem Worker.Spares.freed (h : x.Spares w x' store lane t) (hr : x.reserved = some t) :
    x.Spares w x'.freed store lane t where
  known g hg := known_of_not_pulled rfl (h.known g hg).1
  stream := h.stream
  dir := h.dir
  tree := h.tree
  reserved u hu hr' := absurd (Option.some.inj (hr'.symm.trans hr)) hu
  pulled g hg := by cases hg

/-- A command that is answered gives up its lane and its reservation. -/
theorem inv_finish (s' : Inventory) (w : WorkerId) (x' : Worker) (hi : Inv s) (hw : s'.worker = Function.update s.worker w x') (hh : s'.held = s.held)
    (hst : s.store ≤ s'.store) (hl : s'.lane = s.lane) (hr : (s.worker w).reserved = some t)
    (hx : x'.freed.Inv s'.store) (hsp : (s.worker w).Spares w x' s.store s.lane t) (j : Job) :
    Inv (s'.finish t w j).1 ∧ Spares s (s'.finish t w j).1 t := by
  refine inv_worker _ w x'.freed hi ?_ hh hst ?_ hx (hsp.freed hr)
  · show Function.update s'.worker w (s'.worker w).freed = _
    rw [hw, Function.update_self, Function.update_idem]
  · intro k u hu h
    exact Locks.release_other hu (hl ▸ h)

theorem inv_finish_same (hi : Inv s) (hr : (s.worker w).reserved = some t) (j : Job) :
    Inv (s.finish t w j).1 ∧ Spares s (s.finish t w j).1 t :=
  inv_finish s w (s.worker w) hi (Function.update_eq_self w s.worker).symm rfl le_rfl rfl hr
    (hi.worker w).freed .refl j

/-- A command fails. -/
theorem jobSteps_fail (hi : Inv s) (hr : (s.worker w).reserved = some t) {j : Job} {a : Answer}
    (ha : a = .failed ∨ a = .absent) : JobSteps s t j (s.finish t w (.answered a)) := by
  obtain ⟨hinv, hsp⟩ := inv_finish_same hi hr (.answered a)
  refine ⟨hinv, hsp, trivial, fun _ _ _ => ?_, fun _ _ => ?_⟩ <;> rcases ha with rfl | rfl <;> trivial

/-- `reserve` of a command that comes by stream `σ`. -/
theorem jobSteps_reserve (hi : Inv s) {cmd : Command} {j : Job} (hf : s.lane.Free t (w, σ))
    (hown : ∀ s', Spares s s' t → s'.lane (w, σ) = some t → (s'.worker w).reserved = some t →
      (s'.worker w).pulled = none → JobOk s' t j)
    (hhyd : ∀ s' v read, Spares s s' t → Hydrating s v read (.queued w σ cmd) → Hydrating s' v read j)
    (hsnap : ∀ s' v, Snapshotting s v (.queued w σ cmd) → Snapshotting s' v j) :
    JobSteps s t (.queued w σ cmd)
      (if (s.worker w).running || (s.worker w).reserved.isSome then
        Inventory.answer { s with lane := s.lane.take t (w, σ) } t (.answered .failed)
      else
        (Inventory.setWorker { s with lane := s.lane.take t (w, σ) } w
          { s.worker w with reserved := some t }, j)) := by
  have htake : ∀ k u, u ≠ t → s.lane k = some u → s.lane.take t (w, σ) k = some u :=
    fun k u hu h => Locks.take_other hf hu h
  split_ifs with h
  · obtain ⟨hinv, hsp⟩ := inv_answer (t := t) ((s.lane.take t (w, σ)).release t) hi
      fun k u hu h => Locks.release_other hu (htake k u hu h)
    exact ⟨hinv, hsp, trivial, fun _ _ _ => trivial, fun _ _ => trivial⟩
  · simp only [Bool.or_eq_true, not_or, Bool.not_eq_true, Option.isSome_eq_false_iff,
      Option.isNone_iff_eq_none] at h
    have hp := (hi.worker w).not_pulled h.2
    obtain ⟨hinv, hsp⟩ := inv_worker (t := t)
      (Inventory.setWorker { s with lane := s.lane.take t (w, σ) } w { s.worker w with reserved := some t })
      w { s.worker w with reserved := some t } hi rfl rfl le_rfl htake
      { (hi.worker w) with
        pulled := fun g hg => ⟨((hi.worker w).pulled g hg).1, by simp⟩
        running := fun hr => absurd hr (by simp [h.1]) }
      ⟨fun _ hk => hk, le_rfl, le_rfl, fun _ => le_rfl, fun _ _ hu => absurd (h.2.symm.trans hu) (by simp),
        fun _ hg => .inl hg⟩
    refine ⟨hinv, hsp, hown _ hsp Locks.take_self ?_ ?_, fun v read => hhyd _ v read hsp, fun v => hsnap _ v⟩
    · simp
    · simpa using hp

theorem jobSteps_begin (hi : Inv s) {cmd : Command} (hown : JobOk s t (.queued w σ cmd))
    (hσ : σ ≤ (s.worker w).stream) (hf : s.lane.Free t (w, σ)) :
    JobSteps s t (.queued w σ cmd) (beginJob t s w σ cmd) := by
  cases cmd with
  | hydrate =>
    refine jobSteps_reserve hi hf (fun s' _ hl hr hp => ⟨hr, hp, hl⟩) ?_ ?_
    · rintro s' v read hsp ⟨hv, -, hread⟩
      exact ⟨hv, fun g hg => (hread g hg).trans hsp.store⟩
    · rintro s' v ⟨-, hc⟩
      cases hc
  | start skipped =>
    refine jobSteps_reserve hi hf (fun s' hsp _ hr _ => ⟨hr, hsp.known hown⟩) ?_ ?_
    · rintro s' v read - ⟨-, hc, -⟩
      cases hc
    · rintro s' v ⟨-, hc⟩
      cases hc
  | snapshot =>
    show JobSteps s t _ (if (s.worker w).running then _ else _)
    by_cases hrun : (s.worker w).running = true
    · rw [if_pos hrun]
      obtain ⟨hinv, hsp⟩ := inv_answer _ hi fun k u hu h => Locks.take_other hf hu h
      refine ⟨hinv, hsp, ⟨⟨hσ, le_rfl⟩, fun _ => ⟨Locks.take_self, fun _ => ?_⟩⟩, ?_, fun v hv => hv.1⟩
      · exact (hi.worker w).not_pulled ((hi.worker w).running hrun)
      · rintro v read ⟨-, hc, -⟩
        cases hc
    · rw [if_neg hrun]
      refine jobSteps_reserve hi hf (fun s' _ _ hr _ => hr) ?_ fun s' v hv => hv.1
      rintro s' v read - ⟨-, hc, -⟩
      cases hc

theorem jobSteps_pull (hi : Inv s) (hown : JobOk s t (.pulling w σ)) (hσ : (s.worker w).stream = σ) :
    JobSteps s t (.pulling w σ)
      (s.setWorker w { s.worker w with pulled := some s.store }, .pulled w s.store) := by
  obtain ⟨hr, hp, hl⟩ := hown
  subst hσ
  have hx := hi.worker w
  have hknown : ∀ h, (s.worker w).Known h → Worker.Known { s.worker w with pulled := some s.store } h :=
    fun h hk => ⟨hk.1, fun g hg => Option.some.inj hg ▸ hk.1.trans hx.tree⟩
  obtain ⟨hinv, hsp⟩ := inv_worker (t := t) (s.setWorker w { s.worker w with pulled := some s.store })
    w { s.worker w with pulled := some s.store } hi rfl rfl le_rfl (fun _ _ _ h => h)
    { hx with
      marker := fun g hg => hknown g (hx.marker g hg)
      adverts := fun σ g hg => hknown g (hx.adverts σ g hg)
      pulled := fun g hg => ⟨(Option.some.inj hg).ge, by simp [hr]⟩ }
    ⟨hknown, le_rfl, le_rfl, fun _ => le_rfl,
      fun u hu h => absurd (Option.some.inj (h.symm.trans hr)) hu,
      fun g hg => .inr ⟨(Option.some.inj hg).symm, rfl, hl⟩⟩
  refine ⟨hinv, hsp, ⟨by simpa using hr, by simp⟩, ?_, fun v hv => hv.elim⟩
  rintro v read ⟨hv, hread⟩
  exact ⟨hv, hread⟩

/-- The download takes the place of the working set. -/
theorem jobSteps_swap (hi : Inv s) (hown : JobOk s t (.pulled w g)) (hg : x'.Known g) (htree : x'.tree ≤ s.store)
    (hx : x' = { s.worker w with marker := some 0, pulled := none } ∧ g = 0 ∨
      x' = { s.worker w with dir := (s.worker w).dir + 1, tree := g, marker := some g, pulled := none }) :
    JobSteps s t (.pulled w g) (s.setWorker w x', .swapped w g) := by
  obtain ⟨hr, hp⟩ := hown
  have hinv := hi.worker w
  have hknown : ∀ h, (s.worker w).Known h → x'.Known h := by
    intro h hk
    rcases hx with ⟨rfl, -⟩ | rfl
    · exact Worker.known_of_not_pulled rfl hk.1
    · exact Worker.known_of_not_pulled rfl (hk.2 g hp)
  have hr' : x'.reserved = some t := by rcases hx with ⟨rfl, -⟩ | rfl <;> exact hr
  have hp' : x'.pulled = none := by rcases hx with ⟨rfl, -⟩ | rfl <;> rfl
  have hm : x'.marker = some g := by rcases hx with ⟨rfl, rfl⟩ | rfl <;> rfl
  have ha : x'.adverts = (s.worker w).adverts := by rcases hx with ⟨rfl, -⟩ | rfl <;> rfl
  have hrun : x'.running = (s.worker w).running := by rcases hx with ⟨rfl, -⟩ | rfl <;> rfl
  have hst : x'.stream = (s.worker w).stream := by rcases hx with ⟨rfl, -⟩ | rfl <;> rfl
  obtain ⟨hinv', hsp⟩ := inv_worker (t := t) (s.setWorker w x') w x' hi rfl rfl le_rfl (fun _ _ _ h => h)
    { marker := fun h hh => by
        rw [hm, Option.some.injEq] at hh
        exact hh ▸ hg
      adverts := fun σ h hh => hknown h (hinv.adverts σ h (ha ▸ hh))
      tree := htree
      pulled := fun h hh => by rw [hp'] at hh; cases hh
      running := fun h => by
        rw [hrun] at h
        rw [hinv.running h] at hr
        cases hr }
    ⟨hknown, hst.ge, by rcases hx with ⟨rfl, -⟩ | rfl <;> simp,
      fun hd => by
        rcases hx with ⟨rfl, -⟩ | rfl
        · exact le_rfl
        · simp at hd,
      fun u hu h => absurd (Option.some.inj (h.symm.trans hr)) hu,
      fun h hh => by rw [hp'] at hh; cases hh⟩
  have hw : (s.setWorker w x').worker w = x' := by simp
  refine ⟨hinv', hsp, ⟨by rw [hw, hr'], by rw [hw, hp'], by rwa [hw]⟩, ?_, fun v hv => hv.elim⟩
  rintro v read ⟨rfl, hread⟩
  refine ⟨rfl, fun h hh => ?_⟩
  rw [hw]
  exact Worker.known_of_not_pulled hp' ((hread h hh).trans hg.1)

/-- The store publishes what is uploaded from directory `d`. -/
theorem inv_publish (hi : Inv s) : Inv (s.publish w d) ∧ Spares s (s.publish w d) t := by
  have hx := hi.worker w
  have hle : (s.worker w).tree ≤ if (s.worker w).dir = d then s.store + 1 else (s.worker w).tree := by
    split_ifs
    · exact hx.tree.trans (Nat.le_succ _)
    · exact le_rfl
  have hknown : ∀ h, (s.worker w).Known h → Worker.Known { s.worker w with
      tree := if (s.worker w).dir = d then s.store + 1 else (s.worker w).tree } h :=
    fun h hk => ⟨hk.1.trans hle, hk.2⟩
  refine inv_worker _ w _ hi rfl rfl (Nat.le_succ _) (fun _ _ _ h => h)
    { marker := fun g hg => hknown g (hx.marker g hg)
      adverts := fun σ g hg => hknown g (hx.adverts σ g hg)
      tree := ?_
      pulled := fun g hg => ⟨(hx.pulled g hg).1.trans (Nat.le_succ _), (hx.pulled g hg).2⟩
      running := hx.running }
    ⟨hknown, le_rfl, le_rfl, fun _ => hle, fun _ _ h => ⟨h, rfl⟩, fun _ h => .inl h⟩
  show (if _ then s.store + 1 else _) ≤ s.store + 1
  split_ifs
  · exact le_rfl
  · exact hx.tree.trans (Nat.le_succ _)

@[simp] theorem publish_worker : (s.publish w d).worker w =
    { s.worker w with tree := if (s.worker w).dir = d then s.store + 1 else (s.worker w).tree } := by
  simp [Inventory.publish]

theorem jobSteps_pack (hi : Inv s) {live : Bool} (hown : JobOk s t (.packing w σ d live)) :
    JobSteps s t (.packing w σ d live) (s.publish w d, .published w σ d (s.store + 1) live) := by
  obtain ⟨hinv, hsp⟩ := inv_publish (t := t) (w := w) (d := d) hi
  refine ⟨hinv, hsp, ⟨hsp.pinned hown.1, fun hl => ?_, le_rfl, fun hd => ?_⟩, fun _ _ h => h.elim,
    fun _ h => h⟩
  · obtain ⟨hlane, hp⟩ := hown.2 hl
    exact ⟨hlane, by simpa using hp⟩
  · rw [publish_worker] at hd ⊢
    exact (if_pos hd).ge

/-- The upload returns while its stream is up. -/
theorem jobSteps_upload (hi : Inv s) (hown : JobOk s t (.published w σ d g true))
    (hσ : (s.worker w).stream = σ) :
    JobSteps s t (.published w σ d g true) (s, .uploaded w d g true) := by
  obtain ⟨hpin, halone, hstore, htree⟩ := hown
  refine ⟨hi, .refl, ⟨hpin.2, hstore, htree, fun g' hg' => ?_⟩, fun _ _ h => h.elim, fun _ h => h⟩
  rw [(halone rfl).2 hσ] at hg'
  cases hg'

/-- `recordGenerationIfUnchanged`. -/
theorem inv_record (hi : Inv s) (hg : (s.worker w).Known g) :
    Inv (s.setWorker w { s.worker w with marker := some g }) ∧
      Spares s (s.setWorker w { s.worker w with marker := some g }) t := by
  refine inv_worker _ w { s.worker w with marker := some g } hi rfl rfl le_rfl (fun _ _ _ h => h)
    { hi.worker w with marker := fun h hh => ?_ }
    ⟨fun _ h => h, le_rfl, le_rfl, fun _ => le_rfl, fun _ _ h => ⟨h, rfl⟩, fun _ h => .inl h⟩
  rw [Option.some.injEq] at hh
  exact hh ▸ hg

theorem jobSteps_uploaded (hi : Inv s) {live : Bool} (hown : JobOk s t (.uploaded w d g live)) (ok : Bool) :
    JobSteps s t (.uploaded w d g live) (advanceWork t s ok (.uploaded w d g live)) := by
  obtain ⟨-, -, htree, hpulled⟩ := hown
  show JobSteps s t _ (if _ then (if _ then _ else _) else if _ then _ else _)
  by_cases hd : ((s.worker w).dir = d && ok) = true
  · rw [if_pos hd]
    simp only [Bool.and_eq_true, decide_eq_true_eq] at hd
    have hg : (s.worker w).Known g := ⟨htree hd.1, hpulled⟩
    obtain ⟨hinv, hsp⟩ := inv_record (t := t) hi hg
    cases live with
    | true =>
      obtain ⟨hinv', hsp'⟩ := inv_answer (t := t) _ hinv fun _ _ hu h => Locks.release_other hu h
      refine ⟨hinv', ⟨hsp.store, hsp.worker, hsp'.lane⟩, trivial, fun _ _ h => h.elim, ?_⟩
      rintro v rfl h hh
      cases hh
      exact (hsp.worker w).known g hg
    | false => exact ⟨hinv, hsp, trivial, fun _ _ _ => trivial, fun _ _ => trivial⟩
  · rw [if_neg hd]
    cases live with
    | true =>
      obtain ⟨hinv', hsp'⟩ := inv_answer (t := t) _ hi fun _ _ hu h => Locks.release_other hu h
      refine ⟨hinv', hsp', trivial, fun _ _ h => h.elim, ?_⟩
      rintro v - h hh
      cases hh
    | false => exact ⟨hi, .refl, trivial, fun _ _ _ => trivial, fun _ _ => trivial⟩

/-- `removeScratch`. -/
theorem jobSteps_remove (hi : Inv s) (hown : (s.worker w).reserved = some t) (ok : Bool) :
    JobSteps s t (.atRestPublished w) (advanceWork t s ok (.atRestPublished w)) := by
  have hx := hi.worker w
  suffices h : ∀ s', (s' = s ∨
      s' = s.setWorker w { s.worker w with dir := (s.worker w).dir + 1, marker := none }) →
      Inv (s'.finish t w (.answered (.ok none))).1 ∧
        Spares s (s'.finish t w (.answered (.ok none))).1 t by
    obtain ⟨hinv, hsp⟩ := h (if ok then s.setWorker w
      { s.worker w with dir := (s.worker w).dir + 1, marker := none } else s) (by cases ok <;> simp)
    refine ⟨hinv, hsp, trivial, fun _ _ h => h.elim, ?_⟩
    rintro v - h hh
    cases hh
  rintro s' (rfl | rfl)
  · exact inv_finish_same hi hown _
  · refine inv_finish (s.setWorker w { s.worker w with dir := (s.worker w).dir + 1, marker := none }) w
      { s.worker w with dir := (s.worker w).dir + 1, marker := none } hi rfl rfl le_rfl rfl hown
      { hx.freed with marker := fun g hg => by cases hg } ?_ _
    exact ⟨fun _ h => h, le_rfl, Nat.le_succ _, fun hd => absurd hd (by simp), fun _ _ h => ⟨h, rfl⟩,
      fun _ h => .inl h⟩

theorem jobSteps_launch (hi : Inv s) {skipped : Option Generation}
    (hown : JobOk s t (.launching w skipped)) (ok : Bool) :
    JobSteps s t (.launching w skipped) (advanceWork t s ok (.launching w skipped)) := by
  have hx := hi.worker w
  cases hm : (s.worker w).marker with
  | none =>
    have h : advanceWork t s ok (.launching w skipped) = s.finish t w (.answered .absent) := by
      simp only [advanceWork, hm]
    rw [h]
    exact jobSteps_fail hi hown.1 (.inr rfl)
  | some g =>
    have h : advanceWork t s ok (.launching w skipped) =
        (s.setWorker w { s.worker w with running := true }).finish t w
          (.launched skipped (s.worker w).tree) := by
      simp only [advanceWork, hm]
    rw [h]
    obtain ⟨hinv, hsp⟩ := inv_finish (s.setWorker w { s.worker w with running := true }) w
      { s.worker w with running := true } hi rfl rfl le_rfl rfl hown.1
      { hx.freed with running := fun _ => rfl }
      ⟨fun _ h => h, le_rfl, le_rfl, fun _ => le_rfl, fun _ _ h => ⟨h, rfl⟩, fun _ h => .inl h⟩
      (.launched skipped (s.worker w).tree)
    exact ⟨hinv, hsp, fun h hh => (hown.2 h hh).1, fun _ _ h => h.elim, fun _ h => h.elim⟩

theorem jobSteps_work (hi : Inv s) {j : Job} (hown : JobOk s t j) (hc : canWork t s j) (ok : Bool) :
    JobSteps s t j (advanceWork t s ok j) := by
  cases j with
  | queued w σ cmd => exact jobSteps_begin hi hown hc.1 hc.2
  | pulling w σ => exact jobSteps_pull hi hown hc
  | pulled w g =>
    have hle := (hi.worker w).pulled g hown.2
    show JobSteps s t _ (if _ then _ else _)
    split_ifs with h
    · simp only [Bool.and_eq_true, decide_eq_true_eq] at h
      obtain ⟨rfl, -⟩ := h
      exact jobSteps_swap hi hown (Worker.known_of_not_pulled rfl (Nat.zero_le _)) (hi.worker w).tree
        (.inl ⟨rfl, rfl⟩)
    · exact jobSteps_swap hi hown (Worker.known_of_not_pulled rfl le_rfl) hle.1 (.inr rfl)
  | swapped w g =>
    obtain ⟨hinv, hsp⟩ := inv_finish_same hi hown.1 (.answered (.ok (if ok then some g else none)))
    refine ⟨hinv, hsp, trivial, ?_, fun v hv => hv.elim⟩
    rintro v read ⟨rfl, hread⟩ h hh
    refine (hsp.worker w).known h ?_
    cases ok with
    | true =>
      cases hh
      exact hown.2.2
    | false => exact hread h (by simpa using hh)
  | packing w σ d live => exact jobSteps_pack hi hown
  | published w σ d g live =>
    obtain ⟨rfl, hσ⟩ := hc
    exact jobSteps_upload hi hown hσ
  | uploaded w d g live => exact jobSteps_uploaded hi hown ok
  | atRest w =>
    obtain ⟨hinv, hsp⟩ := inv_publish (t := t) (w := w) (d := (s.worker w).dir) hi
    exact ⟨hinv, hsp, by simpa [JobOk, advanceWork] using hown, fun _ _ h => h.elim, fun _ h => h⟩
  | atRestPublished w => exact jobSteps_remove hi hown ok
  | launching w skipped => exact jobSteps_launch hi hown ok
  | none => exact hc.elim
  | launched skipped g => exact hc.elim
  | answered a => exact hc.elim

/-- The command of a snapshot is answered while its body goes on. -/
theorem jobSteps_late (j' : Job) (hi : Inv s) {j : Job} (hown : JobOk s t j')
    (hlane : ∀ lane, JobOk s t j' → JobOk { s with lane := lane } t j')
    (hhyd : ∀ w read, ¬ Hydrating s w read j)
    (hsnap : ∀ s' w, Snapshotting s w j → Snapshotting s' w j') : JobSteps s t j (s.answer t j') := by
  obtain ⟨hinv, hsp⟩ := inv_answer (t := t) _ hi fun _ _ hu h => Locks.release_other hu h
  exact ⟨hinv, hsp, hlane _ hown, fun w read h => absurd h (hhyd w read), fun w => hsnap _ w⟩

theorem jobSteps_same (hi : Inv s) {j : Job} (hown : JobOk s t j) : JobSteps s t j (s, j) :=
  ⟨hi, .refl, hown, fun _ _ h => h, fun _ h => h⟩

theorem jobSteps_fault (hi : Inv s) {j : Job} (hown : JobOk s t j) : JobSteps s t j (faultWork t s j) := by
  cases j with
  | pulling w σ | pulled w g | launching w skipped => exact jobSteps_fail hi hown.1 (.inl rfl)
  | atRest w => exact jobSteps_fail hi hown (.inl rfl)
  | packing w σ d live =>
    refine jobSteps_late (.packing w σ d false) hi ⟨hown.1, fun h => ?_⟩
      (fun _ h => ⟨h.1, fun hl => ?_⟩) (fun _ _ h => h) fun _ _ h => h
    · cases h
    · cases hl
  | published w σ d g live =>
    obtain ⟨hpin, -, hstore, htree⟩ := hown
    refine jobSteps_late (.published w σ d g false) hi ⟨hpin, fun h => ?_, hstore, htree⟩
      (fun _ h => ⟨h.1, fun hl => ?_, h.2.2⟩) (fun _ _ h => h) fun _ _ h => h
    · cases h
    · cases hl
  | uploaded w d g live =>
    exact jobSteps_late (.uploaded w d g false) hi hown (fun _ h => h) (fun _ _ h => h) fun _ _ h => h
  | queued w σ cmd | swapped w g | atRestPublished w | none | launched skipped g | answered a =>
    exact jobSteps_same hi hown

/-! ## Steps of the threads -/

structure Steps (s : Inventory) (t : ℕ) (r : Inventory × Pos) : Prop where
  inv : Inv r.1
  own : Ok r.1 t r.2
  others : Spares s r.1 t

theorem JobSteps.steps {r : Inventory × Job} (h : JobSteps s t p.job r) (hf : FlowOk s p.flow p.job) :
    Steps s t (r.1, { p with job := r.2 }) := by
  refine ⟨h.inv, ⟨h.own, ?_⟩, h.others⟩
  have hf' := h.others.flowOk hf
  show FlowOk r.1 p.flow r.2
  cases hp : p.flow with
  | hydrating w read =>
    rw [hp] at hf
    exact h.hydrating w read hf
  | snapshotting w =>
    rw [hp] at hf
    exact h.snapshotting w hf
  | sawHeld w held given | toHydrate w read | toStart w skipped =>
    rw [hp] at hf'
    exact hf'
  | _ => trivial

/-- Only the flow of the thread moves. -/
theorem Steps.flow (hi : Inv s) (hown : JobOk s t p.job) {f : Flow} (hf : FlowOk s f p.job) :
    Steps s t (s, { p with flow := f }) := ⟨hi, ⟨hown, hf⟩, .refl⟩

/-- What the API records is known. -/
theorem Steps.record (hi : Inv s) (hown : JobOk s t p.job) {f : Flow} (hf : FlowOk s f p.job)
    {o : Option Generation} (ho : ∀ h ∈ o, (s.worker w).Known h) :
    Steps s t (s.record w o, { p with flow := f }) := by
  cases o with
  | none => exact .flow hi hown hf
  | some g =>
    have hsp : Spares s (s.record w (some g)) t := ⟨le_rfl, fun _ => .refl, fun _ _ _ h => h⟩
    have hsp' : Spares s (s.record w (some g)) (t + 1) := ⟨le_rfl, fun _ => .refl, fun _ _ _ h => h⟩
    refine ⟨⟨hi.worker, fun v h hv => ?_⟩, ⟨hsp'.jobOk (by omega) hown, hsp.flowOk hf⟩, hsp⟩
    by_cases hvw : v = w
    · subst hvw
      simp only [Inventory.record, Function.update_self, Option.some.injEq] at hv
      exact ho h (hv ▸ rfl)
    · simp only [Inventory.record, Function.update_of_ne hvw] at hv
      exact hi.held v h hv

/-- A command is sent, if a session is open. -/
theorem Steps.dispatch (hi : Inv s) {cmd : Command} {f : Flow}
    (hown : ∀ σ, JobOk s t (.queued w σ cmd)) (hf : ∀ σ, FlowOk s f (.queued w σ cmd)) :
    Steps s t (s.dispatch w cmd f) := by
  rw [Inventory.dispatch]
  cases s.session w with
  | none => exact ⟨hi, ⟨trivial, trivial⟩, .refl⟩
  | some σ => exact ⟨hi, ⟨hown σ, hf σ⟩, .refl⟩

theorem steps_api (hi : Inv s) (hown : Ok s t p) (ok : Bool) : Steps s t (advanceApi s ok p) := by
  obtain ⟨f, j⟩ := p
  obtain ⟨hj, hf⟩ := hown
  cases f with
  | idle => exact ⟨hi, ⟨hj, hf⟩, .refl⟩
  | «over» => exact ⟨hi, ⟨hj, hf⟩, .refl⟩
  | assigned w given => exact .flow hi hj fun h hh => hi.held w h hh
  | sawHeld w held given =>
    show Steps s t (if _ then _ else _)
    split_ifs with hskip
    · refine .flow hi hj fun h hh => ?_
      -- The store's generation is at most the one that is held.
      cases hh
      obtain ⟨g, hg, hle⟩ := (Option.any_eq_true _ _).mp hskip
      have hk := hf g hg
      have hle : given.getD s.store ≤ g := of_decide_eq_true hle
      exact ⟨hle.trans hk.1, fun g' hg' => hle.trans (hk.2 g' hg')⟩
    · exact .flow hi hj trivial
  | beforeHydrate w =>
    refine .flow hi hj fun h hh => ?_
    cases ok with
    | true => exact (Option.some.inj hh).ge
    | false => cases hh
  | toHydrate w read => exact .dispatch hi (fun _ => trivial) fun _ => ⟨rfl, rfl, hf⟩
  | hydrating w read =>
    cases j with
    | answered a =>
      cases a with
      | ok declared => exact .record (f := .toStart w none) hi hj (fun h hh => by cases hh) hf
      | absent | failed => exact .flow hi hj trivial
    | _ => exact .flow hi hj trivial
  | toStart w skipped => exact .dispatch hi (fun _ => hf) fun _ => trivial
  | starting w skipped =>
    cases j with
    | answered a =>
      cases a with
      | absent =>
        show Steps s t (if _ then _ else _)
        split_ifs <;> exact .flow hi hj trivial
      | ok declared | failed => exact .flow hi hj trivial
    | _ => exact .flow hi hj trivial
  | toSnapshot w => exact .dispatch hi (fun _ => trivial) fun _ => ⟨rfl, rfl⟩
  | snapshotting w =>
    cases j with
    | answered a =>
      cases a with
      | ok declared => exact .record (f := .over) hi hj trivial hf
      | absent | failed => exact .flow hi hj trivial
    | _ => exact .flow hi hj trivial

/-- A step that changes one Worker and no command. -/
theorem Steps.worker (hi : Inv s) (hown : Ok s t p) (w : WorkerId) (x' : Worker) (hx : x'.Inv s.store)
    (hsp : ∀ t, (s.worker w).Spares w x' s.store s.lane t) : Steps s t (s.setWorker w x', p) := by
  have h : ∀ t, Inv (s.setWorker w x') ∧ Spares s (s.setWorker w x') t := fun t =>
    inv_worker _ w x' hi rfl rfl le_rfl (fun _ _ _ h => h) hx (hsp t)
  exact ⟨(h t).1, (h (t + 1)).2.ok (by omega) hown, (h t).2⟩

theorem steps_post (hi : Inv s) (hown : Ok s t p) (a : Action) (hpre : threadPre t s p a) :
    Steps s t (threadPost t s p a) := by
  cases a with
  | launch w given | place w | snapshot w | giveUp => exact .flow hi hown.1 trivial
  | api ok => exact steps_api hi hown ok
  | work ok => exact (jobSteps_work hi hown.1 hpre ok).steps hown.2
  | fault => exact (jobSteps_fault hi hown.1).steps hown.2
  | exit w =>
    exact .worker hi hown w _ { hi.worker w with running := fun h => by cases h }
      fun _ => ⟨fun _ h => h, le_rfl, le_rfl, fun _ => le_rfl, fun _ _ h => ⟨h, rfl⟩, fun _ h => .inl h⟩
  | reconnect w =>
    refine .worker hi hown w _ { hi.worker w with adverts := fun σ g hg => ?_ }
      fun _ => ⟨fun _ h => h, Nat.le_succ _, le_rfl, fun _ => le_rfl, fun _ _ h => ⟨h, rfl⟩,
        fun _ h => .inl h⟩
    rcases List.mem_cons.mp hg with h | h
    · exact (hi.worker w).marker g (Prod.mk.inj h).2.symm
    · exact (hi.worker w).adverts σ g h
  | register w n =>
    have hsp : ∀ t, Spares s (threadPost t s p (.register w n)).1 t :=
      fun _ => ⟨le_rfl, fun _ => .refl, fun _ _ _ h => h⟩
    refine ⟨⟨hi.worker, fun v g hg => ?_⟩, (hsp (t + 1)).ok (by omega) hown, hsp t⟩
    by_cases hv : v = w
    · subst hv
      simp only [threadPost, Function.update_self, Option.bind_eq_some_iff] at hg
      obtain ⟨⟨σ, m⟩, hx, hm⟩ := hg
      have hm : m = some g := hm
      subst hm
      exact (hi.worker v).adverts σ g (List.mem_of_getElem? hx)
    · simp only [threadPost, Function.update_of_ne hv] at hg
      exact hi.held v g hg
  | openSession w n =>
    have hsp : ∀ t, Spares s (threadPost t s p (.openSession w n)).1 t :=
      fun _ => ⟨le_rfl, fun _ => .refl, fun _ _ _ h => h⟩
    exact ⟨⟨hi.worker, hi.held⟩, (hsp (t + 1)).ok (by omega) hown, hsp t⟩
  | edit =>
    have hsp : ∀ t, Spares s (threadPost t s p .edit).1 t :=
      fun _ => ⟨Nat.le_succ _, fun _ => .refl, fun _ _ _ h => h⟩
    exact ⟨⟨fun w => (hi.worker w).mono (Nat.le_succ _), hi.held⟩, (hsp (t + 1)).ok (by omega) hown,
      hsp t⟩

theorem holds_start : Threads.Holds Inv Ok start := by
  refine ⟨⟨fun w => ⟨?_, ?_, le_rfl, ?_, ?_⟩, ?_⟩, fun t => ⟨trivial, trivial⟩⟩
  all_goals intros; simp_all [start]

theorem holds_reach {c : Conf} (h : threads.machine.Reach Machine.Any start c) : Threads.Holds Inv Ok c :=
  Threads.invariant h holds_start fun c t a hc hpre _ => by
    have hstep := steps_post hc.shared (hc.thread t) a hpre
    exact ⟨hstep.inv, hstep.own, fun _ hu h => hstep.others.ok hu h⟩

/-- **The inventory never overstates.** The generation recorded for a Worker is at most that of its
tree, and a launch that skipped its hydrate boots a tree no older than the store was when its
generation was read. -/
theorem held_le_tree {c : Conf} (h : threads.machine.Reach Machine.Any start c) :
    (∀ w g, c.shared.held w = some g → g ≤ (c.shared.worker w).tree) ∧
      ∀ t store g, (c.th t).job = .launched (some store) g → store ≤ g := by
  have hc := holds_reach h
  refine ⟨fun w g hg => (hc.shared.held w g hg).1, fun t store g hj => ?_⟩
  have hown := (hc.thread t).1
  rw [hj] at hown
  exact hown store rfl

/-- A placement hydrates generation 1, and after the instance exited the next launch skips it. -/
theorem held_le_tree_skip : ∃ c : Conf, threads.machine.Reach Machine.Any start c ∧
    (c.shared.held 0 = some 1 ∧ (c.th 2).job = .launched (some 1) 1) ∧
      (∀ w g, c.shared.held w = some g → g ≤ (c.shared.worker w).tree) ∧
        ∀ t store g, (c.th t).job = .launched (some store) g → store ≤ g := by
  have hrun : (threads.machine.exec
      [(0, .edit), (0, .reconnect 0), (0, .register 0 0), (0, .openSession 0 0),
        (1, .place 0), (1, .api true), (1, .api true), (1, .work true), (1, .work true),
        (1, .work true), (1, .work true), (1, .api true), (1, .api true), (1, .work true),
        (1, .work true), (1, .api true), (0, .exit 0),
        (2, .launch 0 false), (2, .api true), (2, .api true), (2, .api true), (2, .work true),
        (2, .work true)] start).map
      (fun c => decide (c.shared.held 0 = some 1 ∧ (c.th 2).job = .launched (some 1) 1)) = some true := by
    decide +kernel
  obtain ⟨c, hc, hb⟩ := Machine.reach_of_exec_map hrun
  exact ⟨c, hc, of_decide_eq_true hb, held_le_tree hc⟩

end McServerDashboard.Fleet
