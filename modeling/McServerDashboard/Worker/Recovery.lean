import McServerDashboard.Worker.Displaced

/-!
# The copy that stands for a displaced set

The runs of the scratch with a record of their past: which tree of the slot stands for a superseded set,
and which trees the snapshots' sweeps were let delete.

* `Spares`: a condition on the state before the step. No crash, and no refused rename, comes while a
  working set stands under a name that the boot reclaims and nothing stands in the slot for it.
* `Accounts`: every set that went has a record, and a tree that stands for another stays.
* **`parked_set_kept`**: in such runs a parked set is under a name until its hydrate is done with it, a
  failed swap-in puts it back, and what goes had a copy in the slot or was published.
* `sweep_leaves_no_copy`: a sweep between the slot check and the park, and then a crash, leave no copy.
-/

namespace McServerDashboard.Worker.Scratch

open Lib

/-! ## The record -/

/-- Which tree stands for which superseded set, and what the sweeps were let delete. -/
structure History where
  stands : List (ℕ × ℕ)
  taken : List (ℕ × Cause)

/-- The set that a hydrate has beside the slot and has not decided on. -/
def Pc.beside : Pc → Option ℕ
  | .swapping _ (some (l, .superseded)) => some l
  | .restoring l .superseded => some l
  | .dropping _ l => some l
  | .reparking _ l => some l
  | _ => none

/-- The tree that a sweep has taken out of the slot, and its sweeper as long as that has to look at its
guard. -/
def Pc.out : Pc → Option (ℕ × Option Sweeper)
  | .sweep v (.verifying y) => some (y, some v)
  | .sweep _ (.returning y) => some (y, none)
  | _ => none

/-- What the thread with the reservation has beside the slot, and what the one with the claim has taken
out of it. -/
def besideSlot (c : Conf) : Option ℕ := c.shared.reserved.bind fun t => (c.th t).pc.beside

def outOfSlot (c : Conf) : Option (ℕ × Option Sweeper) := c.shared.claim.bind fun t => (c.th t).pc.out

/-- The tree in the slot stands for the set. -/
def History.stand (h : History) (l : Option ℕ) (slot : Option ℕ) : History :=
  { h with stands := (l.bind fun l => slot.map fun y => (l, y)).toList ++ h.stands }

/-- The sweep was let delete the tree, if its guard held. -/
def History.take (h : History) (s : State) (y : ℕ) (v : Sweeper) (ok : Bool) : History :=
  if v.current s && ok then { h with taken := (y, v.cause s) :: h.taken } else h

/-- What a step of a thread adds. -/
def History.advance (h : History) (s : State) (x : Choice) : Pc → History
  | .dropping _ l => h.stand (some l) s.slot
  | .reparking _ l => h.stand (some l) s.slot
  | .sweep v (.verifying y) => h.take s y v (x.ok || decide (v = .final))
  | _ => h

/-- What a crash adds: a sweep that is cut before it looks at its guard is judged by it. -/
def History.crash (h : History) (c : Conf) : History :=
  match outOfSlot c with
  | some (y, some v) => (h.stand (besideSlot c) c.shared.slot).take c.shared y v true
  | _ => h.stand (besideSlot c) c.shared.slot

def note (c : Conf) (a : ℕ × Action) (h : History) : History :=
  match a.2 with
  | .step x => h.advance c.shared x (c.th a.1).pc
  | .crash => h.crash c
  | _ => h

/-! ## The condition -/

/-- The steps that put a working set back, or leave it under a name that is reclaimed. -/
def State.returns (s : State) (x : Choice) : Pc → Bool
  | .restoring _ .slot => x.ok && s.dest.isNone && s.slot.isSome
  | .restoring _ .superseded => x.ok && s.dest.isNone
  | .dropping _ _ => x.ok || s.slot.isSome
  | .reparking _ _ => x.ok || s.slot.isSome
  | .sweep _ (.returning y) => !s.world y || x.ok && s.slot.isNone
  | _ => true

/-- A set beside the slot has a tree in it, and a working set out of the slot is let go by its sweep. -/
def mayCrash (c : Conf) : Bool :=
  ((besideSlot c).isNone || c.shared.slot.isSome) &&
    match outOfSlot c with
    | some (y, v) => !c.shared.world y || v.any fun v => v.current c.shared
    | none => true

def spares (c : Conf) (a : ℕ × Action) : Bool :=
  match a.2 with
  | .step x => c.shared.returns x (c.th a.1).pc
  | .crash => mayCrash c
  | _ => true

abbrev Spares (x : Conf × History) (a : ℕ × Action) : Prop := spares x.1 a = true

/-! ## What the record accounts for -/

/-- What is under a name that is reclaimed, or gone, has a record; a tree that stands for another is in the
slot, or with the sweep that took it out, or was let go. -/
structure Accounts (s : State) (h : History) : Prop where
  superseded : ∀ i, s.place i = .superseded → s.pending = some i ∨ ∃ y, (i, y) ∈ h.stands
  sweeping : ∀ i, s.place i = .sweeping → s.world i = true → s.detached = some i ∨ ∃ c, (i, c) ∈ h.taken
  lost : ∀ i c, s.place i = .lost c → s.world i = true →
    c = .scratch ∨ (∃ k, (i, k) ∈ h.taken) ∨ ∃ y, (i, y) ∈ h.stands
  stands : ∀ l y, (l, y) ∈ h.stands → s.world y = true ∧ y < s.trees ∧
    (s.slot = some y ∨ s.detached = some y ∨ ∃ k, (y, k) ∈ h.taken)
  recovery : ∀ l y, (l, y) ∈ h.stands → s.aside ≠ some (y, .slot)
  taken : ∀ y c, (y, c) ∈ h.taken → s.Gone y ∧ (c = .final ∨ ∃ q, c = .swept q (some q))

/-- A position has its record. -/
def Pc.vouched (h : History) : Pc → Prop
  | .sweep _ (.removing y c) => (y, c) ∈ h.taken
  | .discarding _ l y => (l, y) ∈ h.stands
  | .failed (some (_, false)) => False
  | _ => True

variable {s s' : State} {h h' : History} {t l y k q d n : ℕ} {a : Aside} {b : Bool} {keep : List ℕ} {x : Choice}
  {p : Pc} {f : Fetched} {v : Sweeper}

/-- Nothing moves: a set that is left, or a tree that is let go, has its record. -/
theorem Accounts.still (ha : Accounts s h) (hg : ∀ i, s.Gone i → s'.Gone i)
    (hf : (s'.slot, s'.place, s'.world, s'.trees) = (s.slot, s.place, s.world, s.trees))
    (has : ∀ e, s'.aside = some e → s.aside = some e)
    (hp : ∀ i, s.pending = some i → s'.pending = some i ∨ s.place i ≠ .superseded ∨ ∃ y, (i, y) ∈ h'.stands)
    (hd : ∀ i, s.detached = some i → s'.detached = some i ∨ s.world i = false ∨ ∃ c, (i, c) ∈ h'.taken)
    (hs : ∀ e ∈ h.stands, e ∈ h'.stands) (ht : ∀ e ∈ h.taken, e ∈ h'.taken)
    (hs' : ∀ l y, (l, y) ∈ h'.stands → (l, y) ∈ h.stands ∨
      s.world y = true ∧ y < s.trees ∧ s.slot = some y ∧ s.aside ≠ some (y, .slot))
    (ht' : ∀ y c, (y, c) ∈ h'.taken → (y, c) ∈ h.taken ∨ s'.Gone y ∧ (c = .final ∨ ∃ q, c = .swept q (some q))) :
    Accounts s' h' := by
  simp only [Prod.mk.injEq] at hf
  obtain ⟨e1, e2, e3, e4⟩ := hf
  obtain ⟨h1, h2, h3, h4, h5, h6⟩ := ha
  constructor <;> simp -failIfUnchanged only [e1, e2, e3, e4] <;> grind -linarith

/-- Nothing that the record is about changes. -/
theorem Accounts.frame (ha : Accounts s h)
    (hf : (s'.slot, s'.place, s'.world, s'.trees, s'.aside, s'.pending, s'.detached) =
      (s.slot, s.place, s.world, s.trees, s.aside, s.pending, s.detached)) : Accounts s' h := by
  simp only [Prod.mk.injEq] at hf
  obtain ⟨h1, h2, h3, h4, h5, h6⟩ := ha
  constructor <;> simp -failIfUnchanged only [State.Gone, hf] <;> assumption

theorem Accounts.sweepLeftovers (ha : Accounts s h) (hr : Leaves s (s.sweepLeftovers keep) t) (hp : s.pending = none) :
    Accounts (s.sweepLeftovers keep) h := by
  have hg := hr.gone
  obtain ⟨h1, h2, h3, h4, h5, h6⟩ := ha
  constructor <;> simp only [State.sweepLeftovers] at hg ⊢ <;> grind -linarith

theorem Accounts.create {w : Place} {m : Option ℕ} {g : ℕ} {e : Option ℕ} (ha : Accounts s h) (hn : Names s)
    (hr : Leaves s { s.create w b m g with dest := e } t) (hw : w = .temp ∨ w = .dest) :
    Accounts { s.create w b m g with dest := e } h := by
  have hg := hr.gone
  have hfresh := hn.fresh s.trees
  obtain ⟨h1, h2, h3, h4, h5, h6⟩ := ha
  constructor <;> simp only [State.create] at hg ⊢ <;> grind -linarith

theorem Accounts.clear (ha : Accounts s h) (hn : Names s) (hy : s.slot = some y) (hs : s.world y = false)
    (hr : Leaves s { s.put y (.lost .cleared) with slot := none } t) :
    Accounts { s.put y (.lost .cleared) with slot := none } h := by
  have hg := hr.gone
  have hplace := hn.slot
  obtain ⟨h1, h2, h3, h4, h5, h6⟩ := ha
  constructor <;> simp only [State.put] at hg ⊢ <;> grind -linarith

theorem Accounts.park (ha : Accounts s h) (hn : Names s) (hd : s.dest = some l) (hs : a = .slot → s.slot = none)
    (hp : s.pending = none) (hr : Leaves s (s.park l a) t) : Accounts (s.park l a) h := by
  have hg := hr.gone
  have hdest := hn.dest
  have hslot := hn.slot
  have hdet := hn.detached
  obtain ⟨h1, h2, h3, h4, h5, h6⟩ := ha
  constructor <;> simp only [State.park, State.put] at hg ⊢ <;> cases a <;> grind -linarith [Aside.place, State.Gone]

theorem Accounts.swapIn (ha : Accounts s h)
    (hr : Leaves s { s.put n .dest with dest := some n, aside := none } t) :
    Accounts { s.put n .dest with dest := some n, aside := none } h := by
  have hg := hr.gone
  obtain ⟨h1, h2, h3, h4, h5, h6⟩ := ha
  constructor <;> simp only [State.put] at hg ⊢ <;> grind -linarith

theorem Accounts.restoreSlot (ha : Accounts s h) (hn : Names s) (hy : s.slot = some y)
    (hl : s.aside = some (y, .slot))
    (hr : Leaves s { s.put y .dest with slot := none, dest := some y, aside := none } t) :
    Accounts { s.put y .dest with slot := none, dest := some y, aside := none } h := by
  have hg := hr.gone
  have hslot := hn.slot
  have hdet := hn.detached
  obtain ⟨h1, h2, h3, h4, h5, h6⟩ := ha
  constructor <;> simp only [State.put] at hg ⊢ <;> grind -linarith

theorem Accounts.restoreSuperseded (ha : Accounts s h) (hp : s.pending = some l)
    (hr : Leaves s { s.put l .dest with dest := some l, aside := none, pending := none } t) :
    Accounts { s.put l .dest with dest := some l, aside := none, pending := none } h := by
  have hg := hr.gone
  obtain ⟨h1, h2, h3, h4, h5, h6⟩ := ha
  constructor <;> simp only [State.put] at hg ⊢ <;> grind -linarith

theorem Accounts.discard (ha : Accounts s h) (hp : s.pending = some l) (hl : (l, k) ∈ h.stands)
    (hr : Leaves s { s.put l (.lost (.dropped k)) with pending := none } t) :
    Accounts { s.put l (.lost (.dropped k)) with pending := none } h := by
  have hg := hr.gone
  obtain ⟨h1, h2, h3, h4, h5, h6⟩ := ha
  constructor <;> simp only [State.put] at hg ⊢ <;> grind -linarith

theorem Accounts.repark (ha : Accounts s h) (hs : s.slot = none) (hp : s.pending = some l)
    (hr : Leaves s { s.put l .slot with slot := some l, pending := none } t) :
    Accounts { s.put l .slot with slot := some l, pending := none } h := by
  have hg := hr.gone
  obtain ⟨h1, h2, h3, h4, h5, h6⟩ := ha
  constructor <;> simp only [State.put] at hg ⊢ <;> grind -linarith

theorem Accounts.scratch (ha : Accounts s h) (hr : Leaves s { s.put d (.lost .scratch) with dest := none } t) :
    Accounts { s.put d (.lost .scratch) with dest := none } h := by
  have hg := hr.gone
  obtain ⟨h1, h2, h3, h4, h5, h6⟩ := ha
  constructor <;> simp only [State.put] at hg ⊢ <;> grind -linarith

theorem Accounts.detach (ha : Accounts s h) (hn : Names s) (hd : s.detached = none) (hy : s.slot = some y)
    (hr : Leaves s { s.put y .sweeping with slot := none, detached := some y } t) :
    Accounts { s.put y .sweeping with slot := none, detached := some y } h := by
  have hg := hr.gone
  have hslot := hn.slot
  obtain ⟨h1, h2, h3, h4, h5, h6⟩ := ha
  constructor <;> simp only [State.put] at hg ⊢ <;> grind -linarith

theorem Accounts.putBack (ha : Accounts s h) (hs : s.slot = none) (hd : s.detached = some y)
    (hr : Leaves s { s.releaseSlot.put y .slot with slot := some y } t) :
    Accounts { s.releaseSlot.put y .slot with slot := some y } h := by
  have hg := hr.gone
  obtain ⟨h1, h2, h3, h4, h5, h6⟩ := ha
  constructor <;> simp only [State.put, State.releaseSlot] at hg ⊢ <;> grind -linarith

theorem Accounts.sweep {c : Cause} (ha : Accounts s h) (hy : (y, c) ∈ h.taken) (hr : Leaves s (s.put y (.lost c)) t) :
    Accounts (s.put y (.lost c)) h := by
  have hg := hr.gone
  obtain ⟨h1, h2, h3, h4, h5, h6⟩ := ha
  constructor <;> simp only [State.put] at hg ⊢ <;> grind -linarith

theorem Accounts.reclaim (ha : Accounts s h) (hp : s.pending = none) (hd : s.detached = none) :
    Accounts (s.reclaim keep) h := by
  obtain ⟨h1, h2, h3, h4, h5, h6⟩ := ha
  constructor <;> simp only [State.reclaim] <;> grind -linarith [State.Gone]

theorem Accounts.play (ha : Accounts s h) (hn : Names s) (hd : s.dest = some d) :
    Accounts { s with world := Function.update s.world d true } h := by
  have hdest := hn.dest
  obtain ⟨h1, h2, h3, h4, h5, h6⟩ := ha
  constructor <;> simp only [State.Gone] at h6 ⊢ <;> grind -linarith

/-! ## The steps of a hydrate -/

/-- The step keeps the record, and the position that it comes to has its own. -/
def Recorded (h : History) (r : State × Pc) : Prop := Accounts r.1 h ∧ r.2.vouched h

theorem recorded_fetching (hn : Names s) (ha : Accounts s h) : Recorded h (advance t s x .fetching) := by
  show Recorded h (if _ then (if _ then _ else if _ then _ else _) else _)
  split_ifs
  · exact ⟨ha.create hn (Renames.unpack hn (t := t)).others (.inl rfl), trivial⟩
  · exact ⟨ha.create hn (Renames.unpack hn (t := t)).others (.inl rfl), trivial⟩
  · exact ⟨ha, trivial⟩
  · exact ⟨ha, trivial⟩

theorem recorded_unpacked (ha : Accounts s h) : Recorded h (advance t s x (.unpacked f)) := by
  show Recorded h (if _ then _ else _)
  split_ifs
  · split
    · exact ⟨ha, trivial⟩
    · exact ⟨ha, trivial⟩
    · split_ifs
      · exact ⟨ha, trivial⟩
      · exact ⟨ha, trivial⟩
  · exact ⟨ha, trivial⟩

theorem recorded_clearing (hn : Names s) (hk : Knows s t (.clearing f)) (ha : Accounts s h) :
    Recorded h (advance t s x (.clearing f)) := by
  obtain ⟨hr, haside, -, hs⟩ := hk.stage
  refine ⟨?_, trivial⟩
  show Accounts (if _ then s.clearSlot else s) h
  split_ifs
  · unfold State.clearSlot
    split
    · next y hy => exact ha.clear hn hy (hs.1 y hy) (hn.clear hr haside hy (hs.1 y hy)).others
    · exact ha
  · exact ha

theorem recorded_parking (hn : Names s) (hk : Knows s t (.parking f a)) (ha : Accounts s h) :
    Recorded h (advance t s x (.parking f a)) := by
  have hq : s.reserved = some t ∧ s.pending = none := by
    have := hk.stage
    cases a <;> grind -linarith [Pc.stage, Stage.Ok]
  simp only [advance]
  split
  · next l hd =>
    split_ifs with hx
    · exact ⟨ha.park hn hd hx.2 hq.2 (.park hn hq.1 hd hx.2), trivial⟩
    · exact ⟨ha, trivial⟩
  · exact ⟨ha, trivial⟩

theorem recorded_swapping {parked : Option (ℕ × Aside)} (hn : Names s) (hk : Knows s t (.swapping f parked))
    (ha : Accounts s h) : Recorded h (advance t s x (.swapping f parked)) := by
  have ht := hk.tree f.tree rfl
  have hr : s.reserved = some t :=
    hk.stage.reserved (by rcases parked with _ | ⟨l, a⟩ <;> simp [Pc.stage])
  show Recorded h (if _ then _ else _)
  split_ifs with hx
  · refine ⟨ha.swapIn (Renames.swapIn hn hr hx.2 ht).others, ?_⟩
    rcases parked with _ | ⟨l, _ | _⟩ <;> trivial
  · rcases parked with _ | ⟨l, a⟩
    · exact ⟨ha, trivial⟩
    · exact ⟨ha, trivial⟩

/-- A rename back that meets nothing in its way. -/
theorem recorded_restoring (hn : Names s) (hk : Knows s t (.restoring l a)) (ha : Accounts s h)
    (hx : s.returns x (.restoring l a) = true) : Recorded h (advance t s x (.restoring l a)) := by
  obtain ⟨hr, haside, hp, -⟩ := hk.stage
  cases a with
  | slot =>
    simp only [State.returns, Bool.and_eq_true, Option.isNone_iff_eq_none, Option.isSome_iff_exists] at hx
    obtain ⟨⟨hok, hd⟩, y, hy⟩ := hx
    obtain rfl := (hn.displaced l haside).2.1 y hy
    have he : advance t s x (.restoring y .slot) =
        ({ s.put y .dest with slot := none, dest := some y, aside := none }, .failed (some (y, true))) := by
      simp [advance, hy, hok, hd]
    rw [he]
    exact ⟨ha.restoreSlot hn hy haside (Renames.restoreSlot hn hr hd hy haside).others, trivial⟩
  | superseded =>
    simp only [State.returns, Bool.and_eq_true, Option.isNone_iff_eq_none] at hx
    obtain ⟨hok, hd⟩ := hx
    have hl := hn.aside l haside
    have he : advance t s x (.restoring l .superseded) =
        ({ s.put l .dest with dest := some l, aside := none, pending := none }, .failed (some (l, true))) := by
      simp [advance, hl, hok, hd]
    rw [he]
    exact ⟨ha.restoreSuperseded hp (Renames.restoreSuperseded hn hr hd haside).others, trivial⟩

/-- What is in the slot at the decision stands for the superseded set. -/
theorem Accounts.stand (ha : Accounts s h) (hr : Leaves s s' t)
    (hf : (s'.slot, s'.place, s'.world, s'.trees, s'.detached) = (s.slot, s.place, s.world, s.trees, s.detached))
    (hn : Names s) (hs : s.SlotIs true) (haside : s.aside = none) (haside' : s'.aside = none)
    (hp : s.pending = some l) (hl : s'.pending = some l ∨ s.slot ≠ none) :
    Accounts s' (h.stand (some l) s.slot) := by
  simp only [Prod.mk.injEq] at hf
  obtain ⟨e1, e2, e3, e4, e5⟩ := hf
  refine ha.still hr.gone (by simp [e1, e2, e3, e4]) (fun e he => ?_) (fun i hi => ?_) (fun i hi => .inl (e5.trans hi))
    (fun e he => List.mem_append_right _ he) (fun e he => he) (fun l' y hy => ?_) (fun y c hy => .inl hy)
  · simp [haside'] at he
  · obtain rfl : l = i := by simpa [hp] using hi
    rcases hl with hl | hl
    · exact .inl hl
    · obtain ⟨y, hy⟩ := Option.ne_none_iff_exists'.mp hl
      exact .inr (.inr ⟨y, by simp [History.stand, hy]⟩)
  · rcases List.mem_append.mp hy with hy | hy
    · obtain ⟨z, hz⟩ : ∃ z, s.slot = some z := by
        cases hz : s.slot with
        | none => simp [hz] at hy
        | some z => exact ⟨z, rfl⟩
      obtain ⟨rfl, rfl⟩ : l' = l ∧ y = z := by simpa [hz] using hy
      refine .inr ⟨hs.1 y hz, ?_, hz, by simp [haside]⟩
      have := (hn.slot y).mp hz
      have := hn.fresh y
      grind -linarith
    · exact .inl hy

theorem recorded_dropping (hn : Names s) (hk : Knows s t (.dropping f l)) (ha : Accounts s h)
    (hx : s.returns x (.dropping f l) = true) :
    Recorded (h.advance s x (.dropping f l)) (advance t s x (.dropping f l)) := by
  obtain ⟨hr, haside, hp, -, hs⟩ := hk.stage
  show Recorded (h.stand (some l) s.slot) (if _ then _ else _)
  split_ifs with hok
  · refine ⟨?_, ?_⟩
    · split <;> exact ha.stand (same (t := t) hn).others rfl hn hs haside haside hp (.inl hp)
    · split
      · next y hy =>
        show (l, y) ∈ (h.stand (some l) s.slot).stands
        simp [History.stand, hy]
      · trivial
  · refine ⟨ha.stand (Renames.stray hn hr).others rfl hn hs haside haside hp (.inr ?_), trivial⟩
    simpa [State.returns, hok, Option.isSome_iff_ne_none] using hx

theorem recorded_reparking (hn : Names s) (hk : Knows s t (.reparking f l)) (ha : Accounts s h)
    (hx : s.returns x (.reparking f l) = true) :
    Recorded (h.advance s x (.reparking f l)) (advance t s x (.reparking f l)) := by
  obtain ⟨hr, haside, hp, hl, hs⟩ := hk.stage
  show Recorded (h.stand (some l) s.slot) (if _ then _ else _)
  split_ifs with hok
  · have he : h.stand (some l) s.slot = h := by simp [History.stand, hok.2]
    rw [he]
    exact ⟨ha.repark hok.2 hp (Renames.repark hn hr hl haside hok.2).others, trivial⟩
  · refine ⟨ha.stand (Renames.stray hn hr).others rfl hn hs haside haside hp (.inr fun hslot => ?_), trivial⟩
    have hx : x.ok = true := by simpa [State.returns, hslot] using hx
    exact hok ⟨hx, hslot⟩

theorem recorded_discarding (hn : Names s) (hk : Knows s t (.discarding f l k)) (ha : Accounts s h)
    (hv : (l, k) ∈ h.stands) : Recorded h (advance t s x (.discarding f l k)) := by
  obtain ⟨hr, haside, hp, hl, hw, hknown⟩ := hk.stage
  exact ⟨ha.discard hp hv (Renames.discard hn hr hl haside ⟨hw, hn.lt hknown⟩).others, trivial⟩

/-- The hydrate fails with nothing parked, or after it has renamed the set back. -/
theorem recorded_failed {parked : Option (ℕ × Bool)} (hk : Knows s t (.failed parked))
    (ha : Accounts s h) (hv : (Pc.failed parked).vouched h) : Recorded h (advance t s x (.failed parked)) := by
  have hq : s.reserved = some t ∧ s.aside = none ∧ s.pending = none := by
    have := hk.stage
    rcases parked with _ | ⟨l, _ | _⟩
    · exact this
    · exact hv.elim
    · exact ⟨this.1, this.2.1, this.2.2.1⟩
  refine ⟨ha.frame ?_, trivial⟩
  simp [advance, hq]

/-! ## Stamps and sweeps -/

theorem vouched_over {w : Writer} {declared : Option ℕ} : (w.over declared).vouched h := by
  obtain ⟨g, _ | _⟩ := w <;> trivial

theorem recorded_write {w : Writer} {j : WritePc} (hn : Names s) (ha : Accounts s h) :
    Recorded h (writeStep t s x w j) := by
  have stay {s'} {j'} (hs : Accounts s' h) : Recorded h (s', .write w j') := ⟨hs, trivial⟩
  have ends {s'} {declared} (hs : Accounts s' h) : Recorded h (s', w.over declared) := ⟨hs, vouched_over⟩
  have hsee : Accounts (s.see t) h := by
    unfold State.see
    split
    · exact ha.frame rfl
    · exact ha
  cases j with
  | making =>
    show Recorded h (if _ then _ else _)
    split_ifs
    · refine ⟨?_, trivial⟩
      show Accounts s.mkdirAll h
      unfold State.mkdirAll
      split
      · exact ha
      · next hd => exact ha.create hn (hn.make (t := t) hd).others (.inr rfl)
    · exact ends (ha.frame rfl)
  | opening =>
    simp only [writeStep]
    split
    · split_ifs
      · exact stay (ha.frame rfl)
      · exact ends (ha.frame rfl)
    · exact ends (ha.frame rfl)
  | rechecking d =>
    show Recorded h (if _ then _ else _)
    split_ifs
    · exact stay hsee
    · exact ends (hsee.frame rfl)
  | clearing d => exact ends (ha.frame rfl)
  | _ =>
    show Recorded h (if _ then _ else _)
    split_ifs
    · exact stay (ha.frame rfl)
    · exact ends (ha.frame rfl)

theorem vouched_sweep_over : v.over.vouched h := by
  cases v <;> trivial

theorem mem_take {e : ℕ × Cause} {ok : Bool} (he : e ∈ h.taken) : e ∈ (h.take s y v ok).taken := by
  unfold History.take
  split
  · exact List.mem_cons_of_mem _ he
  · exact he

/-- A tree that its sweep is let delete. -/
theorem Accounts.take (ha : Accounts s h) (hn : Names s) (hk : Knows s t (.sweep v (.verifying y)))
    (hv : v.current s = true) (hr : Leaves s s.releaseSlot t) :
    Accounts s.releaseSlot { h with taken := (y, v.cause s) :: h.taken } := by
  obtain ⟨-, hd⟩ := hk.claim (some y) rfl
  obtain ⟨haside, hcause⟩ := hk.settled hn hv
  have hgone : s.releaseSlot.Gone y := by
    refine ⟨.inl (hn.detached y hd), nofun, fun a => ?_⟩
    rw [show s.releaseSlot.aside = none from haside]
    exact nofun
  refine ha.still hr.gone rfl (fun e he => he) (fun i hi => .inl hi) (fun i hi => ?_) (fun e he => he)
    (fun e he => List.mem_cons_of_mem _ he) (fun l y hy => .inl hy) (fun z c hz => ?_)
  · obtain rfl : y = i := by simpa [hd] using hi
    exact .inr (.inr ⟨_, List.mem_cons_self⟩)
  · rcases List.mem_cons.mp hz with hz | hz
    · obtain ⟨rfl, rfl⟩ := Prod.mk.inj hz
      exact .inr ⟨hgone, hcause⟩
    · exact .inl hz

/-- The claim is released over no tree, or over one without a working set. -/
theorem Accounts.release (ha : Accounts s h) (hr : Leaves s s.releaseSlot t)
    (hd : ∀ y, s.detached = some y → s.world y = false) : Accounts s.releaseSlot h :=
  ha.still hr.gone rfl (fun _ he => he) (fun _ hi => .inl hi) (fun i hi => .inr (.inl (hd i hi))) (fun _ he => he)
    (fun _ he => he) (fun _ _ hy => .inl hy) (fun _ _ hy => .inl hy)

theorem leaves_release (hn : Names s) (hc : s.claim = some t) : Leaves s s.releaseSlot t := by
  have hr : Renames s s.releaseSlot t := .still hn rfl id (.inl rfl) (.inr (.inr ⟨hc, rfl, rfl⟩))
  exact hr.others

theorem recorded_verifying (hn : Names s) (hk : Knows s t (.sweep v (.verifying y))) (ha : Accounts s h) :
    Recorded (h.take s y v (x.ok || decide (v = .final))) (sweepStep t s x v (.verifying y)) := by
  show Recorded _ (if _ then _ else _)
  split_ifs with hx
  · have he : h.take s y v (x.ok || decide (v = .final)) = { h with taken := (y, v.cause s) :: h.taken } := by
      simp [History.take, hx.1, hx.2]
    rw [he]
    exact ⟨ha.take hn hk hx.1 (leaves_release hn (hk.claim (some y) rfl).1), List.mem_cons_self⟩
  · have he : h.take s y v (x.ok || decide (v = .final)) = h := by
      rw [History.take, if_neg (by simpa using hx)]
    rw [he]
    exact ⟨ha, trivial⟩

theorem recorded_returning (hn : Names s) (hk : Knows s t (.sweep v (.returning y))) (ha : Accounts s h)
    (hx : s.returns x (.sweep v (.returning y)) = true) : Recorded h (sweepStep t s x v (.returning y)) := by
  obtain ⟨hc, hd⟩ := hk.claim (some y) rfl
  have hr := leaves_release hn hc
  show Recorded h (if _ then _ else _)
  split_ifs with hp
  · exact ⟨ha.putBack hp.2.2 hd (Renames.putBack hn hc hp.2.2 hd).others, vouched_sweep_over⟩
  · refine ⟨ha.release hr fun z hz => ?_, vouched_sweep_over⟩
    obtain rfl : y = z := by simpa [hd] using hz
    by_contra hw
    simp [State.returns, hw] at hx
    exact hp ⟨hx.1, .inl (by simpa using hw), hx.2⟩

theorem recorded_sweep {j : SweepPc} (hn : Names s) (hk : Knows s t (.sweep v j)) (ha : Accounts s h)
    (hv : (Pc.sweep v j).vouched h) (hx : s.returns x (.sweep v j) = true) :
    Recorded (h.advance s x (.sweep v j)) (sweepStep t s x v j) := by
  cases j with
  | claiming =>
    show Recorded h (if _ then _ else _)
    split_ifs with hc
    · exact ⟨ha.frame rfl, trivial⟩
    · exact ⟨ha, vouched_sweep_over⟩
  | detaching =>
    obtain ⟨hc, hd⟩ := hk.claim none rfl
    have hrel : Accounts s.releaseSlot h := ha.release (leaves_release hn hc) (by simp [hd])
    show Recorded h (sweepStep t s x v .detaching)
    simp only [sweepStep]
    split
    · next y hy =>
      split_ifs
      · exact ⟨ha.detach hn hd hy (Renames.detach hn hc hy).others, trivial⟩
      · exact ⟨hrel, vouched_sweep_over⟩
    · exact ⟨hrel, vouched_sweep_over⟩
  | verifying y => exact recorded_verifying hn hk ha
  | returning y => exact recorded_returning hn hk ha hx
  | removing y c =>
    obtain ⟨hg, hcause⟩ := hk.removes v y c rfl
    refine ⟨?_, vouched_sweep_over⟩
    show Accounts (if _ then _ else _) h
    split_ifs with hp
    · exact ha.sweep hv (Renames.sweep hn hg hp.2 hcause (t := t)).others
    · exact ha

/-! ## Any step -/

theorem recorded_leftovers {p' : Pc} (hn : Names s) (hq : Stage.quiet.Ok s t) (ha : Accounts s h)
    (hp : p'.vouched h) : Recorded h (s.sweepLeftovers keep, p') :=
  ⟨ha.sweepLeftovers (Renames.sweepLeftovers hn hq.1 hq.2.1).others hq.2.2, hp⟩

theorem recorded_advance (hn : Names s) (hk : Knows s t p) (ha : Accounts s h) (hv : p.vouched h)
    (hx : s.returns x p = true) : Recorded (h.advance s x p) (advance t s x p) := by
  cases p with
  | leftovers | finalLeftovers => exact recorded_leftovers hn hk.stage ha trivial
  | fetching => exact recorded_fetching hn ha
  | unpacked f => exact recorded_unpacked ha
  | clearing f => exact recorded_clearing hn hk ha
  | parking f a => exact recorded_parking hn hk ha
  | swapping f parked => exact recorded_swapping hn hk ha
  | restoring l a => exact recorded_restoring hn hk ha hx
  | dropping f l => exact recorded_dropping hn hk ha hx
  | discarding f l k => exact recorded_discarding hn hk ha hv
  | reparking f l => exact recorded_reparking hn hk ha hx
  | recording f | gating d q declared =>
    show Recorded h (if _ then _ else _)
    split_ifs
    · exact ⟨ha, trivial⟩
    · exact ⟨ha, trivial⟩
  | failed parked => exact recorded_failed hk ha hv
  | write w j => exact recorded_write hn ha
  | releasing declared => exact ⟨ha.frame rfl, trivial⟩
  | pinned d =>
    show Recorded h (advance t s x _)
    simp only [advance]
    split
    · split_ifs
      · exact ⟨ha, trivial⟩
      · exact ⟨ha, trivial⟩
    · exact ⟨ha, trivial⟩
  | packed d q =>
    show Recorded h (if _ then _ else _)
    split_ifs
    · exact ⟨ha.frame rfl, trivial⟩
    · exact ⟨ha, trivial⟩
  | sweep v j => exact recorded_sweep hn hk ha hv hx
  | packing =>
    show Recorded h (advance t s x _)
    simp only [advance]
    split
    · split_ifs
      · exact ⟨ha.frame rfl, trivial⟩
      · exact ⟨ha, trivial⟩
    · exact ⟨ha, trivial⟩
  | removing =>
    refine ⟨?_, trivial⟩
    show Accounts (advance t s x .removing).1 h
    simp only [advance]
    split
    · next d hd =>
      split_ifs
      · exact ha.scratch (Renames.scratch hn hk.stage.1 hd hk.stage.2.1).others
      · exact ha
    · exact ha
  | idle => exact ⟨ha, trivial⟩
  | «over» declared => exact ⟨ha, trivial⟩

/-! ## Runs -/

/-- The record grows. -/
theorem note_mono {c : Conf} {e : ℕ × Action} :
    (∀ z ∈ h.stands, z ∈ (note c e h).stands) ∧ ∀ z ∈ h.taken, z ∈ (note c e h).taken := by
  have stand {h : History} {o slot : Option ℕ} :
      (∀ z ∈ h.stands, z ∈ (h.stand o slot).stands) ∧ ∀ z ∈ h.taken, z ∈ (h.stand o slot).taken :=
    ⟨fun z hz => List.mem_append_right _ hz, fun z hz => hz⟩
  have take {h : History} {y : ℕ} {v : Sweeper} {ok : Bool} :
      (∀ z ∈ h.stands, z ∈ (h.take c.shared y v ok).stands) ∧ ∀ z ∈ h.taken, z ∈ (h.take c.shared y v ok).taken := by
    unfold History.take
    split
    · exact ⟨fun z hz => hz, fun z hz => List.mem_cons_of_mem _ hz⟩
    · exact ⟨fun z hz => hz, fun z hz => hz⟩
  unfold note
  split
  · unfold History.advance
    split
    · exact stand
    · exact stand
    · exact take
    · exact ⟨fun z hz => hz, fun z hz => hz⟩
  · unfold History.crash
    split
    · exact ⟨fun z hz => take.1 z (stand.1 z hz), fun z hz => take.2 z (stand.2 z hz)⟩
    · exact stand
  · exact ⟨fun z hz => hz, fun z hz => hz⟩

theorem Pc.vouched.mono (hv : p.vouched h) (hs : ∀ z ∈ h.stands, z ∈ h'.stands)
    (ht : ∀ z ∈ h.taken, z ∈ h'.taken) : p.vouched h' := by
  unfold Pc.vouched at hv ⊢
  split
  · exact ht _ hv
  · exact hs _ hv
  · exact hv
  · trivial

variable {c : Conf}

/-- Who holds the reservation, or the claim, is under way. -/
theorem knows_of_holds (hc : Threads.Holds Inv Ok c) (ht : c.shared.reserved = some t ∨ c.shared.claim = some t) :
    Knows c.shared t (c.th t).pc := by
  by_contra hk
  obtain ⟨h1, h2⟩ := (hc.thread t).stale fun hb => hk ((hc.thread t).knows hb)
  exact ht.elim h1 h2

/-- What a set beside the slot was parked for is in the slot, or with the sweep that took it out. -/
theorem beside_spec (hc : Threads.Holds Inv Ok c) (hb : besideSlot c = some l) :
    c.shared.pending = some l ∧ c.shared.SlotIs true ∧ ∀ y, c.shared.aside ≠ some (y, .slot) := by
  obtain ⟨t, ht, hl⟩ := Option.bind_eq_some_iff.mp hb
  have hs := (knows_of_holds hc (.inl ht)).stage
  unfold Pc.beside at hl
  split at hl
  · next he =>
    rw [he] at hs
    obtain rfl := Option.some.inj hl
    exact ⟨hs.2.2.1, hs.2.2.2 rfl, by simp [hs.2.1]⟩
  · next he =>
    rw [he] at hs
    obtain rfl := Option.some.inj hl
    exact ⟨hs.2.2.1, hs.2.2.2 rfl, by simp [hs.2.1]⟩
  · next he =>
    rw [he] at hs
    obtain rfl := Option.some.inj hl
    exact ⟨hs.2.2.1, hs.2.2.2.2, by simp [hs.2.1]⟩
  · next he =>
    rw [he] at hs
    obtain rfl := Option.some.inj hl
    exact ⟨hs.2.2.1, hs.2.2.2.2, by simp [hs.2.1]⟩
  · cases hl

/-- A superseded set that is not decided on is beside the slot, or its hydrate deletes it. -/
theorem beside_of_pending (hc : Threads.Holds Inv Ok c) (hv : ∀ t, (c.th t).pc.vouched h)
    (hp : c.shared.pending = some l) : besideSlot c = some l ∨ ∃ y, (l, y) ∈ h.stands := by
  obtain ⟨t, ht⟩ : ∃ t, c.shared.reserved = some t := by
    by_contra hr
    have := (hc.shared.names.free (by simpa [Option.eq_none_iff_forall_ne_some] using hr)).2
    simp [hp] at this
  have hs := (knows_of_holds hc (.inl ht)).stage
  have hvt := hv t
  unfold besideSlot
  rw [ht, Option.bind_some]
  generalize (c.th t).pc = p at hs hvt ⊢
  cases p with
  | swapping f parked => rcases parked with _ | ⟨i, _ | _⟩ <;> simp_all [Pc.stage, Stage.Ok, Pc.beside]
  | restoring i a => cases a <;> simp_all [Pc.stage, Stage.Ok, Pc.beside]
  | parking f a => cases a <;> simp_all [Pc.stage, Stage.Ok]
  | failed parked => rcases parked with _ | ⟨i, _ | _⟩ <;> simp_all [Pc.stage, Stage.Ok, Pc.vouched]
  | write w j => obtain ⟨g, _ | _⟩ := w <;> simp_all [Pc.stage, Stage.Ok]
  | sweep v j => cases v <;> simp_all [Pc.stage, Stage.Ok]
  | discarding f i k =>
    obtain rfl : i = l := by simpa [hs.2.2.1] using hp
    exact .inr ⟨k, hvt⟩
  | _ => simp_all [Pc.stage, Stage.Ok, Pc.beside]

/-- Whoever has a tree out of the slot is known. -/
theorem out_of_detached (hc : Threads.Holds Inv Ok c) (hd : c.shared.detached = some y) :
    ∃ v, outOfSlot c = some (y, v) := by
  obtain ⟨t, ht⟩ : ∃ t, c.shared.claim = some t := by
    by_contra hr
    have := hc.shared.names.claim (by simpa [Option.eq_none_iff_forall_ne_some] using hr)
    simp [hd] at this
  have hk := knows_of_holds hc (.inr ht)
  have hclaims : (c.th t).pc.claims = some (some y) := by
    cases he : (c.th t).pc.claims with
    | none => exact absurd ht (hk.unclaimed he)
    | some z => rw [← hd, (hk.claim z he).2]
  unfold outOfSlot
  rw [ht, Option.bind_some]
  unfold Pc.claims at hclaims
  split at hclaims
  · cases hclaims
  · next he =>
    obtain rfl := Option.some.inj (Option.some.inj hclaims)
    exact ⟨_, by rw [he]; rfl⟩
  · next he =>
    obtain rfl := Option.some.inj (Option.some.inj hclaims)
    exact ⟨_, by rw [he]; rfl⟩
  · cases hclaims

theorem out_spec {v : Sweeper} (hc : Threads.Holds Inv Ok c) (ho : outOfSlot c = some (y, some v)) :
    ∃ t, Knows c.shared t (.sweep v (.verifying y)) := by
  obtain ⟨t, ht, hy⟩ := Option.bind_eq_some_iff.mp ho
  have hk := knows_of_holds hc (.inr ht)
  unfold Pc.out at hy
  split at hy
  · next he =>
    obtain ⟨rfl, rfl⟩ : _ = y ∧ _ = v := by simpa using hy
    exact ⟨t, he ▸ hk⟩
  · simp at hy
  · cases hy

theorem stands_crash {l y : ℕ} (hy : (l, y) ∈ (h.crash c).stands) :
    (l, y) ∈ h.stands ∨ besideSlot c = some l ∧ c.shared.slot = some y := by
  have stand (hy : (l, y) ∈ (h.stand (besideSlot c) c.shared.slot).stands) :
      (l, y) ∈ h.stands ∨ besideSlot c = some l ∧ c.shared.slot = some y := by
    refine (List.mem_append.mp hy).symm.imp_right fun hy => ?_
    obtain ⟨m, hm, hz⟩ := Option.bind_eq_some_iff.mp (Option.mem_toList.mp hy)
    obtain ⟨z, hslot, he⟩ := Option.map_eq_some_iff.mp hz
    obtain ⟨rfl, rfl⟩ := Prod.mk.inj he
    exact ⟨hm, hslot⟩
  unfold History.crash History.take at hy
  split at hy
  · split at hy <;> exact stand hy
  · exact stand hy

theorem taken_crash {k : Cause} (hy : (y, k) ∈ (h.crash c).taken) : (y, k) ∈ h.taken ∨
    ∃ v, outOfSlot c = some (y, some v) ∧ v.current c.shared = true ∧ k = v.cause c.shared := by
  unfold History.crash History.take at hy
  split at hy
  · next z v ho =>
    split_ifs at hy with hv
    · rcases List.mem_cons.mp hy with he | hy
      · obtain ⟨rfl, rfl⟩ := Prod.mk.inj he
        exact .inr ⟨v, ho, by simpa using hv, rfl⟩
      · exact .inl hy
    · exact .inl hy
  · exact .inl hy

theorem stand_of_crash (hb : besideSlot c = some l) (hy : c.shared.slot = some y) : (l, y) ∈ (h.crash c).stands := by
  unfold History.crash History.take History.stand
  split
  · split <;> simp [hb, hy]
  · simp [hb, hy]

theorem take_of_crash (ho : outOfSlot c = some (y, some v)) (hv : v.current c.shared = true) :
    (y, v.cause c.shared) ∈ (h.crash c).taken := by
  unfold History.crash
  rw [ho]
  simp [History.take, hv]

/-- A crash that spares what has no copy. -/
theorem Accounts.crash (hc : Threads.Holds Inv Ok c) (ha : Accounts c.shared h) (hv : ∀ t, (c.th t).pc.vouched h)
    (hx : mayCrash c = true) : Accounts (post t c.shared (c.th t) .crash).1 (h.crash c) := by
  have hn := hc.shared.names
  have hmono := note_mono (h := h) (c := c) (e := (t, .crash))
  obtain ⟨hslot, hout⟩ := Bool.and_eq_true_iff.mp hx
  have hgone {i} (hi : c.shared.Gone i) : (post t c.shared (c.th t) .crash).1.Gone i := ⟨hi.1, nofun, nofun⟩
  refine ha.still (fun i => hgone) rfl nofun (fun l hl => ?_) (fun y hy => ?_) hmono.1 hmono.2
    (fun l y hy => ?_) (fun y k hy => ?_)
  · rcases beside_of_pending hc hv hl with hb | ⟨y, hy⟩
    · rw [hb] at hslot
      obtain ⟨y, hy⟩ := Option.isSome_iff_exists.mp (by simpa using hslot)
      exact .inr (.inr ⟨y, stand_of_crash hb hy⟩)
    · exact .inr (.inr ⟨y, hmono.1 _ hy⟩)
  · obtain ⟨o, ho⟩ := out_of_detached hc hy
    rw [ho] at hout
    rcases Bool.or_eq_true_iff.mp hout with hw | hcur
    · exact .inr (.inl (by simpa using hw))
    · cases o with
      | none => cases hcur
      | some v => exact .inr (.inr ⟨_, take_of_crash ho hcur⟩)
  · refine (stands_crash hy).imp_right fun ⟨hb, hy⟩ => ?_
    obtain ⟨-, hs, haside⟩ := beside_spec hc hb
    refine ⟨hs.1 y hy, ?_, hy, haside y⟩
    have := (hn.slot y).mp hy
    have := hn.fresh y
    grind -linarith
  · refine (taken_crash hy).imp_right ?_
    rintro ⟨v, ho, hcur, rfl⟩
    obtain ⟨u, hk⟩ := out_spec hc ho
    obtain ⟨haside, hcause⟩ := hk.settled hn hcur
    exact ⟨⟨.inl (hn.detached y (hk.claim (some y) rfl).2), nofun, nofun⟩, hcause⟩

/-- What every state of such a run keeps. -/
structure Keeps (c : Conf) (h : History) : Prop where
  holds : Threads.Holds Inv Ok c
  accounts : Accounts c.shared h
  vouched : ∀ t, (c.th t).pc.vouched h

theorem recorded_reserve {p' : Pc} (ha : Accounts s h) (hp : p'.vouched h) :
    Recorded h (s.begin.reserve t p') := by
  unfold State.reserve
  split
  · exact ⟨ha.frame rfl, hp⟩
  · exact ⟨ha.frame rfl, trivial⟩

/-- An action keeps the record, and so does the position that its thread comes to. -/
theorem recorded_post {a : Action} (hk : Keeps c h) (hp : pre c.shared (c.th t) a) (hs : spares c (t, a) = true) :
    Recorded (note c (t, a) h) ((post t c.shared (c.th t) a).1, (post t c.shared (c.th t) a).2.pc) := by
  obtain ⟨hc, ha, hv⟩ := hk
  have hn := hc.shared.names
  cases a with
  | hydrate | final => exact recorded_reserve ha trivial
  | snapshot =>
    simp only [post]
    split
    · exact ⟨ha.frame rfl, trivial⟩
    · exact ⟨ha.frame rfl, trivial⟩
  | step x => exact recorded_advance hn ((hc.thread t).knows hp.1) ha (hv t) hs
  | play =>
    simp only [post]
    split
    · next d hd => exact ⟨ha.play hn hd, hv t⟩
    · exact ⟨ha, hv t⟩
  | publish => exact ⟨ha.frame rfl, hv t⟩
  | crash => exact ⟨ha.crash (t := t) hc hv hs, (hv t).mono note_mono.1 note_mono.2⟩
  | reclaim keep =>
    obtain ⟨-, hr, hcl⟩ := hc.shared.boots hp
    exact ⟨ha.reclaim (hn.free hr).2 (hn.claim hcl), hv t⟩

/-- The step, and so the run. -/
theorem Keeps.step {a : Action} (hk : Keeps c h) (hp : pre c.shared (c.th t) a) (hs : spares c (t, a) = true) :
    Keeps (threads.step c t a) (note c (t, a) h) := by
  obtain ⟨h1, h2, h3⟩ := steps_post hk.holds.shared (hk.holds.thread t) hp
  obtain ⟨hown, hown'⟩ := recorded_post hk hp hs
  refine ⟨hk.holds.step ⟨h1, h2, fun u hu => h3 u _ hu⟩, hown, fun u => ?_⟩
  by_cases hu : u = t
  · rw [hu, Threads.step_self]
    exact hown'
  · rw [Threads.step_ne hu]
    exact (hk.vouched u).mono note_mono.1 note_mono.2

theorem keeps_reach {z : Conf × History}
    (hr : (threads.machine.observe note).Reach Spares (start, ⟨[], []⟩) z) : Keeps z.1 z.2 := by
  refine hr.invariant (I := fun z => Keeps z.1 z.2) ?_ fun z e hz hp hs => ?_
  · refine ⟨holds (P := Machine.Any) .refl, ?_, fun t => trivial⟩
    constructor <;> simp [start]
  · obtain ⟨t, a⟩ := e
    exact hz.step hp hs

/-- What the scratch owes a parked set: a name until its hydrate is done with it, and its place back when
that fails; and what went for it. -/
structure Owed (c : Conf) (h : History) : Prop where
  swapping : ∀ t f l a, (c.th t).boot = c.shared.boot → (c.th t).pc = .swapping f (some (l, a)) →
    c.shared.Named l
  restoring : ∀ t l a, (c.th t).boot = c.shared.boot → (c.th t).pc = .restoring l a → c.shared.Named l
  failed : ∀ t l b, (c.th t).boot = c.shared.boot → (c.th t).pc = .failed (some (l, b)) →
    c.shared.dest = some l
  /-- A hydrate clears no working set out of the slot. -/
  cleared : ∀ i, c.shared.place i = .lost .cleared → c.shared.world i = false
  /-- A sweep of a running-id snapshot deletes a tree only with the working dir that it had packed. -/
  swept : ∀ i q d, c.shared.place i = .lost (.swept q d) → d = some q
  /-- A working set goes published, by `removeScratch` or let go by a sweep, or with a tree that stands for
  it. -/
  lost : ∀ i k, c.shared.place i = .lost k → c.shared.world i = true →
    k = .scratch ∨ (∃ q, (i, q) ∈ h.taken) ∨ ∃ y, (i, y) ∈ h.stands
  /-- What stands for another holds a working set, and is in the slot, or with the sweep that took it out,
  or was let go. -/
  stands : ∀ l y, (l, y) ∈ h.stands → c.shared.world y = true ∧
    (c.shared.slot = some y ∨ (∃ v, outOfSlot c = some (y, v)) ∨ ∃ q, (y, q) ∈ h.taken)
  /-- A sweep was let go a tree of a stopped id, or with the working dir that its snapshot had packed. -/
  taken : ∀ y q, (y, q) ∈ h.taken → q = .final ∨ ∃ d, q = .swept d (some d)

/-- **The parked set.** Over every run that spares what has no copy. -/
theorem parked_set_kept {z : Conf × History}
    (hr : (threads.machine.observe note).Reach Spares (start, ⟨[], []⟩) z) : Owed z.1 z.2 := by
  obtain ⟨hc, ha, hv⟩ := keeps_reach hr
  refine ⟨fun t f l a ht => (stands_of_holds hc ht).1 f l a, fun t l a ht => (stands_of_holds hc ht).2.1 l a,
    fun t l b ht hp => ?_, hc.shared.names.cleared, hc.shared.names.swept, ha.lost, fun l y hy => ?_, fun y q hq => (ha.taken y q hq).2⟩
  · cases b with
    | true => exact (stands_of_holds hc ht).2.2.1 l hp
    | false =>
      have := hv t
      rw [hp] at this
      exact this.elim
  · obtain ⟨hw, -, hy⟩ := ha.stands l y hy
    exact ⟨hw, hy.imp_right (Or.imp_left (out_of_detached hc))⟩

/-- With a recovery tree in the slot, a crash between the park and the swap-in, and the boot, leave that
tree. -/
theorem parked_set_kept_crash : ∃ z : Conf × History,
    (threads.machine.observe note).Reach Spares (start, ⟨[], []⟩) z ∧
    z.1.shared.place 1 = .lost .reclaimed ∧ z.1.shared.world 1 = true ∧ ∃ y, (1, y) ∈ z.2.stands ∧
      z.1.shared.world y = true ∧ z.1.shared.slot = some y := by
  have h : (((threads.machine.observe note).guard Spares).exec
      (hydrates 0 15 ++ hydrates 1 16 ++ hydrates 2 4 ++ [(2, .crash), (2, .reclaim [])]) (start, ⟨[], []⟩)).map
      (fun z => decide (z.1.shared.place 1 = .lost .reclaimed ∧ z.1.shared.world 1 = true ∧
        z.2.taken = [] ∧ z.1.shared.detached = none ∧ z.1.shared.claim = none)) = some true := by
    decide +kernel
  obtain ⟨z, hz, hp⟩ := Machine.reach_of_exec_map h
  obtain ⟨hplace, hworld, htaken, -, hclaim⟩ := of_decide_eq_true hp
  have hz := Machine.reach_of_guard hz
  have ho := parked_set_kept hz
  refine ⟨z, hz, hplace, hworld, ?_⟩
  obtain hk | ⟨q, hq⟩ | ⟨y, hy⟩ := ho.lost 1 _ hplace hworld
  · cases hk
  · simp [htaken] at hq
  · obtain ⟨hw, hs | ⟨v, hv⟩ | ⟨q, hq⟩⟩ := ho.stands 1 y hy
    · exact ⟨y, hy, hw, hs⟩
    · simp [outOfSlot, hclaim] at hv
    · simp [htaken] at hq

/-- The first and the second of the hydrates have left tree 1 for the working dir and tree 0 in the slot.
The sweep of a snapshot that has packed tree 1 takes tree 0 after the third hydrate has found it there, and
the crash comes after the park beside the slot that is empty by then. -/
def sweepBeforePark : List (ℕ × Action) :=
  hydrates 0 15 ++ hydrates 1 16 ++ (2, .snapshot) :: List.replicate 13 (2, .step { ok := true }) ++
    hydrates 3 3 ++ List.replicate 3 (2, .step { ok := true }) ++
    [(3, .step { ok := true }), (3, .crash), (3, .reclaim [])]

/-- Nothing stands for the set that was parked. -/
theorem sweep_leaves_no_copy : ∃ z : Conf × History,
    (threads.machine.observe note).Reach Machine.Any (start, ⟨[], []⟩) z ∧
    z.1.shared.world 1 = true ∧ z.1.shared.place 1 = .lost .reclaimed ∧ (∀ y, (1, y) ∉ z.2.stands) ∧
    (∀ q, (1, q) ∉ z.2.taken) ∧ z.1.shared.place 0 = .lost (.swept 1 (some 1)) ∧
    z.1.shared.dest = none ∧ z.1.shared.slot = none := by
  have h : ((threads.machine.observe note).exec sweepBeforePark (start, ⟨[], []⟩)).map
      (fun z => decide (z.1.shared.world 1 = true ∧ z.1.shared.place 1 = .lost .reclaimed ∧ z.2.stands = [] ∧
        z.2.taken = [(0, .swept 1 (some 1))] ∧ z.1.shared.place 0 = .lost (.swept 1 (some 1)) ∧
        z.1.shared.dest = none ∧ z.1.shared.slot = none)) = some true := by
    decide +kernel
  obtain ⟨z, hz, hp⟩ := Machine.reach_of_exec_map h
  obtain ⟨h1, h2, h3, h4, h5, h6, h7⟩ := of_decide_eq_true hp
  exact ⟨z, hz, h1, h2, by simp [h3], by simp [h4], h5, h6, h7⟩

end McServerDashboard.Worker.Scratch
