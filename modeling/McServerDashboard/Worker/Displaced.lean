import McServerDashboard.Worker.Scratch

/-!
# The set that a hydrate displaces

* `Names`: what sits under which name, and what may become of a set that was parked.
* `Stage`: what the thread with the reservation knows of the set that it has parked.
* `stands_of_holds`: a parked set is under a name as long as its hydrate is under way.
-/

namespace McServerDashboard.Worker.Scratch

open Lib

/-- What the slot holds, or what the sweep that took it out may put back, is a working set or not. -/
def State.SlotIs (s : State) (b : Bool) : Prop :=
  (∀ y, s.slot = some y → s.world y = b) ∧ (s.slot = none → ∀ y, s.detached = some y → s.world y = b)

/-- The tree has sat under a name that others read. -/
def State.Known (s : State) (i : ℕ) : Prop := s.place i ≠ .unborn ∧ s.place i ≠ .temp

/-- The tree is the working dir, or may be renamed back to it. -/
def State.Back (s : State) (i : ℕ) : Prop := s.dest = some i ∨ s.dest = none ∧ ∃ a, s.aside = some (i, a)

/-- The tree was taken out of the slot for good. -/
def State.Gone (s : State) (i : ℕ) : Prop :=
  (s.place i = .sweeping ∨ ∃ c, s.place i = .lost c) ∧ s.detached ≠ some i ∧ ∀ a, s.aside ≠ some (i, a)

structure Names (s : State) : Prop where
  dest : ∀ d, s.dest = some d ↔ s.place d = .dest
  slot : ∀ y, s.slot = some y ↔ s.place y = .slot
  fresh : ∀ i, s.place i = .unborn ↔ s.trees ≤ i
  detached : ∀ y, s.detached = some y → s.place y = .sweeping
  claim : s.claim = none → s.detached = none
  aside : ∀ l, s.aside = some (l, .superseded) → s.place l = .superseded
  displaced : ∀ l, s.aside = some (l, .slot) → (s.place l = .slot ∨ s.place l = .sweeping) ∧
    (∀ y, s.slot = some y → y = l) ∧ (s.slot = none → ∀ y, s.detached = some y → y = l)
  made : s.aside ≠ none → ∀ d, s.dest = some d → s.world d = false
  free : s.reserved = none → s.aside = none ∧ s.pending = none
  cleared : ∀ i, s.place i = .lost .cleared → s.world i = false
  dropped : ∀ i k, s.place i = .lost (.dropped k) → s.world k = true ∧ k < s.trees
  swept : ∀ i q d, s.place i = .lost (.swept q d) → d = some q

/-- What a step of `t` leaves to the others. -/
structure Leaves (s s' : State) (t : ℕ) : Prop where
  boot : s'.boot = s.boot
  booting : s'.booting = true → s.booting = true
  taken : ∀ u, u ≠ t → s'.reserved = some u → s.reserved = some u
  kept : ∀ u, u ≠ t → s.reserved = some u →
    s'.reserved = some u ∧ s'.aside = s.aside ∧ s'.pending = s.pending
  dest : ∀ u, u ≠ t → s.reserved = some u → ∀ l, s.dest = some l → s'.dest = some l
  slotIs : ∀ u, u ≠ t → s.reserved = some u → ∀ b, s.SlotIs b → s'.SlotIs b
  place : ∀ u, u ≠ t → s.reserved = some u →
    ∀ i, s.place i = .superseded ∨ s.place i = .temp → s'.place i = s.place i
  claims : ∀ u, u ≠ t → (s'.claim = some u → s.claim = some u) ∧
    (s.claim = some u → s'.claim = some u ∧ s'.detached = s.detached)
  world : ∀ i, i < s.trees → s.world i = true → s'.world i = true
  known : ∀ i, s.Known i → s'.Known i
  back : ∀ i, s.Known i → s'.Back i → s.Back i
  gone : ∀ i, s.Gone i → s'.Gone i

/-- What a step of `t` does to the names. -/
structure Renames (s s' : State) (t : ℕ) : Prop where
  names : Names s'
  others : Leaves s s' t

variable {s s' : State} {t u l n y k q d : ℕ} {a : Aside} {b : Bool} {keep : List ℕ}

@[grind =] theorem State.put_place {w : Place} {i : ℕ} :
    (s.put n w).place i = if i = n then w else s.place i := by
  unfold State.put
  by_cases h : i = n
  · simp [h]
  · simp [h]

/-! ## What a step does to the names -/

/-- The names stay: the reservation or the claim may change hands, or marker, lock and store change. -/
theorem Renames.still (h : Names s)
    (hf : (s'.dest, s'.slot, s'.trees, s'.place, s'.world, s'.aside, s'.pending, s'.boot) =
      (s.dest, s.slot, s.trees, s.place, s.world, s.aside, s.pending, s.boot))
    (hb : s'.booting = true → s.booting = true)
    (hr : s'.reserved = s.reserved ∨ s.reserved = none ∧ s'.reserved = some t ∨
      s.reserved = some t ∧ s'.reserved = none ∧ s.aside = none ∧ s.pending = none)
    (hc : s'.claim = s.claim ∧ s'.detached = s.detached ∨
      s.claim = none ∧ s'.claim = some t ∧ s'.detached = s.detached ∨
      s.claim = some t ∧ s'.claim = none ∧ s'.detached = none) : Renames s s' t := by
  simp only [Prod.mk.injEq] at hf
  obtain ⟨e1, e2, e3, e4, e5, e6, e7, e8⟩ := hf
  obtain ⟨h1, h2, h3, h4, h5, h6, h7, h8, h9, h10, h11, h12⟩ := h
  refine ⟨?_, ?_⟩
  · constructor <;> simp -failIfUnchanged only [e1, e2, e3, e4, e5, e6, e7] <;> grind -linarith
  · constructor <;>
      simp -failIfUnchanged only
        [State.Known, State.Back, State.Gone, State.SlotIs, e1, e2, e4, e5, e6, e7, e8] <;>
      grind -linarith

theorem Renames.same (h : Names s) : Renames s s t := .still h rfl id (.inl rfl) (.inl ⟨rfl, rfl⟩)

theorem Names.park (h : Names s) (hr : s.reserved = some t) (hd : s.dest = some l)
    (hs : a = .slot → s.slot = none) : Names (s.park l a) := by
  obtain ⟨h1, h2, h3, h4, h5, h6, h7, h8, h9, h10, h11, h12⟩ := h
  constructor <;> simp only [State.park, State.put] <;> cases a <;> grind -linarith [Aside.place]

theorem Leaves.park (h : Names s) (hr : s.reserved = some t) (hd : s.dest = some l)
    (hs : a = .slot → s.slot = none) : Leaves s (s.park l a) t := by
  obtain ⟨h1, h2, h3, h4, h5, h6, h7, -, -, -, -, -⟩ := h
  constructor <;> simp only [State.park, State.put, State.Known, State.Back, State.Gone, State.SlotIs] <;>
    cases a <;> grind -linarith [Aside.place]

theorem Renames.park (h : Names s) (hr : s.reserved = some t) (hd : s.dest = some l)
    (hs : a = .slot → s.slot = none) : Renames s (s.park l a) t :=
  ⟨h.park hr hd hs, .park h hr hd hs⟩

theorem Renames.swapIn (h : Names s) (hr : s.reserved = some t) (hd : s.dest = none) (hn : s.place n = .temp) :
    Renames s { s.put n .dest with dest := some n, aside := none } t := by
  obtain ⟨h1, h2, h3, h4, h5, h6, h7, h8, h9, h10, h11, h12⟩ := h
  refine ⟨?_, ?_⟩
  · constructor <;> simp only [State.put] <;> grind -linarith
  · constructor <;> simp only [State.put, State.Known, State.Back, State.Gone, State.SlotIs] <;> grind -linarith

/-- The parked set is renamed back out of the slot. -/
theorem Renames.restoreSlot (h : Names s) (hr : s.reserved = some t) (hd : s.dest = none) (hy : s.slot = some y)
    (ha : s.aside = some (l, .slot)) :
    Renames s { s.put y .dest with slot := none, dest := some y, aside := none } t := by
  obtain ⟨h1, h2, h3, h4, h5, h6, h7, h8, h9, h10, h11, h12⟩ := h
  refine ⟨?_, ?_⟩
  · constructor <;> simp only [State.put] <;> grind -linarith
  · constructor <;> simp only [State.put, State.Known, State.Back, State.Gone, State.SlotIs] <;> grind -linarith

theorem Renames.restoreSuperseded (h : Names s) (hr : s.reserved = some t) (hd : s.dest = none)
    (ha : s.aside = some (l, .superseded)) :
    Renames s { s.put l .dest with dest := some l, aside := none, pending := none } t := by
  obtain ⟨h1, h2, h3, h4, h5, h6, h7, h8, h9, h10, h11, h12⟩ := h
  refine ⟨?_, ?_⟩
  · constructor <;> simp only [State.put] <;> grind -linarith
  · constructor <;> simp only [State.put, State.Known, State.Back, State.Gone, State.SlotIs] <;> grind -linarith

/-- A superseded set is left under its name. -/
theorem Renames.stray (h : Names s) (hr : s.reserved = some t) : Renames s { s with pending := none } t := by
  obtain ⟨h1, h2, h3, h4, h5, h6, h7, h8, h9, h10, h11, h12⟩ := h
  refine ⟨?_, ?_⟩
  · constructor <;> grind -linarith
  · constructor <;> simp only [State.Known, State.Back, State.Gone, State.SlotIs] <;> grind -linarith

theorem Renames.discard (h : Names s) (hr : s.reserved = some t) (hl : s.place l = .superseded)
    (ha : s.aside = none) (hk : s.world k = true ∧ k < s.trees) :
    Renames s { s.put l (.lost (.dropped k)) with pending := none } t := by
  obtain ⟨h1, h2, h3, h4, h5, h6, h7, h8, h9, h10, h11, h12⟩ := h
  refine ⟨?_, ?_⟩
  · constructor <;> simp only [State.put] <;> grind -linarith
  · constructor <;> simp only [State.put, State.Known, State.Back, State.Gone, State.SlotIs] <;> grind -linarith

theorem Renames.repark (h : Names s) (hr : s.reserved = some t) (hl : s.place l = .superseded)
    (ha : s.aside = none) (hs : s.slot = none) :
    Renames s { s.put l .slot with slot := some l, pending := none } t := by
  obtain ⟨h1, h2, h3, h4, h5, h6, h7, h8, h9, h10, h11, h12⟩ := h
  refine ⟨?_, ?_⟩
  · constructor <;> simp only [State.put] <;> grind -linarith
  · constructor <;> simp only [State.put, State.Known, State.Back, State.Gone, State.SlotIs] <;> grind -linarith

theorem Renames.settle (h : Names s) (hr : s.reserved = some t) :
    Renames s { s with aside := none, pending := none } t := by
  obtain ⟨h1, h2, h3, h4, h5, h6, h7, h8, h9, h10, h11, h12⟩ := h
  refine ⟨?_, ?_⟩
  · constructor <;> grind -linarith
  · constructor <;> simp only [State.Known, State.Back, State.Gone, State.SlotIs] <;> grind -linarith

/-- The slot is removed. -/
theorem Names.clear (h : Names s) (hr : s.reserved = some t) (ha : s.aside = none) (hy : s.slot = some y)
    (hs : s.world y = false) : Renames s { s.put y (.lost .cleared) with slot := none } t := by
  obtain ⟨h1, h2, h3, h4, h5, h6, h7, h8, h9, h10, h11, h12⟩ := h
  refine ⟨?_, ?_⟩
  · constructor <;> simp only [State.put] <;> grind -linarith
  · constructor <;> simp only [State.put, State.Known, State.Back, State.Gone, State.SlotIs] <;> grind -linarith

theorem Renames.clearSlot (h : Names s) (hr : s.reserved = some t) (ha : s.aside = none)
    (hs : ∀ y, s.slot = some y → s.world y = false) : Renames s s.clearSlot t := by
  unfold State.clearSlot
  split
  · next y hy => exact h.clear hr ha hy (hs y hy)
  · exact .same h

theorem Renames.sweepLeftovers (h : Names s) (hr : s.reserved = some t) (ha : s.aside = none) : Renames s (s.sweepLeftovers keep) t := by
  obtain ⟨h1, h2, h3, h4, h5, h6, h7, h8, h9, h10, h11, h12⟩ := h
  refine ⟨?_, ?_⟩
  · constructor <;> simp only [State.sweepLeftovers] <;> grind -linarith
  · constructor <;> simp only [State.sweepLeftovers, State.Known, State.Back, State.Gone, State.SlotIs] <;> grind -linarith

/-- `removeScratch` takes the working dir out. -/
theorem Renames.scratch (h : Names s) (hr : s.reserved = some t) (hd : s.dest = some d) (ha : s.aside = none) :
    Renames s { s.put d (.lost .scratch) with dest := none } t := by
  obtain ⟨h1, h2, h3, h4, h5, h6, h7, h8, h9, h10, h11, h12⟩ := h
  refine ⟨?_, ?_⟩
  · constructor <;> simp only [State.put] <;> grind -linarith
  · constructor <;> simp only [State.put, State.Known, State.Back, State.Gone, State.SlotIs] <;> grind -linarith

theorem Renames.detach (h : Names s) (hc : s.claim = some t) (hy : s.slot = some y) :
    Renames s { s.put y .sweeping with slot := none, detached := some y } t := by
  obtain ⟨h1, h2, h3, h4, h5, h6, h7, h8, h9, h10, h11, h12⟩ := h
  refine ⟨?_, ?_⟩
  · constructor <;> simp only [State.put] <;> grind -linarith
  · constructor <;> simp only [State.put, State.Known, State.Back, State.Gone, State.SlotIs] <;> grind -linarith

theorem Renames.putBack (h : Names s) (hc : s.claim = some t) (hs : s.slot = none) (hy : s.detached = some y) :
    Renames s { s.releaseSlot.put y .slot with slot := some y } t := by
  obtain ⟨h1, h2, h3, h4, h5, h6, h7, h8, h9, h10, h11, h12⟩ := h
  refine ⟨?_, ?_⟩
  · constructor <;> simp only [State.put, State.releaseSlot] <;> grind -linarith
  · constructor <;>
      simp only [State.put, State.releaseSlot, State.Known, State.Back, State.Gone, State.SlotIs] <;> grind -linarith

/-- The sweep deletes what it took out of the slot. -/
theorem Renames.sweep (h : Names s) {c : Cause} (hy : s.Gone y) (hs : s.place y = .sweeping)
    (hc : c = .final ∨ ∃ q, c = .swept q (some q)) : Renames s (s.put y (.lost c)) t := by
  obtain ⟨h1, h2, h3, h4, h5, h6, h7, h8, h9, h10, h11, h12⟩ := h
  obtain ⟨-, hd, ha⟩ := hy
  refine ⟨?_, ?_⟩
  · constructor <;> simp only [State.put] <;> grind -linarith
  · constructor <;> simp only [State.put, State.Known, State.Back, State.Gone, State.SlotIs] <;> grind -linarith

/-- A working dir is made where there is none. -/
theorem Names.make (h : Names s) (hd : s.dest = none) :
    Renames s { s.create .dest false none 0 with dest := some s.trees } t := by
  obtain ⟨h1, h2, h3, h4, h5, h6, h7, h8, h9, h10, h11, h12⟩ := h
  refine ⟨?_, ?_⟩
  · constructor <;> simp only [State.create] <;> grind -linarith
  · constructor <;> simp only [State.create, State.Known, State.Back, State.Gone, State.SlotIs] <;> grind -linarith

theorem Renames.mkdirAll (h : Names s) : Renames s s.mkdirAll t := by
  unfold State.mkdirAll
  split
  · exact .same h
  · next hd => exact h.make hd

theorem Renames.unpack (h : Names s) {m : Option ℕ} {g : ℕ} : Renames s (s.create .temp b m g) t := by
  obtain ⟨h1, h2, h3, h4, h5, h6, h7, h8, h9, h10, h11, h12⟩ := h
  refine ⟨?_, ?_⟩
  · constructor <;> simp only [State.create] <;> grind -linarith
  · constructor <;> simp only [State.create, State.Known, State.Back, State.Gone, State.SlotIs] <;> grind -linarith

theorem Renames.play (h : Names s) (hr : s.reserved = none) (hd : s.dest = some d) :
    Renames s { s with world := Function.update s.world d true } t := by
  obtain ⟨h1, h2, h3, h4, h5, h6, h7, h8, h9, h10, h11, h12⟩ := h
  refine ⟨?_, ?_⟩
  · constructor <;> grind -linarith
  · constructor <;> simp only [State.Known, State.Back, State.Gone, State.SlotIs] <;> grind -linarith

/-! ## What a thread knows -/

/-- What the thread with the reservation knows of the slot, and of the set that it has parked. -/
inductive Stage
  | out
  | quiet
  | slotIs (b : Bool)
  | aside (l : ℕ) (a : Aside)
  | kept (l : ℕ)
  | back (l : ℕ)
  | drop (l : ℕ)
  | discard (l k : ℕ)

def Stage.Ok (s : State) (t : ℕ) : Stage → Prop
  | .out => s.reserved ≠ some t
  | .quiet => s.reserved = some t ∧ s.aside = none ∧ s.pending = none
  | .slotIs b => s.reserved = some t ∧ s.aside = none ∧ s.pending = none ∧ s.SlotIs b
  | .aside l a => s.reserved = some t ∧ s.aside = some (l, a) ∧
      s.pending = (if a = .superseded then some l else none) ∧ (a = .superseded → s.SlotIs true)
  | .kept l => s.reserved = some t ∧ ∃ a, s.aside = some (l, a)
  | .back l => s.reserved = some t ∧ s.aside = none ∧ s.pending = none ∧ s.dest = some l
  | .drop l => s.reserved = some t ∧ s.aside = none ∧ s.pending = some l ∧ s.place l = .superseded ∧
      s.SlotIs true
  | .discard l k => s.reserved = some t ∧ s.aside = none ∧ s.pending = some l ∧ s.place l = .superseded ∧
      s.world k = true ∧ s.Known k

def Pc.stage : Pc → Stage
  | .idle => .out
  | .pinned _ => .out
  | .packed _ _ => .out
  | .gating _ _ _ => .out
  | .sweep (.tail _ _ _) _ => .out
  | .write ⟨_, some _⟩ _ => .out
  | .over _ => .out
  | .clearing _ => .slotIs false
  | .parking _ .superseded => .slotIs true
  | .swapping _ (some (l, a)) => .aside l a
  | .restoring l a => .aside l a
  | .failed (some (l, true)) => .back l
  | .failed (some (l, false)) => .kept l
  | .dropping _ l => .drop l
  | .reparking _ l => .drop l
  | .discarding _ l k => .discard l k
  | _ => .quiet

/-- The temp tree of a hydrate. -/
def Pc.tree : Pc → Option ℕ
  | .unpacked f => some f.tree
  | .clearing f => some f.tree
  | .parking f _ => some f.tree
  | .swapping f _ => some f.tree
  | _ => none

/-- The directory that a tail has pinned and the one that it has packed. -/
def Pc.pin : Pc → Option (ℕ × ℕ)
  | .packed p q => some (p, q)
  | .write w _ => w.pin
  | .gating p q _ => some (p, q)
  | .sweep (.tail p q _) _ => some (p, q)
  | _ => none

/-- The slot claim: whether it is held, and the tree that was taken out of the slot under it. -/
def Pc.claims : Pc → Option (Option ℕ)
  | .sweep _ .detaching => some none
  | .sweep _ (.verifying y) => some (some y)
  | .sweep _ (.returning y) => some (some y)
  | _ => none

structure Knows (s : State) (t : ℕ) (p : Pc) : Prop where
  stage : p.stage.Ok s t
  tree : ∀ n, p.tree = some n → s.place n = .temp
  pinned : ∀ d, p = .pinned d → s.Known d
  pin : ∀ d q, p.pin = some (d, q) →
    s.Known d ∧ s.Known q ∧ (q = d ∨ ¬s.Back d) ∧ s.world q = true
  claim : ∀ y, p.claims = some y → s.claim = some t ∧ s.detached = y
  unclaimed : p.claims = none → s.claim ≠ some t
  removes : ∀ v y c, p = .sweep v (.removing y c) → s.Gone y ∧ (c = .final ∨ ∃ q, c = .swept q (some q))

theorem Stage.Ok.reserved {g : Stage} (h : g.Ok s t) (hg : g ≠ .out) : s.reserved = some t := by
  cases g with
  | out => exact absurd rfl hg
  | _ => exact h.1

/-- Only the thread with the reservation has a temp tree. -/
theorem Knows.reserved {p : Pc} (h : Knows s t p) (hp : p.tree = some n) : s.reserved = some t := by
  refine h.stage.reserved ?_
  cases p with
  | parking f a => cases a <;> simp [Pc.stage]
  | swapping f parked => rcases parked with _ | ⟨l, a⟩ <;> simp [Pc.stage]
  | _ => grind -linarith [Pc.tree, Pc.stage]

theorem Names.lt (h : Names s) (hk : s.Known n) : n < s.trees := by
  have := (h.fresh n).not.mp hk.1
  omega

/-- What a step of another thread leaves. -/
theorem Leaves.knows {p : Pc} (h : Leaves s s' t) (hn : Names s) (hu : u ≠ t) (hk : Knows s u p) :
    Knows s' u p := by
  have htree := fun n (hp : p.tree = some n) => h.place u hu (hk.reserved hp) n (.inr (hk.tree n hp))
  have hlt := fun i => hn.lt (n := i)
  obtain ⟨-, -, ht, hkept, hdest, hslot, hplace, hclaims, hworld, hknown, hback, hgone⟩ := h
  obtain ⟨stage, tree, pinned, pin, claim, unclaimed, removes⟩ := hk
  refine ⟨?_, fun n hp => (htree n hp).trans (tree n hp), fun d hd => hknown d (pinned d hd), ?_, ?_, ?_, ?_⟩
  · generalize p.stage = g at stage ⊢
    cases g <;> grind -linarith [Stage.Ok]
  · intro d q hd
    obtain ⟨h1, h2, h3, h4⟩ := pin d q hd
    exact ⟨hknown d h1, hknown q h2, h3.imp_right fun h hb => h (hback d h1 hb), hworld q (hlt q h2) h4⟩
  · intro y hy
    obtain ⟨h1, h2⟩ := claim y hy
    exact ⟨((hclaims u hu).2 h1).1, ((hclaims u hu).2 h1).2.trans h2⟩
  · exact fun hp hc => unclaimed hp ((hclaims u hu).1 hc)
  · exact fun v y c hp => ⟨hgone y (removes v y c hp).1, (removes v y c hp).2⟩

/-! ## The steps of a hydrate -/

/-- A position of a command with the reservation, outside of its sweep. -/
def Pc.plain : Pc → Bool
  | .pinned _ => false
  | .packed _ _ => false
  | .gating _ _ _ => false
  | .sweep _ _ => false
  | .write ⟨_, some _⟩ _ => false
  | _ => true

theorem Knows.plain {p : Pc} (hp : p.plain = true) (hs : p.stage.Ok s t)
    (ht : ∀ n, p.tree = some n → s.place n = .temp) (hc : s.claim ≠ some t) : Knows s t p := by
  have hpin : p.pin = none := by
    cases p with
    | write w k => obtain ⟨g, _ | _⟩ := w <;> grind -linarith [Pc.plain, Pc.pin]
    | _ => grind -linarith [Pc.plain, Pc.pin]
  have hclaims : p.claims = none := by cases p <;> grind -linarith [Pc.plain, Pc.claims]
  refine ⟨hs, ht, fun d hd => ?_, fun d q hd => ?_, fun y hy => ?_, fun _ => hc, fun v y c hv => ?_⟩
  · simp [hd, Pc.plain] at hp
  · simp [hpin] at hd
  · simp [hclaims] at hy
  · simp [hv, Pc.plain] at hp

theorem Knows.free {p : Pc} (h : Knows s t p) (hp : p.plain = true) : s.claim ≠ some t :=
  h.unclaimed (by cases p <;> grind -linarith [Pc.plain, Pc.claims])

/-- The step keeps the names, and the thread knows where it stands. -/
def Kept (s : State) (t : ℕ) (r : State × Pc) : Prop := Renames s r.1 t ∧ Knows r.1 t r.2

theorem same (h : Names s) : Renames s s t :=
  .still h rfl id (.inl rfl) (.inl ⟨rfl, rfl⟩)

variable {x : Choice} {f : Fetched} {p : Pc}

theorem kept_fetching (h : Names s) (hk : Knows s t .fetching) : Kept s t (advance t s x .fetching) := by
  have hc := hk.free rfl
  obtain ⟨hr, ha, hp⟩ := hk.stage
  show Kept s t (if _ then (if _ then _ else if _ then _ else _) else _)
  split_ifs
  · refine ⟨.unpack h, .plain rfl ⟨hr, ha, hp⟩ ?_ hc⟩
    simp [Pc.tree, State.create]
  · refine ⟨.unpack h, .plain rfl ⟨hr, ha, hp⟩ ?_ hc⟩
    simp [Pc.tree, State.create]
  · exact ⟨same h, .plain rfl ⟨hr, ha, hp⟩ nofun hc⟩
  · exact ⟨same h, .plain rfl ⟨hr, ha, hp⟩ nofun hc⟩

theorem kept_unpacked (h : Names s) (hk : Knows s t (.unpacked f)) : Kept s t (advance t s x (.unpacked f)) := by
  have hc := hk.free rfl
  have ht := hk.tree
  obtain ⟨hr, ha, hp⟩ := hk.stage
  show Kept s t (if _ then _ else _)
  split_ifs
  · split
    · exact ⟨same h, .plain rfl ⟨hr, ha, hp⟩ ht hc⟩
    · exact ⟨same h, .plain rfl ⟨hr, ha, hp⟩ ht hc⟩
    · rename_i y hd hy
      split_ifs with hw
      · exact ⟨same h, .plain rfl ⟨hr, ha, hp, by grind -linarith [State.SlotIs]⟩ ht hc⟩
      · exact ⟨same h, .plain rfl ⟨hr, ha, hp, by grind -linarith [State.SlotIs]⟩ ht hc⟩
  · exact ⟨same h, .plain rfl ⟨hr, ha, hp⟩ nofun hc⟩

theorem kept_clearing (h : Names s) (hk : Knows s t (.clearing f)) : Kept s t (advance t s x (.clearing f)) := by
  have hc := hk.free rfl
  have ht := hk.tree f.tree rfl
  obtain ⟨hr, ha, hp, hs⟩ := hk.stage
  show Kept s t (if _ then _ else _, _)
  split_ifs
  · refine ⟨.clearSlot h hr ha hs.1, .plain rfl ?_ ?_ ?_⟩ <;> unfold State.clearSlot <;> split <;>
      grind -linarith [State.put, Stage.Ok, Pc.stage, Pc.tree, Names]
  · exact ⟨same h, .plain rfl ⟨hr, ha, hp⟩ (fun n hn => by cases hn; exact ht) hc⟩

/-- The live set is parked, in the slot or, with a working set in the slot, beside it. -/
theorem kept_parking (h : Names s) (hk : Knows s t (.parking f a)) : Kept s t (advance t s x (.parking f a)) := by
  have hc := hk.free rfl
  have ht := hk.tree f.tree rfl
  have hq : s.reserved = some t ∧ s.aside = none ∧ s.pending = none ∧ (a = .superseded → s.SlotIs true) := by
    have := hk.stage
    cases a <;> grind -linarith [Pc.stage, Stage.Ok]
  obtain ⟨hr, ha, hp, hs⟩ := hq
  have hf : Kept s t (s, .failed none) := ⟨same h, .plain rfl ⟨hr, ha, hp⟩ nofun hc⟩
  simp only [advance]
  split
  · rename_i l hl
    split_ifs with hx
    · refine ⟨.park h hr hl hx.2, .plain rfl ⟨hr, rfl, rfl, ?_⟩ ?_ hc⟩
      · rintro rfl
        exact hs rfl
      · intro n hn
        cases hn
        show (s.put l a.place).place f.tree = .temp
        have := (h.dest l).mp hl
        grind -linarith
    · exact hf
  · exact hf

theorem kept_swapping {parked : Option (ℕ × Aside)} (h : Names s) (hk : Knows s t (.swapping f parked)) :
    Kept s t (advance t s x (.swapping f parked)) := by
  have hc := hk.free rfl
  have ht := hk.tree f.tree rfl
  have hs := hk.stage
  show Kept s t (if _ then _ else _)
  split_ifs with hx
  · have hr : s.reserved = some t := hs.reserved (by rcases parked with _ | ⟨l, a⟩ <;> simp [Pc.stage])
    refine ⟨.swapIn h hr hx.2 ht, ?_⟩
    rcases parked with _ | ⟨l, _ | _⟩
    · exact .plain rfl ⟨hr, rfl, hs.2.2⟩ nofun hc
    · exact .plain rfl ⟨hr, rfl, hs.2.2.1⟩ nofun hc
    · refine .plain rfl ⟨hr, rfl, hs.2.2.1, ?_, hs.2.2.2 rfl⟩ nofun hc
      have := h.aside l hs.2.1
      grind -linarith [State.put]
  · rcases parked with _ | ⟨l, a⟩
    · exact ⟨same h, .plain rfl hs nofun hc⟩
    · exact ⟨same h, .plain rfl hs nofun hc⟩

/-- The rename back, whose failure leaves the set under the name that it was parked under. -/
theorem kept_restoring (h : Names s) (hk : Knows s t (.restoring l a)) :
    Kept s t (advance t s x (.restoring l a)) := by
  have hc := hk.free rfl
  obtain ⟨hr, ha, hp, hs⟩ := hk.stage
  cases a with
  | slot =>
    have hf : Kept s t (s, .failed (some (l, false))) :=
      ⟨same h, .plain rfl ⟨hr, _, ha⟩ nofun hc⟩
    simp only [advance]
    split
    · rename_i y hy
      split_ifs with hx
      · refine ⟨.restoreSlot h hr hx.2 hy ha, .plain rfl ⟨hr, rfl, hp, ?_⟩ nofun hc⟩
        rw [(h.displaced l ha).2.1 y hy]
      · exact hf
    · exact hf
  | superseded =>
    show Kept s t (if _ then _ else _)
    split_ifs with hx
    · exact ⟨.restoreSuperseded h hr hx.2.1 ha, .plain rfl ⟨hr, rfl, rfl, rfl⟩ nofun hc⟩
    · exact ⟨same h, .plain rfl ⟨hr, _, ha⟩ nofun hc⟩

/-- The superseded set is dropped for the working set in the slot, or takes its place. -/
theorem kept_dropping (h : Names s) (hk : Knows s t (.dropping f l)) : Kept s t (advance t s x (.dropping f l)) := by
  have hc := hk.free rfl
  obtain ⟨hr, ha, hp, hl, hs⟩ := hk.stage
  show Kept s t (if _ then _ else _)
  split_ifs
  · split
    · rename_i y hy
      refine ⟨same h, .plain rfl ⟨hr, ha, hp, hl, hs.1 y hy, ?_⟩ nofun hc⟩
      rw [State.Known, (h.slot y).mp hy]
      exact ⟨nofun, nofun⟩
    · exact ⟨same h, .plain rfl ⟨hr, ha, hp, hl, hs⟩ nofun hc⟩
  · exact ⟨.stray h hr, .plain rfl ⟨hr, ha, rfl⟩ nofun hc⟩

theorem kept_discarding (h : Names s) (hk : Knows s t (.discarding f l k)) :
    Kept s t (advance t s x (.discarding f l k)) := by
  have hc := hk.free rfl
  obtain ⟨hr, ha, hp, hl, hw, hn⟩ := hk.stage
  exact ⟨.discard h hr hl ha ⟨hw, h.lt hn⟩, .plain rfl ⟨hr, ha, rfl⟩ nofun hc⟩

theorem kept_reparking (h : Names s) (hk : Knows s t (.reparking f l)) :
    Kept s t (advance t s x (.reparking f l)) := by
  have hc := hk.free rfl
  obtain ⟨hr, ha, hp, hl, hs⟩ := hk.stage
  show Kept s t (if _ then _ else _)
  split_ifs with hx
  · exact ⟨.repark h hr hl ha hx.2, .plain rfl ⟨hr, ha, rfl⟩ nofun hc⟩
  · exact ⟨.stray h hr, .plain rfl ⟨hr, ha, rfl⟩ nofun hc⟩

theorem kept_failed {parked : Option (ℕ × Bool)} (h : Names s) (hk : Knows s t (.failed parked)) :
    Kept s t (advance t s x (.failed parked)) := by
  have hc := hk.free rfl
  have hs := hk.stage
  have hr : s.reserved = some t := by rcases parked with _ | ⟨l, _ | _⟩ <;> exact hs.1
  exact ⟨.settle h hr, .plain rfl ⟨hr, rfl, rfl⟩ nofun hc⟩

/-! ## Stamps and sweeps -/

/-- What a step of the thread itself leaves of what it knows of its pin. -/
theorem Renames.pin (hr : Renames s s' t) (h : Names s)
    (hp : s.Known d ∧ s.Known q ∧ (q = d ∨ ¬s.Back d) ∧ s.world q = true) :
    s'.Known d ∧ s'.Known q ∧ (q = d ∨ ¬s'.Back d) ∧ s'.world q = true := by
  obtain ⟨h1, h2, h3, h4⟩ := hp
  exact ⟨hr.others.known d h1, hr.others.known q h2, h3.imp_right fun hn hb => hn (hr.others.back d h1 hb),
    hr.others.world q (h.lt h2) h4⟩

theorem Knows.tail (hs : p.stage = .out) (ht : p.tree = none) (hd : ∀ e, p ≠ .pinned e)
    (hp : p.pin = some (d, q)) (hc : p.claims = none) (hx : ∀ v y c, p ≠ .sweep v (.removing y c))
    (hr : s.reserved ≠ some t) (hu : s.claim ≠ some t)
    (hk : s.Known d ∧ s.Known q ∧ (q = d ∨ ¬s.Back d) ∧ s.world q = true) : Knows s t p := by
  refine ⟨?_, fun n hn => ?_, fun e he => absurd he (hd e), fun d' q' h => ?_, fun y hy => ?_, fun _ => hu,
    fun v y c h => absurd h (hx v y c)⟩
  · rw [hs]
    exact hr
  · rw [ht] at hn
    cases hn
  · rw [hp, Option.some.injEq, Prod.mk.injEq] at h
    rw [← h.1, ← h.2]
    exact hk
  · rw [hc] at hy
    cases hy

/-- What the stages of stamps and sweeps read. -/
def State.custody (s : State) : Option ℕ × Option (ℕ × Aside) × Option ℕ := (s.reserved, s.aside, s.pending)

/-- A stamp keeps the names, but for the working dir that it may make. -/
theorem Knows.stamp {w : Writer} {k : WritePc} (h : Names s) (hr : Renames s s' t)
    (hc : s'.custody = s.custody) (hu : s'.claim = s.claim) (hk : Knows s t (.write w k)) :
    (∀ k', Knows s' t (.write w k')) ∧ ∀ declared, Knows s' t (w.over declared) := by
  simp only [State.custody, Prod.mk.injEq] at hc
  obtain ⟨hc1, hc2, hc3⟩ := hc
  have hfree := hk.unclaimed rfl
  rw [← hu] at hfree
  obtain ⟨g, _ | ⟨d, q⟩⟩ := w
  · have hs : s'.reserved = some t ∧ s'.aside = none ∧ s'.pending = none := by
      rw [hc1, hc2, hc3]
      exact hk.stage
    exact ⟨fun _ => .plain rfl hs nofun hfree, fun _ => .plain rfl hs nofun hfree⟩
  · have hs : s'.reserved ≠ some t := by
      rw [hc1]
      exact hk.stage
    have hp := hr.pin h (hk.pin d q rfl)
    exact ⟨fun _ => .tail rfl rfl nofun rfl rfl nofun hs hfree hp,
      fun _ => .tail rfl rfl nofun rfl rfl nofun hs hfree hp⟩

theorem custody_mkdirAll : s.mkdirAll.custody = s.custody ∧ s.mkdirAll.claim = s.claim := by
  unfold State.mkdirAll
  split
  · exact ⟨rfl, rfl⟩
  · exact ⟨rfl, rfl⟩

/-- The fields that names and knowledge read. -/
def State.frame (s : State) :=
  ((s.dest, s.slot, s.trees, s.place, s.world, s.aside, s.pending, s.boot),
    s.booting, s.reserved, s.claim, s.detached)

theorem Renames.frame (h : Names s) (hf : s'.frame = s.frame) : Renames s s' t := by
  obtain ⟨hf, hb⟩ := Prod.mk.inj hf
  simp only [Prod.mk.injEq] at hb
  exact .still h hf (fun h => hb.1 ▸ h) (.inl hb.2.1) (.inl hb.2.2)

theorem Knows.frame {w : Writer} {k : WritePc} (h : Names s) (hk : Knows s t (.write w k))
    (hf : s'.frame = s.frame) :
    (∀ k', Kept s t (s', .write w k')) ∧ ∀ declared, Kept s t (s', w.over declared) := by
  have hr : Renames s s' t := .frame h hf
  have hc : s'.custody = s.custody ∧ s'.claim = s.claim := by
    simp only [State.frame, Prod.mk.injEq] at hf
    simp [State.custody, hf]
  obtain ⟨h1, h2⟩ := hk.stamp h hr hc.1 hc.2
  exact ⟨fun k' => ⟨hr, h1 k'⟩, fun declared => ⟨hr, h2 declared⟩⟩

theorem kept_write {w : Writer} {k : WritePc} (h : Names s) (hk : Knows s t (.write w k)) :
    Kept s t (writeStep t s x w k) := by
  have stay {s'} {k'} (hf : s'.frame = s.frame) : Kept s t (s', .write w k') :=
    (hk.frame h hf).1 k'
  have ends {s'} {declared} (hf : s'.frame = s.frame) : Kept s t (s', w.over declared) :=
    (hk.frame h hf).2 declared
  have hsee : (s.see t).frame = s.frame := by
    unfold State.see
    split <;> rfl
  cases k with
  | making =>
    show Kept s t (if _ then _ else _)
    split_ifs
    · exact ⟨.mkdirAll h, (hk.stamp h (.mkdirAll h) custody_mkdirAll.1 custody_mkdirAll.2).1 _⟩
    · exact ends rfl
  | opening =>
    simp only [writeStep]
    split
    · split_ifs
      · exact stay rfl
      · exact ends rfl
    · exact ends rfl
  | rechecking d =>
    show Kept s t (if _ then _ else _)
    split_ifs
    · exact stay hsee
    · exact ends hsee
  | clearing d => exact ends rfl
  | _ =>
    show Kept s t (if _ then _ else _)
    split_ifs
    · exact stay rfl
    · exact ends rfl

theorem plain_over {v : Sweeper} : v.over.plain = true ∧ v.over.tree = none := by
  cases v <;> exact ⟨rfl, rfl⟩

/-- What a sweeper keeps of what it knows through its own step. -/
theorem Knows.sweeps {v : Sweeper} {k k' : SweepPc} (h : Names s) (hr : Renames s s' t)
    (hc : s'.custody = s.custody) (hk : Knows s t (.sweep v k))
    (hy : ∀ y, (Pc.sweep v k').claims = some y → s'.claim = some t ∧ s'.detached = y)
    (hu : (Pc.sweep v k').claims = none → s'.claim ≠ some t)
    (hx : ∀ y c, k' = .removing y c → s'.Gone y ∧ (c = .final ∨ ∃ q, c = .swept q (some q))) :
    Knows s' t (.sweep v k') := by
  simp only [State.custody, Prod.mk.injEq] at hc
  refine ⟨?_, nofun, nofun, fun d q hd => hr.pin h (hk.pin d q (by cases v <;> exact hd)), hy, hu, ?_⟩
  · have := hk.stage
    cases v <;> simpa [Pc.stage, Stage.Ok, hc] using this
  · intro v' y c hv
    cases hv
    exact hx y c rfl

theorem Knows.swept {v : Sweeper} {k : SweepPc} (hk : Knows s t (.sweep v k)) (hc : s'.custody = s.custody)
    (hu : s'.claim ≠ some t) : Knows s' t v.over := by
  simp only [State.custody, Prod.mk.injEq] at hc
  refine .plain plain_over.1 ?_ (fun n hn => ?_) hu
  · have := hk.stage
    cases v <;> simpa [Sweeper.over, Pc.stage, Stage.Ok, hc] using this
  · rw [plain_over.2] at hn
    cases hn

/-- No parked set is out of the slot while the sweep finds its guard kept. -/
theorem Knows.settled {v : Sweeper} {y : ℕ} (h : Names s) (hk : Knows s t (.sweep v (.verifying y)))
    (hv : v.current s = true) : s.aside = none ∧ (v.cause s = .final ∨ ∃ q, v.cause s = .swept q (some q)) := by
  cases v with
  | final => exact ⟨hk.stage.2.1, .inl rfl⟩
  | tail d q declared =>
    have hd : s.dest = some d := of_decide_eq_true hv
    obtain ⟨-, -, hq, hw⟩ := hk.pin d q rfl
    obtain rfl : q = d := hq.resolve_right fun hn => hn (.inl hd)
    refine ⟨?_, .inr ⟨q, by rw [← hd]; rfl⟩⟩
    -- A working dir made over a parked set holds no working set.
    by_contra ha
    rw [h.made ha q hd] at hw
    cases hw

theorem kept_sweep {v : Sweeper} {k : SweepPc} (h : Names s) (hk : Knows s t (.sweep v k)) :
    Kept s t (sweepStep t s x v k) := by
  have release {y : Option ℕ} (hy : (Pc.sweep v k).claims = some y) : Renames s s.releaseSlot t :=
    .still h rfl id (.inl rfl) (.inr (.inr ⟨(hk.claim y hy).1, rfl, rfl⟩))
  cases k with
  | claiming =>
    show Kept s t (if _ then _ else _)
    split_ifs with hc
    · have hr : Renames s { s with claim := some t } t :=
        .still h rfl id (.inl rfl) (.inr (.inl ⟨hc, rfl, rfl⟩))
      refine ⟨hr, hk.sweeps h hr rfl ?_ nofun nofun⟩
      rintro y ⟨⟩
      exact ⟨rfl, h.claim hc⟩
    · exact ⟨same h, hk.swept rfl (hk.unclaimed rfl)⟩
  | detaching =>
    obtain ⟨hc, hd⟩ := hk.claim none rfl
    simp only [sweepStep]
    split
    · rename_i y hy
      split_ifs
      · refine ⟨.detach h hc hy, hk.sweeps h (.detach h hc hy) rfl ?_ nofun nofun⟩
        rintro z ⟨⟩
        exact ⟨hc, rfl⟩
      · exact ⟨release rfl, hk.swept rfl nofun⟩
    · exact ⟨release rfl, hk.swept rfl nofun⟩
  | verifying y =>
    obtain ⟨hc, hd⟩ := hk.claim (some y) rfl
    show Kept s t (if _ then _ else _)
    split_ifs with hx
    · obtain ⟨ha, hcause⟩ := hk.settled h hx.1
      refine ⟨release rfl, hk.sweeps h (release rfl) rfl nofun (fun _ => nofun) ?_⟩
      rintro z c ⟨⟩
      refine ⟨⟨.inl (h.detached y hd), nofun, fun a => ?_⟩, hcause⟩
      rw [show s.releaseSlot.aside = none from ha]
      exact nofun
    · refine ⟨same h, hk.sweeps h (same h) rfl ?_ nofun nofun⟩
      rintro z ⟨⟩
      exact ⟨hc, hd⟩
  | returning y =>
    obtain ⟨hc, hd⟩ := hk.claim (some y) rfl
    show Kept s t (if _ then _ else _)
    split_ifs with hx
    · exact ⟨.putBack h hc hx.2.2 hd, hk.swept rfl nofun⟩
    · exact ⟨release rfl, hk.swept rfl nofun⟩
  | removing y c =>
    obtain ⟨hg, hcause⟩ := hk.removes v y c rfl
    show Kept s t (if _ then _ else _, _)
    split_ifs with hx
    · exact ⟨.sweep h hg hx.2 hcause, hk.swept rfl (hk.unclaimed rfl)⟩
    · exact ⟨same h, hk.swept rfl (hk.unclaimed rfl)⟩

/-! ## Any step -/

theorem kept_leftovers (h : Names s) (hk : Knows s t p) (hp : p.plain = true) (hs : p.stage = .quiet)
    {p' : Pc} (hp' : p'.plain = true) (hs' : p'.stage = .quiet) (ht : p'.tree = none) :
    Kept s t (s.sweepLeftovers keep, p') := by
  have hq := hk.stage
  rw [hs] at hq
  refine ⟨.sweepLeftovers h hq.1 hq.2.1, .plain hp' ?_ (fun n hn => ?_) (hk.free hp)⟩
  · rw [hs']
    exact hq
  · rw [ht] at hn
    cases hn

theorem kept_releasing {declared : Option ℕ} (h : Names s) (hk : Knows s t (.releasing declared)) :
    Kept s t (advance t s x (.releasing declared)) := by
  obtain ⟨hr, ha, hp⟩ := hk.stage
  refine ⟨.still h rfl id (.inr (.inr ⟨hr, rfl, ha, hp⟩)) (.inl ⟨rfl, rfl⟩), .plain rfl nofun nofun (hk.free rfl)⟩

theorem kept_pinned (h : Names s) (hk : Knows s t (.pinned d)) : Kept s t (advance t s x (.pinned d)) := by
  have hu := hk.unclaimed rfl
  have hr := hk.stage
  have hd := hk.pinned d rfl
  simp only [advance]
  split
  · rename_i q hq
    split_ifs with hx
    · refine ⟨same h, .tail rfl rfl nofun rfl rfl nofun hr hu ⟨hd, ?_, ?_, hx.2⟩⟩
      · rw [State.Known, (h.dest q).mp hq]
        exact ⟨nofun, nofun⟩
      · grind -linarith [State.Back]
    · exact ⟨same h, .plain rfl hr nofun hu⟩
  · exact ⟨same h, .plain rfl hr nofun hu⟩

theorem kept_tail (h : Names s) (hk : Knows s t p) (hp : (∃ d q, p = .packed d q) ∨ ∃ d q g, p = .gating d q g) :
    Kept s t (advance t s x p) := by
  rcases hp with ⟨d, q, rfl⟩ | ⟨d, q, g, rfl⟩
  · have hu := hk.unclaimed rfl
    have hr : Renames s (s.publish q) t := .frame h rfl
    show Kept s t (if _ then _ else _)
    split_ifs
    · exact ⟨hr, .tail rfl rfl nofun rfl rfl nofun hk.stage hu (hr.pin h (hk.pin d q rfl))⟩
    · exact ⟨same h, .plain rfl hk.stage nofun hu⟩
  · have hu := hk.unclaimed rfl
    show Kept s t (if _ then _ else _)
    split_ifs
    · exact ⟨same h, .tail rfl rfl nofun rfl rfl nofun hk.stage hu (hk.pin d q rfl)⟩
    · exact ⟨same h, .plain rfl hk.stage nofun hu⟩

theorem kept_packing (h : Names s) (hk : Knows s t .packing) : Kept s t (advance t s x .packing) := by
  have hc := hk.free rfl
  have hs := hk.stage
  simp only [advance]
  split
  · split_ifs
    · exact ⟨.frame h rfl, .plain rfl hs nofun hc⟩
    · exact ⟨same h, .plain rfl hs nofun hc⟩
  · exact ⟨same h, .plain rfl hs nofun hc⟩

theorem kept_removing (h : Names s) (hk : Knows s t .removing) : Kept s t (advance t s x .removing) := by
  have hc := hk.free rfl
  obtain ⟨hr, ha, hp⟩ := hk.stage
  have sweeps {s'} (hs : s'.custody = s.custody) (hu : s'.claim = s.claim) :
      Knows s' t (.sweep .final .claiming) := by
    simp only [State.custody, Prod.mk.injEq] at hs
    refine ⟨⟨?_, ?_, ?_⟩, nofun, nofun, nofun, nofun, fun _ => ?_, nofun⟩
    · rw [hs.1, hr]
    · rw [hs.2.1, ha]
    · rw [hs.2.2, hp]
    · rw [hu]
      exact hc
  simp only [advance]
  split
  · rename_i d hd
    split_ifs
    · exact ⟨.scratch h hr hd ha, sweeps rfl rfl⟩
    · exact ⟨same h, sweeps rfl rfl⟩
  · exact ⟨same h, sweeps rfl rfl⟩

theorem kept_advance (h : Names s) (hk : Knows s t p) : Kept s t (advance t s x p) := by
  cases p with
  | leftovers | finalLeftovers => exact kept_leftovers h hk rfl rfl rfl rfl rfl
  | fetching => exact kept_fetching h hk
  | unpacked f => exact kept_unpacked h hk
  | clearing f => exact kept_clearing h hk
  | parking f a => exact kept_parking h hk
  | swapping f parked => exact kept_swapping h hk
  | restoring l a => exact kept_restoring h hk
  | dropping f l => exact kept_dropping h hk
  | discarding f l k => exact kept_discarding h hk
  | reparking f l => exact kept_reparking h hk
  | recording f =>
    show Kept s t (if _ then _ else _)
    split_ifs
    · exact ⟨same h, .plain rfl hk.stage nofun (hk.free rfl)⟩
    · exact ⟨same h, .plain rfl hk.stage nofun (hk.free rfl)⟩
  | failed parked => exact kept_failed h hk
  | write w k => exact kept_write h hk
  | releasing declared => exact kept_releasing h hk
  | pinned d => exact kept_pinned h hk
  | packed d q => exact kept_tail h hk (.inl ⟨d, q, rfl⟩)
  | gating d q declared => exact kept_tail h hk (.inr ⟨d, q, declared, rfl⟩)
  | sweep v k => exact kept_sweep h hk
  | packing => exact kept_packing h hk
  | removing => exact kept_removing h hk
  | idle => exact ⟨same h, hk⟩
  | «over» _ => exact ⟨same h, hk⟩

/-! ## Runs -/

/-- The names, and a process that boots runs no command. -/
structure Inv (s : State) : Prop where
  names : Names s
  boots : s.booting = true → s.boot ≠ 0 ∧ s.reserved = none ∧ s.claim = none

/-- A thread of a process that has crashed knows nothing and does nothing. -/
structure Ok (s : State) (t : ℕ) (th : Thread) : Prop where
  boot : th.boot ≤ s.boot
  booting : s.booting = true → th.boot < s.boot
  knows : th.boot = s.boot → Knows s t th.pc
  stale : th.boot ≠ s.boot → s.reserved ≠ some t ∧ s.claim ≠ some t

variable {th : Thread}

theorem Ok.others (h : Ok s u th) (hn : Names s) (hl : Leaves s s' t) (hu : u ≠ t) : Ok s' u th := by
  refine ⟨?_, fun hb => ?_, fun hb => ?_, fun hb => ?_⟩
  · rw [hl.boot]
    exact h.boot
  · rw [hl.boot]
    exact h.booting (hl.booting hb)
  · rw [hl.boot] at hb
    exact hl.knows hn hu (h.knows hb)
  · rw [hl.boot] at hb
    obtain ⟨hr, hc⟩ := h.stale hb
    exact ⟨fun hx => hr (hl.taken u hu hx), fun hx => hc ((hl.claims u hu).1 hx)⟩

/-- What a step of a thread that takes part has to keep. -/
def Steps (s : State) (t : ℕ) (r : State × Thread) : Prop :=
  Inv r.1 ∧ Ok r.1 t r.2 ∧ ∀ u th, u ≠ t → Ok s u th → Ok r.1 u th

/-- The step of a thread of the process that runs. -/
theorem Kept.steps {p : Pc} (h : Kept s t (s', p)) (hn : Names s) (hb : s'.booting = false) :
    Steps s t (s', ⟨s.boot, p⟩) := by
  refine ⟨⟨h.1.names, fun hx => ?_⟩, ⟨?_, fun hx => ?_, fun _ => h.2, fun hx => ?_⟩,
    fun u th hu ho => ho.others hn h.1.others hu⟩
  · simp [hb] at hx
  · exact Nat.le_of_eq h.1.others.boot.symm
  · simp [hb] at hx
  · exact absurd h.1.others.boot.symm hx

theorem Ok.idle (h : Ok s t th) (hi : th.pc = .idle) : s.reserved ≠ some t ∧ s.claim ≠ some t := by
  by_cases hb : th.boot = s.boot
  · have hk := h.knows hb
    rw [hi] at hk
    exact ⟨hk.stage, hk.unclaimed rfl⟩
  · exact h.stale hb

theorem kept_reserve {p' : Pc} (h : Names s) (hi : s.reserved ≠ some t ∧ s.claim ≠ some t) (hp : p'.plain = true)
    (hs : p'.stage = .quiet) (ht : p'.tree = none) : Kept s t (s.begin.reserve t p') := by
  show Kept s t (if s.reserved = none then _ else _)
  split_ifs with hr
  · refine ⟨.still h rfl nofun (.inr (.inl ⟨hr, rfl⟩)) (.inl ⟨rfl, rfl⟩), .plain hp ?_ (fun n hn => ?_) hi.2⟩
    · rw [hs]
      exact ⟨rfl, h.free hr⟩
    · rw [ht] at hn
      cases hn
  · exact ⟨.still h rfl nofun (.inl rfl) (.inl ⟨rfl, rfl⟩), .plain rfl hi.1 nofun hi.2⟩

theorem booting_reserve {p' : Pc} : (s.begin.reserve t p').1.booting = false := by
  unfold State.reserve
  split <;> rfl

theorem kept_snapshot (h : Names s) (hi : s.reserved ≠ some t ∧ s.claim ≠ some t) :
    Kept s t (s.begin, match s.dest with | some d => .pinned d | none => .over none) := by
  have hr : Renames s s.begin t := .still h rfl nofun (.inl rfl) (.inl ⟨rfl, rfl⟩)
  refine ⟨hr, ?_⟩
  show Knows s.begin t (match s.dest with | some d => .pinned d | none => .over none)
  split
  · rename_i d hd
    refine ⟨hi.1, nofun, ?_, nofun, nofun, fun _ => hi.2, nofun⟩
    rintro e ⟨⟩
    show s.Known d
    rw [State.Known, (h.dest d).mp hd]
    exact ⟨nofun, nofun⟩
  · exact .plain rfl hi.1 nofun hi.2

/-- What the world does by itself. -/
theorem Renames.world (h : Inv s) (hr : ∀ t, Renames s s' t) (ho : Ok s t th)
    (hc : (s'.reserved, s'.claim) = (s.reserved, s.claim)) : Steps s t (s', th) := by
  simp only [Prod.mk.injEq] at hc
  refine ⟨⟨(hr t).names, fun hb => ?_⟩, ho.others h.names (hr (t + 1)).others (Nat.ne_of_lt (Nat.lt_succ_self t)),
    fun u th hu ho => ho.others h.names (hr t).others hu⟩
  rw [(hr t).others.boot, hc.1, hc.2]
  exact h.boots ((hr t).others.booting hb)

theorem steps_crash (h : Inv s) (ho : Ok s t th) : Steps s t (post t s th .crash) := by
  have hn := h.names
  obtain ⟨h1, h2, h3, h4, h5, h6, h7, h8, h9, h10, h11, h12⟩ := hn
  have hok {u th} (ho : Ok s u th) : Ok (post t s th .crash).1 u th := by
    have := ho.boot
    refine ⟨?_, fun _ => ?_, fun hb => ?_, fun _ => ⟨nofun, nofun⟩⟩ <;> simp only [post] at * <;> omega
  refine ⟨⟨?_, fun _ => ⟨Nat.succ_ne_zero _, rfl, rfl⟩⟩, hok ho, fun u th _ => hok⟩
  constructor <;> simp only [post] <;> grind -linarith

theorem steps_reclaim (h : Inv s) (ho : Ok s t th) (hb : s.booting = true) :
    Steps s t (post t s th (.reclaim keep)) := by
  obtain ⟨hboot, hr, hc⟩ := h.boots hb
  obtain ⟨h1, h2, h3, h4, h5, h6, h7, h8, h9, h10, h11, h12⟩ := h.names
  have hok {u th} (ho : Ok s u th) : Ok (s.reclaim keep) u th :=
    ⟨ho.boot, ho.booting, fun h => absurd h (Nat.ne_of_lt (ho.booting hb)), ho.stale⟩
  refine ⟨⟨?_, fun _ => ⟨hboot, hr, hc⟩⟩, hok ho, fun u th _ => hok⟩
  constructor <;> simp only [State.reclaim, post] <;> grind -linarith

theorem steps_post {a : Action} (h : Inv s) (ho : Ok s t th) (hp : pre s th a) : Steps s t (post t s th a) := by
  cases a with
  | hydrate | final => exact (kept_reserve h.names (ho.idle hp) rfl rfl rfl).steps h.names booting_reserve
  | snapshot =>
    have hs := (kept_snapshot h.names (ho.idle hp)).steps h.names rfl
    show Steps s t (match s.dest with | some d => _ | none => _)
    cases hd : s.dest <;> simpa [hd] using hs
  | step x =>
    have hb : s.booting ≠ true := fun hb => Nat.ne_of_lt (ho.booting hb) hp.1
    have hk := kept_advance (x := x) h.names (ho.knows hp.1)
    exact hk.steps h.names (Bool.eq_false_iff.mpr fun hx => hb (hk.1.others.booting hx))
  | play =>
    show Steps s t (match s.dest with | some _ => _ | none => _)
    split
    · rename_i d hd
      exact Renames.world h (fun _ => .play h.names hp hd) ho rfl
    · exact Renames.world h (fun _ => same h.names) ho rfl
  | publish => exact Renames.world h (fun _ => .frame h.names rfl) ho rfl
  | crash => exact steps_crash h ho
  | reclaim keep => exact steps_reclaim h ho hp

/-- The start keeps the invariant, and so does every run. -/
theorem holds {c : Conf} {P : Conf → ℕ × Action → Prop} (h : threads.machine.Reach P start c) :
    Threads.Holds Inv Ok c := by
  refine Threads.invariant h ⟨⟨?_, nofun⟩, fun t => ⟨Nat.le_refl 0, nofun, fun _ => ?_, nofun⟩⟩
    fun c t a hc hp _ => ?_
  · constructor <;> simp [start]
  · exact .plain rfl nofun nofun nofun
  · obtain ⟨h1, h2, h3⟩ := steps_post hc.shared (hc.thread t) hp
    exact ⟨h1, h2, fun u hu => h3 u _ hu⟩

/-- A set that was parked is under a name. -/
def State.Named (s : State) (l : ℕ) : Prop :=
  s.place l = .slot ∨ s.place l = .superseded ∨ s.place l = .sweeping

theorem named_of_aside (h : Names s) (ha : s.aside = some (l, a)) : s.Named l := by
  cases a with
  | slot => exact (h.displaced l ha).1.imp_right .inr
  | superseded => exact .inr (.inl (h.aside l ha))

/-- What stands of a parked set while its hydrate is under way. -/
theorem stands_of_holds {c : Conf} (h : Threads.Holds Inv Ok c) (ht : (c.th t).boot = c.shared.boot) :
    (∀ f l a, (c.th t).pc = .swapping f (some (l, a)) → c.shared.Named l) ∧
    (∀ l a, (c.th t).pc = .restoring l a → c.shared.Named l) ∧
    (∀ l, (c.th t).pc = .failed (some (l, true)) → c.shared.dest = some l) ∧
    ∀ l, (c.th t).pc = .failed (some (l, false)) → c.shared.Named l := by
  have hn := h.shared.names
  have hs := ((h.thread t).knows ht).stage
  refine ⟨fun f l a hp => ?_, fun l a hp => ?_, fun l hp => ?_, fun l hp => ?_⟩
  · rw [hp] at hs
    exact named_of_aside hn hs.2.1
  · rw [hp] at hs
    exact named_of_aside hn hs.2.1
  · rw [hp] at hs
    exact hs.2.2.2
  · rw [hp] at hs
    obtain ⟨a, ha⟩ := hs.2
    exact named_of_aside hn ha

/-- `n` steps of thread `t` that succeed, its hydrate served by a 200. -/
def hydrates (t n : ℕ) : List (ℕ × Action) :=
  (t, .hydrate) :: List.replicate n (t, .step { ok := true, flag := true })

end McServerDashboard.Worker.Scratch
