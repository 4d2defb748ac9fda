import McServerDashboard.Worker.Displaced

/-!
# The generation markers

* `Wrote`: what a thread knows of the generation that it is about to stamp or to declare.
* `Stamps`: what a step leaves of the markers.
* **`held_marker_true`**: no marker is newer than the tree that it is in, and what a command declares was
  in the working dir at its last check.
-/

namespace McServerDashboard.Worker.Scratch

open Lib

/-- A marker is no newer than its tree, and a tree no newer than the store. -/
structure Marks (s : State) : Prop where
  marker : ∀ i g, s.marker i = some g → g ≤ s.origin i
  store : ∀ i, s.origin i ≤ s.store

/-- The generation describes the tree of the hydrate, or the one that was packed; a 204 has none. -/
def Writer.Sound (s : State) (w : Writer) : Prop :=
  match w.pin with
  | none => w.gen = 0 ∨ ∃ n, s.dest = some n ∧ w.gen ≤ s.origin n
  | some (_, q) => w.gen ≤ s.origin q

/-- The directory that was opened: a hydrate opens the working dir, a tail the one that it has pinned or
one that keeps that from being the working dir again. -/
def Writer.Opened (s : State) (w : Writer) (d : ℕ) : Prop :=
  s.Known d ∧
    match w.pin with
    | none => s.dest = some d
    | some (p, _) => d = p ∨ ¬s.Back p

def Writer.At (s : State) (t : ℕ) (w : Writer) : WritePc → Prop
  | .locking => True
  | .creating d => s.lock = some t ∧ w.Opened s d
  | .fencing d _ => s.lock = some t ∧ w.Opened s d
  | .renaming d _ => s.lock = some t ∧ w.Opened s d ∧ w.gen ≤ s.origin d
  | .rechecking d => s.lock = some t ∧ w.Opened s d ∧ s.marker d = some w.gen
  | .clearing _ => s.lock = some t ∧ (t, w.gen) ∈ s.seen
  | _ => s.lock = some t

/-- The generation that a result declares was seen in the working dir. -/
def Declared (s : State) (t : ℕ) (declared : Option ℕ) : Prop := ∀ g, declared = some g → (t, g) ∈ s.seen

def Wrote (s : State) (t : ℕ) : Pc → Prop
  | .unpacked f => f.gen ≤ s.origin f.tree
  | .clearing f => f.gen ≤ s.origin f.tree
  | .parking f _ => f.gen ≤ s.origin f.tree
  | .swapping f _ => f.gen ≤ s.origin f.tree
  | .dropping f _ => s.dest = some f.tree ∧ f.gen ≤ s.origin f.tree
  | .discarding f _ _ => s.dest = some f.tree ∧ f.gen ≤ s.origin f.tree
  | .reparking f _ => s.dest = some f.tree ∧ f.gen ≤ s.origin f.tree
  | .recording f => s.dest = some f.tree ∧ f.gen ≤ s.origin f.tree
  | .write w k => w.Sound s ∧ w.At s t k
  | .gating _ _ declared => Declared s t declared
  | .sweep (.tail _ _ declared) _ => Declared s t declared
  | .releasing declared => Declared s t declared
  | .over declared => Declared s t declared
  | _ => True

/-- What a step of `t` leaves of the markers. -/
structure Stamps (s s' : State) (t : ℕ) : Prop where
  origin : ∀ i, i < s.trees → s.origin i ≤ s'.origin i
  marker : ∀ i, i < s.trees → s.lock ≠ some t → s'.marker i = s.marker i
  lock : ∀ u, u ≠ t → s.lock = some u → s'.lock = some u
  seen : ∀ e ∈ s.seen, e ∈ s'.seen

variable {s s' : State} {t u d : ℕ} {p p' : Pc} {x : Choice} {w : Writer} {k : WritePc} {declared : Option ℕ}

/-! ## What the others know -/

theorem Names.known_dest (h : Names s) (hd : s.dest = some d) : s.Known d := by
  rw [State.Known, (h.dest d).mp hd]
  exact ⟨(fun h => by cases h), (fun h => by cases h)⟩

theorem Stamps.keeps (hs : Stamps s s' t) (h : Declared s u declared) : Declared s' u declared :=
  fun g hg => hs.seen _ (h g hg)

section Others

variable (hn : Names s) (hl : Leaves s s' t) (hs : Stamps s s' t) (hu : u ≠ t)
include hn hl hs hu

theorem Writer.Sound.others (hk : Knows s u (.write w k)) (h : w.Sound s) : w.Sound s' := by
  obtain ⟨g, _ | ⟨d, q⟩⟩ := w
  · refine Or.imp_right (fun ⟨n, hd, hg⟩ => ⟨n, hl.dest u hu hk.stage.1 n hd, ?_⟩) h
    exact Nat.le_trans hg (hs.origin n (hn.lt (hn.known_dest hd)))
  · exact Nat.le_trans h (hs.origin q (hn.lt (hk.pin d q rfl).2.1))

omit hn hs in
theorem Writer.Opened.others (hk : Knows s u (.write w k)) (h : w.Opened s d) : w.Opened s' d := by
  refine ⟨hl.known d h.1, ?_⟩
  obtain ⟨g, _ | ⟨p, q⟩⟩ := w
  · exact hl.dest u hu hk.stage.1 d h.2
  · exact Or.imp_right (fun hb hb' => hb (hl.back p (hk.pin p q rfl).1 hb')) h.2

theorem Writer.At.others (hk : Knows s u (.write w k)) (h : w.At s u k) : w.At s' u k := by
  cases k with
  | locking => trivial
  | creating d | fencing d m => exact ⟨hs.lock u hu h.1, h.2.others hl hu hk⟩
  | «renaming» d m =>
    obtain ⟨hlock, hd, hg⟩ := h
    exact ⟨hs.lock u hu hlock, hd.others hl hu hk, Nat.le_trans hg (hs.origin d (hn.lt hd.1))⟩
  | rechecking d =>
    obtain ⟨hlock, hd, hg⟩ := h
    refine ⟨hs.lock u hu hlock, hd.others hl hu hk, ?_⟩
    rw [hs.marker d (hn.lt hd.1) (by simp [hlock, hu]), hg]
  | clearing d => exact ⟨hs.lock u hu h.1, hs.seen _ h.2⟩
  | _ => exact hs.lock u hu h

/-- What a step of another thread leaves. -/
theorem Wrote.others (hk : Knows s u p) (h : Wrote s u p) : Wrote s' u p := by
  have temp {n g} (ht : p.tree = some n) (hg : g ≤ s.origin n) : g ≤ s'.origin n := by
    refine Nat.le_trans hg (hs.origin n ?_)
    have := hk.tree n ht
    have := hn.fresh n
    grind
  have live {n g} (hr : s.reserved = some u) (hg : s.dest = some n ∧ g ≤ s.origin n) :
      s'.dest = some n ∧ g ≤ s'.origin n :=
    ⟨hl.dest u hu hr n hg.1, Nat.le_trans hg.2 (hs.origin n (hn.lt (hn.known_dest hg.1)))⟩
  cases p with
  | unpacked f | clearing f | parking f _ | swapping f _ => exact temp rfl h
  | dropping f l | discarding f l k | reparking f l | recording f => exact live hk.stage.1 h
  | write w k => exact ⟨h.1.others hn hl hs hu hk, h.2.others hn hl hs hu hk⟩
  | gating d q declared | releasing declared => exact hs.keeps h
  | sweep v k =>
    cases v with
    | tail d q declared => exact hs.keeps h
    | final => trivial
  | «over» declared => exact hs.keeps h
  | _ => trivial

end Others

/-! ## The steps -/

/-- The step keeps the markers, and the thread knows what it stamps. -/
def Stamped (s : State) (t : ℕ) (r : State × Pc) : Prop :=
  Marks r.1 ∧ Stamps s r.1 t ∧ Wrote r.1 t r.2

/-- What markers and generations are read off. -/
def State.marks (s : State) := (s.marker, s.origin, s.store, s.lock, s.seen)

theorem Stamped.mk (h : Marks s) (hf : s'.marks = s.marks) (hw : Wrote s' t p) : Stamped s t (s', p) := by
  simp only [State.marks, Prod.mk.injEq] at hf
  obtain ⟨h1, h2, h3, h4, h5⟩ := hf
  refine ⟨⟨?_, ?_⟩, ⟨?_, ?_, ?_, ?_⟩, hw⟩
  · rw [h1, h2]
    exact h.marker
  · rw [h2, h3]
    exact h.store
  · exact fun i _ => Nat.le_of_eq (congrFun h2.symm i)
  · exact fun i _ _ => by rw [h1]
  · exact fun u _ hu => by rw [h4, hu]
  · exact fun e he => by rwa [h5]

/-- A tree is unpacked, or made. -/
theorem Stamped.create (pl : Place) (b : Bool) {m : Option ℕ} {g : ℕ} (h : Marks s) (hm : ∀ n, m = some n → n ≤ g)
    (hg : g ≤ s.store) : Marks (s.create pl b m g) ∧ Stamps s (s.create pl b m g) t := by
  obtain ⟨h1, h2⟩ := h
  refine ⟨⟨?_, ?_⟩, ⟨?_, ?_, fun _ _ h => h, fun _ h => h⟩⟩ <;> simp only [State.create] <;> grind

theorem stamped_fetching (h : Marks s) : Stamped s t (advance t s x .fetching) := by
  have hcreate {b m g} (hm : ∀ n, m = some n → n ≤ g) (hg : g ≤ s.store) :
      Stamped s t (s.create .temp b m g, .unpacked ⟨s.trees, g⟩) := by
    obtain ⟨h1, h2⟩ := Stamped.create (t := t) .temp b h hm hg
    refine ⟨h1, h2, ?_⟩
    simp [Wrote, State.create]
  show Stamped s t (if _ then (if _ then _ else if _ then _ else _) else _)
  split_ifs
  · exact hcreate (fun n hn => by simp at hn; omega) (Nat.le_refl _)
  · exact hcreate (fun n hn => by simp at hn; omega) (Nat.zero_le _)
  · exact .mk h rfl ⟨.inl rfl, trivial⟩
  · exact .mk h rfl trivial

/-- The steps of a hydrate between its fetch and its stamp. -/
theorem stamped_unpacked (h : Marks s) {f : Fetched} (hw : Wrote s t (.unpacked f)) :
    Stamped s t (advance t s x (.unpacked f)) := by
  show Stamped s t (if _ then _ else _)
  split_ifs
  · split
    · exact .mk h rfl hw
    · exact .mk h rfl hw
    · split_ifs
      · exact .mk h rfl hw
      · exact .mk h rfl hw
  · exact .mk h rfl trivial

theorem marks_clearSlot : s.clearSlot.marks = s.marks := by
  unfold State.clearSlot
  split <;> rfl

theorem stamped_clearing (h : Marks s) {f : Fetched} (hw : Wrote s t (.clearing f)) :
    Stamped s t (advance t s x (.clearing f)) := by
  show Stamped s t (if _ then _ else _, _)
  split_ifs
  · have hm := marks_clearSlot (s := s)
    refine .mk h hm ?_
    simp only [State.marks, Prod.mk.injEq] at hm
    show f.gen ≤ _
    rw [hm.2.1]
    exact hw
  · exact .mk h rfl hw

theorem stamped_parking (h : Marks s) {f : Fetched} {a : Aside} (hw : Wrote s t (.parking f a)) :
    Stamped s t (advance t s x (.parking f a)) := by
  simp only [advance]
  split
  · split_ifs
    · exact .mk h rfl hw
    · exact .mk h rfl trivial
  · exact .mk h rfl trivial

theorem stamped_swapping (h : Marks s) {f : Fetched} {parked : Option (ℕ × Aside)}
    (hw : Wrote s t (.swapping f parked)) : Stamped s t (advance t s x (.swapping f parked)) := by
  show Stamped s t (if _ then _ else _)
  split_ifs
  · rcases parked with _ | ⟨l, _ | _⟩ <;> exact .mk h rfl ⟨rfl, hw⟩
  · rcases parked with _ | ⟨l, a⟩ <;> exact .mk h rfl trivial

theorem stamped_restoring (h : Marks s) {l : ℕ} {a : Aside} : Stamped s t (advance t s x (.restoring l a)) := by
  cases a with
  | slot =>
    simp only [advance]
    split
    · split_ifs
      · exact .mk h rfl trivial
      · exact .mk h rfl trivial
    · exact .mk h rfl trivial
  | superseded =>
    show Stamped s t (if _ then _ else _)
    split_ifs
    · exact .mk h rfl trivial
    · exact .mk h rfl trivial

theorem stamped_dropping (h : Marks s) {f : Fetched} {l : ℕ} (hw : Wrote s t (.dropping f l)) :
    Stamped s t (advance t s x (.dropping f l)) := by
  show Stamped s t (if _ then _ else _)
  split_ifs
  · split
    · exact .mk h rfl hw
    · exact .mk h rfl hw
  · exact .mk h rfl hw

/-! ## A stamp -/

/-- The holder of the lock leaves what the markers read, or lets go. -/
theorem Stamped.holder (h : Marks s) (hlock : s.lock = some t)
    (hf : (s'.marker, s'.origin, s'.store) = (s.marker, s.origin, s.store)) (hs : ∀ e ∈ s.seen, e ∈ s'.seen)
    (hw : Wrote s' t p) : Stamped s t (s', p) := by
  simp only [Prod.mk.injEq] at hf
  obtain ⟨h1, h2, h3⟩ := hf
  refine ⟨⟨?_, ?_⟩, ⟨?_, fun i _ hl => absurd hlock hl, fun u hu hl => ?_, hs⟩, hw⟩
  · rw [h1, h2]
    exact h.marker
  · rw [h2, h3]
    exact h.store
  · exact fun i _ => Nat.le_of_eq (congrFun h2.symm i)
  · rw [hlock, Option.some.injEq] at hl
    exact absurd hl.symm hu

theorem wrote_over (h : Declared s t declared) : Wrote s t (w.over declared) := by
  obtain ⟨g, _ | ⟨d, q⟩⟩ := w <;> exact h

theorem Declared.none : Declared s t none := nofun

/-- The directory that was opened is the working dir while the guard finds it so. -/
theorem Writer.Opened.dest (h : w.Opened s d) (hc : w.current s = true) : s.dest = some d := by
  obtain ⟨g, _ | ⟨p, q⟩⟩ := w
  · exact h.2
  · have hp : s.dest = some p := of_decide_eq_true hc
    obtain rfl : d = p := h.2.resolve_right fun hb => hb (.inl hp)
    exact hp

/-- The generation is no newer than the tree that it is about to be stamped on. -/
theorem Writer.Sound.le (h : w.Sound s) (hk : Knows s t (.write w k)) (hd : w.Opened s d)
    (hc : w.current s = true) : w.gen ≤ s.origin d := by
  have hdest := hd.dest hc
  obtain ⟨g, _ | ⟨p, q⟩⟩ := w
  · rcases h with h | ⟨n, hn, hg⟩
    · exact h ▸ Nat.zero_le _
    · rw [hdest, Option.some.injEq] at hn
      exact hn ▸ hg
  · have hp : s.dest = some p := of_decide_eq_true hc
    obtain rfl : q = p := (hk.pin p q rfl).2.2.1.resolve_right fun hb => hb (.inl hp)
    rw [hp, Option.some.injEq] at hdest
    exact hdest ▸ h

theorem stamped_making (hn : Names s) (h : Marks s) (hk : Knows s t (.write w k)) (hw : w.Sound s)
    (hlock : s.lock = some t) : Stamped s t (s.mkdirAll, .write w .opening) := by
  cases hd : s.dest with
  | some d =>
    have : s.mkdirAll = s := by simp [State.mkdirAll, hd]
    rw [this]
    exact .mk h rfl ⟨hw, hlock⟩
  | none =>
    have hm : s.mkdirAll = { s.create .dest false none 0 with dest := some s.trees } := by
      simp [State.mkdirAll, hd]
    obtain ⟨h1, h2⟩ := Stamped.create (t := t) (m := none) .dest false h nofun (Nat.zero_le _)
    rw [hm]
    refine ⟨⟨h1.marker, h1.store⟩, ⟨h2.origin, h2.marker, h2.lock, h2.seen⟩, ?_, hlock⟩
    obtain ⟨g, _ | ⟨p, q⟩⟩ := w
    · refine .inl (hw.resolve_right ?_)
      rintro ⟨n, hdest, -⟩
      rw [hd] at hdest
      cases hdest
    · exact Nat.le_trans hw (h2.origin q (hn.lt (hk.pin p q rfl).2.1))

theorem stamped_write (hn : Names s) (h : Marks s) (hk : Knows s t (.write w k)) (hw : Wrote s t (.write w k)) :
    Stamped s t (writeStep t s x w k) := by
  obtain ⟨hsound, hat⟩ := hw
  -- Where the stamp ends without a generation to declare.
  have ends {s'} (hlock : s.lock = some t) (hf : (s'.marker, s'.origin, s'.store) = (s.marker, s.origin, s.store))
      (hs : ∀ e ∈ s.seen, e ∈ s'.seen) : Stamped s t (s', w.over none) :=
    .holder h hlock hf hs (wrote_over .none)
  cases k with
  | locking =>
    show Stamped s t (if _ then _ else _)
    split_ifs with hx
    · refine ⟨⟨h.marker, h.store⟩, ⟨fun _ _ => Nat.le_refl _, fun _ _ _ => rfl, fun u _ hu => ?_, fun _ he => he⟩,
        hsound, rfl⟩
      rw [hx.2] at hu
      cases hu
    · exact .mk h rfl (wrote_over .none)
  | guarding =>
    show Stamped s t (if _ then _ else _)
    split_ifs
    · exact .mk h rfl ⟨hsound, hat⟩
    · exact ends hat rfl fun _ he => he
  | making =>
    show Stamped s t (if _ then _ else _)
    split_ifs
    · exact stamped_making hn h hk hsound hat
    · exact ends hat rfl fun _ he => he
  | opening =>
    simp only [writeStep]
    split
    · rename_i d hd
      split_ifs
      · refine .mk h rfl ⟨hsound, hat, hn.known_dest hd, ?_⟩
        obtain ⟨g, _ | ⟨p, q⟩⟩ := w
        · exact hd
        · show d = p ∨ ¬s.Back p
          grind [State.Back]
      · exact ends hat rfl fun _ he => he
    · exact ends hat rfl fun _ he => he
  | creating d =>
    show Stamped s t (if _ then _ else _)
    split_ifs
    · exact .mk h rfl ⟨hsound, hat⟩
    · exact ends hat.1 rfl fun _ he => he
  | fencing d m =>
    show Stamped s t (if _ then _ else _)
    split_ifs with hx
    · exact .mk h rfl ⟨hsound, hat.1, hat.2, hsound.le hk hat.2 hx.2⟩
    · exact ends hat.1 rfl fun _ he => he
  | «renaming» d m =>
    obtain ⟨hlock, hd, hg⟩ := hat
    show Stamped s t (if _ then _ else _)
    split_ifs
    · refine ⟨⟨fun i g hi => ?_, h.store⟩, ⟨fun _ _ => Nat.le_refl _, fun _ _ hl => absurd hlock hl, fun _ _ hu => hu,
        fun _ he => he⟩, hsound, hlock, hd, ?_⟩
      · by_cases hid : i = d
        · subst hid
          simp only [Function.update_self, Option.some.injEq] at hi
          exact hi ▸ hg
        · simp only [Function.update_of_ne hid] at hi
          exact h.marker i g hi
      · simp
    · exact ends hlock rfl fun _ he => he
  | rechecking d =>
    obtain ⟨hlock, hd, hg⟩ := hat
    have hsee : ((s.see t).marker, (s.see t).origin, (s.see t).store) = (s.marker, s.origin, s.store) ∧
        ∀ e ∈ s.seen, e ∈ (s.see t).seen := by
      unfold State.see
      split
      · exact ⟨rfl, fun e he => List.mem_cons_of_mem _ he⟩
      · exact ⟨rfl, fun e he => he⟩
    show Stamped s t (if _ then _ else _)
    split_ifs with hx
    · have hs : s.see t = { s with seen := (t, w.gen) :: s.seen } := by
        simp [State.see, hd.dest hx.2, hg]
      rw [hs] at hsee ⊢
      exact .holder h hlock hsee.1 hsee.2 ⟨hsound, hlock, List.mem_cons_self⟩
    · exact ends hlock hsee.1 hsee.2
  | clearing d =>
    refine .holder h hat.1 rfl (fun _ he => he) (wrote_over ?_)
    intro g hg
    split_ifs at hg
    cases hg
    exact hat.2

/-! ## Any step -/

theorem wrote_sweep {v : Sweeper} {k : SweepPc} (hs : s'.seen = s.seen) (hw : Wrote s t (.sweep v k)) :
    (∀ k', Wrote s' t (.sweep v k')) ∧ Wrote s' t v.over := by
  cases v with
  | tail d q declared =>
    have hd : Declared s' t declared := by
      unfold Declared
      rw [hs]
      exact hw
    exact ⟨fun _ => hd, hd⟩
  | final => exact ⟨fun _ => trivial, Declared.none⟩

theorem stamped_sweep {v : Sweeper} {k : SweepPc} (h : Marks s) (hw : Wrote s t (.sweep v k)) :
    Stamped s t (sweepStep t s x v k) := by
  have ends {s'} (hf : s'.marks = s.marks) : Stamped s t (s', v.over) :=
    .mk h hf (wrote_sweep (congrArg (·.2.2.2.2) hf) hw).2
  have stay {s'} {k'} (hf : s'.marks = s.marks) : Stamped s t (s', .sweep v k') :=
    .mk h hf ((wrote_sweep (congrArg (·.2.2.2.2) hf) hw).1 k')
  cases k with
  | claiming =>
    show Stamped s t (if _ then _ else _)
    split_ifs
    · exact stay rfl
    · exact ends rfl
  | detaching =>
    simp only [sweepStep]
    split
    · split_ifs
      · exact stay rfl
      · exact ends rfl
    · exact ends rfl
  | verifying y =>
    show Stamped s t (if _ then _ else _)
    split_ifs
    · exact stay rfl
    · exact stay rfl
  | returning y =>
    show Stamped s t (if _ then _ else _)
    split_ifs
    · exact ends rfl
    · exact ends rfl
  | removing y c =>
    show Stamped s t (if _ then _ else _, _)
    split_ifs
    · exact ends rfl
    · exact ends rfl

/-- A pack is published. -/
theorem Stamps.publish (h : Marks s) (q : ℕ) : Marks (s.publish q) ∧ Stamps s (s.publish q) t := by
  obtain ⟨h1, h2⟩ := h
  refine ⟨⟨?_, ?_⟩, ⟨?_, fun _ _ _ => rfl, fun _ _ h => h, fun _ h => h⟩⟩ <;>
    simp only [State.publish] <;> grind

theorem stamped_advance (hn : Names s) (h : Marks s) (hk : Knows s t p) (hw : Wrote s t p) :
    Stamped s t (advance t s x p) := by
  cases p with
  | fetching => exact stamped_fetching h
  | unpacked f => exact stamped_unpacked h hw
  | clearing f => exact stamped_clearing h hw
  | parking f a => exact stamped_parking h hw
  | swapping f parked => exact stamped_swapping h hw
  | restoring l a => exact stamped_restoring h
  | dropping f l => exact stamped_dropping h hw
  | reparking f l | gating d q declared =>
    show Stamped s t (if _ then _ else _)
    split_ifs
    · exact .mk h rfl hw
    · exact .mk h rfl hw
  | recording f =>
    show Stamped s t (if _ then _ else _)
    split_ifs
    · exact .mk h rfl ⟨.inr ⟨f.tree, hw⟩, trivial⟩
    · exact .mk h rfl trivial
  | write w k => exact stamped_write hn h hk hw
  | sweep v k => exact stamped_sweep h hw
  | pinned d =>
    simp only [advance]
    split
    · split_ifs
      · exact .mk h rfl trivial
      · exact .mk h rfl Declared.none
    · exact .mk h rfl Declared.none
  | packed d q =>
    show Stamped s t (if _ then _ else _)
    split_ifs
    · obtain ⟨h1, h2⟩ := Stamps.publish (t := t) h q
      refine ⟨h1, h2, ?_, trivial⟩
      simp [Writer.Sound, State.publish]
    · exact .mk h rfl Declared.none
  | packing =>
    simp only [advance]
    split
    · rename_i q _
      split_ifs
      · obtain ⟨h1, h2⟩ := Stamps.publish (t := t) h q
        exact ⟨h1, h2, trivial⟩
      · exact .mk h rfl Declared.none
    · exact .mk h rfl Declared.none
  | removing =>
    simp only [advance]
    split
    · split_ifs
      · exact .mk h rfl trivial
      · exact .mk h rfl trivial
    · exact .mk h rfl trivial
  | failed parked => exact .mk h rfl Declared.none
  | leftovers | finalLeftovers => exact .mk h rfl trivial
  | discarding _ _ _ | releasing _ | idle | «over» _ => exact .mk h rfl hw

/-! ## Runs -/

/-- What a thread knows while its process runs, and of its result for good. -/
structure Results (s : State) (t : ℕ) (th : Thread) : Prop where
  wrote : th.boot = s.boot → Wrote s t th.pc
  «over» : ∀ g, th.pc = .over (some g) → (t, g) ∈ s.seen

variable {th : Thread}

/-- What a step of a thread that takes part has to keep. -/
def Leads (s : State) (t : ℕ) (r : State × Thread) : Prop :=
  Marks r.1 ∧ Results r.1 t r.2 ∧ ∀ u th, u ≠ t → Ok s u th → Results s u th → Results r.1 u th

theorem Results.others (h : Results s u th) (ho : Ok s u th) (hn : Names s) (hl : Leaves s s' t)
    (hs : Stamps s s' t) (hu : u ≠ t) : Results s' u th := by
  refine ⟨fun hb => ?_, fun g hg => hs.seen _ (h.over g hg)⟩
  rw [hl.boot] at hb
  exact (h.wrote hb).others hn hl hs hu (ho.knows hb)

/-- The step of a thread of the process that runs. -/
theorem Stamped.leads (h : Stamped s t (s', p)) (hk : Kept s t (s', p)) (hn : Names s) :
    Leads s t (s', ⟨s.boot, p⟩) := by
  refine ⟨h.1, ⟨fun _ => h.2.2, fun g hg => ?_⟩, fun u th hu ho hr => hr.others ho hn hk.1.others h.2.1 hu⟩
  have hw := h.2.2
  subst hg
  exact hw g rfl

/-- What the world does by itself. -/
theorem leads_world (hn : Names s) (hr : ∀ t, Renames s s' t) (hs : ∀ t, Stamps s s' t) (hm : Marks s')
    (ho : Ok s t th) (h : Results s t th) : Leads s t (s', th) :=
  ⟨hm, h.others ho hn (hr (t + 1)).others (hs (t + 1)) (Nat.ne_of_lt (Nat.lt_succ_self t)),
    fun _ _ hu ho h => h.others ho hn (hr t).others (hs t) hu⟩

/-- A process that stops, or reclaims: nobody is under way in the next one. -/
theorem leads_stop (hm : Marks s) (hf : (s'.marker, s'.origin, s'.store, s'.seen) = (s.marker, s.origin, s.store, s.seen))
    (hb : ∀ u th, Ok s u th → th.boot ≠ s'.boot) (ho : Ok s t th) (h : Results s t th) : Leads s t (s', th) := by
  simp only [Prod.mk.injEq] at hf
  obtain ⟨h1, h2, h3, h4⟩ := hf
  have hr {u th} (ho : Ok s u th) (h : Results s u th) : Results s' u th :=
    ⟨fun hx => absurd hx (hb u th ho), fun g hg => by rw [h4]; exact h.over g hg⟩
  refine ⟨⟨?_, ?_⟩, hr ho h, fun u th _ => hr⟩
  · rw [h1, h2]
    exact hm.marker
  · rw [h2, h3]
    exact hm.store

theorem marks_reserve {p' : Pc} : (s.begin.reserve t p').1.marks = s.marks := by
  unfold State.reserve
  split <;> rfl

theorem wrote_reserve {p' : Pc} (hw : ∀ s, Wrote s t p') : Wrote s' t (s.begin.reserve t p').2 := by
  unfold State.reserve
  split
  · exact hw s'
  · exact Declared.none

theorem leads_post {a : Action} (hi : Inv s) (ho : Ok s t th) (hm : Marks s) (h : Results s t th)
    (hp : pre s th a) : Leads s t (post t s th a) := by
  have hn := hi.names
  cases a with
  | hydrate | final =>
    exact Stamped.leads (.mk hm marks_reserve (wrote_reserve fun _ => trivial))
      (kept_reserve hn (ho.idle hp) rfl rfl rfl) hn
  | snapshot =>
    have hk := kept_snapshot hn (ho.idle hp)
    rw [post]
    cases hd : s.dest with
    | some d =>
      rw [hd] at hk
      exact Stamped.leads (.mk hm rfl trivial) hk hn
    | none =>
      rw [hd] at hk
      exact Stamped.leads (.mk hm rfl Declared.none) hk hn
  | step x => exact (stamped_advance hn hm (ho.knows hp.1) (h.wrote hp.1)).leads (kept_advance hn (ho.knows hp.1)) hn
  | play =>
    rw [post]
    split
    · rename_i d hd
      exact leads_world hn (fun _ => .play hn hp hd) (fun _ => ⟨fun _ _ => Nat.le_refl _, fun _ _ _ => rfl,
        fun _ _ h => h, fun _ h => h⟩) ⟨hm.marker, hm.store⟩ ho h
    · exact leads_world hn (fun _ => same hn) (fun _ => ⟨fun _ _ => Nat.le_refl _, fun _ _ _ => rfl,
        fun _ _ h => h, fun _ h => h⟩) hm ho h
  | publish =>
    exact leads_world hn (fun _ => .frame hn rfl) (fun _ => ⟨fun _ _ => Nat.le_refl _, fun _ _ _ => rfl,
      fun _ _ h => h, fun _ h => h⟩) ⟨hm.marker, fun i => Nat.le_succ_of_le (hm.store i)⟩ ho h
  | crash => exact leads_stop hm rfl (fun u th ho => Nat.ne_of_lt (Nat.lt_succ_of_le ho.boot)) ho h
  | reclaim keep => exact leads_stop hm rfl (fun u th ho => Nat.ne_of_lt (ho.booting hp)) ho h

/-- **Held generations.** The marker in a tree is never newer than the tree, and a generation that a command
declares was in the working dir when it was last checked. -/
theorem held_marker_true {c : Conf} (h : threads.machine.Reach Machine.Any start c) :
    (∀ i g, c.shared.marker i = some g → g ≤ c.shared.origin i) ∧
    ∀ t g, (c.th t).pc = .over (some g) → (t, g) ∈ c.shared.seen := by
  have hc : Threads.Holds Marks Results c := by
    refine Threads.invariant (h.along fun _ hr => holds hr) ⟨⟨nofun, fun _ => Nat.le_refl _⟩, fun t => ⟨fun _ => ?_, nofun⟩⟩
      fun c t a hc hp hH => ?_
    · exact trivial
    · obtain ⟨h1, h2, h3⟩ := leads_post hH.2.shared (hH.2.thread t) hc.shared (hc.thread t) hp
      exact ⟨h1, h2, fun u hu => h3 u _ hu (hH.2.thread u)⟩
  exact ⟨hc.shared.marker, fun t g hg => (hc.thread t).over g hg⟩

/-- A hydrate of the first generation declares it. -/
theorem held_marker_true_hydrate : ∃ c, threads.machine.Reach Machine.Any start c ∧
    (c.th 0).pc = .over (some 1) ∧ c.shared.dest.bind c.shared.marker = some 1 ∧ (0, 1) ∈ c.shared.seen := by
  have h : (threads.machine.exec ((0, .publish) :: hydrates 0 15) start).map
      (fun c => decide ((c.th 0).pc = .over (some 1) ∧ c.shared.dest.bind c.shared.marker = some 1)) = some true := by
    decide +kernel
  obtain ⟨c, hc, hp⟩ := Machine.reach_of_exec_map h
  obtain ⟨hpc, hm⟩ := of_decide_eq_true hp
  exact ⟨c, hc, hpc, hm, (held_marker_true hc).2 0 1 hpc⟩

end McServerDashboard.Worker.Scratch
