import Mathlib.Order.Nat
import McServerDashboard.Worker.Instances

/-!
# Who answers for an instance

* `Pc.owns`: what a thread holds the id for.
* `Inv.covered`: an instance that is not known to have exited is tracked, recorded as a failed-stop
  orphan, or held by the thread that has the reservation.
* **`one_holder`**: one operation holds the id at a time, every instance is answered for, and so none is
  launched, hydrated over, removed or called unknown beside another.
-/

namespace McServerDashboard.Worker.Instances

open Lib

/-- What a thread holds the id for. -/
inductive Owns
  | nothing
  /-- No instance. -/
  | free
  /-- An instance that it has launched, or taken from those running. -/
  | fresh (i : ℕ)
  | stops (i : ℕ)
  /-- An instance that it has recorded as an orphan. -/
  | recorded (i : ℕ)
  /-- An instance that it has stopped. -/
  | done

def StopPc.owns (i : ℕ) : StopPc → Owns
  | .recorded => .recorded i
  | _ => .stops i

def Pc.owns : Pc → Owns
  | .launching => .free
  | .starting => .free
  | .created i => .fresh i
  | .started i => .fresh i
  | .validating i => .fresh i
  | .stop _ i k => k.owns i
  | .restore (.lane _ i) _ => .recorded i
  | .releasing _ i stopped => if stopped then .done else .recorded i
  | .working _ => .free
  | _ => .nothing

/-- The thread holds the id. -/
def Pc.Holds (p : Pc) : Prop := p.owns ≠ .nothing

/-- The instance that the thread holds. -/
def Owns.inst : Owns → Option ℕ
  | .fresh i => some i
  | .stops i => some i
  | .recorded i => some i
  | _ => none

def Owns.Ok (s : State) (t : ℕ) : Owns → Prop
  | .nothing => s.reserved ≠ some t
  | .free => s.reserved = some t ∧ s.held = none ∧ s.orphan = none
  | .fresh i => s.reserved = some t ∧ s.held = some i ∧ s.orphan = none
  | .stops i => s.reserved = some t ∧ s.held = some i ∧ (s.orphan = none ∨ s.orphan = some i)
  | .recorded i => s.reserved = some t ∧ s.held = some i ∧ (s.orphan = some i ∨ s.gone i = true)
  | .done => s.reserved = some t ∧ s.held = none

structure Inv (s : State) : Prop where
  covered : ∀ i, i < s.launched →
    s.gone i = true ∨ s.instances = some i ∨ s.orphan = some i ∨ s.held = some i
  tracked : s.instances ≠ none → s.reserved = none ∧ s.orphan = none
  held : s.reserved = none → s.held = none
  dead : ∀ i, s.gone i = true → s.dead i = true
  holder : ∀ t, s.reserved = some t → s.instances = none
  known : ∀ i, s.instances = some i ∨ s.orphan = some i ∨ s.held = some i → i < s.launched

/-- What a step of `t` leaves to the others. -/
structure Spares (s s' : State) (t : ℕ) : Prop where
  taken : ∀ u, u ≠ t → s'.reserved = some u → s.reserved = some u
  kept : ∀ u, u ≠ t → s.reserved = some u → s'.reserved = some u ∧ s'.held = s.held ∧
    (s'.orphan = s.orphan ∨ s'.orphan = none)
  orphan : ∀ i, s.orphan = some i → s'.orphan = some i ∨ s'.gone i = true ∨ s.reserved = some t
  gone : ∀ i, s.gone i = true → s'.gone i = true

variable {s s' : State} {t u : ℕ} {p q : Pc} {o o' : Owns} {i : ℕ} {a : Action}

theorem Owns.Ok.reserved (h : o.Ok s t) (ho : o ≠ .nothing) : s.reserved = some t := by
  cases o with
  | nothing => exact absurd rfl ho
  | free => exact h.1
  | fresh i => exact h.1
  | stops i => exact h.1
  | recorded i => exact h.1
  | done => exact h.1

theorem Spares.ok (hs : Spares s s' t) (hu : u ≠ t) (h : o.Ok s u) : o.Ok s' u := by
  cases o with
  | nothing => exact fun h' => h (hs.taken u hu h')
  | free | fresh i =>
    obtain ⟨hr, hh, ho⟩ := hs.kept u hu h.1
    refine ⟨hr, hh.trans h.2.1, ?_⟩
    rcases ho with ho | ho
    · exact ho.trans h.2.2
    · exact ho
  | stops i =>
    obtain ⟨hr, hh, ho⟩ := hs.kept u hu h.1
    refine ⟨hr, hh.trans h.2.1, ?_⟩
    rcases ho with ho | ho
    · rw [ho]
      exact h.2.2
    · exact .inl ho
  | recorded i =>
    obtain ⟨hr, hh, -⟩ := hs.kept u hu h.1
    refine ⟨hr, hh.trans h.2.1, ?_⟩
    rcases h.2.2 with ho | hg
    · rcases hs.orphan i ho with ho | hg | hres
      · exact .inl ho
      · exact .inr hg
      · exact absurd (Option.some.inj (h.1.symm.trans hres)) hu
    · exact .inr (hs.gone i hg)
  | done =>
    obtain ⟨hr, hh, -⟩ := hs.kept u hu h.1
    exact ⟨hr, hh.trans h.2⟩

structure Steps (s : State) (t : ℕ) (x : State × Pc) : Prop where
  inv : Inv x.1
  own : x.2.owns.Ok x.1 t
  others : Spares s x.1 t

/-- The maps at the id, and what is known of the instances. -/
def State.frame (s : State) := (s.instances, s.reserved, s.orphan, s.held, s.launched, s.gone)

/-! ## What a step changes -/

/-- The step is the holder's: the others hold nothing. -/
theorem Spares.held (hr : s.reserved = some t) (hr' : s'.reserved = some t ∨ s'.reserved = none)
    (hg : ∀ i, s.gone i = true → s'.gone i = true) : Spares s s' t where
  taken u hu h := by
    rcases hr' with hr' | hr' <;> rw [hr'] at h
    · exact absurd (Option.some.inj h).symm hu
    · cases h
  kept u hu h := absurd (Option.some.inj (h.symm.trans hr)) hu
  orphan _ _ := .inr (.inr hr)
  gone := hg

/-- The id is taken while nobody holds it. -/
theorem Spares.take (hr : s.reserved = none) (hr' : s'.reserved = some t) (ho : s'.orphan = s.orphan)
    (hg : s'.gone = s.gone) : Spares s s' t where
  taken u hu h := absurd (Option.some.inj (h.symm.trans hr')) hu
  kept u _ h := by
    rw [hr] at h
    cases h
  orphan i h := .inl (ho.trans h)
  gone i h := hg ▸ h

/-- A step that leaves the maps, and the thread with what it holds. -/
theorem Steps.same (hi : Inv s) (h : o.Ok s t) (hf : s'.frame = s.frame)
    (hd : ∀ i, s.dead i = true → s'.dead i = true) (hq : q.owns = o) : Steps s t (s', q) := by
  simp only [State.frame, Prod.mk.injEq] at hf
  obtain ⟨hin, hr, ho, hh, hl, hg⟩ := hf
  refine ⟨⟨fun i hlt => ?_, fun h => ?_, fun h => ?_, fun i h => ?_, fun t h => ?_, fun i h => ?_⟩, ?_,
    ⟨fun u _ h => hr ▸ h, fun u _ h => ⟨hr.trans h, hh, .inl ho⟩, fun i h => .inl (ho.trans h),
      fun i h => hg ▸ h⟩⟩
  · rw [hg, hin, ho, hh]
    exact hi.covered i (hl ▸ hlt)
  · rw [hr, ho]
    exact hi.tracked (hin ▸ h)
  · exact hh.trans (hi.held (hr.symm.trans h))
  · exact hd i (hi.dead i (hg ▸ h))
  · exact hin.trans (hi.holder t (hr.symm.trans h))
  · rw [hin, ho, hh] at h
    exact hl ▸ hi.known i h
  · show q.owns.Ok s' t
    rw [hq]
    cases o <;> simpa only [Owns.Ok, hr, ho, hh, hg] using h

theorem steps_reserve (hi : Inv s) (h : s.reserved ≠ some t) (hq : q.owns = .free) :
    Steps s t (s.reserve t q) := by
  have hsame : ∀ r, Steps s t (s, .over r) := fun r => .same (o := .nothing) hi h rfl (fun _ h => h) rfl
  unfold State.reserve
  split_ifs with hin ho hr
  · exact hsame _
  · exact hsame _
  · exact hsame _
  · rw [ne_eq, not_not] at hin ho hr
    refine ⟨⟨hi.covered, fun h => absurd hin h, nofun, hi.dead, fun _ _ => hin, hi.known⟩, ?_,
      .take hr rfl rfl rfl⟩
    show q.owns.Ok _ t
    rw [hq]
    exact ⟨rfl, hi.held hr, ho⟩

/-- The instance that is running is taken. -/
theorem steps_takeRunning (hi : Inv s) (hin : s.instances = some i)
    (hq : q.owns = .fresh i ∨ q.owns = .stops i) : Steps s t ({ s with instances := none }.take t i, q) := by
  obtain ⟨hr, ho⟩ := hi.tracked (by rw [hin]; nofun)
  refine ⟨⟨fun j hj => ?_, fun h => absurd rfl h, nofun, hi.dead, fun _ _ => rfl, fun j hj => ?_⟩, ?_,
    .take hr rfl rfl rfl⟩
  · rcases hi.covered j hj with h | h | h | h
    · exact .inl h
    · exact .inr (.inr (.inr (hin.symm.trans h)))
    · exact .inr (.inr (.inl h))
    · rw [hi.held hr] at h
      cases h
  · rcases hj with h | h | h
    · cases h
    · exact hi.known j (.inr (.inl h))
    · exact hi.known j (.inl (hin.trans h))
  · show q.owns.Ok _ t
    rcases hq with hq | hq <;> rw [hq]
    · exact ⟨rfl, rfl, ho⟩
    · exact ⟨rfl, rfl, .inl ho⟩

theorem steps_takeOrphan (hi : Inv s) (hin : s.instances = none) (hr : s.reserved = none)
    (ho : s.orphan = some i) (hq : q.owns = .stops i) : Steps s t (s.take t i, q) := by
  refine ⟨⟨fun j hj => ?_, fun h => absurd hin h, nofun, hi.dead, fun _ _ => hin, fun j hj => ?_⟩, ?_,
    .take hr rfl rfl rfl⟩
  · rcases hi.covered j hj with h | h | h | h
    · exact .inl h
    · exact .inr (.inl h)
    · exact .inr (.inr (.inl h))
    · rw [hi.held hr] at h
      cases h
  · rcases hj with h | h | h
    · exact hi.known j (.inl h)
    · exact hi.known j (.inr (.inl h))
    · exact hi.known j (.inr (.inl (ho.trans h)))
  · show q.owns.Ok _ t
    rw [hq]
    exact ⟨rfl, rfl, .inr ho⟩

theorem Steps.launch (hi : Inv s) (h : Owns.free.Ok s t) (hq : q.owns = .fresh s.launched) :
    Steps s t ({ s with launched := s.launched + 1, held := some s.launched }, q) := by
  obtain ⟨hr, hh, ho⟩ := h
  refine ⟨⟨fun j hj => ?_, hi.tracked, fun h => ?_, hi.dead, hi.holder, fun j hj => ?_⟩, ?_,
    .held hr (.inl hr) fun _ h => h⟩
  · rcases Nat.lt_succ_iff_lt_or_eq.mp hj with hj | rfl
    · rcases hi.covered j hj with h | h | h | h
      · exact .inl h
      · exact .inr (.inl h)
      · exact .inr (.inr (.inl h))
      · rw [hh] at h
        cases h
    · exact .inr (.inr (.inr rfl))
  · have h : s.reserved = none := h
    rw [hr] at h
    cases h
  · rcases hj with h | h | h
    · exact Nat.lt_succ_of_lt (hi.known j (.inl h))
    · exact Nat.lt_succ_of_lt (hi.known j (.inr (.inl h)))
    · obtain rfl := Option.some.inj h
      exact Nat.lt_succ_self _
  · show q.owns.Ok _ t
    rw [hq]
    exact ⟨hr, rfl, ho⟩

theorem known_release (hi : Inv s) (h : s.instances = some i ∨ s.orphan = some i ∨ (none : Option ℕ) = some i) :
    i < s.launched := by
  rcases h with h | h | h
  · exact hi.known i (.inl h)
  · exact hi.known i (.inr (.inl h))
  · cases h

/-- The instance held is known to have exited, and the id is released. -/
theorem Steps.lose (hi : Inv s) (hr : s.reserved = some t) (hh : s.held = some i) (hq : q.owns = .nothing) :
    Steps s t (((s.die i).know i).release, q) := by
  refine ⟨⟨fun j hj => ?_, fun h => ?_, fun _ => rfl, fun j hj => ?_, nofun, fun j hj => ?_⟩, ?_,
    .held hr (.inr rfl) fun j h => ?_⟩
  · show Function.update s.gone i true j = true ∨ _
    by_cases hji : j = i
    · exact .inl (by rw [hji, Function.update_self])
    · rw [Function.update_of_ne hji]
      rcases hi.covered j hj with h | h | h | h
      · exact .inl h
      · exact .inr (.inl h)
      · exact .inr (.inr (.inl h))
      · exact absurd (Option.some.inj (h.symm.trans hh)) hji
  · exact absurd (hi.holder t hr) h
  · show Function.update s.dead i true j = true
    by_cases hji : j = i
    · rw [hji, Function.update_self]
    · rw [Function.update_of_ne hji]
      have hj : Function.update s.gone i true j = true := hj
      rw [Function.update_of_ne hji] at hj
      exact hi.dead j hj
  · exact known_release (s := s) hi hj
  · show q.owns.Ok _ t
    rw [hq]
    exact nofun
  · show Function.update s.gone i true j = true
    by_cases hji : j = i
    · rw [hji, Function.update_self]
    · rwa [Function.update_of_ne hji]

theorem Steps.register (hi : Inv s) (h : (Owns.fresh i).Ok s t) (hq : q.owns = .nothing) :
    Steps s t (s.register i, q) := by
  obtain ⟨hr, hh, ho⟩ := h
  refine ⟨⟨fun j hj => ?_, fun _ => ⟨rfl, ho⟩, fun _ => rfl, hi.dead, nofun, fun j hj => ?_⟩, ?_,
    .held hr (.inr rfl) fun _ h => h⟩
  · rcases hi.covered j hj with h | h | h | h
    · exact .inl h
    · rw [hi.holder t hr] at h
      cases h
    · exact .inr (.inr (.inl h))
    · exact .inr (.inl (hh.symm.trans h))
  · rcases hj with h | h | h
    · exact hi.known j (.inr (.inr (hh.trans h)))
    · exact hi.known j (.inr (.inl h))
    · cases h
  · show q.owns.Ok _ t
    rw [hq]
    exact nofun

theorem Steps.recordOrphan (hi : Inv s) (h : (Owns.stops i).Ok s t) (hq : q.owns = .recorded i) :
    Steps s t (s.recordOrphan i, q) := by
  obtain ⟨hr, hh, ho⟩ := h
  have hcov : ∀ j, j < s.launched → s.gone j = true ∨ s.instances = some j ∨ some i = some j ∨ s.held = some j := by
    intro j hj
    rcases hi.covered j hj with h | h | h | h
    · exact .inl h
    · exact .inr (.inl h)
    · rcases ho with ho | ho <;> rw [ho] at h
      · cases h
      · exact .inr (.inr (.inl h))
    · exact .inr (.inr (.inr h))
  have htr : s.instances ≠ none → s.reserved = none ∧ some i = none := fun h => absurd (hi.holder t hr) h
  have hknown : ∀ j, s.instances = some j ∨ some i = some j ∨ s.held = some j → j < s.launched := by
    rintro j (h | h | h)
    · exact hi.known j (.inl h)
    · exact hi.known j (.inr (.inr (hh.trans h)))
    · exact hi.known j (.inr (.inr h))
  unfold State.recordOrphan
  split_ifs
  all_goals
    refine ⟨⟨hcov, htr, hi.held, hi.dead, hi.holder, hknown⟩, ?_, .held hr (.inl hr) fun _ h => h⟩
    show q.owns.Ok _ t
    rw [hq]
    exact ⟨hr, hh, .inl rfl⟩

theorem Steps.release (hi : Inv s) (hr : s.reserved = some t) (hh : ∀ i, s.held = some i →
    s.orphan = some i ∨ s.gone i = true) (hq : q.owns = .nothing) : Steps s t (s.release, q) := by
  refine ⟨⟨fun j hj => ?_, fun h => absurd (hi.holder t hr) h, fun _ => rfl, hi.dead, nofun,
    fun _ => known_release (s := s) hi⟩, ?_, .held hr (.inr rfl) fun _ h => h⟩
  · rcases hi.covered j hj with h | h | h | h
    · exact .inl h
    · exact .inr (.inl h)
    · exact .inr (.inr (.inl h))
    · rcases hh j h with h | h
      · exact .inr (.inr (.inl h))
      · exact .inl h
  · show q.owns.Ok _ t
    rw [hq]
    exact nofun

/-- An instance is known to have exited: its record may go. -/
theorem Steps.know (hi : Inv s) (h : o.Ok s t) (hd : s.dead i = true) (hf : s'.launched = s.launched)
    (hr : s'.reserved = s.reserved) (hh : s'.held = s.held) (hg : s'.gone = s.gone) (hdead : s'.dead = s.dead)
    (hin : s'.instances = s.instances ∨ s.instances = some i ∧ s'.instances = none)
    (ho : s'.orphan = s.orphan ∨ s.orphan = some i ∧ s'.orphan = none) (hq : q.owns = o) :
    Steps s t (s'.know i, q) := by
  have hself : Function.update s'.gone i true i = true := Function.update_self _ _ _
  have hgone : ∀ j, s.gone j = true → Function.update s'.gone i true j = true := fun j hj => by
    by_cases hji : j = i
    · rw [hji, hself]
    · rwa [Function.update_of_ne hji, hg]
  have hle : s'.instances ≠ none → s.instances ≠ none := fun h' => by
    rcases hin with hin | ⟨-, hin⟩
    · exact hin ▸ h'
    · exact absurd hin h'
  have honone : s.orphan = none → s'.orphan = none := fun h' => by
    rcases ho with ho | ⟨-, ho⟩
    · exact ho.trans h'
    · exact ho
  have hosome : ∀ j, s.orphan = some j → s'.orphan = some j ∨ Function.update s'.gone i true j = true := by
    intro j hj
    rcases ho with ho | ⟨ho, -⟩
    · exact .inl (ho.trans hj)
    · obtain rfl := Option.some.inj (ho.symm.trans hj)
      exact .inr hself
  refine ⟨⟨fun j hj => ?_, fun h' => ?_, fun h' => ?_, fun j hj => ?_, fun t h' => ?_, fun j hj => ?_⟩, ?_,
    ⟨fun u _ h' => hr ▸ h', fun u _ h' => ⟨hr.trans h', hh, ?_⟩, fun j hj => ?_, hgone⟩⟩
  · have hj : j < s.launched := hf ▸ hj
    rcases hi.covered j hj with h' | h' | h' | h'
    · exact .inl (hgone j h')
    · rcases hin with hin | ⟨hin, -⟩
      · exact .inr (.inl (hin.trans h'))
      · obtain rfl := Option.some.inj (hin.symm.trans h')
        exact .inl hself
    · rcases hosome j h' with h' | h'
      · exact .inr (.inr (.inl h'))
      · exact .inl h'
    · exact .inr (.inr (.inr (hh.trans h')))
  · obtain ⟨h1, h2⟩ := hi.tracked (hle h')
    exact ⟨hr.trans h1, honone h2⟩
  · exact hh.trans (hi.held (hr.symm.trans h'))
  · show s'.dead j = true
    rw [hdead]
    by_cases hji : j = i
    · rw [hji, hd]
    · have hj : Function.update s'.gone i true j = true := hj
      rw [Function.update_of_ne hji, hg] at hj
      exact hi.dead j hj
  · have hnone := hi.holder t (hr.symm.trans h')
    rcases hin with hin | ⟨-, hin⟩
    · exact hin.trans hnone
    · exact hin
  · show j < s'.launched
    rw [hf]
    refine hi.known j ?_
    rcases hj with h' | h' | h'
    · rcases hin with hin | ⟨-, hin⟩
      · exact .inl (hin.symm.trans h')
      · exact absurd (hin.symm.trans h') nofun
    · rcases ho with ho | ⟨-, ho⟩
      · exact .inr (.inl (ho.symm.trans h'))
      · exact absurd (ho.symm.trans h') nofun
    · exact .inr (.inr (hh.symm.trans h'))
  · show q.owns.Ok _ t
    rw [hq]
    cases o with
    | nothing => exact fun h' => h (hr.symm.trans h')
    | free | fresh j => exact ⟨hr.trans h.1, hh.trans h.2.1, honone h.2.2⟩
    | stops j =>
      refine ⟨hr.trans h.1, hh.trans h.2.1, ?_⟩
      rcases h.2.2 with h' | h'
      · exact .inl (honone h')
      · rcases ho with ho | ⟨-, ho⟩
        · exact .inr (ho.trans h')
        · exact .inl ho
    | recorded j =>
      refine ⟨hr.trans h.1, hh.trans h.2.1, ?_⟩
      rcases h.2.2 with h' | h'
      · exact hosome j h'
      · exact .inr (hgone j h')
    | done => exact ⟨hr.trans h.1, hh.trans h.2⟩
  · rcases ho with ho | ⟨-, ho⟩
    · exact .inl ho
    · exact .inr ho
  · rcases hosome j hj with h' | h'
    · exact .inl h'
    · exact .inr (.inl h')

/-- The stop of the instance held is confirmed. -/
theorem Steps.confirm (hi : Inv s) (h : (Owns.stops i).Ok s t) (hd : s.dead i = true)
    (hq : q.owns = .free ∨ q.owns = .done) :
    Steps s t ({ { s with orphan := none }.clearPendingSaveOn.know i with held := none }, q) := by
  obtain ⟨hr, hh, ho⟩ := h
  have hself : Function.update s.gone i true i = true := Function.update_self _ _ _
  have hgone : ∀ j, s.gone j = true → Function.update s.gone i true j = true := fun j hj => by
    by_cases hji : j = i
    · rw [hji, hself]
    · rwa [Function.update_of_ne hji]
  refine ⟨⟨fun j hj => ?_, fun h => absurd (hi.holder t hr) h, fun _ => rfl, fun j hj => ?_, hi.holder,
    fun j hj => ?_⟩, ?_, .held hr (.inl hr) hgone⟩
  · rcases hi.covered j hj with h | h | h | h
    · exact .inl (hgone j h)
    · exact .inr (.inl h)
    · rcases ho with ho | ho <;> rw [ho] at h
      · cases h
      · obtain rfl := Option.some.inj h
        exact .inl hself
    · obtain rfl := Option.some.inj (hh.symm.trans h)
      exact .inl hself
  · by_cases hji : j = i
    · rw [hji]
      exact hd
    · have hj : Function.update s.gone i true j = true := hj
      rw [Function.update_of_ne hji] at hj
      exact hi.dead j hj
  · rcases hj with h | h | h
    · exact hi.known j (.inl h)
    · cases h
    · cases h
  · show q.owns.Ok _ t
    rcases hq with hq | hq <;> rw [hq]
    · exact ⟨hr, rfl, rfl⟩
    · exact ⟨hr, rfl⟩

/-! ## Steps -/

theorem die_dead (s : State) (i : ℕ) : ∀ j, s.dead j = true → (s.die i).dead j = true := fun j hj => by
  show Function.update s.dead i true j = true
  by_cases hji : j = i
  · rw [hji, Function.update_self]
  · rwa [Function.update_of_ne hji]

theorem steps_stopStep {op : Op} {k : StopPc} {x : Choice} (hi : Inv s) (h : (k.owns i).Ok s t)
    (hd : k = .stopped → s.dead i = true) : Steps s t (stopStep s x op i k) := by
  have hkeep : ∀ {s' : State} {q : Pc}, s'.frame = s.frame → s'.dead = s.dead → q.owns = k.owns i →
      Steps s t (s', q) := fun hf hd hq => .same hi h hf (fun _ h => hd ▸ h) hq
  cases k with
  | begin graceful | opening =>
    refine hkeep rfl rfl ?_
    split_ifs <;> rfl
  | marking =>
    show Steps s t (if _ then _ else _)
    split_ifs
    · exact hkeep rfl rfl rfl
    · exact hkeep rfl rfl rfl
  | saveOff gen =>
    refine hkeep ?_ ?_ rfl <;> split_ifs <;> rfl
  | saveOffWritten gen => exact hkeep rfl rfl rfl
  | terminating =>
    show Steps s t (if _ then _ else _)
    split_ifs
    · exact .same hi h rfl (die_dead s i) rfl
    · exact hkeep rfl rfl rfl
  | failed => exact .recordOrphan hi h rfl
  | recorded =>
    unfold stopStep
    dsimp only
    split
    · exact hkeep rfl rfl rfl
    · exact hkeep rfl rfl rfl
  | stopped =>
    refine .confirm hi h (hd rfl) ?_
    by_cases hop : op = .restart
    · rw [if_pos hop]
      exact .inl rfl
    · rw [if_neg hop]
      exact .inr rfl

theorem steps_restoreStep {r : Restorer} {k : RestorePc} {x : Choice} (hi : Inv s)
    (h : (Pc.restore r k).owns.Ok s t) : Steps s t (restoreStep s x r k) := by
  have hover : r.over.owns = (Pc.restore r k).owns := by
    cases r <;> rfl
  have hgo : ∀ k', (Pc.restore r k').owns = (Pc.restore r k).owns := fun k' => by
    cases r <;> rfl
  cases k with
  | dialing gen =>
    refine .same hi h rfl (fun _ h => h) ?_
    split_ifs
    · exact hgo _
    · exact hover
  | sending gen => exact .same hi h rfl (fun _ h => h) (hgo _)
  | sent gen covers =>
    show Steps s t (if _ then _ else _)
    split_ifs
    · exact .same hi h rfl (fun _ h => h) (hgo _)
    · exact .same hi h rfl (fun _ h => h) hover
  | settling gen => exact .same hi h rfl (fun _ h => h) hover

/-- A position at which the instance is confirmed dead. -/
def Pc.confirms : Pc → Option ℕ
  | .stop _ i .stopped => some i
  | .retiring i => some i
  | .probing i true => some i
  | .parked (some i) true => some i
  | _ => none

theorem steps_advance {x : Choice} (hi : Inv s) (h : p.owns.Ok s t)
    (hd : ∀ i, p.confirms = some i → s.dead i = true) : Steps s t (advance t s x p) := by
  have hsame : ∀ {q : Pc}, q.owns = p.owns → Steps s t (s, q) := fun hq => .same hi h rfl (fun _ h => h) hq
  cases p with
  | launching =>
    show Steps s t (if _ then _ else _)
    split_ifs
    · exact hsame rfl
    · exact .release hi h.1 (fun i hh => by rw [h.2.1] at hh; cases hh) rfl
  | starting =>
    show Steps s t (if _ then _ else _)
    split_ifs
    · exact .launch hi h rfl
    · exact .release hi h.1 (fun i hh => by rw [h.2.1] at hh; cases hh) rfl
  | created i =>
    show Steps s t (if _ then _ else _)
    split_ifs
    · exact hsame rfl
    · exact .lose hi h.1 h.2.1 rfl
  | started i => exact .register hi h rfl
  | validating i =>
    show Steps s t (if _ then _ else _)
    split_ifs
    · have hstops : (Owns.stops i).Ok s t := ⟨h.1, h.2.1, .inl h.2.2⟩
      exact .same hi hstops rfl (fun _ h => h) rfl
    · exact .register hi h rfl
    · exact .register hi h rfl
  | stop op i k =>
    refine steps_stopStep hi h fun hk => hd i ?_
    rw [hk]
    rfl
  | restore r k => exact steps_restoreStep hi h
  | releasing op i stopped =>
    have hr : s.reserved = some t := h.reserved (by simp only [Pc.owns]; split_ifs <;> nofun)
    refine .release hi hr (fun j hh => ?_) ?_
    · simp only [Pc.owns] at h
      split_ifs at h
      · rw [h.2] at hh
        cases hh
      · obtain rfl := Option.some.inj (h.2.1.symm.trans hh)
        exact h.2.2
    · split_ifs <;> rfl
  | working k => exact .release hi h.1 (fun i hh => by rw [h.2.1] at hh; cases hh) rfl
  | parked probed sawDead =>
    show Steps s t (if _ then _ else _)
    split_ifs
    · exact hsame rfl
    · split
      · exact .same hi h rfl (fun _ h => h) rfl
      · exact hsame rfl
  | probing i sawDead =>
    show Steps s t (if _ then (if _ then _ else _) else _)
    split_ifs <;> exact hsame rfl
  | retrying i =>
    show Steps s t (s.takeOrphanReserve t i)
    unfold State.takeOrphanReserve
    split_ifs with hr ho
    · exact hsame rfl
    · rw [ne_eq, not_not] at hr
      have hin : s.instances = none := by
        by_contra hin
        rw [(hi.tracked hin).2] at ho
        cases ho
      exact steps_takeOrphan hi hin hr ho rfl
    · exact hsame rfl
  | retiring i =>
    have hdead := hd i rfl
    show Steps s t ((s.forgetOrphanIf i).know i, _)
    unfold State.forgetOrphanIf
    split_ifs with ho
    · exact .know hi h hdead rfl rfl rfl rfl rfl (.inl rfl) (.inr ⟨ho, rfl⟩) rfl
    · exact .know hi h hdead rfl rfl rfl rfl rfl (.inl rfl) (.inl rfl) rfl
  | draining | sealing => exact .same hi h rfl (fun _ h => h) rfl
  | holding gen =>
    refine hsame ?_
    split_ifs <;> rfl
  | idle => exact hsame rfl
  | «over» r => exact hsame rfl

theorem steps_post (hi : Inv s) (h : p.owns.Ok s t) (hd : ∀ i, p.confirms = some i → s.dead i = true)
    (hpre : pre s p a) : Steps s t (post t s p a) := by
  have hidle : p = .idle → s.reserved ≠ some t := fun hp => by
    rw [hp] at h
    exact h
  have hsame : ∀ {s' : State} {q : Pc}, p = .idle → s'.frame = s.frame → s'.dead = s.dead → q.owns = .nothing →
      Steps s t (s', q) := fun hp hf hdead hq =>
    .same (o := .nothing) hi (hidle hp) hf (fun _ h => hdead ▸ h) hq
  cases a with
  | start | work k => exact steps_reserve hi (hidle hpre) rfl
  | stopServer graceful =>
    show Steps s t (s.takeStoppableReserve t graceful)
    unfold State.takeStoppableReserve
    split
    · rename_i i hin
      exact steps_takeRunning hi hin (.inr rfl)
    · rename_i hin
      split_ifs with hr
      · exact hsame hpre rfl rfl rfl
      · rw [ne_eq, not_not] at hr
        split
        · rename_i i ho
          exact steps_takeOrphan hi hin hr ho rfl
        · exact hsame hpre rfl rfl rfl
  | restart =>
    show Steps s t (s.takeRunningReserve t)
    unfold State.takeRunningReserve
    split
    · rename_i i hin
      exact steps_takeRunning hi hin (.inl rfl)
    · split_ifs <;> exact hsame hpre rfl rfl rfl
  | converge => exact hsame hpre.1 rfl rfl rfl
  | close => exact hsame hpre rfl rfl rfl
  | restore =>
    unfold post
    dsimp only
    split
    · exact hsame hpre.1 rfl rfl rfl
    · rename_i hnil
      exact absurd hnil hpre.2
  | step x => exact steps_advance hi h hd
  | exit i => exact .same hi h rfl (die_dead s i) rfl
  | crashed i =>
    show Steps s t ((s.forgetIf i).know i, p)
    unfold State.forgetIf
    split_ifs with hin
    · exact .know hi h hpre rfl rfl rfl rfl rfl (.inr ⟨hin, rfl⟩) (.inl rfl) rfl
    · exact .know hi h hpre rfl rfl rfl rfl rfl (.inl rfl) (.inl rfl) rfl
  | ended i =>
    show Steps s t ((s.forgetOrphanIf i).know i, p)
    unfold State.forgetOrphanIf
    split_ifs with ho
    · exact .know hi h hpre rfl rfl rfl rfl rfl (.inl rfl) (.inr ⟨ho, rfl⟩) rfl
    · exact .know hi h hpre rfl rfl rfl rfl rfl (.inl rfl) (.inl rfl) rfl
  | otherSaveOff => exact .same hi h rfl (fun _ h => h) rfl

/-! ## What is confirmed dead -/

@[simp] theorem reserve_dead : (s.reserve t q).1.dead = s.dead := by
  unfold State.reserve
  split_ifs <;> rfl

@[simp] theorem takeStoppableReserve_dead {g : Bool} : (s.takeStoppableReserve t g).1.dead = s.dead := by
  unfold State.takeStoppableReserve
  split
  · rfl
  · split_ifs
    · rfl
    · split <;> rfl

@[simp] theorem takeRunningReserve_dead : (s.takeRunningReserve t).1.dead = s.dead := by
  unfold State.takeRunningReserve
  split
  · rfl
  · split_ifs <;> rfl

@[simp] theorem takeOrphanReserve_dead : (s.takeOrphanReserve t i).1.dead = s.dead := by
  unfold State.takeOrphanReserve
  split_ifs <;> rfl

@[simp] theorem forgetIf_dead : (s.forgetIf i).dead = s.dead := by
  unfold State.forgetIf
  split_ifs <;> rfl

@[simp] theorem forgetOrphanIf_dead : (s.forgetOrphanIf i).dead = s.dead := by
  unfold State.forgetOrphanIf
  split_ifs <;> rfl

@[simp] theorem recordOrphan_dead : (s.recordOrphan i).dead = s.dead := by
  unfold State.recordOrphan
  split_ifs <;> rfl

theorem dead_stopStep {op : Op} {k : StopPc} {x : Choice} {j : ℕ} (hj : s.dead j = true) :
    (stopStep s x op i k).1.dead j = true := by
  fun_cases stopStep s x op i k with
  | case5 gen =>
    dsimp only
    split_ifs <;> exact hj
  | case7 => exact die_dead s i j hj
  | case9 => exact recordOrphan_dead.symm ▸ hj
  | _ => exact hj

theorem dead_restoreStep {r : Restorer} {k : RestorePc} {x : Choice} {j : ℕ} (hj : s.dead j = true) :
    (restoreStep s x r k).1.dead j = true := by
  fun_cases restoreStep s x r k <;> exact hj

/-- A process that is gone stays gone. -/
theorem dead_post (hi : s.dead i = true) : (post t s p a).1.dead i = true := by
  cases a with
  | start | work k | stopServer graceful | restart => simp [post, hi]
  | converge => exact hi
  | close => exact hi
  | restore =>
    unfold post
    dsimp only
    split <;> exact hi
  | step x =>
    show (advance t s x p).1.dead i = true
    fun_cases advance t s x p with
    | case10 op j k => exact dead_stopStep hi
    | case11 r k => exact dead_restoreStep hi
    | case6 j => exact die_dead s j i hi
    | case20 j => simp [hi]
    | case21 j => simp [State.know, hi]
    | _ => exact hi
  | exit j => exact die_dead s j i hi
  | crashed j | ended j => simp [post, State.know, hi]
  | otherSaveOff => exact hi

/-- Of a stop, only what the driver confirms confirms a death. -/
theorem confirms_stopStep {op : Op} {k : StopPc} {x : Choice} {j : ℕ}
    (hj : (stopStep s x op i k).2.confirms = some j) : (stopStep s x op i k).1.dead j = true := by
  revert hj
  fun_cases stopStep s x op i k with
  | case7 =>
    intro hj
    obtain rfl := Option.some.inj hj
    exact Function.update_self _ _ _
  | case1 | case2 | case12 =>
    intro hj
    dsimp only at hj
    split_ifs at hj <;> cases hj
  | _ => exact fun hj => by cases hj

theorem confirms_restoreStep {r : Restorer} {k : RestorePc} {x : Choice} :
    (restoreStep s x r k).2.confirms = none := by
  have hover : r.over.confirms = none := by
    cases r <;> rfl
  fun_cases restoreStep s x r k with
  | case1 =>
    dsimp only
    split_ifs
    · rfl
    · exact hover
  | case4 | case5 => exact hover
  | _ => rfl

theorem confirms_advance {x : Choice} (hd : ∀ i, p.confirms = some i → s.dead i = true)
    (hi : (advance t s x p).2.confirms = some i) : (advance t s x p).1.dead i = true := by
  revert hi
  fun_cases advance t s x p with
  | case10 op j k => exact confirms_stopStep
  | case11 r k =>
    intro hi
    rw [confirms_restoreStep] at hi
    cases hi
  | case16 probed sawDead _ j =>
    -- The flag is of the orphan that was probed before.
    intro hi
    by_cases hs : sawDead = true ∧ probed = some j
    · obtain ⟨rfl, rfl⟩ := hs
      refine hd i ?_
      simpa [Pc.confirms] using hi
    · have hfalse : (sawDead && decide (probed = some j)) = false := by simpa using hs
      rw [hfalse] at hi
      cases hi
  | case17 j sawDead _ hdead =>
    intro hi
    have hj : i = j := by
      dsimp only at hi
      split_ifs at hi <;> exact (Option.some.inj hi).symm
    rw [hj]
    exact (Bool.and_eq_true _ _ ▸ hdead).2
  | case20 j =>
    unfold State.takeOrphanReserve
    intro hi
    split_ifs at hi <;> cases hi
  | case21 j =>
    intro hi
    obtain rfl := Option.some.inj hi
    simpa [State.know] using hd j rfl
  | case12 | case24 =>
    intro hi
    dsimp only at hi
    split_ifs at hi <;> cases hi
  | case25 => exact hd i
  | _ =>
    intro hi
    cases hi

theorem confirms_post (hd : ∀ i, p.confirms = some i → s.dead i = true) (hpre : pre s p a)
    (hi : (post t s p a).2.confirms = some i) : (post t s p a).1.dead i = true := by
  have hsame : (post t s p a).2 = p → (post t s p a).1.dead i = true := fun h =>
    dead_post (hd i (h ▸ hi))
  revert hi
  cases a with
  | start | work k =>
    show (State.reserve _ _ _).2.confirms = some i → _
    unfold State.reserve
    split_ifs <;> exact nofun
  | stopServer graceful =>
    show (State.takeStoppableReserve _ _ _).2.confirms = some i → _
    unfold State.takeStoppableReserve
    split
    · exact nofun
    · split_ifs
      · exact nofun
      · split <;> exact nofun
  | restart =>
    show (State.takeRunningReserve _ _).2.confirms = some i → _
    unfold State.takeRunningReserve
    split
    · exact nofun
    · split_ifs <;> exact nofun
  | converge => exact nofun
  | close => exact nofun
  | restore =>
    unfold post
    dsimp only
    split
    · exact nofun
    · rename_i hnil
      exact absurd hnil hpre.2
  | step x => exact confirms_advance hd
  | exit j | crashed j | ended j | otherSaveOff => exact fun _ => hsame rfl

/-! ## Runs -/

/-- What is known at the position of a thread. -/
structure Ok (s : State) (t : ℕ) (p : Pc) : Prop where
  owns : p.owns.Ok s t
  confirms : ∀ i, p.confirms = some i → s.dead i = true

theorem holds_reach {c : Conf} (h : threads.machine.Reach Machine.Any start c) : Threads.Holds Inv Ok c := by
  refine Threads.invariant h ⟨⟨nofun, fun h => absurd rfl h, fun _ => rfl, nofun, nofun, by simp [start]⟩, fun t => ⟨nofun, nofun⟩⟩ ?_
  intro c t a hc hpre _
  have hown := hc.thread t
  have hst : Steps c.shared t (post t c.shared (c.th t) a) := steps_post hc.shared hown.owns hown.confirms hpre
  refine ⟨hst.inv, ⟨hst.own, fun i hi => confirms_post hown.confirms hpre hi⟩, fun u hu hok => ⟨?_, fun i hi => ?_⟩⟩
  · exact hst.others.ok hu hok.owns
  · exact dead_post (hok.confirms i hi)

variable {c : Conf}

theorem holds_iff (hc : Threads.Holds Inv Ok c) : (c.th t).Holds ↔ c.shared.reserved = some t := by
  refine ⟨(hc.thread t).owns.reserved, fun hr hn => ?_⟩
  have hown := (hc.thread t).owns
  rw [hn] at hown
  exact hown hr

/-- The instance that is held is the one of the thread that has the reservation. -/
theorem exists_holder (hc : Threads.Holds Inv Ok c) (hi : c.shared.held = some i) :
    ∃ t, (c.th t).Holds ∧ (c.th t).owns.inst = some i := by
  cases hr : c.shared.reserved with
  | none =>
    rw [hc.shared.held hr] at hi
    cases hi
  | some t =>
    have hholds := (holds_iff hc).mpr hr
    refine ⟨t, hholds, ?_⟩
    have hown := (hc.thread t).owns
    unfold Pc.Holds at hholds
    revert hholds hown
    cases (c.th t).owns with
    | nothing => exact fun h => absurd rfl h
    | free =>
      intro _ hown
      rw [hown.2.1] at hi
      cases hi
    | fresh j | stops j | recorded j => exact fun _ hown => hown.2.1.symm.trans hi
    | done =>
      intro _ hown
      rw [hown.2] at hi
      cases hi

/-- Instance `i` was launched and is not known to have exited. -/
def State.MayRun (s : State) (i : ℕ) : Prop := i < s.launched ∧ s.gone i = false

/-- Nobody answers for an instance: none may run. -/
theorem Inv.none_may_run (hi : Inv s) (hin : s.instances = none) (ho : s.orphan = none) (hh : s.held = none) :
    ¬ s.MayRun i := by
  rintro ⟨hlt, hg⟩
  rcases hi.covered i hlt with h | h | h | h
  · rw [hg] at h
    cases h
  · rw [hin] at h
    cases h
  · rw [ho] at h
    cases h
  · rw [hh] at h
    cases h

/-- The thread that holds the id for no instance. -/
theorem none_may_run_of_free (hc : Threads.Holds Inv Ok c) (hf : (c.th t).owns = .free) :
    ¬ c.shared.MayRun i := by
  have hown := (hc.thread t).owns
  rw [hf] at hown
  exact hc.shared.none_may_run (hc.shared.holder t hown.1) hown.2.2 hown.2.1

/-- What is held is what is recorded, as long as it may run. -/
theorem orphan_of_held {j : ℕ} (hc : Threads.Holds Inv Ok c) (hi : c.shared.held = some i)
    (ho : c.shared.orphan = some j) (hg : c.shared.gone i = false) : i = j := by
  obtain ⟨t, hholds, hinst⟩ := exists_holder hc hi
  have hown := (hc.thread t).owns
  revert hinst hown
  cases (c.th t).owns with
  | nothing => exact nofun
  | free => exact nofun
  | done => exact nofun
  | fresh k =>
    intro _ hown
    rw [hown.2.2] at ho
    cases ho
  | stops k =>
    intro hinst hown
    rcases hown.2.2 with h | h <;> rw [h] at ho
    · cases ho
    · exact (Option.some.inj hinst).symm.trans (Option.some.inj ho)
  | recorded k =>
    intro hinst hown
    obtain rfl := Option.some.inj hinst
    rcases hown.2.2 with h | h
    · exact Option.some.inj (h.symm.trans ho)
    · rw [hg] at h
      cases h

/-- At most one instance may run. -/
theorem may_run_unique {j : ℕ} (hc : Threads.Holds Inv Ok c) (hi : c.shared.MayRun i) (hj : c.shared.MayRun j) :
    i = j := by
  have hat : ∀ {k l : ℕ}, c.shared.instances = some k → c.shared.MayRun l → l = k := by
    intro k l hin ⟨hlt, hg⟩
    obtain ⟨hr, ho⟩ := hc.shared.tracked (by rw [hin]; nofun)
    rcases hc.shared.covered l hlt with h | h | h | h
    · rw [hg] at h
      cases h
    · exact Option.some.inj (h.symm.trans hin)
    · rw [ho] at h
      cases h
    · rw [hc.shared.held hr] at h
      cases h
  rcases hc.shared.covered i hi.1 with h | h | h | h
  · rw [hi.2] at h
    cases h
  · exact (hat h hj).symm
  all_goals
    rcases hc.shared.covered j hj.1 with h' | h' | h' | h'
    · rw [hj.2] at h'
      cases h'
    · exact hat h' hi
  · exact Option.some.inj (h.symm.trans h')
  · exact (orphan_of_held hc h' h hj.2).symm
  · exact orphan_of_held hc h h' hi.2
  · exact Option.some.inj (h.symm.trans h')

/-- A server is not found where nobody answers for an instance. -/
theorem not_found_advance {x : Choice} (hi : Inv s) (hok : p.owns.Ok s t) (hp : p ≠ .over .serverNotFound)
    (h : (advance t s x p).2 = .over .serverNotFound) : ¬ s.MayRun i := by
  revert h
  fun_cases advance t s x p with
  | case2 => exact fun _ => hi.none_may_run (hi.holder t hok.1) hok.2.2 hok.2.1
  | case10 op j k =>
    intro h
    exfalso
    revert h
    fun_cases stopStep s x op j k <;> intro h <;> dsimp only at h <;> (try split_ifs at h) <;> cases h
  | case11 r k =>
    intro h
    exfalso
    revert h
    cases r <;> fun_cases restoreStep s x _ k <;> intro h <;> dsimp only [Restorer.over] at h <;>
      (try split_ifs at h) <;> cases h
  | case9 | case12 | case13 | case17 | case24 =>
    intro h
    dsimp only at h
    split_ifs at h <;> cases h
  | case20 =>
    unfold State.takeOrphanReserve
    intro h
    split_ifs at h
  | case25 => exact fun h => absurd h hp
  | _ =>
    intro h
    cases h

theorem not_found_post (hi : Inv s) (hok : p.owns.Ok s t) (hp : p ≠ .over .serverNotFound)
    (h : (post t s p a).2 = .over .serverNotFound) : ¬ s.MayRun i := by
  have hreserve : ∀ {q : Pc}, q ≠ .over .serverNotFound → (s.reserve t q).2 ≠ .over .serverNotFound := by
    intro q hq
    unfold State.reserve
    split_ifs
    · exact nofun
    · exact nofun
    · exact nofun
    · exact hq
  cases a with
  | start | work k => exact absurd h (hreserve nofun)
  | stopServer graceful =>
    change (s.takeStoppableReserve t graceful).2 = _ at h
    unfold State.takeStoppableReserve at h
    split at h
    · cases h
    · rename_i hin
      by_cases hr : s.reserved = none
      · rw [if_neg (not_not.mpr hr)] at h
        split at h
        · cases h
        · rename_i ho
          exact hi.none_may_run hin ho (hi.held hr)
      · rw [if_pos hr] at h
        cases h
  | restart =>
    change (s.takeRunningReserve t).2 = _ at h
    unfold State.takeRunningReserve at h
    split at h
    · cases h
    · rename_i hin
      by_cases hr : s.reserved = none
      · rw [if_neg (not_not.mpr hr)] at h
        by_cases ho : s.orphan = none
        · exact hi.none_may_run hin ho (hi.held hr)
        · rw [if_pos ho] at h
          cases h
      · rw [if_pos hr] at h
        cases h
  | converge => cases h
  | close => cases h
  | restore =>
    unfold post at h
    dsimp only at h
    split at h
    · cases h
    · exact absurd h hp
  | step x => exact not_found_advance hi hok hp h
  | exit j | crashed j | ended j | otherSaveOff => exact absurd h hp

/-- **One operation holds the id at a time**, the one whose reservation it is; an instance that may run is
tracked, recorded as an orphan, or held by that operation, and there is one at most; none may run where
an instance is launched, the scratch is hydrated, packed or removed, or a server is answered not to be
found. -/
theorem one_holder (h : threads.machine.Reach Machine.Any start c) :
    (∀ t, (c.th t).Holds ↔ c.shared.reserved = some t) ∧
    (∀ t u, (c.th t).Holds → (c.th u).Holds → t = u) ∧
    (∀ i, c.shared.gone i = true → c.shared.dead i = true) ∧
    (∀ i, c.shared.MayRun i → c.shared.instances = some i ∨ c.shared.orphan = some i ∨
      ∃ t, (c.th t).Holds ∧ (c.th t).owns.inst = some i) ∧
    (∀ i j, c.shared.MayRun i → c.shared.MayRun j → i = j) ∧
    (∀ t, (c.th t = .starting ∨ ∃ k, c.th t = .working k) → ∀ i, ¬ c.shared.MayRun i) ∧
    (∀ t a, c.th t ≠ .over .serverNotFound → threads.pre t c.shared (c.th t) a →
      (threads.post t c.shared (c.th t) a).2 = .over .serverNotFound → ∀ i, ¬ c.shared.MayRun i) := by
  have hc := holds_reach h
  refine ⟨fun t => holds_iff hc, fun t u ht hu => ?_, hc.shared.dead, fun i hi => ?_,
    fun i j => may_run_unique hc, fun t ht i => ?_, fun t a hne _ hn i => ?_⟩
  · have hr := (holds_iff hc).mp ht
    exact Option.some.inj (hr.symm.trans ((holds_iff hc).mp hu))
  · rcases hc.shared.covered i hi.1 with h | h | h | h
    · rw [hi.2] at h
      cases h
    · exact .inl h
    · exact .inr (.inl h)
    · exact .inr (.inr (exists_holder hc h))
  · refine none_may_run_of_free (t := t) hc ?_
    rcases ht with ht | ⟨k, ht⟩ <;> rw [ht] <;> rfl
  · exact not_found_post hc.shared (hc.thread t).owns hne hn

/-- A stop fails, the converger holds the id for its retry, and another stop is told so. -/
theorem one_holder_retry : ∃ c : Conf, threads.machine.Reach Machine.Any start c ∧
    (c.shared.reserved = some 2 ∧ c.shared.orphan = some 0 ∧ c.th 3 = .over .busy ∧ c.shared.launched = 1) ∧
    (∀ t, (c.th t).Holds ↔ c.shared.reserved = some t) ∧
    (∀ t u, (c.th t).Holds → (c.th u).Holds → t = u) ∧
    (∀ i, c.shared.gone i = true → c.shared.dead i = true) ∧
    (∀ i, c.shared.MayRun i → c.shared.instances = some i ∨ c.shared.orphan = some i ∨
      ∃ t, (c.th t).Holds ∧ (c.th t).owns.inst = some i) ∧
    (∀ i j, c.shared.MayRun i → c.shared.MayRun j → i = j) ∧
    (∀ t, (c.th t = .starting ∨ ∃ k, c.th t = .working k) → ∀ i, ¬ c.shared.MayRun i) ∧
    (∀ t a, c.th t ≠ .over .serverNotFound → threads.pre t c.shared (c.th t) a →
      (threads.post t c.shared (c.th t) a).2 = .over .serverNotFound → ∀ i, ¬ c.shared.MayRun i) := by
  have hrun : (threads.machine.exec
      [(0, .start), (0, .step ⟨true, false⟩), (0, .step ⟨true, false⟩), (0, .step ⟨true, false⟩),
        (0, .step ⟨true, false⟩), (1, .stopServer false), (1, .step ⟨false, false⟩),
        (1, .step ⟨false, false⟩), (1, .step ⟨false, false⟩), (1, .step ⟨false, false⟩),
        (1, .step ⟨false, false⟩), (2, .converge), (2, .step ⟨true, false⟩), (2, .step ⟨true, false⟩),
        (2, .step ⟨true, false⟩), (3, .stopServer true)] start).map
      (fun c => decide (c.shared.reserved = some 2 ∧ c.shared.orphan = some 0 ∧ c.th 3 = .over .busy ∧
        c.shared.launched = 1)) = some true := by
    decide +kernel
  obtain ⟨c, hc, hb⟩ := Machine.reach_of_exec_map hrun
  exact ⟨c, hc, of_decide_eq_true hb, one_holder hc⟩

end McServerDashboard.Worker.Instances
