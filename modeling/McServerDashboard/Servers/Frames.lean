import McServerDashboard.Servers.Writes

/-!
# What a flow carries from step to step

Between its read of the row and its write a flow keeps what it has read: with the lifecycle lock
(`Pc.guarded`), without it (`Pc.stale`), or as the assignment that a launch works on (`Pc.launch`).

* `Plain`: a step that neither needs nor takes the lock.
* **`moves_post`**: what every step does to the lock, the placements and what the flow carries.
-/

namespace McServerDashboard.Lifecycle

open Lib Servers

variable {s s' : State} {t u : ℕ} {p q : Pc} {a : Action} {r : Row}

/-- The row that a flow without the lock will write back. -/
def Pc.stale : Pc → Option Row
  | .compensating _ r => some r
  | .unassigning _ r => some r
  | .restarting r => some r
  | .draining r => some r
  | .flipping r => some r
  | _ => none

/-- The row that a flow with the lock will write back. -/
def Pc.guarded : Pc → Option Row
  | .placing _ r => some r
  | .updating r => some r
  | _ => none

/-- The flow holds the lifecycle lock. -/
def Pc.locks : Pc → Bool
  | .locked _ => true
  | .placing _ _ => true
  | .updateLocked => true
  | .updating _ => true
  | _ => false

/-- The assignment that a launch works on. -/
def Launch.assignment (l : Launch) : Hold := ⟨l.worker, l.placement⟩

/-- The kind of the flow's launch and its assignment, until the start is settled. -/
def Pc.launch : Pc → Option (Kind × Hold)
  | .generation l => some (l.kind, l.assignment)
  | .hydrating l => some (l.kind, l.assignment)
  | .toStart l => some (l.kind, l.assignment)
  | .starting l => some (l.kind, l.assignment)
  | .compensate l => some (l.kind, l.assignment)
  | .compensating l _ => some (l.kind, l.assignment)
  | .unassign l => some (l.kind, l.assignment)
  | .unassigning l _ => some (l.kind, l.assignment)
  | _ => none

/-- A launch is undone by the flow that has placed the server only. -/
def Pc.Undoes : Pc → Prop
  | .compensate l => l.kind = .start
  | .compensating l _ => l.kind = .start
  | .unassign l => l.kind = .place
  | .unassigning l _ => l.kind = .place
  | _ => True

/-- A position that carries nothing. -/
def Pc.Bare (p : Pc) : Prop := p.locks = false ∧ p.stale = none ∧ p.launch = none ∧ p.Undoes

/-- The lock, the settings updates and the placements. -/
def State.frame (s : State) := (s.lock, s.acked, s.nextPlacement, s.home)

theorem Pc.locks_of_guarded (h : p.guarded = some r) : p.locks = true := by
  cases p <;> first | rfl | (simp [Pc.guarded] at h)

/-! ## Steps without the lock -/

/-- The step sends the start `e`. -/
def Sends (p : Pc) (a : Action) (e : ℕ × WorkerId) : Prop :=
  ∃ l x, p = .toStart l ∧ a = .step x ∧ e = (l.placement, l.worker)

/-- A step that leaves the frame, to a position without the lock that carries what was carried, or
what the row is. -/
structure Plain (s : State) (p : Pc) (a : Action) (x : State × Pc) : Prop where
  frame : x.1.frame = s.frame
  started : ∀ e ∈ x.1.started, e ∈ s.started ∨ Sends p a e
  locks : x.2.locks = false
  stale : ∀ r, x.2.stale = some r → x.2 = p ∨ r = s.row
  launch : ∀ e, x.2.launch = some e → p.launch = some e
  undoes : p.Undoes → x.2.Undoes

theorem Plain.state (hf : s'.frame = s.frame) (hst : s'.started = s.started) (hq : q.Bare) :
    Plain s p a (s', q) where
  frame := hf
  started _ he := .inl (hst ▸ he)
  locks := hq.1
  stale r h := by
    rw [hq.2.1] at h
    cases h
  launch e h := by
    rw [hq.2.2.1] at h
    cases h
  undoes _ := hq.2.2.2

theorem Plain.flow (hq : q.Bare) : Plain s p a (s, q) := .state rfl rfl hq

theorem Plain.leave (hf : s'.frame = s.frame) (hst : s'.started = s.started) : Plain s p a s'.leave :=
  .state hf hst ⟨rfl, rfl, rfl, trivial⟩

/-- A step of a launch. -/
theorem Plain.carry (hq : q.locks = false) (hl : q.launch = p.launch) (hs : q.stale = none)
    (hu : p.Undoes → q.Undoes) : Plain s p a (s, q) where
  frame := rfl
  started _ he := .inl he
  locks := hq
  stale r h := by
    rw [hs] at h
    cases h
  launch _ h := hl ▸ h
  undoes := hu

/-- A step that reads the row. -/
theorem Plain.read (hq : q.locks = false) (hs : q.stale = some s.row)
    (hl : ∀ e, q.launch = some e → p.launch = some e) (hu : p.Undoes → q.Undoes) : Plain s p a (s, q) where
  frame := rfl
  started _ he := .inl he
  locks := hq
  stale _ h := .inr (Option.some.inj (hs.symm.trans h)).symm
  launch := hl
  undoes := hu

/-- A step that leaves the flow where it is. -/
theorem Plain.stay (hp : p.locks = false) (hf : s'.frame = s.frame) (hst : s'.started = s.started) :
    Plain s p a (s', p) where
  frame := hf
  started _ he := .inl (hst ▸ he)
  locks := hp
  stale _ _ := .inl rfl
  launch _ h := h
  undoes h := h

theorem bare_over : Pc.over.Bare := ⟨rfl, rfl, rfl, trivial⟩

theorem plain_undo (l : Launch) (hp : p.launch = some (l.kind, l.assignment)) : Plain s p a (s, l.undo) := by
  unfold Launch.undo
  split
  · rename_i hk
    exact .carry rfl hp.symm rfl fun _ => hk
  · rename_i hk
    exact .carry rfl hp.symm rfl fun _ => hk
  · exact .flow bare_over

theorem plain_settle (l : Launch) (o : Outcome) (hp : p.launch = some (l.kind, l.assignment)) :
    Plain s p a (s, l.settle o) := by
  obtain ⟨kind, worker, placement, attempted, skip⟩ := l
  cases o <;> cases kind <;> cases attempted <;>
    first
    | exact .flow ⟨rfl, rfl, rfl, trivial⟩
    | exact .carry rfl hp.symm rfl fun _ => rfl

theorem plain_readClaimed (f : StopFlow) (b : Bool) : Plain s p a (s.readClaimed f b) := by
  unfold State.readClaimed
  cases s.row.assigned with
  | none => exact .leave rfl rfl
  | some w =>
    cases f with
    | stop =>
      dsimp only
      split_ifs
      · exact .read rfl rfl (fun _ h => by cases h) fun _ => trivial
      · split
        · exact .leave rfl rfl
        · exact .flow ⟨rfl, rfl, rfl, trivial⟩
    | redispatchStop =>
      dsimp only
      split_ifs
      · exact .flow ⟨rfl, rfl, rfl, trivial⟩
      · exact .leave rfl rfl
    | clearStale =>
      dsimp only
      split_ifs <;> first | exact .flow ⟨rfl, rfl, rfl, trivial⟩ | exact .leave rfl rfl

theorem plain_afterSnapshot (hf : s'.frame = s.frame) (hst : s'.started = s.started) (k : Hold) (z : Purpose)
    (live : Bool) : Plain s p a (s'.afterSnapshot t k z live) := by
  unfold State.afterSnapshot
  cases z with
  | release gate =>
    dsimp only
    split_ifs
    · exact .state hf hst ⟨rfl, rfl, rfl, trivial⟩
    · exact .leave hf hst
  | stale o =>
    dsimp only
    split_ifs
    · exact .leave hf hst
    · exact .state hf hst ⟨rfl, rfl, rfl, trivial⟩

theorem plain_claim (f : StopFlow) : Plain s p a (s.claim t f) := by
  unfold State.claim
  split_ifs
  · exact .flow bare_over
  · exact .state rfl rfl ⟨rfl, rfl, rfl, trivial⟩

theorem plain_clearOnLate (hf : s'.frame = s.frame) (hst : s'.started = s.started) (n : ℕ) :
    Plain s p a (s'.clearOnLateSnapshot t n) := by
  unfold State.clearOnLateSnapshot
  split
  · exact .state hf hst ⟨rfl, rfl, rfl, trivial⟩
  · dsimp only
    split_ifs <;> exact .state hf hst ⟨rfl, rfl, rfl, trivial⟩

theorem plain_resolve (n : ℕ) : Plain s p a (s.resolve t n) := by
  unfold State.resolve
  dsimp only
  split
  · refine plain_clearOnLate ?_ ?_ n <;> rfl
  · split_ifs
    · exact .state rfl rfl ⟨rfl, rfl, rfl, trivial⟩
    · refine plain_clearOnLate ?_ ?_ n <;> rfl
    · exact .state rfl rfl ⟨rfl, rfl, rfl, trivial⟩

theorem plain_advance (hp : p.locks = false) (x : Choice) (hpre : canAdvance t s p) :
    Plain s p (.step x) (advance t s x p) := by
  -- A step to a position that carries nothing.
  have hbare : ∀ {s' : State} {q : Pc}, s'.frame = s.frame → s'.started = s.started → q.Bare →
      Plain s p (.step x) (s', q) := fun hf hst hq => .state hf hst hq
  cases p with
  | generation l =>
    show Plain s _ _ (s, if x.ok then (if x.flag then _ else _) else l.undo)
    split_ifs
    · exact .carry rfl rfl rfl fun _ => trivial
    · exact .carry rfl rfl rfl fun _ => trivial
    · exact plain_undo l rfl
  | toStart l =>
    refine ⟨rfl, fun e he => ?_, rfl, fun r h => ?_, fun e h => h, fun _ => trivial⟩
    · rcases List.mem_cons.mp he with rfl | he
      · exact .inr ⟨l, x, rfl, rfl, rfl⟩
      · exact .inl he
    · cases h
  | compensate l => exact .read rfl rfl (fun _ h => h) id
  | unassign l =>
    show Plain s _ _ (s, if _ then _ else _)
    split_ifs
    · exact .read rfl rfl (fun _ h => h) id
    · exact .flow bare_over
  | claimed f => exact plain_readClaimed f x.flag
  | flipping r =>
    unfold advance
    dsimp only
    split
    · exact hbare rfl rfl ⟨rfl, rfl, rfl, trivial⟩
    · exact .leave rfl rfl
  | notFound h =>
    show Plain s _ _ (s, if _ then _ else _)
    split_ifs <;> exact .flow ⟨rfl, rfl, rfl, trivial⟩
  | toSnapshot h z =>
    show Plain s _ _ (if _ then _ else _)
    split_ifs
    · exact hbare rfl rfl ⟨rfl, rfl, rfl, trivial⟩
    · exact plain_afterSnapshot rfl rfl h z false
  | snapshotting h z => exact plain_afterSnapshot rfl rfl h z false
  | timedOut h z =>
    show Plain s _ _ ((s.discardPending t).afterSnapshot t h z true)
    refine plain_afterSnapshot ?_ ?_ h z true <;> rfl
  | abandoning h | lateClear h => exact .leave rfl rfl
  | clearing h caller =>
    unfold advance
    dsimp only
    split_ifs <;> exact hbare rfl rfl ⟨rfl, rfl, rfl, trivial⟩
  | staleClear h o =>
    refine .leave ?_ ?_ <;> split_ifs <;> rfl
  | lateClaimed w =>
    show Plain s _ _ (if _ then _ else _)
    split_ifs
    · exact .flow ⟨rfl, rfl, rfl, trivial⟩
    · exact .leave rfl rfl
  | recordRunning l | compensating l r | unassigning l r | restarting r | draining r | cleared caller =>
    exact hbare rfl rfl bare_over
  | confirmed h | notFoundWrite h => exact hbare rfl rfl ⟨rfl, rfl, rfl, trivial⟩
  | locked k => cases hp
  | placing k r => cases hp
  | updateLocked => cases hp
  | updating r => cases hp
  | _ => exact hpre.elim

theorem frame_cancelFuture : (s.cancelFuture t).frame = s.frame ∧ (s.cancelFuture t).started = s.started := by
  unfold State.cancelFuture
  split_ifs <;> exact ⟨rfl, rfl⟩

theorem plain_cancelled (hp : p.locks = false) : Plain s p a (cancelled t s p) := by
  have hover : ∀ {s' : State}, s'.frame = s.frame → s'.started = s.started → Plain s p a (s', .over) :=
    fun hf hst => .state hf hst bare_over
  cases p with
  | idle | abandoning h => exact .stay rfl rfl rfl
  | snapshotting h z => exact .state frame_cancelFuture.1 frame_cancelFuture.2 ⟨rfl, rfl, rfl, trivial⟩
  | timedOut h z => exact .flow ⟨rfl, rfl, rfl, trivial⟩
  | clearing h caller | cleared caller => cases caller <;> exact .state rfl rfl ⟨rfl, rfl, rfl, trivial⟩
  | locked k => cases hp
  | placing k r => cases hp
  | updateLocked => cases hp
  | updating r => cases hp
  | _ => exact hover rfl rfl

theorem plain_answered (hp : p.locks = false) (o : Outcome) : Plain s p a (answered s o p) := by
  cases p with
  | hydrating l | starting l =>
    show Plain s _ _ (s, if _ then _ else l.settle o)
    split_ifs
    · exact .carry rfl rfl rfl fun _ => trivial
    · exact plain_settle l o rfl
  | stopSent h =>
    cases o <;> first | exact .flow ⟨rfl, rfl, rfl, trivial⟩ | exact .leave rfl rfl
  | _ => exact .stay hp rfl rfl

/-! ## All steps -/

/-- What a step does to the lock, the settings updates, the placements and what its flow carries. -/
structure Moves (s : State) (t : ℕ) (p : Pc) (a : Action) (x : State × Pc) : Prop where
  lock : ∀ u, u ≠ t → s.lock = some u → x.1.lock = some u
  own : x.2.locks = true → x.1.lock = some t
  acked : x.1.acked = s.acked ∨ ∃ r y, p = .updating r ∧ a = .step y ∧ y.ok = true
  guarded : ∀ r, x.2.guarded = some r → (p.guarded = some r ∨ r = s.row) ∧ x.1.acked = s.acked
  stale : ∀ r, x.2.stale = some r → x.2 = p ∨ r = s.row
  placed : (∃ k r y, p = .placing k r ∧ a = .step y) ∨
    x.1.nextPlacement = s.nextPlacement ∧ x.1.home = s.home ∧
      ∀ e, x.2.launch = some e → p.launch = some e ∨ s.row.holds e.2.worker e.2.placement
  started : ∀ e ∈ x.1.started, e ∈ s.started ∨ Sends p a e
  undoes : p.Undoes → x.2.Undoes

theorem Plain.moves {x : State × Pc} (h : Plain s p a x) : Moves s t p a x := by
  obtain ⟨hlock, hacked, hnext, hhome⟩ : x.1.lock = s.lock ∧ x.1.acked = s.acked ∧
      x.1.nextPlacement = s.nextPlacement ∧ x.1.home = s.home := by
    simpa only [State.frame, Prod.mk.injEq] using h.frame
  refine ⟨fun u _ hl => hlock.trans hl, fun hq => ?_, .inl hacked, fun r hr => ?_, h.stale,
    .inr ⟨hnext, hhome, fun e he => .inl (h.launch e he)⟩, h.started, h.undoes⟩
  · rw [h.locks] at hq
    cases hq
  · have hq := Pc.locks_of_guarded hr
    rw [h.locks] at hq
    cases hq

/-- What holds of a position at which the lock is held, or that carries nothing. -/
def Pc.Clear (p : Pc) : Prop := p.stale = none ∧ p.launch = none ∧ p.Undoes

/-- A step with the lock, or that takes it. -/
theorem Moves.held (hlock : s.lock = some t ∨ s.lock = none) (hl : q.locks = true → s'.lock = some t)
    (ha : s'.acked = s.acked ∨ ∃ r y, p = .updating r ∧ a = .step y ∧ y.ok = true)
    (hg : ∀ r, q.guarded = some r → r = s.row ∧ s'.acked = s.acked) (hq : q.Clear)
    (hn : s'.nextPlacement = s.nextPlacement) (hh : s'.home = s.home) (hst : s'.started = s.started) :
    Moves s t p a (s', q) := by
  refine ⟨fun u hu h => ?_, hl, ha, fun r h => ⟨.inr (hg r h).1, (hg r h).2⟩, fun r h => ?_,
    .inr ⟨hn, hh, fun e h => ?_⟩, fun e he => .inl (hst ▸ he), fun _ => hq.2.2⟩
  · rcases hlock with hlock | hlock <;> rw [hlock] at h
    · exact absurd (Option.some.inj h).symm hu
    · cases h
  · rw [hq.1] at h
    cases h
  · rw [hq.2.1] at h
    cases h

theorem Moves.unlock (hlock : s.lock = some t) : Moves s t p a s.unlock :=
  .held (.inl hlock) (fun h => by cases h) (.inl rfl) (fun r h => by cases h) ⟨rfl, rfl, trivial⟩ rfl rfl rfl

theorem moves_advance (hl : p.locks = true → s.lock = some t) (x : Choice) (hpre : canAdvance t s p) :
    Moves s t p (.step x) (advance t s x p) := by
  by_cases hp : p.locks = true
  · have hlock := hl hp
    have hread : ∀ q : Pc, q.guarded = some s.row → q.Clear → Moves s t p (.step x) (s, q) :=
      fun q hg hq => .held (.inl hlock) (fun _ => hlock) (.inl rfl)
        (fun r h => ⟨(Option.some.inj (hg.symm.trans h)).symm, rfl⟩) hq rfl rfl rfl
    cases p with
    | locked k =>
      cases k <;> (show Moves s t _ _ (if _ then (s, _) else s.unlock)) <;> split_ifs <;>
        first | exact hread _ rfl ⟨rfl, rfl, trivial⟩ | exact .unlock hlock
    | placing k r =>
      unfold advance
      dsimp only
      split
      · exact .unlock hlock
      · by_cases hx : x.ok = true
        · rw [if_pos hx]
          refine ⟨fun u hu h => absurd (Option.some.inj (h.symm.trans hlock)) hu, fun h => ?_, .inl rfl,
            fun r h => ?_, fun r h => ?_, .inl ⟨k, r, x, rfl, rfl⟩, fun e he => .inl he, fun _ => ?_⟩
          all_goals cases k <;> trivial
        · rw [if_neg hx]
          exact .unlock hlock
    | updateLocked => exact hread _ rfl ⟨rfl, rfl, trivial⟩
    | updating r =>
      rw [advance_updating]
      split_ifs with hx
      · exact .held (.inl hlock) (fun h => by cases h) (.inr ⟨r, x, rfl, rfl, hx⟩) (fun r h => by cases h)
          ⟨rfl, rfl, trivial⟩ rfl rfl rfl
      · exact .unlock hlock
    | _ => cases hp
  · exact (plain_advance (Bool.eq_false_iff.mpr hp) x hpre).moves

/-- **What a step does to what its flow carries.** -/
theorem moves_post (hl : p.locks = true → s.lock = some t) (hpre : pre t s p a) :
    Moves s t p a (post t s p a) := by
  have hbegin : ∀ q : Pc, s.lock = none → q.guarded = none → q.Clear →
      Moves s t p a ({ s with lock := some t }, q) := fun q hlock hg hq =>
    .held (.inr hlock) (fun _ => rfl) (.inl rfl) (fun r h => absurd (hg.symm.trans h) (by simp)) hq rfl rfl rfl
  have hstay : ∀ {s' : State}, s'.frame = s.frame → s'.started = s.started → Moves s t p a (s', p) := by
    intro s' hf hst
    simp only [State.frame, Prod.mk.injEq] at hf
    exact ⟨fun _ _ h => hf.1.trans h, fun h => hf.1.trans (hl h), .inl hf.2.1, fun _ h => ⟨.inl h, hf.2.1⟩,
      fun _ _ => .inl rfl, .inr ⟨hf.2.2.1, hf.2.2.2, fun _ h => .inl h⟩, fun _ he => .inl (hst ▸ he), id⟩
  cases a with
  | step x => exact moves_advance hl x hpre
  | startServer | placeAndStart | updateServer => exact hbegin _ hpre.2 rfl ⟨rfl, rfl, trivial⟩
  | redispatchStart =>
    unfold post
    dsimp only
    split
    · rename_i w hd ha
      refine ⟨fun _ _ h => h, fun h => ?_, .inl rfl, fun r h => ?_, fun r h => ?_,
        .inr ⟨rfl, rfl, fun e h => .inr ?_⟩, fun _ he => .inl he, fun _ => trivial⟩
      · cases h
      · cases h
      · cases h
      · obtain rfl := Option.some.inj h
        exact ⟨ha, rfl⟩
    · exact (Plain.flow bare_over).moves
  | restartServer =>
    show Moves s t p _ (s, if _ then _ else _)
    split_ifs
    · exact (Plain.read (q := .restarting s.row) rfl rfl (fun _ h => by cases h) fun _ => trivial).moves
    · exact (Plain.flow bare_over).moves
  | drain =>
    show Moves s t p _ (s, if _ then _ else _)
    split_ifs
    · exact (Plain.read (q := .draining s.row) rfl rfl (fun _ h => by cases h) fun _ => trivial).moves
    · exact (Plain.flow bare_over).moves
  | stopServer | redispatchStop | clearStale => exact (plain_claim _).moves
  | answer o =>
    refine (plain_answered ?_ o).moves
    cases p <;> first | rfl | cases hpre
  | timeout =>
    cases p with
    | snapshotting h z =>
      exact (Plain.state (q := .timedOut h z) frame_cancelFuture.1 frame_cancelFuture.2
        ⟨rfl, rfl, rfl, trivial⟩).moves
    | _ => cases hpre
  | cancel =>
    by_cases hp : p.locks = true
    · cases p with
      | locked k | placing k r | updateLocked | updating r => exact .unlock (hl hp)
      | _ => cases hp
    · exact (plain_cancelled (Bool.eq_false_iff.mpr hp)).moves
  | crash =>
    refine ⟨fun u hu h => ?_, fun h => ?_, .inl rfl, fun r h => ?_, fun r h => ?_,
      .inr ⟨rfl, rfl, fun e h => ?_⟩, fun _ he => .inl he, fun _ => trivial⟩
    · show (if s.lock = some t then none else s.lock) = some u
      rw [if_neg (by rw [h]; simpa using hu), h]
    · cases h
    · cases h
    · cases h
    · cases h
  | report w o now | markUnknown w now | reset now | openSession w | closeSession w => exact hstay rfl rfl
  | send n =>
    refine hstay ?_ ?_
    all_goals
      unfold State.send
      split_ifs <;> rfl
  | resolve n => exact (plain_resolve n).moves

end McServerDashboard.Lifecycle
