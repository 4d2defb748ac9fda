import McServerDashboard.Servers.Convergence
import McServerDashboard.Servers.Frames

/-!
# Placements that stand

* `InTime`: a write that rests on an assignment lands while that assignment stands.
* `Past`: which assignments were cleared, and which of them by a stop-side release.
* `Current`: a flow works on no assignment that was cleared since, and undoes none that a start was
  sent for.
* **`placement_stands`**: in runs of such flows an assignment that a start was sent for is given up only
  by a stop-side release of it, and no start is sent to a second Worker before.
* `compensation_overwrites`: a late compensation clears the next placement, and a third start goes to
  another Worker.
-/

namespace McServerDashboard.Lifecycle

open Lib Servers

variable {s s' : State} {t u : ℕ} {p q : Pc} {a : Action} {r row : Row} {w : WorkerId}

/-- A compensation is of the assignment that stands, and so is what was read by a flow that writes it
back. -/
def InTime (s : State) (p : Pc) : Prop :=
  match p with
  | .compensating l _ => s.row.desired = .running → s.row.placement = l.placement
  | .unassigning l _ => s.row.desired = .running → s.row.placement = l.placement
  | .restarting r => s.row.desired = .running → r.assigned = s.row.assigned ∧ r.placement = s.row.placement
  | .draining r => s.row.desired = .running → r.assigned = s.row.assigned ∧ r.placement = s.row.placement
  | .flipping r => s.row.desired = .running → r.assigned = s.row.assigned ∧ r.placement = s.row.placement
  | _ => True

/-- The assignments that were cleared, by the number of their placement, and those that a stop-side flow
has released. No assignment is of placement `0`. -/
structure Past where
  cleared : List ℕ
  released : List ℕ

def Past.start : Past := ⟨[0], []⟩

/-- The past after the action `x`. -/
def Past.after (h : Past) (c : Conf) (x : ℕ × Action) : Past :=
  if c.shared.row.assigned ≠ none ∧ (post x.1 c.shared (c.th x.1) x.2).1.row.assigned = none then
    { cleared := c.shared.row.placement :: h.cleared
      released := if (c.th x.1).releases = none then h.released else c.shared.row.placement :: h.released }
  else h

/-- The flows, with what they have given up. -/
abbrev recorded : Machine (Conf × Past) (ℕ × Action) := threads.machine.observe fun c x h => h.after c x

/-- The assignment that the flow undoes, writes back or sends a start for was not cleared since, and a
placement that it undoes has had no start. -/
def Current (s : State) (h : Past) (p : Pc) : Prop :=
  match p with
  | .compensating l _ =>
    s.row.desired = .running → l.placement ∉ h.cleared ∧ ∀ e ∈ s.started, e.1 ≠ l.placement
  | .unassigning l _ =>
    s.row.desired = .running → l.placement ∉ h.cleared ∧ ∀ e ∈ s.started, e.1 ≠ l.placement
  | .restarting r => s.row.desired = .running → r.placement ∉ h.cleared
  | .draining r => s.row.desired = .running → r.placement ∉ h.cleared
  | .flipping r => s.row.desired = .running → r.placement ∉ h.cleared
  | .toStart l => l.placement ∉ h.cleared
  | _ => True

/-- Every step of a flow is of a current assignment. -/
def Punctual (y : Conf × Past) (x : ℕ × Action) : Prop :=
  match x.2 with
  | .step _ => Current y.1.shared y.2 (y.1.th x.1)
  | _ => True

instance (s : State) (h : Past) (p : Pc) : Decidable (Current s h p) := by
  induction p using Pc.casesOn <;> (dsimp only [Current]; infer_instance)

instance (y : Conf × Past) (x : ℕ × Action) : Decidable (Punctual y x) := by
  obtain ⟨t, a⟩ := x
  induction a using Action.casesOn <;> (dsimp only [Punctual]; infer_instance)

/-- The flow is about to undo the placement `h`, which it has made itself. -/
def Pc.UndoesOwn (p : Pc) (h : Hold) : Prop :=
  (∃ l r, p = .compensating l r ∧ l.kind = .start ∧ l.assignment = h) ∨
    ∃ l r, p = .unassigning l r ∧ l.kind = .place ∧ l.assignment = h

/-- The row is of the latest placement, and every start went to the Worker of its placement. -/
structure Placed (s : State) : Prop where
  latest : s.nextPlacement = s.row.placement + 1
  home : ∀ w, s.row.assigned = some w → s.home s.row.placement = w
  started : ∀ e ∈ s.started, e.1 < s.nextPlacement ∧ s.home e.1 = e.2

structure Carries (s : State) (t : ℕ) (p : Pc) : Prop where
  locks : p.locks = true → s.lock = some t
  launch : ∀ e, p.launch = some e → e.2.placement < s.nextPlacement ∧ s.home e.2.placement = e.2.worker
  stale : ∀ r, p.stale = some r →
    r.placement < s.nextPlacement ∧ ∀ e, p.launch = some e → e.2.placement ≤ r.placement
  staleHome : ∀ r, p.stale = some r → ∀ w, r.assigned = some w → s.home r.placement = w
  undoes : p.Undoes

/-- What a step of `t` leaves to the others. -/
structure Grows (s s' : State) (t : ℕ) : Prop where
  lock : ∀ u, u ≠ t → s.lock = some u → s'.lock = some u
  next : s.nextPlacement ≤ s'.nextPlacement
  home : ∀ k, k < s.nextPlacement → s'.home k = s.home k

theorem Grows.carries (h : Grows s s' t) (hu : u ≠ t) (hc : Carries s u p) : Carries s' u p where
  locks hp := h.lock u hu (hc.locks hp)
  launch e he := by
    obtain ⟨hlt, hhome⟩ := hc.launch e he
    exact ⟨by have := h.next; omega, by rw [h.home _ hlt, hhome]⟩
  stale r hr := ⟨by have := (hc.stale r hr).1; have := h.next; omega, (hc.stale r hr).2⟩
  staleHome r hr w hw := by rw [h.home _ (hc.stale r hr).1, hc.staleHome r hr w hw]
  undoes := hc.undoes

/-! ## The row's assignment -/

/-- What a write other than a placement does to the assignment. -/
structure Releases (s : State) (p : Pc) (row : Row) : Prop where
  placement : row.placement = s.row.placement
  assigned : row.assigned = s.row.assigned ∨ row.assigned = none
  released : ∀ w, s.row.assigned = some w → row.assigned = none →
    (∃ h, p.releases = some h ∧ h.worker = w) ∨ p.UndoesOwn ⟨w, s.row.placement⟩

theorem Releases.keep (hp : row.placement = s.row.placement) (ha : row.assigned = s.row.assigned) :
    Releases s p row :=
  ⟨hp, .inl ha, fun w hw hn => by rw [ha, hw] at hn; cases hn⟩

theorem Releases.release {h : Hold} (hp : p.releases = some h) (ha : s.row.assigned = some h.worker)
    (hrow : row.placement = s.row.placement) (hn : row.assigned = none) : Releases s p row :=
  ⟨hrow, .inr hn, fun _ hw _ => .inl ⟨h, hp, Option.some.inj (ha.symm.trans hw)⟩⟩

/-- A launch that undoes its own placement in time. -/
theorem Releases.undo {l : Launch} (hp : Placed s) (hc : Carries s t p) (hl : p.launch = some (l.kind, l.assignment))
    (hr : p.stale = some r) (ht : s.row.placement = l.placement)
    (hu : l.assignment.placement = s.row.placement → p.UndoesOwn l.assignment)
    (hrow : row.placement = r.placement) (hn : row.assigned = none) : Releases s p row := by
  obtain ⟨hlt, hle⟩ := hc.stale r hr
  have hle : l.placement ≤ r.placement := hle _ hl
  have hnext := hp.latest
  refine ⟨by omega, .inr hn, fun w hw _ => .inr ?_⟩
  have hhome : s.home l.placement = l.worker := (hc.launch _ hl).2
  have heq : (⟨w, s.row.placement⟩ : Hold) = l.assignment := by
    rw [← hp.home w hw, ht, hhome]
    rfl
  rw [heq]
  exact hu ht.symm

theorem Writes.assigned (hw : Writes t s p a row) (ht : ∀ x, a = .step x → InTime s p) (hp : Placed s)
    (hc : Carries s t p) :
    (∃ k r y, p = .placing k r ∧ a = .step y ∧ s.row.assigned = none) ∨ Releases s p row := by
  cases hw with
  | place x hx hu => exact .inl ⟨_, _, x, rfl, rfl, (updateLifecycle_eq_some.mp hu).1.2 rfl⟩
  | compensate x hu =>
    obtain ⟨⟨hd, -⟩, rfl⟩ := updateLifecycle_eq_some.mp hu
    exact .inr (.undo hp hc rfl rfl (ht x rfl hd) (fun _ => .inl ⟨_, _, rfl, hc.undoes, rfl⟩) rfl rfl)
  | unassign x hu =>
    obtain ⟨⟨hd, -⟩, rfl⟩ := updateLifecycle_eq_some.mp hu
    exact .inr (.undo hp hc rfl rfl (ht x rfl hd) (fun _ => .inr ⟨_, _, rfl, hc.undoes, rfl⟩) rfl rfl)
  | restart x hu | drain x hu | flip x hu hr =>
    obtain ⟨⟨hd, -⟩, rfl⟩ := updateLifecycle_eq_some.mp hu
    exact .inr (.keep (ht x rfl hd).2 (ht x rfl hd).1)
  | settings x hx => exact .inr (.keep rfl rfl)
  | observe o now w _ hu =>
    obtain ⟨o', t', rfl⟩ := recordObservedState_of_some hu
    exact .inr (.keep rfl rfl)
  | markUnknown w now =>
    obtain ⟨o', t', ho⟩ := markWorkerServersUnknown_eq s.row w now
    rw [ho]
    exact .inr (.keep rfl rfl)
  | reset now =>
    obtain ⟨o', t', ho⟩ := resetUnverifiableObservedStates_eq s.row now
    rw [ho]
    exact .inr (.keep rfl rfl)
  | clear x hx hu | lateClear x hu | staleClear x hne hu =>
    obtain ⟨⟨-, ha⟩, rfl⟩ := clearAssignment_eq_some.mp hu
    exact .inr (.release rfl ha rfl rfl)
  | staleUnknown x hu =>
    obtain ⟨⟨-, ha⟩, rfl⟩ := recordObservedState_eq_some.mp hu
    exact .inr (.release rfl ha rfl rfl)

theorem Pc.hold_of_releases {h : Hold} (hp : p.releases = some h) : p.hold = some h := by
  cases p <;> first | exact hp | cases hp

/-! ## Steps -/

/-- What a step leaves of the placements. -/
structure Stands (s : State) (t : ℕ) (x : State × Pc) : Prop where
  placed : Placed x.1
  own : Carries x.1 t x.2
  others : Grows s x.1 t

/-- A step that makes no placement. -/
theorem stands_moves {x : State × Pc} (hp : Placed s) (hc : Carries s t p) (hm : Moves s t p a x)
    (hpl : ∀ k r y, p = .placing k r → a = .step y → False)
    (hrow : x.1.row = s.row ∨ Releases s p x.1.row) : Stands s t x := by
  obtain ⟨hnext, hhome, hlaunch⟩ := hm.placed.resolve_left fun ⟨k, r, y, hk, hy⟩ => hpl k r y hk hy
  have hplace : x.1.row.placement = s.row.placement := by
    rcases hrow with h | h
    · rw [h]
    · exact h.placement
  refine ⟨⟨by rw [hnext, hplace, hp.latest], fun w hw => ?_, fun e he => ?_⟩, ⟨hm.own, fun e he => ?_, ?_,
    fun r hr w hw => ?_, hm.undoes hc.undoes⟩, ⟨hm.lock, hnext.ge, fun _ _ => by rw [hhome]⟩⟩
  · rw [hplace, hhome]
    rcases hrow with h | h
    · exact hp.home w (h ▸ hw)
    · rcases h.assigned with h | h <;> rw [h] at hw
      · exact hp.home w hw
      · cases hw
  · rw [hnext, hhome]
    rcases hm.started e he with he | ⟨l, y, rfl, -, rfl⟩
    · exact hp.started e he
    · exact hc.launch (l.kind, l.assignment) rfl
  · rw [hnext, hhome]
    rcases hlaunch e he with he | ⟨ha, hk⟩
    · exact hc.launch e he
    · exact ⟨by have := hp.latest; omega, hk ▸ hp.home _ ha⟩
  · intro r hr
    rw [hnext]
    rcases hm.stale r hr with hq | rfl
    · rw [hq] at hr ⊢
      exact hc.stale r hr
    · refine ⟨by have := hp.latest; omega, fun e he => ?_⟩
      have hlast := hp.latest
      rcases hlaunch e he with he | ⟨-, hk⟩
      · have := (hc.launch e he).1
        omega
      · exact hk.ge
  · rw [hhome]
    rcases hm.stale r hr with hq | rfl
    · rw [hq] at hr
      exact hc.staleHome r hr w hw
    · exact hp.home w hw

/-- The commit of a placement. -/
theorem stands_placing {k : Kind} {x : Choice} (hp : Placed s) (hc : Carries s t (.placing k r)) :
    Stands s t (advance t s x (.placing k r)) := by
  have hlock := hc.locks rfl
  have hstay : Stands s t s.unlock :=
    stands_moves (a := .cancel) hp hc (.unlock hlock) (fun _ _ _ _ h => by cases h) (.inl rfl)
  unfold advance
  dsimp only
  split
  · exact hstay
  · rename_i row hrow
    by_cases hx : x.ok = true
    · rw [if_pos hx]
      obtain ⟨-, rfl⟩ := updateLifecycle_eq_some.mp hrow
      have hold : ∀ n, n < s.nextPlacement → Function.update s.home s.nextPlacement x.worker n = s.home n :=
        fun n hn => Function.update_of_ne (by omega) _ _
      have hnew : Function.update s.home s.nextPlacement x.worker s.nextPlacement = x.worker :=
        Function.update_self _ _ _
      refine ⟨⟨rfl, fun w hw => ?_, fun e he => ?_⟩, ⟨fun h => ?_, fun e he => ?_, fun r h => ?_, fun r h => ?_, ?_⟩,
        ⟨fun u hu h => absurd (Option.some.inj (h.symm.trans hlock)) hu, Nat.le_succ _, hold⟩⟩
      · exact hnew.trans (Option.some.inj hw)
      · obtain ⟨hlt, hhome⟩ := hp.started e he
        exact ⟨Nat.lt_succ_of_lt hlt, (hold _ hlt).trans hhome⟩
      · cases k <;> cases h
      · have he : e.2 = ⟨x.worker, s.nextPlacement⟩ := by
          cases k <;> (obtain rfl := Option.some.inj he; rfl)
        rw [he]
        exact ⟨Nat.lt_succ_self _, hnew⟩
      · cases k <;> cases h
      · cases k <;> cases h
      · cases k <;> trivial
    · rw [if_neg hx]
      exact hstay

theorem stands_post (hp : Placed s) (hc : Carries s t p) (ht : ∀ x, a = .step x → InTime s p)
    (hpre : pre t s p a) : Stands s t (post t s p a) := by
  by_cases hpl : ∃ k r x, p = .placing k r ∧ a = .step x
  · obtain ⟨k, r, x, rfl, rfl⟩ := hpl
    exact stands_placing hp hc
  · refine stands_moves hp hc (moves_post hc.locks hpre) (fun k r x hk hx => hpl ⟨k, r, x, hk, hx⟩) ?_
    refine (writes_post (t := t) (s := s) (p := p) (a := a)).imp id fun hw => ?_
    exact (hw.assigned ht hp hc).resolve_left fun ⟨k, r, x, hk, hx, _⟩ => hpl ⟨k, r, x, hk, hx⟩

theorem stands_start : Threads.Holds Placed Carries start := by
  refine ⟨⟨rfl, fun w h => ?_, fun e he => ?_⟩,
    fun t => ⟨fun h => ?_, fun e h => ?_, fun r h => ?_, fun r h => ?_, trivial⟩⟩
  · cases h
  · cases he
  · cases h
  · cases h
  · cases h
  · cases h

/-! ## What was given up -/

/-- What is kept of the past: an assignment that is not cleared is the row's, and one that a start was
sent for is cleared by a stop-side release only. -/
structure GivenUp (s : State) (h : Past) : Prop where
  unassigned : s.row.assigned = none → s.row.placement ∈ h.cleared
  earlier : ∀ k, k < s.row.placement → k ∈ h.cleared
  started : ∀ e ∈ s.started, e.1 ∈ h.cleared → e.1 ∈ h.released

/-- What a flow has read unassigned was given up. -/
def ReadCleared (h : Past) (p : Pc) : Prop := ∀ r, p.stale = some r → r.assigned = none → r.placement ∈ h.cleared

theorem after_of_kept {h : Past} {c : Conf} (hn : c.shared.row.assigned ≠ none →
    (post t c.shared (c.th t) a).1.row.assigned ≠ none) : h.after c (t, a) = h :=
  if_neg fun hc => hn hc.1 hc.2

theorem after_of_cleared {h : Past} {c : Conf} (ha : c.shared.row.assigned ≠ none)
    (hn : (post t c.shared (c.th t) a).1.row.assigned = none) : h.after c (t, a) =
    ⟨c.shared.row.placement :: h.cleared,
      if (c.th t).releases = none then h.released else c.shared.row.placement :: h.released⟩ :=
  if_pos ⟨ha, hn⟩

theorem mem_after {h : Past} {c : Conf} {k : ℕ} (hk : k ∈ h.cleared) : k ∈ (h.after c (t, a)).cleared := by
  by_cases hc : c.shared.row.assigned ≠ none ∧ (post t c.shared (c.th t) a).1.row.assigned = none
  · rw [after_of_cleared hc.1 hc.2]
    exact List.mem_cons_of_mem _ hk
  · rwa [after_of_kept fun ha hn => hc ⟨ha, hn⟩]

/-- **An assignment that was not cleared is the one that stands.** -/
theorem GivenUp.latest {h : Past} {k : ℕ} (hk : GivenUp s h) (hp : Placed s) (hlt : k < s.nextPlacement)
    (hc : k ∉ h.cleared) : k = s.row.placement ∧ ∃ w, s.row.assigned = some w ∧ s.home k = w := by
  have heq : k = s.row.placement := by
    by_contra hne
    have hlast := hp.latest
    exact hc (hk.earlier k (by omega))
  subst heq
  cases ha : s.row.assigned with
  | none => exact absurd (hk.unassigned ha) hc
  | some w => exact ⟨rfl, w, rfl, hp.home w ha⟩

/-- A flow whose assignment is current writes in time. -/
theorem Current.inTime {h : Past} (hcur : Current s h p) (hk : GivenUp s h) (hp : Placed s) (hc : Carries s t p)
    (hr : ReadCleared h p) : InTime s p := by
  have hlaunch : ∀ l : Launch, p.launch = some (l.kind, l.assignment) → l.placement ∉ h.cleared →
      s.row.placement = l.placement := fun l hl hn => (hk.latest hp (hc.launch _ hl).1 hn).1.symm
  have hstale : ∀ r, p.stale = some r → r.placement ∉ h.cleared →
      r.assigned = s.row.assigned ∧ r.placement = s.row.placement := by
    intro r hs hn
    obtain ⟨heq, w, ha, hhome⟩ := hk.latest hp (hc.stale r hs).1 hn
    refine ⟨?_, heq⟩
    cases hra : r.assigned with
    | none => exact absurd (hr r hs hra) hn
    | some v => rw [ha, ← hhome, hc.staleHome r hs v hra]
  cases p with
  | compensating l r | unassigning l r => exact fun hd => hlaunch l rfl (hcur hd).1
  | restarting r | draining r | flipping r => exact fun hd => hstale r rfl (hcur hd)
  | _ => trivial

/-- A flow that undoes its own placement has sent no start for it. -/
theorem Writes.unsent {h : Past} {k : Hold} (hw : Writes t s p a row) (hcur : ∀ x, a = .step x → Current s h p)
    (hu : p.UndoesOwn k) (ha : s.row.assigned ≠ none) (hn : row.assigned = none) :
    ∀ e ∈ s.started, e.1 ≠ k.placement := by
  have hobs : ∀ {o : ObservedState} {n : Option ℕ}, row = { s.row with observed := o, observedAt := n } → False :=
    fun hrow => ha (by rw [hrow] at hn; exact hn)
  have hreport : (∃ o now w, s.row.recordObservedState o now false w = some row) → False := by
    rintro ⟨o, now, w, hrec⟩
    obtain ⟨o', n, hrow⟩ := recordObservedState_of_some hrec
    exact hobs hrow
  cases hw with
  | compensate x hup | unassign x hup =>
    rcases hu with ⟨_, _, hp, -, rfl⟩ | ⟨_, _, hp, -, rfl⟩ <;> cases hp
    exact (hcur x rfl (updateLifecycle_eq_some.mp hup).1.1).2
  | observe o now w _ hrec => exact (hreport ⟨o, now, w, hrec⟩).elim
  | markUnknown w now =>
    obtain ⟨o', n, hrow⟩ := markWorkerServersUnknown_eq s.row w now
    exact (hobs hrow).elim
  | reset now =>
    obtain ⟨o', n, hrow⟩ := resetUnverifiableObservedStates_eq s.row now
    exact (hobs hrow).elim
  | _ => rcases hu with ⟨_, _, hp, -⟩ | ⟨_, _, hp, -⟩ <;> cases hp

/-- A flow that undoes its placement sends nothing. -/
theorem Pc.UndoesOwn.not_sends {k : Hold} {e : ℕ × WorkerId} (hu : p.UndoesOwn k) : ¬Sends p a e := by
  rintro ⟨l, x, rfl, -, -⟩
  rcases hu with ⟨l', r, hp, -⟩ | ⟨l', r, hp, -⟩ <;> cases hp

theorem Writes.placed (hw : Writes t s p a row) (hp : ∃ k r x, p = .placing k r ∧ a = .step x) :
    row.placement = s.nextPlacement ∧ row.assigned ≠ none := by
  obtain ⟨k, r, x, rfl, rfl⟩ := hp
  cases hw with
  | place x hx hu =>
    rw [(updateLifecycle_eq_some.mp hu).2]
    exact ⟨rfl, by simp⟩
  | observe o now w ho => cases ho

/-- **One step**: an assignment that a start was sent for is cleared by a stop-side release only. -/
theorem givenUp_post {c : Conf} {h : Past} (hk : GivenUp c.shared h) (hc : Threads.Holds Placed Carries c)
    (hr : ReadCleared h (c.th t)) (hP : ∀ x, a = .step x → Current c.shared h (c.th t))
    (hpre : pre t c.shared (c.th t) a) : GivenUp (post t c.shared (c.th t) a).1 (h.after c (t, a)) := by
  have hin : ∀ x, a = .step x → InTime c.shared (c.th t) := fun x hx =>
    (hP x hx).inTime hk hc.shared (hc.thread t) hr
  have hmoves := moves_post (a := a) (hc.thread t).locks hpre
  -- A start that is sent is of an assignment that was not cleared.
  have hsent : ∀ e ∈ (post t c.shared (c.th t) a).1.started, e.1 ∈ h.cleared → e ∈ c.shared.started := by
    intro e he hcl
    rcases hmoves.started e he with he | ⟨l, x, hl, rfl, rfl⟩
    · exact he
    · have hcur := hP x rfl
      rw [hl] at hcur
      exact absurd hcl hcur
  rcases writes_post (t := t) (s := c.shared) (p := c.th t) (a := a) with hrow | hw
  · rw [after_of_kept (by rw [hrow]; exact id)]
    refine ⟨?_, ?_, fun e he hcl => hk.started e (hsent e he hcl) hcl⟩ <;> rw [hrow]
    · exact hk.unassigned
    · exact hk.earlier
  rcases hw.assigned hin hc.shared (hc.thread t) with ⟨k, r, x, hp, rfl, hnone⟩ | hrel
  · -- A placement.
    rw [after_of_kept fun ha => absurd hnone ha]
    obtain ⟨hplace, hsome⟩ := hw.placed ⟨k, r, x, hp, rfl⟩
    refine ⟨fun hn => absurd hn hsome, fun k hlt => ?_, fun e he hcl => hk.started e (hsent e he hcl) hcl⟩
    rw [hplace, hc.shared.latest, Nat.lt_succ_iff_lt_or_eq] at hlt
    rcases hlt with hlt | rfl
    · exact hk.earlier k hlt
    · exact hk.unassigned hnone
  · by_cases hcl : c.shared.row.assigned ≠ none ∧ (post t c.shared (c.th t) a).1.row.assigned = none
    · obtain ⟨ha, hn⟩ := hcl
      obtain ⟨w, hw'⟩ := Option.ne_none_iff_exists'.mp ha
      rw [after_of_cleared ha hn]
      refine ⟨fun _ => ?_, fun k hlt => ?_, fun e he hmem => ?_⟩
      · rw [hrel.placement]
        exact List.mem_cons_self
      · rw [hrel.placement] at hlt
        exact List.mem_cons_of_mem _ (hk.earlier k hlt)
      · have hmem : e.1 = c.shared.row.placement ∨ e.1 ∈ h.cleared := List.mem_cons.mp hmem
        rcases hmem with heq | hmem
        · rcases hrel.released w hw' hn with ⟨k, hk, -⟩ | hu
          · rw [if_neg (by simp [hk]), heq]
            exact List.mem_cons_self
          · have he := (hmoves.started e he).resolve_right hu.not_sends
            exact absurd heq (hw.unsent hP hu ha hn e he)
        · have hrelease := hk.started e (hsent e he hmem) hmem
          dsimp only
          split_ifs
          · exact hrelease
          · exact List.mem_cons_of_mem _ hrelease
    · rw [after_of_kept fun ha hn => hcl ⟨ha, hn⟩]
      refine ⟨fun hn => ?_, fun k hlt => ?_, fun e he hmem => hk.started e (hsent e he hmem) hmem⟩
      · rw [hrel.placement]
        exact hk.unassigned (by_contra fun ha => hcl ⟨ha, hn⟩)
      · rw [hrel.placement] at hlt
        exact hk.earlier k hlt

theorem readCleared_post {c : Conf} {h : Past} (hk : GivenUp c.shared h) (hc : Threads.Holds Placed Carries c)
    (hr : ReadCleared h (c.th t)) (hpre : pre t c.shared (c.th t) a) :
    ReadCleared (h.after c (t, a)) (post t c.shared (c.th t) a).2 := by
  intro r hs hn
  refine mem_after ?_
  rcases (moves_post (a := a) (hc.thread t).locks hpre).stale r hs with hq | rfl
  · rw [hq] at hs
    exact hr r hs hn
  · exact hk.unassigned hn

/-- What holds in every run of such flows. -/
theorem givenUp_reach {y : Conf × Past} (h : recorded.Reach Punctual (start, .start) y) :
    Threads.Holds Placed Carries y.1 ∧ GivenUp y.1.shared y.2 ∧ ∀ t, ReadCleared y.2 (y.1.th t) := by
  have h0 : GivenUp start.shared .start :=
    ⟨fun _ => List.mem_cons_self, fun k hlt => absurd hlt (Nat.not_lt_zero k),
      fun e he => absurd he List.not_mem_nil⟩
  refine Machine.Reach.invariant
    (I := fun y => Threads.Holds Placed Carries y.1 ∧ GivenUp y.1.shared y.2 ∧ ∀ t, ReadCleared y.2 (y.1.th t))
    h ⟨stands_start, h0, fun t r hs => by cases hs⟩ fun y x hy hpre hP => ?_
  obtain ⟨hc, hk, hr⟩ := hy
  obtain ⟨t, a⟩ := x
  have hP : ∀ x, a = .step x → Current y.1.shared y.2 (y.1.th t) := fun x hx => by
    subst hx
    exact hP
  have hs := stands_post hc.shared (hc.thread t)
    (fun x hx => (hP x hx).inTime hk hc.shared (hc.thread t) (hr t)) hpre
  have hstep : Threads.Holds Placed Carries (threads.step y.1 t a) :=
    hc.step (S := threads) (a := a) ⟨hs.placed, hs.own, fun _ hu h => hs.others.carries hu h⟩
  refine ⟨hstep, givenUp_post hk hc (hr t) hP hpre, fun u => ?_⟩
  show ReadCleared (y.2.after y.1 (t, a)) ((threads.step y.1 t a).th u)
  by_cases hu : u = t
  · subst hu
    rw [Threads.step_self]
    exact readCleared_post hk hc (hr u) hpre
  · rw [Threads.step_ne hu]
    exact fun r hs hn => mem_after (hr u r hs hn)

/-- **A placement stands.** In every run whose flows work on current assignments, where a start was sent
for a placement:

* it is the assignment that stands, or a stop-side flow has released it;
* a step that clears or moves the assignment is the release of it by a stop-side flow;
* a start that is sent to another Worker comes after that release. -/
theorem placement_stands {y : Conf × Past} (h : recorded.Reach Punctual (start, .start) y) :
    (∀ e ∈ y.1.shared.started, y.1.shared.row.holds e.2 e.1 ∨ e.1 ∈ y.2.released) ∧
      ∀ t a, pre t y.1.shared (y.1.th t) a → Punctual y (t, a) → ∀ e ∈ y.1.shared.started,
        (y.1.shared.row.holds e.2 e.1 → (post t y.1.shared (y.1.th t) a).1.row.holds e.2 e.1 ∨
          (y.1.th t).releases = some ⟨e.2, e.1⟩) ∧
        ∀ e', Sends (y.1.th t) a e' → e'.2 ≠ e.2 → e.1 ∈ y.2.released := by
  obtain ⟨hc, hk, hr⟩ := givenUp_reach h
  have hstands : ∀ e ∈ y.1.shared.started, y.1.shared.row.holds e.2 e.1 ∨ e.1 ∈ y.2.released := by
    intro e he
    by_cases hcl : e.1 ∈ y.2.cleared
    · exact .inr (hk.started e he hcl)
    · obtain ⟨hlt, hhome⟩ := hc.shared.started e he
      obtain ⟨heq, w, ha, hw⟩ := hk.latest hc.shared hlt hcl
      exact .inl ⟨by rw [ha, ← hw, hhome], heq.symm⟩
  refine ⟨hstands, fun t a _ hP e he => ⟨fun hh => ?_, fun e' hs hne => ?_⟩⟩
  · have hP : ∀ x, a = .step x → Current y.1.shared y.2 (y.1.th t) := fun x hx => by
      subst hx
      exact hP
    rcases writes_post (t := t) (s := y.1.shared) (p := y.1.th t) (a := a) with hrow | hw
    · exact .inl (hrow ▸ hh)
    rcases hw.assigned (fun x hx => (hP x hx).inTime hk hc.shared (hc.thread t) (hr t)) hc.shared
      (hc.thread t) with ⟨_, _, _, _, _, hnone⟩ | hrel
    · rw [hh.1] at hnone
      cases hnone
    rcases hrel.assigned with hsame | hnone
    · exact .inl ⟨hsame.trans hh.1, hrel.placement.trans hh.2⟩
    rcases hrel.released e.2 hh.1 hnone with ⟨k, hk', hw'⟩ | hu
    · -- What is released is the assignment that the stop has held since it read the row.
      have hheld := ((holds_reach h.observed).thread t).hold k (Pc.hold_of_releases hk')
      rw [hk', ← hw', ← hh.2, hheld.2.2]
      exact .inr rfl
    · exact absurd hh.2.symm (hw.unsent hP hu (by rw [hh.1]; simp) hnone e he)
  · obtain ⟨l, x, hl, rfl, rfl⟩ := hs
    have hcur : Current y.1.shared y.2 (y.1.th t) := hP
    rw [hl] at hcur
    have hlaunch : l.placement < y.1.shared.nextPlacement ∧ y.1.shared.home l.placement = l.worker :=
      (hc.thread t).launch (l.kind, l.assignment) (by rw [hl]; rfl)
    obtain ⟨-, w, ha, hhome⟩ := hk.latest hc.shared hlaunch.1 hcur
    refine (hstands e he).resolve_left fun hh => hne ?_
    show l.worker = e.2
    rw [← hlaunch.2, hhome]
    exact Option.some.inj (ha.symm.trans hh.1)

/-- A second placement, after a stop has released the first. -/
theorem placement_stands_again : ∃ y : Conf × Past, recorded.Reach Punctual (start, .start) y ∧
    y.1.shared.started = [(2, 1), (1, 0)] ∧ y.1.shared.row.assigned = some 1 ∧ 1 ∈ y.2.released ∧
      (∀ e ∈ y.1.shared.started, y.1.shared.row.holds e.2 e.1 ∨ e.1 ∈ y.2.released) := by
  have hrun : ((recorded.guard Punctual).exec
      [(1, .startServer), (1, .step ⟨0, true, false, 0⟩), (1, .step ⟨0, true, false, 0⟩),
        (1, .step ⟨0, true, false, 0⟩), (1, .answer .success), (1, .step ⟨0, true, false, 0⟩),
        (1, .answer .success), (2, .stopServer), (2, .step ⟨0, true, false, 0⟩),
        (2, .step ⟨0, true, false, 0⟩), (2, .answer .success), (2, .step ⟨0, true, false, 1⟩),
        (2, .step ⟨0, true, false, 0⟩), (2, .step ⟨0, true, false, 0⟩), (2, .step ⟨0, true, false, 0⟩),
        (3, .startServer), (3, .step ⟨0, true, false, 0⟩), (3, .step ⟨1, true, false, 0⟩),
        (3, .step ⟨0, true, false, 0⟩), (3, .answer .success), (3, .step ⟨0, true, false, 0⟩)]
      (start, .start)).map
      (fun y => decide (y.1.shared.started = [(2, 1), (1, 0)] ∧ y.1.shared.row.assigned = some 1 ∧
        1 ∈ y.2.released)) = some true := by
    decide +kernel
  obtain ⟨y, hy, hb⟩ := Machine.reach_of_exec_map hrun
  obtain ⟨hs, ha, hrel⟩ := of_decide_eq_true hb
  exact ⟨y, Machine.reach_of_guard hy, hs, ha, hrel, (placement_stands (Machine.reach_of_guard hy)).1⟩

/-- **A late compensation overwrites the next placement.** While the hydrate of a first start runs, a
stop releases its Worker and a second start is placed and sent to Worker `1`; then the hydrate fails
and the compensation clears the second assignment, which no stop has released, and a third start is
sent to Worker `2`. -/
theorem compensation_overwrites : ∃ y : Conf × Past, recorded.Reach Machine.Any (start, .start) y ∧
    y.1.shared.started = [(3, 2), (2, 1)] ∧ ¬ y.1.shared.row.holds 1 2 ∧ y.2.released = [1] := by
  have hrun : (recorded.exec
      [(1, .startServer), (1, .step ⟨0, true, false, 0⟩), (1, .step ⟨0, true, false, 0⟩),
        (1, .step ⟨0, true, false, 0⟩), (2, .stopServer), (2, .step ⟨0, true, false, 0⟩),
        (2, .step ⟨0, true, false, 0⟩), (2, .answer .notFound), (2, .step ⟨0, true, false, 0⟩),
        (2, .step ⟨0, true, false, 1⟩), (2, .step ⟨0, true, false, 0⟩), (2, .step ⟨0, true, false, 0⟩),
        (2, .step ⟨0, true, false, 0⟩),
        (3, .startServer), (3, .step ⟨0, true, false, 0⟩), (3, .step ⟨1, true, false, 0⟩),
        (3, .step ⟨0, true, false, 0⟩), (3, .answer .success), (3, .step ⟨0, true, false, 0⟩),
        (1, .answer .failed), (1, .step ⟨0, true, false, 0⟩), (1, .step ⟨0, true, false, 0⟩),
        (4, .startServer), (4, .step ⟨0, true, false, 0⟩), (4, .step ⟨2, true, false, 0⟩),
        (4, .step ⟨0, true, false, 0⟩), (4, .answer .success), (4, .step ⟨0, true, false, 0⟩)]
      (start, .start)).map
      (fun y => decide (y.1.shared.started = [(3, 2), (2, 1)] ∧ ¬ y.1.shared.row.holds 1 2 ∧
        y.2.released = [1])) = some true := by
    decide +kernel
  obtain ⟨y, hy, hb⟩ := Machine.reach_of_exec_map hrun
  exact ⟨y, hy, of_decide_eq_true hb⟩

end McServerDashboard.Lifecycle
