import Mathlib.Data.Finset.Dedup
import Mathlib.Data.Finset.Filter
import Mathlib.Data.Finset.Insert
import Mathlib.Data.Finset.Lattice.Basic
import Mathlib.Data.List.Sort
import Mathlib.Tactic.Linarith
import McServerDashboard.Lib.Run
import McServerDashboard.Schedules.Entities

/-!
# Player warnings

Every tick of the scheduler ends in `_send_warnings`, which broadcasts the warnings that are due of
the stop and restart schedules that are still to come. It works with the instant at which the tick
began; before it, the tick ran the due schedules and the pending retries, and it awaits the
database and every broadcast. The rows of the database may change at any await.

* `listWarningCandidates`, `scan`: the query of the look-ahead, and the loop over the steps of one
  schedule.
* `Phase`, `next`: where a tick stands, and its steps between two awaits.
* `Inv`, `inv_next`: what holds at every await.
* **`broadcast_iff`**: no warning is broadcast twice, and one is on time iff the time its tick has
  run is within what was left at the start of the tick.
-/

namespace McServerDashboard.Schedules

open Lib Lib.Properties Properties

/-! ## The look-ahead -/

/-- `WARNING_GRACE_FLOOR`. -/
def warningGraceFloor : ℤ := seconds 60

/-- `effective_warning_grace`, of the time between two ticks. -/
def effectiveWarningGrace (tick : ℤ) : ℤ := max warningGraceFloor tick

/-- What identifies a warning: the schedule, the occurrence and the offset. -/
structure Key where
  schedule : ScheduleId
  occurrence : Instant
  offset : ℤ
  deriving DecidableEq

/-- The instant at which the warning is due. -/
def Key.due (k : Key) : Instant := k.occurrence - minutes k.offset

/-- The order of the look-ahead. -/
def soonest (s s' : Schedule) : Prop :=
  s.nextRunAt.getD 0 < s'.nextRunAt.getD 0 ∨ s.nextRunAt.getD 0 = s'.nextRunAt.getD 0 ∧ s.id ≤ s'.id

instance : DecidableRel soonest := fun _ _ => inferInstanceAs (Decidable (_ ∨ _))

/-- `list_warning_candidates`: the occurrences with `now < next_run_at ≤ until`. -/
def listWarningCandidates (rows : List Schedule) (now until_ : Instant) : List Schedule :=
  (rows.filter fun s => s.enabled && (s.action = .stop || s.action = .restart) &&
    s.nextRunAt.any fun t => now < t && t ≤ until_).insertionSort soonest

/-- The loop of `_warn_schedule` over the steps of a schedule: the sent-state, in which a step that
missed its window is consumed, and the steps that are due. -/
def scan (grace : ℤ) (id : ScheduleId) (occurrence now : Instant) :
    List WarningStep → Finset Key → Finset Key × List WarningStep
  | [], warned => (warned, [])
  | step :: steps, warned =>
    let key : Key := ⟨id, occurrence, step.offsetMinutes⟩
    if key ∈ warned then scan grace id occurrence now steps warned
    else if now < key.due then scan grace id occurrence now steps warned
    else if grace < now - key.due then scan grace id occurrence now steps (insert key warned)
    else
      let scanned := scan grace id occurrence now steps warned
      (scanned.1, step :: scanned.2)

/-! ## A tick -/

/-- Where a tick stands. `now` is the instant at which it began. -/
inductive Phase
  /-- Between two ticks. -/
  | idle
  /-- The due schedules and the pending retries run. -/
  | running (now : Instant)
  /-- The sent-state is pruned, and the look-ahead reads the candidates. -/
  | looking (now : Instant)
  /-- The loop over the candidates. -/
  | visiting (now : Instant) (candidates : List Schedule)
  /-- Some steps of a schedule are due, and its server is read. -/
  | reading (now : Instant) (candidates : List Schedule) (schedule : Schedule) (occurrence : Instant)
      (due : List WarningStep)
  /-- The steps that are still to be broadcast on the running server. -/
  | sending (now : Instant) (candidates : List Schedule) (schedule : Schedule) (occurrence : Instant)
      (server : Server) (due : List WarningStep)
  deriving DecidableEq

/-- A broadcast: one call of `send_command`. -/
structure Broadcast where
  key : Key
  communityId : ℕ
  serverId : ServerId
  line : Str
  /-- When its tick began. -/
  tick : Instant
  /-- The clock at the call. -/
  clock : Instant
  /-- What the awaits of its tick have taken until then. -/
  awaited : ℤ
  deriving DecidableEq

/-- One process of the scheduler, and the database. -/
structure State where
  clock : Instant
  rows : List Schedule
  servers : ServerId → Option Server
  /-- `_warned`. -/
  warned : Finset Key := ∅
  /-- `_last_tick_at`. -/
  lastTickAt : Option Instant := none
  phase : Phase := .idle
  /-- Ghost: what the awaits have taken since the last tick began. -/
  awaited : ℤ := 0
  /-- Ghost: all broadcasts so far, the latest first. -/
  sent : List Broadcast := []

/-- What may happen between two awaits. -/
inductive Action
  /-- Time passes. -/
  | elapse (d : ℕ)
  /-- Others commit changes of schedules and servers, the runs of this tick included. -/
  | commit (rows : List Schedule) (servers : ServerId → Option Server)
  /-- A tick begins. -/
  | begin
  /-- The runs and the retries are over, and `_send_warnings` is called. -/
  | lookAhead
  /-- The look-ahead has its rows. -/
  | list
  /-- `_warn_schedule` looks at the steps of the next candidate. -/
  | visit
  /-- It has the row of the server. -/
  | read
  /-- It calls `send_command` for the next step; a `ServerError` of the call is only logged. -/
  | send
  /-- The awaited call raises. -/
  | fail
  /-- The loop that has nothing left to do is over. -/
  | leave

/-- The next candidate, in a tick that began at `now`. -/
def visit (grace : ℤ) (s : State) (now : Instant) (candidates : List Schedule) (schedule : Schedule) : State :=
  match schedule.nextRunAt with
  | none => { s with phase := .visiting now candidates }
  | some occurrence =>
    let scanned := scan grace schedule.id occurrence now schedule.warningSteps s.warned
    if scanned.2 = [] then { s with warned := scanned.1, phase := .visiting now candidates }
    else { s with warned := scanned.1, phase := .reading now candidates schedule occurrence scanned.2 }

/-- The keys of the steps. -/
def keys (id : ScheduleId) (occurrence : Instant) (due : List WarningStep) : List Key :=
  due.map fun step => ⟨id, occurrence, step.offsetMinutes⟩

/-- The state after an action, if it may be taken. -/
def next (grace : ℤ) (s : State) (a : Action) : Option State :=
  match a, s.phase with
  | .elapse d, _ => some { s with clock := s.clock + d, awaited := s.awaited + d }
  | .commit rows servers, _ => some { s with rows := rows, servers := servers }
  | .begin, .idle => some { s with lastTickAt := some s.clock, awaited := 0, phase := .running s.clock }
  | .lookAhead, .running now =>
    some { s with warned := s.warned.filter fun key => now < key.occurrence, phase := .looking now }
  | .list, .looking now =>
    some { s with phase := .visiting now (listWarningCandidates s.rows now (now + minutes maxWarningOffsetMinutes)) }
  | .visit, .visiting now (schedule :: candidates) => some (visit grace s now candidates schedule)
  | .read, .reading now candidates schedule occurrence due =>
    let consumed := { s with warned := s.warned ∪ (keys schedule.id occurrence due).toFinset }
    match s.servers schedule.serverId with
    | none => some { consumed with phase := .visiting now candidates }
    | some server =>
      if isRunning server then
        some { consumed with phase := .sending now candidates schedule occurrence server due }
      else some { consumed with phase := .visiting now candidates }
  | .send, .sending now candidates schedule occurrence server (step :: due) =>
    some { s with
      phase := .sending now candidates schedule occurrence server due
      sent := ⟨⟨schedule.id, occurrence, step.offsetMinutes⟩, server.communityId, schedule.serverId,
        warningCommandPrefix ++ step.message, now, s.clock, s.awaited⟩ :: s.sent }
  | .fail, .running _ | .fail, .looking _ => some { s with phase := .idle }
  | .fail, .reading now candidates _ _ _ => some { s with phase := .visiting now candidates }
  | .fail, .sending now candidates _ _ _ _ => some { s with phase := .visiting now candidates }
  | .leave, .sending now candidates _ _ _ [] => some { s with phase := .visiting now candidates }
  | .leave, .visiting _ [] => some { s with phase := .idle }
  | _, _ => none

/-- The runs of one process, with the sends of the ticks at arbitrary times. -/
def scheduler (grace : ℤ) : Machine State Action where
  pre s a := (next grace s a).isSome = true
  post s a := (next grace s a).getD s

instance (grace : ℤ) (s : State) (a : Action) : Decidable ((scheduler grace).pre s a) :=
  inferInstanceAs (Decidable (_ = true))

/-- No broadcast yet. -/
def State.start (clock : Instant) (rows : List Schedule) (servers : ServerId → Option Server) : State :=
  { clock, rows, servers }

/-! ## The invariant -/

/-- The window of the warning is open at `now`. -/
structure Open (grace : ℤ) (now : Instant) (k : Key) : Prop where
  ahead : now < k.occurrence
  due : k.due ≤ now
  within : now - k.due ≤ grace

/-- The occurrences of the candidates are still to come. -/
def Ahead (now : Instant) (candidates : List Schedule) : Prop :=
  ∀ c ∈ candidates, ∀ occurrence, c.nextRunAt = some occurrence → now < occurrence

/-- The warnings are open and were never sent. -/
structure Fresh (grace : ℤ) (now : Instant) (sent : List Broadcast) (ks : List Key) : Prop where
  nodup : ks.Nodup
  opened : ∀ k ∈ ks, Open grace now k
  unsent : ∀ k ∈ ks, ∀ b ∈ sent, b.key ≠ k

/-- What holds at each await of a tick. -/
def PhaseOk (grace : ℤ) (s : State) : Prop :=
  match s.phase with
  | .idle => True
  | .running now | .looking now => s.lastTickAt = some now
  | .visiting now candidates => s.lastTickAt = some now ∧ Ahead now candidates
  | .reading now candidates schedule occurrence due =>
    s.lastTickAt = some now ∧ Ahead now candidates ∧ Fresh grace now s.sent (keys schedule.id occurrence due)
  | .sending now candidates schedule occurrence _ due =>
    s.lastTickAt = some now ∧ Ahead now candidates ∧ Fresh grace now s.sent (keys schedule.id occurrence due) ∧
      ∀ k ∈ keys schedule.id occurrence due, k ∈ s.warned

/-- What holds at every await. -/
structure Inv (grace : ℤ) (s : State) : Prop where
  phase : PhaseOk grace s
  /-- A warning that was sent is in the sent-state until its occurrence is past. -/
  known : ∀ b ∈ s.sent, b.key ∈ s.warned ∨ ∃ now, s.lastTickAt = some now ∧ b.key.occurrence ≤ now
  once : (s.sent.map (·.key)).Nodup
  opened : ∀ b ∈ s.sent, Open grace b.tick b.key ∧ b.clock = b.tick + b.awaited
  clock : ∀ now, s.lastTickAt = some now → s.clock = now + s.awaited
  awaited : 0 ≤ s.awaited

variable {grace : ℤ} {s s' : State} {a : Action} {id : ScheduleId} {occurrence now : Instant}
  {steps : List WarningStep} {warned : Finset Key}

theorem mem_listWarningCandidates {rows : List Schedule} {until_ : Instant} :
    Ahead now (listWarningCandidates rows now until_) := by
  intro c hc t ht
  rw [listWarningCandidates, List.mem_insertionSort, List.mem_filter] at hc
  simp only [ht, Option.any_some, Bool.and_eq_true, decide_eq_true_eq] at hc
  exact hc.2.2.1

/-- **The loop over the steps** only adds to the sent-state, and what it finds due is open and new. -/
theorem scan_spec : warned ⊆ (scan grace id occurrence now steps warned).1 ∧
    (scan grace id occurrence now steps warned).2.Sublist steps ∧
    ∀ k ∈ keys id occurrence (scan grace id occurrence now steps warned).2,
      k ∉ warned ∧ k.due ≤ now ∧ now - k.due ≤ grace := by
  induction steps generalizing warned with
  | nil => exact ⟨Finset.Subset.refl _, List.Sublist.refl _, fun k hk => absurd hk List.not_mem_nil⟩
  | cons step steps ih =>
    rw [scan]
    split_ifs with hmem hdue hlate
    · exact ⟨ih.1, ih.2.1.cons _, ih.2.2⟩
    · exact ⟨ih.1, ih.2.1.cons _, ih.2.2⟩
    · obtain ⟨hsub, hsublist, hkeys⟩ := @ih (insert ⟨id, occurrence, step.offsetMinutes⟩ warned)
      refine ⟨(Finset.subset_insert _ _).trans hsub, hsublist.cons _, fun k hk => ?_⟩
      obtain ⟨hnot, hwindow⟩ := hkeys k hk
      exact ⟨fun h => hnot (Finset.mem_insert_of_mem h), hwindow⟩
    · refine ⟨ih.1, ih.2.1.cons_cons _, fun k hk => ?_⟩
      rcases List.mem_cons.mp hk with rfl | hk
      · exact ⟨hmem, not_lt.mp hdue, not_lt.mp hlate⟩
      · exact ih.2.2 k hk

/-- The steps of a schedule have keys of their own. -/
theorem nodup_keys (schedule : Schedule) {due : List WarningStep} (h : due.Sublist schedule.warningSteps) :
    (keys schedule.id occurrence due).Nodup := by
  have hoffsets : (due.map (·.offsetMinutes)).Nodup := (h.map _).nodup schedule.distinct
  rw [keys]
  refine List.Nodup.of_map (·.offset) ?_
  rw [List.map_map]
  exact hoffsets

/-- A step that sends nothing and forgets nothing keeps the invariant if its phase is in order. -/
theorem Inv.keep (h : Inv grace s) (hsent : s'.sent = s.sent) (hwarned : s.warned ⊆ s'.warned)
    (hlast : s'.lastTickAt = s.lastTickAt) (hclock : s'.clock = s.clock) (hawaited : s'.awaited = s.awaited)
    (hphase : PhaseOk grace s') : Inv grace s' where
  phase := hphase
  known := by
    rw [hsent, hlast]
    exact fun b hb => (h.known b hb).imp_left fun hk => hwarned hk
  once := by
    rw [hsent]
    exact h.once
  opened := by
    rw [hsent]
    exact h.opened
  clock := by
    rw [hlast, hclock, hawaited]
    exact h.clock
  awaited := hawaited ▸ h.awaited

/-- A key that the sent-state lacks, of an occurrence that is still to come, was never sent. -/
theorem Inv.unsent (h : Inv grace s) (hlast : s.lastTickAt = some now) {k : Key} (hk : k ∉ s.warned)
    (hahead : now < k.occurrence) : ∀ b ∈ s.sent, b.key ≠ k := by
  rintro b hb rfl
  rcases h.known b hb with hmem | ⟨now', hnow', hpast⟩
  · exact hk hmem
  · obtain rfl := Option.some.inj (hlast.symm.trans hnow')
    exact absurd hpast (not_le.mpr hahead)

theorem inv_visit (h : Inv grace s) {candidates : List Schedule} {schedule : Schedule}
    (hphase : s.phase = .visiting now (schedule :: candidates)) : Inv grace (visit grace s now candidates schedule) := by
  have hok := h.phase
  simp only [PhaseOk, hphase] at hok
  obtain ⟨hlast, hahead⟩ := hok
  have hrest : Ahead now candidates := fun c hc => hahead c (List.mem_cons_of_mem _ hc)
  unfold visit
  cases hnext : schedule.nextRunAt with
  | none => exact h.keep rfl (Finset.Subset.refl _) rfl rfl rfl ⟨hlast, hrest⟩
  | some occurrence =>
    have hlt : now < occurrence := hahead schedule List.mem_cons_self occurrence hnext
    obtain ⟨hsub, hsublist, hkeys⟩ := @scan_spec grace schedule.id occurrence now schedule.warningSteps s.warned
    have hocc : ∀ {due : List WarningStep}, ∀ k ∈ keys schedule.id occurrence due, k.occurrence = occurrence := by
      intro due k hk
      obtain ⟨step, -, rfl⟩ := List.mem_map.mp hk
      rfl
    dsimp only
    split_ifs with hnone
    · exact h.keep rfl hsub rfl rfl rfl ⟨hlast, hrest⟩
    · refine h.keep rfl hsub rfl rfl rfl ⟨hlast, hrest, nodup_keys schedule hsublist, fun k hk => ?_, fun k hk => ?_⟩
      · obtain ⟨-, hdue, hwithin⟩ := hkeys k hk
        exact ⟨(hocc k hk).symm ▸ hlt, hdue, hwithin⟩
      · exact h.unsent hlast (hkeys k hk).1 ((hocc k hk).symm ▸ hlt)

/-- The broadcast of the next step: its warning has an open window and was never sent. -/
theorem inv_send (h : Inv grace s) {candidates : List Schedule} {schedule : Schedule} {server : Server}
    {step : WarningStep} {due : List WarningStep} {b : Broadcast}
    (hphase : s.phase = .sending now candidates schedule occurrence server (step :: due))
    (hkey : b.key = ⟨schedule.id, occurrence, step.offsetMinutes⟩) (htick : b.tick = now) (hclock : b.clock = s.clock)
    (hawaited : b.awaited = s.awaited) :
    Inv grace { s with phase := .sending now candidates schedule occurrence server due, sent := b :: s.sent } := by
  have hok := h.phase
  simp only [PhaseOk, hphase] at hok
  obtain ⟨hlast, hahead, hfresh, hwarned⟩ := hok
  have hhead : b.key ∈ keys schedule.id occurrence (step :: due) := hkey ▸ List.mem_cons_self
  have hnodup := List.nodup_cons.mp hfresh.nodup
  refine ⟨⟨hlast, hahead, ⟨hnodup.2, fun k hk => ?_, fun k hk => ?_⟩, fun k hk => ?_⟩, ?_, ?_, ?_, h.clock, h.awaited⟩
  · exact hfresh.opened k (List.mem_cons_of_mem _ hk)
  · intro c hc
    rcases List.mem_cons.mp hc with rfl | hc
    · rintro rfl
      rw [hkey] at hk
      exact hnodup.1 hk
    · exact hfresh.unsent k (List.mem_cons_of_mem _ hk) c hc
  · exact hwarned k (List.mem_cons_of_mem _ hk)
  · intro c hc
    rcases List.mem_cons.mp hc with rfl | hc
    · exact .inl (hwarned _ hhead)
    · exact h.known c hc
  · refine List.nodup_cons.mpr ⟨fun hmem => ?_, h.once⟩
    obtain ⟨c, hc, heq⟩ := List.mem_map.mp hmem
    exact hfresh.unsent _ hhead c hc heq
  · intro c hc
    rcases List.mem_cons.mp hc with rfl | hc
    · rw [htick, hclock, hawaited]
      exact ⟨hfresh.opened _ hhead, h.clock now hlast⟩
    · exact h.opened c hc

/-- **Every step** of the process keeps the invariant. -/
theorem inv_next (h : Inv grace s) (hn : next grace s a = some s') : Inv grace s' := by
  have hok := h.phase
  unfold next at hn
  split at hn
  · next d =>
    obtain rfl := Option.some.inj hn
    refine ⟨hok, h.known, h.once, h.opened, fun now hnow => ?_, Int.add_nonneg h.awaited (Int.natCast_nonneg d)⟩
    exact (congrArg (· + (d : ℤ)) (h.clock now hnow)).trans (Int.add_assoc _ _ _)
  · next rows servers =>
    obtain rfl := Option.some.inj hn
    exact h.keep rfl (Finset.Subset.refl _) rfl rfl rfl hok
  · next hphase =>
    obtain rfl := Option.some.inj hn
    refine ⟨rfl, fun b hb => ?_, h.once, h.opened, fun now hnow => ?_, le_rfl⟩
    swap
    · exact (Option.some.inj hnow).trans (Int.add_zero _).symm
    rcases h.known b hb with hmem | ⟨now, hnow, hpast⟩
    · exact .inl hmem
    · refine .inr ⟨s.clock, rfl, hpast.trans ?_⟩
      exact (Int.le_add_of_nonneg_right h.awaited).trans (h.clock now hnow).ge
  · next now hphase =>
    obtain rfl := Option.some.inj hn
    simp only [PhaseOk, hphase] at hok
    refine ⟨hok, fun b hb => ?_, h.once, h.opened, h.clock, h.awaited⟩
    rcases h.known b hb with hmem | hpast
    · by_cases hahead : now < b.key.occurrence
      · exact .inl (Finset.mem_filter.mpr ⟨hmem, hahead⟩)
      · exact .inr ⟨now, hok, not_lt.mp hahead⟩
    · exact .inr hpast
  · next now hphase =>
    obtain rfl := Option.some.inj hn
    simp only [PhaseOk, hphase] at hok
    exact h.keep rfl (Finset.Subset.refl _) rfl rfl rfl ⟨hok, mem_listWarningCandidates⟩
  · next now schedule candidates hphase =>
    obtain rfl := Option.some.inj hn
    exact inv_visit h hphase
  · next now candidates schedule occurrence due hphase =>
    simp only [PhaseOk, hphase] at hok
    obtain ⟨hlast, hahead, hfresh⟩ := hok
    have hskip : Inv grace { s with warned := s.warned ∪ (keys schedule.id occurrence due).toFinset,
                                    phase := .visiting now candidates } :=
      h.keep rfl Finset.subset_union_left rfl rfl rfl ⟨hlast, hahead⟩
    dsimp only at hn
    split at hn
    · obtain rfl := Option.some.inj hn
      exact hskip
    · split_ifs at hn
      · obtain rfl := Option.some.inj hn
        refine h.keep rfl Finset.subset_union_left rfl rfl rfl ⟨hlast, hahead, hfresh, fun k hk => ?_⟩
        exact Finset.mem_union_right _ (List.mem_toFinset.mpr hk)
      · obtain rfl := Option.some.inj hn
        exact hskip
  · next now candidates schedule occurrence server step due hphase =>
    obtain rfl := Option.some.inj hn
    exact inv_send h hphase rfl rfl rfl rfl
  · obtain rfl := Option.some.inj hn
    exact h.keep rfl (Finset.Subset.refl _) rfl rfl rfl trivial
  · obtain rfl := Option.some.inj hn
    exact h.keep rfl (Finset.Subset.refl _) rfl rfl rfl trivial
  · next now candidates schedule occurrence due hphase =>
    obtain rfl := Option.some.inj hn
    simp only [PhaseOk, hphase] at hok
    exact h.keep rfl (Finset.Subset.refl _) rfl rfl rfl ⟨hok.1, hok.2.1⟩
  · next now candidates schedule occurrence server due hphase =>
    obtain rfl := Option.some.inj hn
    simp only [PhaseOk, hphase] at hok
    exact h.keep rfl (Finset.Subset.refl _) rfl rfl rfl ⟨hok.1, hok.2.1⟩
  · next now candidates schedule occurrence server hphase =>
    obtain rfl := Option.some.inj hn
    simp only [PhaseOk, hphase] at hok
    exact h.keep rfl (Finset.Subset.refl _) rfl rfl rfl ⟨hok.1, hok.2.1⟩
  · obtain rfl := Option.some.inj hn
    exact h.keep rfl (Finset.Subset.refl _) rfl rfl rfl trivial
  · cases hn

/-! ## Results -/

namespace Broadcast

/-- The clock is before the occurrence, and the warning is not later than the grace. -/
def OnTime (grace : ℤ) (b : Broadcast) : Prop := b.clock < b.key.occurrence ∧ b.clock ≤ b.key.due + grace

end Broadcast

/-- The awaits of a tick that began at `now` have taken less than what was left until the occurrence,
and no more than what was left of the window. -/
def InTime (grace : ℤ) (now : Instant) (k : Key) (awaited : ℤ) : Prop :=
  awaited < k.occurrence - now ∧ awaited ≤ grace - (now - k.due)

instance (grace : ℤ) (now : Instant) (k : Key) (awaited : ℤ) : Decidable (InTime grace now k awaited) :=
  inferInstanceAs (Decidable (_ ∧ _))

/-- The tick reaches its next send in time. -/
def Prompt (grace : ℤ) (s : State) (a : Action) : Prop :=
  match a, s.phase with
  | .send, .sending now _ schedule occurrence _ (step :: _) =>
    InTime grace now ⟨schedule.id, occurrence, step.offsetMinutes⟩ s.awaited
  | _, _ => True

instance (grace : ℤ) (s : State) (a : Action) : Decidable (Prompt grace s a) := by
  unfold Prompt
  split <;> infer_instance

/-- What a step sends. -/
theorem sent_next (hn : next grace s a = some s') : s'.sent = s.sent ∨
    ∃ b, s'.sent = b :: s.sent ∧ (Prompt grace s a → InTime grace b.tick b.key b.awaited) := by
  unfold next at hn
  split at hn
  case h_6 now schedule candidates hphase =>
    obtain rfl := Option.some.inj hn
    unfold visit
    split
    · exact .inl rfl
    · dsimp only
      split_ifs <;> exact .inl rfl
  case h_7 =>
    dsimp only at hn
    split at hn
    · obtain rfl := Option.some.inj hn
      exact .inl rfl
    · split_ifs at hn <;> obtain rfl := Option.some.inj hn <;> exact .inl rfl
  case h_8 now candidates schedule occurrence server step due hphase =>
    obtain rfl := Option.some.inj hn
    refine .inr ⟨_, rfl, fun hprompt => ?_⟩
    simp only [Prompt, hphase] at hprompt
    exact hprompt
  case h_15 => cases hn
  all_goals
    obtain rfl := Option.some.inj hn
    exact .inl rfl

theorem Inv.start (clock : Instant) (rows : List Schedule) (servers : ServerId → Option Server) :
    Inv grace (.start clock rows servers) where
  phase := trivial
  known := fun _ hb => absurd hb List.not_mem_nil
  once := List.nodup_nil
  opened := fun _ hb => absurd hb List.not_mem_nil
  clock := nofun
  awaited := le_rfl

theorem inv_post (h : Inv grace s) (hpre : (scheduler grace).pre s a) : Inv grace ((scheduler grace).post s a) := by
  obtain ⟨s', hs'⟩ := Option.isSome_iff_exists.mp hpre
  simp only [scheduler, hs', Option.getD_some]
  exact inv_next h hs'

theorem Broadcast.onTime_iff {b : Broadcast} (h : b.clock = b.tick + b.awaited) :
    b.OnTime grace ↔ InTime grace b.tick b.key b.awaited := by
  unfold OnTime InTime
  rw [h]
  constructor <;> rintro ⟨hahead, hwithin⟩ <;> constructor <;> linarith

/-- **Every warning is broadcast at most once, and on time iff the awaits of its tick have not taken too long**:
the window was open when the tick began, so one that awaits for no time is in time; and in a run
whose ticks all reach their sends in time, every broadcast is on time. -/
theorem broadcast_iff (grace : ℤ) (clock : Instant) (rows : List Schedule) (servers : ServerId → Option Server) :
    (∀ t, (scheduler grace).Reach Machine.Any (.start clock rows servers) t → (t.sent.map (·.key)).Nodup ∧
      ∀ b ∈ t.sent, (b.OnTime grace ↔ InTime grace b.tick b.key b.awaited) ∧ InTime grace b.tick b.key 0) ∧
    ∀ t, (scheduler grace).Reach (Prompt grace) (.start clock rows servers) t → ∀ b ∈ t.sent, b.OnTime grace := by
  have hinv : ∀ {t}, (scheduler grace).Reach Machine.Any (.start clock rows servers) t → Inv grace t := fun ht =>
    ht.invariant (Inv.start clock rows servers) fun u a hu hpre _ => inv_post hu hpre
  refine ⟨fun t ht => ⟨(hinv ht).once, fun b hb => ?_⟩, fun t ht b hb => ?_⟩
  · obtain ⟨⟨hahead, hdue, hwithin⟩, hclock⟩ := (hinv ht).opened b hb
    exact ⟨Broadcast.onTime_iff hclock, sub_pos.mpr hahead, sub_nonneg.mpr hwithin⟩
  · have hsent : ∀ b ∈ t.sent, InTime grace b.tick b.key b.awaited := by
      refine ht.invariant (I := fun u => ∀ b ∈ u.sent, InTime grace b.tick b.key b.awaited)
        (fun b hb => absurd hb List.not_mem_nil) ?_
      intro u a hu hpre hprompt
      obtain ⟨u', hu'⟩ := Option.isSome_iff_exists.mp hpre
      have hpost : (scheduler grace).post u a = u' := by simp only [scheduler, hu', Option.getD_some]
      rw [hpost]
      rcases sent_next hu' with hsame | ⟨b, hsent, hin⟩
      · rw [hsame]
        exact hu
      · rw [hsent]
        exact List.forall_mem_cons.mpr ⟨hin hprompt, hu⟩
    exact (Broadcast.onTime_iff ((hinv ht.any).opened b hb).2).mpr (hsent b hb)

/-- A restart schedule with one warning, a minute before. -/
def nightly : Schedule where
  id := 1
  serverId := 1
  action := .restart
  cadence := .interval 86400 (by decide)
  timezone := str "UTC"
  enabled := true
  command := none
  warningSteps := [⟨1, str "restart", by decide, by decide, by decide, by decide⟩]
  onlyWhenRunning := none
  nextRunAt := some (seconds 120)
  lastRunAt := none
  carriesLine := by rw [if_neg (by decide)]
  warns := fun _ => .inr rfl
  gated := rfl
  few := by decide
  distinct := by decide
  undue := nofun

/-- Its server, which is running. -/
def online : ServerId → Option Server := fun _ => some ⟨1, .running, .running, some 1⟩

/-- The tick of the minute before the restart, in which the executions take `d`. -/
def warningTick (d : ℕ) : List Action :=
  [.elapse 60000000, .begin, .elapse d, .lookAhead, .list, .visit, .read, .send]

theorem broadcast_iff_quick : ∃ t,
    (scheduler warningGraceFloor).Reach (Prompt warningGraceFloor) (.start 0 [nightly] online) t ∧
    t.sent.map (·.clock) = [61000000] ∧ (t.sent.map (·.key)).Nodup ∧ ∀ b ∈ t.sent, b.OnTime warningGraceFloor := by
  have hrun : (((scheduler warningGraceFloor).guard (Prompt warningGraceFloor)).exec (warningTick 1000000)
      (.start 0 [nightly] online)).map (fun t => t.sent.map (·.clock)) = some [61000000] := by decide +kernel
  obtain ⟨t, ht, hclocks⟩ := Machine.reach_of_exec_map hrun
  have hreach := Machine.reach_of_guard ht
  obtain ⟨hany, hprompt⟩ := broadcast_iff warningGraceFloor 0 [nightly] online
  exact ⟨t, hreach, hclocks, (hany t hreach.any).1, hprompt t hreach⟩

/-- **A warning after its occurrence**: the executions of the tick take ninety seconds. -/
theorem not_onTime : ∃ t, (scheduler warningGraceFloor).Reach Machine.Any (.start 0 [nightly] online) t ∧
    ∃ b ∈ t.sent, b.key.occurrence = 120000000 ∧ b.clock = 150000000 ∧ ¬ b.OnTime warningGraceFloor := by
  have hrun : ((scheduler warningGraceFloor).exec (warningTick 90000000) (.start 0 [nightly] online)).map
      (fun t => t.sent.map fun b => (b.key.occurrence, b.clock)) = some [(120000000, 150000000)] := by decide +kernel
  obtain ⟨t, ht, hsent⟩ := Machine.reach_of_exec_map hrun
  obtain ⟨b, rest, hcons⟩ : ∃ b rest, t.sent = b :: rest := by
    cases hlist : t.sent with
    | nil =>
      rw [hlist] at hsent
      cases hsent
    | cons b rest => exact ⟨b, rest, rfl⟩
  rw [hcons] at hsent
  obtain ⟨hocc, hclock⟩ := Prod.mk.inj (List.cons.inj hsent).1
  refine ⟨t, ht, b, hcons ▸ List.mem_cons_self, hocc, hclock, fun hon => ?_⟩
  have hlt := hon.1
  rw [hocc, hclock] at hlt
  exact absurd hlt (by decide)

end McServerDashboard.Schedules
