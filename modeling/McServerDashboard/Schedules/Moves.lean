import McServerDashboard.Schedules.Runner

/-!
# Moves of a schedule

All that a tick, an edit or a delete may do to one schedule between two awaits, and the rule by which what one move
keeps holds along every run of the process.

* **`Moves`**, **`moves_of_next`**: the moves, and that every step of a schedule is one.
* `Job.Ok`, `Job.Ok.moves`: what holds of a schedule wherever its run stands.
* **`invariant_of_moves`**: the invariant rule of one schedule.
-/

namespace McServerDashboard.Schedules.Runner

open Lib

/-! ## What may happen to one schedule -/

/-- The occurrence that `next` is has been dispatched and is not recorded yet. -/
def Pc.inFlight (next : Instant) : Pc → Bool
  | .executing (.due d _) | .executed (.due d _) _ _ => d.schedule.nextRunAt = some next
  | _ => false

/-- The occurrences that were dispatched. -/
def occurrences (log : List Event) : List (Option Instant) :=
  log.filterMap fun
    | .dispatched d _ => some d.schedule.nextRunAt
    | _ => none

/-- The edit puts back an occurrence that was dispatched and recorded since its clock was read. -/
def Job.PutsBack (job : Job) (updated : Schedule) : Prop :=
  job.row ≠ none ∧ ∃ next, updated.nextRunAt = some next ∧ some next ∈ occurrences job.log ∧
    job.pc.inFlight next = false

/-- What becomes of a schedule, between two awaits, at `clock`; where `C` holds, no edit puts an occurrence back, and no
record fails. -/
inductive Moves (t : RunScheduleTick) (C : Prop) (clock : Instant) (job : Job) : Job → Prop
  | create (hnew : job = {}) (row : Schedule) : Moves t C clock job { row := some row }
  | update {updated : Schedule} (h : C → ¬ job.PutsBack updated) : Moves t C clock job (job.update updated)
  | delete : Moves t C clock job { job with row := none }
  | list {now : Instant} (hover : job.pc.isOver = true) (hnow : now ≤ clock) (prev : Option Instant) :
    Moves t C clock job (job.list now prev)
  | stale {d : Due} (hpc : job.pc = .queued d) (haction : d.schedule.action ≠ .backup) :
    Moves t C clock job { job with pc := .executed (.due d d.schedule.lastRunAt) ⟨.skipped, true⟩ clock }
  | start {d : Due} (hpc : job.pc = .queued d) (htimely : d.schedule.action ≠ .backup → isStale d = false) :
    Moves t C clock job { job with pc := .starting (.due d) }
  | claim {o : Origin} (hpc : job.pc = .starting o) : Moves t C clock job { job with pc := .claimed o job.row }
  | fail {o : Origin} (hpc : job.pc = .starting o) (server : Option ServerId) :
    Moves t C clock job { job with pc := .done server }
  | gone {d : Due} (hpc : job.pc = .claimed (.due d) none) (server : Option ServerId) :
    Moves t C clock job { (job.handled clock d).forget with pc := .done server }
  | changed {d : Due} {current : Schedule} (hpc : job.pc = .claimed (.due d) (some current))
    (hchanged : current.enabled = true → current.nextRunAt ≠ d.schedule.nextRunAt) (server : Option ServerId) :
    Moves t C clock job { job.handled clock d with pc := .done server }
  | execute {d : Due} {current : Schedule} (hpc : job.pc = .claimed (.due d) (some current))
    (henabled : current.enabled = true) (hsame : current.nextRunAt = d.schedule.nextRunAt) :
    Moves t C clock job { job with pc := .loading (.due d (some clock)) current }
  | goneRetry (hpc : job.pc = .claimed .retry none) : Moves t C clock job { job.forget with pc := .done none }
  | refused {current : Schedule} (hpc : job.pc = .claimed .retry (some current)) :
    Moves t C clock job { job with pc := .done none }
  | retry {current : Schedule} (hpc : job.pc = .claimed .retry (some current)) (henabled : current.enabled = true)
    (haction : current.action = .backup) :
    Moves t C clock job { job with pc := .loading (.retry current) current, log := .retried current clock :: job.log }
  | raised {run : Run} {current : Schedule} (hpc : job.pc = .loading run current) (server : Option ServerId) :
    Moves t C clock job { job with pc := .done server }
  | skipped {run : Run} {current : Schedule} (hpc : job.pc = .loading run current) :
    Moves t C clock job { job with pc := .executed run ⟨.skipped, true⟩ clock }
  | dispatched {d : Due} {lastRunAt : Option Instant} {current : Schedule}
    (hpc : job.pc = .loading (.due d lastRunAt) current) :
    Moves t C clock job { job with pc := .executing (.due d lastRunAt), log := .dispatched d current :: job.log }
  | dispatchedRetry {schedule current : Schedule} (hpc : job.pc = .loading (.retry schedule) current) :
    Moves t C clock job { job with pc := .executing (.retry schedule) }
  | finish {run : Run} (hpc : job.pc = .executing run) (result : ActionResult) :
    Moves t C clock job { job with pc := .executed run result clock }
  | record {d : Due} {lastRunAt : Option Instant} {result : ActionResult} {finishedAt : Instant}
    (hpc : job.pc = .executed (.due d lastRunAt) result finishedAt) :
    Moves t C clock job { job with
      row := job.row.map (Job.advance t clock d lastRunAt)
      pc := .recorded (.due d lastRunAt) result finishedAt job.row.isSome
      log := .handled (job.version ≠ d.version) (job.row.map (Job.advance t clock d lastRunAt)) clock ::
        if result.outcome = .success && d.schedule.action = .backup then .succeeded :: job.log else job.log }
  | recordRetry {schedule : Schedule} {result : ActionResult} {finishedAt : Instant}
    (hpc : job.pc = .executed (.retry schedule) result finishedAt) :
    Moves t C clock job { job with pc := .recorded (.retry schedule) result finishedAt job.row.isSome }
  | rollback {run : Run} {result : ActionResult} {finishedAt : Instant} (hpc : job.pc = .executed run result finishedAt)
    (h : ¬ C) (server : Option ServerId) : Moves t C clock job { job with pc := .done server }
  | conclude {run : Run} {result : ActionResult} {finishedAt : Instant} {recorded : Bool}
    (hpc : job.pc = .recorded run result finishedAt recorded) (server : Option ServerId) :
    Moves t C clock job { job.concluded t run result finishedAt recorded with pc := .done server }
  | retryDue {retryAt : Instant} (hpc : job.pc = .idle) (hretry : job.retry = some retryAt) (hdue : retryAt ≤ clock) :
    Moves t C clock job { job with retry := none, pc := .starting .retry }

variable {t : RunScheduleTick} {C : Prop} {clock clock' : Instant} {job job' : Job}

/-- **Every step of a schedule is a move.** -/
theorem moves_of_next {step : Step} (h : job.next t clock step = some job')
    (hnew : ∀ row, step = .create row → job = {}) (hnow : ∀ now, step = .retry now → now ≤ clock)
    (hC : C → step ≠ .rollback) : Moves t C clock job job' := by
  cases step with
  | create row =>
    obtain rfl := hnew row rfl
    exact Option.some.inj h ▸ .create rfl row
  | delete => exact Option.some.inj h ▸ .delete
  | start =>
    rw [Job.next, Job.start] at h
    split at h
    next d hpc =>
      split_ifs at h with hstale
      · rw [Bool.and_eq_true, decide_eq_true_eq] at hstale
        exact Option.some.inj h ▸ .stale hpc hstale.1
      · refine Option.some.inj h ▸ .start hpc fun haction => ?_
        rw [Bool.and_eq_true, decide_eq_true_eq, not_and] at hstale
        exact Bool.eq_false_iff.mpr (hstale haction)
    next => cases h
  | claim =>
    rw [Job.next, Job.claim] at h
    split at h
    next o hpc => exact Option.some.inj h ▸ .claim hpc
    next => cases h
  | fail =>
    rw [Job.next, Job.fail] at h
    split at h
    next hpc => exact Option.some.inj h ▸ .fail hpc none
    next d hpc => exact Option.some.inj h ▸ .fail hpc (some d.schedule.serverId)
    next => cases h
  | dispatch =>
    rw [Job.next, Job.dispatch] at h
    split at h
    next d hpc => exact Option.some.inj h ▸ .gone hpc (some d.schedule.serverId)
    next d current hpc =>
      split_ifs at h with hchanged
      · refine Option.some.inj h ▸ .changed hpc (fun henabled => ?_) (some d.schedule.serverId)
        rw [henabled, Bool.not_true, Bool.false_or, decide_eq_true_eq] at hchanged
        exact hchanged
      · rw [Bool.or_eq_true, not_or, Bool.not_eq_true, Bool.not_eq_false', decide_eq_true_eq, not_not] at hchanged
        exact Option.some.inj h ▸ .execute hpc hchanged.1 hchanged.2
    next hpc => exact Option.some.inj h ▸ .goneRetry hpc
    next current hpc =>
      split_ifs at h with hrefused
      · exact Option.some.inj h ▸ .refused hpc
      · rw [Bool.or_eq_true, not_or, Bool.not_eq_true, Bool.not_eq_false', decide_eq_true_eq, not_not] at hrefused
        exact Option.some.inj h ▸ .retry hpc hrefused.1 hrefused.2
    next => cases h
  | load found =>
    rw [Job.next, Job.load] at h
    split at h
    next run current hpc =>
      cases found with
      | raised => exact Option.some.inj h ▸ .raised hpc (some run.schedule.serverId)
      | skipped => exact Option.some.inj h ▸ .skipped hpc
      | dispatched =>
        cases run with
        | due d lastRunAt => exact Option.some.inj h ▸ .dispatched hpc
        | retry schedule => exact Option.some.inj h ▸ .dispatchedRetry hpc
    next => cases h
  | finish result =>
    rw [Job.next, Job.finish] at h
    split at h
    next run hpc => exact Option.some.inj h ▸ .finish hpc result
    next => cases h
  | record =>
    rw [Job.next, Job.record] at h
    split at h
    next d lastRunAt result finishedAt hpc => exact Option.some.inj h ▸ .record hpc
    next schedule result finishedAt hpc => exact Option.some.inj h ▸ .recordRetry hpc
    next => cases h
  | rollback =>
    rw [Job.next, Job.rollback] at h
    split at h
    next run result finishedAt hpc =>
      exact Option.some.inj h ▸ .rollback hpc (fun h => hC h rfl) (some run.schedule.serverId)
    next => cases h
  | conclude =>
    rw [Job.next, Job.conclude] at h
    split at h
    next run result finishedAt recorded hpc => exact Option.some.inj h ▸ .conclude hpc (some run.schedule.serverId)
    next => cases h
  | retry now =>
    rw [Job.next, Job.retryDue] at h
    split at h
    next retryAt hpc hretry =>
      split_ifs at h with hdue
      exact Option.some.inj h ▸ .retryDue hpc hretry (hdue.trans (hnow now rfl))
    next => cases h

/-! ## What holds of one schedule -/

/-- What holds of a due schedule until its run is recorded, with the row as it is now. -/
structure Due.Ok (clock : Instant) (version : ℕ) (row : Option Schedule) (d : Due) : Prop where
  next : ∃ next, d.schedule.nextRunAt = some next ∧ next ≤ clock
  enabled : d.schedule.enabled = true
  older : d.version ≤ version
  /-- A row that was not edited is as the poll read it. -/
  same : d.version = version → ∀ r, row = some r → r = d.schedule

/-- The occurrence may be dispatched. -/
def Timely (d : Due) : Prop := d.schedule.action ≠ .backup → isStale d = false

/-- What holds where a run stands. -/
def PcOk (clock : Instant) (version : ℕ) (row : Option Schedule) : Pc → Prop
  | .queued d => d.Ok clock version row
  | .starting (.due d) => d.Ok clock version row ∧ Timely d
  | .claimed (.due d) current =>
    d.Ok clock version row ∧ Timely d ∧ (current = none → row = none) ∧
      ∀ c, current = some c → d.version = version → c = d.schedule
  | .claimed .retry current => current = none → row = none
  | .loading (.due d _) current =>
    d.Ok clock version row ∧ Timely d ∧ current.enabled = true ∧ current.nextRunAt = d.schedule.nextRunAt
  | .executing (.due d _) | .executed (.due d _) _ _ => d.Ok clock version row
  | .recorded _ _ _ recorded => recorded = false → row = none
  | _ => True

def Job.Ok (clock : Instant) (job : Job) : Prop := PcOk clock job.version job.row job.pc

section Rows

variable {version version' : ℕ} {row row' : Option Schedule} {d : Due} {updated : Schedule} {pc : Pc}

theorem Due.Ok.mono (h : d.Ok clock version row) (hclock : clock ≤ clock') : d.Ok clock' version row where
  next := by
    obtain ⟨next, hnext, hle⟩ := h.next
    exact ⟨next, hnext, hle.trans hclock⟩
  enabled := h.enabled
  older := h.older
  same := h.same

theorem Due.Ok.update (h : d.Ok clock version row) : d.Ok clock (version + 1) (some updated) where
  next := h.next
  enabled := h.enabled
  older := h.older.trans (Nat.le_succ _)
  same heq := absurd (heq ▸ h.older) (Nat.not_succ_le_self _)

theorem Due.Ok.delete (h : d.Ok clock version row) : d.Ok clock version none :=
  ⟨h.next, h.enabled, h.older, fun _ r hr => absurd hr (Option.some_ne_none r).symm⟩

/-- The run stands where it stood while the row changes. -/
theorem PcOk.imp (h : PcOk clock version row pc)
    (hdue : ∀ d : Due, d.Ok clock version row → d.Ok clock' version' row') (hrow : row = none → row' = none)
    (hversion : version ≤ version') : PcOk clock' version' row' pc := by
  cases pc with
  | queued d => exact hdue d h
  | starting o =>
    cases o with
    | due d => exact ⟨hdue d h.1, h.2⟩
    | retry => trivial
  | claimed o current =>
    cases o with
    | due d =>
      obtain ⟨hd, htimely, hnone, hsame⟩ := h
      refine ⟨hdue d hd, htimely, fun hcurrent => hrow (hnone hcurrent), fun c hc heq => hsame c hc ?_⟩
      exact Nat.le_antisymm hd.older (heq ▸ hversion)
    | retry => exact fun hcurrent => hrow (h hcurrent)
  | loading run current =>
    cases run with
    | due d _ => exact ⟨hdue d h.1, h.2⟩
    | retry _ => trivial
  | executing run | executed run _ _ =>
    cases run with
    | due d _ => exact hdue d h
    | retry _ => trivial
  | recorded => exact fun hrecorded => hrow (h hrecorded)
  | idle | done => trivial

end Rows

/-- What is concluded is about the notifications and the retries. -/
theorem Job.concluded_eq (run : Run) (result : ActionResult) (finishedAt : Instant) (recorded : Bool) :
    ∃ retry notifying log, job.concluded t run result finishedAt recorded = { job with retry, notifying, log } := by
  have hnotify : ∃ notifying log, job.notify result.outcome = { job with notifying, log } := by
    cases result.outcome with
    | success | failure =>
      rw [Job.notify]
      split_ifs <;> exact ⟨_, _, rfl⟩
    | skipped => exact ⟨_, _, rfl⟩
  obtain ⟨notifying, log, hjob⟩ := hnotify
  rw [Job.concluded, hjob, Job.rescheduleRetry]
  split_ifs <;> exact ⟨_, _, _, rfl⟩

namespace Job.Ok

/-- Time goes on. -/
theorem mono (h : job.Ok clock) (hclock : clock ≤ clock') : job.Ok clock' :=
  PcOk.imp h (fun _ hd => hd.mono hclock) id (Nat.le_refl _)

theorem list {now : Instant} (hnow : now ≤ clock) (prev : Option Instant) : (job.list now prev).Ok clock := by
  rw [Job.list]
  cases hrow : job.row with
  | none => trivial
  | some row =>
    dsimp only
    split_ifs with hdue
    · rw [Bool.and_eq_true, Option.any_eq_true] at hdue
      obtain ⟨henabled, next, hnext, hle⟩ := hdue
      refine ⟨⟨next, hnext, (of_decide_eq_true hle).trans hnow⟩, henabled, Nat.le_refl _, fun _ r hr => ?_⟩
      exact (Option.some.inj hr).symm
    · trivial

theorem update (h : job.Ok clock) (updated : Schedule) : (job.update updated).Ok clock := by
  rw [Job.Ok] at h
  rw [Job.update]
  cases hrow : job.row with
  | none => exact h
  | some row =>
    rw [hrow] at h
    exact PcOk.imp h (fun _ hd => hd.update) nofun (Nat.le_succ _)

/-- **A move keeps it.** -/
theorem moves (h : job.Ok clock) (hmove : Moves t C clock job job') : job'.Ok clock := by
  have hpc := h
  rw [Job.Ok] at hpc
  cases hmove with
  | create => trivial
  | update => exact h.update _
  | delete => exact PcOk.imp h (fun _ hd => hd.delete) (fun _ => rfl) (Nat.le_refl _)
  | list _ hnow prev => exact list hnow prev
  | stale heq =>
    rw [heq] at hpc
    exact hpc
  | start heq htimely =>
    rw [heq] at hpc
    exact ⟨hpc, htimely⟩
  | @claim o heq =>
    rw [heq] at hpc
    cases o with
    | due d => exact ⟨hpc.1, hpc.2, id, fun c hc hsame => hpc.1.same hsame c hc⟩
    | retry => exact id
  | execute heq henabled hsame =>
    rw [heq] at hpc
    exact ⟨hpc.1, hpc.2.1, henabled, hsame⟩
  | @skipped run _ heq =>
    rw [heq] at hpc
    cases run with
    | due d _ => exact hpc.1
    | retry _ => trivial
  | dispatched heq =>
    rw [heq] at hpc
    exact hpc.1
  | @finish run heq =>
    rw [heq] at hpc
    cases run with
    | due d _ => exact hpc
    | retry _ => trivial
  | record heq =>
    intro hnone
    rw [Option.isSome_eq_false_iff, Option.isNone_iff_eq_none] at hnone
    exact Option.map_eq_none_iff.mpr hnone
  | recordRetry heq =>
    intro hnone
    rwa [Option.isSome_eq_false_iff, Option.isNone_iff_eq_none] at hnone
  | @conclude run result finishedAt recorded =>
    obtain ⟨retry, notifying, log, hjob⟩ := job.concluded_eq (t := t) run result finishedAt recorded
    rw [hjob]
    trivial
  | fail | gone | changed | goneRetry | refused | retry | raised | dispatchedRetry | rollback | retryDue => trivial

end Job.Ok

/-! ## What holds of the process -/

/-- No edit puts back an occurrence that was dispatched and recorded since its clock was read. -/
def Careful (s : State) : Action → Prop
  | .write k =>
    match s.edits k with
    | some (.built updated) => ¬ (s.jobs updated.id).PutsBack updated
    | _ => True
  | _ => True

/-- No transaction of the bookkeeping fails. -/
def Booked : Action → Prop
  | .job _ step => step ≠ .rollback
  | _ => True

/-- What is under way in a tick. -/
def State.PhaseOk (s : State) : Prop :=
  match s.phase with
  | .idle => ∀ id, (s.pc id).isOver = true
  | .polling now _ => now ≤ s.clock ∧ ∀ id, (s.pc id).isOver = true
  | .running now _ => now ≤ s.clock
  | .retrying now busy => now ≤ s.clock ∧ ∀ id, (s.pc id).isOver = true ∨ busy = some id

/-- What holds at every await. -/
structure State.Ok (s : State) : Prop where
  phase : s.PhaseOk
  /-- There is nothing of a schedule that never was. -/
  fresh : ∀ id, id ∉ s.ids → s.jobs id = {}

section Process

variable {s s' : State} {a : Action} {id other : ScheduleId} {step : Step}

theorem after_frame : (s.after id step).jobs = s.jobs ∧ (s.after id step).clock = s.clock := by
  cases step with
  | claim | record | dispatch | conclude =>
    rw [State.after]
    split_ifs <;> exact ⟨rfl, rfl⟩
  | retry now =>
    rw [State.after]
    split <;> exact ⟨rfl, rfl⟩
  | create | delete | start | fail | load | finish | rollback => exact ⟨rfl, rfl⟩

theorem after_ids (h : ∀ row, step ≠ .create row) : (s.after id step).ids = s.ids := by
  cases step with
  | create row => exact absurd rfl (h row)
  | claim | record | dispatch | conclude =>
    rw [State.after]
    split_ifs <;> rfl
  | retry now =>
    rw [State.after]
    split <;> rfl
  | delete | start | fail | load | finish | rollback => rfl

theorem put_jobs (job : Job) : (s.put id job).jobs other = if other = id then job else s.jobs other := rfl

/-- The step of one schedule. -/
theorem next_job (h : next t s (.job id step) = some s') : ∃ job, s.allows id step = true ∧
    (s.jobs id).next t s.clock step = some job ∧ s' = (s.after id step).put id job := by
  rw [next] at h
  split_ifs at h with hallows
  obtain ⟨job, hjob, rfl⟩ := Option.map_eq_some_iff.mp h
  exact ⟨job, hallows, hjob, rfl⟩

/-- **Whatever is done, one schedule makes a move, or none.** -/
theorem moves_of_next_state (hs : s.Ok) (h : next t s a = some s') (hC : C → Booked a ∧ Careful s a) :
    s.clock ≤ s'.clock ∧ ∀ id, s'.jobs id = s.jobs id ∨ Moves t C s.clock (s.jobs id) (s'.jobs id) := by
  have hphase := hs.phase
  rw [State.PhaseOk] at hphase
  cases a with
  | elapse d =>
    cases h
    exact ⟨Int.le_add_of_nonneg_right (Int.natCast_nonneg d), fun _ => .inl rfl⟩
  | read k id =>
    obtain ⟨row, -, rfl⟩ := Option.map_eq_some_iff.mp h
    exact ⟨le_rfl, fun _ => .inl rfl⟩
  | build k updated | retries | leave =>
    rw [next] at h
    split at h
    · split_ifs at h
      cases h
      exact ⟨le_rfl, fun _ => .inl rfl⟩
    · cases h
  | write k =>
    rw [next] at h
    split at h
    next updated hedit =>
      cases h
      refine ⟨le_rfl, fun id => ?_⟩
      rw [put_jobs]
      split_ifs with hid
      · subst hid
        refine .inr (.update fun hc => ?_)
        have hcareful := (hC hc).2
        rw [Careful, hedit] at hcareful
        exact hcareful
      · exact .inl rfl
    next => cases h
  | begin | unlisted =>
    rw [next] at h
    split at h
    · cases h
      exact ⟨le_rfl, fun _ => .inl rfl⟩
    · cases h
  | list =>
    rw [next] at h
    split at h
    next now prev heq =>
      cases h
      rw [heq] at hphase
      exact ⟨le_rfl, fun id => .inr (.list (hphase.2 id) hphase.1 prev)⟩
    next => cases h
  | job id step =>
    obtain ⟨job, hallows, hjob, rfl⟩ := next_job h
    refine ⟨after_frame.2.ge, fun other => ?_⟩
    rw [put_jobs, after_frame.1]
    split_ifs with hother
    · subst hother
      refine .inr (moves_of_next hjob (fun row hstep => ?_) (fun now hstep => ?_) fun hc hstep => ?_)
      · rw [hstep, State.allows, Bool.and_eq_true, decide_eq_true_eq, decide_eq_true_eq] at hallows
        exact hs.fresh other hallows.2
      · rw [hstep, State.allows] at hallows
        split at hallows
        next tick busy heq =>
          rw [heq] at hphase
          rw [Bool.and_eq_true, decide_eq_true_eq] at hallows
          exact hallows.1 ▸ hphase.1
        next => cases hallows
      · exact (hC hc).1 hstep
    · exact .inl rfl

/-- Only a retry sets a schedule going on which nothing is under way. -/
theorem isOver_of_next {job job' : Job} (h : job.next t clock step = some job') (hover : job.pc.isOver = true)
    (hstep : ∀ now, step ≠ .retry now) : job'.pc.isOver = true := by
  obtain hpc | ⟨server, hpc⟩ : job.pc = .idle ∨ ∃ server, job.pc = .done server := by
    cases hpc : job.pc with
    | idle => exact .inl rfl
    | done server => exact .inr ⟨server, rfl⟩
    | _ =>
      rw [hpc] at hover
      cases hover
  all_goals
    cases step with
    | create row | delete =>
      cases h
      exact hover
    | retry now => exact absurd rfl (hstep now)
    | _ =>
      simp [Job.next, Job.start, Job.claim, Job.fail, Job.dispatch, Job.load, Job.finish, Job.record, Job.rollback,
        Job.conclude, hpc] at h

/-- There is no step of a schedule that never was, but its creation. -/
theorem next_empty {job : Job} (h : ({} : Job).next t clock step = some job) (hstep : ∀ row, step ≠ .create row) :
    job = {} := by
  cases step with
  | create row => exact absurd rfl (hstep row)
  | delete =>
    cases h
    rfl
  | _ => cases h

theorem update_pc {job : Job} (updated : Schedule) : (job.update updated).pc = job.pc := by
  rw [Job.update]
  cases job.row <;> rfl

/-- Nothing more is under way. -/
theorem State.PhaseOk.congr (h : s.PhaseOk) (hphase : s'.phase = s.phase) (hclock : s.clock ≤ s'.clock)
    (hover : ∀ id, (s.pc id).isOver = true → (s'.pc id).isOver = true) : s'.PhaseOk := by
  rw [State.PhaseOk] at h
  rw [State.PhaseOk, hphase]
  cases heq : s.phase with
  | idle =>
    rw [heq] at h
    exact fun id => hover id (h id)
  | polling now prev =>
    rw [heq] at h
    exact ⟨h.1.trans hclock, fun id => hover id (h.2 id)⟩
  | running now prev =>
    rw [heq] at h
    exact h.trans hclock
  | retrying now busy =>
    rw [heq] at h
    exact ⟨h.1.trans hclock, fun id => (h.2 id).imp_left (hover id)⟩

/-- The step of a schedule. -/
theorem State.Ok.next_job (hs : s.Ok) (h : Runner.next t s (.job id step) = some s') : s'.Ok := by
  have hphase := hs.phase
  obtain ⟨job, hallows, hjob, rfl⟩ := Runner.next_job h
  constructor
  · by_cases hretry : ∃ now, step = .retry now
    · obtain ⟨now, rfl⟩ := hretry
      rw [State.allows] at hallows
      split at hallows
      next tick busy heq =>
        rw [Bool.and_eq_true] at hallows
        rw [State.PhaseOk, heq] at hphase
        rw [State.after, heq]
        refine ⟨hphase.1, fun other => ?_⟩
        by_cases hother : other = id
        · exact .inr (hother ▸ rfl)
        · refine .inl ?_
          rw [State.pc, put_jobs, if_neg hother]
          rcases hphase.2 other with hover | hbusy
          · exact hover
          · exact Option.all_eq_true _ _ |>.mp hallows.2 other hbusy
      next => cases hallows
    · refine hphase.congr ?_ after_frame.2.ge fun other hover => ?_
      · cases step with
        | retry now => exact absurd ⟨now, rfl⟩ hretry
        | claim | record | dispatch | conclude =>
          rw [State.after]
          split_ifs <;> rfl
        | create | delete | start | fail | load | finish | rollback => rfl
      · rw [State.pc, put_jobs, after_frame.1]
        split_ifs with hother
        · subst hother
          exact isOver_of_next hjob hover fun now hstep => hretry ⟨now, hstep⟩
        · exact hover
  · intro other hother
    rw [put_jobs, after_frame.1]
    by_cases hcreate : ∃ row, step = .create row
    · obtain ⟨row, rfl⟩ := hcreate
      rw [if_neg (List.ne_of_not_mem_cons hother)]
      exact hs.fresh other (List.not_mem_of_not_mem_cons hother)
    · have hids : other ∉ s.ids := by
        have hids : (s.after id step).ids = s.ids := after_ids fun row hstep => hcreate ⟨row, hstep⟩
        exact hids ▸ hother
      split_ifs with heq
      · subst heq
        rw [hs.fresh other hids] at hjob
        exact next_empty hjob fun row hstep => hcreate ⟨row, hstep⟩
      · exact hs.fresh other hids

/-- **The process stays in order.** -/
theorem State.Ok.next (hs : s.Ok) (h : Runner.next t s a = some s') : s'.Ok := by
  have hphase := hs.phase
  cases a with
  | elapse d =>
    cases h
    exact ⟨hphase.congr rfl (Int.le_add_of_nonneg_right (Int.natCast_nonneg d)) fun _ => id, hs.fresh⟩
  | read k id =>
    obtain ⟨row, -, rfl⟩ := Option.map_eq_some_iff.mp h
    exact ⟨hs.phase, hs.fresh⟩
  | build k updated =>
    rw [Runner.next] at h
    split at h
    · split_ifs at h
      cases h
      exact ⟨hs.phase, hs.fresh⟩
    · cases h
  | write k =>
    rw [Runner.next] at h
    split at h
    next updated hedit =>
      cases h
      refine ⟨hphase.congr rfl le_rfl fun id hover => ?_, fun id hid => ?_⟩
      · rw [State.pc]
        rw [put_jobs]
        split_ifs with heq
        · rw [update_pc]
          exact heq ▸ hover
        · exact hover
      · rw [put_jobs]
        split_ifs with heq
        · rw [← heq, hs.fresh id hid]
          rfl
        · exact hs.fresh id hid
    next => cases h
  | begin =>
    rw [Runner.next] at h
    split at h
    next heq =>
      cases h
      rw [State.PhaseOk, heq] at hphase
      exact ⟨⟨le_rfl, hphase⟩, hs.fresh⟩
    next => cases h
  | list =>
    rw [Runner.next] at h
    split at h
    next now prev heq =>
      cases h
      rw [State.PhaseOk, heq] at hphase
      refine ⟨hphase.1, fun id hid => ?_⟩
      dsimp only
      rw [hs.fresh id hid]
      rfl
    next => cases h
  | unlisted =>
    rw [Runner.next] at h
    split at h
    next heq =>
      cases h
      rw [State.PhaseOk, heq] at hphase
      exact ⟨hphase.2, hs.fresh⟩
    next => cases h
  | job id step => exact hs.next_job h
  | retries =>
    rw [Runner.next] at h
    split at h
    next now prev heq =>
      split_ifs at h with hover
      cases h
      rw [State.PhaseOk, heq] at hphase
      refine ⟨⟨hphase, fun id => .inl ?_⟩, hs.fresh⟩
      by_cases hid : id ∈ s.ids
      · exact List.all_eq_true.mp hover id hid
      · rw [State.pc]
        dsimp only
        rw [hs.fresh id hid]
        rfl
    next => cases h
  | leave =>
    rw [Runner.next] at h
    split at h
    next now busy heq =>
      split_ifs at h with hover
      cases h
      rw [State.PhaseOk, heq] at hphase
      rw [Bool.and_eq_true] at hover
      refine ⟨fun id => ?_, hs.fresh⟩
      rcases hphase.2 id with h | hbusy
      · exact h
      · exact Option.all_eq_true _ _ |>.mp hover.1 id hbusy
    next => cases h

theorem State.start_ok (clock : Instant) (rows : List Schedule) : (State.start clock rows).Ok := by
  refine ⟨fun id => ?_, fun id hid => ?_⟩
  · rw [State.pc, State.start]
    dsimp only
    split <;> rfl
  · rw [State.start]
    dsimp only
    split
    · rfl
    next row hrow =>
      have hsame := List.find?_some hrow
      rw [decide_eq_true_eq] at hsame
      exact absurd (hsame ▸ List.mem_map_of_mem (List.mem_of_find?_eq_some hrow)) hid

/-- **The invariant rule of one schedule:** what holds of a schedule at the start, and is kept by time and by its moves,
holds along every run. -/
theorem invariant_of_moves {P : State → Action → Prop} (hP : ∀ s a, P s a → C → Booked a ∧ Careful s a)
    {I : Instant → Job → Prop} {rows : List Schedule} (hempty : I clock {})
    (hrow : ∀ row, I clock { row := some row })
    (hmono : ∀ clock clock' job, I clock job → clock ≤ clock' → I clock' job)
    (hmoves : ∀ clock job job', job.Ok clock → I clock job → Moves t C clock job job' → I clock job')
    (h : (runner t).Reach P (State.start clock rows) s) :
    s.Ok ∧ ∀ id, (s.jobs id).Ok s.clock ∧ I s.clock (s.jobs id) := by
  refine h.invariant (I := fun s => s.Ok ∧ ∀ id, (s.jobs id).Ok s.clock ∧ I s.clock (s.jobs id))
    ⟨State.start_ok clock rows, fun id => ?_⟩ fun s a ⟨hs, hjobs⟩ hpre hstep => ?_
  · rw [State.start]
    dsimp only
    split
    · exact ⟨trivial, hempty⟩
    next row _ => exact ⟨trivial, hrow row⟩
  · obtain ⟨s', hs'⟩ := Option.isSome_iff_exists.mp hpre
    have hpost : (runner t).post s a = s' := by
      change (next t s a).getD s = s'
      rw [hs', Option.getD_some]
    rw [hpost]
    obtain ⟨hclock, hmove⟩ := moves_of_next_state hs hs' (hP s a hstep)
    refine ⟨hs.next hs', fun id => ?_⟩
    rcases hmove id with heq | hmove
    · rw [heq]
      exact ⟨(hjobs id).1.mono hclock, hmono _ _ _ (hjobs id).2 hclock⟩
    · have hok := (hjobs id).1.moves hmove
      exact ⟨hok.mono hclock, hmono _ _ _ (hmoves _ _ _ (hjobs id).1 (hjobs id).2 hmove) hclock⟩

end Process

end McServerDashboard.Schedules.Runner
