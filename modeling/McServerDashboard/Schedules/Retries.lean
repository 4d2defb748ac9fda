import McServerDashboard.Schedules.Occurrences

/-!
# Retries and notifications

A failed backup is retried once, behind its delay, unless an occurrence has succeeded meanwhile; and of the failures in
a row the first is notified, with the success behind them.

* `armed`: the failure that waits for its retry, after all that has happened to a schedule.
* `Retried`, `Alternate`: what is expected of the retries and of the notifications.
* `Job.Tracked`: the invariant: the map of the retries and the set of the failing schedules are as the log says.
* **`retries_sound`**: every run, whatever is edited, and whichever of its transactions fail.
-/

namespace McServerDashboard.Schedules.Runner

open Lib Properties

variable {t : RunScheduleTick} {clock clock' : Instant} {job job' : Job} {log : List Event}

/-! ## What is expected -/

/-- The failure that is not yet retried, with no occurrence behind it that succeeded. -/
def armed : List Event → Option Instant
  | [] => none
  | .failed finishedAt :: _ => some finishedAt
  | .succeeded :: _ | .retried .. :: _ => none
  | .dispatched .. :: log | .handled .. :: log | .notified _ :: log => armed log

/-- The notifications, the newest first. -/
def notifications (log : List Event) : List Notification :=
  log.filterMap fun
    | .notified kind => some kind
    | _ => none

/-- Every retry is one of an armed failure, behind its delay, of a row that is an enabled backup. -/
def Retried (delay : ℤ) : List Event → Prop
  | [] => True
  | .retried current now :: log =>
    (current.enabled = true ∧ current.action = .backup ∧ ∃ failedAt, armed log = some failedAt ∧ failedAt + delay ≤ now) ∧
      Retried delay log
  | _ :: log => Retried delay log

/-- Failures and recoveries take turns, and a failure is the first. -/
def Alternate : List Notification → Prop
  | [] => True
  | [kind] => kind = .failed
  | kind :: earlier :: kinds => kind ≠ earlier ∧ Alternate (earlier :: kinds)

/-! ## The invariant -/

/-- A retry that was begun is of an armed failure, and is no longer in the map. -/
def Begun (delay : ℤ) (clock : Instant) (log : List Event) (retry : Option Instant) : Pc → Prop
  | .starting .retry | .claimed .retry _ =>
    retry = none ∧ ∃ failedAt, armed log = some failedAt ∧ failedAt + delay ≤ clock
  | _ => True

/-- A success is recorded, and its conclusion will drop the retry. -/
def Pc.drops : Pc → Bool
  | .recorded (.due d _) result _ _ => result.outcome = .success && d.schedule.action = .backup
  | _ => false

/-- Nothing more happens to the schedule. -/
def Job.IsGone (job : Job) : Prop := job.row = none ∧ job.retry = none ∧ job.pc.isOver = true

/-- The failing schedules are the ones whose last notification is a failure. -/
def Job.Failing (job : Job) : Prop := job.notifying = true ↔ (notifications job.log).head? = some .failed

structure Job.Tracked (t : RunScheduleTick) (clock : Instant) (job : Job) : Prop where
  pending : ∀ retryAt, job.retry = some retryAt → job.pc.drops = true ∨
    ∃ failedAt, armed job.log = some failedAt ∧ retryAt = failedAt + t.backupRetryDelay
  begun : Begun t.backupRetryDelay clock job.log job.retry job.pc
  retried : Retried t.backupRetryDelay job.log
  failing : job.Failing ∨ job.IsGone
  alternate : Alternate (notifications job.log)

namespace Job.Tracked

theorem empty (row : Option Schedule) : Job.Tracked t clock { row } where
  pending := nofun
  begun := trivial
  retried := trivial
  failing := .inl (by simp [Job.Failing, notifications])
  alternate := trivial

/-- While the run of the schedule goes on, it is not gone. -/
theorem failing_of_pc (h : job.Tracked t clock) {pc : Pc} (hpc : job.pc = pc) (hover : pc.isOver = false) :
    job.Failing := by
  refine h.failing.resolve_right fun hgone => ?_
  rw [IsGone, hpc, hover] at hgone
  exact Bool.false_ne_true hgone.2.2

/-- A retry that waits is of the armed failure, where no success is being concluded. -/
theorem pending_of_pc (h : job.Tracked t clock) {pc : Pc} (hpc : job.pc = pc) (hdrops : pc.drops = false)
    (retryAt : Instant) (hretry : job.retry = some retryAt) :
    ∃ failedAt, armed job.log = some failedAt ∧ retryAt = failedAt + t.backupRetryDelay := by
  refine (h.pending retryAt hretry).resolve_left ?_
  rw [hpc, hdrops]
  exact Bool.false_ne_true

/-- The run stands elsewhere, and what is logged is no matter of the retries. -/
theorem stand (h : job.Tracked t clock) {pc pc' : Pc} (hpc : job.pc = pc) (hover : pc.isOver = false)
    (hdrops : pc.drops = false) (harmed : armed log = armed job.log)
    (hretried : Retried t.backupRetryDelay job.log → Retried t.backupRetryDelay log)
    (hnotifications : notifications log = notifications job.log)
    (hbegun : Begun t.backupRetryDelay clock log job.retry pc') : Job.Tracked t clock { job with pc := pc', log } where
  pending retryAt hretry := .inr (harmed ▸ h.pending_of_pc hpc hdrops retryAt hretry)
  begun := hbegun
  retried := hretried h.retried
  failing := by
    refine .inl ?_
    rw [Failing]
    dsimp only
    rw [hnotifications]
    exact h.failing_of_pc hpc hover
  alternate := by
    dsimp only
    exact hnotifications ▸ h.alternate

/-- The run stands elsewhere. -/
theorem rest (h : job.Tracked t clock) {pc pc' : Pc} (hpc : job.pc = pc) (hover : pc.isOver = false)
    (hdrops : pc.drops = false) (hbegun : Begun t.backupRetryDelay clock job.log job.retry pc') :
    Job.Tracked t clock { job with pc := pc' } :=
  h.stand hpc hover hdrops rfl id rfl hbegun

/-- Its row is gone, and it is forgotten. -/
theorem forget (job : Job) (hrow : job.row = none) (hretried : Retried t.backupRetryDelay job.log)
    (halternate : Alternate (notifications job.log)) (server : Option ServerId) :
    Job.Tracked t clock { job.forget with pc := .done server } where
  pending := nofun
  begun := trivial
  retried := hretried
  failing := .inr ⟨hrow, rfl, rfl⟩
  alternate := halternate

/-- The notifications take turns. -/
theorem notify (hfailing : job.Failing) (halternate : Alternate (notifications job.log)) (outcome : Outcome) :
    (job.notify outcome).Failing ∧ Alternate (notifications (job.notify outcome).log) := by
  rw [Job.Failing] at hfailing
  cases outcome with
  | success =>
    rw [Job.notify]
    split_ifs with hn
    · have hhead := hfailing.mp hn
      refine ⟨by simp [Job.Failing, notifications], ?_⟩
      obtain ⟨kinds, hkinds⟩ := List.head?_eq_some_iff.mp hhead
      change Alternate (.recovered :: notifications job.log)
      rw [hkinds] at halternate ⊢
      exact ⟨(fun h => by cases h), halternate⟩
    · exact ⟨hfailing, halternate⟩
  | failure =>
    rw [Job.notify]
    split_ifs with hn
    · exact ⟨hfailing, halternate⟩
    · have hhead := mt hfailing.mpr hn
      refine ⟨by simp [Job.Failing, notifications], ?_⟩
      change Alternate (.failed :: notifications job.log)
      cases hkinds : notifications job.log with
      | nil => rfl
      | cons kind kinds =>
        rw [hkinds] at hhead halternate
        exact ⟨fun heq => hhead (congrArg some heq.symm), halternate⟩
  | skipped => exact ⟨hfailing, halternate⟩

/-- A notification is no matter of the retries. -/
theorem notify_frame (t : RunScheduleTick) (job : Job) (outcome : Outcome) :
    (job.notify outcome).row = job.row ∧ (job.notify outcome).retry = job.retry ∧
    armed (job.notify outcome).log = armed job.log ∧
      (Retried t.backupRetryDelay job.log → Retried t.backupRetryDelay (job.notify outcome).log) := by
  cases outcome with
  | success | failure =>
    rw [Job.notify]
    split_ifs <;> exact ⟨rfl, rfl, rfl, id⟩
  | skipped => exact ⟨rfl, rfl, rfl, id⟩

/-- A run is concluded. -/
theorem conclude (hok : job.Ok clock) (h : job.Tracked t clock) {run : Run} {result : ActionResult}
    {finishedAt : Instant} {recorded : Bool} (hpc : job.pc = .recorded run result finishedAt recorded)
    (server : Option ServerId) :
    Job.Tracked t clock { job.concluded t run result finishedAt recorded with pc := .done server } := by
  obtain ⟨hfailing, halternate⟩ := notify (h.failing_of_pc hpc rfl) h.alternate result.outcome
  obtain ⟨hrow, hretry, harmed, hretried⟩ := notify_frame t job result.outcome
  rw [Job.Ok, hpc] at hok
  cases recorded with
  | false => exact forget (job.notify result.outcome) (hrow.trans (hok rfl)) (hretried h.retried) halternate server
  | true =>
    -- What waits is of the armed failure, but behind the success of an occurrence.
    have hpending (hdrops : (Pc.recorded run result finishedAt true).drops = false) (retryAt : Instant)
        (hwaits : (job.notify result.outcome).retry = some retryAt) :
        ∃ failedAt, armed (job.notify result.outcome).log = some failedAt ∧ retryAt = failedAt + t.backupRetryDelay := by
      rw [harmed]
      exact h.pending_of_pc hpc hdrops retryAt (hretry ▸ hwaits)
    simp only [Job.concluded, reduceIte, Bool.true_and]
    split_ifs with hbackup
    · rw [Job.rescheduleRetry]
      split_ifs with hfailed hsucceeded
      · refine ⟨fun retryAt hwaits => .inr ⟨finishedAt, rfl, ?_⟩, trivial, hretried h.retried, .inl hfailing, halternate⟩
        exact (Option.some.inj hwaits).symm
      · exact ⟨(fun _ h => by cases h), trivial, hretried h.retried, .inl hfailing, halternate⟩
      · refine ⟨fun retryAt hwaits => .inr (hpending ?_ retryAt hwaits), trivial, hretried h.retried, .inl hfailing,
          halternate⟩
        cases run with
        | due d lastRunAt => simp [Pc.drops, hsucceeded]
        | retry schedule => rfl
    · refine ⟨fun retryAt hwaits => .inr (hpending ?_ retryAt hwaits), trivial, hretried h.retried, .inl hfailing,
        halternate⟩
      cases run with
      | due d lastRunAt =>
        rw [Run.isRetry, Bool.not_false, Bool.true_and, decide_eq_true_eq] at hbackup
        simp [Pc.drops, show ¬ d.schedule.action = .backup from hbackup]
      | retry schedule => rfl

/-- **A move keeps it**, whatever may be edited, and whatever may fail. -/
theorem moves {C : Prop} (hok : job.Ok clock) (h : job.Tracked t clock) (hmove : Moves t C clock job job') :
    job'.Tracked t clock := by
  cases hmove with
  | create hnew row =>
    subst hnew
    exact empty (some row)
  | update =>
    rw [Job.update]
    cases hrow : job.row with
    | none => exact h
    | some row => exact ⟨h.pending, h.begun, h.retried, h.failing.imp_right fun hgone => by simp [IsGone, hrow] at hgone,
        h.alternate⟩
  | delete => exact ⟨h.pending, h.begun, h.retried, h.failing.imp_right fun hgone => ⟨rfl, hgone.2⟩, h.alternate⟩
  | list hover _ prev =>
    have hpending (retryAt : Instant) (hretry : job.retry = some retryAt) :
        ∃ failedAt, armed job.log = some failedAt ∧ retryAt = failedAt + t.backupRetryDelay := by
      refine h.pending_of_pc rfl ?_ retryAt hretry
      cases hpc : job.pc with
      | recorded =>
        rw [hpc] at hover
        cases hover
      | _ => rfl
    rw [Job.list]
    cases hrow : job.row with
    | none =>
      exact ⟨fun retryAt hretry => .inr (hpending retryAt hretry), trivial, h.retried,
        h.failing.imp_right fun hgone => ⟨rfl, hgone.2.1, rfl⟩, h.alternate⟩
    | some row =>
      have hfailing : job.Failing := h.failing.resolve_right fun hgone => by simp [IsGone, hrow] at hgone
      dsimp only
      split_ifs <;> exact ⟨fun retryAt hretry => .inr (hpending retryAt hretry), trivial, h.retried, .inl hfailing,
        h.alternate⟩
  | stale hpc | start hpc | execute hpc | refused hpc | raised hpc | skipped hpc | dispatchedRetry hpc =>
    exact h.rest hpc rfl rfl trivial
  | @claim o hpc =>
    have hbegun := h.begun
    rw [hpc] at hbegun
    cases o with
    | due d => exact h.rest hpc rfl rfl trivial
    | retry => exact h.rest hpc rfl rfl hbegun
  | @fail o hpc => cases o <;> exact h.rest hpc rfl rfl trivial
  | gone hpc server =>
    rw [Job.Ok, hpc] at hok
    exact forget (job.handled clock _) (hok.2.2.1 rfl) h.retried h.alternate server
  | changed hpc | dispatched hpc => exact h.stand hpc rfl rfl rfl id rfl trivial
  | goneRetry hpc =>
    rw [Job.Ok, hpc] at hok
    exact forget job (hok rfl) h.retried h.alternate none
  | retry hpc henabled haction =>
    have hbegun := h.begun
    rw [hpc] at hbegun
    obtain ⟨hretry, hfailed⟩ := hbegun
    refine ⟨fun retryAt hwaits => ?_, trivial, ⟨⟨henabled, haction, hfailed⟩, h.retried⟩, .inl ?_, h.alternate⟩
    · rw [hretry] at hwaits
      cases hwaits
    · exact h.failing_of_pc hpc rfl
  | finish hpc | recordRetry hpc | rollback hpc => exact h.rest hpc rfl rfl trivial
  | @record d lastRunAt result finishedAt hpc =>
    have hfailing := h.failing_of_pc hpc rfl
    split_ifs with hdrops
    · exact ⟨fun _ _ => .inl hdrops, trivial, h.retried, .inl hfailing, h.alternate⟩
    · exact ⟨fun retryAt hretry => .inr (h.pending_of_pc hpc rfl retryAt hretry), trivial, h.retried, .inl hfailing,
        h.alternate⟩
  | conclude hpc server => exact h.conclude hok hpc server
  | retryDue hpc hretry hdue =>
    obtain ⟨failedAt, hfailed, rfl⟩ := h.pending_of_pc hpc rfl _ hretry
    refine ⟨(fun _ h => by cases h), ⟨rfl, failedAt, hfailed, hdue⟩, h.retried, .inl (h.failing.resolve_right fun hgone => ?_), h.alternate⟩
    rw [IsGone, hretry] at hgone
    cases hgone.2.1

/-- Time goes on. -/
theorem mono (h : job.Tracked t clock) (hle : clock ≤ clock') : job.Tracked t clock' where
  pending := h.pending
  begun := by
    have hbegun := h.begun
    cases hpc : job.pc with
    | starting o | claimed o _ =>
      rw [hpc] at hbegun
      cases o with
      | due d => trivial
      | retry =>
        obtain ⟨hretry, failedAt, hfailed, hdue⟩ := hbegun
        exact ⟨hretry, failedAt, hfailed, hdue.trans hle⟩
    | _ => trivial
  retried := h.retried
  failing := h.failing
  alternate := h.alternate

end Job.Tracked

/-- **A failed backup is retried once at most, and the notifications take turns**, in every run: whatever is edited, and
whichever transactions fail. -/
theorem retries_sound {rows : List Schedule} {s : State} (h : (runner t).Reach Machine.Any (State.start clock rows) s)
    (id : ScheduleId) :
    Retried t.backupRetryDelay (s.jobs id).log ∧ Alternate (notifications (s.jobs id).log) := by
  have htracked : Job.Tracked t s.clock (s.jobs id) :=
    ((invariant_of_moves (C := False) (I := Job.Tracked t) (fun _ _ _ hC => hC.elim) (.empty none)
      (fun row => .empty (some row)) (fun _ _ _ hjob hle => hjob.mono hle)
      (fun _ _ _ hok htracked hmove => htracked.moves hok hmove) h).2 id).2
  exact ⟨htracked.retried, htracked.alternate⟩

theorem minIntervalSeconds_le_day : minIntervalSeconds ≤ 86400 := by decide

/-- A daily backup. -/
def backup : Schedule where
  id := 1
  serverId := 1
  action := .backup
  cadence := .interval 86400 minIntervalSeconds_le_day
  timezone := str "UTC"
  enabled := true
  command := none
  warningSteps := []
  onlyWhenRunning := some true
  nextRunAt := some (seconds 86400)
  lastRunAt := none
  carriesLine := by rw [if_neg (by decide)]
  warns := nofun
  gated := rfl
  few := by decide
  distinct := by decide
  undue := nofun

theorem retries_sound_backup : ∃ s,
    (runner clockwork).Reach Machine.Any (.start (seconds 86400) [backup]) s ∧
      notifications (s.jobs 1).log = [.recovered, .failed] ∧ armed (s.jobs 1).log = none ∧
      Retried (seconds 1800) (s.jobs 1).log ∧ Alternate (notifications (s.jobs 1).log) := by
  have hrun : ((runner clockwork).exec (tickOnce ⟨.failure, true⟩ ++ [.elapse 1800000000, .begin, .list, .retries,
      .job 1 (.retry (seconds 88200)), .job 1 .claim, .job 1 .dispatch, .job 1 (.load .dispatched),
      .job 1 (.finish ⟨.success, true⟩), .job 1 .record, .job 1 .conclude, .leave])
      (.start (seconds 86400) [backup])).map (fun s => (notifications (s.jobs 1).log, armed (s.jobs 1).log)) =
        some ([.recovered, .failed], none) := by decide +kernel
  obtain ⟨s, hs, hlog⟩ := Machine.reach_of_exec_map hrun
  obtain ⟨hnotified, harmed⟩ := Prod.mk.inj hlog
  exact ⟨s, hs, hnotified, harmed, retries_sound hs 1⟩

end McServerDashboard.Schedules.Runner
