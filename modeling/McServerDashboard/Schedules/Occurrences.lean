import McServerDashboard.Schedules.Moves

/-!
# Occurrences

Each occurrence of a schedule is dispatched once at most, in time, and left behind when it is handled, if no edit that
read the clock before the dispatch writes behind the advance.

* `Sound`: what is expected of the occurrences of a schedule, over all that has happened to it.
* `Job.Once`: the invariant: an occurrence that was dispatched is under way, or it is no longer the next one.
* **`occurrences_sound`**: they are as expected, in every run whose edits put no occurrence back.
-/

namespace McServerDashboard.Schedules.Runner

open Lib

/-- What is expected of the occurrences of a schedule. -/
structure Sound (log : List Event) : Prop where
  /-- No occurrence is dispatched twice. -/
  once : (occurrences log).Nodup
  /-- The row that was read under its lock is enabled, and has that occurrence. -/
  locked : ∀ d current, .dispatched d current ∈ log →
    current.enabled = true ∧ current.nextRunAt = d.schedule.nextRunAt
  /-- It was at most the grace old, or became due after the previous tick began. -/
  timely : ∀ d current, .dispatched d current ∈ log → d.schedule.action ≠ .backup →
    ∃ next, d.schedule.nextRunAt = some next ∧
      (d.now - next ≤ lateRunGrace ∨ ∃ prev, d.prev = some prev ∧ prev < next)
  /-- When an occurrence is handled, the row was edited or deleted, or the next one is later. -/
  handled : ∀ edited row (now : Instant), .handled edited row now ∈ log →
    edited = true ∨ row = none ∨ ∃ r next, row = some r ∧ r.nextRunAt = some next ∧ now < next

/-- An event that is neither a dispatch nor an occurrence handled. -/
def Event.isOther : Event → Bool
  | .dispatched .. | .handled .. => false
  | _ => true

/-- An occurrence that is about to be dispatched was not dispatched before. -/
def Undispatched (log : List Event) : Pc → Prop
  | .claimed (.due d) (some current) =>
    current.nextRunAt = d.schedule.nextRunAt → d.schedule.nextRunAt ∉ occurrences log
  | .loading (.due d _) _ => d.schedule.nextRunAt ∉ occurrences log
  | _ => True

structure Job.Once (clock : Instant) (job : Job) : Prop where
  /-- An occurrence that was dispatched is in the past. -/
  past : ∀ next, some next ∈ occurrences job.log → next ≤ clock
  /-- It is under way, or it is not the next one. -/
  spent : ∀ next, some next ∈ occurrences job.log → job.pc.inFlight next = true ∨
    ∀ r, job.row = some r → r.nextRunAt ≠ some next
  undispatched : Undispatched job.log job.pc
  sound : Sound job.log

variable {t : RunScheduleTick} {clock clock' : Instant} {job job' : Job} {log events : List Event}

theorem inFlight_of_isOver {pc : Pc} (hover : pc.isOver = true) (next : Instant) : pc.inFlight next = false := by
  cases pc with
  | idle | done => rfl
  | _ => cases hover

/-! ## The log -/

theorem occurrences_append (h : ∀ e ∈ events, e.isOther = true) : occurrences (events ++ log) = occurrences log := by
  rw [occurrences, List.filterMap_append, List.filterMap_eq_nil_iff.mpr, List.nil_append, occurrences]
  intro e he
  have hother := h e he
  cases e with
  | dispatched | handled => cases hother
  | failed | succeeded | retried | notified => rfl

namespace Sound

theorem nil : Sound [] where
  once := List.nodup_nil
  locked _ _ hmem := absurd hmem List.not_mem_nil
  timely _ _ hmem := absurd hmem List.not_mem_nil
  handled _ _ _ hmem := absurd hmem List.not_mem_nil

theorem append (hs : Sound log) (h : ∀ e ∈ events, e.isOther = true) : Sound (events ++ log) where
  once := by
    rw [occurrences_append h]
    exact hs.once
  locked d current hmem := by
    rcases List.mem_append.mp hmem with hmem | hmem
    · cases h _ hmem
    · exact hs.locked d current hmem
  timely d current hmem := by
    rcases List.mem_append.mp hmem with hmem | hmem
    · cases h _ hmem
    · exact hs.timely d current hmem
  handled edited row now hmem := by
    rcases List.mem_append.mp hmem with hmem | hmem
    · cases h _ hmem
    · exact hs.handled edited row now hmem

/-- An occurrence is handled. -/
theorem cons_handled (hs : Sound log) {edited : Bool} {row : Option Schedule} {now : Instant}
    (h : edited = true ∨ row = none ∨ ∃ r next, row = some r ∧ r.nextRunAt = some next ∧ now < next) :
    Sound (.handled edited row now :: log) where
  once := hs.once
  locked d current hmem := hs.locked d current ((List.mem_cons.mp hmem).resolve_left nofun)
  timely d current hmem := hs.timely d current ((List.mem_cons.mp hmem).resolve_left nofun)
  handled edited' row' now' hmem := by
    rcases List.mem_cons.mp hmem with heq | hmem
    · cases heq
      exact h
    · exact hs.handled edited' row' now' hmem

/-- An occurrence is dispatched. -/
theorem cons_dispatched (hs : Sound log) {d : Due} {current : Schedule} (hnew : d.schedule.nextRunAt ∉ occurrences log)
    (hlocked : current.enabled = true ∧ current.nextRunAt = d.schedule.nextRunAt)
    (htimely : d.schedule.action ≠ .backup → ∃ next, d.schedule.nextRunAt = some next ∧
      (d.now - next ≤ lateRunGrace ∨ ∃ prev, d.prev = some prev ∧ prev < next)) :
    Sound (.dispatched d current :: log) where
  once := List.nodup_cons.mpr ⟨hnew, hs.once⟩
  locked d' current' hmem := by
    rcases List.mem_cons.mp hmem with heq | hmem
    · cases heq
      exact hlocked
    · exact hs.locked d' current' hmem
  timely d' current' hmem := by
    rcases List.mem_cons.mp hmem with heq | hmem
    · cases heq
      exact htimely
    · exact hs.timely d' current' hmem
  handled edited row now hmem := hs.handled edited row now ((List.mem_cons.mp hmem).resolve_left nofun)

end Sound

/-- An occurrence that is not stale is in time. -/
theorem timely_of_not_stale {d : Due} (h : d.Ok clock job.version job.row) (hstale : isStale d = false) :
    ∃ next, d.schedule.nextRunAt = some next ∧
      (d.now - next ≤ lateRunGrace ∨ ∃ prev, d.prev = some prev ∧ prev < next) := by
  obtain ⟨next, hnext, -⟩ := h.next
  refine ⟨next, hnext, ?_⟩
  rw [isStale, hnext] at hstale
  dsimp only at hstale
  split_ifs at hstale with hgrace hprev
  · exact .inl hgrace
  · obtain ⟨prev, hsome, hlt⟩ := (Option.any_eq_true _ _).mp hprev
    exact .inr ⟨prev, hsome, of_decide_eq_true hlt⟩

/-- The advance moves on the row that has the occurrence, and no other. -/
theorem advance_cases (t : RunScheduleTick) (clock : Instant) {d : Due} {fired : Instant} (hfired : d.schedule.nextRunAt = some fired)
    (lastRunAt : Option Instant) (row : Schedule) :
    (row.nextRunAt = some fired ∧
        (Job.advance t clock d lastRunAt row).nextRunAt = some (nextAfter t d.schedule clock)) ∨
      row.nextRunAt ≠ some fired ∧ Job.advance t clock d lastRunAt row = row := by
  rw [Job.advance, hfired]
  dsimp only
  rw [Job.advanceRunState]
  split_ifs with h
  · exact .inl ⟨h.2, rfl⟩
  · refine .inr ⟨fun hnext => h ⟨?_, hnext⟩, rfl⟩
    cases hen : row.enabled with
    | true => rfl
    | false => cases hnext.symm.trans (row.undue hen)

/-- Behind the advance, no occurrence that is past is the next one, but one that the row did not have. -/
theorem advance_ne {d : Due} (h : d.Ok clock job.version job.row) {next : Instant} (hpast : next ≤ clock)
    (hspent : d.schedule.nextRunAt = some next ∨ ∀ r, job.row = some r → r.nextRunAt ≠ some next)
    (lastRunAt : Option Instant) {r : Schedule} (hr : job.row.map (Job.advance t clock d lastRunAt) = some r) :
    r.nextRunAt ≠ some next := by
  obtain ⟨row, hrow, rfl⟩ := Option.map_eq_some_iff.mp hr
  obtain ⟨fired, hfired, -⟩ := h.next
  rcases advance_cases t clock hfired lastRunAt row with ⟨-, hnext⟩ | ⟨hne, heq⟩
  · rw [hnext]
    exact fun h => absurd (Option.some.inj h) (hpast.trans_lt (lt_nextAfter t d.schedule clock)).ne'
  · rw [heq]
    rcases hspent with hsame | hother
    · exact hsame ▸ hfired ▸ hne
    · exact hother row hrow

/-- The occurrence that is recorded is left behind: the row was edited or deleted, or its next one is later. -/
theorem advance_handled {d : Due} (h : d.Ok clock job.version job.row) (lastRunAt : Option Instant) :
    decide (job.version ≠ d.version) = true ∨ job.row.map (Job.advance t clock d lastRunAt) = none ∨
      ∃ r next, job.row.map (Job.advance t clock d lastRunAt) = some r ∧ r.nextRunAt = some next ∧ clock < next := by
  by_cases hversion : job.version = d.version
  · refine .inr ?_
    cases hrow : job.row with
    | none => exact .inl rfl
    | some row =>
      obtain ⟨fired, hfired, -⟩ := h.next
      have hsame : row = d.schedule := h.same hversion.symm row hrow
      refine .inr ⟨_, _, rfl, ?_, lt_nextAfter t d.schedule clock⟩
      rcases advance_cases t clock hfired lastRunAt row with ⟨-, hnext⟩ | ⟨hne, -⟩
      · exact hnext
      · exact absurd (hsame ▸ hfired) hne
  · exact .inl (decide_eq_true hversion)

/-- A notification is neither a dispatch nor an occurrence handled. -/
theorem notify_log (job : Job) (outcome : Outcome) :
    ∃ events, (job.notify outcome).log = events ++ job.log ∧ ∀ e ∈ events, e.isOther = true := by
  cases outcome with
  | success =>
    rw [Job.notify]
    split_ifs
    · exact ⟨[.notified .recovered], rfl, by simp [Event.isOther]⟩
    · exact ⟨[], rfl, List.forall_mem_nil _⟩
  | failure =>
    rw [Job.notify]
    split_ifs
    · exact ⟨[], rfl, List.forall_mem_nil _⟩
    · exact ⟨[.notified .failed], rfl, by simp [Event.isOther]⟩
  | skipped => exact ⟨[], rfl, List.forall_mem_nil _⟩

theorem rescheduleRetry_log (t : RunScheduleTick) (job : Job) (result : ActionResult) (now : Instant) :
    ∃ events, (job.rescheduleRetry t result now).log = events ++ job.log ∧ ∀ e ∈ events, e.isOther = true := by
  rw [Job.rescheduleRetry]
  split_ifs
  · exact ⟨[.failed now], rfl, by simp [Event.isOther]⟩
  · exact ⟨[], rfl, List.forall_mem_nil _⟩
  · exact ⟨[], rfl, List.forall_mem_nil _⟩

theorem concluded_log (t : RunScheduleTick) (job : Job) (run : Run) (result : ActionResult) (finishedAt : Instant)
    (recorded : Bool) :
    ∃ events, (job.concluded t run result finishedAt recorded).log = events ++ job.log ∧
      ∀ e ∈ events, e.isOther = true := by
  obtain ⟨events, hlog, hother⟩ := notify_log job result.outcome
  cases recorded with
  | false => exact ⟨events, hlog, hother⟩
  | true =>
    simp only [Job.concluded, reduceIte]
    split_ifs
    · obtain ⟨more, hmore, hothers⟩ := rescheduleRetry_log t (job.notify result.outcome) result finishedAt
      refine ⟨more ++ events, ?_, fun e he => (List.mem_append.mp he).elim (hothers e) (hother e)⟩
      rw [List.append_assoc, ← hlog]
      exact hmore
    · exact ⟨events, hlog, hother⟩

/-! ## The invariant -/

namespace Job.Once

/-- The run stands elsewhere, and no occurrence is in flight that was not. -/
theorem stand (h : job.Once clock) {pc : Pc} (hpc : ∀ next, job.pc.inFlight next = true → pc.inFlight next = true)
    (hun : Undispatched job.log pc) {retry : Option Instant} {notifying : Bool} :
    Job.Once clock { job with pc, retry, notifying } where
  past := h.past
  spent next hnext := (h.spent next hnext).imp_left (hpc next)
  undispatched := hun
  sound := h.sound

/-- Nothing was in flight. -/
theorem rest (h : job.Once clock) {pc pc' : Pc} (hpc : job.pc = pc) (hflight : ∀ next, pc.inFlight next = false)
    (hun : Undispatched job.log pc') {retry : Option Instant} {notifying : Bool} :
    Job.Once clock { job with pc := pc', retry, notifying } := by
  refine h.stand (fun next hnext => ?_) hun
  rw [hpc, hflight next] at hnext
  cases hnext

/-- The log grows by what is neither a dispatch nor an occurrence handled. -/
theorem others (h : job.Once clock) {pc : Pc} (hpc : ∀ next, job.pc.inFlight next = true → pc.inFlight next = true)
    (hun : Undispatched job.log pc) {retry : Option Instant} {notifying : Bool}
    (hother : ∀ e ∈ events, e.isOther = true) :
    Job.Once clock { job with pc, retry, notifying, log := events ++ job.log } where
  past next hnext := h.past next (occurrences_append hother ▸ hnext)
  spent next hnext := (h.spent next (occurrences_append hother ▸ hnext)).imp_left (hpc next)
  undispatched := by
    cases pc with
    | claimed o current =>
      cases o with
      | due d =>
        cases current with
        | none => trivial
        | some c =>
          intro hsame hmem
          rw [occurrences_append hother] at hmem
          exact hun hsame hmem
      | retry => trivial
    | loading run current =>
      cases run with
      | due d _ =>
        intro hmem
        rw [occurrences_append hother] at hmem
        exact hun hmem
      | retry _ => trivial
    | _ => trivial
  sound := h.sound.append hother

/-- The claim is refused: the occurrence is handled. -/
theorem refuse (h : job.Once clock) {d : Due} {current : Option Schedule} (hpc : job.pc = .claimed (.due d) current)
    (hhandled : decide (job.version ≠ d.version) = true ∨ job.row = none) {server : Option ServerId}
    {retry : Option Instant} {notifying : Bool} :
    Job.Once clock { job.handled clock d with pc := .done server, retry, notifying } where
  past := h.past
  spent next hnext := .inr ((h.spent next hnext).resolve_left (by rw [hpc]; exact Bool.false_ne_true))
  undispatched := trivial
  sound := h.sound.cons_handled (hhandled.imp_right .inl)

/-- A job whose row is gone has no next occurrence. -/
theorem not_next {row : Option Schedule} {next : Instant} (hrow : row = none) :
    ∀ r, row = some r → r.nextRunAt ≠ some next := fun r hr =>
  absurd (hrow.symm.trans hr).symm (Option.some_ne_none r)

/-- **A move keeps it**, where no edit puts an occurrence back and no record fails. -/
theorem moves (hok : job.Ok clock) (h : job.Once clock) (hmove : Moves t True clock job job') : job'.Once clock := by
  have hpcOk := hok
  rw [Job.Ok] at hpcOk
  cases hmove with
  | create hnew row =>
    subst hnew
    exact ⟨(fun _ h => by cases h), (fun _ h => by cases h), trivial, Sound.nil⟩
  | @update updated hback =>
    rw [Job.update]
    cases hrow : job.row with
    | none => exact h
    | some row =>
      refine ⟨h.past, fun next hnext => ?_, h.undispatched, h.sound⟩
      by_cases hflight : job.pc.inFlight next = true
      · exact .inl hflight
      · refine .inr fun r hr heq => hback trivial ⟨hrow ▸ Option.some_ne_none _, next, ?_, hnext, Bool.eq_false_iff.mpr hflight⟩
        exact Option.some.inj hr ▸ heq
  | delete => exact ⟨h.past, fun _ _ => .inr (not_next rfl), h.undispatched, h.sound⟩
  | list hover _ prev =>
    have hspent (next : Instant) (hnext : some next ∈ occurrences job.log) (r : Schedule) (hr : job.row = some r) :
        r.nextRunAt ≠ some next := by
      refine (h.spent next hnext).resolve_left (fun hflight => ?_) r hr
      rw [inFlight_of_isOver hover] at hflight
      cases hflight
    rw [Job.list]
    cases hrow : job.row with
    | none => exact ⟨h.past, fun _ _ => .inr (not_next rfl), trivial, h.sound⟩
    | some row =>
      dsimp only
      split_ifs
      · exact ⟨h.past, fun next hnext => .inr (hrow ▸ hspent next hnext), trivial, h.sound⟩
      · exact ⟨h.past, fun next hnext => .inr (hrow ▸ hspent next hnext), trivial, h.sound⟩
  | stale hpc | start hpc | fail hpc | goneRetry hpc | refused hpc | raised hpc | skipped hpc | dispatchedRetry hpc =>
    exact h.rest hpc (fun _ => rfl) (by trivial)
  | @claim o hpc =>
    have hflight (next : Instant) : job.pc.inFlight next ≠ true := by
      rw [hpc]
      exact Bool.false_ne_true
    refine h.stand (fun next hnext => absurd hnext (hflight next)) ?_
    cases o with
    | retry => trivial
    | due d =>
      cases hrow : job.row with
      | none => trivial
      | some row =>
        intro hsame hmem
        rw [hpc] at hpcOk
        obtain ⟨next, hnext, -⟩ := hpcOk.1.next
        rw [hnext] at hmem
        exact (h.spent next hmem).resolve_left (hflight next) row hrow (hsame.trans hnext)
  | gone hpc =>
    rw [hpc] at hpcOk
    exact h.refuse hpc (.inr (hpcOk.2.2.1 rfl))
  | @changed d current hpc hchanged =>
    refine h.refuse hpc (.inl (decide_eq_true fun hversion => ?_))
    -- A row that was not edited is still enabled, and has the occurrence.
    rw [hpc] at hpcOk
    have hsame : current = d.schedule := hpcOk.2.2.2 current rfl hversion.symm
    exact hchanged (hsame ▸ hpcOk.1.enabled) (hsame ▸ rfl)
  | execute hpc henabled hsame =>
    have hun := h.undispatched
    rw [hpc] at hun
    exact h.rest hpc (fun _ => rfl) (by exact hun hsame)
  | @retry current hpc =>
    have hother : ∀ e ∈ [Event.retried current clock], e.isOther = true := by simp [Event.isOther]
    refine h.others (fun next hflight => ?_) (by trivial) hother
    rw [hpc] at hflight
    cases hflight
  | @dispatched d lastRunAt current hpc =>
    have hun := h.undispatched
    rw [hpc] at hpcOk hun
    obtain ⟨hd, htimely, henabled, hsame⟩ := hpcOk
    obtain ⟨fired, hfired, hle⟩ := hd.next
    refine ⟨fun next hnext => ?_, fun next hnext => ?_, trivial, ?_⟩
    · rcases List.mem_cons.mp hnext with heq | hnext
      · rw [hfired] at heq
        exact Option.some.inj heq ▸ hle
      · exact h.past next hnext
    · rcases List.mem_cons.mp hnext with heq | hnext
      · exact .inl (decide_eq_true heq.symm)
      · refine .inr ((h.spent next hnext).resolve_left ?_)
        rw [hpc]
        exact Bool.false_ne_true
    · exact h.sound.cons_dispatched hun ⟨henabled, hsame⟩ fun haction => timely_of_not_stale hd (htimely haction)
  | @finish run hpc result =>
    refine h.stand (fun next hflight => ?_) (by trivial)
    rw [hpc] at hflight
    cases run with
    | due d _ => exact hflight
    | retry _ => cases hflight
  | @record d lastRunAt result finishedAt hpc =>
    rw [hpc] at hpcOk
    have hd : d.Ok clock job.version job.row := hpcOk
    have hspent (next : Instant) (hnext : some next ∈ occurrences job.log) (r : Schedule)
        (hr : job.row.map (Job.advance t clock d lastRunAt) = some r) : r.nextRunAt ≠ some next := by
      refine advance_ne hd (h.past next hnext) ((h.spent next hnext).imp_left fun hflight => ?_) lastRunAt hr
      rw [hpc] at hflight
      exact of_decide_eq_true hflight
    have hhandled := advance_handled (t := t) hd lastRunAt
    have hother : ∀ e ∈ [Event.succeeded], e.isOther = true := by simp [Event.isOther]
    split_ifs
    · exact ⟨h.past, fun next hnext => .inr (hspent next hnext), trivial,
        (h.sound.append hother).cons_handled hhandled⟩
    · exact ⟨h.past, fun next hnext => .inr (hspent next hnext), trivial, h.sound.cons_handled hhandled⟩
  | recordRetry hpc | retryDue hpc =>
    exact h.rest hpc (fun _ => rfl) (by trivial)
  | rollback _ hfails => exact absurd trivial hfails
  | @conclude run result finishedAt recorded hpc =>
    obtain ⟨retry, notifying, log, hjob⟩ := job.concluded_eq (t := t) run result finishedAt recorded
    obtain ⟨events, hlog, hother⟩ := concluded_log t job run result finishedAt recorded
    rw [hjob] at hlog ⊢
    obtain rfl := hlog
    refine h.others (fun next hflight => ?_) (by trivial) hother
    rw [hpc] at hflight
    cases hflight

end Job.Once

/-- **Each occurrence is dispatched once at most**, from a row that still has it, in time; and handled, it is left
behind: in every run in which no record fails, and no edit puts back an occurrence that was dispatched and recorded
since the edit read the clock. -/
theorem occurrences_sound {rows : List Schedule} {s : State}
    (h : (runner t).Reach (fun s a => Booked a ∧ Careful s a) (State.start clock rows) s) (id : ScheduleId) :
    Sound (s.jobs id).log := by
  have hempty : Job.Once clock {} := ⟨nofun, nofun, trivial, Sound.nil⟩
  refine ((invariant_of_moves (C := True) (I := Job.Once) (fun _ _ hP _ => hP) hempty
    (fun row => ⟨nofun, nofun, trivial, Sound.nil⟩) (fun clock clock' job hjob hle => ?_)
    (fun clock job job' hok honce hmove => honce.moves hok hmove) h).2 id).2.sound
  exact ⟨fun next hnext => (hjob.past next hnext).trans hle, hjob.spent, hjob.undispatched, hjob.sound⟩

/-- A restart that runs daily. -/
def daily : Schedule := { nightly with nextRunAt := some (seconds 86400), undue := nofun }

/-- A runner without jitter. -/
def clockwork : RunScheduleTick where
  calculator := ⟨fun _ _ t => t + 1, fun _ _ t => Int.lt_succ t⟩
  jitter _ _ := 0
  backupRetryDelay := seconds 1800

/-- A tick in which the schedule 1 is dispatched, with this result. -/
def tickOnce (result : ActionResult) : List Action :=
  [.begin, .list, .job 1 .start, .job 1 .claim, .job 1 .dispatch, .job 1 (.load .dispatched),
    .job 1 (.finish result), .job 1 .record, .job 1 .conclude, .retries, .leave]

/-- Neither a write of an edit nor a record that fails. -/
def Action.isPlain : Action → Bool
  | .write _ | .job _ .rollback => false
  | _ => true

theorem Action.plain {s : State} {a : Action} (h : a.isPlain = true) : Booked a ∧ Careful s a := by
  cases a with
  | write k => cases h
  | job id step =>
    refine ⟨fun hstep => ?_, trivial⟩
    rw [hstep] at h
    cases h
  | _ => exact ⟨trivial, trivial⟩

theorem occurrences_sound_daily : ∃ s,
    (runner clockwork).Reach (fun s a => Booked a ∧ Careful s a) (.start (seconds 86400) [daily]) s ∧
      occurrences (s.jobs 1).log = [some (seconds 86400)] ∧ Sound (s.jobs 1).log := by
  have hrun : (((runner clockwork).guard fun _ a => a.isPlain = true).exec (tickOnce ⟨.success, true⟩)
      (.start (seconds 86400) [daily])).map (fun s => occurrences (s.jobs 1).log) = some [some (seconds 86400)] := by
    decide +kernel
  obtain ⟨s, hs, hdispatched⟩ := Machine.reach_of_exec_map hrun
  have hreach : (runner clockwork).Reach (fun s a => Booked a ∧ Careful s a) _ s :=
    (Machine.reach_of_guard hs).mono fun _ _ h => Action.plain h
  exact ⟨s, hreach, hdispatched, occurrences_sound hreach 1⟩

end McServerDashboard.Schedules.Runner
