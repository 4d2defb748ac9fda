import McServerDashboard.Identity.BruteForce

/-!
# Runs of logins

The tables against the full history of the attempts, in every run of logins, registrations and prunes.

* `Inv`: the rows that are left decide as all the rows there have been; **`inv_of_reach`**: it holds along every run.
* `sameFor_of_reach`: what decides on an attempt, while nothing is recorded for its username and its IP.
* **`login_promised`**: in every run, the attempt is as expected, exactly when it is spaced.
* **`throttled_again`**: one that is not.
-/

namespace McServerDashboard.Identity.BruteForce

open Lib

/-! ## The invariant -/

/-- The row of a lock. -/
def Ideal.Lock.row (cfg : Settings) (l : Ideal.Lock) : Lockout :=
  ⟨some l.lockedUntil, min l.locks (backoffCapCount (timedelta cfg.lockoutBase) (timedelta cfg.lockoutMax))⟩

structure Inv (cfg : Settings) (s : State) : Prop where
  kept : ∃ cut ≤ s.now - pruneHorizon cfg, Pruned Row.createdAt cut s.attempts s.history
  history : ∀ r ∈ s.history, r.createdAt ≤ s.now
  lockouts : ∀ name, s.lockouts name = (Ideal.lock cfg name s.history).map (Ideal.Lock.row cfg)
  locks : ∀ name, ((Ideal.lock cfg name s.history).map (·.locks)).getD 0 = locksSince name s.log
  ended : ∀ name now lockedUntil, .locked name now lockedUntil ∈ s.log →
    lockedUntil ≤ s.now ∨ ∃ l, Ideal.lock cfg name s.history = some l ∧ lockedUntil ≤ l.lockedUntil
  disabled : cfg.enabled = false → ∀ name, Ideal.lock cfg name s.history = none
  log : LogOk cfg s.log

variable {cfg : Settings} {s : State} {a : Attempt} {now : ℤ}

theorem inv_start (now : ℤ) : Inv cfg (start now) where
  kept := ⟨_, Int.le_refl _, .nil⟩
  history := nofun
  lockouts _ := rfl
  locks _ := rfl
  ended := nofun
  disabled _ _ := rfl
  log := ⟨fun newer _ _ _ _ h => by simp [start] at h, .nil⟩

theorem usernameWindow_le : timedelta cfg.usernameWindow ≤ pruneHorizon cfg := by
  rw [pruneHorizon]
  split_ifs <;> omega

theorem ipWindow_le : timedelta cfg.ipWindow ≤ pruneHorizon cfg := by
  rw [pruneHorizon]
  split_ifs <;> omega

theorem registrationWindow_le (h : cfg.registrationLimited = true) :
    timedelta cfg.registrationWindow ≤ pruneHorizon cfg := by
  rw [pruneHorizon, if_pos h]
  exact Nat.le_max_right _ _

namespace Inv

/-- Time goes on. -/
theorem tick (h : Inv cfg s) (hnow : s.now ≤ now) : Inv cfg { s with now } where
  kept := by
    obtain ⟨cut, hcut, hkept⟩ := h.kept
    exact ⟨cut, Int.le_trans hcut (Int.sub_le_sub_right hnow _), hkept⟩
  history r hr := Int.le_trans (h.history r hr) hnow
  lockouts := h.lockouts
  locks := h.locks
  ended name t lockedUntil hmem := (h.ended name t lockedUntil hmem).imp_left fun hle => Int.le_trans hle hnow
  disabled := h.disabled
  log := h.log

/-- A count over a window is the count of the full history. -/
theorem countP_eq (h : Inv cfg s) (hnow : s.now ≤ now) {window : ℕ} (hwindow : window ≤ pruneHorizon cfg)
    (p : Row → Bool) : (s.attempts.countP fun r => p r && now - window ≤ r.createdAt) =
      s.history.countP fun r => p r && now - window ≤ r.createdAt := by
  obtain ⟨cut, hcut, hkept⟩ := h.kept
  refine hkept.countP fun r hr => ?_
  rw [Bool.and_eq_true, decide_eq_true_eq] at hr
  omega

theorem usernameFailures_eq (h : Inv cfg s) (hnow : s.now ≤ now) (name : String) :
    countUsernameFailures s.attempts name (now - timedelta cfg.usernameWindow) =
      countUsernameFailures s.history name (now - timedelta cfg.usernameWindow) :=
  h.countP_eq hnow usernameWindow_le fun r => r.username = name && !r.success

theorem ipFailures_eq (h : Inv cfg s) (hnow : s.now ≤ now) (ip : String) :
    countIpFailures s.attempts ip (now - timedelta cfg.ipWindow) =
      countIpFailures s.history ip (now - timedelta cfg.ipWindow) :=
  h.countP_eq hnow ipWindow_le fun r => r.ip = some ip && !r.success

theorem registrations_eq (h : Inv cfg s) (hnow : s.now ≤ now) (hlimited : cfg.registrationLimited = true)
    (ip : String) : registrationThrottled cfg s.attempts ip now = registrationThrottled cfg s.history ip now := by
  have hcount := h.countP_eq hnow (registrationWindow_le hlimited) fun r =>
    r.ip = some ip && r.failureReason = some .registration
  rw [registrationThrottled, countIpRegistrations, hcount]
  rfl

/-- The rejection before the verification. -/
theorem blocked_eq (h : Inv cfg s) (ha : s.now ≤ a.now) : blocked cfg s a = Ideal.blocked cfg s.history a := by
  rw [blocked, Ideal.blocked]
  cases hen : cfg.enabled with
  | false => rfl
  | true =>
    rw [if_pos rfl, Bool.not_true, if_neg Bool.false_ne_true]
    cases a.ip with
    | none =>
      rw [blockedReason, h.lockouts]
      cases Ideal.lock cfg a.username s.history <;> rfl
    | some ip =>
      rw [blockedReason, h.lockouts, Option.any_some, h.ipFailures_eq ha]
      by_cases hfull : cfg.ipThreshold ≤ countIpFailures s.history ip (a.now - timedelta cfg.ipWindow)
      · rw [if_pos hfull, if_pos (decide_eq_true hfull)]
      · rw [if_neg hfull, if_neg (mt of_decide_eq_true hfull)]
        cases Ideal.lock cfg a.username s.history <;> rfl

/-- The lock that a failure sets, behind its row. -/
theorem newLockout_eq (h : Inv cfg s) (ha : s.now = a.now) (reason : Reason) :
    newLockout cfg (s.record (a.failure reason)) a.username a.now =
      (Ideal.newLock cfg (a.failure reason :: s.history) (Ideal.lock cfg a.username s.history) a.username a.now).map
        (Ideal.Lock.row cfg) := by
  have hcount : countUsernameFailures (s.record (a.failure reason)).attempts a.username
      (a.now - timedelta cfg.usernameWindow) = countUsernameFailures (a.failure reason :: s.history) a.username
        (a.now - timedelta cfg.usernameWindow) := by
    have hold := h.usernameFailures_eq (Int.le_of_eq ha) a.username
    rw [countUsernameFailures, countUsernameFailures] at hold
    rw [countUsernameFailures, countUsernameFailures, State.record, List.countP_cons, List.countP_cons, hold]
  have hlockouts : (s.record (a.failure reason)).lockouts a.username =
      (Ideal.lock cfg a.username s.history).map (Ideal.Lock.row cfg) := h.lockouts a.username
  rw [newLockout, Ideal.newLock, hcount, hlockouts]
  cases Ideal.lock cfg a.username s.history with
  | none =>
    simp only [Option.map_none, Option.any_none, Bool.false_eq_true, if_false, Option.getD_none]
    split_ifs with hfew
    · rfl
    · have hdur := backoffDuration_min cfg 0
      rw [Nat.zero_min] at hdur
      rw [hdur]
      rfl
  | some l =>
    simp only [Option.map_some, Option.any_some, Ideal.Lock.row, isLocked, decide_eq_true_eq, Option.getD_some]
    split_ifs with hlocked hfew
    · rfl
    · rfl
    · rw [backoffDuration_min, Option.map_some, Ideal.Lock.row]
      congr 2
      dsimp only
      omega

/-- When the lock is over, so is every lock of the account. -/
theorem lockedUntil_le (h : Inv cfg s) {name : String} {t lockedUntil : ℤ} (hnow : s.now = now)
    (hfree : (Ideal.lock cfg name s.history).any (now < ·.lockedUntil) = false)
    (hmem : .locked name t lockedUntil ∈ s.log) : lockedUntil ≤ now := by
  rcases h.ended name t lockedUntil hmem with hle | ⟨l, hl, hle⟩
  · rwa [hnow] at hle
  · rw [hl, Option.any_some, decide_eq_false_iff_not] at hfree
    omega

/-- A row is recorded. -/
theorem kept_cons (h : Inv cfg s) {r : Row} (hr : r.createdAt = s.now) :
    ∃ cut ≤ s.now - pruneHorizon cfg, Pruned Row.createdAt cut (r :: s.attempts) (r :: s.history) := by
  obtain ⟨cut, hcut, hkept⟩ := h.kept
  refine ⟨cut, hcut, hkept.cons ?_⟩
  omega

theorem history_cons (h : Inv cfg s) {r : Row} (hr : r.createdAt = s.now) :
    ∀ r' ∈ r :: s.history, r'.createdAt ≤ s.now :=
  List.forall_mem_cons.mpr ⟨Int.le_of_eq hr, h.history⟩

/-- A row that changes no lock is recorded. -/
theorem record (h : Inv cfg s) {r : Row} (hr : r.createdAt = s.now)
    (hlock : ∀ name, Ideal.lock cfg name (r :: s.history) = Ideal.lock cfg name s.history) :
    Inv cfg (s.record r) := by
  refine ⟨h.kept_cons hr, h.history_cons hr, fun name => ?_, fun name => ?_, fun name t lockedUntil hmem => ?_,
    fun hen name => ?_, h.log⟩
  all_goals rw [show (s.record r).history = r :: s.history from rfl, hlock]
  · exact h.lockouts name
  · exact h.locks name
  · exact h.ended name t lockedUntil hmem
  · exact h.disabled hen name

/-- A failure locks the account. -/
theorem locked (h : Inv cfg s) (ha : s.now = a.now) (hen : cfg.enabled = true) (reason : Reason) {l : Ideal.Lock}
    (hl : Ideal.newLock cfg (a.failure reason :: s.history) (Ideal.lock cfg a.username s.history) a.username a.now =
      some l) :
    Inv cfg { s.record (a.failure reason) with
      lockouts := fun name => if name = a.username then some (l.row cfg) else s.lockouts name
      log := .locked a.username a.now l.lockedUntil :: s.log } := by
  obtain ⟨hfree, hl'⟩ := Ideal.newLock_some hl
  have hown : Ideal.lock cfg a.username (a.failure reason :: s.history) = some l := by
    rw [Ideal.lock_failure, if_pos rfl, hl, Option.some_or]
  have hother : ∀ name, name ≠ a.username →
      Ideal.lock cfg name (a.failure reason :: s.history) = Ideal.lock cfg name s.history := fun name hname => by
    rw [Ideal.lock_failure, if_neg hname]
  refine ⟨h.kept_cons ha.symm, h.history_cons ha.symm, fun name => ?_, fun name => ?_,
    fun name t lockedUntil hmem => ?_, fun hen' => absurd hen (Bool.eq_false_iff.mp hen'), ?_⟩
  all_goals dsimp only [State.record]
  · by_cases hname : name = a.username
    · subst hname
      rw [if_pos rfl, hown, Option.map_some]
    · rw [if_neg hname, hother name hname, h.lockouts]
  · by_cases hname : name = a.username
    · subst hname
      rw [locksSince, if_pos rfl, ← h.locks, hown, hl', Option.map_some, Option.getD_some]
    · rw [locksSince, if_neg (Ne.symm hname), Nat.add_zero, ← h.locks, hother name hname]
  · rcases List.mem_cons.mp hmem with heq | hmem
    · obtain ⟨rfl, -, rfl⟩ := Event.locked.inj heq
      exact .inr ⟨l, hown, Int.le_refl _⟩
    · by_cases hname : name = a.username
      · subst hname
        rw [ha]
        exact .inl (h.lockedUntil_le ha hfree hmem)
      · rw [hother name hname]
        exact h.ended name t lockedUntil hmem
  · refine h.log.locked (fun t u hmem => h.lockedUntil_le ha hfree hmem) ?_
    rw [hl', h.locks]

/-- An attempt fails. -/
theorem fail (h : Inv cfg s) (ha : s.now = a.now) (reason : Reason) : Inv cfg (fail cfg s a reason) := by
  rw [BruteForce.fail]
  split_ifs with hen
  · rw [maybeLock, h.newLockout_eq ha]
    cases hl : Ideal.newLock cfg (a.failure reason :: s.history) (Ideal.lock cfg a.username s.history) a.username
        a.now with
    | none =>
      refine h.record ha.symm fun name => ?_
      rw [Ideal.lock_failure, hl, Option.none_or]
      split_ifs with hname
      · rw [hname]
      · rfl
    | some l => exact h.locked ha hen reason hl
  · exact h

/-- The password of an account that is not locked is verified. -/
theorem verified (h : Inv cfg s) (hnow : s.now = now) {name : String}
    (hfree : (Ideal.lock cfg name s.history).any (now < ·.lockedUntil) = false) :
    Inv cfg { s with log := .verified name now :: s.log } where
  kept := h.kept
  history := h.history
  lockouts := h.lockouts
  locks := h.locks
  ended other t lockedUntil hmem := h.ended other t lockedUntil ((List.mem_cons.mp hmem).resolve_left nofun)
  disabled := h.disabled
  log := h.log.verified fun _ _ hmem => h.lockedUntil_le hnow hfree hmem

/-- The rows before the horizon are deleted. -/
theorem prune (h : Inv cfg s) (hnow : s.now = now) : Inv cfg (prune cfg s now) where
  kept := by
    obtain ⟨cut, hcut, hkept⟩ := h.kept
    rw [hnow] at hcut
    exact ⟨now - pruneHorizon cfg, Int.le_of_eq (congrArg (· - _) hnow.symm), hkept.prune hcut⟩
  history := h.history
  lockouts := h.lockouts
  locks := h.locks
  ended := h.ended
  disabled := h.disabled
  log := h.log

/-- An account that is not locked is logged in, and its lock is forgotten. -/
theorem cleared (h : Inv cfg s) (ha : s.now = a.now) (hen : cfg.enabled = true)
    (hfree : (Ideal.lock cfg a.username s.history).any (a.now < ·.lockedUntil) = false) :
    Inv cfg { s.record ⟨a.username, a.ip, true, none, a.now⟩ with
      lockouts := fun name => if name = a.username then none else s.lockouts name
      log := .loggedIn a.username a.now :: s.log } := by
  refine ⟨h.kept_cons ha.symm, h.history_cons ha.symm, fun name => ?_, fun name => ?_,
    fun name t lockedUntil hmem => ?_, fun hen' => absurd hen (Bool.eq_false_iff.mp hen'), h.log.loggedIn⟩
  all_goals
    dsimp only [State.record]
    rw [Ideal.lock_success]
    by_cases hname : name = a.username
  · rw [if_pos hname, if_pos hname, Option.map_none]
  · rw [if_neg hname, if_neg hname, h.lockouts]
  · rw [if_pos hname, locksSince, if_pos hname.symm, Option.map_none, Option.getD_none]
  · rw [if_neg hname, locksSince, if_neg (Ne.symm hname), h.locks]
  · subst hname
    rw [ha]
    exact .inl (h.lockedUntil_le ha hfree ((List.mem_cons.mp hmem).resolve_left nofun))
  · rw [if_neg hname]
    exact h.ended name t lockedUntil ((List.mem_cons.mp hmem).resolve_left nofun)

/-- An account is logged in, and nothing is recorded. -/
theorem loggedIn (h : Inv cfg s) (hen : cfg.enabled = false) (name : String) :
    Inv cfg { s with log := .loggedIn name now :: s.log } where
  kept := h.kept
  history := h.history
  lockouts := h.lockouts
  locks other := by
    rw [locksSince]
    split_ifs with hname
    · rw [h.disabled hen, Option.map_none, Option.getD_none]
    · exact h.locks other
  ended other t lockedUntil hmem := h.ended other t lockedUntil ((List.mem_cons.mp hmem).resolve_left nofun)
  disabled := h.disabled
  log := h.log.loggedIn

theorem succeed (h : Inv cfg s) (ha : s.now = a.now)
    (hfree : (Ideal.lock cfg a.username s.history).any (a.now < ·.lockedUntil) = false) :
    Inv cfg (succeed cfg s a) := by
  rw [BruteForce.succeed]
  dsimp only
  split_ifs with hen
  · exact (h.cleared ha hen hfree).prune ha
  · exact h.loggedIn (Bool.eq_false_iff.mpr hen) a.username

/-- An attempt that is not rejected is for an account that is not locked. -/
theorem free_of_blocked (h : Inv cfg s) (ha : s.now = a.now) (hblocked : blocked cfg s a = none) :
    (Ideal.lock cfg a.username s.history).any (a.now < ·.lockedUntil) = false := by
  cases hen : cfg.enabled with
  | false => rw [h.disabled hen, Option.any_none]
  | true => exact Ideal.free_of_blocked hen ((h.blocked_eq (Int.le_of_eq ha)).symm.trans hblocked)

theorem login (h : Inv cfg s) (ha : s.now ≤ a.now) : Inv cfg (login cfg s a) := by
  replace h := h.tick ha
  rw [BruteForce.login]
  dsimp only
  cases hblocked : blocked cfg { s with now := a.now } a with
  | some why => exact h.fail rfl why.1
  | none =>
    have hfree := h.free_of_blocked rfl hblocked
    replace h := h.verified rfl hfree
    cases a.refused with
    | some why => exact h.fail rfl (.refused why)
    | none => exact h.succeed rfl hfree

theorem register (h : Inv cfg s) (ip : Option String) (hnow : s.now ≤ now) : Inv cfg (register cfg s ip now) := by
  replace h := h.tick hnow
  cases ip with
  | none => exact h
  | some ip =>
    rw [BruteForce.register]
    dsimp only
    split_ifs
    · exact h.record rfl fun name => Ideal.lock_registration rfl rfl
    · exact h

/-- One step. -/
theorem post (h : Inv cfg s) (e : Step) (he : s.now ≤ e.now) : Inv cfg ((machine cfg).post s e) := by
  cases e with
  | login a => exact h.login he
  | register ip now => exact h.register ip he
  | prune now => exact (h.tick he).prune rfl

end Inv

/-- **The invariant holds along every run.** -/
theorem inv_of_reach {s t : State} {P : State → Step → Prop} (h : (machine cfg).Reach P s t) (hs : Inv cfg s) :
    Inv cfg t :=
  h.invariant hs fun _ e hu he _ => hu.post e he

/-! ## The wait -/

/-- A step records one row at most. -/
theorem post_history (cfg : Settings) (s : State) (e : Step) : ((machine cfg).post s e).history = s.history ∨
    ∃ r, ((machine cfg).post s e).history = r :: s.history := by
  have hfail : ∀ (s : State) (a : Attempt) (reason : Reason), (fail cfg s a reason).history = s.history ∨
      ∃ r, (fail cfg s a reason).history = r :: s.history := fun s a reason => by
    rw [fail]
    split_ifs
    · rw [maybeLock]
      cases newLockout cfg (s.record (a.failure reason)) a.username a.now <;> exact .inr ⟨_, rfl⟩
    · exact .inl rfl
  cases e with
  | login a =>
    change (login cfg s a).history = _ ∨ ∃ r, (login cfg s a).history = _
    rw [login]
    dsimp only
    cases blocked cfg { s with now := a.now } a with
    | some why => exact hfail { s with now := a.now } a why.1
    | none =>
      cases a.refused with
      | some why => exact hfail { s with now := a.now, log := .verified a.username a.now :: s.log } a (.refused why)
      | none =>
        dsimp only
        rw [succeed]
        dsimp only
        split_ifs
        · exact .inr ⟨_, rfl⟩
        · exact .inl rfl
  | register ip now =>
    change (register cfg s ip now).history = _ ∨ ∃ r, (register cfg s ip now).history = _
    cases ip with
    | none => exact .inl rfl
    | some ip =>
      rw [register]
      dsimp only
      split_ifs
      · exact .inr ⟨_, rfl⟩
      · exact .inl rfl
  | prune now => exact .inl rfl

/-- What the decisions on an attempt are computed from. -/
structure SameFor (cfg : Settings) (a : Attempt) (history later : List Row) : Prop where
  lock : Ideal.lock cfg a.username later = Ideal.lock cfg a.username history
  ip : ∀ ip since, a.ip = some ip → countIpFailures later ip since = countIpFailures history ip since

/-- It stays as long as nothing is recorded for the username or the IP. -/
theorem sameFor_of_reach {t : State} (h : (machine cfg).Reach (Untouched cfg a) s t) :
    SameFor cfg a s.history t.history := by
  refine h.invariant (I := fun u => SameFor cfg a s.history u.history) ⟨rfl, fun _ _ _ => rfl⟩
    fun u e hu _ huntouched => ?_
  rcases post_history cfg u e with heq | ⟨r, heq⟩
  · rwa [heq]
  · obtain ⟨hname, hip⟩ := huntouched r heq
    rw [heq]
    refine ⟨(Ideal.lock_other hname).trans hu.lock, fun ip since ha => ?_⟩
    rw [countIpFailures, List.countP_cons, if_neg, Nat.add_zero]
    · exact hu.ip ip since ha
    · have hne : r.ip ≠ some ip := ha ▸ hip.resolve_left (by rw [ha]; exact nofun)
      simp [hne]

/-- A failure is recorded. -/
theorem fail_recorded (hen : cfg.enabled = true) (reason : Reason) :
    (fail cfg s a reason).history = a.failure reason :: s.history ∧ (fail cfg s a reason).now = s.now := by
  rw [fail, if_pos hen, maybeLock]
  cases newLockout cfg (s.record (a.failure reason)) a.username a.now <;> exact ⟨rfl, rfl⟩

/-- So is a rejection. -/
theorem login_of_blocked (hen : cfg.enabled = true) {reason : Reason} {seconds : ℕ}
    (hblocked : blocked cfg s a = some (reason, seconds)) :
    (login cfg s a).history = a.failure reason :: s.history ∧ (login cfg s a).now = a.now := by
  have hsame : blocked cfg { s with now := a.now } a = some (reason, seconds) := hblocked
  rw [login]
  dsimp only
  rw [hsame]
  exact fail_recorded hen reason

/-- The wait lasts as long as the lock. -/
theorem lockedUntil_le_retryAfter (lockedUntil now : ℤ) :
    lockedUntil ≤ now + timedelta (retryAfter lockedUntil now) := by
  have hwait : (lockedUntil - now).toNat ≤ timedelta (retryAfter lockedUntil now) := by
    rw [timedelta, retryAfter]
    omega
  omega

/-- A failure of the IP from its own time on. -/
theorem countIpFailures_failure {ip : String} (hip : a.ip = some ip) (reason : Reason) (history : List Row) :
    countIpFailures (a.failure reason :: history) ip a.now = countIpFailures history ip a.now + 1 := by
  rw [countIpFailures, List.countP_cons_of_pos, countIpFailures]
  simp [Attempt.failure, hip]

/-- When an attempt is rejected for the same reason, behind the wait that it was told. -/
theorem Inv.blocked_again (h : Inv cfg s) (ha : s.now ≤ a.now) {reason : Reason} {seconds : ℕ}
    (hblocked : blocked cfg s a = some (reason, seconds)) {s' : State}
    (hreach : (machine cfg).Reach (Untouched cfg a) (BruteForce.login cfg s a) s')
    (hs' : s'.now ≤ a.now + timedelta seconds) :
    (∃ seconds', blocked cfg s' { a with now := a.now + timedelta seconds } = some (reason, seconds')) ↔
      reason = .ipThrottled ∧ ∃ ip, a.ip = some ip ∧ cfg.ipThreshold ≤ countIpFailures s.history ip a.now + 1 := by
  obtain ⟨hen, hwhy⟩ := Ideal.blocked_some ((h.blocked_eq ha).symm.trans hblocked)
  have hsame := sameFor_of_reach hreach
  rw [(login_of_blocked hen hblocked).1] at hsame
  rw [(inv_of_reach hreach (h.login ha)).blocked_eq hs']
  rcases hwhy with ⟨rfl, rfl, ip, hip, -⟩ | ⟨rfl, l, hl, hlocked, rfl⟩
  · -- the window of the repeated attempt begins with the rejection
    have hcount : countIpFailures s'.history ip (a.now + timedelta cfg.ipWindow - timedelta cfg.ipWindow) =
        countIpFailures s.history ip a.now + 1 := by
      rw [Int.add_sub_cancel, hsame.ip ip a.now hip, countIpFailures_failure hip]
    constructor
    · rintro ⟨seconds', hagain⟩
      obtain ⟨-, ⟨-, -, ip', hip', hfull⟩ | ⟨hreason, -⟩⟩ := Ideal.blocked_some hagain
      · cases Option.some.inj (hip.symm.trans hip')
        exact ⟨rfl, ip, hip, hcount ▸ hfull⟩
      · cases hreason
    · rintro ⟨-, ip', hip', hfull⟩
      cases Option.some.inj (hip.symm.trans hip')
      exact ⟨_, Ideal.blocked_of_throttled hen hip (hcount.symm ▸ hfull)⟩
  · constructor
    · rintro ⟨seconds', hagain⟩
      obtain ⟨-, ⟨hreason, -⟩ | ⟨-, l', hl', hlocked', -⟩⟩ := Ideal.blocked_some hagain
      · cases hreason
      · have hlock := hsame.lock.trans (Ideal.lock_failure_of_locked .locked hl hlocked)
        cases Option.some.inj (hlock.symm.trans hl')
        exact absurd hlocked' (Int.not_lt.mpr (lockedUntil_le_retryAfter _ _))
    · rintro ⟨hreason, -⟩
      cases hreason

/-- The end of the lock that a failure sets. -/
theorem Inv.lockedUntil_eq (h : Inv cfg s) (ha : s.now ≤ a.now) (reason : Reason) :
    (newLockout cfg (s.record (a.failure reason)) a.username a.now).bind (·.lockedUntil) =
      Ideal.lockedUntil cfg s.history a reason := by
  have hnew : newLockout cfg (s.record (a.failure reason)) a.username a.now = _ := (h.tick ha).newLockout_eq rfl reason
  rw [hnew, Ideal.lockedUntil, Option.bind_map, Option.map_eq_bind]
  rfl

/-- **In every run the attempt is as expected, exactly when it is spaced.** -/
theorem login_promised {t : ℤ} (h : (machine cfg).Reach Machine.Any (start t) s) (ha : s.now ≤ a.now) :
    Promised cfg s a ↔ Spaced cfg s a := by
  have hinv := inv_of_reach h (inv_start t)
  have hwait : ∀ seconds, a.now ≤ a.now + timedelta seconds := fun seconds => by omega
  constructor
  · intro hpromised hen ip hip hfull
    have hblocked := (hinv.blocked_eq ha).trans (Ideal.blocked_of_throttled hen hip hfull)
    have hnow := (login_of_blocked hen hblocked).2.trans_le (hwait cfg.ipWindow)
    by_contra hmany
    obtain ⟨seconds', hagain⟩ := (hinv.blocked_again ha hblocked .refl hnow).mpr ⟨rfl, ip, hip, Nat.le_of_not_lt hmany⟩
    exact hpromised.retry _ _ hblocked _ .refl hnow seconds' hagain
  · refine fun hspaced => ⟨hinv.blocked_eq ha, fun _ reason => hinv.lockedUntil_eq ha reason,
      fun hlimited ip => hinv.registrations_eq ha hlimited ip, hinv.log, ?_⟩
    intro reason seconds hblocked s' hreach hs' seconds' hagain
    obtain ⟨hen, hwhy⟩ := Ideal.blocked_some ((hinv.blocked_eq ha).symm.trans hblocked)
    obtain ⟨rfl, ip, hip, hmany⟩ := (hinv.blocked_again ha hblocked hreach hs').mp ⟨seconds', hagain⟩
    obtain ⟨-, -, ip', hip', hfull⟩ | ⟨hreason, -⟩ := hwhy
    · cases Option.some.inj (hip.symm.trans hip')
      exact absurd (hspaced hen ip hip hfull) (Nat.not_lt.mpr hmany)
    · cases hreason

/-- Five seconds for an IP, and no lock before the fifth failure. -/
def fewFailures (ipThreshold : ℕ) (h : 0 < ipThreshold) : Settings :=
  ⟨true, 5, 60, ipThreshold, 5, 1, 4, true, true, 2, 30, by decide, by decide, h, by decide, by decide, by decide,
    by decide, by decide⟩

/-- A wrong password, from one IP. -/
def wrongPassword (now : ℤ) : Attempt := ⟨"steve", some "203.0.113.7", some .wrongPassword, now⟩

/-- The third failure of an IP that two are allowed. -/
theorem login_promised_spaced :
    Promised (fewFailures 2 (by decide))
      ((machine (fewFailures 2 (by decide))).post
        ((machine (fewFailures 2 (by decide))).post (start 0) (.login (wrongPassword 0)))
        (.login (wrongPassword 1000000)))
      (wrongPassword 2000000) :=
  (login_promised
    ((Machine.Reach.refl.step (.login (wrongPassword 0)) (by decide) trivial).step (.login (wrongPassword 1000000))
      (by decide) trivial) (by decide)).mpr fun _ ip hip _ => by
        cases hip
        decide

/-- **The throttle feeds itself.** Where one failure is allowed, an attempt is rejected one second later, and rejected
again when it is repeated behind the five seconds that it was told. -/
theorem throttled_again : ¬ ∀ (cfg : Settings) (t : ℤ) (s : State) (a : Attempt),
    (machine cfg).Reach Machine.Any (start t) s → s.now ≤ a.now → Promised cfg s a := by
  intro h
  have hpromised := h (fewFailures 1 (by decide)) 0 _ (wrongPassword 1000000)
    (Machine.Reach.refl.step (.login (wrongPassword 0)) (by decide) trivial) (by decide)
  exact hpromised.retry .ipThrottled 5 (by decide) _ .refl (by decide) 5 (by decide)

end McServerDashboard.Identity.BruteForce

