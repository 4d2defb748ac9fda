import Mathlib.Algebra.Order.Group.Nat
import Mathlib.Data.List.Nodup
import Mathlib.Data.Nat.Size
import McServerDashboard.Lib.PrunedLog
import McServerDashboard.Lib.Run

/-!
# Logins under attack

Attempts are recorded in a table, failures are counted over sliding windows, and an account is locked for longer and
longer. Old rows are deleted, after a login and from time to time.

* `Settings`: the knobs; `backoffCapCount`, `backoffDuration`, `pruneHorizon`.
* `blockedReason`, `newLockout`, `login`, `register`, `prune`: the use cases, on the two tables.
* `Ideal`: the same decisions, computed from every row there has been.
* `Promised`: what is expected of an attempt; `Spaced`: when the wait that a throttled IP is told is long enough.
* **`backoffDuration_min`**: the saturated count gives the same durations.
* `LogOk.locked`, `Ideal.lock_failure`, …: what one more event, or one more row, changes.
-/

namespace McServerDashboard.Identity.BruteForce

open Lib

/-! ## Settings -/

/-- The settings of `auth.brute_force` and `auth.registration`; the durations are in seconds. -/
structure Settings where
  enabled : Bool
  usernameThreshold : ℕ
  usernameWindow : ℕ
  ipThreshold : ℕ
  ipWindow : ℕ
  lockoutBase : ℕ
  lockoutMax : ℕ
  registrationOpen : Bool
  registrationLimited : Bool
  registrationThreshold : ℕ
  registrationWindow : ℕ
  usernameThreshold_pos : 0 < usernameThreshold
  usernameWindow_pos : 0 < usernameWindow
  ipThreshold_pos : 0 < ipThreshold
  ipWindow_pos : 0 < ipWindow
  lockoutBase_pos : 0 < lockoutBase
  lockoutBase_le : lockoutBase ≤ lockoutMax
  registrationThreshold_pos : 0 < registrationThreshold
  registrationWindow_pos : 0 < registrationWindow

/-- `timedelta(seconds=…)`, in microseconds. -/
def timedelta (seconds : ℕ) : ℕ := seconds * 1000000

/-- `backoff_cap_count`. -/
def backoffCapCount (base maximum : ℕ) : ℕ := (maximum / base).size

/-- `backoff_duration`. -/
def backoffDuration (lockoutCount base maximum : ℕ) : ℕ :=
  if backoffCapCount base maximum ≤ lockoutCount then maximum
  else
    let duration := base * 2 ^ lockoutCount
    if duration < maximum then duration else maximum

/-- `prune_horizon`. -/
def pruneHorizon (cfg : Settings) : ℕ :=
  let horizon := max (timedelta cfg.usernameWindow) (timedelta cfg.ipWindow)
  if cfg.registrationLimited then max horizon (timedelta cfg.registrationWindow) else horizon

/-! ## The tables -/

/-- Why credentials do not hold. -/
inductive Refusal
  | unknownUser
  | wrongPassword
  | deactivated
  deriving DecidableEq

/-- `failure_reason`. -/
inductive Reason
  | locked
  | ipThrottled
  | refused (why : Refusal)
  | registration
  deriving DecidableEq

/-- A row of `login_attempt`; the time is in microseconds. -/
structure Row where
  username : String
  ip : Option String
  success : Bool
  failureReason : Option Reason
  createdAt : ℤ
  deriving DecidableEq

/-- A row of `account_lockout`. -/
structure Lockout where
  lockedUntil : Option ℤ
  lockoutCount : ℕ
  deriving DecidableEq

/-- `is_locked`. -/
def isLocked (lockedUntil : Option ℤ) (now : ℤ) : Bool := lockedUntil.any (now < ·)

/-- `count_username_failures`. -/
def countUsernameFailures (rows : List Row) (username : String) (since : ℤ) : ℕ :=
  rows.countP fun r => r.username = username && !r.success && since ≤ r.createdAt

/-- `count_ip_failures`. -/
def countIpFailures (rows : List Row) (ip : String) (since : ℤ) : ℕ :=
  rows.countP fun r => r.ip = some ip && !r.success && since ≤ r.createdAt

/-- `count_ip_registrations`. -/
def countIpRegistrations (rows : List Row) (ip : String) (since : ℤ) : ℕ :=
  rows.countP fun r => r.ip = some ip && r.failureReason = some .registration && since ≤ r.createdAt

/-- What has happened to an account. -/
inductive Event
  /-- Its password was verified. -/
  | verified (username : String) (now : ℤ)
  | locked (username : String) (now lockedUntil : ℤ)
  | loggedIn (username : String) (now : ℤ)
  deriving DecidableEq

structure State where
  /-- `login_attempt`, the newest row first. -/
  attempts : List Row
  /-- `account_lockout`. -/
  lockouts : String → Option Lockout
  /-- The time of the last event. -/
  now : ℤ
  /-- Every row there has been. -/
  history : List Row
  log : List Event

def start (now : ℤ) : State := ⟨[], fun _ => none, now, [], []⟩

/-! ## The use cases -/

/-- A login; `refused` says why the credentials do not hold. -/
structure Attempt where
  username : String
  ip : Option String
  refused : Option Refusal
  now : ℤ

/-- The row of a failure. -/
def Attempt.failure (a : Attempt) (reason : Reason) : Row := ⟨a.username, a.ip, false, some reason, a.now⟩

/-- `record_attempt`, and `record_registration`. -/
def State.record (s : State) (r : Row) : State := { s with attempts := r :: s.attempts, history := r :: s.history }

/-- The seconds that remain of a lock, rounded up. -/
def retryAfter (lockedUntil now : ℤ) : ℕ := max 1 (((lockedUntil - now).toNat + 999999) / 1000000)

/-- `_blocked_reason`: the reason, and `Retry-After` in seconds. -/
def blockedReason (cfg : Settings) (s : State) (username : String) (ip : Option String) (now : ℤ) :
    Option (Reason × ℕ) :=
  let locked :=
    match s.lockouts username with
    | none => none
    | some lockout =>
      match lockout.lockedUntil with
      | none => none
      | some lockedUntil => if now < lockedUntil then some (.locked, retryAfter lockedUntil now) else none
  match ip with
  | none => locked
  | some ip =>
    if cfg.ipThreshold ≤ countIpFailures s.attempts ip (now - timedelta cfg.ipWindow) then
      some (.ipThrottled, cfg.ipWindow)
    else locked

/-- The lockout that `_maybe_lock` sets. -/
def newLockout (cfg : Settings) (s : State) (username : String) (now : ℤ) : Option Lockout :=
  let existing := s.lockouts username
  if existing.any fun lockout => isLocked lockout.lockedUntil now then none
  else if countUsernameFailures s.attempts username (now - timedelta cfg.usernameWindow) < cfg.usernameThreshold then
    none
  else
    let prior := (existing.map (·.lockoutCount)).getD 0
    let base := timedelta cfg.lockoutBase
    let maximum := timedelta cfg.lockoutMax
    some ⟨some (now + backoffDuration prior base maximum), min (prior + 1) (backoffCapCount base maximum)⟩

/-- `_maybe_lock`. -/
def maybeLock (cfg : Settings) (s : State) (username : String) (now : ℤ) : State :=
  match newLockout cfg s username now with
  | none => s
  | some lockout =>
    { s with
      lockouts := fun name => if name = username then some lockout else s.lockouts name
      log := .locked username now (lockout.lockedUntil.getD now) :: s.log }

/-- `_fail`. -/
def fail (cfg : Settings) (s : State) (a : Attempt) (reason : Reason) : State :=
  if cfg.enabled then maybeLock cfg (s.record (a.failure reason)) a.username a.now else s

/-- `prune_attempts`, with the horizon. -/
def prune (cfg : Settings) (s : State) (now : ℤ) : State :=
  { s with attempts := s.attempts.filter fun r => now - pruneHorizon cfg ≤ r.createdAt }

/-- The end of a login whose credentials hold. -/
def succeed (cfg : Settings) (s : State) (a : Attempt) : State :=
  let s := { s with log := .loggedIn a.username a.now :: s.log }
  if cfg.enabled then
    let s := s.record ⟨a.username, a.ip, true, none, a.now⟩
    prune cfg { s with lockouts := fun name => if name = a.username then none else s.lockouts name } a.now
  else s

/-- Why a login is rejected before its password is verified. -/
def blocked (cfg : Settings) (s : State) (a : Attempt) : Option (Reason × ℕ) :=
  if cfg.enabled then blockedReason cfg s a.username a.ip a.now else none

/-- `Login`. -/
def login (cfg : Settings) (s : State) (a : Attempt) : State :=
  let s := { s with now := a.now }
  match blocked cfg s a with
  | some (reason, _) => fail cfg s a reason
  | none =>
    let s := { s with log := .verified a.username a.now :: s.log }
    match a.refused with
    | some why => fail cfg s a (.refused why)
    | none => succeed cfg s a

/-- Is a registration throttled? -/
def registrationThrottled (cfg : Settings) (rows : List Row) (ip : String) (now : ℤ) : Bool :=
  cfg.registrationThreshold ≤ countIpRegistrations rows ip (now - timedelta cfg.registrationWindow)

/-- `_enforce_ip_limit`, of `RegisterUser`. -/
def register (cfg : Settings) (s : State) (ip : Option String) (now : ℤ) : State :=
  let s := { s with now }
  match ip with
  | none => s
  | some ip =>
    if cfg.registrationOpen && cfg.registrationLimited && !registrationThrottled cfg s.attempts ip now then
      s.record ⟨"", some ip, true, some .registration, now⟩
    else s

inductive Step
  | login (a : Attempt)
  | register (ip : Option String) (now : ℤ)
  /-- A tick of `PruneLoginAttempts`. -/
  | prune (now : ℤ)

def Step.now : Step → ℤ
  | .login a => a.now
  | .register _ now | .prune now => now

def Step.post (cfg : Settings) (s : State) : Step → State
  | .login a => BruteForce.login cfg s a
  | .register ip now => BruteForce.register cfg s ip now
  | .prune now => BruteForce.prune cfg { s with now } now

/-- Logins, registrations and prunes, one after the other. -/
def machine (cfg : Settings) : Machine State Step := ⟨fun s e => s.now ≤ e.now, Step.post cfg⟩

instance (cfg : Settings) (s : State) (e : Step) : Decidable ((machine cfg).pre s e) :=
  inferInstanceAs (Decidable (s.now ≤ e.now))

/-! ## What is computed from the full history -/

namespace Ideal

/-- A lock, and how many there have been since the last login. -/
structure Lock where
  lockedUntil : ℤ
  locks : ℕ

/-- How long a lock lasts behind `locks` others. -/
def duration (cfg : Settings) (locks : ℕ) : ℕ :=
  min (timedelta cfg.lockoutBase * 2 ^ locks) (timedelta cfg.lockoutMax)

/-- The lock that a failure sets. -/
def newLock (cfg : Settings) (history : List Row) (prior : Option Lock) (username : String) (now : ℤ) : Option Lock :=
  if prior.any (now < ·.lockedUntil) then none
  else if countUsernameFailures history username (now - timedelta cfg.usernameWindow) < cfg.usernameThreshold then none
  else
    let locks := (prior.map (·.locks)).getD 0
    some ⟨now + duration cfg locks, locks + 1⟩

/-- The lock of an account. -/
def lock (cfg : Settings) (username : String) : List Row → Option Lock
  | [] => none
  | r :: older =>
    let prior := lock cfg username older
    if r.username ≠ username then prior
    else if r.success then if r.failureReason = some .registration then prior else none
    else (newLock cfg (r :: older) prior username r.createdAt).or prior

/-- Why a login is rejected, and for how long. -/
def blocked (cfg : Settings) (history : List Row) (a : Attempt) : Option (Reason × ℕ) :=
  if !cfg.enabled then none
  else if a.ip.any fun ip => cfg.ipThreshold ≤ countIpFailures history ip (a.now - timedelta cfg.ipWindow) then
    some (.ipThrottled, cfg.ipWindow)
  else
    match lock cfg a.username history with
    | none => none
    | some l => if a.now < l.lockedUntil then some (.locked, retryAfter l.lockedUntil a.now) else none

/-- When the lock ends that a failure of the attempt sets. -/
def lockedUntil (cfg : Settings) (history : List Row) (a : Attempt) (reason : Reason) : Option ℤ :=
  (newLock cfg (a.failure reason :: history) (lock cfg a.username history) a.username a.now).map (·.lockedUntil)

end Ideal

/-! ## What is promised -/

/-- The locks of an account since its last login, in a log whose newest event is first. -/
def locksSince (username : String) : List Event → ℕ
  | [] => 0
  | .verified .. :: older => locksSince username older
  | .locked name .. :: older => locksSince username older + if name = username then 1 else 0
  | .loggedIn name _ :: older => if name = username then 0 else locksSince username older

/-- A lock has ended when the account is locked again, or its password is verified. -/
def Apart : Event → Event → Prop
  | .verified name now, .locked name' _ lockedUntil => name = name' → lockedUntil ≤ now
  | .locked name now _, .locked name' _ lockedUntil => name = name' → lockedUntil ≤ now
  | _, _ => True

structure LogOk (cfg : Settings) (log : List Event) : Prop where
  /-- The `k`-th lock since a login lasts `min (base * 2 ^ (k - 1)) max`. -/
  duration : ∀ (newer older : List Event) (username : String) (now lockedUntil : ℤ),
    log = newer ++ .locked username now lockedUntil :: older → lockedUntil = now +
      (min (timedelta cfg.lockoutBase * 2 ^ locksSince username older) (timedelta cfg.lockoutMax) : ℕ)
  apart : log.Pairwise Apart

/-- The step records nothing for the username or the IP of the attempt. -/
def Untouched (cfg : Settings) (a : Attempt) (s : State) (e : Step) : Prop :=
  ∀ r, ((machine cfg).post s e).history = r :: s.history → r.username ≠ a.username ∧ (a.ip = none ∨ r.ip ≠ a.ip)

/-- What is expected of an attempt, in a state. -/
structure Promised (cfg : Settings) (s : State) (a : Attempt) : Prop where
  blocked : blocked cfg s a = Ideal.blocked cfg s.history a
  lock : cfg.enabled = true → ∀ reason,
    (newLockout cfg (s.record (a.failure reason)) a.username a.now).bind (·.lockedUntil) =
      Ideal.lockedUntil cfg s.history a reason
  registration : cfg.registrationLimited = true → ∀ ip,
    registrationThrottled cfg s.attempts ip a.now = registrationThrottled cfg s.history ip a.now
  log : LogOk cfg s.log
  /-- A rejected attempt is not rejected for the same reason behind the wait that it is told. -/
  retry : ∀ reason seconds, BruteForce.blocked cfg s a = some (reason, seconds) →
    ∀ s', (machine cfg).Reach (Untouched cfg a) (login cfg s a) s' → s'.now ≤ a.now + timedelta seconds →
      ∀ seconds', BruteForce.blocked cfg s' { a with now := a.now + timedelta seconds } ≠ some (reason, seconds')

/-- If the IP is throttled, its failures at this very instant, this one with them, are below the threshold. -/
def Spaced (cfg : Settings) (s : State) (a : Attempt) : Prop :=
  cfg.enabled = true → ∀ ip, a.ip = some ip →
    cfg.ipThreshold ≤ countIpFailures s.history ip (a.now - timedelta cfg.ipWindow) →
      countIpFailures s.history ip a.now + 1 < cfg.ipThreshold

/-! ## The back-off -/

/-- The saturated count gives the same durations. -/
theorem backoffDuration_min (cfg : Settings) (locks : ℕ) :
    backoffDuration (min locks (backoffCapCount (timedelta cfg.lockoutBase) (timedelta cfg.lockoutMax)))
      (timedelta cfg.lockoutBase) (timedelta cfg.lockoutMax) = Ideal.duration cfg locks := by
  have hbase : 0 < timedelta cfg.lockoutBase := Nat.mul_pos cfg.lockoutBase_pos (by decide)
  rw [backoffDuration, Ideal.duration]
  generalize timedelta cfg.lockoutBase = base at *
  generalize timedelta cfg.lockoutMax = maximum at *
  by_cases hcap : backoffCapCount base maximum ≤ locks
  · -- from the cap on the product is over the maximum
    have hlt : maximum < base * 2 ^ locks := by
      have hsize : maximum / base < 2 ^ locks :=
        Nat.lt_of_lt_of_le (Nat.lt_size_self _) (Nat.pow_le_pow_right (by decide) hcap)
      rw [Nat.mul_comm]
      exact (Nat.div_lt_iff_lt_mul hbase).mp hsize
    rw [Nat.min_eq_right hcap, if_pos (Nat.le_refl _), Nat.min_eq_right (Nat.le_of_lt hlt)]
  · rw [Nat.min_eq_left (Nat.le_of_not_le hcap), if_neg hcap]
    dsimp only
    split_ifs with hlt
    · exact (Nat.min_eq_left (Nat.le_of_lt hlt)).symm
    · exact (Nat.min_eq_right (Nat.le_of_not_lt hlt)).symm

/-! ## The log -/

section Log

variable {cfg : Settings} {log : List Event} {name : String} {now lockedUntil : ℤ}

/-- What holds of the locks of a log still does behind an event that is not one. -/
theorem LogOk.cons (h : LogOk cfg log) {e : Event} (he : ∀ name now lockedUntil, e ≠ .locked name now lockedUntil)
    (hapart : ∀ older ∈ log, Apart e older) : LogOk cfg (e :: log) where
  duration newer older name now lockedUntil heq := by
    cases newer with
    | nil =>
      rw [List.nil_append, List.cons.injEq] at heq
      exact absurd heq.1 (he name now lockedUntil)
    | cons _ newer =>
      rw [List.cons_append, List.cons.injEq] at heq
      exact h.duration newer older name now lockedUntil heq.2
  apart := List.pairwise_cons.mpr ⟨hapart, h.apart⟩

/-- A password is verified, behind every lock of its account. -/
theorem LogOk.verified (h : LogOk cfg log) (hended : ∀ t u, .locked name t u ∈ log → u ≤ now) :
    LogOk cfg (.verified name now :: log) := by
  refine h.cons (fun _ _ _ => nofun) fun older hmem => ?_
  cases older with
  | locked other t u =>
    rintro rfl
    exact hended t u hmem
  | verified => trivial
  | loggedIn => trivial

theorem LogOk.loggedIn (h : LogOk cfg log) : LogOk cfg (.loggedIn name now :: log) :=
  h.cons (fun _ _ _ => nofun) fun _ _ => trivial

/-- An account is locked, behind each of its other locks. -/
theorem LogOk.locked (h : LogOk cfg log) (hended : ∀ t u, .locked name t u ∈ log → u ≤ now)
    (hduration : lockedUntil = now + (Ideal.duration cfg (locksSince name log) : ℕ)) :
    LogOk cfg (.locked name now lockedUntil :: log) where
  duration newer older other t u heq := by
    cases newer with
    | nil =>
      rw [List.nil_append, List.cons.injEq, Event.locked.injEq] at heq
      obtain ⟨⟨rfl, rfl, rfl⟩, rfl⟩ := heq
      exact hduration
    | cons _ newer =>
      rw [List.cons_append, List.cons.injEq] at heq
      exact h.duration newer older other t u heq.2
  apart := by
    refine List.pairwise_cons.mpr ⟨fun older hmem => ?_, h.apart⟩
    cases older with
    | locked other t u =>
      rintro rfl
      exact hended t u hmem
    | verified => trivial
    | loggedIn => trivial

end Log

/-! ## The lock of the full history -/

section Lock

variable {cfg : Settings} {a : Attempt} {history : List Row}

namespace Ideal

/-- What a lock that is set is like. -/
theorem newLock_some {prior : Option Lock} {name : String} {now : ℤ} {l : Lock}
    (h : newLock cfg history prior name now = some l) :
    prior.any (now < ·.lockedUntil) = false ∧
      l = ⟨now + duration cfg ((prior.map (·.locks)).getD 0), (prior.map (·.locks)).getD 0 + 1⟩ := by
  rw [newLock] at h
  split_ifs at h with hlocked hfew
  exact ⟨Bool.not_eq_true _ ▸ hlocked, (Option.some.inj h).symm⟩

/-- A failure is for the lock of its own account. -/
theorem lock_failure (reason : Reason) (name : String) :
    lock cfg name (a.failure reason :: history) =
      if name = a.username then
        (newLock cfg (a.failure reason :: history) (lock cfg a.username history) a.username a.now).or
          (lock cfg a.username history)
      else lock cfg name history := by
  rw [lock]
  by_cases hname : name = a.username
  · subst hname
    rw [if_pos rfl]
    exact if_neg (not_not_intro rfl)
  · rw [if_neg hname]
    exact if_pos (Ne.symm hname)

/-- An account that is locked is not locked anew. -/
theorem lock_failure_of_locked (reason : Reason) {l : Lock} (hl : lock cfg a.username history = some l)
    (hlocked : a.now < l.lockedUntil) : lock cfg a.username (a.failure reason :: history) = some l := by
  rw [lock_failure, if_pos rfl, hl, newLock, Option.any_some, if_pos (decide_eq_true hlocked), Option.none_or]

/-- A row of another account changes nothing. -/
theorem lock_other {name : String} {r : Row} (hr : r.username ≠ name) :
    lock cfg name (r :: history) = lock cfg name history := if_pos hr

/-- Neither does a registration. -/
theorem lock_registration {name : String} {r : Row} (hsuccess : r.success = true)
    (hreason : r.failureReason = some .registration) : lock cfg name (r :: history) = lock cfg name history := by
  rw [lock, if_pos hsuccess, if_pos hreason, ite_self]

/-- A login ends the lock of its own account. -/
theorem lock_success (ip : Option String) (now : ℤ) (name username : String) :
    lock cfg name (⟨username, ip, true, none, now⟩ :: history) =
      if name = username then none else lock cfg name history := by
  by_cases hname : name = username
  · subst hname
    rw [if_pos rfl, lock]
    exact if_neg (not_not_intro rfl)
  · rw [if_neg hname]
    exact if_pos (Ne.symm hname)

/-- Why an attempt is rejected. -/
theorem blocked_some {reason : Reason} {seconds : ℕ} (h : blocked cfg history a = some (reason, seconds)) :
    cfg.enabled = true ∧
      ((reason = .ipThrottled ∧ seconds = cfg.ipWindow ∧ ∃ ip, a.ip = some ip ∧
          cfg.ipThreshold ≤ countIpFailures history ip (a.now - timedelta cfg.ipWindow)) ∨
        reason = .locked ∧ ∃ l, lock cfg a.username history = some l ∧ a.now < l.lockedUntil ∧
          seconds = retryAfter l.lockedUntil a.now) := by
  rw [blocked] at h
  split_ifs at h with hen hip
  · rw [Bool.not_eq_true, Bool.not_eq_false'] at hen
    rw [Option.some.injEq, Prod.mk.injEq] at h
    obtain ⟨ip, heq, hfull⟩ := (Option.any_eq_true _ _).mp hip
    exact ⟨hen, .inl ⟨h.1.symm, h.2.symm, ip, heq, of_decide_eq_true hfull⟩⟩
  · rw [Bool.not_eq_true, Bool.not_eq_false'] at hen
    cases hl : lock cfg a.username history with
    | none =>
      rw [hl] at h
      cases h
    | some l =>
      rw [hl] at h
      dsimp only at h
      split_ifs at h with hlocked
      rw [Option.some.injEq, Prod.mk.injEq] at h
      exact ⟨hen, .inr ⟨h.1.symm, l, rfl, hlocked, h.2.symm⟩⟩

/-- The throttle comes first. -/
theorem blocked_of_throttled {ip : String} (hen : cfg.enabled = true) (hip : a.ip = some ip)
    (hfull : cfg.ipThreshold ≤ countIpFailures history ip (a.now - timedelta cfg.ipWindow)) :
    blocked cfg history a = some (.ipThrottled, cfg.ipWindow) := by
  rw [blocked, hen, Bool.not_true, if_neg Bool.false_ne_true, hip, Option.any_some, if_pos (decide_eq_true hfull)]

/-- An attempt that is not rejected is for an account that is not locked. -/
theorem free_of_blocked (hen : cfg.enabled = true) (h : blocked cfg history a = none) :
    (lock cfg a.username history).any (a.now < ·.lockedUntil) = false := by
  rw [blocked, hen, Bool.not_true, if_neg Bool.false_ne_true] at h
  split_ifs at h
  cases hl : lock cfg a.username history with
  | none => rfl
  | some l =>
    rw [hl] at h
    dsimp only at h
    split_ifs at h with hlocked
    exact decide_eq_false hlocked

end Ideal

end Lock

end McServerDashboard.Identity.BruteForce
