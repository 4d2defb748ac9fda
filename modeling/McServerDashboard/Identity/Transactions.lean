import Mathlib.Data.List.Dedup
import Mathlib.Data.List.Sort
import McServerDashboard.Lib.Threads
import McServerDashboard.Identity.Entities

/-!
# The transactions that make and end sessions

Any number of requests at the same time, statement by statement, under READ COMMITTED: a statement
reads what is committed when it starts and what its own transaction has done. Logins, rotations and
revocations first take the session lock of each owner concerned; a password change, a deactivation
and a deletion hold the user row from before.

A statement never waits for a row here, so the machine also has the runs in which it does; that a
revocation which waited misses the rows stored meanwhile is in `Write.revoked`.

* `RefreshSession.script`, `Logout.script`: what the two use cases do with the tokens they locked.
* `Pos`, `advance`: where a request stands, and its next step.
-/

namespace McServerDashboard.Identity

open Lib

/-- `lockKey` folds a user id into the key of its session lock; two users may share a key. -/
structure Settings where
  lockKey : UserId → ℤ
  refreshTtl : Time
  reuseGrace : Time

/-- What is drawn at random when a pair is issued. -/
structure Fresh where
  hash : TokenHash
  id : TokenId
  chain : ChainId
  deriving DecidableEq

/-- `issue_token_pair`. -/
def issueTokenPair (cfg : Settings) (u : UserId) (k : ChainId) (now : Time) (f : Fresh) :
    RefreshToken :=
  ⟨f.id, u, k, f.hash, now, now + cfg.refreshTtl, none, none⟩

/-! ## What a use case does with the tokens it locked -/

/-- `_revoke_superseded`. -/
def revokeSuperseded (superseded used : RefreshToken) (now : Time) : List Stmt :=
  if superseded.tokenHash = used.tokenHash then []
  else if superseded.chainId = used.chainId then
    if superseded.isActive now then [.revoke ⟨.token superseded.tokenHash, now, .superseded⟩] else []
  else [.revoke ⟨.chain superseded.chainId, now, .superseded⟩]

/-- The token is revoked, and not by a rotation inside the grace window: a theft. -/
def reused (cfg : Settings) (stored : RefreshToken) (now : Time) : Bool :=
  match stored.revokedAt with
  | none => false
  | some at_ => !(stored.revokedReason = some .rotated && now - at_ ≤ cfg.reuseGrace)

/-- `RefreshSession`, after `lock_sessions_by_token_hashes`; `none` raises
`InvalidRefreshTokenError`. -/
def RefreshSession.script (cfg : Settings) (locked : TokenHash → Option RefreshToken)
    (hash : TokenHash) (superseded : Option TokenHash) (now : Time) (f : Fresh) :
    Option (List Stmt) :=
  match locked hash with
  | none => none
  | some stored =>
    if stored.expiresAt ≤ now ∨ stored.revokedReason = some .superseded then none
    else if reused cfg stored now then
      some [.revoke ⟨.user stored.userId none none, now, .family⟩]
    else
      some ((if stored.revokedAt = none then [.revoke ⟨.token hash, now, .rotated⟩] else []) ++
        .add (issueTokenPair cfg stored.userId stored.chainId now f) ::
          match superseded.bind locked with
          | none => []
          | some sup => revokeSuperseded sup stored now)

/-- `Logout`, after `lock_sessions_by_token_hashes`. -/
def Logout.script (locked : TokenHash → Option RefreshToken) (hash : TokenHash)
    (superseded : Option TokenHash) (now : Time) : List Stmt :=
  ((locked hash).toList.map fun x => .revoke ⟨.chain x.chainId, now, .logout⟩) ++
    ((superseded.filter (· ≠ hash)).bind locked).toList.map fun x =>
      .revoke ⟨.chain x.chainId, now, .superseded⟩

/-! ## Requests -/

/-- A request that presents refresh tokens. -/
inductive Presented
  | refresh (hash : TokenHash) (superseded : Option TokenHash) (now : Time)
  | logout (hash : TokenHash) (superseded : Option TokenHash) (now : Time)
  deriving DecidableEq

/-- The presented hashes. -/
def Presented.hashes : Presented → List TokenHash
  | refresh hash superseded _ => hash :: superseded.toList
  | logout hash superseded _ => hash :: superseded.toList

/-- The script of the use case; a logout always goes through. -/
def Presented.script (cfg : Settings) (locked : TokenHash → Option RefreshToken) (f : Fresh) :
    Presented → Option (List Stmt)
  | refresh hash superseded now => RefreshSession.script cfg locked hash superseded now f
  | logout hash superseded now => some (Logout.script locked hash superseded now)

inductive Request
  | present (r : Presented)
  /-- The right password was given for the account as it is. -/
  | login (u : UserId) (now : Time)
  | revokeSession (u : UserId) (id : TokenId) (now : Time)
  | revokeOtherSessions (u : UserId) (keepHash : Option TokenHash) (keepId : Option TokenId)
      (now : Time)
  /-- The right current password was given. -/
  | changePassword (u : UserId) (now : Time)
  | setUserActive (u : UserId) (active : Bool) (now : Time)
  /-- `DeleteAccount` and `AdminDeleteUser`. -/
  | deleteAccount (u : UserId) (now : Time)
  deriving DecidableEq

/-! ## The database -/

inductive LockKey
  /-- The row lock of a user. -/
  | user (u : UserId)
  /-- The advisory lock of a user's sessions. -/
  | sessions (key : ℤ)
  deriving DecidableEq

/-- Who can know a refresh secret: nobody, the transaction that drew it, or the clients. -/
inductive Secret
  | unknown
  | drawn (t : ℕ)
  | out
  deriving DecidableEq

/-- A client may hold it, or guess it in vain. -/
def Secret.presentable : Secret → Bool
  | drawn _ => false
  | _ => true

/-- The committed rows and the locks. `secrets` and `origin` (the user and the password hash that
the login of a chain checked) are ghosts. -/
structure Db where
  users : UserId → Option User
  tokens : List RefreshToken
  locks : Locks LockKey
  nextHash : PasswordHash
  secrets : TokenHash → Secret
  origin : ChainId → Option (UserId × PasswordHash)

/-- What a transaction does once it has the session locks. -/
inductive Next
  /-- Read the presented tokens again and decide. -/
  | reread (r : Presented)
  /-- Read the user again (`_refusal`) and start a session. -/
  | recheck (u : UserId) (checked : User) (now : Time)
  /-- `revoke_by_id`: read the token's chain. -/
  | findChain (u : UserId) (id : TokenId) (now : Time)
  | statements (l : List Stmt)
  deriving DecidableEq

/-- Where a request stands. -/
inductive Pos
  | idle
  /-- `lock_sessions_by_token_hashes` reads the owners. -/
  | owners (r : Presented)
  /-- About to compare and set the password hash. -/
  | changing (u : UserId) (expected : PasswordHash) (now : Time)
  /-- About to write `active`. -/
  | activating (u : UserId) (active : Bool) (now : Time)
  /-- About to lock the row of the user to delete. -/
  | removing (u : UserId) (now : Time)
  /-- Taking the session locks `keys` in order, `ws` done. -/
  | locking (keys : List ℤ) (next : Next) (ws : List Write)
  /-- The statements to execute, then the commit. -/
  | run (stmts : List Stmt) (ws : List Write)
  deriving DecidableEq

/-- `_lock_sessions`: each key once, in ascending order. -/
def lockOrder (cfg : Settings) (us : List UserId) : List ℤ :=
  ((us.map cfg.lockKey).dedup).insertionSort (· ≤ ·)

inductive Action
  | begin (r : Request)
  /-- The next step; `f` is what it would draw. -/
  | step (f : Fresh)
  /-- An error, a refusal or a lost connection rolls the transaction back. -/
  | abort
  deriving DecidableEq

variable (cfg : Settings)

/-- The first step of a request: `none` refuses it. -/
def begun (s : Db) : Request → Option Pos
  | .present r => some (.owners r)
  | .login u now =>
    (s.users u).bind fun x =>
      if x.active then some (.locking [cfg.lockKey u] (.recheck u x now) []) else none
  | .revokeSession u id now => some (.locking [cfg.lockKey u] (.findChain u id now) [])
  | .revokeOtherSessions u keepHash keepId now =>
    some (.locking [cfg.lockKey u]
      (.statements [.revoke ⟨.user u keepHash keepId, now, .user⟩]) [])
  | .changePassword u now => (s.users u).map fun x => .changing u x.passwordHash now
  | .setUserActive u active now => some (.activating u active now)
  | .deleteAccount u now => some (.removing u now)

/-- The hashes a request shows. -/
def Request.hashes : Request → List TokenHash
  | present r => r.hashes
  | _ => []

/-- `locked.get`. -/
def Db.lookup (s : Db) (h : TokenHash) : Option RefreshToken :=
  s.tokens.find? (·.tokenHash = h)

/-- The owners of the presented tokens. -/
def Db.ownersOf (s : Db) (hs : List TokenHash) : List UserId :=
  (s.tokens.filter (·.tokenHash ∈ hs)).map (·.userId)

/-- The chain of `id`, if it is the user's and has a token left unrevoked. -/
def Db.chainOf (s : Db) (u : UserId) (id : TokenId) : Option ChainId :=
  (s.tokens.find? fun x => x.id = id && x.userId = u &&
    s.tokens.any fun y => y.chainId = x.chainId && y.revokedAt = none).map (·.chainId)

/-- The transaction of `t` is over without a commit. -/
def Db.rollback (s : Db) (t : ℕ) : Db × Pos := ({ s with locks := s.locks.release t }, .idle)

/-- The transaction of `t` commits `ws`; what it issued is handed out. -/
def Db.commit (s : Db) (t : ℕ) (ws : List Write) : Db :=
  { s with
    users := usersView s.users ws
    tokens := view s.tokens ws
    locks := s.locks.release t
    secrets := fun h => if s.secrets h = .drawn t then .out else s.secrets h }

/-- The hash is drawn by `t`. -/
def Db.draw (s : Db) (t : ℕ) (h : TokenHash) : Db :=
  { s with secrets := Function.update s.secrets h (.drawn t) }

/-- What `revoke_all_for_user` of another operation executes. -/
def revokeAllForUser (u : UserId) (now : Time) : List Stmt :=
  [.revoke ⟨.user u none none, now, .family⟩]

/-- What a transaction does under its session locks. -/
def proceed (t : ℕ) (s : Db) (f : Fresh) (ws : List Write) : Next → Db × Pos
  | .reread r =>
    match r.script cfg s.lookup f with
    | none => s.rollback t
    | some l => (s.draw t f.hash, .run l ws)
  | .recheck u checked now =>
    match s.users u with
    | none => s.rollback t
    | some x =>
      if x.passwordHash = checked.passwordHash ∧ x.active then
        ({ s.draw t f.hash with
            origin := Function.update s.origin f.chain (some (u, x.passwordHash)) },
          .run [.add (issueTokenPair cfg u f.chain now f)] ws)
      else s.rollback t
  | .findChain u id now =>
    (s, .run ((s.chainOf u id).toList.map fun k => .revoke ⟨.chain k, now, .user⟩) ws)
  | .statements l => (s, .run l ws)

/-- The next step of a request. -/
def advance (t : ℕ) (s : Db) (f : Fresh) : Pos → Db × Pos
  | .idle => (s, .idle)
  | .owners r =>
    match s.ownersOf r.hashes with
    -- No owner: no lock is taken, and nothing is found.
    | [] =>
      match r.script cfg (fun _ => none) f with
      | none => s.rollback t
      | some l => (s, .run l [])
    | us => (s, .locking (lockOrder cfg us) (.reread r) [])
  | .changing u expected now =>
    match s.users u with
    | some x =>
      if x.passwordHash = expected then
        ({ s with locks := s.locks.take t (.user u), nextHash := s.nextHash + 1 },
          .locking [cfg.lockKey u] (.statements (revokeAllForUser u now))
            [.passwordChanged u s.nextHash])
      else s.rollback t
    | none => s.rollback t
  | .activating u active now =>
    match s.users u with
    | none => s.rollback t
    | some _ =>
      let s' := { s with locks := s.locks.take t (.user u) }
      if active then (s', .run [] [.activeSet u true])
      else (s', .locking [cfg.lockKey u] (.statements (revokeAllForUser u now)) [.activeSet u false])
  | .removing u now =>
    match s.users u with
    | none => s.rollback t
    | some _ =>
      ({ s with locks := s.locks.take t (.user u) },
        .locking [cfg.lockKey u] (.statements (revokeAllForUser u now ++ [.delete u])) [])
  | .locking (k :: keys) next ws =>
    ({ s with locks := s.locks.take t (.sessions k) }, .locking keys next ws)
  | .locking [] next ws => proceed cfg t s f ws next
  | .run (.add x :: stmts) ws =>
    -- The foreign key on the user row.
    match s.users x.userId with
    | none => s.rollback t
    | some _ => (s, .run stmts (ws ++ [.added x]))
  | .run (st :: stmts) ws => (s, .run stmts (ws ++ [st.execute s.tokens ws]))
  | .run [] ws => (s.commit t ws, .idle)

/-- A statement is executed, or its transaction is rolled back. -/
theorem advance_run (t : ℕ) (s : Db) (f : Fresh) (st : Stmt) (stmts : List Stmt) (ws : List Write) :
    advance cfg t s f (.run (st :: stmts) ws) = s.rollback t ∨
      advance cfg t s f (.run (st :: stmts) ws) = (s, .run stmts (ws ++ [st.execute s.tokens ws])) := by
  cases st with
  | add x =>
    rw [advance]
    cases s.users x.userId with
    | none => exact .inl rfl
    | some _ => exact .inr rfl
  | revoke r | delete u => exact .inr rfl

/-- The next step is not waiting for a lock, and what it draws is new. -/
def canStep (t : ℕ) (s : Db) (f : Fresh) : Pos → Prop
  | .idle => False
  | .changing u _ _ => s.locks.Free t (.user u)
  | .activating u _ _ => s.locks.Free t (.user u)
  | .removing u _ => s.locks.Free t (.user u)
  | .locking (k :: _) _ _ => s.locks.Free t (.sessions k)
  | .locking [] _ _ => s.secrets f.hash = .unknown ∧ s.origin f.chain = none
  | _ => True

instance (t : ℕ) (s : Db) (f : Fresh) (p : Pos) : Decidable (canStep t s f p) := by
  cases p with
  | locking keys next ws => cases keys <;> unfold canStep <;> infer_instance
  | _ => unfold canStep; infer_instance

def threadPre (t : ℕ) (s : Db) (p : Pos) : Action → Prop
  | .begin r => p = .idle ∧ begun cfg s r ≠ none ∧ ∀ h ∈ r.hashes, (s.secrets h).presentable = true
  | .step f => canStep t s f p
  | .abort => p ≠ .idle

instance (t : ℕ) (s : Db) (p : Pos) (a : Action) : Decidable (threadPre cfg t s p a) := by
  cases a <;> unfold threadPre <;> infer_instance

def threadPost (t : ℕ) (s : Db) (p : Pos) : Action → Db × Pos
  | .begin r =>
    ({ s with secrets := fun h => if h ∈ r.hashes then .out else s.secrets h },
      (begun cfg s r).getD .idle)
  | .step f => advance cfg t s f p
  | .abort => s.rollback t

/-- The steps of one request after the other on each connection. -/
def threads : Threads Db Pos Action := ⟨threadPre cfg, threadPost cfg⟩

instance (t : ℕ) (s : Db) (p : Pos) (a : Action) : Decidable ((threads cfg).pre t s p a) :=
  inferInstanceAs (Decidable (threadPre cfg t s p a))

abbrev Conf := Threads.Config Db Pos

/-- The accounts there are before the first login. -/
structure Accounts where
  users : UserId → Option User
  nextHash : PasswordHash
  numbered : ∀ u x, users u = some x → x.passwordHash < nextHash

def start (a : Accounts) : Conf :=
  ⟨⟨a.users, [], fun _ => none, a.nextHash, fun _ => .unknown, fun _ => none⟩, fun _ => .idle⟩

end McServerDashboard.Identity
