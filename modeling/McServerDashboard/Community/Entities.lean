import Mathlib.Data.Finset.Lattice.Basic
import Mathlib.Data.List.Dedup
import Mathlib.Data.List.Sort
import McServerDashboard.Lib.Transactions

/-!
# Communities, their roles and their members

The rows of the community tables and of the users, their foreign keys, and the statements of the
repositories.

Rows are locked in the order in which they were made, and unique constraints other than those of the keys
are left out: neither lets a transaction do more.
-/

namespace McServerDashboard.Community

open Lib

/-- The permission codes, numbered. -/
abbrev Permission := ℕ

structure User where
  active : Bool
  isPlatformAdmin : Bool
  deriving DecidableEq

structure Membership where
  userId : ℕ
  communityId : ℕ
  deriving DecidableEq

structure Role where
  communityId : ℕ
  name : String
  permissions : Finset Permission
  isPreset : Bool
  deriving DecidableEq

/-- A grant on a server, the one resource type. -/
structure ResourceGrant where
  membershipId : ℕ
  userId : ℕ
  communityId : ℕ
  resourceId : ℕ
  permissions : Finset Permission
  deriving DecidableEq

inductive Key
  | user (id : ℕ)
  | community (id : ℕ)
  | membership (id : ℕ)
  | role (id : ℕ)
  /-- `membership_role`. -/
  | assignment (membership role : ℕ)
  | grant (id : ℕ)
  | server (id : ℕ)
  /-- The advisory lock of the first registration. -/
  | bootstrap
  deriving DecidableEq

/-- The row of a key; that of a server is its community. -/
abbrev Key.Row : Key → Type
  | user _ => User
  | community _ => Unit
  | membership _ => Membership
  | role _ => Role
  | assignment _ _ => Unit
  | grant _ => ResourceGrant
  | server _ => ℕ
  | bootstrap => Unit

abbrev Row := Sigma Key.Row
abbrev Database := Db Key.Row

/-- `OWNER_ROLE_NAME`. -/
def ownerRoleName : String := "Owner"

/-- `_is_preset_owner`. -/
def Role.isPresetOwner (x : Role) : Bool := x.isPreset && x.name = ownerRoleName

def parents : Row → List Key
  | ⟨.membership _, x⟩ => [.user x.userId, .community x.communityId]
  | ⟨.role _, x⟩ => [.community x.communityId]
  | ⟨.assignment m r, _⟩ => [.membership m, .role r]
  | ⟨.grant _, x⟩ =>
    [.membership x.membershipId, .user x.userId, .community x.communityId, .server x.resourceId]
  | ⟨.server _, k⟩ => [.community k]
  | _ => []

/-- Of a user only columns outside of its keys are updated, and so are the permissions of a role; a new name
of a role takes a stronger lock, which keeps out more. -/
def writes : Key → Strength
  | .user _ => .noKeyUpdate
  | .role _ => .noKeyUpdate
  | _ => .update

def unique : Key → Bool
  | .assignment _ _ => false
  | .bootstrap => false
  | _ => true

def schema : Schema Key.Row where
  parents := parents
  writes := writes
  unique := unique
  strong k := by cases k <;> simp [writes, Strength.rank]

/-! ## What is read -/

def membership? : Row → Option (ℕ × Membership)
  | ⟨.membership m, x⟩ => some (m, x)
  | _ => none

def role? : Row → Option (ℕ × Role)
  | ⟨.role r, x⟩ => some (r, x)
  | _ => none

def user? : Row → Option (ℕ × User)
  | ⟨.user u, x⟩ => some (u, x)
  | _ => none

def grant? : Row → Option ResourceGrant
  | ⟨.grant _, x⟩ => some x
  | _ => none

/-- A row of `membership_role`: the membership and the role. -/
def assignment? : Row → Option (ℕ × ℕ)
  | ⟨.assignment m r, _⟩ => some (m, r)
  | _ => none

/-- A committed row. -/
def row? (db : Database) (k : Key) : Option Row := (db.rows k).map (⟨k, ·⟩)

/-- The rows of a table that meet a condition. -/
def select {α : Type} (db : Database) (table : Row → Option α) (cond : α → Bool) : List α :=
  (db.keys.filterMap (row? db ·)).filterMap fun e => (table e).filter cond

/-- The condition on a row of a table. -/
def on {α : Type} (table : Row → Option α) (cond : α → Bool) : Row → Bool := fun e => (table e).any cond

/-- What a transaction ends with. -/
inductive Tag
  /-- The actor confers, in a community and maybe on a resource, what was checked. -/
  | confers (actor community : ℕ) (resource : Option ℕ) (checked : Finset Permission)
  | provision
  /-- An account is deleted that owned no community after the first `n` insertions. -/
  | account (u n : ℕ)
  /-- The role Owner is unassigned from a membership, and the guard, after the first `n` insertions, found no
  holder. -/
  | unheld (m n : ℕ)
  | other

abbrev Transaction := Tx Key.Row Tag

/-! ## The repositories -/

/-- `hold_for_users`. -/
def holdForUsers (k : ℕ) (us : List ℕ) (next : List (ℕ × Membership) → Transaction) : Transaction :=
  .lockWhere .keyShare (on membership? fun m => m.2.communityId = k ∧ m.2.userId ∈ us)
    fun got => next (got.filterMap membership?)

/-- `lock_by_user_and_community`. -/
def lockByUserAndCommunity (u k : ℕ) (next : Option (ℕ × Membership) → Transaction) : Transaction :=
  .lockWhere .update (on membership? fun m => m.2.userId = u ∧ m.2.communityId = k)
    fun got => next (got.filterMap membership?).head?

/-- `get_by_user_and_community`, with (ghost) the number of insertions so far. -/
def getByUserAndCommunity (u k : ℕ) (next : ℕ → Option (ℕ × Membership) → Transaction) : Transaction :=
  .select fun db =>
    next db.inserted.length (select db membership? fun m => m.2.userId = u ∧ m.2.communityId = k).head?

/-- `list_role_ids`. -/
def listRoleIds (m : ℕ) (next : List ℕ → Transaction) : Transaction :=
  .select fun db => next ((select db assignment? (·.1 = m)).map (·.2))

/-- `lock_role_ids`. -/
def lockRoleIds (m : ℕ) (roleIds : List ℕ) (next : List ℕ → Transaction) : Transaction :=
  if roleIds = [] then next []
  else .lockWhere .share (on assignment? fun x => x.1 = m ∧ x.2 ∈ roleIds)
    fun got => next ((got.filterMap assignment?).map (·.2))

/-- `lock_owner_role_holders`: a join of which only the assignments are locked. -/
def lockOwnerRoleHolders (k r : ℕ) (next : List ℕ → Transaction) : Transaction :=
  .lock .update
    (fun db => (db.filter (on assignment? (·.2 = r))).filter fun key =>
      match key with
      | .assignment m _ => (db.rows (.membership m)).any (·.communityId = k)
      | _ => false)
    (on assignment? (·.2 = r)) fun got => next ((got.filterMap assignment?).map (·.1))

/-- `roles.list_for_community`. -/
def listForCommunity (k : ℕ) (next : List (ℕ × Role) → Transaction) : Transaction :=
  .select fun db => next (select db role? (·.2.communityId = k))

/-- `roles.get_by_id`. -/
def getRoleById (r : ℕ) (next : Option Role → Transaction) : Transaction :=
  .select fun db => next (db.rows (.role r))

/-- One row of `roles.lock_by_ids`. -/
def lockRole (r : ℕ) (a : Strength) (next : Option (ℕ × Role) → Transaction) : Transaction :=
  .lockWhere a (on role? (·.1 = r)) fun got => next (got.filterMap role?).head?

/-- The statements of `roles.lock_by_ids`. -/
def lockRoles (forUpdate : Option ℕ) : List ℕ → (List (ℕ × Role) → Transaction) → Transaction
  | [], next => next []
  | r :: rs, next =>
    lockRole r (if forUpdate = some r then .update else .share) fun found =>
      lockRoles forUpdate rs fun roles => next (found.toList ++ roles)

/-- `roles.lock_by_ids`. -/
def lockByIds (roleIds : List ℕ) (forUpdate : Option ℕ) (next : List (ℕ × Role) → Transaction) :
    Transaction :=
  lockRoles forUpdate ((roleIds ++ forUpdate.toList).dedup.insertionSort (· ≤ ·)) next

/-- `resources.exists`. -/
def resourceExists (k v : ℕ) (next : Bool → Transaction) : Transaction :=
  .lockWhere .keyShare (fun e => match e with | ⟨.server v', k'⟩ => v' = v ∧ k' = k | _ => false)
    fun got => next (!got.isEmpty)

/-- `lock_for_user_resource`. -/
def lockForUserResource (u k v : ℕ) (next : Option ResourceGrant → Transaction) : Transaction :=
  .lockWhere .share (on grant? fun x => x.userId = u ∧ x.communityId = k ∧ x.resourceId = v)
    fun got => next (got.filterMap grant?).head?

/-- `lock_with_active_admins`: the target, and how many of the locked rows are active admins. -/
def lockWithActiveAdmins (u : ℕ) (next : Option User → ℕ → Transaction) : Transaction :=
  .lockWhere .noKeyUpdate (on user? fun x => (x.2.isPlatformAdmin ∧ x.2.active) ∨ x.1 = u) fun got =>
    next (((got.filterMap user?).find? (·.1 = u)).map (·.2))
      ((got.filterMap user?).filter fun x => x.2.isPlatformAdmin ∧ x.2.active).length

end McServerDashboard.Community
