import Mathlib.Data.Finset.Empty
import Mathlib.Data.Finset.SDiff
import McServerDashboard.Community.Entities

/-!
# The use cases on communities and accounts

Each use case as a transaction, statement by statement: what confers permissions, what revokes them, and
what takes a member, an account or an administrator away. The reads of a use case that come in a
transaction of their own, before the one that writes, come first.

* `lockActorCeiling`: the permissions that the actor may confer, locked.
* `guardLastOwner`: the guard of the last Owner.
* `Request.transaction`: the transaction of a request; `threads`: their interleavings.
-/

namespace McServerDashboard.Community

open Lib

/-- The catalogs that permissions are validated against. -/
structure Settings where
  communityPermissions : Finset Permission
  grantPermissions : Finset Permission

/-! ## The permission ceiling -/

/-- The actor's grant on the resource counts, for a grant. -/
def addActorGrant (a k : ℕ) (resource : Option ℕ) (ceiling : Finset Permission)
    (next : Finset Permission → Transaction) : Transaction :=
  match resource with
  | none => next ceiling
  | some v => lockForUserResource a k v fun g => next (ceiling ∪ (g.elim ∅ (·.permissions)))

/-- The permissions of the roles that are held. -/
def permissionsOf (roles : List (ℕ × Role)) (held : List ℕ) : Finset Permission :=
  (roles.filter (·.1 ∈ held)).foldr (fun r ps => r.2.permissions ∪ ps) ∅

/-- `lock_actor_ceiling`. -/
def lockActorCeiling (a k : ℕ) (resource roleToUpdate : Option ℕ) (rolesToShare : List ℕ)
    (next : Finset Permission → Transaction) : Transaction :=
  holdForUsers k [a] fun memberships =>
    match memberships.head? with
    | none => lockByIds rolesToShare roleToUpdate fun _ => addActorGrant a k resource ∅ next
    | some m =>
      listRoleIds m.1 fun roleIds =>
        lockByIds (roleIds ++ rolesToShare) roleToUpdate fun roles =>
          lockRoleIds m.1 (roles.map (·.1)) fun held =>
            addActorGrant a k resource (permissionsOf roles held) next

/-- `check_permission_ceiling`, which goes on with what it checked. -/
def checkPermissionCeiling (ceiling conferred : Finset Permission) (next : Finset Permission → Transaction) :
    Transaction :=
  if conferred \ ceiling = ∅ then next conferred else .abort

/-- `enforce_permission_ceiling`. -/
def enforcePermissionCeiling (a k : ℕ) (conferred : Finset Permission) (resource : Option ℕ)
    (next : Finset Permission → Transaction) : Transaction :=
  if conferred = ∅ then next ∅
  else lockActorCeiling a k resource none [] fun ceiling => checkPermissionCeiling ceiling conferred next

/-! ## The guard of the last Owner -/

/-- `_guard_last_owner`; whether there is a role Owner and nobody was found to hold it. -/
def guardLastOwner (k m : ℕ) (next : Bool → Transaction) : Transaction :=
  listForCommunity k fun roles =>
    match roles.find? (·.2.isPresetOwner) with
    | none => next false
    | some ownerRole =>
      lockOwnerRoleHolders k ownerRole.1 fun holders =>
        if m ∉ holders then next (holders = []) else if holders.length > 1 then next false else .abort

/-! ## Requests -/

/-- A request, with the ids that it draws. -/
inductive Request
  | createRole (id k a : ℕ) (name : String) (permissions : Finset Permission)
  | updateRole (k r a : ℕ) (name : Option String) (permissions : Option (Finset Permission))
  | deleteRole (k r : ℕ)
  | assignRole (k u r a : ℕ)
  | unassignRole (k u r : ℕ)
  | createGrant (id k a u v : ℕ) (permissions : Finset Permission)
  | revokeGrant (k g : ℕ)
  | addMember (id k u : ℕ)
  | removeMember (k u : ℕ)
  | provisionCommunity (community role membership owner : ℕ)
  /-- A server of a community. -/
  | createServer (id k : ℕ)
  /-- `RegisterUser`, and with an open registration `AdminCreateUser`. -/
  | registerUser (id : ℕ) (registrationOpen : Bool)
  | setPlatformAdmin (u : ℕ) (grant : Bool)
  | setUserActive (a u : ℕ) (active : Bool)
  /-- The right password was given. -/
  | deleteAccount (u : ℕ)
  | adminDeleteUser (a u : ℕ)
  deriving DecidableEq

variable (cfg : Settings)

def createRole (id k a : ℕ) (name : String) (permissions : Finset Permission) : Transaction :=
  if permissions ⊆ cfg.communityPermissions then
    enforcePermissionCeiling a k permissions none fun checked =>
      .commit (.confers a k none checked) [⟨.role id, ⟨k, name, permissions, false⟩⟩]
  else .abort

/-- The write of `UpdateRole`: only the columns that are given. -/
def writeRole (k r a : ℕ) (name : Option String) (permissions : Option (Finset Permission))
    (checked : Finset Permission) : Transaction :=
  .update (.role r) .noKeyUpdate
    (fun x => { x with name := name.getD x.name, permissions := permissions.getD x.permissions })
    fun found => if found then .commit (.confers a k none checked) [] else .abort

def updateRole (k r a : ℕ) (name : Option String) (permissions : Option (Finset Permission)) :
    Transaction :=
  match permissions with
  | none =>
    getRoleById r fun role =>
      match role with
      | none => .abort
      | some x => if x.communityId ≠ k ∨ x.isPreset then .abort else writeRole k r a name none ∅
  | some validated =>
    lockActorCeiling a k none (some r) [] fun ceiling =>
      lockRole r .update fun role =>
        match role with
        | none => .abort
        | some x =>
          if x.2.communityId ≠ k ∨ x.2.isPreset ∨ ¬validated ⊆ cfg.communityPermissions then .abort
          else
            checkPermissionCeiling ceiling (validated \ x.2.permissions) fun checked =>
              writeRole k r a name (some validated) checked

def deleteRole (k r : ℕ) : Transaction :=
  getRoleById r fun role =>
    match role with
    | none => .abort
    | some x =>
      if x.communityId ≠ k ∨ x.isPreset then .abort else .delete (fun _ => [.role r]) (.commit .other [])

def assignRole (k u r a : ℕ) : Transaction :=
  holdForUsers k [u, a] fun held =>
    match held.find? (·.2.userId = u) with
    | none => .abort
    | some m =>
      lockActorCeiling a k none none [r] fun ceiling =>
        lockByIds [r] none fun roles =>
          match roles.head? with
          | none => .abort
          | some x =>
            if x.2.communityId ≠ k then .abort
            else
              checkPermissionCeiling ceiling x.2.permissions fun checked =>
                listRoleIds m.1 fun roleIds =>
                  -- It is assigned already: there is nothing to commit.
                  if r ∈ roleIds then .abort
                  else .commit (.confers a k none checked) [⟨.assignment m.1 r, ()⟩]

def unassignRole (k u r : ℕ) : Transaction :=
  getByUserAndCommunity u k fun n membership =>
    match membership with
    | none => .abort
    | some m =>
      getRoleById r fun role =>
        match role with
        | none => .abort
        | some x =>
          if x.communityId ≠ k then .abort
          else if x.isPresetOwner then
            guardLastOwner k m.1 fun unheld =>
              .delete (fun _ => [.assignment m.1 r]) (.commit (if unheld then .unheld m.1 n else .other) [])
          else .delete (fun _ => [.assignment m.1 r]) (.commit .other [])

def createGrant (id k a u v : ℕ) (permissions : Finset Permission) : Transaction :=
  if permissions ⊆ cfg.grantPermissions then
    holdForUsers k [u, a] fun held =>
      match held.find? (·.2.userId = u) with
      | none => .abort
      | some m =>
        resourceExists k v fun found =>
          if found then
            enforcePermissionCeiling a k permissions (some v) fun checked =>
              .commit (.confers a k (some v) checked) [⟨.grant id, ⟨m.1, u, k, v, permissions⟩⟩]
          else .abort
  else .abort

def revokeGrant (k g : ℕ) : Transaction :=
  .select fun db =>
    match db.rows (.grant g) with
    | none => .abort
    | some x => if x.communityId ≠ k then .abort else .delete (fun _ => [.grant g]) (.commit .other [])

def addMember (id k u : ℕ) : Transaction :=
  .select fun db =>
    if (db.rows (.user u)).isSome then .commit .other [⟨.membership id, ⟨u, k⟩⟩] else .abort

def removeMember (k u : ℕ) : Transaction :=
  lockByUserAndCommunity u k fun membership =>
    match membership with
    | none => .abort
    | some m => guardLastOwner k m.1 fun _ => .delete (fun _ => [.membership m.1]) (.commit .other [])

def provisionCommunity (community role membership owner : ℕ) : Transaction :=
  .select fun db =>
    if (db.rows (.user owner)).isSome then
      .commit .provision
        [⟨.community community, ()⟩, ⟨.role role, ⟨community, ownerRoleName, cfg.communityPermissions, true⟩⟩,
          ⟨.membership membership, ⟨owner, community⟩⟩, ⟨.assignment membership role, ()⟩]
    else .abort

/-- `persist_new_user`: the first user is made an administrator. -/
def persistNewUser (id : ℕ) (registrationOpen : Bool) : Transaction :=
  .lock .update (fun _ => [.bootstrap]) (fun _ => true) fun _ =>
    .select fun db =>
      if (select db user? fun _ => true) = [] then .commit .other [⟨.user id, ⟨true, true⟩⟩]
      else if registrationOpen then .commit .other [⟨.user id, ⟨true, false⟩⟩]
      else .abort

/-- The guard of the last active administrator, before what takes the target from them. -/
def guardLastAdmin (u : ℕ) (next : Transaction) : Transaction :=
  lockWithActiveAdmins u fun user activeAdmins =>
    match user with
    | none => .abort
    | some x => if x.isPlatformAdmin ∧ x.active ∧ activeAdmins ≤ 1 then .abort else next

/-- The `UPDATE` of a user; the user may be gone by then. -/
def writeUser (u : ℕ) (set : User → User) : Transaction :=
  .update (.user u) .noKeyUpdate set fun found => if found then .commit .other [] else .abort

def setPlatformAdmin (u : ℕ) (grant : Bool) : Transaction :=
  if grant then
    .select fun db =>
      if (db.rows (.user u)).isSome then writeUser u fun x => { x with isPlatformAdmin := true } else .abort
  else guardLastAdmin u (writeUser u fun x => { x with isPlatformAdmin := false })

def setUserActive (a u : ℕ) (active : Bool) : Transaction :=
  if active then
    .select fun db =>
      if (db.rows (.user u)).isSome then writeUser u fun x => { x with active := true } else .abort
  else if u = a then .abort
  else guardLastAdmin u (writeUser u fun x => { x with active := false })

/-- The rest of `owns_any_community`, for the memberships to look at. -/
def ownsAny (memberships : List (ℕ × Membership)) (next : Bool → Transaction) : Transaction :=
  match memberships with
  | [] => next false
  | m :: ms =>
    listForCommunity m.2.communityId fun roles =>
      match roles.find? (·.2.isPresetOwner) with
      | none => ownsAny ms next
      | some ownerRole =>
        listRoleIds m.1 fun held => if ownerRole.1 ∈ held then next true else ownsAny ms next

/-- `owns_any_community`, with (ghost) the number of insertions when it began. -/
def ownsAnyCommunity (u : ℕ) (next : ℕ → Bool → Transaction) : Transaction :=
  .select fun db => ownsAny (select db membership? (·.2.userId = u)) (next db.inserted.length)

def deleteAccount (u : ℕ) : Transaction :=
  ownsAnyCommunity u fun n owns =>
    if owns then .abort
    else guardLastAdmin u (.delete (fun _ => [.user u]) (.commit (.account u n) []))

def adminDeleteUser (a u : ℕ) : Transaction := if u = a then .abort else deleteAccount u

def Request.transaction : Request → Transaction
  | createRole id k a name permissions => Community.createRole cfg id k a name permissions
  | updateRole k r a name permissions => Community.updateRole cfg k r a name permissions
  | deleteRole k r => Community.deleteRole k r
  | assignRole k u r a => Community.assignRole k u r a
  | unassignRole k u r => Community.unassignRole k u r
  | createGrant id k a u v permissions => Community.createGrant cfg id k a u v permissions
  | revokeGrant k g => Community.revokeGrant k g
  | addMember id k u => Community.addMember id k u
  | removeMember k u => Community.removeMember k u
  | provisionCommunity community role membership owner =>
    Community.provisionCommunity cfg community role membership owner
  | createServer id k => .commit .other [⟨.server id, k⟩]
  | registerUser id registrationOpen => Community.persistNewUser id registrationOpen
  | setPlatformAdmin u grant => Community.setPlatformAdmin u grant
  | setUserActive a u active => Community.setUserActive a u active
  | deleteAccount u => Community.deleteAccount u
  | adminDeleteUser a u => Community.adminDeleteUser a u

/-- A connection to the database. -/
abbrev Connection := Session Key.Row Tag Request

def threads : Threads (Store Key.Row) Connection (TxAction Request) :=
  Tx.threads schema (Request.transaction cfg)

instance (t : ℕ) (s : Store Key.Row) (p : Connection) (a : TxAction Request) :
    Decidable ((threads cfg).pre t s p a) := inferInstanceAs (Decidable ((Tx.threads _ _).pre t s p a))

abbrev Conf := Threads.Config (Store Key.Row) Connection

/-- A fresh database. -/
def start : Conf :=
  ⟨⟨⟨fun k => match k with | .bootstrap => some () | _ => none, [.bootstrap], [.bootstrap]⟩, fun _ => []⟩,
    fun _ => ⟨⟨.empty, .idle⟩, none, 0⟩⟩

end McServerDashboard.Community
