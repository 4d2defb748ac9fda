import McServerDashboard.Lib.TransactionEnds
import McServerDashboard.Community.Commits

/-!
# How the requests on communities end

What each request writes and what its commit says, read off its statements.

* `Request.actor`, `Request.confers`: who confers by a request, and what.
* `Request.Writes`, `Request.Tagged`: the rows that a request writes, and how its commit is tagged.
* **`ends_transaction`**: every request.
-/

namespace McServerDashboard.Community

open Lib

/-- Who confers permissions by the request: the actor, the community, and for a grant the resource. -/
def Request.actor : Request → Option (ℕ × ℕ × Option ℕ)
  | createRole _ k a _ _ => some (a, k, none)
  | updateRole k _ a _ _ => some (a, k, none)
  | assignRole k _ _ a => some (a, k, none)
  | createGrant _ k a _ v _ => some (a, k, some v)
  | _ => none

/-- What the request confers: the set of the new role, the codes added to a role, the whole set of the assigned
role, the set of the grant. -/
def Request.confers (d : Database) : Request → Finset Permission
  | createRole _ _ _ _ permissions => permissions
  | updateRole _ r _ _ permissions => permissions.elim ∅ (· \ rolePermissions d r)
  | assignRole _ _ r _ => rolePermissions d r
  | createGrant _ _ _ _ _ permissions => permissions
  | _ => ∅

/-- The rows that the request updates and inserts. -/
def Request.Writes (updated inserted : List Row) : Request → Prop
  | createRole id k _ name permissions => updated = [] ∧ inserted = [⟨.role id, ⟨k, name, permissions, false⟩⟩]
  | updateRole _ r _ name permissions =>
    (∃ x : Role, updated =
      [⟨.role r, { x with name := name.getD x.name, permissions := permissions.getD x.permissions }⟩]) ∧
      inserted = []
  | assignRole _ _ r _ => updated = [] ∧ ∃ m, inserted = [⟨.assignment m r, ()⟩]
  | createGrant id k _ u v permissions => updated = [] ∧ ∃ m, inserted = [⟨.grant id, ⟨m, u, k, v, permissions⟩⟩]
  | _ => True

/-- How the commit is tagged, after at least `n` insertions. -/
def Request.Tagged (n : ℕ) (tag : Tag) : Request → Prop
  | createRole _ k a _ _ => ∃ checked, tag = .confers a k none checked
  | updateRole k _ a _ permissions =>
    ∃ checked, tag = .confers a k none checked ∧ (permissions = none → checked = ∅)
  | assignRole k _ _ a => ∃ checked, tag = .confers a k none checked
  | createGrant _ k a _ v _ => ∃ checked, tag = .confers a k (some v) checked
  | provisionCommunity _ _ _ _ => tag = .provision
  | deleteAccount u => ∃ n', n ≤ n' ∧ tag = .account u n'
  | adminDeleteUser _ u => ∃ n', n ≤ n' ∧ tag = .account u n'
  | unassignRole _ _ _ => tag = .other ∨ ∃ m n', n ≤ n' ∧ tag = .unheld m n'
  | _ => tag = .other

/-- How a request ends. -/
def Request.Ends (q : Request) (n : ℕ) (updated : List Row) (tag : Tag) (inserted : List Row) : Prop :=
  q.Writes updated inserted ∧ q.Tagged n tag

variable {cfg : Settings} {D : Database → Prop} {Q : List Row → Tag → List Row → Prop} {w : List Row}
  {k m r a u v n : ℕ} {resource roleToUpdate : Option ℕ}

/-! ## Statements -/

theorem ends_lockRoles {rs : List ℕ} {next : List (ℕ × Role) → Transaction} (h : ∀ got, (next got).Ends D Q w) :
    (lockRoles roleToUpdate rs next).Ends D Q w := by
  induction rs generalizing next with
  | nil => exact h []
  | cons r rs ih => exact fun got => ih fun roles => h _

theorem ends_lockRoleIds {roleIds : List ℕ} {next : List ℕ → Transaction} (h : ∀ got, (next got).Ends D Q w) :
    (lockRoleIds m roleIds next).Ends D Q w := by
  unfold lockRoleIds
  split_ifs
  · exact h []
  · exact fun got => h _

theorem ends_addActorGrant {ceiling : Finset Permission} {next : Finset Permission → Transaction}
    (h : ∀ ceiling, (next ceiling).Ends D Q w) : (addActorGrant a k resource ceiling next).Ends D Q w := by
  cases resource with
  | none => exact h ceiling
  | some v => exact fun got => h _

theorem ends_lockActorCeiling {rolesToShare : List ℕ} {next : Finset Permission → Transaction}
    (h : ∀ ceiling, (next ceiling).Ends D Q w) :
    (lockActorCeiling a k resource roleToUpdate rolesToShare next).Ends D Q w := by
  intro got
  dsimp only
  split
  · exact ends_lockRoles fun _ => ends_addActorGrant h
  · exact fun d _ => ends_lockRoles fun _ => ends_lockRoleIds fun _ => ends_addActorGrant h

theorem ends_checkPermissionCeiling {ceiling conferred : Finset Permission} {next : Finset Permission → Transaction}
    (h : (next conferred).Ends D Q w) : (checkPermissionCeiling ceiling conferred next).Ends D Q w := by
  unfold checkPermissionCeiling
  split_ifs
  · exact h
  · trivial

theorem ends_enforcePermissionCeiling {conferred : Finset Permission} {next : Finset Permission → Transaction}
    (h : ∀ checked, (next checked).Ends D Q w) : (enforcePermissionCeiling a k conferred resource next).Ends D Q w := by
  unfold enforcePermissionCeiling
  split_ifs
  · exact h ∅
  · exact ends_lockActorCeiling fun _ => ends_checkPermissionCeiling (h _)

theorem ends_guardLastOwner {next : Bool → Transaction} (h : ∀ unheld, (next unheld).Ends D Q w) :
    (guardLastOwner k m next).Ends D Q w := by
  intro d _
  dsimp only
  split
  · exact h false
  · intro got
    dsimp only
    split_ifs
    · exact h false
    · trivial
    · exact h _

theorem ends_guardLastAdmin {next : Transaction} (h : next.Ends D Q w) : (guardLastAdmin u next).Ends D Q w := by
  intro got
  dsimp only
  split
  · trivial
  · split_ifs
    · trivial
    · exact h

theorem ends_ownsAny {ms : List (ℕ × Membership)} {next : Bool → Transaction} (h : ∀ b, (next b).Ends D Q w) :
    (ownsAny ms next).Ends D Q w := by
  induction ms with
  | nil => exact h false
  | cons m ms ih =>
    intro d _
    dsimp only
    split
    · exact ih
    · intro d _
      dsimp only
      split_ifs
      · exact h true
      · exact ih

theorem ends_writeUser {set : User → User} (h : ∀ w', Q w' .other []) : (writeUser u set).Ends D Q w :=
  ⟨trivial, fun _ => h _⟩

/-! ## Requests -/

theorem ends_updateRole {name : Option String} {permissions : Option (Finset Permission)} :
    (updateRole cfg k r a name permissions).Ends D (Request.Ends (.updateRole k r a name permissions) n) [] := by
  have write {checked : Finset Permission} (hc : permissions = none → checked = ∅) :
      (writeRole k r a name permissions checked).Ends D
        (Request.Ends (.updateRole k r a name permissions) n) [] :=
    ⟨trivial, fun x => ⟨⟨⟨x, rfl⟩, rfl⟩, checked, rfl, hc⟩⟩
  cases permissions with
  | none =>
    intro d _
    dsimp only
    split
    · trivial
    · split_ifs
      · trivial
      · exact write fun _ => rfl
  | some validated =>
    refine ends_lockActorCeiling fun ceiling => fun got => ?_
    dsimp only
    split
    · trivial
    · split_ifs
      · trivial
      · exact ends_checkPermissionCeiling (write fun hn => by cases hn)

theorem ends_assignRole : (assignRole k u r a).Ends D (Request.Ends (.assignRole k u r a) n) [] := by
  intro held
  dsimp only
  split
  · trivial
  · rename_i m _
    refine ends_lockActorCeiling fun ceiling => ends_lockRoles fun roles => ?_
    split
    · trivial
    · split_ifs
      · trivial
      · refine ends_checkPermissionCeiling fun d _ => ?_
        dsimp only
        split_ifs
        · trivial
        · exact ⟨⟨rfl, m.1, rfl⟩, _, rfl⟩

theorem ends_createGrant {id : ℕ} {permissions : Finset Permission} :
    (createGrant cfg id k a u v permissions).Ends D (Request.Ends (.createGrant id k a u v permissions) n) [] := by
  unfold createGrant
  split_ifs
  · intro held
    dsimp only
    split
    · trivial
    · rename_i m _
      intro found
      dsimp only
      split_ifs
      · exact ends_enforcePermissionCeiling fun checked => ⟨⟨rfl, m.1, rfl⟩, checked, rfl⟩
      · trivial
  · trivial

theorem ends_unassignRole : (unassignRole k u r).Ends (fun d => n ≤ d.inserted.length)
    (Request.Ends (.unassignRole k u r) n) [] := by
  intro d hd
  dsimp only
  split
  · trivial
  · rename_i m _
    intro d' _
    dsimp only
    split
    · trivial
    · split_ifs
      · trivial
      · refine ends_guardLastOwner fun unheld => ⟨trivial, ?_⟩
        cases unheld with
        | false => exact .inl rfl
        | true => exact .inr ⟨m.1, _, hd, rfl⟩
      · exact ⟨trivial, .inl rfl⟩

/-- The end of a deletion of an account, whoever asks for it. -/
theorem ends_deleteAccount {q : Request} (hq : ∀ n', n ≤ n' → q.Ends n [] (.account u n') []) :
    (deleteAccount u).Ends (fun d => n ≤ d.inserted.length) (q.Ends n) [] := by
  intro d hd
  refine ends_ownsAny fun owns => ?_
  dsimp only
  split_ifs
  · trivial
  · exact ends_guardLastAdmin (hq _ hd)

theorem ends_setPlatformAdmin {grant : Bool} :
    (setPlatformAdmin u grant).Ends D (Request.Ends (.setPlatformAdmin u grant) n) [] := by
  have write {set : User → User} : (writeUser u set).Ends D (Request.Ends (.setPlatformAdmin u grant) n) [] :=
    ends_writeUser fun _ => ⟨trivial, rfl⟩
  unfold setPlatformAdmin
  split_ifs with hgrant
  · intro d _
    dsimp only
    split_ifs
    · exact write
    · trivial
  · exact ends_guardLastAdmin write

theorem ends_setUserActive {active : Bool} :
    (setUserActive a u active).Ends D (Request.Ends (.setUserActive a u active) n) [] := by
  have write {set : User → User} : (writeUser u set).Ends D (Request.Ends (.setUserActive a u active) n) [] :=
    ends_writeUser fun _ => ⟨trivial, rfl⟩
  unfold setUserActive
  split_ifs
  · intro d _
    dsimp only
    split_ifs
    · exact write
    · trivial
  · trivial
  · exact ends_guardLastAdmin write

theorem ends_persistNewUser {id : ℕ} {registrationOpen : Bool} :
    (persistNewUser id registrationOpen).Ends D (Request.Ends (.registerUser id registrationOpen) n) [] := by
  intro got d _
  dsimp only
  split_ifs
  · exact ⟨trivial, rfl⟩
  · exact ⟨trivial, rfl⟩
  · trivial

/-- **Every request.** -/
theorem ends_transaction (q : Request) (n : ℕ) :
    (q.transaction cfg).Ends (fun d => n ≤ d.inserted.length) (q.Ends n) [] := by
  cases q with
  | createRole id k a name permissions =>
    show Tx.Ends _ _ (if _ then _ else _) _
    split_ifs
    · exact ends_enforcePermissionCeiling fun checked => ⟨⟨rfl, rfl⟩, checked, rfl⟩
    · trivial
  | updateRole k r a name permissions => exact ends_updateRole
  | deleteRole k r | revokeGrant k g =>
    intro d _
    dsimp only
    split
    · trivial
    · split_ifs
      · trivial
      · exact ⟨trivial, rfl⟩
  | assignRole k u r a => exact ends_assignRole
  | unassignRole k u r => exact ends_unassignRole
  | createGrant id k a u v permissions => exact ends_createGrant
  | addMember id k u | provisionCommunity community role membership owner =>
    intro d _
    dsimp only
    split_ifs
    · exact ⟨trivial, rfl⟩
    · trivial
  | removeMember k u =>
    intro membership
    dsimp only
    split
    · trivial
    · exact ends_guardLastOwner fun _ => ⟨trivial, rfl⟩
  | createServer id k => exact ⟨trivial, rfl⟩
  | registerUser id registrationOpen => exact ends_persistNewUser
  | setPlatformAdmin u grant => exact ends_setPlatformAdmin
  | setUserActive a u active => exact ends_setUserActive
  | deleteAccount u => exact ends_deleteAccount fun n' hn => ⟨trivial, n', hn, rfl⟩
  | adminDeleteUser a u =>
    show Tx.Ends _ _ (if u = a then .abort else deleteAccount u) _
    split_ifs
    · trivial
    · exact ends_deleteAccount fun n' hn => ⟨trivial, n', hn, rfl⟩

end McServerDashboard.Community
