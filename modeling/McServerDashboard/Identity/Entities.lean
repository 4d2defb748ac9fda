import Mathlib.Data.List.Induction
import Mathlib.Data.Int.Notation
import McServerDashboard.Lib.Locks

/-!
# Users and refresh tokens

The rows of the identity tables and what the repository's statements do to them.

* `RefreshToken`, `Closed`: a token, and when it is revoked for good.
* `Scope`, `Revoke`: the revoking `UPDATE` statements.
* `Write`: the effect of an executed statement; `view`: the token table as a transaction with
  uncommitted effects sees it.
-/

namespace McServerDashboard.Identity

abbrev UserId := ℕ
abbrev TokenId := ℕ
abbrev TokenHash := ℕ
abbrev ChainId := ℕ
abbrev Time := ℤ

/-- A stored password hash. Hashes are salted: they are numbered as they are made. -/
abbrev PasswordHash := ℕ

/-- What the session operations read of a user row. -/
structure User where
  passwordHash : PasswordHash
  active : Bool
  deriving DecidableEq

/-- The `REVOKED_*` codes. -/
inductive Reason
  | rotated
  | family
  | logout
  | user
  | superseded
  deriving DecidableEq

structure RefreshToken where
  id : TokenId
  userId : UserId
  chainId : ChainId
  tokenHash : TokenHash
  issuedAt : Time
  expiresAt : Time
  revokedAt : Option Time
  revokedReason : Option Reason
  deriving DecidableEq

namespace RefreshToken

variable (x : RefreshToken)

/-- `is_active`. -/
def isActive (now : Time) : Bool := x.revokedAt = none && now < x.expiresAt

/-- `revoked_at IS NULL OR revoked_reason = 'rotated'`. -/
def isOpen : Bool := x.revokedAt = none || x.revokedReason = some .rotated

/-- Revoked, and not by a rotation: no grace applies. -/
def Closed : Prop := x.revokedAt ≠ none ∧ x.revokedReason ≠ some .rotated

variable {x}

theorem closed_iff : x.Closed ↔ x.isOpen = false := by
  simp [Closed, isOpen]

end RefreshToken

/-! ## Statements -/

/-- The rows a revoking statement is about. -/
inductive Scope
  /-- `revoke`: one token, whatever its state. -/
  | token (h : TokenHash)
  /-- `revoke_chain`. -/
  | chain (k : ChainId)
  /-- `revoke_all_for_user`, and `revoke_all_for_user_except` with a token to keep. -/
  | user (u : UserId) (keepHash : Option TokenHash) (keepId : Option TokenId)
  deriving DecidableEq

/-- The scope names the row, whether or not it is open. -/
def Scope.covers (x : RefreshToken) : Scope → Bool
  | token h => x.tokenHash = h
  | chain k => x.chainId = k
  | user u keepHash keepId => x.userId = u && keepHash ≠ some x.tokenHash && keepId ≠ some x.id

/-- A revoking `UPDATE`. -/
structure Revoke where
  scope : Scope
  revokedAt : Time
  reason : Reason
  deriving DecidableEq

namespace Revoke

/-- A statement that ends what it covers; `revoke` retires a single token. -/
def ends (r : Revoke) : Bool :=
  match r.scope with
  | .token _ => false
  | _ => true

/-- The `WHERE` of the statement. -/
def selects (r : Revoke) (x : RefreshToken) : Bool :=
  r.scope.covers x && (!r.ends || x.isOpen)

/-- The `SET` of the statement: all but `revoke` keep an earlier `revoked_at`. -/
def set (r : Revoke) (x : RefreshToken) : RefreshToken :=
  { x with
    revokedAt := some (if r.ends then x.revokedAt.getD r.revokedAt else r.revokedAt)
    revokedReason := some r.reason }

end Revoke

inductive Stmt
  | revoke (r : Revoke)
  /-- `add`. -/
  | add (x : RefreshToken)
  /-- `users.delete`. -/
  | delete (u : UserId)
  deriving DecidableEq

/-- What an executed statement will have done when its transaction commits. A revocation has chosen
its `rows`: one stored later is not among them. -/
inductive Write
  | revoked (r : Revoke) (rows : List TokenHash)
  | added (x : RefreshToken)
  /-- The user row is gone, and its tokens by `ON DELETE CASCADE`. -/
  | deleted (u : UserId)
  | passwordChanged (u : UserId) (new : PasswordHash)
  | activeSet (u : UserId) (active : Bool)
  deriving DecidableEq

namespace Write

/-- What becomes of a stored token. A chosen row is checked again as it is now. -/
def onToken : Write → RefreshToken → Option RefreshToken
  | revoked r rows, x => some (if x.tokenHash ∈ rows ∧ r.selects x then r.set x else x)
  | deleted u, x => if x.userId = u then none else some x
  | _, x => some x

def newTokens : Write → List RefreshToken
  | added x => [x]
  | _ => []

def onTokens (w : Write) (l : List RefreshToken) : List RefreshToken :=
  l.filterMap w.onToken ++ w.newTokens

def onUsers (users : UserId → Option User) : Write → UserId → Option User
  | deleted u => Function.update users u none
  | passwordChanged u new =>
    Function.update users u ((users u).map fun x => { x with passwordHash := new })
  | activeSet u active => Function.update users u ((users u).map fun x => { x with active := active })
  | _ => users

end Write

/-- The tokens as a transaction that has executed `ws` sees them, and leaves them when it commits. -/
def view (l : List RefreshToken) (ws : List Write) : List RefreshToken :=
  ws.foldl (fun l w => w.onTokens l) l

/-- The users, likewise. -/
def usersView (users : UserId → Option User) (ws : List Write) : UserId → Option User :=
  ws.foldl (fun users w => w.onUsers users) users

/-- The effect of a statement executed after `ws`. -/
def Stmt.execute (l : List RefreshToken) (ws : List Write) : Stmt → Write
  | revoke r => .revoked r (((view l ws).filter r.selects).map (·.tokenHash))
  | add x => .added x
  | delete u => .deleted u

/-! ## What a statement leaves of a token -/

/-- `y` is a later version of the row `x`. -/
def SameRow (x y : RefreshToken) : Prop :=
  y.id = x.id ∧ y.userId = x.userId ∧ y.chainId = x.chainId ∧ y.tokenHash = x.tokenHash

variable {x y z : RefreshToken} {w : Write} {ws vs : List Write} {l l' : List RefreshToken} {r : Revoke}

theorem SameRow.refl : SameRow x x := ⟨rfl, rfl, rfl, rfl⟩

theorem SameRow.trans (h : SameRow x y) (h' : SameRow y z) : SameRow x z :=
  ⟨h'.1.trans h.1, h'.2.1.trans h.2.1, h'.2.2.1.trans h.2.2.1, h'.2.2.2.trans h.2.2.2⟩

theorem SameRow.covers (h : SameRow x y) (sc : Scope) : sc.covers y = sc.covers x := by
  cases sc <;> simp [Scope.covers, h.1, h.2.1, h.2.2.1, h.2.2.2]

theorem sameRow_set : SameRow x (r.set x) := ⟨rfl, rfl, rfl, rfl⟩

theorem sameRow_onToken (h : w.onToken x = some y) : SameRow x y := by
  cases w with
  | revoked r rows =>
    rw [Write.onToken, Option.some.injEq] at h
    split_ifs at h <;> subst h
    · exact sameRow_set
    · exact .refl
  | deleted u =>
    rw [Write.onToken] at h
    split_ifs at h
    obtain rfl := Option.some.inj h
    exact .refl
  | added z | passwordChanged u new | activeSet u b =>
    obtain rfl := Option.some.inj h
    exact .refl

/-- A row revoked for another reason than a rotation is closed. -/
theorem closed_set (hr : r.reason ≠ .rotated) : (r.set x).Closed := by
  refine ⟨by simp [Revoke.set], ?_⟩
  show some r.reason ≠ some .rotated
  rwa [ne_eq, Option.some.injEq]

/-! ## What a transaction leaves of a token -/

/-- What the effects of `ws` leave of a stored token. -/
def after (ws : List Write) (x : RefreshToken) : Option RefreshToken :=
  ws.foldl (fun o w => o.bind w.onToken) (some x)

@[simp] theorem view_nil : view l [] = l := rfl

theorem view_append : view l (ws ++ vs) = view (view l ws) vs := List.foldl_append

theorem view_snoc : view l (ws ++ [w]) = w.onTokens (view l ws) := view_append

theorem after_snoc : after (ws ++ [w]) x = (after ws x).bind w.onToken := by
  simp [after, List.foldl_append]

/-- The stored tokens and those the transaction adds are changed independently. -/
theorem view_eq (l : List RefreshToken) (ws : List Write) :
    view l ws = l.filterMap (after ws) ++ view [] ws := by
  induction ws using List.reverseRecOn with
  | nil =>
    show l = l.filterMap some ++ []
    simp
  | append_singleton ws w ih =>
    have hafter : after (ws ++ [w]) = fun x => (after ws x).bind w.onToken := by
      funext x
      exact after_snoc
    rw [view_snoc, view_snoc, ih, hafter, Write.onTokens, Write.onTokens, List.filterMap_append,
      List.filterMap_filterMap, List.append_assoc]

theorem mem_view : y ∈ view l ws ↔ (∃ x ∈ l, after ws x = some y) ∨ y ∈ view [] ws := by
  rw [view_eq, List.mem_append, List.mem_filterMap]

theorem sameRow_after (h : after ws x = some y) : SameRow x y := by
  induction ws using List.reverseRecOn generalizing y with
  | nil =>
    obtain rfl := Option.some.inj h
    exact .refl
  | append_singleton ws w ih =>
    rw [after_snoc, Option.bind_eq_some_iff] at h
    obtain ⟨z, hz, hy⟩ := h
    exact (ih hz).trans (sameRow_onToken hy)

/-- What the transaction adds is a version of a token it stores. -/
theorem added_of_mem_view (h : y ∈ view [] ws) : ∃ x, .added x ∈ ws ∧ SameRow x y := by
  induction ws using List.reverseRecOn generalizing y with
  | nil => exact absurd h List.not_mem_nil
  | append_singleton ws w ih =>
    rw [view_snoc, Write.onTokens, List.mem_append, List.mem_filterMap] at h
    rcases h with ⟨z, hz, hy⟩ | hy
    · obtain ⟨x, hx, hs⟩ := ih hz
      exact ⟨x, List.mem_append_left _ hx, hs.trans (sameRow_onToken hy)⟩
    · cases w with
      | added x =>
        obtain rfl := List.mem_singleton.mp hy
        exact ⟨y, List.mem_append_right _ List.mem_cons_self, .refl⟩
      | revoked r rows | deleted u | passwordChanged u new | activeSet u b =>
        exact absurd hy List.not_mem_nil

/-- A row that no effect names stays as it is. -/
theorem after_eq (h : ∀ w ∈ ws, w.onToken x = some x) : after ws x = some x := by
  induction ws using List.reverseRecOn with
  | nil => rfl
  | append_singleton ws w ih =>
    rw [after_snoc, ih fun v hv => h v (List.mem_append_left _ hv), Option.bind_some]
    exact h w (List.mem_append_right _ List.mem_cons_self)

/-- **What a statement covers is closed once it is executed**, unless it stamps a rotation. -/
theorem closed_of_execute (hr : r.reason ≠ .rotated)
    (hy : y ∈ view l (ws ++ [(Stmt.revoke r).execute l ws])) (hc : r.scope.covers y = true) :
    y.Closed := by
  rw [view_snoc, Write.onTokens, List.mem_append, List.mem_filterMap] at hy
  rcases hy with ⟨x, hx, hy⟩ | hy
  · rw [Stmt.execute, Write.onToken, Option.some.injEq] at hy
    split_ifs at hy with hsel <;> subst hy
    · exact closed_set hr
    · rw [RefreshToken.closed_iff]
      by_contra hopen
      have hs : r.selects x = true := by
        simp [Revoke.selects, hc, Bool.not_eq_false _ ▸ hopen]
      exact hsel ⟨List.mem_map.mpr ⟨x, List.mem_filter.mpr ⟨hx, hs⟩, rfl⟩, hs⟩
  · exact absurd hy List.not_mem_nil

/-- A closed row stays closed, unless it is stamped as rotated. -/
theorem closed_onToken (hw : ∀ r rows, w = .revoked r rows → r.reason ≠ .rotated)
    (h : w.onToken x = some y) (hx : x.Closed) : y.Closed := by
  cases w with
  | revoked r rows =>
    rw [Write.onToken, Option.some.injEq] at h
    split_ifs at h <;> subst h
    · exact closed_set (hw r rows rfl)
    · exact hx
  | deleted u =>
    rw [Write.onToken] at h
    split_ifs at h
    exact Option.some.inj h ▸ hx
  | added z | passwordChanged u new | activeSet u b => exact Option.some.inj h ▸ hx

end McServerDashboard.Identity
