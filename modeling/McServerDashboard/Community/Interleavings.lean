import McServerDashboard.Community.Endings
import McServerDashboard.Community.Owners

/-!
# The interleavings of the requests on communities

* **`conferred_is_held`**: what a request confers is what was checked, and its actor has it at the commit.
* **`last_ones_stay`**: the last Owner stays unless an account is deleted, or Owner unassigned, past a check
  that is out of date; the last active administrator stays.
* `owner_lost`: a check that is out of date.
-/

namespace McServerDashboard.Community

open Lib

variable {cfg : Settings} {c c' : Conf} {t k : ℕ} {tag : Tag} {ins : List Row}
  {P : Conf → ℕ × TxAction Request → Prop}

theorem holds_start : Threads.Holds (Store.Ok spec) (Session.Ok spec) start := by
  refine ⟨⟨nofun, ⟨fun e v he => ?_, fun e he => ?_, by decide⟩, fun r r' x x' hx => ?_⟩, fun t => .idle⟩
  · cases e with
    | bootstrap => exact nofun
    | _ => cases he
  · cases e with
    | bootstrap => exact List.mem_cons_self
    | _ => exact absurd rfl he
  · cases hx

theorem holds_of_reach (h : (threads cfg).machine.Reach P start c) :
    Threads.Holds (Store.Ok spec) (Session.Ok spec) c := by
  unfold threads at h
  exact Tx.holds valid_transaction h holds_start

/-- Every commit is the end of the request that its connection runs. -/
theorem ends_of_reach (h : (threads cfg).machine.Reach P start c) (hx : (c.th t).stage = .run (.commit tag ins)) :
    ∃ q, (c.th t).request = some q ∧ q.Ends (c.th t).began (c.th t).log.sets tag ins := by
  unfold threads at h
  have hruns := Tx.ends ends_transaction h (fun _ => Session.runs_idle (Nat.zero_le _)) t
  exact hruns.committing hx

/-- What every commit of a run keeps. -/
theorem keeps_of_reach {K : Database → Prop} (h₀ : (threads cfg).machine.Reach P start c)
    (h : (threads cfg).machine.Reach P c c') (hc : K c.shared.db)
    (hpost : ∀ c t tag ins, K c.shared.db → P c (t, .step) → (threads cfg).machine.Reach P start c →
      (c.th t).stage = .run (.commit tag ins) → Post c.shared.db (c.th t).log tag ins →
      schema.Accepts c.shared.db (c.th t).log ins → K (c.shared.db.apply (c.th t).log ins)) : K c'.shared.db := by
  have hrun := h.along fun d hd => h₀.trans hd
  refine Tx.keeps hrun hc fun c t tag ins hK hP hx ha => ?_
  exact hpost c t tag ins hK hP.1 hP.2 hx (Tx.committing (holds_of_reach hP.2) hx) ha

/-! ## The permission ceiling -/

/-- What the rows that a request writes confer. -/
theorem conferred_eq {q : Request} {d : Database} {l : Log Key.Row} {a : ℕ} {resource : Option ℕ} {n : ℕ}
    (hq : q.actor = some (a, k, resource)) (he : q.Ends n l.sets tag ins) (hc : tag.Checked d l ins) :
    conferred d l ins = q.confers d := by
  obtain ⟨hw, ht⟩ := he
  cases q with
  | createRole id k a name permissions =>
    obtain ⟨hsets, rfl⟩ := hw
    simp [conferred, hsets, Community.confers, Request.confers]
  | updateRole k r a name permissions =>
    obtain ⟨⟨x, hsets⟩, rfl⟩ := hw
    cases permissions with
    | none =>
      obtain ⟨checked, rfl, hnone⟩ := ht
      exact hc.1.trans (hnone rfl)
    | some permissions => simp [conferred, hsets, adds, Request.confers]
  | assignRole k u r a | createGrant id k a u v permissions =>
    obtain ⟨hsets, m, rfl⟩ := hw
    simp [conferred, hsets, Community.confers, Request.confers]
  | _ => cases hq

/-- What the commit of a request that confers permissions says: the actor is the one who asked. -/
theorem tag_of_actor {q : Request} {a n : ℕ} {resource : Option ℕ} (hq : q.actor = some (a, k, resource))
    (ht : q.Tagged n tag) : ∃ checked, tag = .confers a k resource checked := by
  cases q with
  | createRole id k a name permissions | assignRole k u r a | createGrant id k a u v permissions =>
    cases hq
    exact ht
  | updateRole k r a name permissions =>
    cases hq
    obtain ⟨checked, rfl, -⟩ := ht
    exact ⟨checked, rfl⟩
  | _ => cases hq

/-- **At the commit of a request that confers permissions: what the committed rows confer is what the request
confers, it is what was checked, and the actor of the request holds it then. No other request confers
anything, except that a new community comes with its Owner.** -/
theorem conferred_is_held (h : (threads cfg).machine.Reach Machine.Any start c)
    (hx : (c.th t).stage = .run (.commit tag ins)) :
    ∃ q, (c.th t).request = some q ∧ q.Writes (c.th t).log.sets ins ∧
      (∀ a k resource, q.actor = some (a, k, resource) →
        conferred c.shared.db (c.th t).log ins = q.confers c.shared.db ∧
          tag = .confers a k resource (q.confers c.shared.db) ∧
          ∀ p ∈ q.confers c.shared.db, Holds (Has c.shared.db) a k resource p) ∧
      (q.actor = none → conferred c.shared.db (c.th t).log ins ≠ ∅ →
        ∃ community role membership owner, q = .provisionCommunity community role membership owner) := by
  have hc : tag.Checked _ _ _ := (Tx.committing (holds_of_reach h) hx).checked
  obtain ⟨q, hq, he⟩ := ends_of_reach h hx
  refine ⟨q, hq, he.1, fun a k resource hactor => ?_, fun hactor hne => ?_⟩
  · have hconf := conferred_eq hactor he hc
    obtain ⟨checked, rfl⟩ := tag_of_actor hactor he.2
    have hchecked : checked = q.confers c.shared.db := hc.1.symm.trans hconf
    subst hchecked
    exact ⟨hconf, rfl, hc.2⟩
  · have ht := he.2
    cases q with
    | provisionCommunity community role membership owner => exact ⟨community, role, membership, owner, rfl⟩
    | unassignRole k u r =>
      rcases ht with rfl | ⟨m, n, -, rfl⟩ <;> exact absurd hc hne
    | deleteAccount u | adminDeleteUser a u =>
      obtain ⟨n, -, rfl⟩ := ht
      exact absurd hc hne
    | createRole id k a name permissions => cases hactor
    | updateRole k r a name permissions => cases hactor
    | assignRole k u r a => cases hactor
    | createGrant id k a u v permissions => cases hactor
    | _ =>
      obtain rfl : tag = .other := ht
      exact absurd hc hne

/-- The steps of a request on a connection. -/
def steps (t : ℕ) (q : Request) (n : ℕ) : List (ℕ × TxAction Request) :=
  (t, .begin q) :: List.replicate n (t, .step)

/-- User 1 owns community 0, user 2 is a member of it, and user 0 is the administrator. -/
def settled : List (ℕ × TxAction Request) :=
  steps 0 (.registerUser 0 true) 5 ++ steps 0 (.registerUser 1 true) 5 ++ steps 0 (.registerUser 2 true) 5 ++
    steps 0 (.provisionCommunity 0 0 0 1) 2 ++ steps 0 (.addMember 1 0 2) 2

def catalogs : Settings := ⟨{1, 2, 3}, {2, 3}⟩

/-- Whether the next step commits. -/
def Stage.isCommit : Stage Key.Row Tag → Bool
  | .run (.commit _ _) => true
  | _ => false

/-- The Owner creates a role. -/
theorem conferred_is_held_createRole : ∃ c tag ins, (threads catalogs).machine.Reach Machine.Any start c ∧
    (c.th 0).stage = .run (.commit tag ins) ∧ ins = [⟨.role 1, ⟨0, "moderators", {2}, false⟩⟩] ∧
    tag = .confers 1 0 none {2} ∧ conferred c.shared.db (c.th 0).log ins = {2} ∧
    Holds (Has c.shared.db) 1 0 none 2 := by
  have h : ((threads catalogs).machine.exec (settled ++ steps 0 (.createRole 1 0 1 "moderators" {2}) 10) start).map
      (fun c => (Stage.isCommit (c.th 0).stage, (c.th 0).request)) =
        some (true, some (.createRole 1 0 1 "moderators" {2})) := by decide +kernel
  obtain ⟨c, hc, hb⟩ := Machine.reach_of_exec_map h
  rw [Prod.mk.injEq] at hb
  obtain ⟨hcommit, hrequest⟩ := hb
  cases hx : (c.th 0).stage with
  | run p =>
    cases p with
    | commit tag ins =>
      obtain ⟨q, hq, hw, hheld, -⟩ := conferred_is_held hc hx
      obtain rfl : Request.createRole 1 0 1 "moderators" {2} = q := Option.some.inj (hrequest.symm.trans hq)
      obtain ⟨hconf, htag, hp⟩ := hheld 1 0 none rfl
      exact ⟨c, tag, ins, hc, hx, hw.2, htag, hconf, hp 2 (Finset.mem_singleton_self 2)⟩
    | _ => simp [hx, Stage.isCommit] at hcommit
  | _ => simp [hx, Stage.isCommit] at hcommit

/-! ## The last Owner and the last administrator -/

/-- The memberships that lose their roles by the request, and not past a guard that holds them: those of an
account that is deleted, and the one that Owner is unassigned from though nobody was found to hold it. -/
def Request.Unguarded (tag : Tag) (m : ℕ) (x : Membership) : Request → Prop
  | deleteAccount u => x.userId = u
  | adminDeleteUser _ u => x.userId = u
  | unassignRole _ _ _ => ∃ n, tag = .unheld m n
  | _ => False

/-- No commit takes a role Owner, without a guard, that was assigned after its transaction had begun. -/
def NotAssignedSince (c : Conf) (x : ℕ × TxAction Request) : Prop :=
  ∀ q tag ins, x.2 = .step → (c.th x.1).request = some q → (c.th x.1).stage = .run (.commit tag ins) →
    ∀ k m y r, Owner c.shared.db k m y r → q.Unguarded tag m y →
      .assignment m r ∉ c.shared.db.since (c.th x.1).began

theorem mem_since_mono {d : Database} {n n' : ℕ} {e : Key} (h : n ≤ n') (he : e ∈ d.since n') : e ∈ d.since n :=
  (List.drop_sublist_drop_left d.inserted h).subset he

/-- A role Owner that a commit may take was assigned since its transaction began. -/
theorem not_risks {q : Request} {d : Database} {m n r : ℕ} {x : Membership} (ht : q.Tagged n tag)
    (hs : q.Unguarded tag m x → .assignment m r ∉ d.since n) : ¬tag.Risks d m x r := by
  intro hr
  cases q with
  | deleteAccount u | adminDeleteUser a u =>
    obtain ⟨n', hn, rfl⟩ := ht
    exact hs hr.1 (mem_since_mono hn hr.2)
  | unassignRole k u r' =>
    rcases ht with rfl | ⟨m', n', hn, rfl⟩
    · exact hr
    · obtain ⟨rfl, hin⟩ := hr
      exact hs ⟨n', rfl⟩ (mem_since_mono hn hin)
  | createRole id k a name permissions | assignRole k u r a | createGrant id k a u v permissions =>
    obtain ⟨checked, rfl⟩ := ht
    exact hr
  | updateRole k r a name permissions =>
    obtain ⟨checked, rfl, -⟩ := ht
    exact hr
  | provisionCommunity community role membership owner =>
    obtain rfl : tag = .provision := ht
    exact hr
  | _ =>
    obtain rfl : tag = .other := ht
    exact hr

/-- **A community keeps an Owner, and the platform an active administrator.** -/
theorem last_ones_stay :
    (∀ c c', (threads cfg).machine.Reach NotAssignedSince start c →
      (threads cfg).machine.Reach NotAssignedSince c c' →
      ∀ k, HasOwner c.shared.db k → HasOwner c'.shared.db k) ∧
    ∀ c c', (threads cfg).machine.Reach Machine.Any start c → (threads cfg).machine.Reach Machine.Any c c' →
      HasAdmin c.shared.db → HasAdmin c'.shared.db := by
  refine ⟨fun c c' h₀ h k hc => ?_, fun c c' h₀ h hc => ?_⟩
  · refine keeps_of_reach (K := (HasOwner · k)) h₀ h hc fun c t tag ins hK hP hr hx hpost ha => ?_
    obtain ⟨q, hq, -, ht⟩ := ends_of_reach hr hx
    obtain ⟨m, x, r, ho⟩ := hK
    exact hpost.hasOwner ha ho (not_risks ht (hP q tag ins rfl hq hx k m x r ho))
  · exact keeps_of_reach h₀ h hc fun c t tag ins hK _ _ _ hpost ha => hpost.hasAdmin ha hK

/-- The request takes no member's roles without a guard, or nobody was assigned a role since it began. -/
def Connection.isGuarded (d : Database) (p : Connection) : Bool :=
  (match p.request with
    | some (.deleteAccount _) => false
    | some (.adminDeleteUser _ _) => false
    | some (.unassignRole _ _ _) => false
    | _ => true) ||
  (d.since p.began).all fun e => match e with | .assignment _ _ => false | _ => true

theorem notAssignedSince_of_guarded {x : ℕ × TxAction Request}
    (h : Connection.isGuarded c.shared.db (c.th x.1) = true) : NotAssignedSince c x := by
  rintro q tag ins - hq - k m y r - hu hin
  rw [Connection.isGuarded, Bool.or_eq_true] at h
  rcases h with h | h
  · rw [hq] at h
    cases q with
    | deleteAccount u => cases h
    | adminDeleteUser a u => cases h
    | unassignRole k u r => cases h
    | _ => exact hu
  · have := List.all_eq_true.mp h _ hin
    cases this

/-- User 2 is made an Owner, user 1 is removed, and the account of user 1 is deleted. -/
theorem last_ones_stay_removeMember : ∃ c c',
    (threads catalogs).machine.Reach Machine.Any start c ∧ (threads catalogs).machine.Reach Machine.Any c c' ∧
    c'.shared.db.rows (.membership 0) = none ∧ c'.shared.db.rows (.user 1) = none ∧
    HasOwner c'.shared.db 0 ∧ HasAdmin c'.shared.db := by
  let M := (threads catalogs).machine.guard fun c x => Connection.isGuarded c.shared.db (c.th x.1) = true
  have h : (M.exec settled start).bind (fun c =>
      (M.exec (steps 0 (.assignRole 0 2 0 1) 19 ++ steps 0 (.removeMember 0 1) 13 ++
        steps 1 (.deleteAccount 1) 9) c).map fun c' =>
        decide (c.shared.db.rows (.membership 0) = some ⟨1, 0⟩ ∧
          c.shared.db.rows (.role 0) = some ⟨0, ownerRoleName, {1, 2, 3}, true⟩ ∧
          c.shared.db.rows (.assignment 0 0) = some () ∧ c.shared.db.rows (.user 0) = some ⟨true, true⟩ ∧
          c'.shared.db.rows (.membership 0) = none ∧ c'.shared.db.rows (.user 1) = none)) = some true := by decide +kernel
  obtain ⟨c, hc, h'⟩ := Option.bind_eq_some_iff.mp h
  obtain ⟨c', hc', hp⟩ := Machine.reach_of_exec_map h'
  obtain ⟨hm, hr, ha, hu, hgone, hdeleted⟩ := of_decide_eq_true hp
  have h₁ := (Machine.reach_of_guard (Machine.reach_of_exec hc)).mono fun _ _ => notAssignedSince_of_guarded
  have h₂ := (Machine.reach_of_guard hc').mono fun _ _ => notAssignedSince_of_guarded
  exact ⟨c, c', h₁.any, h₂.any, hgone, hdeleted,
    last_ones_stay.1 c c' h₁ h₂ 0 ⟨0, ⟨1, 0⟩, 0, hm, rfl, ⟨_, hr, rfl, rfl⟩, ha⟩,
    last_ones_stay.2 c c' h₁.any h₂.any ⟨0, _, hu, rfl⟩⟩

/-- User 2 owns no community when the deletion of the account looks; then user 2 is made an Owner, and user 1,
the other one, is removed. -/
def outdated : List (ℕ × TxAction Request) :=
  steps 1 (.deleteAccount 2) 3 ++ steps 0 (.assignRole 0 2 0 1) 19 ++ steps 0 (.removeMember 0 1) 13 ++
    List.replicate 10 (1, .step)

/-- A community loses its last Owner. -/
theorem owner_lost : ∃ c c', (threads catalogs).machine.Reach Machine.Any start c ∧
    (threads catalogs).machine.Reach Machine.Any c c' ∧ HasOwner c.shared.db 0 ∧ ¬HasOwner c'.shared.db 0 := by
  let M := (threads catalogs).machine
  have h : (M.exec settled start).bind (fun c => (M.exec outdated c).map fun c' =>
      decide (c.shared.db.rows (.membership 0) = some ⟨1, 0⟩ ∧
        c.shared.db.rows (.role 0) = some ⟨0, ownerRoleName, {1, 2, 3}, true⟩ ∧
        c.shared.db.rows (.assignment 0 0) = some () ∧ select c'.shared.db assignment? (fun _ => true) = [])) = some true := by decide +kernel
  obtain ⟨c, hc, h'⟩ := Option.bind_eq_some_iff.mp h
  obtain ⟨c', hc', hp⟩ := Machine.reach_of_exec_map h'
  obtain ⟨hm, hr, ha, hnone⟩ := of_decide_eq_true hp
  have h₁ := Machine.reach_of_exec hc
  refine ⟨c, c', h₁, hc', ⟨0, ⟨1, 0⟩, 0, hm, rfl, ⟨_, hr, rfl, rfl⟩, ha⟩, ?_⟩
  rintro ⟨m, x, r, ho⟩
  have hk := (holds_of_reach (h₁.trans hc')).shared.wf.keys _ (ho.assigned ▸ Option.some_ne_none ())
  have hmem : (m, r) ∈ select c'.shared.db assignment? fun _ => true :=
    mem_select.mpr ⟨⟨.assignment m r, ()⟩, hk, ho.assigned, rfl, rfl⟩
  rw [hnone] at hmem
  cases hmem

end McServerDashboard.Community
