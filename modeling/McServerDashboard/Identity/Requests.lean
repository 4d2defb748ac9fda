import McServerDashboard.Identity.Stored

/-!
# What a request ends

* `Request.Revokes`: the statements by which a request ends sessions, by the rows there are.
* `Serves`: a connection has begun the request, and has since taken steps of it only.
* `Carries`, `Follows`: the transaction executes these statements, or has.
* **`sessions_end_for_good`**: when a request has committed, every chain it is to end is over in every
  later state; after a password change so is every chain of a login that checked an earlier
  password, and after a deactivation every chain of the user.
-/

namespace McServerDashboard.Identity

open Lib

variable {cfg : Settings} {s s' : Db} {t u : ℕ} {p : Pos} {f : Fresh} {ws : List Write}
  {stmts : List Stmt} {k : ChainId} {x y : RefreshToken} {c₀ c d : Conf} {now : Time} {r : Request}
  {q : Presented} {n : PasswordHash} {v : Revoke}

/-- The statements by which the request ends sessions, where `l` are the rows. -/
def Request.Revokes (cfg : Settings) (l : List RefreshToken) : Request → Revoke → Prop
  | present (.logout hash superseded now), v => ∃ x ∈ l,
      (x.tokenHash = hash ∧ v = ⟨.chain x.chainId, now, .logout⟩) ∨
        superseded = some x.tokenHash ∧ x.tokenHash ≠ hash ∧
          v = ⟨.chain x.chainId, now, .superseded⟩
  -- A theft ends all sessions of the owner, a rotation the chain of a cookie that is of another.
  | present (.refresh hash superseded now), v => ∃ x ∈ l, x.tokenHash = hash ∧
      if reused cfg x now then v = ⟨.user x.userId none none, now, .family⟩
      else ∃ y ∈ l, superseded = some y.tokenHash ∧ y.chainId ≠ x.chainId ∧
        v = ⟨.chain y.chainId, now, .superseded⟩
  | login _ _, _ => False
  | revokeSession u id now, v => ∃ x ∈ l, x.id = id ∧ x.userId = u ∧
      (∃ y ∈ l, y.chainId = x.chainId ∧ y.revokedAt = none) ∧
      (∀ y ∈ l, y.id = id → y.userId = u → y.chainId = x.chainId) ∧
      v = ⟨.chain x.chainId, now, .user⟩
  | revokeOtherSessions u keepHash keepId now, v => v = ⟨.user u keepHash keepId, now, .user⟩
  | changePassword u now, v => v = ⟨.user u none none, now, .family⟩
  | setUserActive u active now, v => active = false ∧ v = ⟨.user u none none, now, .family⟩
  | deleteAccount u now, v => v = ⟨.user u none none, now, .family⟩

/-- The users by whose rows the request decides. -/
def Request.Decides (l : List RefreshToken) : Request → UserId → Prop
  | present q, u => ∃ x ∈ l, x.tokenHash ∈ q.hashes ∧ x.userId = u
  | revokeSession v _ _, u => u = v
  | _, _ => False

def Action.isStep : Action → Bool
  | step _ => true
  | _ => false

/-- `t` begins nothing and is not rolled back from outside. -/
def GoesOn (t : ℕ) (_ : Conf) (m : ℕ × Action) : Prop := m.1 = t → m.2.isStep = true

instance (t : ℕ) (c : Conf) (m : ℕ × Action) : Decidable (GoesOn t c m) :=
  inferInstanceAs (Decidable (_ → _))

variable (cfg) in
/-- `t` has begun `r` in `c₀`, and has since taken steps of it only. -/
structure Serves (t : ℕ) (r : Request) (c₀ c : Conf) : Prop where
  begins : (threads cfg).machine.pre c₀ (t, .begin r)
  steps : (threads cfg).machine.Reach (GoesOn t) ((threads cfg).step c₀ t (.begin r)) c

/-- The transaction executes the statement, or has. -/
def Issues (stmts : List Stmt) (ws : List Write) (v : Revoke) : Prop :=
  .revoke v ∈ stmts ∨ ∃ rows, .revoked v rows ∈ ws

/-! ## The statements of a transaction -/

variable (cfg) in
/-- The statements are those of the request; a new password has a number from `n` on. -/
structure Carries (r : Request) (n : PasswordHash) (s : Db) (t : ℕ) (stmts : List Stmt)
    (ws : List Write) : Prop where
  issues : ∀ v, r.Revokes cfg s.tokens v → Issues stmts ws v
  out : ∀ h ∈ r.hashes, s.secrets h = .out
  locked : ∀ u, r.Decides s.tokens u → Has cfg s t u
  password : ∀ u now, r = .changePassword u now → ∃ new, n ≤ new ∧ .passwordChanged u new ∈ ws
  inactive : ∀ u now, r = .setUserActive u false now → .activeSet u false ∈ ws

variable (cfg) in
/-- Where the transaction of the request stands. -/
def Follows (r : Request) (n : PasswordHash) (s : Db) (t : ℕ) : Pos → Prop
  | .idle => True
  | .owners q => r = .present q ∧ ∀ h ∈ r.hashes, s.secrets h = .out
  | .changing u _ now => r = .changePassword u now ∧ n ≤ s.nextHash
  | .activating u active now => r = .setUserActive u active now
  | .removing u now => r = .deleteAccount u now
  | .locking _ (.reread q) _ => r = .present q ∧ ∀ h ∈ r.hashes, s.secrets h = .out
  | .locking _ (.recheck u _ now) _ => r = .login u now
  | .locking _ (.findChain u id now) _ => r = .revokeSession u id now
  | .locking _ (.statements l) ws => Carries cfg r n s t l ws
  | .run stmts ws => Carries cfg r n s t stmts ws

/-- The rows a request decides by are not touched by the others. -/
theorem Carries.oldRow (h : Spares cfg s s' u) (hu : t ≠ u) (hc : Carries cfg (.present q) n s t stmts ws)
    (hx : x ∈ s'.tokens) (hh : x.tokenHash ∈ q.hashes) : x ∈ s.tokens := by
  obtain ⟨z, hz, hs⟩ := h.oldRow hx (hc.out _ hh)
  refine h.kept t hu x hx (hc.locked _ ⟨z, hz, ?_, hs.2.1.symm⟩)
  rwa [← hs.2.2.2]

/-- So what it is to end stays the same. -/
theorem Carries.revokes (h : Spares cfg s s' u) (hi' : Inv s') (hu : t ≠ u)
    (hc : Carries cfg r n s t stmts ws) (hv : r.Revokes cfg s'.tokens v) : r.Revokes cfg s.tokens v := by
  cases r with
  | present q =>
    cases q with
    | refresh hash superseded now =>
      obtain ⟨x, hx, hh, hv⟩ := hv
      refine ⟨x, hc.oldRow h hu hx (by simp [Presented.hashes, hh]), hh, ?_⟩
      split_ifs at hv ⊢
      · exact hv
      · obtain ⟨y, hy, hsup, hv⟩ := hv
        exact ⟨y, hc.oldRow h hu hy (by simp [Presented.hashes, hsup]), hsup, hv⟩
    | logout hash superseded now =>
      obtain ⟨x, hx, hv⟩ := hv
      refine ⟨x, hc.oldRow h hu hx ?_, hv⟩
      rcases hv with ⟨hh, -⟩ | ⟨hsup, -⟩
      · simp [Presented.hashes, hh]
      · simp [Presented.hashes, hsup]
  | revokeSession w id now =>
    obtain ⟨x, hx, hid, hxw, ⟨y, hy, hyx, hr⟩, hone, hv⟩ := hv
    have hw : Has cfg s t w := hc.locked w rfl
    obtain ⟨hash, ho⟩ := (hi'.row x hx).1
    have hyw : y.userId = w := (hi'.owner hy (hyx ▸ ho)).trans hxw
    exact ⟨x, h.kept t hu x hx (hxw ▸ hw), hid, hxw, ⟨y, h.kept t hu y hy (hyw ▸ hw), hyx, hr⟩,
      fun z hz hzi hzw => hone z (h.stays t hu z hz (hzw ▸ hw)) hzi hzw, hv⟩
  | login w now | revokeOtherSessions w kh ki now | changePassword w now | setUserActive w b now
  | deleteAccount w now => exact hv

theorem Carries.spared (h : Spares cfg s s' u) (hi' : Inv s') (hu : t ≠ u)
    (hc : Carries cfg r n s t stmts ws) : Carries cfg r n s' t stmts ws where
  issues v hv := hc.issues v (hc.revokes h hi' hu hv)
  out g hg := h.out g (hc.out g hg)
  locked w hw := by
    refine h.has hu (hc.locked w ?_)
    cases r with
    | present q =>
      obtain ⟨x, hx, hh, hxw⟩ := hw
      exact ⟨x, hc.oldRow h hu hx hh, hh, hxw⟩
    | revokeSession z id now => exact hw
    | login z now | revokeOtherSessions z kh ki now | changePassword z now | setUserActive z b now
    | deleteAccount z now => exact absurd hw id
  password := hc.password
  inactive := hc.inactive

/-- The steps of the others do not change where a request stands. -/
theorem Follows.spared (h : Spares cfg s s' u) (hi' : Inv s') (hu : t ≠ u)
    (hf : Follows cfg r n s t p) : Follows cfg r n s' t p := by
  cases p with
  | idle => trivial
  | owners q => exact ⟨hf.1, fun g hg => h.out g (hf.2 g hg)⟩
  | changing w e now => exact ⟨hf.1, hf.2.trans h.next⟩
  | activating w b now | removing w now => exact hf
  | run stmts ws => exact Carries.spared h hi' hu hf
  | locking keys next ws =>
    cases next with
    | reread q => exact ⟨hf.1, fun g hg => h.out g (hf.2 g hg)⟩
    | recheck w e now | findChain w id now => exact hf
    | statements l => exact Carries.spared h hi' hu hf

/-! ## The steps of the request -/

/-- A request that ends all sessions of a user, but one to keep. -/
theorem carries_user (hh : r.hashes = []) (hl : ∀ w, ¬r.Decides s.tokens w)
    (hv : ∀ v, r.Revokes cfg s.tokens v → Issues stmts ws v)
    (hp : ∀ w now, r = .changePassword w now → ∃ new, n ≤ new ∧ .passwordChanged w new ∈ ws)
    (ha : ∀ w now, r = .setUserActive w false now → .activeSet w false ∈ ws) :
    Carries cfg r n s t stmts ws :=
  ⟨hv, by simp [hh], fun w hw => absurd hw (hl w), hp, ha⟩

theorem issues_revokeAllForUser {w : UserId} {l : List Stmt}
    (hv : v = ⟨.user w none none, now, .family⟩) : Issues (revokeAllForUser w now ++ l) ws v := by
  subst hv
  exact .inl List.mem_cons_self

theorem Carries.execute {st : Stmt} (hc : Carries cfg r n s t (st :: stmts) ws) :
    Carries cfg r n s t stmts (ws ++ [st.execute s.tokens ws]) where
  issues v hv := by
    rcases hc.issues v hv with h | ⟨rows, h⟩
    · rcases List.mem_cons.mp h with rfl | h
      · exact .inr ⟨_, List.mem_append_right _ List.mem_cons_self⟩
      · exact .inl h
    · exact .inr ⟨rows, List.mem_append_left _ h⟩
  out := hc.out
  locked := hc.locked
  password w now h := by
    obtain ⟨new, hn, hw⟩ := hc.password w now h
    exact ⟨new, hn, List.mem_append_left _ hw⟩
  inactive w now h := List.mem_append_left _ (hc.inactive w now h)

/-- **What a refresh is to end, its script ends.** -/
theorem issues_refresh (hs : Stored s) {hash : TokenHash} {superseded : Option TokenHash}
    {l : List Stmt} (h : RefreshSession.script cfg s.lookup hash superseded now f = some l)
    (hv : Request.Revokes cfg s.tokens (.present (.refresh hash superseded now)) v) :
    Issues l ws v := by
  obtain ⟨x, hx, rfl, hv⟩ := hv
  rw [RefreshSession.script, hs.lookup hx] at h
  dsimp only at h
  split_ifs at h hv with _ hreused
  · obtain rfl := Option.some.inj h
    exact hv ▸ .inl List.mem_cons_self
  all_goals
    obtain ⟨y, hy, rfl, hne, rfl⟩ := hv
    obtain rfl := Option.some.inj h
    have hhash : y.tokenHash ≠ x.tokenHash := fun hyx => hne (hs.inv.unique y hy x hx hyx).1
    refine .inl (List.mem_append_right _ (List.mem_cons_of_mem _ ?_))
    rw [Option.bind_some, hs.lookup hy]
    dsimp only
    rw [revokeSuperseded, if_neg hhash, if_neg hne]
    simp

/-- **What a logout is to end, its script ends.** -/
theorem issues_logout (hs : Stored s) {hash : TokenHash} {superseded : Option TokenHash}
    (hv : Request.Revokes cfg s.tokens (.present (.logout hash superseded now)) v) :
    Issues (Logout.script s.lookup hash superseded now) ws v := by
  obtain ⟨x, hx, ⟨rfl, rfl⟩ | ⟨rfl, hne, rfl⟩⟩ := hv
  · refine .inl (List.mem_append_left _ (List.mem_map.mpr ⟨x, ?_, rfl⟩))
    simp [hs.lookup hx]
  · refine .inl (List.mem_append_right _ (List.mem_map.mpr ⟨x, ?_, rfl⟩))
    simp [hs.lookup hx, Option.filter, hne]

/-- **The chain of the token that a caller named is found.** -/
theorem issues_findChain {w : UserId} {id : TokenId}
    (hv : Request.Revokes cfg s.tokens (.revokeSession w id now) v) :
    Issues ((s.chainOf w id).toList.map fun k => .revoke ⟨.chain k, now, .user⟩) ws v := by
  obtain ⟨x, hx, hid, hxw, ⟨y, hy, hyx, hr⟩, hone, rfl⟩ := hv
  refine .inl (List.mem_map.mpr ⟨x.chainId, ?_, rfl⟩)
  rw [Option.mem_toList, Db.chainOf]
  cases hf : s.tokens.find? _ with
  | none =>
    have hnone := List.find?_eq_none.mp hf x hx
    refine absurd ?_ hnone
    simp only [hid, hxw, decide_true, Bool.true_and, List.any_eq_true, Bool.and_eq_true,
      decide_eq_true_eq]
    exact ⟨y, hy, hyx, hr⟩
  | some z =>
    have hz := List.find?_some hf
    simp only [Bool.and_eq_true, decide_eq_true_eq] at hz
    rw [Option.map_some, hone z (List.mem_of_find?_eq_some hf) hz.1.1 hz.1.2]

theorem follows_proceed (hs : Stored s) {next : Next} {keys : List ℤ} (hf : s.secrets f.hash = .unknown)
    (hok : NextOk s t (Has cfg s t) ws next) (h : Follows cfg r n s t (.locking keys next ws)) :
    Follows cfg r n (proceed cfg t s f ws next).1 t (proceed cfg t s f ws next).2 := by
  cases next with
  | reread q =>
    obtain ⟨rfl, -, hown⟩ := hok
    obtain ⟨rfl, hout⟩ := h
    rw [proceed]
    cases hr : q.script cfg s.lookup f with
    | none => trivial
    | some l =>
      refine ⟨fun v hv => ?_, fun g hg => drew_out (o := none) hf (hout g hg), ?_, by simp, by simp⟩
      · cases q with
        | refresh hash superseded now => exact issues_refresh hs hr hv
        | logout hash superseded now =>
          obtain rfl := Option.some.inj hr
          exact issues_logout hs hv
      · rintro w ⟨x, hx, hh, rfl⟩
        exact hown x hx hh
  | recheck w checked now =>
    obtain ⟨rfl, -⟩ := hok
    obtain rfl : r = .login w now := h
    rw [proceed]
    cases s.users w with
    | none => trivial
    | some x =>
      show Follows cfg _ n (ite _ _ _ : Db × Pos).1 t (ite _ _ _ : Db × Pos).2
      split_ifs
      · exact carries_user rfl (fun _ hl => hl) (fun v hv => absurd hv id) (by simp) (by simp)
      · trivial
  | findChain w id now =>
    obtain ⟨rfl, hw⟩ := hok
    obtain rfl : r = .revokeSession w id now := h
    refine ⟨fun v hv => issues_findChain hv, by simp [Request.hashes], ?_, by simp, by simp⟩
    rintro z rfl
    exact hw
  | statements l => exact h

theorem follows_advance (hs : Stored s) (hok : Ok cfg s t p) (hpre : canStep t s f p)
    (h : Follows cfg r n s t p) : Follows cfg r n (advance cfg t s f p).1 t (advance cfg t s f p).2 := by
  cases p with
  | idle => trivial
  | owners q =>
    obtain ⟨rfl, hout⟩ := h
    rw [advance]
    cases ho : s.ownersOf q.hashes with
    | nil =>
      dsimp only
      cases hr : q.script cfg (fun _ => none) f with
      | none => trivial
      | some l =>
        -- No row is stored under a hash that was shown.
        have hno : ∀ x ∈ s.tokens, x.tokenHash ∉ q.hashes := by
          intro x hx hh
          have hmem := mem_ownersOf hx hh
          rw [ho] at hmem
          exact absurd hmem List.not_mem_nil
        refine ⟨fun v hv => ?_, hout, ?_, by simp, by simp⟩
        · cases q with
          | refresh hash superseded now =>
            obtain ⟨x, hx, hh, -⟩ := hv
            exact absurd (by simp [Presented.hashes, hh]) (hno x hx)
          | logout hash superseded now =>
            obtain ⟨x, hx, ⟨hh, -⟩ | ⟨hh, -⟩⟩ := hv <;>
              exact absurd (by simp [Presented.hashes, hh]) (hno x hx)
        · rintro w ⟨x, hx, hh, -⟩
          exact absurd hh (hno x hx)
    | cons w us => exact ⟨rfl, hout⟩
  | changing w expected now =>
    obtain ⟨rfl, hn⟩ := h
    rw [advance]
    cases s.users w with
    | none => trivial
    | some x =>
      show Follows cfg _ n (ite _ _ _ : Db × Pos).1 t (ite _ _ _ : Db × Pos).2
      split_ifs
      · refine carries_user rfl (fun _ hl => hl)
          (fun v hv => issues_revokeAllForUser (l := []) hv) ?_ (by simp)
        rintro z now' heq
        obtain ⟨rfl, -⟩ := Request.changePassword.inj heq
        exact ⟨s.nextHash, hn, List.mem_cons_self⟩
      · trivial
  | activating w active now =>
    obtain rfl : r = .setUserActive w active now := h
    rw [advance]
    cases s.users w with
    | none => trivial
    | some x =>
      cases active with
      | true => exact carries_user rfl (fun _ hl => hl) (fun v hv => absurd hv.1 (by simp)) (by simp) (by simp)
      | false =>
        refine carries_user rfl (fun _ hl => hl)
          (fun v hv => issues_revokeAllForUser (l := []) hv.2) (by simp) ?_
        rintro z now' heq
        obtain ⟨rfl, -⟩ := Request.setUserActive.inj heq
        exact List.mem_cons_self
  | removing w now =>
    obtain rfl : r = .deleteAccount w now := h
    rw [advance]
    cases s.users w with
    | none => trivial
    | some x =>
      exact carries_user rfl (fun _ hl => hl) (fun v hv => issues_revokeAllForUser hv) (by simp) (by simp)
  | locking keys next ws =>
    cases keys with
    | nil =>
      rw [advance]
      refine follows_proceed hs hpre.1 ?_ h
      rw [← willHave_nil]
      exact hok
    | cons key keys =>
      cases next with
      | reread q | recheck w e now | findChain w id now => exact h
      | statements l => exact ⟨h.issues, h.out, fun w hw => Locks.take_mono (h.locked w hw), h.password, h.inactive⟩
  | run stmts ws =>
    rcases stmts with - | ⟨st, stmts⟩
    · trivial
    · rcases advance_run cfg t s f st stmts ws with he | he <;> rw [he]
      · trivial
      · exact Carries.execute h

/-- The first step. -/
theorem follows_begin (hb : begun cfg s r ≠ none) (hn : n ≤ s.nextHash) :
    Follows cfg r n (threadPost cfg t s p (.begin r)).1 t (threadPost cfg t s p (.begin r)).2 := by
  have hout : ∀ h ∈ r.hashes, (threadPost cfg t s p (.begin r)).1.secrets h = .out := by
    intro h hh
    show (if h ∈ r.hashes then Secret.out else s.secrets h) = .out
    rw [if_pos hh]
  cases r with
  | present q => exact ⟨rfl, hout⟩
  | login w now =>
    show Follows cfg _ n _ t ((begun cfg s _).getD .idle)
    rw [begun]
    cases s.users w with
    | none => trivial
    | some x =>
      show Follows cfg _ n _ t (Option.getD (ite _ _ _) _)
      split_ifs
      · exact rfl
      · trivial
  | revokeSession w id now => exact rfl
  | revokeOtherSessions w kh ki now =>
    refine carries_user rfl (fun _ hl => hl) (fun v hv => .inl ?_) (by simp) (by simp)
    obtain rfl : v = _ := hv
    exact List.mem_cons_self
  | changePassword w now =>
    show Follows cfg _ n _ t ((begun cfg s _).getD .idle)
    rw [begun]
    cases s.users w with
    | none => trivial
    | some x => exact ⟨rfl, hn⟩
  | setUserActive w b now | deleteAccount w now => exact rfl

/-- **A transaction does what its request is for**, whatever the others do meanwhile. -/
theorem follows_reach {a : Accounts} (hc : (threads cfg).machine.Reach Machine.Any (start a) c₀)
    (hr : Serves cfg t r c₀ c) :
    Threads.Holds Stored (fun s u p => (Ok cfg s u p ∧ PlainAt p) ∧
      (u = t → Follows cfg r c₀.shared.nextHash s t p)) c := by
  have h0 := stored_reach (hc.step (t, .begin r) hr.begins trivial)
  refine Threads.invariant hr.steps ⟨h0.shared, fun u => ⟨h0.thread u, ?_⟩⟩
    fun c u a hc hpre hP => ?_
  · rintro rfl
    show Follows cfg r _ _ u (((threads cfg).step c₀ u (.begin r)).th u)
    rw [Threads.step_self]
    exact follows_begin (p := c₀.th u) hr.begins.2.1 le_rfl
  · obtain ⟨⟨hok, hp⟩, hfol⟩ := hc.thread u
    have hs := stored_step hc.shared hok hp hpre
    have hst : Steps cfg c.shared u (threadPost cfg u c.shared (c.th u) a) :=
      steps hc.shared.inv hok hpre
    refine ⟨hs.1, ⟨⟨hst.own, hs.2⟩, ?_⟩, fun w hw hold => ⟨⟨hst.others.ok hst.inv hw hold.1.1, hold.1.2⟩,
      fun heq => (hold.2 heq).spared hst.others hst.inv (heq ▸ hw)⟩⟩
    rintro rfl
    cases a with
    | step f => exact follows_advance hc.shared hok hpre (hfol rfl)
    | begin r' | abort => exact absurd (hP rfl) (by simp [Action.isStep])

/-- What is true of the transaction of a request that is about to commit. -/
theorem carries_reach {a : Accounts} (hc : (threads cfg).machine.Reach Machine.Any (start a) c₀)
    (hr : Serves cfg t r c₀ c) (ht : c.th t = .run [] ws) :
    Holds cfg c ∧ Carries cfg r c₀.shared.nextHash c.shared t [] ws := by
  have h := follows_reach hc hr
  have hf := (h.thread t).2 rfl
  rw [ht] at hf
  exact ⟨⟨h.shared.inv, fun u => (h.thread u).1.1⟩, hf⟩

/-! ## Sessions end for good -/

/-- **Sessions end for good.** When a request has committed:

* every chain that it is to end (that of the presented token at a logout, that of the token named at a
  revocation, all of a user's but one kept, ..) is over in every later state: its tokens are revoked
  for good, no refresh of any of them issues a pair, and nothing minted for it meanwhile is left; and
  so is any chain that a statement of the transaction ended;
* if it changed a password, so is every chain of a login that checked an earlier one;
* if it deactivated a user, so is every chain of the user, until a reactivation. -/
theorem sessions_end_for_good (a : Accounts) (hc : (threads cfg).machine.Reach Machine.Any (start a) c₀)
    (hr : Serves cfg t r c₀ c) (ht : c.th t = .run [] ws)
    (hd : (threads cfg).machine.Reach Machine.Any (committed cfg c t f) d) :
    (∀ v, r.Revokes cfg c.shared.tokens v → ∀ k, v.scope.EndsChain (committed cfg c t f).shared k →
      Over k d ∧ ∀ x ∈ d.shared.tokens, x.chainId = k → Refused cfg d.shared x) ∧
    (∀ w ∈ ws, ∀ k, w.EndsChain (committed cfg c t f).shared k → Over k d) ∧
    (∀ u now, r = .changePassword u now → ∃ new,
      (∀ x, c₀.shared.users u = some x → x.passwordHash < new) ∧
      (∀ x, (committed cfg c t f).shared.users u = some x → x.passwordHash = new) ∧
      ∀ k hash, d.shared.origin k = some (u, hash) → hash < new → Over k d) ∧
    (∀ u now, r = .setUserActive u false now →
      (∀ x, (committed cfg c t f).shared.users u = some x → x.active = false) ∧
      ((threads cfg).machine.Reach (fun c m => ¬Reactivates u c m) (committed cfg c t f) d →
        ∀ k hash, d.shared.origin k = some (u, hash) → Over k d)) := by
  obtain ⟨h, hcar⟩ := carries_reach hc hr ht
  have hown : RunOk c.shared t (Has cfg c.shared t) [] ws := by
    have := h.thread t
    rwa [ht] at this
  refine ⟨fun v hv k hk => ?_, fun w hw k he => over_of_ends h ht hw he hd, fun u now hu => ?_,
    fun u now hu => ?_⟩
  · obtain ⟨rows, hw⟩ := (hcar.issues v hv).resolve_left List.not_mem_nil
    have hover := over_of_ends h ht hw hk hd
    exact ⟨hover, fun x hx hxk => refused_of_over (holds_committed h ht hd).shared hover hx hxk⟩
  · obtain ⟨new, hn, hw⟩ := hcar.password u now hu
    refine ⟨new, fun x hx => ?_, ?_, fun k hash ho hlt => over_of_passwordChanged h ht hd hw ho hlt⟩
    · exact ((holds_reach hc (holds_start a)).shared.numbered u x hx).trans_le hn
    · rw [committed_shared ht]
      exact user_of_passwordChanged hown hw
  · have hw := hcar.inactive u now hu
    refine ⟨?_, fun hd' k hash ho => over_of_activeSet h ht hw hd' ho⟩
    rw [committed_shared ht]
    exact user_of_activeSet hown hw

/-- One user, whose first password is hash `0`. -/
def oneAccount : Accounts where
  users v := if v = 0 then some ⟨0, true⟩ else none
  nextHash := 1
  numbered v x h := by
    split_ifs at h
    obtain rfl := Option.some.inj h
    exact Nat.zero_lt_one

def daySettings : Settings := ⟨fun v => v, 86400, 30⟩

/-- A request, and so many of its steps. -/
def runs (t n : ℕ) (r : Request) (f : Fresh) : List (ℕ × Action) :=
  (t, .begin r) :: List.replicate n (t, .step f)

variable (cfg) in
/-- The actions `as`, then the request of `t`, then `bs`. -/
def execServing {β : Type} (t : ℕ) (r : Request) (as bs : List (ℕ × Action)) (g : Conf → β) (c : Conf) :
    Option β :=
  ((threads cfg).machine.exec as c).bind fun c₀ =>
    if (threads cfg).machine.pre c₀ (t, .begin r) then
      (((threads cfg).machine.guard (GoesOn t)).exec bs ((threads cfg).step c₀ t (.begin r))).map g
    else none

theorem serves_of_exec {β : Type} {as bs : List (ℕ × Action)} {g : Conf → β} {b : β}
    (h : execServing cfg t r as bs g c = some b) :
    ∃ c₀ d, (threads cfg).machine.Reach Machine.Any c c₀ ∧ Serves cfg t r c₀ d ∧ g d = b := by
  obtain ⟨c₀, hc₀, h⟩ := Option.bind_eq_some_iff.mp h
  split_ifs at h with hpre
  obtain ⟨d, hd, hb⟩ := Machine.reach_of_exec_map h
  exact ⟨c₀, d, Machine.reach_of_exec hc₀, ⟨hpre, Machine.reach_of_guard hd⟩, hb⟩

/-- A login commits chain `30`; a logout shows its token `10`, which a refresh rotates before the logout
reads it. -/
def rotation : List (ℕ × Action) :=
  runs 2 6 (.present (.refresh 10 none 1)) ⟨11, 21, 31⟩ ++ List.replicate 4 (1, .step ⟨12, 22, 32⟩)

/-- **The session is over with its successor**, though the logout showed the token before. -/
theorem sessions_end_for_good_logout : ∃ c : Conf,
    (∃ x ∈ c.shared.tokens, x.chainId = 30 ∧ x.revokedAt = none) ∧
      Over 30 (committed daySettings c 1 ⟨12, 22, 32⟩) := by
  have hrun : execServing daySettings 1 (.present (.logout 10 none 2)) (runs 0 4 (.login 0 0) ⟨10, 20, 30⟩)
      rotation (fun c => (c.th 1, c.shared.tokens)) (start oneAccount) =
      some (.run [] [.revoked ⟨.chain 30, 2, .logout⟩ [10, 11]],
        [⟨20, 0, 30, 10, 0, 86400, some 1, some .rotated⟩,
          ⟨21, 0, 30, 11, 1, 86401, none, none⟩]) := by decide +kernel
  obtain ⟨c₀, c, hc₀, hr, hb⟩ := serves_of_exec hrun
  obtain ⟨ht, htok⟩ : _ ∧ _ := by simpa only [Prod.mk.injEq] using hb
  refine ⟨c, ⟨⟨21, 0, 30, 11, 1, 86401, none, none⟩, by rw [htok]; simp, rfl, rfl⟩, ?_⟩
  refine ((sessions_end_for_good oneAccount hc₀ hr ht .refl).1 ⟨.chain 30, 2, .logout⟩ ?_ 30 rfl).1
  rw [htok]
  exact ⟨_, List.mem_cons_self, .inl ⟨rfl, rfl⟩⟩

end McServerDashboard.Identity
