import McServerDashboard.Identity.Sessions

/-!
# An ended session stays ended

* `Write.EndsChain`: the statement ends the chain.
* `Over`: every token of the chain is revoked for good, and no transaction stores another.
* **`over_of_ends`**: when a transaction that ended a chain has committed, the chain is over in every
  later state.
* **`over_of_passwordChanged`**, **`over_of_activeSet`**: after a password change so is every chain of a
  login that checked an earlier password, and after a deactivation every chain of the user.
-/

namespace McServerDashboard.Identity

open Lib

variable {cfg : Settings} {s s' : Db} {t u : ℕ} {p : Pos} {f : Fresh} {ws : List Write}
  {stmts : List Stmt} {k : ChainId} {x y : RefreshToken} {c d : Conf}

/-- The scope takes in the chain, whose tokens are as in `s`: it is the chain, or all sessions of its
owner, none of them one to keep. -/
def Scope.EndsChain (s : Db) (k : ChainId) : Scope → Prop
  | token _ => False
  | chain k' => k' = k
  | user u keepHash keepId => (∃ hc, s.origin k = some (u, hc)) ∧
      ∀ x ∈ s.tokens, x.chainId = k → (Scope.user u keepHash keepId).covers x = true

/-- The statement has ended the chain. -/
def Write.EndsChain (s : Db) (k : ChainId) : Write → Prop
  | revoked r _ => r.scope.EndsChain s k
  | _ => False

/-- The tokens the transaction stores, or is to store. -/
def Pos.adds : Pos → RefreshToken → Prop
  | .locking _ (.statements l) ws, x => Adds l ws x
  | .run stmts ws, x => Adds stmts ws x
  | _, _ => False

/-- No token of the chain is live or can be refreshed, and none is on its way. -/
def Over (k : ChainId) (c : Conf) : Prop :=
  (∀ x ∈ c.shared.tokens, x.chainId = k → x.Closed) ∧
    ∀ t x, (c.th t).adds x → x.chainId ≠ k

variable (cfg) in
/-- No refresh with the token issues a pair. -/
def Refused (s : Db) (x : RefreshToken) : Prop :=
  ∀ superseded now f l, RefreshSession.script cfg s.lookup x.tokenHash superseded now f = some l →
    ∀ y, .add y ∉ l

/-! ## An ended chain -/

/-- What holds of the database once the chain is over. -/
structure Ended (k : ChainId) (s : Db) : Prop where
  inv : Inv s
  known : s.origin k ≠ none
  closed : ∀ x ∈ s.tokens, x.chainId = k → x.Closed

/-- What holds of the statements of every transaction then. -/
structure Apart (k : ChainId) (s : Db) (stmts : List Stmt) (ws : List Write) : Prop where
  adds : ∀ x, Adds stmts ws x → x.chainId ≠ k
  retires : ∀ r h, r.scope = .token h → (.revoke r ∈ stmts ∨ ∃ rows, .revoked r rows ∈ ws) →
    ∀ x ∈ s.tokens, x.tokenHash = h → x.chainId ≠ k

/-- What holds of every transaction then. -/
def ApartAt (k : ChainId) (s : Db) : Pos → Prop
  | .run stmts ws => Apart k s stmts ws
  | _ => True

/-- A transaction that has only updated a user row stores nothing. -/
theorem not_adds_locking {keys : List ℤ} {next : Next} (hok : Ok cfg s t (.locking keys next ws)) :
    ¬(Pos.locking keys next ws).adds x := by
  cases next with
  | statements l =>
    obtain ⟨-, hends, huser⟩ := hok
    rintro (h | h)
    · exact hends _ h
    · exact huser _ h
  | reread r | recheck v checked now | findChain v i now => exact id

theorem Apart.spared (h : Spares cfg s s' t) (hok : RunOk s u (Has cfg s u) stmts ws)
    (ha : Apart k s stmts ws) : Apart k s' stmts ws := by
  refine ⟨ha.adds, fun r g hr hmem y hy hg => ?_⟩
  have hsc : ScopeOk s (Has cfg s u) r.scope := by
    rcases hmem with hmem | ⟨rows, hmem⟩
    · exact (hok.todo _ hmem).1
    · exact (hok.done _ hmem).1
  rw [hr] at hsc
  obtain ⟨x, hx, hs⟩ := h.oldRow hy (hg ▸ hsc.1)
  rw [hs.2.2.1]
  exact ha.retires r g hr hmem x hx (hs.2.2.2.symm.trans hg)

theorem ApartAt.spared (h : Spares cfg s s' t) (hok : Ok cfg s u p) (ha : ApartAt k s p) :
    ApartAt k s' p := by
  cases p with
  | run stmts ws => exact Apart.spared h hok ha
  | idle | owners _ | changing _ _ _ | activating _ _ _ | removing _ _ | locking _ _ _ => trivial

/-- **No statement of a transaction touches the ended chain.** -/
theorem closed_after {H : UserId → Prop} (hok : RunOk s t H stmts ws) (ha : Apart k s stmts ws)
    (hx : x ∈ s.tokens) (hk : x.chainId = k) (hc : x.Closed) (hy : after ws x = some y) :
    y.Closed := by
  have hgen : ∀ vs : List Write, (∀ w ∈ vs, w ∈ ws) → ∀ y, after vs x = some y → y.Closed := by
    intro vs
    induction vs using List.reverseRecOn with
    | nil =>
      intro _ y hy
      exact Option.some.inj hy ▸ hc
    | append_singleton vs w ih =>
      intro hsub y hy
      rw [after_snoc, Option.bind_eq_some_iff] at hy
      obtain ⟨z, hz, hy⟩ := hy
      have hzc := ih (fun v hv => hsub v (List.mem_append_left _ hv)) z hz
      have hw : w ∈ ws := hsub w (List.mem_append_right _ List.mem_cons_self)
      by_cases hret : ∃ r rows, w = .revoked r rows ∧ r.ends = false
      · obtain ⟨r, rows, rfl, he⟩ := hret
        have hsel : ¬(z.tokenHash ∈ rows ∧ r.selects z = true) := by
          rintro ⟨-, hsel⟩
          rw [Revoke.selects, Bool.and_eq_true] at hsel
          cases hsc : r.scope with
          | token h =>
            rw [hsc] at hsel
            have hzh : z.tokenHash = h := of_decide_eq_true hsel.1
            exact ha.retires r h hsc (.inr ⟨rows, hw⟩) x hx
              ((sameRow_after hz).2.2.2.symm.trans hzh) hk
          | chain c | user v keepHash keepId => simp [Revoke.ends, hsc] at he
        rw [Write.onToken, if_neg hsel] at hy
        exact Option.some.inj hy ▸ hzc
      · refine closed_onToken (fun r rows hr => ?_) hy hzc
        have he : r.ends = true := by
          by_contra he
          exact hret ⟨r, rows, hr, by simpa using he⟩
        subst hr
        exact (hok.done _ hw).2 he
  exact hgen ws (fun _ h => h) y hy

theorem Ended.commit (he : Ended k s) (hok : RunOk s t (Has cfg s t) [] ws) (ha : Apart k s [] ws) :
    Ended k (s.commit t ws) where
  inv := inv_commit he.inv hok
  known := he.known
  closed y hy hk := by
    rcases mem_commit hy with ⟨x, hx, hxy, hs⟩ | ⟨x, hx, hs⟩
    · have hxk : x.chainId = k := hs.2.2.1.symm.trans hk
      exact closed_after hok ha hx hxk (he.closed x hx hxk) hxy
    · exact absurd (hs.2.2.1.symm.trans hk) (ha.adds x (.inr hx))

theorem Apart.execute {st : Stmt} (ha : Apart k s (st :: stmts) ws) :
    Apart k s stmts (ws ++ [st.execute s.tokens ws]) := by
  refine ⟨fun x hx => ha.adds x (adds_execute.mp hx), fun r h hr hmem => ha.retires r h hr ?_⟩
  rcases hmem with hmem | ⟨rows, hmem⟩
  · exact .inl (List.mem_cons_of_mem _ hmem)
  · rcases List.mem_append.mp hmem with hmem | hmem
    · exact .inr ⟨rows, hmem⟩
    · cases st with
      | revoke q =>
        obtain ⟨rfl, -⟩ := Write.revoked.inj (List.mem_singleton.mp hmem)
        exact .inl List.mem_cons_self
      | add z | delete v => exact absurd (List.mem_singleton.mp hmem) (by simp [Stmt.execute])

/-- A script that only ends sessions stores and retires nothing. -/
theorem apart_of_ends (h : ∀ st ∈ stmts, st.Ends) (hw : ∀ w ∈ ws, w.OnUser) :
    Apart k s stmts ws := by
  refine ⟨?_, ?_⟩
  · rintro x (hx | hx)
    · exact absurd (h _ hx) id
    · exact absurd (hw _ hx) id
  · rintro r g hr (hmem | ⟨rows, hmem⟩)
    · have he : r.ends = true := h _ hmem
      simp [Revoke.ends, hr] at he
    · exact absurd (hw _ hmem) id

/-- **A refresh of an ended chain's token issues nothing.** -/
theorem apart_refresh (he : Ended k s) {hash : TokenHash} {superseded : Option TokenHash}
    {now : Time} {l : List Stmt}
    (h : RefreshSession.script cfg s.lookup hash superseded now f = some l) : Apart k s l [] := by
  obtain ⟨stored, hstored, rfl | ⟨hopen, hd, tl, rfl, hhd, htl⟩⟩ := refresh_script h
  · refine apart_of_ends (fun st hst => ?_) (by simp)
    obtain rfl := List.mem_singleton.mp hst
    rfl
  · obtain ⟨hmem, hh⟩ := lookup_mem hstored
    have hne : stored.chainId ≠ k := by
      intro hk
      have hc := he.closed stored hmem hk
      rw [RefreshToken.closed_iff, hopen] at hc
      exact absurd hc (by simp)
    -- A retired token belongs to the chain of the token presented.
    have hsame : ∀ z ∈ s.tokens, z.chainId = stored.chainId → ∀ x ∈ s.tokens,
        x.tokenHash = z.tokenHash → x.chainId ≠ k := by
      intro z hz hzc x hx hxz
      rw [(he.inv.unique x hx z hz hxz).1, hzc]
      exact hne
    have htl' : ∀ st ∈ tl, (∃ sup ∈ s.tokens, sup.chainId = stored.chainId ∧
        st = .revoke ⟨.token sup.tokenHash, now, .superseded⟩) ∨
        ∃ k', st = .revoke ⟨.chain k', now, .superseded⟩ := by
      intro st hst
      rcases htl with rfl | ⟨h', sup, -, hlk, rfl⟩
      · exact absurd hst List.not_mem_nil
      · rcases revokeSuperseded_mem hst with ⟨rfl, hc⟩ | ⟨rfl, -⟩
        · exact .inl ⟨sup, (lookup_mem hlk).1, hc, rfl⟩
        · exact .inr ⟨sup.chainId, rfl⟩
    refine ⟨?_, ?_⟩
    · rintro x (hx | hx)
      · rcases List.mem_append.mp hx with hx | hx
        · exact absurd (hhd _ hx) (by simp)
        rcases List.mem_cons.mp hx with hx | hx
        · rw [Stmt.add.inj hx]
          exact hne
        · rcases htl' _ hx with ⟨sup, -, -, hst⟩ | ⟨k', hst⟩ <;> exact absurd hst (by simp)
      · exact absurd hx List.not_mem_nil
    · rintro r g hr (hx | ⟨rows, hx⟩)
      · rcases List.mem_append.mp hx with hx | hx
        · obtain rfl := Stmt.revoke.inj (hhd _ hx)
          obtain rfl := Scope.token.inj hr
          exact fun x hx' hxg => hsame stored hmem rfl x hx' (hxg.trans hh.symm)
        rcases List.mem_cons.mp hx with hx | hx
        · exact absurd hx (by simp)
        · rcases htl' _ hx with ⟨sup, hsup, hc, hst⟩ | ⟨k', hst⟩
          · obtain rfl := Stmt.revoke.inj hst
            obtain rfl := Scope.token.inj hr
            exact hsame sup hsup hc
          · obtain rfl := Stmt.revoke.inj hst
            exact absurd hr (by simp)
      · exact absurd hx List.not_mem_nil

theorem mem_logout {locked : TokenHash → Option RefreshToken} {hash : TokenHash}
    {superseded : Option TokenHash} {now : Time} {st : Stmt}
    (h : st ∈ Logout.script locked hash superseded now) : st.Ends := by
  rcases List.mem_append.mp h with h | h <;> obtain ⟨x, -, rfl⟩ := List.mem_map.mp h <;> rfl

theorem apartAt_proceed (he : Ended k s) {next : Next} (hf : s.origin f.chain = none)
    (hok : NextOk s t (Has cfg s t) ws next) :
    ApartAt k (proceed cfg t s f ws next).1 (proceed cfg t s f ws next).2 := by
  cases next with
  | reread r =>
    obtain ⟨rfl, -⟩ := hok
    rw [proceed]
    cases hr : r.script cfg s.lookup f with
    | none => trivial
    | some l =>
      cases r with
      | refresh hash superseded now =>
        have ha := apart_refresh he hr
        exact ⟨ha.adds, ha.retires⟩
      | logout hash superseded now =>
        obtain rfl := Option.some.inj hr
        exact apart_of_ends (fun _ h => mem_logout h) (by simp)
  | recheck v checked now =>
    obtain ⟨rfl, -⟩ := hok
    rw [proceed]
    cases s.users v with
    | none => trivial
    | some x =>
      show ApartAt k (ite _ _ _ : Db × Pos).1 (ite _ _ _ : Db × Pos).2
      split_ifs
      · refine ⟨?_, ?_⟩
        · rintro y (hy | hy)
          · obtain rfl := Stmt.add.inj (List.mem_singleton.mp hy)
            rintro rfl
            exact he.known hf
          · exact absurd hy List.not_mem_nil
        · rintro r h hr (hy | ⟨rows, hy⟩)
          · exact absurd (List.mem_singleton.mp hy) (by simp)
          · exact absurd hy List.not_mem_nil
      · trivial
  | findChain v id now =>
    obtain ⟨rfl, -⟩ := hok
    refine apart_of_ends (fun st hst => ?_) (by simp)
    obtain ⟨k', -, rfl⟩ := List.mem_map.mp hst
    rfl
  | statements l => exact apart_of_ends hok.2.1 hok.2.2

/-- The effects a transaction has done. -/
def Pos.writes : Pos → List Write
  | .locking _ _ ws => ws
  | .run _ ws => ws
  | _ => []

/-- A step that commits nothing: a chain it starts is for the password that the user now has. -/
structure Uncommitted (s : Db) (p : Pos) (r : Db × Pos) : Prop where
  tokens : r.1.tokens = s.tokens
  users : r.1.users = s.users
  origin : ∀ k v hc, r.1.origin k = some (v, hc) →
    s.origin k = some (v, hc) ∨ ∃ x, s.users v = some x ∧ x.active = true ∧ x.passwordHash = hc
  next : s.nextHash ≤ r.1.nextHash
  writes : ∀ v n, .passwordChanged v n ∈ r.2.writes →
    .passwordChanged v n ∈ p.writes ∨ n = s.nextHash

theorem uncommitted_same {q : Pos} {l : Locks LockKey} {g : TokenHash → Secret}
    (hw : ∀ v n, .passwordChanged v n ∈ q.writes → .passwordChanged v n ∈ p.writes) :
    Uncommitted s p ({ s with locks := l, secrets := g }, q) :=
  ⟨rfl, rfl, fun _ _ _ h => .inl h, le_rfl, fun v n h => .inl (hw v n h)⟩

theorem uncommitted_rollback : Uncommitted s p (s.rollback t) :=
  uncommitted_same fun _ _ h => absurd h List.not_mem_nil

theorem uncommitted_proceed {keys : List ℤ} {next : Next} :
    Uncommitted s (.locking keys next ws) (proceed cfg t s f ws next) := by
  cases next with
  | reread r =>
    rw [proceed]
    cases r.script cfg s.lookup f with
    | none => exact uncommitted_rollback
    | some l => exact uncommitted_same fun _ _ h => h
  | recheck v checked now =>
    rw [proceed]
    cases hx : s.users v with
    | none => exact uncommitted_rollback
    | some x =>
      show Uncommitted s _ (if _ then _ else _)
      split_ifs with hc
      · refine ⟨rfl, rfl, fun k w hc' hk => ?_, le_rfl, fun w n h => .inl h⟩
        change Function.update s.origin f.chain _ k = _ at hk
        rw [Function.update_apply] at hk
        split_ifs at hk
        · rw [Option.some.injEq, Prod.mk.injEq] at hk
          obtain ⟨rfl, rfl⟩ := hk
          exact .inr ⟨x, hx, hc.2, rfl⟩
        · exact .inl hk
      · exact uncommitted_rollback
  | findChain v id now | statements l => exact uncommitted_same fun _ _ h => h

/-- **What a step does**: it commits, or it changes no row. -/
theorem uncommitted_advance (cfg : Settings) (t : ℕ) (s : Db) (f : Fresh) (p : Pos) :
    Uncommitted s p (advance cfg t s f p) ∨ ∃ ws, p = .run [] ws := by
  cases p with
  | idle => exact .inl (uncommitted_same fun _ _ h => h)
  | owners r =>
    refine .inl ?_
    rw [advance]
    cases s.ownersOf r.hashes with
    | nil =>
      dsimp only
      cases r.script cfg (fun _ => none) f with
      | none => exact uncommitted_rollback
      | some l => exact uncommitted_same fun _ _ h => h
    | cons v us => exact uncommitted_same fun _ _ h => h
  | changing v expected now =>
    refine .inl ?_
    rw [advance]
    cases s.users v with
    | none => exact uncommitted_rollback
    | some x =>
      show Uncommitted s _ (if _ then _ else _)
      split_ifs
      · refine ⟨rfl, rfl, fun _ _ _ h => .inl h, Nat.le_succ _, fun w n h => .inr ?_⟩
        exact (Write.passwordChanged.inj (List.mem_singleton.mp h)).2
      · exact uncommitted_rollback
  | activating v active now =>
    refine .inl ?_
    rw [advance]
    cases s.users v with
    | none => exact uncommitted_rollback
    | some x =>
      show Uncommitted s _ (if _ then _ else _)
      split_ifs <;>
        exact uncommitted_same fun _ _ h => absurd (List.mem_singleton.mp h) (by simp)
  | removing v now =>
    refine .inl ?_
    rw [advance]
    cases s.users v with
    | none => exact uncommitted_rollback
    | some x => exact uncommitted_same fun _ _ h => h
  | locking keys next ws =>
    refine .inl ?_
    cases keys with
    | cons k keys => exact uncommitted_same fun _ _ h => h
    | nil => exact uncommitted_proceed
  | run stmts ws =>
    rcases stmts with - | ⟨st, stmts⟩
    · exact .inr ⟨ws, rfl⟩
    · refine .inl ?_
      have hst : Uncommitted s (.run (st :: stmts) ws)
          (s, .run stmts (ws ++ [st.execute s.tokens ws])) := by
        refine uncommitted_same fun v n h => ?_
        rcases List.mem_append.mp h with h | h
        · exact h
        · have hw : (Write.passwordChanged v n).OnUser := trivial
          exact absurd (List.mem_singleton.mp h ▸ hw) (not_onUser_execute st)
      rcases advance_run cfg t s f st stmts ws with he | he <;> rw [he]
      · exact uncommitted_rollback
      · exact hst

theorem apartAt_advance (he : Ended k s) (hok : Ok cfg s t p) (ha : ApartAt k s p)
    (hpre : canStep t s f p) :
    ApartAt k (advance cfg t s f p).1 (advance cfg t s f p).2 := by
  cases p with
  | idle => trivial
  | owners r =>
    rw [advance]
    cases s.ownersOf r.hashes with
    | nil =>
      dsimp only
      cases hr : r.script cfg (fun _ => none) f with
      | none => trivial
      | some l =>
        rw [script_nothing hr]
        exact apart_of_ends (by simp) (by simp)
    | cons v us => trivial
  | changing v expected now =>
    rw [advance]
    cases s.users v with
    | none => trivial
    | some x =>
      show ApartAt k (ite _ _ _ : Db × Pos).1 (ite _ _ _ : Db × Pos).2
      split_ifs <;> trivial
  | activating v active now =>
    rw [advance]
    cases s.users v with
    | none => trivial
    | some x =>
      show ApartAt k (ite _ _ _ : Db × Pos).1 (ite _ _ _ : Db × Pos).2
      split_ifs
      · refine ⟨by simp [Adds], by simp⟩
      · trivial
  | removing v now =>
    rw [advance]
    cases s.users v <;> trivial
  | locking keys next ws =>
    cases keys with
    | cons k keys => trivial
    | nil =>
      rw [advance]
      refine apartAt_proceed he hpre.2 ?_
      rw [← willHave_nil]
      exact hok
  | run stmts ws =>
    rcases stmts with - | ⟨st, stmts⟩
    · trivial
    · rcases advance_run cfg t s f st stmts ws with he | he <;> rw [he]
      · trivial
      · exact Apart.execute ha

/-- One step keeps an ended chain ended. -/
theorem ended_step (he : Ended k s) (hok : Ok cfg s t p) (ha : ApartAt k s p) {a : Action}
    (hpre : threadPre cfg t s p a) :
    Ended k (threadPost cfg t s p a).1 ∧
      ApartAt k (threadPost cfg t s p a).1 (threadPost cfg t s p a).2 := by
  have hs : Steps cfg s t (threadPost cfg t s p a) := steps he.inv hok hpre
  have hknown : (threadPost cfg t s p a).1.origin k ≠ none := by
    obtain ⟨o, ho⟩ := Option.ne_none_iff_exists'.mp he.known
    rw [hs.others.origin k o ho]
    exact Option.some_ne_none o
  cases a with
  | begin r =>
    refine ⟨⟨hs.inv, hknown, he.closed⟩, ?_⟩
    show ApartAt k _ ((begun cfg s r).getD .idle)
    cases r with
    | present r | revokeSession v i now | revokeOtherSessions v kh ki now | setUserActive v b now
    | deleteAccount v now => trivial
    | login v now =>
      rw [begun]
      cases s.users v with
      | none => trivial
      | some x =>
        show ApartAt k _ (Option.getD (ite _ _ _) _)
        split_ifs <;> trivial
    | changePassword v now =>
      rw [begun]
      cases s.users v <;> trivial
  | abort => exact ⟨⟨hs.inv, hknown, he.closed⟩, trivial⟩
  | step f =>
    refine ⟨?_, apartAt_advance he hok ha hpre⟩
    rcases uncommitted_advance cfg t s f p with hu | ⟨ws, rfl⟩
    · refine ⟨hs.inv, hknown, fun x hx => he.closed x ?_⟩
      change x ∈ (advance cfg t s f p).1.tokens at hx
      rwa [hu.tokens] at hx
    · exact he.commit hok ha

/-- What holds along a run once a chain has ended. -/
theorem ended_reach {P : Conf → ℕ × Action → Prop} (h : (threads cfg).machine.Reach P c d)
    (he : Ended k c.shared) (hok : ∀ t, Ok cfg c.shared t (c.th t) ∧ ApartAt k c.shared (c.th t)) :
    Threads.Holds (Ended k) (fun s t p => Ok cfg s t p ∧ ApartAt k s p) d := by
  refine Threads.invariant h ⟨he, hok⟩ fun c t a hc hpre _ => ?_
  have hs : Steps cfg c.shared t (threadPost cfg t c.shared (c.th t) a) :=
    steps hc.shared.inv (hc.thread t).1 hpre
  have he := ended_step hc.shared (hc.thread t).1 (hc.thread t).2 hpre
  exact ⟨he.1, ⟨hs.own, he.2⟩, fun u hu hok =>
    ⟨hs.others.ok hs.inv hu hok.1, ApartAt.spared hs.others hok.1 hok.2⟩⟩

theorem over_of_holds (h : Threads.Holds (Ended k) (fun s t p => Ok cfg s t p ∧ ApartAt k s p) d) :
    Over k d := by
  refine ⟨h.shared.closed, fun t x hx => ?_⟩
  obtain ⟨hok, ha⟩ := h.thread t
  cases hp : d.th t with
  | run stmts ws =>
    rw [hp] at ha hx
    exact ha.adds x hx
  | locking keys next ws =>
    rw [hp] at hok hx
    exact absurd hx (not_adds_locking hok)
  | idle | owners _ | changing _ _ _ | activating _ _ _ | removing _ _ =>
    rw [hp] at hx
    exact absurd hx id

/-! ## A committed end -/

/-- The transaction that ends a chain has the session lock of its owner. -/
theorem owner_of_ends {H : UserId → Prop} (hok : RunOk s t H stmts ws) {w : Write} (hw : w ∈ ws)
    (he : w.EndsChain s' k) (ho : s'.origin = s.origin) :
    ∃ u hc, s.origin k = some (u, hc) ∧ H u := by
  cases w with
  | revoked r rows =>
    have hsc := (hok.done _ hw).1
    rw [Write.EndsChain] at he
    cases hr : r.scope with
    | token h =>
      rw [hr] at he
      exact absurd he id
    | chain k' =>
      rw [hr] at he hsc
      obtain rfl : k' = k := he
      exact hsc
    | user u keepHash keepId =>
      rw [hr] at he hsc
      obtain ⟨⟨hc, hk⟩, -⟩ := he
      exact ⟨u, hc, ho ▸ hk, hsc⟩
  | added x | deleted v | passwordChanged v n | activeSet v b => exact absurd he id

/-- When the transaction commits, every token of the chain is closed. -/
theorem closed_commit {H : UserId → Prop} (hok : RunOk s t H [] ws) {w : Write} (hw : w ∈ ws)
    (he : w.EndsChain (s.commit t ws) k) (hx : x ∈ (s.commit t ws).tokens) (hk : x.chainId = k) :
    x.Closed := by
  cases w with
  | revoked r rows =>
    rw [Write.EndsChain] at he
    cases hr : r.scope with
    | token h =>
      rw [hr] at he
      exact absurd he id
    | chain k' =>
      rw [hr] at he
      obtain rfl : k' = k := he
      exact hok.closed r rows hw (by simp [Revoke.ends, hr]) x hx (by simp [hr, Scope.covers, hk])
    | user u keepHash keepId =>
      rw [hr] at he
      exact hok.closed r rows hw (by simp [Revoke.ends, hr]) x hx (hr ▸ he.2 x hx hk)
  | added x | deleted v | passwordChanged v n | activeSet v b => exact absurd he id

/-- No other transaction is at work on a chain whose owner's lock `t` has. -/
theorem apart_of_has (hi : Inv s) (hs : Spares cfg s s' t) {v : UserId} {hc : PasswordHash}
    (ho : s.origin k = some (v, hc)) (hv : Has cfg s t v) (hu : u ≠ t)
    (hok : RunOk s u (Has cfg s u) stmts ws) : Apart k s' stmts ws := by
  have hne : ¬Has cfg s u v := fun h => hu (Option.some.inj (h.symm.trans hv))
  refine Apart.spared hs hok ⟨fun x hx hk => ?_, fun r h hr hmem x hx hh hk => ?_⟩
  · have ha : AddOk s u (Has cfg s u) x := by
      rcases hx with hx | hx
      · exact hok.todo _ hx
      · exact hok.done _ hx
    obtain ⟨hx, ⟨hc', ho'⟩, -⟩ := ha
    rw [hk, ho, Option.some.injEq, Prod.mk.injEq] at ho'
    exact hne (ho'.1 ▸ hx)
  · have hsc : ScopeOk s (Has cfg s u) r.scope := by
      rcases hmem with hmem | ⟨rows, hmem⟩
      · exact (hok.todo _ hmem).1
      · exact (hok.done _ hmem).1
    rw [hr] at hsc
    have hx' := hsc.2 x hx hh
    rw [hi.owner hx (hk ▸ ho)] at hx'
    exact hne hx'

variable (cfg) in
/-- The state after the transaction of `t` has committed. -/
def committed (c : Conf) (t : ℕ) (f : Fresh) : Conf := (threads cfg).step c t (.step f)

theorem committed_shared (ht : c.th t = .run [] ws) :
    (committed cfg c t f).shared = c.shared.commit t ws := by
  show (threadPost cfg t c.shared (c.th t) (.step f)).1 = _
  rw [ht]
  rfl

theorem ended_committed (h : Holds cfg c) (ht : c.th t = .run [] ws) {w : Write} (hw : w ∈ ws)
    (he : w.EndsChain (committed cfg c t f).shared k) : Ended k (committed cfg c t f).shared ∧
      ∀ u, Ok cfg (committed cfg c t f).shared u ((committed cfg c t f).th u) ∧
        ApartAt k (committed cfg c t f).shared ((committed cfg c t f).th u) := by
  have hown : RunOk c.shared t (Has cfg c.shared t) [] ws := by
    have := h.thread t
    rwa [ht] at this
  have hsp : Spares cfg c.shared (c.shared.commit t ws) t := spares_commit h.shared hown
  have hi' : Inv (c.shared.commit t ws) := inv_commit h.shared hown
  rw [committed_shared ht] at he ⊢
  obtain ⟨v, hc, ho, hv⟩ := owner_of_ends hown hw he rfl
  refine ⟨⟨hi', by rw [show (c.shared.commit t ws).origin k = _ from ho]; simp,
    fun x hx hk => closed_commit hown hw he hx hk⟩, fun u => ?_⟩
  by_cases hu : u = t
  · subst hu
    have hth : (committed cfg c u f).th u = .idle := by
      rw [committed, Threads.step_self]
      show (threadPost cfg u c.shared (c.th u) (.step f)).2 = _
      rw [ht]
      rfl
    rw [hth]
    exact ⟨trivial, trivial⟩
  · rw [committed, Threads.step_ne hu]
    have hoku := h.thread u
    refine ⟨hsp.ok hi' hu hoku, ?_⟩
    cases hp : c.th u with
    | run stmts vs =>
      rw [hp] at hoku
      exact apart_of_has h.shared hsp ho hv hu hoku
    | idle | owners _ | changing _ _ _ | activating _ _ _ | removing _ _ | locking _ _ _ => trivial

/-- **A chain that a committed transaction has ended is over for good.** -/
theorem over_of_ends {P : Conf → ℕ × Action → Prop} (h : Holds cfg c) (ht : c.th t = .run [] ws)
    {w : Write} (hw : w ∈ ws) (he : w.EndsChain (committed cfg c t f).shared k)
    (hd : (threads cfg).machine.Reach P (committed cfg c t f) d) : Over k d := by
  obtain ⟨hended, hok⟩ := ended_committed h ht hw he
  exact over_of_holds (ended_reach hd hended hok)

/-- What holds of every transaction holds on, once one has committed. -/
theorem holds_committed {P : Conf → ℕ × Action → Prop} (h : Holds cfg c) (ht : c.th t = .run [] ws)
    (hd : (threads cfg).machine.Reach P (committed cfg c t f) d) : Holds cfg d := by
  have hpre : (threads cfg).machine.pre c (t, .step f) := by
    show threadPre cfg t c.shared (c.th t) (.step f)
    rw [ht]
    trivial
  have hstep : (threads cfg).machine.Reach Machine.Any c (committed cfg c t f) :=
    Machine.Reach.refl.step (M := (threads cfg).machine) (t, Action.step f) hpre trivial
  exact holds_reach (hstep.trans hd.any) h

/-- A token that is revoked for good is refused. -/
theorem refused_of_over (hi : Inv d.shared) (hover : Over k d) (hx : x ∈ d.shared.tokens)
    (hk : x.chainId = k) : Refused cfg d.shared x := by
  intro superseded now f l h y hy
  obtain ⟨stored, hstored, rfl | ⟨hopen, -⟩⟩ := refresh_script h
  · exact absurd (List.mem_singleton.mp hy) (by simp)
  · obtain ⟨hmem, hh⟩ := lookup_mem hstored
    have hc := hover.1 stored hmem ((hi.unique stored hmem x hx hh).1.trans hk)
    rw [RefreshToken.closed_iff, hopen] at hc
    exact absurd hc (by simp)

/-! ## Logins that checked what is no longer so -/

/-- The user's row satisfies `Q`, under any hash still to be numbered too, and a login that checked a
password outside `R` began its chain when the origins were `o`. -/
structure Since (Q : User → Prop) (R : PasswordHash → Prop) (v : UserId)
    (o : ChainId → Option (UserId × PasswordHash)) (s : Db) : Prop where
  user : ∀ x, s.users v = some x → Q x
  next : ∀ n, s.nextHash ≤ n → ∀ x, Q x → Q { x with passwordHash := n }
  origin : ∀ k hc, s.origin k = some (v, hc) → ¬R hc → o k = some (v, hc)

/-- The password a transaction is about to give the user keeps `Q`. -/
def KeepsQ (Q : User → Prop) (v : UserId) (p : Pos) : Prop :=
  ∀ n, .passwordChanged v n ∈ p.writes → ∀ x, Q x → Q { x with passwordHash := n }

/-- The step commits a reactivation of the user. -/
def Reactivates (v : UserId) (c : Conf) (m : ℕ × Action) : Prop :=
  ∃ ws f, c.th m.1 = .run [] ws ∧ m.2 = .step f ∧ .activeSet v true ∈ ws

section Since

variable {Q : User → Prop} {R : PasswordHash → Prop} {v : UserId}
  {o : ChainId → Option (UserId × PasswordHash)}

theorem Since.uncommitted {r : Db × Pos} (h : Since Q R v o s) (hk : KeepsQ Q v p)
    (hQR : ∀ x, Q x → x.active = true → R x.passwordHash) (hu : Uncommitted s p r) :
    Since Q R v o r.1 ∧ KeepsQ Q v r.2 := by
  refine ⟨⟨fun x hx => h.user x (hu.users ▸ hx), fun n hn => h.next n (hu.next.trans hn),
    fun k hc hk' hR => ?_⟩, fun n hn => ?_⟩
  · rcases hu.origin k v hc hk' with hk' | ⟨x, hx, hact, rfl⟩
    · exact h.origin k hc hk' hR
    · exact absurd (hQR x (h.user x hx) hact) hR
  · rcases hu.writes v n hn with hn | rfl
    · exact hk n hn
    · exact h.next _ le_rfl

theorem uncommitted_begin {r : Request} {g : TokenHash → Secret} :
    Uncommitted s p ({ s with secrets := g }, (begun cfg s r).getD .idle) := by
  refine uncommitted_same fun w n h => ?_
  cases r with
  | login z now =>
    rw [begun] at h
    cases hz : s.users z with
    | none =>
      rw [hz] at h
      exact absurd h List.not_mem_nil
    | some x =>
      rw [hz] at h
      change _ ∈ (Option.getD (if _ then _ else _) _ : Pos).writes at h
      split_ifs at h <;> exact absurd h List.not_mem_nil
  | changePassword z now =>
    rw [begun] at h
    cases hz : s.users z <;> rw [hz] at h <;> exact absurd h List.not_mem_nil
  | present r | revokeSession z i now | revokeOtherSessions z kh ki now | setUserActive z b now
  | deleteAccount z now => exact absurd h List.not_mem_nil

theorem since_reach {P : Conf → ℕ × Action → Prop} (h : (threads cfg).machine.Reach P c d)
    (hQR : ∀ x, Q x → x.active = true → R x.passwordHash)
    (hoff : ∀ x, Q x → Q { x with active := false })
    (hon : (∀ x, Q x → Q { x with active := true }) ∨ ∀ c m, P c m → ¬Reactivates v c m)
    (h0 : Since Q R v o c.shared) (hk : ∀ t, KeepsQ Q v (c.th t)) :
    Since Q R v o d.shared := by
  have hall : Threads.Holds (Since Q R v o) (fun _ _ p => KeepsQ Q v p) d := by
    refine Threads.invariant h ⟨h0, hk⟩ fun c t a hc hpre hP => ?_
    suffices hs : Since Q R v o (threadPost cfg t c.shared (c.th t) a).1 ∧
        KeepsQ Q v (threadPost cfg t c.shared (c.th t) a).2 from
      ⟨hs.1, hs.2, fun u _ hu => hu⟩
    cases a with
    | begin r => exact hc.shared.uncommitted (hc.thread t) hQR uncommitted_begin
    | abort => exact hc.shared.uncommitted (hc.thread t) hQR uncommitted_rollback
    | step f =>
      rcases uncommitted_advance cfg t c.shared f (c.th t) with hu | ⟨ws, hws⟩
      · exact hc.shared.uncommitted (hc.thread t) hQR hu
      · have hth := hc.thread t
        rw [hws] at hth ⊢
        refine ⟨⟨usersView_of hc.shared.user hth fun b hb x hx => ?_, hc.shared.next,
          hc.shared.origin⟩, fun n hn => absurd hn List.not_mem_nil⟩
        cases b with
        | false => exact hoff x hx
        | true =>
          rcases hon with hon | hon
          · exact hon x hx
          · exact absurd ⟨ws, f, hws, rfl, hb⟩ (hon c (t, .step f) hP)
  exact hall.shared

end Since

/-- What the one update of the user's row has made true is true of the row committed. -/
theorem usersView_mem {Q : User → Prop} {H : UserId → Prop} (hok : RunOk s t H stmts ws) {w : Write}
    (hw : w ∈ ws) (hwu : w.OnUser) {v : UserId}
    (hQ : ∀ users x, w.onUsers users v = some x → Q x)
    (hp : ∀ n, w = .passwordChanged v n → ∀ x, Q x → Q { x with passwordHash := n })
    (ha : ∀ b, w = .activeSet v b → ∀ x, Q x → Q { x with active := b }) :
    ∀ x, usersView s.users ws v = some x → Q x := by
  have hone : ∀ w' ∈ ws, w'.OnUser → w = w' := fun w' hw' hu => hok.oneUser w hw w' hw' hwu hu
  obtain ⟨pre, post, rfl⟩ := List.append_of_mem hw
  have hmem : ∀ w' ∈ post, w' ∈ pre ++ w :: post := fun w' h =>
    List.mem_append_right _ (List.mem_cons_of_mem _ h)
  intro x hx
  rw [usersView, List.foldl_append, List.foldl_cons] at hx
  exact usersView_of (fun x hx => hQ _ x hx) (fun n hn => hp n (hone _ (hmem _ hn) trivial))
    (fun b hb => ha b (hone _ (hmem _ hb) trivial)) x hx

/-- An update of a user's row is made under its row lock. -/
theorem row_of_writes (hok : Ok cfg s t p) {w : Write} (hw : w ∈ p.writes) :
    ∃ H, WriteOk s t H w := by
  cases p with
  | run stmts ws => exact ⟨_, hok.done w hw⟩
  | locking keys next ws =>
    cases next with
    | statements l => exact ⟨_, hok.1.done w hw⟩
    | reread r | recheck z checked now | findChain z i now =>
      obtain ⟨rfl, -⟩ := hok
      exact absurd hw List.not_mem_nil
  | idle | owners _ | changing _ _ _ | activating _ _ _ | removing _ _ =>
    exact absurd hw List.not_mem_nil

/-- No one else is about to change the password of a user whose row `t` has locked. -/
theorem keepsQ_committed {Q : User → Prop} {v : UserId} (h : Holds cfg c)
    (ht : c.th t = .run [] ws) (hrow : c.shared.locks (.user v) = some t) (u : ℕ) :
    KeepsQ Q v ((committed cfg c t f).th u) := by
  intro n hn
  by_cases hu : u = t
  · subst hu
    rw [committed, Threads.step_self] at hn
    change _ ∈ (threadPost cfg u c.shared (c.th u) (.step f)).2.writes at hn
    rw [ht] at hn
    exact absurd hn List.not_mem_nil
  · rw [committed, Threads.step_ne hu] at hn
    obtain ⟨H, hw⟩ := row_of_writes (h.thread u) hn
    exact absurd (Option.some.inj (hw.1.symm.trans hrow)) hu

/-- A transaction that invalidates what logins of the user have checked ends all their chains. -/
theorem ends_of_invalidates (h : Holds cfg c) (ht : c.th t = .run [] ws) {v : UserId}
    (hv : Invalidates ws v) {hc : PasswordHash}
    (ho : (committed cfg c t f).shared.origin k = some (v, hc)) :
    ∃ w ∈ ws, w.EndsChain (committed cfg c t f).shared k := by
  have hown : RunOk c.shared t (Has cfg c.shared t) [] ws := by
    have := h.thread t
    rwa [ht] at this
  obtain ⟨r, hr, hmem | ⟨rows, hmem⟩⟩ := hown.sweeps v hv
  · exact absurd hmem List.not_mem_nil
  · refine ⟨_, hmem, ?_⟩
    rw [committed_shared ht] at ho ⊢
    rw [Write.EndsChain, hr]
    refine ⟨⟨hc, ho⟩, fun x hx hk => ?_⟩
    have hxv : x.userId = v := (inv_commit h.shared hown).owner hx (hk ▸ ho)
    simp [Scope.covers, hxv]

/-- So they are over for good. -/
theorem over_of_invalidates {P : Conf → ℕ × Action → Prop} (h : Holds cfg c) (ht : c.th t = .run [] ws)
    (hd : (threads cfg).machine.Reach P (committed cfg c t f) d) {v : UserId} (hv : Invalidates ws v)
    {hash : PasswordHash} (ho : (committed cfg c t f).shared.origin k = some (v, hash)) : Over k d := by
  obtain ⟨w, hw, he⟩ := ends_of_invalidates h ht hv ho
  exact over_of_ends h ht hw he hd

/-- The user's row, when the change of a password commits, has the new hash. -/
theorem user_of_passwordChanged (hok : RunOk s t (Has cfg s t) [] ws) {v : UserId} {new : PasswordHash}
    (hw : .passwordChanged v new ∈ ws) : ∀ z, (s.commit t ws).users v = some z → z.passwordHash = new :=
  usersView_mem hok hw trivial
    (fun users z hz => by
      rw [Write.onUsers, Function.update_self] at hz
      obtain ⟨z', -, rfl⟩ := Option.map_eq_some_iff.mp hz
      rfl)
    (fun n hn z _ => (Write.passwordChanged.inj hn).2.symm) fun b hb => absurd hb (by simp)

/-- And when a deactivation commits, the user is inactive. -/
theorem user_of_activeSet (hok : RunOk s t (Has cfg s t) [] ws) {v : UserId}
    (hw : .activeSet v false ∈ ws) : ∀ z, (s.commit t ws).users v = some z → z.active = false :=
  usersView_mem hok hw trivial
    (fun users z hz => by
      rw [Write.onUsers, Function.update_self] at hz
      obtain ⟨z', -, rfl⟩ := Option.map_eq_some_iff.mp hz
      rfl)
    (fun n hn => absurd hn (by simp)) fun b hb z _ => (Write.activeSet.inj hb).2.symm

/-- **After a password change no chain of a login that checked an earlier password is live.** -/
theorem over_of_passwordChanged (h : Holds cfg c) (ht : c.th t = .run [] ws)
    (hd : (threads cfg).machine.Reach Machine.Any (committed cfg c t f) d) {v : UserId}
    {new hash : PasswordHash} (hw : .passwordChanged v new ∈ ws)
    (ho : d.shared.origin k = some (v, hash)) (hlt : hash < new) : Over k d := by
  have hown : RunOk c.shared t (Has cfg c.shared t) [] ws := by
    have := h.thread t
    rwa [ht] at this
  obtain ⟨hrow, hnew⟩ := hown.done _ hw
  have hsince : Since (fun x => new ≤ x.passwordHash) (new ≤ ·) v
      (committed cfg c t f).shared.origin (committed cfg c t f).shared := by
    refine ⟨fun x hx => ?_, ?_, fun _ _ h _ => h⟩ <;> rw [committed_shared ht] at *
    · exact (user_of_passwordChanged hown hw x hx).ge
    · exact fun n hn x _ => hnew.le.trans hn
  have hs := since_reach hd (fun x hx _ => hx) (fun x hx => hx) (.inl fun x hx => hx) hsince
    (keepsQ_committed h ht hrow)
  exact over_of_invalidates h ht hd (.inl ⟨new, hw⟩) (hs.origin k hash ho (Nat.not_le.mpr hlt))

/-- **After a deactivation no chain of the user is live**, until a reactivation. -/
theorem over_of_activeSet (h : Holds cfg c) (ht : c.th t = .run [] ws) {v : UserId}
    (hw : .activeSet v false ∈ ws)
    (hd : (threads cfg).machine.Reach (fun c m => ¬Reactivates v c m) (committed cfg c t f) d)
    {hash : PasswordHash} (ho : d.shared.origin k = some (v, hash)) : Over k d := by
  have hown : RunOk c.shared t (Has cfg c.shared t) [] ws := by
    have := h.thread t
    rwa [ht] at this
  have hrow : c.shared.locks (.user v) = some t := hown.done _ hw
  have hsince : Since (fun x => x.active = false) (fun _ => False) v
      (committed cfg c t f).shared.origin (committed cfg c t f).shared := by
    refine ⟨fun x hx => ?_, fun n _ x hx => hx, fun _ _ h _ => h⟩
    rw [committed_shared ht] at hx
    exact user_of_activeSet hown hw x hx
  have hs := since_reach hd (fun x hx hact => absurd (hx.symm.trans hact) (by simp))
    (fun x _ => rfl) (.inr fun c m hP => hP) hsince (keepsQ_committed h ht hrow)
  exact over_of_invalidates h ht hd (.inr hw) (hs.origin k hash ho id)

end McServerDashboard.Identity
