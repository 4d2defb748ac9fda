import Mathlib.Data.List.Nodup
import McServerDashboard.Identity.Ended

/-!
# What is stored

* `Stored`: each refresh secret names one row, and an unrevoked row has no reason.
* `Quiet`, `Plain`: a transaction stores one token at most, and one that spares a row does nothing
  else.
* **`stored_reach`**: so it is in every reachable state.
-/

namespace McServerDashboard.Identity

open Lib

variable {cfg : Settings} {s s' : Db} {t u : ℕ} {p : Pos} {f : Fresh} {ws : List Write}
  {stmts : List Stmt} {k : ChainId} {x y : RefreshToken} {c d : Conf} {now : Time}
  {l : List RefreshToken}

/-- The statement is one of `RevokeOtherSessions`. -/
def Revoke.spares (r : Revoke) : Bool :=
  match r.scope with
  | .user _ _ _ => r.reason = .user
  | _ => false

/-- Neither stores a token nor spares one. -/
def Stmt.Quiet : Stmt → Prop
  | revoke r => r.spares = false
  | add _ => False
  | delete _ => True

/-- The token that the statement is to store. -/
def Stmt.newTokens : Stmt → List RefreshToken
  | add x => [x]
  | _ => []

/-- What a transaction has done and is to do. -/
structure Plain (stmts : List Stmt) (ws : List Write) : Prop where
  one : (stmts.flatMap Stmt.newTokens).length + (ws.flatMap Write.newTokens).length ≤ 1
  unrevoked : ∀ x, Adds stmts ws x → x.revokedReason = none
  alone : ∀ r, r.spares = true → (.revoke r ∈ stmts → stmts = [.revoke r] ∧ ws = []) ∧
    ∀ rows, .revoked r rows ∈ ws → stmts = [] ∧ ws = [.revoked r rows]

/-- What holds of a transaction at each of its positions. -/
def PlainAt : Pos → Prop
  | .locking _ (.statements l) ws => Plain l ws
  | .run stmts ws => Plain stmts ws
  | _ => True

/-- What holds of the committed rows. -/
structure Stored (s : Db) : Prop where
  inv : Inv s
  distinct : (s.tokens.map (·.tokenHash)).Nodup
  unrevoked : ∀ x ∈ s.tokens, x.revokedAt = none → x.revokedReason = none

/-- What every effect keeps of a row holds of each row it leaves. -/
theorem view_of {Q : RefreshToken → Prop} (hQ : ∀ w x y, Write.onToken w x = some y → Q x → Q y)
    (hl : ∀ x ∈ l, Q x) (ha : ∀ x, .added x ∈ ws → Q x) : ∀ y ∈ view l ws, Q y := by
  induction ws using List.reverseRecOn with
  | nil => exact hl
  | append_singleton ws w ih =>
    have ih := ih fun x hx => ha x (List.mem_append_left _ hx)
    intro y hy
    rw [view_snoc, Write.onTokens, List.mem_append, List.mem_filterMap] at hy
    rcases hy with ⟨x, hx, hxy⟩ | hy
    · exact hQ w x y hxy (ih x hx)
    · cases w with
      | added x =>
        obtain rfl := List.mem_singleton.mp hy
        exact ha y (List.mem_append_right _ List.mem_cons_self)
      | revoked r rows | deleted v | passwordChanged v n | activeSet v b =>
        exact absurd hy List.not_mem_nil

theorem reason_onToken {w : Write} (h : w.onToken x = some y)
    (hx : x.revokedAt = none → x.revokedReason = none) : y.revokedAt = none → y.revokedReason = none := by
  cases w with
  | revoked r rows =>
    rw [Write.onToken, Option.some.injEq] at h
    split_ifs at h <;> subst h
    · intro hy
      exact absurd hy (by simp [Revoke.set])
    · exact hx
  | deleted v =>
    rw [Write.onToken] at h
    split_ifs at h
    exact Option.some.inj h ▸ hx
  | added z | passwordChanged v n | activeSet v b => exact Option.some.inj h ▸ hx

/-- The secrets of the rows left are those of the rows there were and of the new ones. -/
theorem hashes_view : ((view l ws).map (·.tokenHash)).Sublist
    (l.map (·.tokenHash) ++ (ws.flatMap Write.newTokens).map (·.tokenHash)) := by
  have hfm : ∀ (w : Write) (l : List RefreshToken),
      ((l.filterMap w.onToken).map (·.tokenHash)).Sublist (l.map (·.tokenHash)) := by
    intro w l
    induction l with
    | nil => exact List.Sublist.refl _
    | cons x l ih =>
      cases hx : w.onToken x with
      | none =>
        rw [List.filterMap_cons_none hx]
        exact ih.cons _
      | some y =>
        rw [List.filterMap_cons_some hx, List.map_cons, List.map_cons, (sameRow_onToken hx).2.2.2]
        exact ih.cons_cons _
  induction ws using List.reverseRecOn with
  | nil => simp
  | append_singleton ws w ih =>
    rw [view_snoc, Write.onTokens, List.map_append, List.flatMap_append, List.map_append,
      ← List.append_assoc, List.flatMap_singleton]
    exact ((hfm w _).trans ih).append (List.Sublist.refl _)

theorem mem_newTokens : x ∈ ws.flatMap Write.newTokens ↔ .added x ∈ ws := by
  rw [List.mem_flatMap]
  constructor
  · rintro ⟨w, hw, hx⟩
    cases w with
    | added z =>
      obtain rfl := List.mem_singleton.mp hx
      exact hw
    | revoked r rows | deleted v | passwordChanged v n | activeSet v b =>
      exact absurd hx List.not_mem_nil
  · intro hx
    exact ⟨_, hx, List.mem_singleton_self x⟩

theorem Stored.commit {H : UserId → Prop} (hs : Stored s) (hok : RunOk s t H [] ws)
    (hp : Plain [] ws) : Stored (s.commit t ws) where
  inv := inv_commit hs.inv hok
  distinct := by
    refine hashes_view.nodup (List.nodup_append.mpr ⟨hs.distinct, ?_, ?_⟩)
    · have hlen : ((ws.flatMap Write.newTokens).map (·.tokenHash)).length ≤ 1 := by
        simpa using hp.one
      cases hl : (ws.flatMap Write.newTokens).map (·.tokenHash) with
      | nil => exact List.nodup_nil
      | cons b tl =>
        rw [hl, List.length_cons] at hlen
        rw [List.length_eq_zero_iff.mp (by omega : tl.length = 0)]
        exact List.nodup_singleton b
    · -- A stored secret is out; the transaction alone knows the one it drew.
      rintro _ ha _ hb rfl
      obtain ⟨x, hx, hxa⟩ := List.mem_map.mp ha
      obtain ⟨z, hz, hza⟩ := List.mem_map.mp hb
      have hout := (hs.inv.row x hx).2
      have hdrawn : s.secrets z.tokenHash = .drawn t := (hok.done _ (mem_newTokens.mp hz)).2.2
      rw [hxa, ← hza, hdrawn] at hout
      exact absurd hout (by simp)
  unrevoked := view_of (fun _ _ _ h hx => reason_onToken h hx) hs.unrevoked
    fun x hx _ => hp.unrevoked x (.inr hx)

/-! ## What a transaction does -/

theorem newTokens_quiet (h : ∀ st ∈ stmts, st.Quiet) : stmts.flatMap Stmt.newTokens = [] := by
  refine List.flatMap_eq_nil_iff.mpr fun st hst => ?_
  cases st with
  | add z => exact absurd (h _ hst) id
  | revoke r | delete v => rfl

theorem newTokens_execute (st : Stmt) : (st.execute s.tokens ws).newTokens = st.newTokens := by
  cases st <;> rfl

theorem plain_of_quiet (hst : ∀ st ∈ stmts, st.Quiet) (hws : ∀ w ∈ ws, w.OnUser) :
    Plain stmts ws where
  one := by
    have hnew : ws.flatMap Write.newTokens = [] := by
      refine List.flatMap_eq_nil_iff.mpr fun w hw => ?_
      cases w with
      | added z => exact absurd (hws _ hw) id
      | revoked r rows | deleted v | passwordChanged v n | activeSet v b => rfl
    simp [newTokens_quiet hst, hnew]
  unrevoked x hx := by
    rcases hx with hx | hx
    · exact absurd (hst _ hx) id
    · exact absurd (hws _ hx) id
  alone r hr := by
    refine ⟨fun hmem => ?_, fun rows hmem => absurd (hws _ hmem) id⟩
    have hq : r.spares = false := hst _ hmem
    exact absurd (hq.symm.trans hr) (by simp)

theorem plain_add {v : UserId} {hd tl : List Stmt} (hq : ∀ st ∈ hd ++ tl, st.Quiet) :
    Plain (hd ++ .add (issueTokenPair cfg v k now f) :: tl) [] where
  one := by
    have hhd := newTokens_quiet fun st h => hq st (List.mem_append_left _ h)
    have htl := newTokens_quiet fun st h => hq st (List.mem_append_right _ h)
    simp [List.flatMap_append, List.flatMap_cons, hhd, htl, Stmt.newTokens]
  unrevoked x hx := by
    have hmem : .add x ∈ hd ++ .add (issueTokenPair cfg v k now f) :: tl :=
      hx.resolve_right List.not_mem_nil
    rcases List.mem_append.mp hmem with hmem | hmem
    · exact absurd (hq _ (List.mem_append_left _ hmem)) id
    rcases List.mem_cons.mp hmem with hmem | hmem
    · rw [Stmt.add.inj hmem]
      rfl
    · exact absurd (hq _ (List.mem_append_right _ hmem)) id
  alone r hr := by
    refine ⟨fun hmem => ?_, fun rows hmem => absurd hmem List.not_mem_nil⟩
    have hq' : Stmt.Quiet (.revoke r) := by
      rcases List.mem_append.mp hmem with hmem | hmem
      · exact hq _ (List.mem_append_left _ hmem)
      rcases List.mem_cons.mp hmem with hmem | hmem
      · exact absurd hmem (by simp)
      · exact hq _ (List.mem_append_right _ hmem)
    exact absurd (hr.symm.trans hq') (by simp)

theorem Plain.execute {st : Stmt} (hp : Plain (st :: stmts) ws) :
    Plain stmts (ws ++ [st.execute s.tokens ws]) where
  one := by
    have h := hp.one
    rw [List.flatMap_cons, List.length_append] at h
    rw [List.flatMap_append, List.length_append, List.flatMap_singleton, newTokens_execute]
    omega
  unrevoked x hx := hp.unrevoked x (adds_execute.mp hx)
  alone r hr := by
    refine ⟨fun hmem => ?_, fun rows hmem => ?_⟩
    · obtain ⟨h, -⟩ := (hp.alone r hr).1 (List.mem_cons_of_mem _ hmem)
      rw [(List.cons.inj h).2] at hmem
      exact absurd hmem List.not_mem_nil
    · rcases List.mem_append.mp hmem with hmem | hmem
      · exact absurd ((hp.alone r hr).2 rows hmem).1 (by simp)
      · cases st with
        | revoke q =>
          have hw := List.mem_singleton.mp hmem
          obtain ⟨rfl, -⟩ := Write.revoked.inj hw
          obtain ⟨h, rfl⟩ := (hp.alone r hr).1 List.mem_cons_self
          exact ⟨(List.cons.inj h).2, by rw [hw, List.nil_append]⟩
        | add z | delete v => exact absurd (List.mem_singleton.mp hmem) (by simp [Stmt.execute])

theorem plain_refresh {locked : TokenHash → Option RefreshToken} {hash : TokenHash}
    {superseded : Option TokenHash} {l : List Stmt}
    (h : RefreshSession.script cfg locked hash superseded now f = some l) : Plain l [] := by
  obtain ⟨stored, -, rfl | ⟨-, hd, tl, rfl, hhd, htl⟩⟩ := refresh_script h
  · refine plain_of_quiet (fun st hst => ?_) (by simp)
    rw [List.mem_singleton.mp hst]
    rfl
  · refine plain_add fun st hst => ?_
    rcases List.mem_append.mp hst with hst | hst
    · rw [hhd st hst]
      rfl
    · rcases htl with rfl | ⟨h', sup, -, -, rfl⟩
      · exact absurd hst List.not_mem_nil
      · rcases revokeSuperseded_mem hst with ⟨rfl, -⟩ | ⟨rfl, -⟩ <;> rfl

theorem quiet_logout {locked : TokenHash → Option RefreshToken} {hash : TokenHash}
    {superseded : Option TokenHash} {st : Stmt}
    (h : st ∈ Logout.script locked hash superseded now) : st.Quiet := by
  rcases List.mem_append.mp h with h | h <;> obtain ⟨x, -, rfl⟩ := List.mem_map.mp h <;> rfl

theorem plainAt_proceed {next : Next} {keys : List ℤ} (h : PlainAt (.locking keys next ws))
    (hok : NextOk s t (Has cfg s t) ws next) : PlainAt (proceed cfg t s f ws next).2 := by
  cases next with
  | reread r =>
    obtain ⟨rfl, -⟩ := hok
    rw [proceed]
    cases hr : r.script cfg s.lookup f with
    | none => trivial
    | some l =>
      cases r with
      | refresh hash superseded now => exact plain_refresh hr
      | logout hash superseded now =>
        obtain rfl := Option.some.inj hr
        exact plain_of_quiet (fun _ h => quiet_logout h) (by simp)
  | recheck v checked now =>
    obtain ⟨rfl, -⟩ := hok
    rw [proceed]
    cases s.users v with
    | none => trivial
    | some x =>
      show PlainAt (ite _ _ _ : Db × Pos).2
      split_ifs
      · have hq : ∀ st ∈ ([] : List Stmt) ++ [], st.Quiet := by simp
        exact plain_add hq
      · trivial
  | findChain v id now =>
    obtain ⟨rfl, -⟩ := hok
    refine plain_of_quiet (fun st hst => ?_) (by simp)
    obtain ⟨k', -, rfl⟩ := List.mem_map.mp hst
    rfl
  | statements l => exact h

theorem quiet_revokeAllForUser {v : UserId} {st : Stmt} (h : st ∈ revokeAllForUser v now) :
    st.Quiet := by
  rw [List.mem_singleton.mp h]
  rfl

theorem plainAt_advance (h : PlainAt p) (hok : Ok cfg s t p) : PlainAt (advance cfg t s f p).2 := by
  cases p with
  | idle => trivial
  | owners r =>
    rw [advance]
    cases s.ownersOf r.hashes with
    | nil =>
      dsimp only
      cases hr : r.script cfg (fun _ => none) f with
      | none => trivial
      | some l =>
        rw [script_nothing hr]
        exact plain_of_quiet (by simp) (by simp)
    | cons v us => trivial
  | changing v expected now =>
    rw [advance]
    cases s.users v with
    | none => trivial
    | some x =>
      show PlainAt (ite _ _ _ : Db × Pos).2
      split_ifs
      · refine plain_of_quiet (fun st hst => quiet_revokeAllForUser hst) fun w hw => ?_
        rw [List.mem_singleton.mp hw]
        trivial
      · trivial
  | activating v active now =>
    rw [advance]
    cases s.users v with
    | none => trivial
    | some x =>
      have hws : ∀ b, ∀ w ∈ [Write.activeSet v b], w.OnUser := fun b w hw => by
        rw [List.mem_singleton.mp hw]
        trivial
      show PlainAt (ite _ _ _ : Db × Pos).2
      split_ifs
      · exact plain_of_quiet (by simp) (hws true)
      · exact plain_of_quiet (fun st hst => quiet_revokeAllForUser hst) (hws false)
  | removing v now =>
    rw [advance]
    cases s.users v with
    | none => trivial
    | some x =>
      refine plain_of_quiet (fun st hst => ?_) (by simp)
      rcases List.mem_append.mp hst with hst | hst
      · exact quiet_revokeAllForUser hst
      · rw [List.mem_singleton.mp hst]
        trivial
  | locking keys next ws =>
    cases keys with
    | cons k keys =>
      cases next with
      | statements l => exact h
      | reread r | recheck v checked now | findChain v id now => trivial
    | nil =>
      rw [advance]
      refine plainAt_proceed h ?_
      rw [← willHave_nil]
      exact hok
  | run stmts ws =>
    rcases stmts with - | ⟨st, stmts⟩
    · trivial
    · rcases advance_run cfg t s f st stmts ws with he | he <;> rw [he]
      · trivial
      · exact Plain.execute h

theorem plainAt_begin {r : Request} : PlainAt ((begun cfg s r).getD .idle) := by
  cases r with
  | present r | revokeSession v id now | setUserActive v b now | deleteAccount v now => trivial
  | login v now =>
    rw [begun]
    cases s.users v with
    | none => trivial
    | some x =>
      show PlainAt (Option.getD (ite _ _ _) _)
      split_ifs <;> trivial
  | changePassword v now =>
    rw [begun]
    cases s.users v <;> trivial
  | revokeOtherSessions v kh ki now =>
    refine ⟨by simp [Stmt.newTokens], fun x hx => ?_, fun r _ => ⟨fun hmem => ?_, by simp⟩⟩
    · simp [Adds] at hx
    · rw [List.mem_singleton.mp hmem]
      exact ⟨rfl, rfl⟩

/-- One step keeps what is stored, and what its transaction does, in order. -/
theorem stored_step (hs : Stored s) (hok : Ok cfg s t p) (hp : PlainAt p) {a : Action}
    (hpre : threadPre cfg t s p a) :
    Stored (threadPost cfg t s p a).1 ∧ PlainAt (threadPost cfg t s p a).2 := by
  have hi : Inv (threadPost cfg t s p a).1 := (steps hs.inv hok hpre).inv
  cases a with
  | begin r => exact ⟨⟨hi, hs.distinct, hs.unrevoked⟩, plainAt_begin⟩
  | abort => exact ⟨⟨hi, hs.distinct, hs.unrevoked⟩, trivial⟩
  | step f =>
    refine ⟨?_, plainAt_advance hp hok⟩
    rcases uncommitted_advance cfg t s f p with hu | ⟨ws, rfl⟩
    · refine ⟨hi, ?_, ?_⟩ <;> show _ <;> rw [show (threadPost cfg t s p (.step f)).1.tokens = _ from hu.tokens]
      · exact hs.distinct
      · exact hs.unrevoked
    · exact hs.commit hok hp

/-- What is stored in every reachable state, and what every transaction does. -/
theorem stored_reach {P : Conf → ℕ × Action → Prop} {a : Accounts}
    (h : (threads cfg).machine.Reach P (start a) c) :
    Threads.Holds Stored (fun s t p => Ok cfg s t p ∧ PlainAt p) c := by
  have h0 : Holds cfg (start a) := holds_start a
  refine Threads.invariant h ⟨⟨h0.shared, List.nodup_nil, by simp [start]⟩,
    fun t => ⟨h0.thread t, trivial⟩⟩ fun c t a hc hpre _ => ?_
  have hs := stored_step hc.shared (hc.thread t).1 (hc.thread t).2 hpre
  have hst : Steps cfg c.shared t (threadPost cfg t c.shared (c.th t) a) :=
    steps hc.shared.inv (hc.thread t).1 hpre
  exact ⟨hs.1, ⟨hst.own, hs.2⟩, fun v hv hok => ⟨hst.others.ok hst.inv hv hok.1, hok.2⟩⟩

theorem Stored.lookup (hs : Stored s) (hx : x ∈ s.tokens) : s.lookup x.tokenHash = some x := by
  cases hl : s.lookup x.tokenHash with
  | none =>
    have hnone := List.find?_eq_none.mp hl x hx
    exact absurd (decide_eq_true rfl) hnone
  | some y =>
    obtain ⟨hy, hyx⟩ := lookup_mem hl
    rw [List.inj_on_of_nodup_map hs.distinct hy hx hyx]

end McServerDashboard.Identity
