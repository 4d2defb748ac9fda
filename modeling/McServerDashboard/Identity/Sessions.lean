import McServerDashboard.Identity.Transactions

/-!
# What every interleaving keeps

* `Inv`: every stored token belongs to the user whose login began its chain, and its secret is out.
* `Ok`: what a transaction is about to do, or has done, concerns users whose session lock it has.
* **`holds_reach`**: both hold in every reachable state.
-/

namespace McServerDashboard.Identity

open Lib

variable {cfg : Settings} {s s' : Db} {t u : ℕ} {p : Pos} {f : Fresh} {ws : List Write}
  {stmts : List Stmt} {H H' : UserId → Prop} {x y : RefreshToken}

variable (cfg) in
/-- `t` has the session lock of `u`. -/
def Has (s : Db) (t : ℕ) (u : UserId) : Prop := s.locks (.sessions (cfg.lockKey u)) = some t

variable (cfg) in
/-- `t` has the session lock of `u`, or takes it among `keys`. -/
def WillHave (s : Db) (t : ℕ) (keys : List ℤ) (u : UserId) : Prop :=
  cfg.lockKey u ∈ keys ∨ Has cfg s t u

theorem willHave_nil : WillHave cfg s t [] = Has cfg s t := by
  funext v
  simp [WillHave]

/-! ## Assertions about statements -/

/-- Nothing of the transaction follows it but such. -/
def Stmt.Ends : Stmt → Prop
  | revoke r => r.ends = true
  | add _ => False
  | delete _ => True

def Write.Ends : Write → Prop
  | revoked r _ => r.ends = true
  | deleted _ => True
  | _ => False

/-- An update of a user row. -/
def Write.OnUser : Write → Prop
  | passwordChanged _ _ => True
  | activeSet _ _ => True
  | _ => False

/-- The users whose tokens the scope covers satisfy `H`. -/
def ScopeOk (s : Db) (H : UserId → Prop) : Scope → Prop
  | .token h => s.secrets h = .out ∧ ∀ x ∈ s.tokens, x.tokenHash = h → H x.userId
  | .chain k => ∃ u hc, s.origin k = some (u, hc) ∧ H u
  | .user u _ _ => H u

def RevokeOk (s : Db) (H : UserId → Prop) (r : Revoke) : Prop :=
  ScopeOk s H r.scope ∧ (r.ends = true → r.reason ≠ .rotated)

/-- The token continues a chain of a user of `H`, and only `t` knows its secret. -/
def AddOk (s : Db) (t : ℕ) (H : UserId → Prop) (x : RefreshToken) : Prop :=
  H x.userId ∧ (∃ hc, s.origin x.chainId = some (x.userId, hc)) ∧ s.secrets x.tokenHash = .drawn t

def StmtOk (s : Db) (t : ℕ) (H : UserId → Prop) : Stmt → Prop
  | .revoke r => RevokeOk s H r
  | .add x => AddOk s t H x
  | .delete u => H u

def WriteOk (s : Db) (t : ℕ) (H : UserId → Prop) : Write → Prop
  | .revoked r _ => RevokeOk s H r
  | .added x => AddOk s t H x
  | .deleted u => H u
  | .passwordChanged u new => s.locks (.user u) = some t ∧ new < s.nextHash
  | .activeSet u _ => s.locks (.user u) = some t

/-- The transaction stores `x`, or has. -/
def Adds (stmts : List Stmt) (ws : List Write) (x : RefreshToken) : Prop :=
  .add x ∈ stmts ∨ .added x ∈ ws

/-- The transaction ends all sessions of `u`, or has. -/
def Sweeps (stmts : List Stmt) (ws : List Write) (u : UserId) : Prop :=
  ∃ r : Revoke, r.scope = .user u none none ∧ (.revoke r ∈ stmts ∨ ∃ rows, .revoked r rows ∈ ws)

/-- An update of the row of `u` that invalidates what a login has checked. -/
def Invalidates (ws : List Write) (u : UserId) : Prop :=
  (∃ new, .passwordChanged u new ∈ ws) ∨ .activeSet u false ∈ ws

/-- What holds while the statements of a transaction are executed. -/
structure RunOk (s : Db) (t : ℕ) (H : UserId → Prop) (stmts : List Stmt) (ws : List Write) :
    Prop where
  todo : ∀ st ∈ stmts, StmtOk s t H st
  done : ∀ w ∈ ws, WriteOk s t H w
  one : ∀ x y, Adds stmts ws x → Adds stmts ws y → x = y
  oneUser : ∀ w ∈ ws, ∀ v ∈ ws, w.OnUser → v.OnUser → w = v
  order : stmts.Pairwise fun a b => a.Ends → b.Ends
  last : (∃ w ∈ ws, w.Ends) → ∀ st ∈ stmts, st.Ends
  closed : ∀ r rows, .revoked r rows ∈ ws → r.ends = true → ∀ x ∈ view s.tokens ws,
    r.scope.covers x = true → x.Closed
  sweeps : ∀ v, Invalidates ws v → Sweeps stmts ws v

/-- What holds while session locks are still to be taken; `H` holds of those it has or takes. -/
def NextOk (s : Db) (t : ℕ) (H : UserId → Prop) (ws : List Write) : Next → Prop
  | .reread r => ws = [] ∧ (∀ h ∈ r.hashes, s.secrets h = .out) ∧
      ∀ x ∈ s.tokens, x.tokenHash ∈ r.hashes → H x.userId
  | .recheck u _ _ => ws = [] ∧ H u
  | .findChain u _ _ => ws = [] ∧ H u
  | .statements l => RunOk s t H l ws ∧ (∀ st ∈ l, st.Ends) ∧ ∀ w ∈ ws, w.OnUser

variable (cfg) in
/-- What holds for a transaction at each of its positions. -/
def Ok (s : Db) (t : ℕ) : Pos → Prop
  | .owners r => ∀ h ∈ r.hashes, s.secrets h = .out
  | .locking keys next ws => NextOk s t (WillHave cfg s t keys) ws next
  | .run stmts ws => RunOk s t (Has cfg s t) stmts ws
  | _ => True

/-- What holds of the database. -/
structure Inv (s : Db) : Prop where
  row : ∀ x ∈ s.tokens,
    (∃ hc, s.origin x.chainId = some (x.userId, hc)) ∧ s.secrets x.tokenHash = .out
  unique : ∀ x ∈ s.tokens, ∀ y ∈ s.tokens, x.tokenHash = y.tokenHash →
    x.chainId = y.chainId ∧ x.userId = y.userId
  numbered : ∀ v x, s.users v = some x → x.passwordHash < s.nextHash

variable (cfg) in
/-- What a step of `t` leaves to the other transactions. -/
structure Spares (s s' : Db) (t : ℕ) : Prop where
  locks : ∀ u, u ≠ t → ∀ k, s.locks k = some u → s'.locks k = some u
  /-- A row is a version of an old one, or one whose secret only `t` knew. -/
  rows : ∀ y ∈ s'.tokens, (∃ x ∈ s.tokens, SameRow x y) ∨ s.secrets y.tokenHash = .drawn t
  kept : ∀ u, u ≠ t → ∀ y ∈ s'.tokens, Has cfg s u y.userId → y ∈ s.tokens
  stays : ∀ u, u ≠ t → ∀ x ∈ s.tokens, Has cfg s u x.userId → x ∈ s'.tokens
  origin : ∀ k o, s.origin k = some o → s'.origin k = some o
  drawn : ∀ u, u ≠ t → ∀ h, s.secrets h = .drawn u → s'.secrets h = .drawn u
  out : ∀ h, s.secrets h = .out → s'.secrets h = .out
  next : s.nextHash ≤ s'.nextHash

/-- One step keeps the invariant and the transaction's assertion, and lets the others be. -/
structure Steps (cfg : Settings) (s : Db) (t : ℕ) (r : Db × Pos) : Prop where
  inv : Inv r.1
  own : Ok cfg r.1 t r.2
  others : Spares cfg s r.1 t

/-! ## Other transactions -/

theorem Inv.owner (hi : Inv s) (hx : x ∈ s.tokens) {v : UserId} {hc : PasswordHash}
    (ho : s.origin x.chainId = some (v, hc)) : x.userId = v := by
  obtain ⟨hc', ho'⟩ := (hi.row x hx).1
  rw [ho', Option.some.injEq, Prod.mk.injEq] at ho
  exact ho.1

/-- What a transaction's scope covers belongs to users it has the lock of. -/
theorem has_of_covers (hi : Inv s) {sc : Scope} (hsc : ScopeOk s H sc) (hx : x ∈ s.tokens)
    (hc : sc.covers x = true) : H x.userId := by
  cases sc with
  | token h => exact hsc.2 x hx (of_decide_eq_true hc)
  | chain k =>
    obtain ⟨v, n, ho, hv⟩ := hsc
    obtain rfl := of_decide_eq_true hc
    rwa [hi.owner hx ho]
  | user v keepHash keepId =>
    simp only [Scope.covers, Bool.and_eq_true, decide_eq_true_eq] at hc
    rw [hc.1.1]
    exact hsc

theorem Spares.has (h : Spares cfg s s' t) (hu : u ≠ t) {v : UserId} (hv : Has cfg s u v) :
    Has cfg s' u v := h.locks u hu _ hv

/-- A presented token's row is an old one. -/
theorem Spares.oldRow (h : Spares cfg s s' t) (hy : y ∈ s'.tokens)
    (ho : s.secrets y.tokenHash = .out) : ∃ x ∈ s.tokens, SameRow x y := by
  rcases h.rows y hy with hx | hd
  · exact hx
  · exact absurd (ho.symm.trans hd) (by simp)

theorem Spares.scopeOk (h : Spares cfg s s' t) (hH : ∀ v, H v → H' v) {sc : Scope}
    (hsc : ScopeOk s H sc) : ScopeOk s' H' sc := by
  cases sc with
  | token g =>
    refine ⟨h.out g hsc.1, fun y hy hg => ?_⟩
    obtain ⟨x, hx, hs⟩ := h.oldRow hy (hg ▸ hsc.1)
    rw [hs.2.1]
    exact hH _ (hsc.2 x hx (hs.2.2.2.symm.trans hg))
  | chain k =>
    obtain ⟨v, n, ho, hv⟩ := hsc
    exact ⟨v, n, h.origin _ _ ho, hH v hv⟩
  | user v keepHash keepId => exact hH v hsc

theorem Spares.addOk (h : Spares cfg s s' t) (hu : u ≠ t) (hH : ∀ v, H v → H' v)
    (ha : AddOk s u H x) : AddOk s' u H' x := by
  obtain ⟨hx, ⟨hc, ho⟩, hd⟩ := ha
  exact ⟨hH _ hx, ⟨hc, h.origin _ _ ho⟩, h.drawn u hu _ hd⟩

theorem Spares.stmtOk (h : Spares cfg s s' t) (hu : u ≠ t) (hH : ∀ v, H v → H' v) {st : Stmt}
    (hst : StmtOk s u H st) : StmtOk s' u H' st := by
  cases st with
  | revoke r => exact ⟨h.scopeOk hH hst.1, hst.2⟩
  | add x => exact h.addOk hu hH hst
  | delete v => exact hH v hst

theorem Spares.writeOk (h : Spares cfg s s' t) (hu : u ≠ t) (hH : ∀ v, H v → H' v) {w : Write}
    (hw : WriteOk s u H w) : WriteOk s' u H' w := by
  cases w with
  | revoked r rows => exact ⟨h.scopeOk hH hw.1, hw.2⟩
  | added x => exact h.addOk hu hH hw
  | deleted v => exact hH v hw
  | passwordChanged v new => exact ⟨h.locks u hu _ hw.1, hw.2.trans_le h.next⟩
  | activeSet v b => exact h.locks u hu _ hw

/-- What another transaction has closed stays closed, as its rows are under its locks. -/
theorem Spares.runOk (h : Spares cfg s s' t) (hi' : Inv s') (hu : u ≠ t) (hH : ∀ v, H v → H' v)
    (hl : (∀ v, H v → Has cfg s u v) ∨ ∀ w ∈ ws, ¬w.Ends) (hok : RunOk s u H stmts ws) :
    RunOk s' u H' stmts ws := by
  refine ⟨fun st hst => h.stmtOk hu hH (hok.todo st hst),
    fun w hw => h.writeOk hu hH (hok.done w hw), hok.one, hok.oneUser, hok.order, hok.last,
    fun r rows hr he y hy hc => ?_, hok.sweeps⟩
  rcases hl with hl | hl
  · refine hok.closed r rows hr he y ?_ hc
    rw [mem_view] at hy ⊢
    rcases hy with ⟨x, hx, hxy⟩ | hy
    · have hcx : r.scope.covers x = true := by rw [← (sameRow_after hxy).covers, hc]
      have hsc : ScopeOk s' H r.scope := h.scopeOk (fun _ hv => hv) (hok.done _ hr).1
      exact .inl ⟨x, h.kept u hu x hx (hl _ (has_of_covers hi' hsc hx hcx)), hxy⟩
    · exact .inr hy
  · exact absurd he (hl _ hr)

/-- The assertions of the other transactions survive the step. -/
theorem Spares.ok (h : Spares cfg s s' t) (hi' : Inv s') (hu : u ≠ t) (hok : Ok cfg s u p) :
    Ok cfg s' u p := by
  cases p with
  | owners r => exact fun g hg => h.out g (hok g hg)
  | run stmts ws => exact h.runOk hi' hu (fun v => h.has hu) (.inl fun _ hv => hv) hok
  | locking keys next ws =>
    have hH : ∀ v, WillHave cfg s u keys v → WillHave cfg s' u keys v :=
      fun v hv => hv.imp_right (h.has hu)
    cases next with
    | reread r =>
      obtain ⟨hws, hout, hrow⟩ := hok
      refine ⟨hws, fun g hg => h.out g (hout g hg), fun y hy hg => ?_⟩
      obtain ⟨x, hx, hs⟩ := h.oldRow hy (hout _ hg)
      rw [hs.2.1]
      exact hH _ (hrow x hx (hs.2.2.2 ▸ hg))
    | recheck v checked now | findChain v id now => exact ⟨hok.1, hH v hok.2⟩
    | statements l =>
      refine ⟨h.runOk hi' hu hH (.inr fun w hw => ?_) hok.1, hok.2⟩
      have hus := hok.2.2 w hw
      cases w <;> simp_all [Write.OnUser, Write.Ends]
  | idle | changing _ _ _ | activating _ _ _ | removing _ _ => trivial

/-! ## Steps that store nothing -/

theorem spares_same (hT : s'.tokens = s.tokens)
    (hl : ∀ u, u ≠ t → ∀ k, s.locks k = some u → s'.locks k = some u)
    (ho : ∀ k o, s.origin k = some o → s'.origin k = some o)
    (hd : ∀ u, u ≠ t → ∀ h, s.secrets h = .drawn u → s'.secrets h = .drawn u)
    (hout : ∀ h, s.secrets h = .out → s'.secrets h = .out) (hn : s.nextHash ≤ s'.nextHash) :
    Spares cfg s s' t :=
  ⟨hl, fun y hy => .inl ⟨y, hT ▸ hy, .refl⟩, fun _ _ _ hy _ => hT ▸ hy, fun _ _ _ hx _ => hT ▸ hx, ho,
    hd, hout, hn⟩

theorem steps_rollback (hi : Inv s) : Steps cfg s t (s.rollback t) where
  inv := ⟨hi.row, hi.unique, hi.numbered⟩
  own := trivial
  others := spares_same rfl (fun _ hu _ h => Locks.release_other hu h) (fun _ _ h => h)
    (fun _ _ _ h => h) (fun _ h => h) le_rfl

theorem steps_stay (hi : Inv s) (hok : Ok cfg s t p) : Steps cfg s t (s, p) where
  inv := hi
  own := hok
  others := spares_same rfl (fun _ _ _ h => h) (fun _ _ h => h) (fun _ _ _ h => h) (fun _ h => h)
    le_rfl

/-- The state after `t` takes a lock; a password change also numbers its new hash. -/
def Db.locked (s : Db) (t : ℕ) (k : LockKey) (n : PasswordHash) : Db :=
  { s with locks := s.locks.take t k, nextHash := n }

theorem steps_locked (hi : Inv s) {k : LockKey} {n : PasswordHash} (hf : s.locks.Free t k)
    (hn : s.nextHash ≤ n) (hok : Ok cfg (s.locked t k n) t p) :
    Steps cfg s t (s.locked t k n, p) where
  inv := ⟨hi.row, hi.unique, fun v x hv => (hi.numbered v x hv).trans_le hn⟩
  own := hok
  others := spares_same rfl (fun _ hu _ h => Locks.take_other hf hu h) (fun _ _ h => h)
    (fun _ _ _ h => h) (fun _ h => h) hn

theorem ScopeOk.locked {k : LockKey} {n : PasswordHash} (hH : ∀ v, H v → H' v) {sc : Scope}
    (h : ScopeOk s H sc) : ScopeOk (s.locked t k n) H' sc := by
  cases sc with
  | token g => exact ⟨h.1, fun x hx hh => hH _ (h.2 x hx hh)⟩
  | chain c =>
    obtain ⟨v, hc, ho, hv⟩ := h
    exact ⟨v, hc, ho, hH v hv⟩
  | user v keepHash keepId => exact hH v h

/-- Taking one more lock takes nothing from what the transaction is to do. -/
theorem NextOk.locked {next : Next} {k : LockKey} (hH : ∀ v, H v → H' v)
    (h : NextOk s t H ws next) : NextOk (s.locked t k s.nextHash) t H' ws next := by
  cases next with
  | reread r => exact ⟨h.1, h.2.1, fun x hx hh => hH _ (h.2.2 x hx hh)⟩
  | recheck v checked now | findChain v id now => exact ⟨h.1, hH v h.2⟩
  | statements l =>
    obtain ⟨hok, hends, huser⟩ := h
    refine ⟨⟨fun st hst => ?_, fun w hw => ?_, hok.one, hok.oneUser, hok.order, hok.last, hok.closed,
      hok.sweeps⟩, hends, huser⟩
    · have hs := hok.todo st hst
      cases st with
      | revoke r => exact ⟨hs.1.locked hH, hs.2⟩
      | add x => exact absurd (hends _ hst) id
      | delete v => exact hH v hs
    · have hs := hok.done w hw
      cases w with
      | passwordChanged v new => exact ⟨Locks.take_mono hs.1, hs.2⟩
      | activeSet v b => exact Locks.take_mono hs
      | revoked r rows | added x | deleted v => exact absurd (huser _ hw) id

/-- What a transaction that locks the user row first goes on to do. -/
theorem nextOk_swept (tail : List Stmt) {k : ℤ} {now : Time} (hk : k = cfg.lockKey u)
    (htail : ∀ st ∈ tail, st = .delete u) (hws : ∀ w ∈ ws, w.OnUser ∧ WriteOk s t (WillHave cfg s t [k]) w)
    (hone : ∀ w ∈ ws, ∀ v ∈ ws, w = v) (hu : ∀ v, Invalidates ws v → v = u) :
    NextOk s t (WillHave cfg s t [k]) ws (.statements (revokeAllForUser u now ++ tail)) := by
  have hH : WillHave cfg s t [k] u := .inl (by simp [hk])
  have hends : ∀ st ∈ revokeAllForUser u now ++ tail, st.Ends := by
    intro st hst
    rcases List.mem_append.mp hst with h | h
    · obtain rfl := List.mem_singleton.mp h
      rfl
    · rw [htail st h]
      trivial
  have hadd : ∀ x, ¬Adds (revokeAllForUser u now ++ tail) ws x := by
    rintro x (h | h)
    · exact hends _ h
    · exact (hws _ h).1
  refine ⟨⟨fun st hst => ?_, fun w hw => ?_, fun x y hx => absurd hx (hadd x),
    fun w hw v hv _ _ => hone w hw v hv, List.pairwise_of_forall_mem_list fun a _ b hb _ => hends b hb,
    fun _ => hends, fun r rows hr => absurd (hws _ hr).1 id, fun v hv => ?_⟩, hends,
    fun w hw => (hws w hw).1⟩
  · rcases List.mem_append.mp hst with h | h
    · obtain rfl := List.mem_singleton.mp h
      exact ⟨hH, fun _ => by simp⟩
    · rw [htail st h]
      exact hH
  · have hw' := hws w hw
    cases w with
    | passwordChanged v new => exact hw'.2
    | activeSet v b => exact hw'.2
    | revoked r rows | added x | deleted v => exact absurd hw'.1 id
  · obtain rfl := hu v hv
    exact ⟨_, rfl, .inl (List.mem_append_left _ List.mem_cons_self)⟩

/-! ## Executing a statement -/

theorem ends_execute (st : Stmt) : (st.execute s.tokens ws).Ends ↔ st.Ends := by
  cases st <;> simp [Stmt.execute, Write.Ends, Stmt.Ends]

theorem writeOk_execute {st : Stmt} (h : StmtOk s t H st) :
    WriteOk s t H (st.execute s.tokens ws) := by
  cases st <;> exact h

theorem adds_execute {st : Stmt} :
    Adds stmts (ws ++ [st.execute s.tokens ws]) x ↔ Adds (st :: stmts) ws x := by
  cases st with
  | add z =>
    simp only [Adds, Stmt.execute, List.mem_append, List.mem_cons,
      Write.added.injEq, Stmt.add.injEq]
    tauto
  | revoke r | delete v => simp [Adds, Stmt.execute]

theorem sweeps_execute {st : Stmt} (h : Sweeps (st :: stmts) ws u) :
    Sweeps stmts (ws ++ [st.execute s.tokens ws]) u := by
  obtain ⟨r, hr, h | ⟨rows, h⟩⟩ := h
  · rcases List.mem_cons.mp h with rfl | h
    · exact ⟨r, hr, .inr ⟨_, List.mem_append_right _ List.mem_cons_self⟩⟩
    · exact ⟨r, hr, .inl h⟩
  · exact ⟨r, hr, .inr ⟨rows, List.mem_append_left _ h⟩⟩

theorem not_onUser_execute (st : Stmt) : ¬(st.execute s.tokens ws).OnUser := by
  cases st <;> exact id

/-- **What the statements so far have closed, the next one leaves closed.** -/
theorem closed_execute {st : Stmt} (hok : RunOk s t H (st :: stmts) ws) {r : Revoke}
    {rows : List TokenHash} (hr : .revoked r rows ∈ ws ++ [st.execute s.tokens ws])
    (he : r.ends = true) (hy : y ∈ view s.tokens (ws ++ [st.execute s.tokens ws]))
    (hc : r.scope.covers y = true) : y.Closed := by
  rcases List.mem_append.mp hr with hr | hr
  · -- An earlier statement closed it: what is left to execute can only end more.
    have hst : st.Ends := hok.last ⟨_, hr, he⟩ st List.mem_cons_self
    rw [view_snoc, Write.onTokens, List.mem_append, List.mem_filterMap] at hy
    rcases hy with ⟨x, hx, hxy⟩ | hy
    · have hcx : r.scope.covers x = true := by rw [← (sameRow_onToken hxy).covers, hc]
      refine closed_onToken (fun q qs hq => ?_) hxy (hok.closed r rows hr he x hx hcx)
      cases st with
      | revoke q' =>
        obtain ⟨rfl, -⟩ := Write.revoked.inj hq
        exact (hok.todo _ List.mem_cons_self).2 hst
      | add z => exact absurd hst id
      | delete v => exact absurd hq (by simp [Stmt.execute])
    · cases st with
      | add z => exact absurd hst id
      | revoke q | delete v => exact absurd hy List.not_mem_nil
  · cases st with
    | revoke q =>
      obtain ⟨rfl, -⟩ := Write.revoked.inj (List.mem_singleton.mp hr)
      exact closed_of_execute ((hok.todo _ List.mem_cons_self).2 he) hy hc
    | add z | delete v => exact absurd (List.mem_singleton.mp hr) (by simp [Stmt.execute])

theorem runOk_execute {st : Stmt} (hok : RunOk s t H (st :: stmts) ws) :
    RunOk s t H stmts (ws ++ [st.execute s.tokens ws]) where
  todo v hv := hok.todo v (List.mem_cons_of_mem _ hv)
  done w hw := by
    rcases List.mem_append.mp hw with hw | hw
    · exact hok.done w hw
    · rw [List.mem_singleton.mp hw]
      exact writeOk_execute (hok.todo st List.mem_cons_self)
  one a b ha hb := hok.one a b (adds_execute.mp ha) (adds_execute.mp hb)
  oneUser w hw v hv hwu hvu := by
    rcases List.mem_append.mp hw with hw | hw
    · rcases List.mem_append.mp hv with hv | hv
      · exact hok.oneUser w hw v hv hwu hvu
      · exact absurd (List.mem_singleton.mp hv ▸ hvu) (not_onUser_execute st)
    · exact absurd (List.mem_singleton.mp hw ▸ hwu) (not_onUser_execute st)
  order := (List.pairwise_cons.mp hok.order).2
  last := by
    rintro ⟨w, hw, he⟩ v hv
    rcases List.mem_append.mp hw with hw | hw
    · exact hok.last ⟨w, hw, he⟩ v (List.mem_cons_of_mem _ hv)
    · rw [List.mem_singleton.mp hw, ends_execute] at he
      exact (List.pairwise_cons.mp hok.order).1 v hv he
  closed r rows hr he y hy hc := closed_execute hok hr he hy hc
  sweeps v hv := by
    refine sweeps_execute (hok.sweeps v ?_)
    have hne : ∀ w, w.OnUser → w ∈ ws ++ [st.execute s.tokens ws] → w ∈ ws := by
      intro w hw hmem
      rcases List.mem_append.mp hmem with h | h
      · exact h
      · exact absurd (List.mem_singleton.mp h ▸ hw) (not_onUser_execute st)
    exact hv.imp (fun ⟨n, hn⟩ => ⟨n, hne _ trivial hn⟩) (hne _ trivial)

theorem steps_execute (hi : Inv s) {st : Stmt} (hok : Ok cfg s t (.run (st :: stmts) ws)) :
    Steps cfg s t (advance cfg t s f (.run (st :: stmts) ws)) := by
  have hrun : Ok cfg s t (.run stmts (ws ++ [st.execute s.tokens ws])) := runOk_execute hok
  rcases advance_run cfg t s f st stmts ws with he | he <;> rw [he]
  · exact steps_rollback hi
  · exact steps_stay hi hrun

/-! ## Committing -/

/-- What is true of every version of a user's row is true of the one a transaction leaves. -/
theorem usersView_of {Q : User → Prop} {users : UserId → Option User} {v : UserId}
    (h0 : ∀ x, users v = some x → Q x)
    (hp : ∀ n, .passwordChanged v n ∈ ws → ∀ x, Q x → Q { x with passwordHash := n })
    (ha : ∀ b, .activeSet v b ∈ ws → ∀ x, Q x → Q { x with active := b }) :
    ∀ x, usersView users ws v = some x → Q x := by
  induction ws using List.reverseRecOn with
  | nil => exact h0
  | append_singleton ws w ih =>
    have ih := ih (fun n hn => hp n (List.mem_append_left _ hn))
      (fun b hb => ha b (List.mem_append_left _ hb))
    intro x hx
    have hmem : w ∈ ws ++ [w] := List.mem_append_right _ List.mem_cons_self
    rw [usersView, List.foldl_append] at hx
    change w.onUsers (usersView users ws) v = some x at hx
    cases w with
    | revoked r rows | added z => exact ih x hx
    | deleted z =>
      rw [Write.onUsers, Function.update_apply] at hx
      split_ifs at hx
      exact ih x hx
    | passwordChanged z n =>
      rw [Write.onUsers, Function.update_apply] at hx
      split_ifs at hx with hz
      · subst hz
        obtain ⟨x', hx', rfl⟩ := Option.map_eq_some_iff.mp hx
        exact hp n hmem x' (ih x' hx')
      · exact ih x hx
    | activeSet z b =>
      rw [Write.onUsers, Function.update_apply] at hx
      split_ifs at hx with hz
      · subst hz
        obtain ⟨x', hx', rfl⟩ := Option.map_eq_some_iff.mp hx
        exact ha b hmem x' (ih x' hx')
      · exact ih x hx

/-- A row of a user whose lock `t` does not have is left alone. -/
theorem after_of_not_has (hi : Inv s) (hok : RunOk s t (Has cfg s t) stmts ws) (hx : x ∈ s.tokens)
    (hn : ¬Has cfg s t x.userId) : after ws x = some x := by
  refine after_eq fun w hw => ?_
  have hwok := hok.done w hw
  cases w with
  | revoked r rows =>
    have hsel : ¬(x.tokenHash ∈ rows ∧ r.selects x = true) := by
      rintro ⟨-, hsel⟩
      rw [Revoke.selects, Bool.and_eq_true] at hsel
      exact hn (has_of_covers hi hwok.1 hx hsel.1)
    rw [Write.onToken, if_neg hsel]
  | deleted v =>
    have hv : x.userId ≠ v := by
      rintro rfl
      exact hn hwok
    rw [Write.onToken, if_neg hv]
  | added z | passwordChanged v n | activeSet v b => rfl

/-- A committed row is a version of an old one, or of the one the transaction adds. -/
theorem mem_commit (hy : y ∈ (s.commit t ws).tokens) :
    (∃ x ∈ s.tokens, after ws x = some y ∧ SameRow x y) ∨ ∃ x, .added x ∈ ws ∧ SameRow x y := by
  rcases mem_view.mp hy with ⟨x, hx, hxy⟩ | hy
  · exact .inl ⟨x, hx, hxy, sameRow_after hxy⟩
  · exact .inr (added_of_mem_view hy)

theorem commit_out {h : TokenHash} (ho : s.secrets h = .out) : (s.commit t ws).secrets h = .out := by
  simp [Db.commit, ho]

theorem inv_commit (hi : Inv s) (hok : RunOk s t H [] ws) : Inv (s.commit t ws) where
  row y hy := by
    rcases mem_commit hy with ⟨x, hx, -, hs⟩ | ⟨x, hx, hs⟩
    · obtain ⟨ho, hsec⟩ := hi.row x hx
      rw [hs.2.1, hs.2.2.1, hs.2.2.2]
      exact ⟨ho, commit_out hsec⟩
    · obtain ⟨-, ho, hd⟩ := hok.done _ hx
      rw [hs.2.1, hs.2.2.1, hs.2.2.2]
      exact ⟨ho, by simp [Db.commit, hd]⟩
  unique y hy z hz hyz := by
    rcases mem_commit hy with ⟨x, hx, -, hxy⟩ | ⟨x, hx, hxy⟩ <;>
      rcases mem_commit hz with ⟨w, hw, -, hwz⟩ | ⟨w, hw, hwz⟩ <;>
      rw [hxy.2.2.2, hwz.2.2.2] at hyz <;> rw [hxy.2.1, hxy.2.2.1, hwz.2.1, hwz.2.2.1]
    · exact hi.unique x hx w hw hyz
    · have hd : s.secrets w.tokenHash = .drawn t := (hok.done _ hw).2.2
      exact absurd ((hi.row x hx).2.symm.trans (hyz ▸ hd)) (by simp)
    · have hd : s.secrets x.tokenHash = .drawn t := (hok.done _ hx).2.2
      exact absurd ((hi.row w hw).2.symm.trans (hyz ▸ hd)) (by simp)
    · obtain rfl := hok.one x w (.inr hx) (.inr hw)
      exact ⟨rfl, rfl⟩
  numbered v := usersView_of (hi.numbered v) (fun n hn _ _ => (hok.done _ hn).2) fun _ _ _ h => h

theorem spares_commit (hi : Inv s) (hok : RunOk s t (Has cfg s t) [] ws) :
    Spares cfg s (s.commit t ws) t where
  locks _ hu _ h := Locks.release_other hu h
  rows y hy := by
    rcases mem_commit hy with ⟨x, hx, -, hs⟩ | ⟨x, hx, hs⟩
    · exact .inl ⟨x, hx, hs⟩
    · rw [hs.2.2.2]
      exact .inr (hok.done _ hx).2.2
  kept u hu y hy hhas := by
    have hne : ¬Has cfg s t y.userId := by
      intro h
      exact hu (Option.some.inj (hhas.symm.trans h))
    rcases mem_commit hy with ⟨x, hx, hxy, hs⟩ | ⟨x, hx, hs⟩
    · rw [hs.2.1] at hne
      rw [after_of_not_has hi hok hx hne, Option.some.injEq] at hxy
      exact hxy ▸ hx
    · rw [hs.2.1] at hne
      exact absurd (hok.done _ hx).1 hne
  stays u hu x hx hhas := by
    have hne : ¬Has cfg s t x.userId := fun h => hu (Option.some.inj (hhas.symm.trans h))
    exact mem_view.mpr (.inl ⟨x, hx, after_of_not_has hi hok hx hne⟩)
  origin _ _ h := h
  drawn u hu h hd := by
    have hne : s.secrets h ≠ .drawn t := by
      rw [hd]
      simpa using hu
    show (if s.secrets h = .drawn t then Secret.out else s.secrets h) = _
    rw [if_neg hne, hd]
  out _ h := commit_out h
  next := le_rfl

theorem steps_commit (hi : Inv s) (hok : Ok cfg s t (.run [] ws)) :
    Steps cfg s t (s.commit t ws, .idle) :=
  ⟨inv_commit hi hok, trivial, spares_commit hi hok⟩

/-! ## Deciding under the session locks -/

/-- The database after `t` has drawn a secret, and a chain when `o` starts one. -/
def Db.drew (s : Db) (t : ℕ) (f : Fresh) (o : Option (UserId × PasswordHash)) : Db :=
  { s.draw t f.hash with
    origin := match o with
      | none => s.origin
      | some _ => Function.update s.origin f.chain o }

theorem drew_out {o : Option (UserId × PasswordHash)} {h : TokenHash}
    (hf : s.secrets f.hash = .unknown) (ho : s.secrets h = .out) :
    (s.drew t f o).secrets h = .out := by
  have hne : h ≠ f.hash := by
    rintro rfl
    exact absurd (ho.symm.trans hf) (by simp)
  show Function.update s.secrets f.hash _ h = _
  rw [Function.update_of_ne hne, ho]

theorem drew_origin {o : Option (UserId × PasswordHash)} {k : ChainId}
    {o' : UserId × PasswordHash} (hf : s.origin f.chain = none) (ho : s.origin k = some o') :
    (s.drew t f o).origin k = some o' := by
  have hne : k ≠ f.chain := by
    rintro rfl
    exact absurd (ho.symm.trans hf) (by simp)
  cases o with
  | none => exact ho
  | some _ =>
    show Function.update s.origin f.chain _ k = _
    rw [Function.update_of_ne hne, ho]

theorem steps_drew (hi : Inv s) (hf : s.secrets f.hash = .unknown ∧ s.origin f.chain = none)
    {o : Option (UserId × PasswordHash)} (hok : Ok cfg (s.drew t f o) t p) :
    Steps cfg s t (s.drew t f o, p) where
  inv := by
    refine ⟨fun x hx => ?_, hi.unique, hi.numbered⟩
    obtain ⟨⟨hc, ho⟩, hs⟩ := hi.row x hx
    exact ⟨⟨hc, drew_origin hf.2 ho⟩, drew_out hf.1 hs⟩
  own := hok
  others := by
    refine spares_same rfl (fun _ _ _ h => h) (fun k o ho => drew_origin hf.2 ho)
      (fun u _ h hd => ?_) (fun h ho => drew_out hf.1 ho) le_rfl
    have hne : h ≠ f.hash := by
      rintro rfl
      exact absurd (hd.symm.trans hf.1) (by simp)
    show Function.update s.secrets f.hash _ h = _
    rw [Function.update_of_ne hne, hd]

/-- A transaction that has done nothing yet, with what it is to do. -/
theorem runOk_begin (htodo : ∀ st ∈ stmts, StmtOk s t H st)
    (hone : ∀ x y, .add x ∈ stmts → .add y ∈ stmts → x = y)
    (horder : stmts.Pairwise fun a b => a.Ends → b.Ends) : RunOk s t H stmts [] where
  todo := htodo
  done := by simp
  one x y hx hy := hone x y (hx.resolve_right List.not_mem_nil) (hy.resolve_right List.not_mem_nil)
  oneUser := by simp
  order := horder
  last := by simp
  closed := by simp
  sweeps v hv := by simp [Invalidates] at hv

theorem lookup_mem {h : TokenHash} (hx : s.lookup h = some x) : x ∈ s.tokens ∧ x.tokenHash = h := by
  have hh := List.find?_some hx
  exact ⟨List.mem_of_find?_eq_some hx, of_decide_eq_true hh⟩

/-- Retiring or ending what the superseded cookie names. -/
theorem revokeSuperseded_mem {sup used : RefreshToken} {now : Time} {st : Stmt}
    (h : st ∈ revokeSuperseded sup used now) :
    (st = .revoke ⟨.token sup.tokenHash, now, .superseded⟩ ∧ sup.chainId = used.chainId) ∨
      (st = .revoke ⟨.chain sup.chainId, now, .superseded⟩ ∧ sup.chainId ≠ used.chainId) := by
  rw [revokeSuperseded] at h
  split_ifs at h with h1 h2 h3
  · exact absurd h List.not_mem_nil
  · exact .inl ⟨List.mem_singleton.mp h, h2⟩
  · exact absurd h List.not_mem_nil
  · exact .inr ⟨List.mem_singleton.mp h, h2⟩

/-- **What a refresh decides**: a theft ends all sessions of the owner; a rotation retires the
token if it is unrevoked, stores its successor and ends what the cookie names. -/
theorem refresh_script {locked : TokenHash → Option RefreshToken} {hash : TokenHash}
    {superseded : Option TokenHash} {now : Time} {l : List Stmt}
    (h : RefreshSession.script cfg locked hash superseded now f = some l) :
    ∃ stored, locked hash = some stored ∧
      (l = revokeAllForUser stored.userId now ∨
        stored.isOpen = true ∧ ∃ hd tl : List Stmt,
          l = hd ++ .add (issueTokenPair cfg stored.userId stored.chainId now f) :: tl ∧
          (∀ st ∈ hd, st = .revoke ⟨.token hash, now, .rotated⟩) ∧
          (tl = [] ∨ ∃ h' sup, superseded = some h' ∧ locked h' = some sup ∧
            tl = revokeSuperseded sup stored now)) := by
  rw [RefreshSession.script] at h
  split at h
  · exact absurd h (by simp)
  · rename_i stored hstored
    refine ⟨stored, hstored, ?_⟩
    split_ifs at h with h1 h2 h3
    · exact .inl (Option.some.inj h).symm
    · refine .inr ⟨by simp [RefreshToken.isOpen, h3], _, _, (Option.some.inj h).symm,
        fun st hst => List.mem_singleton.mp hst, ?_⟩
      cases hs : superseded.bind locked with
      | none => exact .inl rfl
      | some sup =>
        obtain ⟨h', hh, hl⟩ := Option.bind_eq_some_iff.mp hs
        exact .inr ⟨h', sup, hh, hl, rfl⟩
    · refine .inr ⟨?_, _, _, (Option.some.inj h).symm, fun st hst => absurd hst List.not_mem_nil, ?_⟩
      · rw [reused] at h2
        cases ha : stored.revokedAt with
        | none => exact absurd ha h3
        | some a =>
          simp only [ha, Bool.not_eq_true, Bool.not_eq_false', Bool.and_eq_true,
            decide_eq_true_eq] at h2
          simp [RefreshToken.isOpen, h2.1]
      cases hs : superseded.bind locked with
      | none => exact .inl rfl
      | some sup =>
        obtain ⟨h', hh, hl⟩ := Option.bind_eq_some_iff.mp hs
        exact .inr ⟨h', sup, hh, hl, rfl⟩

theorem pairwise_ends {a : Stmt} {hd tl : List Stmt} (hhd : ∀ st ∈ hd, ¬st.Ends) (ha : ¬a.Ends)
    (htl : tl.length ≤ 1) : (hd ++ a :: tl).Pairwise fun b c => b.Ends → c.Ends := by
  refine List.pairwise_append.mpr ⟨?_, List.pairwise_cons.mpr ⟨fun c _ h => absurd h ha, ?_⟩,
    fun b hb c _ h => absurd h (hhd b hb)⟩
  · exact List.pairwise_of_forall_mem_list fun b hb c _ h => absurd h (hhd b hb)
  · rcases tl with - | ⟨b, - | ⟨c, tl⟩⟩
    · exact List.Pairwise.nil
    · exact List.pairwise_singleton _ _
    · simp at htl

theorem length_revokeSuperseded {sup used : RefreshToken} {now : Time} :
    (revokeSuperseded sup used now).length ≤ 1 := by
  rw [revokeSuperseded]
  split_ifs <;> simp

/-- What is true of the presented tokens, as locked. -/
structure LockedOk (s : Db) (H : UserId → Prop) (r : Presented) : Prop where
  out : ∀ h ∈ r.hashes, s.secrets h = .out
  owned : ∀ x ∈ s.tokens, x.tokenHash ∈ r.hashes → H x.userId

theorem scopeOk_token (hl : LockedOk s H r) (hf : s.secrets f.hash = .unknown) {h : TokenHash}
    (hh : h ∈ r.hashes) : ScopeOk (s.drew t f none) H (.token h) :=
  ⟨drew_out hf (hl.out h hh), fun x hx hxh => hl.owned x hx (hxh ▸ hh)⟩

theorem scopeOk_chain (hi : Inv s) (hl : LockedOk s H r) {h : TokenHash} (hh : h ∈ r.hashes)
    (hx : s.lookup h = some x) : ScopeOk (s.drew t f none) H (.chain x.chainId) := by
  obtain ⟨hmem, hxh⟩ := lookup_mem hx
  obtain ⟨hc, ho⟩ := (hi.row x hmem).1
  exact ⟨x.userId, hc, ho, hl.owned x hmem (hxh ▸ hh)⟩

theorem runOk_refresh (hi : Inv s) {hash : TokenHash} {superseded : Option TokenHash} {now : Time}
    {l : List Stmt} (hl : LockedOk s H (.refresh hash superseded now))
    (hf : s.secrets f.hash = .unknown)
    (h : RefreshSession.script cfg s.lookup hash superseded now f = some l) :
    RunOk (s.drew t f none) t H l [] := by
  obtain ⟨stored, hstored, rfl | ⟨-, hd, tl, rfl, hhd, htl⟩⟩ := refresh_script h
  · obtain ⟨hmem, hh⟩ := lookup_mem hstored
    have hH : H stored.userId := hl.owned stored hmem (hh ▸ List.mem_cons_self)
    refine runOk_begin (fun st hst => ?_) (by simp [revokeAllForUser]) (List.pairwise_singleton _ _)
    obtain rfl := List.mem_singleton.mp hst
    exact ⟨hH, fun _ => by simp⟩
  · obtain ⟨hmem, hh⟩ := lookup_mem hstored
    have hadd : ∀ st ∈ hd ++ Stmt.add (issueTokenPair cfg stored.userId stored.chainId now f) :: tl,
        ∀ x, st = .add x → x = issueTokenPair cfg stored.userId stored.chainId now f := by
      rintro st hst x rfl
      rcases List.mem_append.mp hst with hst | hst
      · exact absurd (hhd _ hst) (by simp)
      · rcases List.mem_cons.mp hst with hst | hst
        · exact Stmt.add.inj hst
        · rcases htl with rfl | ⟨h', sup, -, -, rfl⟩
          · exact absurd hst List.not_mem_nil
          · rcases revokeSuperseded_mem hst with ⟨hst, -⟩ | ⟨hst, -⟩ <;> exact absurd hst (by simp)
    refine runOk_begin (fun st hst => ?_)
      (fun x y hx hy => (hadd _ hx x rfl).trans (hadd _ hy y rfl).symm) (pairwise_ends ?_ id ?_)
    · rcases List.mem_append.mp hst with hst | hst
      · rw [hhd st hst]
        exact ⟨scopeOk_token hl hf List.mem_cons_self, fun he => absurd he (by simp [Revoke.ends])⟩
      rcases List.mem_cons.mp hst with rfl | hst
      · obtain ⟨hc, ho⟩ := (hi.row stored hmem).1
        refine ⟨hl.owned stored hmem (hh ▸ List.mem_cons_self), ⟨hc, ho⟩, ?_⟩
        simp [Db.drew, Db.draw, issueTokenPair]
      · rcases htl with rfl | ⟨h', sup, hs, hlk, rfl⟩
        · exact absurd hst List.not_mem_nil
        have hmem' : h' ∈ (Presented.refresh hash superseded now).hashes := by
          simp [Presented.hashes, hs]
        rcases revokeSuperseded_mem hst with ⟨rfl, -⟩ | ⟨rfl, -⟩
        · rw [(lookup_mem hlk).2]
          exact ⟨scopeOk_token hl hf hmem', fun he => absurd he (by simp [Revoke.ends])⟩
        · exact ⟨scopeOk_chain hi hl hmem' hlk, fun _ => by simp⟩
    · intro st hst he
      rw [hhd st hst] at he
      exact absurd he (by simp [Stmt.Ends, Revoke.ends])
    · rcases htl with rfl | ⟨h', sup, -, -, rfl⟩
      · exact Nat.zero_le 1
      · exact length_revokeSuperseded

/-- A script that only ends chains. -/
theorem runOk_ending (hst : ∀ st ∈ stmts, ∃ k now reason, reason ≠ .rotated ∧
    st = .revoke ⟨.chain k, now, reason⟩ ∧ ScopeOk s H (.chain k)) : RunOk s t H stmts [] := by
  have hends : ∀ st ∈ stmts, st.Ends := by
    intro st hmem
    obtain ⟨k, now, reason, -, rfl, -⟩ := hst st hmem
    rfl
  refine runOk_begin (fun st hmem => ?_) (fun x y hx => absurd (hends _ hx) id)
    (List.pairwise_of_forall_mem_list fun _ _ b hb _ => hends b hb)
  obtain ⟨k, now, reason, hr, rfl, hsc⟩ := hst st hmem
  exact ⟨hsc, fun _ => hr⟩

theorem runOk_logout (hi : Inv s) {hash : TokenHash} {superseded : Option TokenHash} {now : Time}
    (hl : LockedOk s H (.logout hash superseded now)) :
    RunOk (s.drew t f none) t H (Logout.script s.lookup hash superseded now) [] := by
  refine runOk_ending fun st hst => ?_
  rcases List.mem_append.mp hst with hst | hst <;> obtain ⟨x, hx, rfl⟩ := List.mem_map.mp hst
  · exact ⟨x.chainId, now, .logout, by simp, rfl,
      scopeOk_chain hi hl List.mem_cons_self (Option.mem_toList.mp hx)⟩
  · obtain ⟨h', hh, hlk⟩ := Option.bind_eq_some_iff.mp (Option.mem_toList.mp hx)
    obtain ⟨hs, -⟩ := Option.filter_eq_some_iff.mp hh
    exact ⟨x.chainId, now, .superseded, by simp, rfl,
      scopeOk_chain hi hl (by simp [Presented.hashes, hs]) hlk⟩

theorem chainOf_spec {id : TokenId} {k : ChainId} (h : s.chainOf u id = some k) :
    ∃ x ∈ s.tokens, x.userId = u ∧ x.chainId = k := by
  obtain ⟨x, hx, rfl⟩ := Option.map_eq_some_iff.mp h
  have hsel := List.find?_some hx
  simp only [Bool.and_eq_true, decide_eq_true_eq] at hsel
  exact ⟨x, List.mem_of_find?_eq_some hx, hsel.1.2, rfl⟩

theorem steps_proceed (hi : Inv s) {next : Next}
    (hf : s.secrets f.hash = .unknown ∧ s.origin f.chain = none)
    (hok : NextOk s t (Has cfg s t) ws next) : Steps cfg s t (proceed cfg t s f ws next) := by
  cases next with
  | reread r =>
    obtain ⟨rfl, hl⟩ := hok
    rw [proceed]
    cases hr : r.script cfg s.lookup f with
    | none => exact steps_rollback hi
    | some l =>
      refine steps_drew (o := none) hi hf ?_
      cases r with
      | refresh hash superseded now => exact runOk_refresh hi ⟨hl.1, hl.2⟩ hf.1 hr
      | logout hash superseded now =>
        obtain rfl := Option.some.inj hr
        exact runOk_logout hi ⟨hl.1, hl.2⟩
  | recheck v checked now =>
    obtain ⟨rfl, hv⟩ := hok
    rw [proceed]
    cases s.users v with
    | none => exact steps_rollback hi
    | some x =>
      show Steps cfg s t (if _ then _ else _)
      split_ifs
      · refine steps_drew (o := some (v, x.passwordHash)) hi hf (runOk_begin (fun st hst => ?_) ?_
          (List.pairwise_singleton _ _))
        · obtain rfl := List.mem_singleton.mp hst
          refine ⟨hv, ⟨x.passwordHash, ?_⟩, ?_⟩ <;> simp [Db.drew, Db.draw, issueTokenPair]
        · intro a b ha hb
          exact (Stmt.add.inj (List.mem_singleton.mp ha)).trans
            (Stmt.add.inj (List.mem_singleton.mp hb)).symm
      · exact steps_rollback hi
  | findChain v id now =>
    obtain ⟨rfl, hv⟩ := hok
    refine steps_stay hi (runOk_ending fun st hst => ?_)
    obtain ⟨k, hk, rfl⟩ := List.mem_map.mp hst
    obtain ⟨x, hx, rfl, rfl⟩ := chainOf_spec (Option.mem_toList.mp hk)
    obtain ⟨hc, ho⟩ := (hi.row x hx).1
    exact ⟨x.chainId, now, .user, by simp, rfl, x.userId, hc, ho, hv⟩
  | statements l => exact steps_stay hi hok.1

/-! ## Every step -/

theorem mem_lockOrder {us : List UserId} {v : UserId} (h : v ∈ us) :
    cfg.lockKey v ∈ lockOrder cfg us := by
  simp only [lockOrder, List.mem_insertionSort, List.mem_dedup, List.mem_map]
  exact ⟨v, h, rfl⟩

theorem mem_ownersOf {hs : List TokenHash} (hx : x ∈ s.tokens) (hh : x.tokenHash ∈ hs) :
    x.userId ∈ s.ownersOf hs :=
  List.mem_map.mpr ⟨x, List.mem_filter.mpr ⟨hx, decide_eq_true hh⟩, rfl⟩

/-- With no owner found there is nothing to do. -/
theorem script_nothing {r : Presented} {l : List Stmt}
    (h : r.script cfg (fun _ => none) f = some l) : l = [] := by
  cases r with
  | refresh hash superseded now => exact absurd h (by simp [Presented.script, RefreshSession.script])
  | logout hash superseded now =>
    obtain rfl := Option.some.inj h
    simp [Logout.script]

theorem steps_advance (hi : Inv s) (hok : Ok cfg s t p) (hpre : canStep t s f p) :
    Steps cfg s t (advance cfg t s f p) := by
  cases p with
  | idle => exact absurd hpre id
  | owners r =>
    rw [advance]
    cases ho : s.ownersOf r.hashes with
    | nil =>
      dsimp only
      cases hr : r.script cfg (fun _ => none) f with
      | none => exact steps_rollback hi
      | some l =>
        rw [script_nothing hr]
        exact steps_stay hi (runOk_begin (by simp) (by simp) List.Pairwise.nil)
    | cons v us =>
      refine steps_stay hi ⟨rfl, hok, fun x hx hh => .inl (mem_lockOrder ?_)⟩
      rw [← ho]
      exact mem_ownersOf hx hh
  | changing v expected now =>
    rw [advance]
    cases s.users v with
    | none => exact steps_rollback hi
    | some x =>
      show Steps cfg s t (if _ then _ else _)
      split_ifs
      · refine steps_locked hi hpre (Nat.le_succ _) (nextOk_swept [] rfl (by simp) ?_
          (by simp) ?_)
        · intro w hw
          obtain rfl := List.mem_singleton.mp hw
          exact ⟨trivial, Locks.take_self, Nat.lt_succ_self _⟩
        · rintro z (⟨n, hn⟩ | hn)
          · exact (Write.passwordChanged.inj (List.mem_singleton.mp hn)).1
          · exact absurd (List.mem_singleton.mp hn) (by simp)
      · exact steps_rollback hi
  | activating v active now =>
    rw [advance]
    cases s.users v with
    | none => exact steps_rollback hi
    | some x =>
      show Steps cfg s t (if active = true then _ else _)
      have hwok : ∀ b, WriteOk (s.locked t (.user v) s.nextHash) t
          (Has cfg (s.locked t (.user v) s.nextHash) t) (.activeSet v b) := fun b => Locks.take_self
      split_ifs
      · refine steps_locked hi hpre le_rfl ⟨by simp, fun w hw => ?_, by simp [Adds], by simp,
          List.Pairwise.nil, by simp, by simp, ?_⟩
        · rw [List.mem_singleton.mp hw]
          exact hwok true
        · rintro z (⟨n, hn⟩ | hn) <;> exact absurd (List.mem_singleton.mp hn) (by simp)
      · refine steps_locked hi hpre le_rfl (nextOk_swept [] rfl (by simp) ?_ (by simp) ?_)
        · intro w hw
          obtain rfl := List.mem_singleton.mp hw
          exact ⟨trivial, Locks.take_self⟩
        · rintro z (⟨n, hn⟩ | hn)
          · exact absurd (List.mem_singleton.mp hn) (by simp)
          · exact (Write.activeSet.inj (List.mem_singleton.mp hn)).1
  | removing v now =>
    rw [advance]
    cases s.users v with
    | none => exact steps_rollback hi
    | some x =>
      exact steps_locked hi hpre le_rfl (nextOk_swept [.delete v] rfl (by simp) (by simp)
        (by simp) (by simp [Invalidates]))
  | locking keys next ws =>
    cases keys with
    | nil =>
      rw [advance]
      refine steps_proceed hi hpre ?_
      rw [← willHave_nil]
      exact hok
    | cons k keys =>
      rw [advance]
      refine steps_locked hi hpre le_rfl ?_
      have hw : ∀ v, WillHave cfg s t (k :: keys) v →
          WillHave cfg (s.locked t (.sessions k) s.nextHash) t keys v := by
        rintro v (hv | hv)
        · rcases List.mem_cons.mp hv with hv | hv
          · refine .inr ?_
            show (s.locks.take t (.sessions k)) (.sessions (cfg.lockKey v)) = some t
            rw [hv, Locks.take_self]
          · exact .inl hv
        · exact .inr (Locks.take_mono hv)
      exact NextOk.locked hw hok
  | run stmts ws =>
    cases stmts with
    | nil => exact steps_commit hi hok
    | cons st stmts => exact steps_execute hi hok

/-- The first step of a request keeps everything, whatever `s` knows of its hashes. -/
theorem steps_begin (hi : Inv s) {r : Request} {q : Pos}
    (hpre : ∀ h ∈ r.hashes, (s.secrets h).presentable = true) (hq : begun cfg s r = some q) :
    Steps cfg s t ({ s with secrets := fun h => if h ∈ r.hashes then .out else s.secrets h }, q) := by
  have hout : ∀ h, s.secrets h = .out → (if h ∈ r.hashes then .out else s.secrets h) = Secret.out := by
    intro h ho
    rw [ho, ite_self]
  refine ⟨⟨fun x hx => ⟨(hi.row x hx).1, hout _ (hi.row x hx).2⟩, hi.unique, hi.numbered⟩, ?_,
    spares_same rfl (fun _ _ _ h => h) (fun _ _ h => h) (fun u _ h hd => ?_) hout le_rfl⟩
  · cases r with
    | present r =>
      obtain rfl := Option.some.inj hq
      intro h hh
      show (if h ∈ r.hashes then Secret.out else s.secrets h) = .out
      rw [if_pos hh]
    | login v now =>
      obtain ⟨x, -, hx⟩ := Option.bind_eq_some_iff.mp hq
      split_ifs at hx
      obtain rfl := Option.some.inj hx
      exact ⟨rfl, .inl (by simp)⟩
    | revokeSession v id now =>
      obtain rfl := Option.some.inj hq
      exact ⟨rfl, .inl (by simp)⟩
    | revokeOtherSessions v keepHash keepId now =>
      obtain rfl := Option.some.inj hq
      refine ⟨runOk_begin (fun st hst => ?_) (by simp) (List.pairwise_singleton _ _),
        fun st hst => ?_, by simp⟩ <;> obtain rfl := List.mem_singleton.mp hst
      · exact ⟨Or.inl (by simp), fun _ => by simp⟩
      · rfl
    | changePassword v now =>
      obtain ⟨x, -, rfl⟩ := Option.map_eq_some_iff.mp hq
      trivial
    | setUserActive v b now | deleteAccount v now =>
      obtain rfl := Option.some.inj hq
      trivial
  · show (if h ∈ r.hashes then Secret.out else s.secrets h) = _
    have hn : h ∉ r.hashes := fun hh => by
      have := hpre h hh
      rw [hd] at this
      exact absurd this (by simp [Secret.presentable])
    rw [if_neg hn, hd]

theorem steps (hi : Inv s) (hok : Ok cfg s t p) {a : Action} (hpre : threadPre cfg t s p a) :
    Steps cfg s t (threadPost cfg t s p a) := by
  cases a with
  | begin r =>
    obtain ⟨-, hb, hh⟩ := hpre
    obtain ⟨q, hq⟩ := Option.ne_none_iff_exists'.mp hb
    have hpost : threadPost cfg t s p (.begin r) =
        ({ s with secrets := fun h => if h ∈ r.hashes then .out else s.secrets h }, q) := by
      simp [threadPost, hq]
    rw [hpost]
    exact steps_begin hi hh hq
  | step f => exact steps_advance hi hok hpre
  | abort => exact steps_rollback hi

/-- What holds in every reachable state. -/
abbrev Holds (cfg : Settings) : Conf → Prop := Threads.Holds Inv (Ok cfg)

theorem holds_start (a : Accounts) : Holds cfg (start a) :=
  ⟨⟨fun _ h => absurd h List.not_mem_nil, fun _ h => absurd h List.not_mem_nil, a.numbered⟩,
    fun _ => trivial⟩

/-- **The session locks keep the transactions of one user's sessions apart.** -/
theorem holds_reach {P : Conf → ℕ × Action → Prop} {c d : Conf}
    (h : (threads cfg).machine.Reach P c d) (hc : Holds cfg c) : Holds cfg d := by
  refine Threads.invariant h hc fun c t a hc hpre _ => ?_
  have hs : Steps cfg c.shared t (threadPost cfg t c.shared (c.th t) a) :=
    steps hc.shared (hc.thread t) hpre
  exact ⟨hs.inv, hs.own, fun u hu hok => hs.others.ok hs.inv hu hok⟩

end McServerDashboard.Identity
