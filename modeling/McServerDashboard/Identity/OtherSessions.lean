import McServerDashboard.Identity.Requests

/-!
# Ending the other sessions

`RevokeOtherSessions` spares the row that its caller named, and no other row of that row's chain.

* `Refreshes`: what a refresh with a token does.
* **`other_sessions_end`**: the named row stays as it is, the session goes on in it exactly when it is
  unrevoked, and every other chain of the caller is over for good.
-/

namespace McServerDashboard.Identity

open Lib

variable {cfg : Settings} {s : Db} {t u : ℕ} {f : Fresh} {ws : List Write} {k : ChainId}
  {x : RefreshToken} {c₀ c : Conf} {now : Time} {keepHash : Option TokenHash} {keepId : Option TokenId}

/-- The caller named the row as its current session. -/
def Names (keepHash : Option TokenHash) (keepId : Option TokenId) (x : RefreshToken) : Prop :=
  keepHash = some x.tokenHash ∨ keepId = some x.id

/-- The chain has a live token. -/
def Live (s : Db) (k : ChainId) : Prop := ∃ x ∈ s.tokens, x.chainId = k ∧ x.revokedAt = none

variable (cfg) in
/-- Until the token expires, a refresh with it issues a pair in its chain. -/
def Refreshes (s : Db) (x : RefreshToken) : Prop :=
  ∀ now f, now < x.expiresAt →
    ∃ l, RefreshSession.script cfg s.lookup x.tokenHash none now f = some l ∧
      .add (issueTokenPair cfg x.userId x.chainId now f) ∈ l

/-! ## What a refresh does -/

theorem Stored.refreshes (hs : Stored s) (hx : x ∈ s.tokens) (hr : x.revokedAt = none) :
    Refreshes cfg s x := by
  intro now f hnow
  have hrr := hs.unrevoked x hx hr
  simp [RefreshSession.script, hs.lookup hx, reused, hr, hrr, Int.not_le.mpr hnow]

/-! ## The call -/

theorem names_iff : (Scope.user u keepHash keepId).covers x = false ↔
    x.userId = u → Names keepHash keepId x := by
  simp only [Scope.covers, Names, Bool.and_eq_false_iff, decide_eq_false_iff_not]
  tauto

/-- A row that the statement does not cover stays as it is. -/
theorem onToken_spared {r : Revoke} {rows : List TokenHash} (h : r.scope.covers x = false) :
    (Write.revoked r rows).onToken x = some x := by
  have hsel : ¬(x.tokenHash ∈ rows ∧ r.selects x = true) := by
    rintro ⟨-, hsel⟩
    simp [Revoke.selects, h] at hsel
  rw [Write.onToken, if_neg hsel]

/-- **`RevokeOtherSessions` spares the row it names, and no other.** When a call commits:

* a row that the caller named is as before, and if it is unrevoked a refresh with it goes through;
* a chain of the caller has a live token left exactly when a row named in it is unrevoked: a refresh
  that rotated the named token before has moved the session to a row the call revokes;
* a chain of the caller in which no row is named is over in every later state: its tokens are revoked,
  and no refresh of any of them, in the grace window or not, issues a pair. -/
theorem other_sessions_end (a : Accounts)
    (hc : (threads cfg).machine.Reach Machine.Any (start a) c₀)
    (hr : Serves cfg t (.revokeOtherSessions u keepHash keepId now) c₀ c) (ht : c.th t = .run [] ws) :
    (∃ rows, ws = [.revoked ⟨.user u keepHash keepId, now, .user⟩ rows]) ∧
    (∀ x ∈ c.shared.tokens, x.userId = u → Names keepHash keepId x →
      x ∈ (committed cfg c t f).shared.tokens ∧
        (x.revokedAt = none → Refreshes cfg (committed cfg c t f).shared x)) ∧
    (∀ k hash, c.shared.origin k = some (u, hash) →
      (Live (committed cfg c t f).shared k ↔
        ∃ x ∈ c.shared.tokens, x.chainId = k ∧ Names keepHash keepId x ∧ x.revokedAt = none)) ∧
    (∀ k hash, c.shared.origin k = some (u, hash) →
      (∀ x ∈ c.shared.tokens, x.chainId = k → ¬Names keepHash keepId x) →
      ∀ d, (threads cfg).machine.Reach Machine.Any (committed cfg c t f) d →
        Over k d ∧ ∀ x ∈ d.shared.tokens, x.chainId = k → x.revokedAt ≠ none ∧ Refused cfg d.shared x) := by
  have h := follows_reach hc hr
  obtain ⟨hholds, hcar⟩ := carries_reach hc hr ht
  obtain ⟨⟨hok, hp⟩, -⟩ := h.thread t
  rw [ht] at hok hp
  have hown : RunOk c.shared t (Has cfg c.shared t) [] ws := hok
  -- The call executes this one statement.
  obtain ⟨rows, hw⟩ := (hcar.issues _ rfl).resolve_left List.not_mem_nil
  obtain ⟨-, rfl⟩ := (Plain.alone hp _ rfl).2 rows hw
  have hstored : Stored (committed cfg c t f).shared := by
    rw [committed_shared ht]
    exact h.shared.commit hown hp
  have hmem : ∀ y, y ∈ (committed cfg c t f).shared.tokens ↔ ∃ x ∈ c.shared.tokens,
      (Write.revoked ⟨.user u keepHash keepId, now, .user⟩ rows).onToken x = some y := by
    intro y
    rw [committed_shared ht]
    show y ∈ c.shared.tokens.filterMap _ ++ [] ↔ _
    rw [List.append_nil, List.mem_filterMap]
  have hclosed : ∀ y ∈ (committed cfg c t f).shared.tokens,
      (Scope.user u keepHash keepId).covers y = true → y.Closed := by
    rw [committed_shared ht]
    exact hown.closed _ rows hw rfl
  have hkept : ∀ x ∈ c.shared.tokens, (Scope.user u keepHash keepId).covers x = false →
      x ∈ (committed cfg c t f).shared.tokens :=
    fun x hx hcov => (hmem x).mpr ⟨x, hx, onToken_spared hcov⟩
  refine ⟨⟨rows, rfl⟩, fun x hx hu hn => ?_, fun k hash ho => ⟨?_, ?_⟩, fun k hash ho hn d hd => ?_⟩
  · have hx' := hkept x hx (names_iff.mpr fun _ => hn)
    exact ⟨hx', fun hr => hstored.refreshes hx' hr⟩
  · rintro ⟨y, hy, hyk, hyr⟩
    obtain ⟨x, hx, hxy⟩ := (hmem y).mp hy
    have hs := sameRow_onToken hxy
    have hcov : (Scope.user u keepHash keepId).covers x = false := by
      rw [← hs.covers]
      by_contra hcov
      exact (hclosed y hy (by simpa using hcov)).1 hyr
    rw [onToken_spared hcov, Option.some.injEq] at hxy
    subst hxy
    exact ⟨x, hx, hyk, names_iff.mp hcov (h.shared.inv.owner hx (hyk ▸ ho)), hyr⟩
  · rintro ⟨x, hx, hxk, hn, hr⟩
    exact ⟨x, hkept x hx (names_iff.mpr fun _ => hn), hxk, hr⟩
  · have hends : (Write.revoked ⟨.user u keepHash keepId, now, .user⟩ rows).EndsChain
        (committed cfg c t f).shared k := by
      refine ⟨⟨hash, by rw [committed_shared ht]; exact ho⟩, fun y hy hyk => ?_⟩
      obtain ⟨x, hx, hxy⟩ := (hmem y).mp hy
      have hs := sameRow_onToken hxy
      have hxk : x.chainId = k := hs.2.2.1.symm.trans hyk
      rw [hs.covers]
      by_contra hcov
      exact hn x hx hxk (names_iff.mp (by simpa using hcov) (h.shared.inv.owner hx (hxk ▸ ho)))
    have hover := over_of_ends hholds ht hw hends hd
    exact ⟨hover, fun x hx hk => ⟨(hover.1 x hx hk).1,
      refused_of_over (holds_committed hholds ht hd).shared hover hx hk⟩⟩

/-- Two logins: they commit chains `30` and `31`. -/
def twoLogins : List (ℕ × Action) :=
  runs 0 4 (.login 0 0) ⟨10, 20, 30⟩ ++ runs 1 4 (.login 0 0) ⟨11, 21, 31⟩

/-- **The named session goes on, and the other login's is over for good.** -/
theorem other_sessions_end_logins : ∃ c : Conf,
    Live (committed daySettings c 2 ⟨12, 22, 32⟩).shared 30 ∧
      Over 31 (committed daySettings c 2 ⟨12, 22, 32⟩) := by
  have hrun : execServing daySettings 2 (.revokeOtherSessions 0 (some 10) none 5) twoLogins
      (List.replicate 3 (2, .step ⟨12, 22, 32⟩))
      (fun c => (c.th 2, c.shared.tokens, [30, 31].map c.shared.origin)) (start oneAccount) =
      some (.run [] [.revoked ⟨.user 0 (some 10) none, 5, .user⟩ [11]],
        [⟨20, 0, 30, 10, 0, 86400, none, none⟩, ⟨21, 0, 31, 11, 0, 86400, none, none⟩],
        [some (0, 0), some (0, 0)]) := by decide +kernel
  obtain ⟨c₀, c, hc, hr, hb⟩ := serves_of_exec hrun
  obtain ⟨ht, htok, ho⟩ : _ ∧ _ ∧ _ := by simpa only [Prod.mk.injEq] using hb
  obtain ⟨ho, ho'⟩ : _ ∧ _ := by simpa using ho
  obtain ⟨-, -, hlive, hover⟩ := other_sessions_end (f := ⟨12, 22, 32⟩) oneAccount hc hr ht
  refine ⟨c, (hlive 30 0 ho).mpr ?_, (hover 31 0 ho' ?_ _ .refl).1⟩ <;> rw [htok]
  · exact ⟨_, List.mem_cons_self, rfl, .inl rfl, rfl⟩
  · simp [Names]

/-- A login commits chain `30`, and a refresh that rotates its token `10` commits the successor `11`. -/
def rotatedLogin : List (ℕ × Action) :=
  runs 0 4 (.login 0 0) ⟨10, 20, 30⟩ ++ runs 1 6 (.present (.refresh 10 none 1)) ⟨11, 21, 31⟩

/-- **The session of a rotated token is ended with the others**, though the caller named it. -/
theorem named_session_ends : ∃ c₀ c : Conf,
    (threads daySettings).machine.Reach Machine.Any (start oneAccount) c₀ ∧
    Serves daySettings 2 (.revokeOtherSessions 0 (some 10) none 5) c₀ c ∧ (∃ ws, c.th 2 = .run [] ws) ∧
    (∃ x ∈ c.shared.tokens, x.chainId = 30 ∧ Names (some 10) none x) ∧ Live c.shared 30 ∧
      ¬Live (committed daySettings c 2 ⟨12, 22, 32⟩).shared 30 := by
  have hrun : execServing daySettings 2 (.revokeOtherSessions 0 (some 10) none 5) rotatedLogin
      (List.replicate 3 (2, .step ⟨12, 22, 32⟩)) (fun c => (c.th 2, c.shared.tokens)) (start oneAccount) =
      some (.run [] [.revoked ⟨.user 0 (some 10) none, 5, .user⟩ [11]],
        [⟨20, 0, 30, 10, 0, 86400, some 1, some .rotated⟩,
          ⟨21, 0, 30, 11, 1, 86401, none, none⟩]) := by decide +kernel
  obtain ⟨c₀, c, hc, hr, hb⟩ := serves_of_exec hrun
  obtain ⟨ht, htok⟩ : _ ∧ _ := by simpa only [Prod.mk.injEq] using hb
  refine ⟨c₀, c, hc, hr, ⟨_, ht⟩, ?_, ?_, ?_⟩
  · exact ⟨_, by rw [htok]; exact List.mem_cons_self, rfl, .inl rfl⟩
  · exact ⟨⟨21, 0, 30, 11, 1, 86401, none, none⟩, by rw [htok]; simp, rfl, rfl⟩
  · rw [committed_shared ht]
    rintro ⟨y, hy, -, hr⟩
    change y ∈ view c.shared.tokens _ at hy
    rw [htok] at hy
    have hall : ∀ y ∈ view [⟨20, 0, 30, 10, 0, 86400, some 1, some .rotated⟩,
        ⟨21, 0, 30, 11, 1, 86401, none, none⟩] [.revoked ⟨.user 0 (some 10) none, 5, .user⟩ [11]],
        y.revokedAt ≠ none := by decide
    exact hall y hy hr

end McServerDashboard.Identity
