import McServerDashboard.Lib.Transactions

/-!
# What transactions end with

What a program may have written, and may insert, at its commits: a fact about its text, whatever the
databases are that it finds.

* `Tx.Ends`: what every commit of a program meets.
* **`Tx.ends`**: every commit in the interleavings is the end of the request that its connection runs.
-/

namespace Lib

variable {κ : Type} {δ : κ → Type} {τ : Type}

/-- Every commit that a program may come to meets `Q`, which is told what was written by then and what is
inserted, where every database that the program finds meets `D`. -/
def Tx.Ends (D : Db δ → Prop) (Q : List (Sigma δ) → τ → List (Sigma δ) → Prop) :
    Tx δ τ → List (Sigma δ) → Prop
  | .select next, w => ∀ d, D d → (next d).Ends D Q w
  | .lock _ _ _ next, w => ∀ got, (next got).Ends D Q w
  | .update k _ set next, w => (next false).Ends D Q w ∧ ∀ v, (next true).Ends D Q (⟨k, set v⟩ :: w)
  | .delete _ next, w => next.Ends D Q w
  | .commit tag ins, w => Q w tag ins
  | .abort, _ => True

/-- The rest of a transaction. -/
def Stage.Ends (D : Db δ → Prop) (Q : List (Sigma δ) → τ → List (Sigma δ) → Prop) :
    Stage δ τ → List (Sigma δ) → Prop
  | .idle, _ => True
  | .run p, w => p.Ends D Q w
  | .locking _ _ _ _ next, w => ∀ got, (next got).Ends D Q w
  | .deleting _ next, w => next.Ends D Q w

variable [DecidableEq κ] {S : Schema δ} {D : Db δ → Prop} {Q : List (Sigma δ) → τ → List (Sigma δ) → Prop}

/-- A step goes on in the text of the program. -/
theorem Stage.Ends.advance {s : Store δ} {t : ℕ} {l : Log δ} {x : Stage δ τ} (h : x.Ends D Q l.sets)
    (hd : D s.db) : (s.advance S t l x).2.stage.Ends D Q (s.advance S t l x).2.log.sets := by
  cases x with
  | idle => trivial
  | run p =>
    cases p with
    | select next => exact h s.db hd
    | lock a rows cond next => exact h
    | update k a set next =>
      simp only [Store.advance]
      split
      · next v hv => exact h.2 v
      · exact h.1
    | delete rows next => exact h
    | commit tag ins =>
      simp only [Store.advance]
      split <;> trivial
    | abort => trivial
  | locking a todo cond got next =>
    cases todo with
    | nil => exact h got
    | cons k todo =>
      simp only [Store.advance]
      split
      · split <;> exact h
      · exact h
  | deleting todo next =>
    cases todo with
    | nil => exact h
    | cons e todo =>
      simp only [Store.advance]
      split
      · split <;> exact h
      · exact h

/-- Insertions are not taken back. -/
theorem advance_inserted {s : Store δ} {t : ℕ} {l : Log δ} {x : Stage δ τ} :
    s.db.inserted.length ≤ (s.advance S t l x).1.db.inserted.length := by
  rcases advance_db (S := S) (s := s) (t := t) (l := l) (x := x) with hdb | ⟨tag, ins, -, -, hdb⟩
  · rw [hdb]
  · rw [hdb, Db.apply, List.length_append]
    exact Nat.le_add_right _ _

section Interleavings

variable {ρ : Type} {prog : ρ → Tx δ τ} {c c' : Threads.Config (Store δ) (Session δ τ ρ)}
  {P : Threads.Config (Store δ) (Session δ τ ρ) → ℕ × TxAction ρ → Prop}
  {E : ρ → ℕ → List (Sigma δ) → τ → List (Sigma δ) → Prop}

/-- A connection runs the rest of the program of its request. -/
structure Session.Runs (E : ρ → ℕ → List (Sigma δ) → τ → List (Sigma δ) → Prop) (s : Store δ)
    (p : Session δ τ ρ) : Prop where
  began : p.began ≤ s.db.inserted.length
  busy : p.stage.isIdle = false → ∃ r, p.request = some r
  ends : ∀ r, p.request = some r →
    p.stage.Ends (fun d => p.began ≤ d.inserted.length) (E r p.began) p.log.sets

omit [DecidableEq κ] in
theorem Session.Runs.mono {s s' : Store δ} {p : Session δ τ ρ} (h : p.Runs E s)
    (hs : s.db.inserted.length ≤ s'.db.inserted.length) : p.Runs E s' :=
  ⟨h.began.trans hs, h.busy, h.ends⟩

omit [DecidableEq κ] in
theorem Session.runs_idle {s : Store δ} {l : Log δ} {r : Option ρ} {n : ℕ} (h : n ≤ s.db.inserted.length) :
    Session.Runs E s ⟨⟨l, .idle⟩, r, n⟩ :=
  ⟨h, fun hb => (by cases hb), fun _ _ => trivial⟩

/-- **Every commit is the end of the request that its connection runs.** -/
theorem Tx.ends (hprog : ∀ r n, (prog r).Ends (fun d => n ≤ d.inserted.length) (E r n) [])
    (h : (Tx.threads S prog).machine.Reach P c c') (h0 : ∀ t, (c.th t).Runs E c.shared) (t : ℕ) :
    (c'.th t).Runs E c'.shared := by
  have hall : Threads.Holds (fun _ => True) (fun s _ p => Session.Runs E s p) c' := by
    refine Threads.invariant h ⟨trivial, h0⟩ fun c t a hc hp _ => ⟨trivial, ?_⟩
    have hown := hc.thread t
    cases a with
    | begin r =>
      refine ⟨⟨le_rfl, fun _ => ⟨r, rfl⟩, fun r' hr => ?_⟩, fun u _ hu => hu⟩
      obtain rfl := Option.some.inj hr
      exact hprog r _
    | step =>
      have hle := advance_inserted (S := S) (s := c.shared) (t := t) (l := (c.th t).log) (x := (c.th t).stage)
      refine ⟨⟨hown.began.trans hle, fun _ => hown.busy ?_, fun r hr => (hown.ends r hr).advance hown.began⟩,
        fun u _ hu => hu.mono hle⟩
      -- An idle connection has no step to take.
      have hready : c.shared.Ready S t (c.th t).stage := hp
      cases hx : (c.th t).stage with
      | idle =>
        rw [hx] at hready
        exact hready.elim
      | _ => rfl
    | abort => exact ⟨⟨hown.began, fun hb => (by cases hb), fun _ _ => trivial⟩, fun u _ hu => hu.mono le_rfl⟩
  exact hall.thread t

omit [DecidableEq κ] in
/-- The request that commits, and how. -/
theorem Session.Runs.committing {s : Store δ} {p : Session δ τ ρ} {tag : τ} {ins : List (Sigma δ)}
    (h : p.Runs E s) (hx : p.stage = .run (.commit tag ins)) :
    ∃ r, p.request = some r ∧ E r p.began p.log.sets tag ins := by
  obtain ⟨r, hr⟩ := h.busy (by rw [hx]; rfl)
  have he := h.ends r hr
  rw [hx] at he
  exact ⟨r, hr, he⟩

end Interleavings

end Lib
