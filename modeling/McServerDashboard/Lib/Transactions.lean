import Mathlib.Data.List.Sigma
import Mathlib.Data.List.Nodup
import McServerDashboard.Lib.RowLocks
import McServerDashboard.Lib.Threads

/-!
# Transactions under READ COMMITTED

A language of transactions over tables of rows, and its interleavings.

A statement reads what is committed when it starts. One that locks takes its rows one after the other,
waits for each, and looks at the row again, as it is by then. A deletion locks the rows that refer to the
deleted one as well; an insertion waits for the rows that it refers to. What a transaction writes is
committed at once, at its end; none of its statements reads its own writes.

* `Tx`: the statements; `Schema`: the foreign keys, and how strongly a row is locked by who changes it.
* `Store.advance`: the next step of a transaction; `Tx.threads`: the interleavings.
* `Db.apply`: what a commit does.
-/

namespace Lib

variable {κ : Type} {δ : κ → Type} {τ : Type}

/-- The committed rows, and the keys that were ever inserted. -/
structure Db (δ : κ → Type) where
  rows : (k : κ) → Option (δ k)
  keys : List κ
  /-- Ghost: the keys as they were inserted, one after the other. -/
  inserted : List κ

/-- A transaction, with what it ends with. -/
inductive Tx {κ : Type} (δ : κ → Type) (τ : Type)
  | select (next : Db δ → Tx δ τ)
  /-- `SELECT ... FOR`: the rows that are found, and the condition that a locked row must still meet. -/
  | lock (a : Strength) (rows : Db δ → List κ) (cond : Sigma δ → Bool) (next : List (Sigma δ) → Tx δ τ)
  /-- `UPDATE` of a row by its key; whether there was one. -/
  | update (k : κ) (a : Strength) (set : δ k → δ k) (next : Bool → Tx δ τ)
  | delete (rows : Db δ → List κ) (next : Tx δ τ)
  | commit (tag : τ) (ins : List (Sigma δ))
  | abort

/-- The foreign keys of a row, the strength that every `UPDATE` of it takes at least, and whether its key is
never used again. -/
structure Schema (δ : κ → Type) where
  parents : Sigma δ → List κ
  writes : κ → Strength
  unique : κ → Bool
  strong : ∀ k, 2 ≤ (writes k).rank

/-- The rows that a transaction has locked, as it found them, those that nobody else can lock, and what it
has written. -/
structure Log (δ : κ → Type) where
  held : List (Sigma δ)
  firm : List κ
  sets : List (Sigma δ)
  gone : List κ

namespace Log

def empty : Log δ := ⟨[], [], [], []⟩

def hold (l : Log δ) (a : Strength) (es : List (Sigma δ)) : Log δ :=
  { l with held := l.held ++ es, firm := l.firm ++ if a = .update then es.keys else [] }

def set (l : Log δ) (k : κ) (a : Strength) (v w : δ k) : Log δ :=
  { l.hold a [⟨k, v⟩] with sets := ⟨k, w⟩ :: l.sets }

def delete (l : Log δ) (es : List (Sigma δ)) : Log δ :=
  { l.hold .update es with gone := l.gone ++ es.keys }

/-- The rows are as they were found. -/
def Agrees (l : Log δ) (db : Db δ) : Prop := ∀ e ∈ l.held, db.rows e.1 = some e.2

end Log

/-- Where a transaction stands. -/
inductive Stage {κ : Type} (δ : κ → Type) (τ : Type)
  | idle
  | run (p : Tx δ τ)
  | locking (a : Strength) (todo : List κ) (cond : Sigma δ → Bool) (got : List (Sigma δ))
      (next : List (Sigma δ) → Tx δ τ)
  /-- The rows to delete, each with the row that it has to refer to. -/
  | deleting (todo : List (κ × Option κ)) (next : Tx δ τ)

structure Trans {κ : Type} (δ : κ → Type) (τ : Type) where
  log : Log δ
  stage : Stage δ τ

/-- A connection: its transaction, the request that it is for, and (ghost) how many insertions had been
committed when it began. -/
structure Session {κ : Type} (δ : κ → Type) (τ ρ : Type) extends Trans δ τ where
  request : Option ρ
  began : ℕ

structure Store (δ : κ → Type) where
  db : Db δ
  locks : RowLocks κ

inductive TxAction (ρ : Type)
  | begin (r : ρ)
  | step
  /-- An error, or a lost connection. -/
  | abort

/-- The rows that meet a condition. -/
def Db.filter (db : Db δ) (cond : Sigma δ → Bool) : List κ :=
  db.keys.filter fun k =>
    match db.rows k with
    | some v => cond ⟨k, v⟩
    | none => false

/-- What was inserted after the first `n` insertions. -/
def Db.since (db : Db δ) (n : ℕ) : List κ := db.inserted.drop n

/-- `SELECT ... WHERE ... FOR`. -/
def Tx.lockWhere (a : Strength) (cond : Sigma δ → Bool) (next : List (Sigma δ) → Tx δ τ) : Tx δ τ :=
  .lock a (·.filter cond) cond next

variable [DecidableEq κ] (S : Schema δ)

/-! ## Steps -/

/-- The rows that refer to `k`. -/
def Schema.children (db : Db δ) (k : κ) : List κ := db.filter fun e => k ∈ S.parents e

/-- The keys are new, and what the rows refer to is there. -/
def Schema.Accepts (db : Db δ) (l : Log δ) (ins : List (Sigma δ)) : Prop :=
  ins.keys.Nodup ∧ ∀ e ∈ ins, db.rows e.1 = none ∧ (S.unique e.1 = true → e.1 ∉ db.keys) ∧
    ∀ p ∈ S.parents e, (db.rows p ≠ none ∧ p ∉ l.gone) ∨ p ∈ ins.keys

instance (db : Db δ) (l : Log δ) (ins : List (Sigma δ)) : Decidable (S.Accepts db l ins) :=
  inferInstanceAs (Decidable (_ ∧ ∀ _ ∈ _, _))

/-- What is committed. -/
def Db.apply (db : Db δ) (l : Log δ) (ins : List (Sigma δ)) : Db δ where
  rows k := (ins.dlookup k).or (if k ∈ l.gone then none else (l.sets.dlookup k).or (db.rows k))
  keys := ins.foldr (fun e ks => ks.insert e.1) db.keys
  inserted := db.inserted ++ ins.keys

def Store.take (s : Store δ) (t : ℕ) (k : κ) (a : Strength) : Store δ := { s with locks := s.locks.take t k a }

/-- The transaction of `t` is over without a commit. -/
def Store.rollback (s : Store δ) (t : ℕ) : Store δ × Trans δ τ :=
  ({ s with locks := s.locks.release t }, ⟨.empty, .idle⟩)

/-- The next step of a transaction. -/
def Store.advance (t : ℕ) (s : Store δ) (l : Log δ) : Stage δ τ → Store δ × Trans δ τ
  | .idle => (s, ⟨l, .idle⟩)
  | .run (.select next) => (s, ⟨l, .run (next s.db)⟩)
  | .run (.lock a rows cond next) => (s, ⟨l, .locking a (rows s.db) cond [] next⟩)
  | .run (.update k a set next) =>
    match s.db.rows k with
    | some v => (s.take t k a, ⟨l.set k a v (set v), .run (next true)⟩)
    | none => (s, ⟨l, .run (next false)⟩)
  | .run (.delete rows next) => (s, ⟨l, .deleting ((rows s.db).map (·, none)) next⟩)
  | .run (.commit _ ins) =>
    if S.Accepts s.db l ins then (⟨s.db.apply l ins, s.locks.release t⟩, ⟨.empty, .idle⟩) else s.rollback t
  | .run .abort => s.rollback t
  | .locking a (k :: todo) cond got next =>
    match s.db.rows k with
    | some v =>
      if cond ⟨k, v⟩ then (s.take t k a, ⟨l.hold a [⟨k, v⟩], .locking a todo cond (got ++ [⟨k, v⟩]) next⟩)
      else (s, ⟨l, .locking a todo cond got next⟩)
    | none => (s, ⟨l, .locking a todo cond got next⟩)
  | .locking _ [] _ got next => (s, ⟨l, .run (next got)⟩)
  | .deleting ((k, via) :: todo) next =>
    match s.db.rows k with
    | some v =>
      if ∀ p ∈ via, p ∈ S.parents ⟨k, v⟩ then
        (s.take t k .update,
          ⟨l.delete [⟨k, v⟩], .deleting (todo ++ (S.children s.db k).map (·, some k)) next⟩)
      else (s, ⟨l, .deleting todo next⟩)
    | none => (s, ⟨l, .deleting todo next⟩)
  | .deleting [] next => (s, ⟨l, .run next⟩)

/-- The next step does not wait. -/
def Store.Ready (t : ℕ) (s : Store δ) : Stage δ τ → Prop
  | .idle => False
  | .run (.update k a _ _) => s.locks.Free t k a
  | .run (.commit _ ins) => ∀ e ∈ ins, ∀ p ∈ S.parents e, s.locks.Free t p .keyShare
  | .locking a (k :: _) _ _ _ => s.locks.Free t k a
  | .deleting ((k, _) :: _) _ => s.locks.Free t k .update
  | _ => True

def Stage.isIdle : Stage δ τ → Bool
  | .idle => true
  | _ => false

variable {ρ : Type} (prog : ρ → Tx δ τ)

/-- One transaction after the other on each connection. -/
def Tx.threads : Threads (Store δ) (Session δ τ ρ) (TxAction ρ) where
  pre t s p
    | .begin _ => p.stage.isIdle = true
    | .step => s.Ready S t p.stage
    | .abort => p.stage.isIdle = false
  post t s p
    | .begin r => (s, ⟨⟨.empty, .run (prog r)⟩, some r, s.db.inserted.length⟩)
    | .step => ((s.advance S t p.log p.stage).1, { p with toTrans := (s.advance S t p.log p.stage).2 })
    | .abort => ((s.rollback (τ := τ) t).1, { p with toTrans := (s.rollback t).2 })

instance (t : ℕ) (s : Store δ) (x : Stage δ τ) : Decidable (s.Ready S t x) := by
  unfold Store.Ready
  split <;> infer_instance

instance (t : ℕ) (s : Store δ) (p : Session δ τ ρ) (a : TxAction ρ) :
    Decidable ((Tx.threads S prog).pre t s p a) := by
  cases a <;> unfold Tx.threads <;> infer_instance

/-! ## What a commit does -/

section Apply

variable {d : Db δ} {l : Log δ} {ins : List (Sigma δ)} {k : κ} {v : δ k}

/-- A row of the new database was inserted, set, or there before. -/
theorem apply_rows (h : (d.apply l ins).rows k = some v) :
    ⟨k, v⟩ ∈ ins ∨ k ∉ l.gone ∧ (⟨k, v⟩ ∈ l.sets ∨ l.sets.dlookup k = none ∧ d.rows k = some v) := by
  simp only [Db.apply, Option.or_eq_some_iff] at h
  rcases h with h | ⟨-, h⟩
  · exact .inl (List.of_mem_dlookup h)
  · split_ifs at h with hg
    refine .inr ⟨hg, ?_⟩
    rcases Option.or_eq_some_iff.mp h with h | ⟨hn, h⟩
    · exact .inl (List.of_mem_dlookup h)
    · exact .inr ⟨hn, h⟩

/-- A row that was not written is as before. -/
theorem apply_same (hi : k ∉ ins.keys) (hg : k ∉ l.gone) (hs : k ∉ l.sets.keys) :
    (d.apply l ins).rows k = d.rows k := by
  simp [Db.apply, List.dlookup_eq_none.mpr hi, List.dlookup_eq_none.mpr hs, hg]

theorem apply_inserted (hn : ins.keys.Nodup) (h : ⟨k, v⟩ ∈ ins) : (d.apply l ins).rows k = some v := by
  have := List.mem_dlookup hn h
  simp only [Option.mem_def] at this
  simp [Db.apply, this]

theorem mem_apply_keys : k ∈ (d.apply l ins).keys ↔ k ∈ ins.keys ∨ k ∈ d.keys := by
  simp only [Db.apply]
  induction ins with
  | nil => simp
  | cons e ins ih =>
    simp only [List.foldr_cons, List.mem_insert_iff, ih, List.keys_cons, List.mem_cons]
    tauto

theorem nodup_apply_keys (h : d.keys.Nodup) : (d.apply l ins).keys.Nodup := by
  simp only [Db.apply]
  induction ins with
  | nil => exact h
  | cons e ins ih => exact ih.insert

end Apply

variable {S}

/-- Only a commit changes the database. -/
theorem advance_db {s : Store δ} {t : ℕ} {l : Log δ} {x : Stage δ τ} : (s.advance S t l x).1.db = s.db ∨
    ∃ tag ins, x = .run (.commit tag ins) ∧ S.Accepts s.db l ins ∧
      (s.advance S t l x).1.db = s.db.apply l ins := by
  cases x with
  | idle => exact .inl rfl
  | run p =>
    cases p with
    | commit tag ins =>
      by_cases ha : S.Accepts s.db l ins
      · exact .inr ⟨tag, ins, rfl, ha, by simp [Store.advance, ha]⟩
      · exact .inl (by simp [Store.advance, ha, Store.rollback])
    | update k a set next => exact .inl (by simp only [Store.advance]; split <;> rfl)
    | _ => exact .inl rfl
  | locking a todo cond got next | deleting todo next =>
    refine .inl ?_
    cases todo with
    | nil => rfl
    | cons e todo =>
      simp only [Store.advance]
      split
      · split <;> rfl
      · rfl

section Runs

variable {prog} {c d : Threads.Config (Store δ) (Session δ τ ρ)}
  {P : Threads.Config (Store δ) (Session δ τ ρ) → ℕ × TxAction ρ → Prop}

/-- What every commit keeps stays through a run. -/
theorem Tx.keeps {K : Db δ → Prop} (h : (Tx.threads S prog).machine.Reach P c d) (hc : K c.shared.db)
    (hcommit : ∀ c t tag ins, K c.shared.db → P c (t, .step) → (c.th t).stage = .run (.commit tag ins) →
      S.Accepts c.shared.db (c.th t).log ins → K (c.shared.db.apply (c.th t).log ins)) : K d.shared.db := by
  refine h.invariant (I := fun c => K c.shared.db) hc fun c x hK hpre hP => ?_
  obtain ⟨t, a⟩ := x
  cases a with
  | begin r => exact hK
  | abort => exact hK
  | step =>
    show K ((c.shared.advance S t (c.th t).log (c.th t).stage).1).db
    rcases advance_db (S := S) (s := c.shared) (t := t) (l := (c.th t).log) (x := (c.th t).stage)
      with hdb | ⟨tag, ins, hx, ha, hdb⟩
    · rw [hdb]
      exact hK
    · rw [hdb]
      exact hcommit c t tag ins hK hP hx ha

end Runs

end Lib
