import McServerDashboard.Lib.Transactions

/-!
# A logic of transactions

What a transaction knows at its commit, whatever the others commit meanwhile. A row that it has locked is
as it found it, and no row comes to refer to one that it has locked against all others.

* `Spec`: an invariant of the database, how it evolves, and what is to hold when a transaction commits.
* `Tx.Valid`: a program, statement by statement, on every database that it may find.
* **`Tx.holds`**, **`Tx.committing`**: the interleavings of valid programs.
-/

namespace Lib

variable {κ : Type} {δ : κ → Type} {τ : Type} [DecidableEq κ]

/-- Every row's foreign keys are rows, and every row's key is known. -/
structure Schema.Wf (S : Schema δ) (db : Db δ) : Prop where
  parents : ∀ c v, db.rows c = some v → ∀ p ∈ S.parents ⟨c, v⟩, db.rows p ≠ none
  keys : ∀ c, db.rows c ≠ none → c ∈ db.keys
  nodup : db.keys.Nodup

omit [DecidableEq κ] in
theorem Schema.Wf.mem_filter {S : Schema δ} {db : Db δ} {cond : Sigma δ → Bool} {k : κ} (h : S.Wf db) :
    k ∈ db.filter cond ↔ ∃ v, db.rows k = some v ∧ cond ⟨k, v⟩ = true := by
  simp only [Db.filter, List.mem_filter]
  constructor
  · rintro ⟨-, hk⟩
    split at hk
    · rename_i v hv
      exact ⟨v, hv, hk⟩
    · cases hk
  · rintro ⟨v, hv, hc⟩
    exact ⟨h.keys k (hv ▸ Option.some_ne_none v), by simp only [hv, hc]⟩

/-- An invariant of the database, how it may evolve, and what is to hold when a transaction commits. -/
structure Spec (S : Schema δ) (τ : Type) where
  inv : Db δ → Prop
  evolves : Db δ → Db δ → Prop
  post : Db δ → Log δ → τ → List (Sigma δ) → Prop
  refl : ∀ d, evolves d d
  trans : ∀ d d' d'', evolves d d' → evolves d' d'' → evolves d d''
  commit : ∀ d l tag ins, inv d → S.Wf d → l.Agrees d → S.Accepts d l ins → post d l tag ins →
    inv (d.apply l ins) ∧ evolves d (d.apply l ins)

variable {S : Schema δ} (Z : Spec S τ)

/-- `d'` is what the others may have made of `d`: nothing new refers to a row that is locked firmly. -/
structure Spec.Later (l : Log δ) (d d' : Db δ) : Prop where
  evolves : Z.evolves d d'
  firm : ∀ k ∈ l.firm, ∀ c v, d'.rows c = some v → k ∈ S.parents ⟨c, v⟩ →
    ∃ w, d.rows c = some w ∧ k ∈ S.parents ⟨c, w⟩

/-- A database that a transaction may find at a statement. -/
structure Spec.Now (l : Log δ) (C : Db δ → Prop) (d : Db δ) : Prop where
  inv : Z.inv d
  wf : S.Wf d
  agrees : l.Agrees d
  cond : C d

/-- `d` was found once. -/
def Spec.Since (l : Log δ) (C : Db δ → Prop) (d : Db δ) : Db δ → Prop := fun d' => C d' ∧ Z.Later l d d'

/-- The rows `ks` that were not got did not meet the condition when it was their turn. -/
def Spec.Missed (l : Log δ) (C : Db δ → Prop) (ks : List κ) (cond : Sigma δ → Bool) (got : List (Sigma δ)) :
    Db δ → Prop := fun d' =>
  C d' ∧ ∀ k ∈ ks, k ∉ got.keys →
    ∃ d, C d ∧ Z.Later l d d' ∧ ∀ v, d.rows k = some v → cond ⟨k, v⟩ = false

/-- The rows that a deletion takes: those it names, and those that refer to one it takes. -/
def Schema.Cascade (S : Schema δ) (roots : List κ) (es : List (Sigma δ)) : Prop :=
  ∀ e ∈ es, e.1 ∈ roots ∨ ∃ p ∈ es, p.1 ∈ S.parents e

/-- **A valid program**: whatever the others commit in between, it commits where `post` holds. -/
def Tx.Valid : Tx δ τ → Log δ → (Db δ → Prop) → Prop
  | .select next, l, C => ∀ d, Z.Now l C d → (next d).Valid l (Z.Since l C d)
  | .lock a rows cond next, l, C => ∀ d, Z.Now l C d →
    (∀ k ∈ rows d, (S.writes k).Conflicts a) ∧
      ∀ got : List (Sigma δ), got.keys.Sublist (rows d) → (∀ e ∈ got, cond e = true) →
        (next got).Valid (l.hold a got) (Z.Missed l (Z.Since l C d) (rows d) cond got)
  | .update k a set next, l, C =>
    (S.writes k).rank ≤ a.rank ∧ (∀ v, S.parents ⟨k, set v⟩ = S.parents ⟨k, v⟩) ∧
      (next false).Valid l C ∧ ∀ v, (next true).Valid (l.set k a v (set v)) C
  | .delete rows next, l, C => ∀ d, Z.Now l C d →
    ∀ more, S.Cascade (rows d) more → next.Valid (l.delete more) (Z.Since l C d)
  | .commit tag ins, l, C => ∀ d, Z.Now l C d → Z.post d l tag ins
  | .abort, _, _ => True

/-- What is still to be deleted. -/
def Stage.todo : Stage δ τ → List (κ × Option κ)
  | .deleting todo _ => todo
  | _ => []

/-- The rows that a cascade may still take. -/
def Schema.Takes (S : Schema δ) (todo : List (κ × Option κ)) (es : List (Sigma δ)) : Prop :=
  ∀ e ∈ es, (∃ via, (e.1, via) ∈ todo ∧ ∀ p ∈ via, p ∈ S.parents e) ∨ ∃ p ∈ es, p.1 ∈ S.parents e

/-- `l'` has locked more than `l`, and written the same. -/
structure Log.Reads (l l' : Log δ) : Prop where
  held : ∀ e ∈ l.held, e ∈ l'.held
  firm : ∀ k ∈ l.firm, k ∈ l'.firm
  sets : l'.sets = l.sets
  gone : l'.gone = l.gone

variable {Z} {s s' : Store δ} {t u : ℕ} {l l' : Log δ} {tr : Trans δ τ} {todo : List (κ × Option κ)}
  {ins : List (Sigma δ)} {k : κ} {a : Strength} {v : δ k} {tag : τ} {C C' : Db δ → Prop} {d d' d'' : Db δ}

/-! ## What may have become of a database -/

section Later

theorem Spec.Later.refl : Z.Later l d d := ⟨Z.refl d, fun _ _ _ v hv hp => ⟨v, hv, hp⟩⟩

theorem Spec.Later.trans (h : Z.Later l d d') (h' : Z.Later l d' d'') : Z.Later l d d'' := by
  refine ⟨Z.trans _ _ _ h.evolves h'.evolves, fun k hk c v hv hp => ?_⟩
  obtain ⟨w, hw, hp⟩ := h'.firm k hk c v hv hp
  exact h.firm k hk c w hw hp

/-- More locks allow less. -/
theorem Spec.Later.mono (h : Z.Later l' d d') (hl : ∀ k ∈ l.firm, k ∈ l'.firm) : Z.Later l d d' :=
  ⟨h.evolves, fun k hk => h.firm k (hl k hk)⟩

/-- A condition that stays whatever the others may do. -/
def Spec.Closed (Z : Spec S τ) (l : Log δ) (C : Db δ → Prop) : Prop := ∀ d d', C d → Z.Later l d d' → C d'

theorem Spec.Closed.mono (h : Z.Closed l C) (hl : ∀ k ∈ l.firm, k ∈ l'.firm) : Z.Closed l' C :=
  fun d d' hd hd' => h d d' hd (hd'.mono hl)

theorem Spec.Closed.since (h : Z.Closed l C) (d : Db δ) : Z.Closed l (Z.Since l C d) :=
  fun _ _ hd hd' => ⟨h _ _ hd.1 hd', hd.2.trans hd'⟩

end Later

section Hold

omit [DecidableEq κ] in
theorem firm_hold {es : List (Sigma δ)} (hk : k ∈ l.firm) : k ∈ (l.hold a es).firm := List.mem_append_left _ hk

omit [DecidableEq κ] in
theorem hold_hold {e : Sigma δ} {es : List (Sigma δ)} : l.hold a (e :: es) = (l.hold a [e]).hold a es := by
  by_cases h : a = .update <;> simp [Log.hold, h]

theorem Spec.Missed.closed {ks : List κ} {cond : Sigma δ → Bool} {got : List (Sigma δ)} (h : Z.Closed l C) :
    Z.Closed l (Z.Missed l C ks cond got) := by
  refine fun d d' hd hd' => ⟨h _ _ hd.1 hd', fun k hk hg => ?_⟩
  obtain ⟨d₁, h1, h2, h3⟩ := hd.2 k hk hg
  exact ⟨d₁, h1, h2.trans hd', h3⟩

omit [DecidableEq κ] in
theorem Log.Reads.refl : l.Reads l := ⟨fun _ h => h, fun _ h => h, rfl, rfl⟩

omit [DecidableEq κ] in
theorem Log.Reads.trans {l'' : Log δ} (h : l.Reads l') (h' : l'.Reads l'') : l.Reads l'' :=
  ⟨fun e he => h'.held e (h.held e he), fun k hk => h'.firm k (h.firm k hk), h'.sets.trans h.sets,
    h'.gone.trans h.gone⟩

omit [DecidableEq κ] in
theorem Log.reads_hold {es : List (Sigma δ)} : l.Reads (l.hold a es) :=
  ⟨fun _ => List.mem_append_left _, fun _ => firm_hold, rfl, rfl⟩

/-- What is known stays known. -/
theorem Spec.Now.mono (h : Z.Now l' C' d) (hl : ∀ e ∈ l.held, e ∈ l'.held) (hC : C' d → C d) : Z.Now l C d :=
  ⟨h.inv, h.wf, fun e he => h.agrees e (hl e he), hC h.cond⟩

/-- The more is known, the more programs are valid. -/
theorem Tx.Valid.mono {p : Tx δ τ} (h : p.Valid Z l C) (hC : ∀ d, C' d → C d) : p.Valid Z l C' := by
  induction p generalizing l C C' with
  | select next ih =>
    refine fun d hd => ih d (h d ⟨hd.inv, hd.wf, hd.agrees, hC d hd.cond⟩) fun d' hd' => ⟨hC d' hd'.1, hd'.2⟩
  | lock a rows cond next ih =>
    intro d hd
    obtain ⟨hstrong, hgot⟩ := h d ⟨hd.inv, hd.wf, hd.agrees, hC d hd.cond⟩
    refine ⟨hstrong, fun got hg hc => ih got (hgot got hg hc) fun d' hd' => ?_⟩
    refine ⟨⟨hC d' hd'.1.1, hd'.1.2⟩, fun k hk hn => ?_⟩
    obtain ⟨d₁, h1, h2, h3⟩ := hd'.2 k hk hn
    exact ⟨d₁, ⟨hC d₁ h1.1, h1.2⟩, h2, h3⟩
  | update k a set next ih =>
    obtain ⟨h1, h2, h3, h4⟩ := h
    exact ⟨h1, h2, ih false h3 hC, fun v => ih true (h4 v) hC⟩
  | delete rows next ih =>
    refine fun d hd more hm => ih (h d ⟨hd.inv, hd.wf, hd.agrees, hC d hd.cond⟩ more hm) fun d' hd' => ?_
    exact ⟨hC d' hd'.1, hd'.2⟩
  | commit tag ins => exact fun d hd => h d ⟨hd.inv, hd.wf, hd.agrees, hC d hd.cond⟩
  | abort => trivial

/-- A lock takes some of the rows that meet its condition, each once. -/
theorem Tx.Valid.lockWhere {cond : Sigma δ → Bool} {next : List (Sigma δ) → Tx δ τ}
    (hw : ∀ e, cond e = true → (S.writes e.1).Conflicts a)
    (h : ∀ got : List (Sigma δ), got.keys.Nodup → (∀ e ∈ got, cond e = true) →
      (next got).Valid Z (l.hold a got) C) : (Tx.lockWhere a cond next).Valid Z l C := by
  refine fun d hd => ⟨fun k hk => ?_, fun got hg hc => ?_⟩
  · obtain ⟨v, -, hv⟩ := hd.wf.mem_filter.mp hk
    exact hw ⟨k, v⟩ hv
  · exact (h got (hg.nodup (hd.wf.nodup.filter _)) hc).mono fun d' hd' => hd'.1.1

/-- A read of which nothing needs to be known. -/
theorem Tx.Valid.read {next : Db δ → Tx δ τ} (h : ∀ d, (next d).Valid Z l C) : (Tx.select next).Valid Z l C :=
  fun d _ => (h d).mono fun _ hd' => hd'.1

end Hold

/-! ## What a transaction knows -/

/-- `t` holds what its log says, and has locked all that refers to what it deletes, or is about to. -/
structure Log.Ok (S : Schema δ) (s : Store δ) (t : ℕ) (l : Log δ) (todo : List (κ × Option κ)) : Prop where
  held : ∀ e ∈ l.held, s.db.rows e.1 = some e.2 ∧ ∃ a, (t, a) ∈ s.locks e.1 ∧ (S.writes e.1).Conflicts a
  firm : ∀ k ∈ l.firm, (t, .update) ∈ s.locks k
  sets : ∀ e ∈ l.sets, (∃ a, (t, a) ∈ s.locks e.1 ∧ (S.writes e.1).rank ≤ a.rank) ∧
    ∃ v, ⟨e.1, v⟩ ∈ l.held ∧ S.parents e = S.parents ⟨e.1, v⟩
  gone : ∀ k ∈ l.gone, k ∈ l.firm
  cascade : ∀ k ∈ l.gone, ∀ c v, s.db.rows c = some v → k ∈ S.parents ⟨c, v⟩ → c ∈ l.gone ∨ (c, some k) ∈ todo

variable (Z) in
def Stage.Ok (l : Log δ) (C : Db δ → Prop) : Stage δ τ → Prop
  | .idle => True
  | .run p => p.Valid Z l C
  | .locking a todo cond got next => (∀ k ∈ todo, (S.writes k).Conflicts a) ∧
    ∀ more : List (Sigma δ), more.keys.Sublist todo → (∀ e ∈ more, cond e = true) →
      (next (got ++ more)).Valid Z (l.hold a more) (Z.Missed l C todo cond more)
  | .deleting todo next => ∀ more, S.Takes todo more → next.Valid Z (l.delete more) C

variable (Z) in
structure Trans.Ok (s : Store δ) (t : ℕ) (tr : Trans δ τ) : Prop where
  log : tr.log.Ok S s t tr.stage.todo
  stage : ∃ C, Z.Closed tr.log C ∧ C s.db ∧ tr.stage.Ok Z tr.log C

variable (Z) in
/-- What all transactions keep. -/
structure Store.Ok (s : Store δ) : Prop where
  locks : s.locks.Compatible
  wf : S.Wf s.db
  inv : Z.inv s.db

/-! ## A commit -/

omit [DecidableEq κ] in
theorem Log.Ok.agrees (h : l.Ok S s t todo) : l.Agrees s.db := fun e he => (h.held e he).1

omit [DecidableEq κ] in
/-- Nobody else writes a row that a transaction relies on. -/
theorem Log.Ok.untouched (ht : l.Ok S s t []) (hc : s.locks.Compatible) (hu : u ≠ t)
    (hl : (u, a) ∈ s.locks k) (hw : (S.writes k).Conflicts a) : k ∉ l.gone ∧ k ∉ l.sets.keys := by
  refine ⟨fun hk => hu ?_, fun hk => hu ?_⟩
  · refine hc.same hl (ht.firm k (ht.gone k hk)) ?_
    simp [Strength.Conflicts, Strength.rank]
  · obtain ⟨e, he, rfl⟩ := List.mem_map.mp hk
    obtain ⟨⟨b, hb, hle⟩, -⟩ := ht.sets e he
    refine hc.same hl hb ?_
    simp only [Strength.Conflicts] at hw ⊢
    omega

/-- What a row of the new database refers to, it referred to before, or it was inserted. -/
theorem Log.Ok.refers (ht : l.Ok S s t todo) (h : (s.db.apply l ins).rows k = some v) :
    ⟨k, v⟩ ∈ ins ∨ k ∉ l.gone ∧ ∃ w, s.db.rows k = some w ∧ S.parents ⟨k, v⟩ = S.parents ⟨k, w⟩ := by
  rcases apply_rows h with h | ⟨hg, h | h⟩
  · exact .inl h
  · obtain ⟨-, w, hw, hp⟩ := ht.sets _ h
    exact .inr ⟨hg, w, (ht.held _ hw).1, hp⟩
  · exact .inr ⟨hg, v, h.2, rfl⟩

/-- **Foreign keys stay.** -/
theorem Schema.Wf.apply (h : S.Wf s.db) (ht : l.Ok S s t []) (ha : S.Accepts s.db l ins) :
    S.Wf (s.db.apply l ins) := by
  have stays {p} (hp : s.db.rows p ≠ none) (hg : p ∉ l.gone) : (s.db.apply l ins).rows p ≠ none := by
    simp only [Db.apply, hg, if_false]
    intro hn
    simp only [Option.or_eq_none_iff] at hn
    exact hp hn.2.2
  refine ⟨fun c v hc p hp => ?_, fun c hc => ?_, nodup_apply_keys h.nodup⟩
  · rcases ht.refers hc with hi | ⟨hg, w, hw, hpar⟩
    · rcases (ha.2 _ hi).2.2 p hp with ⟨hp, hg⟩ | hp
      · exact stays hp hg
      · obtain ⟨⟨_, w⟩, he, rfl⟩ := List.mem_map.mp hp
        rw [apply_inserted ha.1 he]
        exact Option.some_ne_none w
    · rw [hpar] at hp
      refine stays (h.parents c w hw p hp) fun hg' => ?_
      rcases ht.cascade p hg' c w hw hp with hc | hc
      · exact hg hc
      · cases hc
  · obtain ⟨v, hv⟩ := Option.ne_none_iff_exists'.mp hc
    rw [mem_apply_keys]
    rcases ht.refers hv with hi | ⟨-, w, hw, -⟩
    · exact .inl (List.mem_map_of_mem hi)
    · exact .inr (h.keys c (hw ▸ Option.some_ne_none w))

/-- A commit leaves to the others what they have locked, and lets nothing refer to what they have locked
firmly. -/
theorem Log.Ok.commit (ho : s.Ok Z) (ht : l.Ok S s t []) (ha : S.Accepts s.db l ins)
    (hf : ∀ e ∈ ins, ∀ p ∈ S.parents e, s.locks.Free t p .keyShare) (hu : u ≠ t) (h : l'.Ok S s u todo) :
    l'.Ok S ⟨s.db.apply l ins, s.locks.release t⟩ u todo ∧
      ∀ k ∈ l'.firm, ∀ c v, (s.db.apply l ins).rows c = some v → k ∈ S.parents ⟨c, v⟩ →
        ∃ w, s.db.rows c = some w ∧ k ∈ S.parents ⟨c, w⟩ := by
  have mem {k a} (h : (u, a) ∈ s.locks k) : (u, a) ∈ s.locks.release t k := RowLocks.mem_release.mpr ⟨h, hu⟩
  have hfirm : ∀ k ∈ l'.firm, ∀ c v, (s.db.apply l ins).rows c = some v → k ∈ S.parents ⟨c, v⟩ →
      ∃ w, s.db.rows c = some w ∧ k ∈ S.parents ⟨c, w⟩ := by
    intro k hk c v hc hp
    rcases ht.refers hc with hi | ⟨-, w, hw, hpar⟩
    · exact absurd (by simp [Strength.Conflicts, Strength.rank]) (hf _ hi k hp _ (h.firm k hk) hu)
    · exact ⟨w, hw, hpar ▸ hp⟩
  refine ⟨⟨fun e he => ?_, fun k hk => mem (h.firm k hk), fun e he => ?_, h.gone, fun k hk c v hc hp => ?_⟩, hfirm⟩
  · obtain ⟨hrow, a, hl, hw⟩ := h.held e he
    refine ⟨?_, a, mem hl, hw⟩
    obtain ⟨hg, hs⟩ := ht.untouched ho.locks hu hl hw
    rw [← hrow]
    refine apply_same (fun hi => ?_) hg hs
    obtain ⟨e', he', hee⟩ := List.mem_map.mp hi
    have := (ha.2 e' he').1
    rw [hee, hrow] at this
    cases this
  · obtain ⟨⟨a, hl, hw⟩, hv⟩ := h.sets e he
    exact ⟨⟨a, mem hl, hw⟩, hv⟩
  · obtain ⟨w, hw, hp⟩ := hfirm k (h.gone k hk) c v hc hp
    exact h.cascade k hk c w hw hp

/-! ## What a step leaves to the others -/

omit [DecidableEq κ] in
/-- The others' locks stay, and the database. -/
theorem Log.Ok.locks (h : l.Ok S s u todo) (hdb : s'.db = s.db)
    (hl : ∀ k a, (u, a) ∈ s.locks k → (u, a) ∈ s'.locks k) : l.Ok S s' u todo := by
  obtain ⟨h1, h2, h3, h4, h5⟩ := h
  rw [← hdb] at h1 h5
  refine ⟨fun e he => ?_, fun k hk => hl _ _ (h2 k hk), fun e he => ?_, h4, h5⟩
  · obtain ⟨hr, a, ha, hw⟩ := h1 e he
    exact ⟨hr, a, hl _ _ ha, hw⟩
  · obtain ⟨⟨a, ha, hw⟩, hv⟩ := h3 e he
    exact ⟨⟨a, hl _ _ ha, hw⟩, hv⟩

theorem Trans.Ok.locks (h : tr.Ok Z s u) (hdb : s'.db = s.db)
    (hl : ∀ k a, (u, a) ∈ s.locks k → (u, a) ∈ s'.locks k) : tr.Ok Z s' u :=
  ⟨h.log.locks hdb hl, by rw [hdb]; exact h.stage⟩

variable (Z) in
/-- What a step of `t` has to keep. -/
structure Spec.Keeps (s : Store δ) (t : ℕ) (r : Store δ × Trans δ τ) : Prop where
  store : r.1.Ok Z
  own : r.2.Ok Z r.1 t
  others : ∀ (u : ℕ) (tr : Trans δ τ), u ≠ t → tr.Ok Z s u → tr.Ok Z r.1 u

/-- A step that takes no lock. -/
theorem Spec.Keeps.quiet (ho : s.Ok Z) (h : tr.Ok Z s t) : Z.Keeps s t (s, tr) :=
  ⟨ho, h, fun _ _ _ h => h⟩

/-- A step that takes a lock. -/
theorem Spec.Keeps.take (ho : s.Ok Z) (hf : s.locks.Free t k a) (h : tr.Ok Z (s.take t k a) t) :
    Z.Keeps s t (s.take t k a, tr) :=
  ⟨⟨ho.locks.take hf, ho.wf, ho.inv⟩, h, fun _ _ _ h => h.locks rfl fun _ _ => RowLocks.take_mono⟩

/-- One more row is held. -/
theorem Log.Ok.hold (h : l.Ok S s t todo) (hv : s.db.rows k = some v) (hw : (S.writes k).Conflicts a) :
    (l.hold a [⟨k, v⟩]).Ok S (s.take t k a) t todo := by
  have h' : l.Ok S (s.take t k a) t todo := h.locks rfl fun _ _ => RowLocks.take_mono
  obtain ⟨h1, h2, h3, h4, h5⟩ := h'
  refine ⟨fun e he => ?_, fun k' hk => ?_, fun e he => ?_, fun k' hk => firm_hold (h4 k' hk), h5⟩
  · rcases List.mem_append.mp he with he | he
    · exact h1 e he
    · obtain rfl := List.mem_singleton.mp he
      exact ⟨hv, a, RowLocks.take_self, hw⟩
  · rcases List.mem_append.mp hk with hk | hk
    · exact h2 k' hk
    · split_ifs at hk with ha
      · obtain rfl := List.mem_singleton.mp hk
        exact ha ▸ RowLocks.take_self
      · cases hk
  · obtain ⟨ha, w, hw, hp⟩ := h3 e he
    exact ⟨ha, w, List.mem_append_left _ hw, hp⟩

theorem Log.Ok.set {w : δ k} (h : l.Ok S s t todo) (hv : s.db.rows k = some v)
    (hw : (S.writes k).rank ≤ a.rank) (hp : S.parents ⟨k, w⟩ = S.parents ⟨k, v⟩) :
    (l.set k a v w).Ok S (s.take t k a) t todo := by
  have hc : (S.writes k).Conflicts a := by
    have := S.strong k
    simp only [Strength.Conflicts]
    omega
  obtain ⟨h1, h2, h3, h4, h5⟩ := h.hold hv hc
  refine ⟨h1, h2, fun e he => ?_, h4, h5⟩
  rcases List.mem_cons.mp he with rfl | he
  · exact ⟨⟨a, RowLocks.take_self, hw⟩, v, List.mem_append_right _ List.mem_cons_self, hp⟩
  · exact h3 e he

theorem Log.Ok.delete {via : Option κ} (hwf : S.Wf s.db) (h : l.Ok S s t ((k, via) :: todo))
    (hv : s.db.rows k = some v) :
    (l.delete [⟨k, v⟩]).Ok S (s.take t k .update) t (todo ++ (S.children s.db k).map (·, some k)) := by
  have hc : (S.writes k).Conflicts .update := by simp [Strength.Conflicts, Strength.rank]
  obtain ⟨h1, h2, h3, h4, -⟩ := h.hold hv hc
  refine ⟨h1, h2, h3, fun k' hk => ?_, fun k' hk c w hcw hp => ?_⟩
  · rcases List.mem_append.mp hk with hk | hk
    · exact h4 k' hk
    · exact List.mem_append_right _ (by simpa using hk)
  · have hcw : s.db.rows c = some w := hcw
    rcases List.mem_append.mp hk with hk | hk
    · rcases h.cascade k' hk c w hcw hp with hg | hg
      · exact .inl (List.mem_append_left _ hg)
      · rcases List.mem_cons.mp hg with hg | hg
        · rw [Prod.mk.injEq] at hg
          exact .inl (List.mem_append_right _ (List.mem_singleton.mpr hg.1))
        · exact .inr (List.mem_append_left _ hg)
    · obtain rfl := List.mem_singleton.mp hk
      refine .inr (List.mem_append_right _ (List.mem_map.mpr ⟨c, ?_, rfl⟩))
      exact hwf.mem_filter.mpr ⟨w, hcw, decide_eq_true hp⟩

omit [DecidableEq κ] in
/-- A row that is gone, or refers to another by now, is left out of the cascade. -/
theorem Log.Ok.skip {via : Option κ} (h : l.Ok S s t ((k, via) :: todo))
    (hk : ∀ v, s.db.rows k = some v → ¬∀ p ∈ via, p ∈ S.parents ⟨k, v⟩) : l.Ok S s t todo := by
  refine ⟨h.held, h.firm, h.sets, h.gone, fun k' hk' c w hcw hp =>
    (h.cascade k' hk' c w hcw hp).imp_right fun hg => ?_⟩
  rcases List.mem_cons.mp hg with hg | hg
  · rw [Prod.mk.injEq] at hg
    obtain ⟨rfl, rfl⟩ := hg
    refine absurd (fun p hp' => ?_) (hk w hcw)
    cases hp'
    exact hp
  · exact hg

/-! ## The steps of a transaction -/

omit [DecidableEq κ] in
theorem Log.Ok.empty : (Log.empty : Log δ).Ok S s t [] := ⟨nofun, nofun, nofun, nofun, nofun⟩

theorem Trans.Ok.idle : Trans.Ok Z s t ⟨.empty, .idle⟩ :=
  ⟨.empty, fun _ => True, fun _ _ _ _ => trivial, trivial, trivial⟩

/-- A transaction ends without a commit. -/
theorem Spec.Keeps.ends (ho : s.Ok Z) : Z.Keeps s t (s.rollback t) :=
  ⟨⟨ho.locks.release, ho.wf, ho.inv⟩, .idle,
    fun _ _ hu h => h.locks rfl fun _ _ hl => RowLocks.mem_release.mpr ⟨hl, hu⟩⟩

theorem keeps_commit (ho : s.Ok Z) (h : Trans.Ok Z s t ⟨l, .run (.commit tag ins)⟩)
    (hr : s.Ready S t (.run (.commit tag ins) : Stage δ τ)) :
    Z.Keeps s t (s.advance S t l (.run (.commit tag ins) : Stage δ τ)) := by
  obtain ⟨hlog, C, hC, hCs, hv⟩ := h
  show Z.Keeps s t (if _ then _ else _)
  split_ifs with ha
  · have hpost := hv s.db ⟨ho.inv, ho.wf, hlog.agrees, hCs⟩
    obtain ⟨hinv, hev⟩ := Z.commit s.db l tag ins ho.inv ho.wf hlog.agrees ha hpost
    refine ⟨⟨ho.locks.release, ho.wf.apply hlog ha, hinv⟩, .idle, fun u tr hu htr => ?_⟩
    obtain ⟨hlog', C', hC', hCs', hst⟩ := htr
    obtain ⟨h1, h2⟩ := hlog.commit ho ha hr hu hlog'
    exact ⟨h1, C', hC', hC' _ _ hCs' ⟨hev, h2⟩, hst⟩
  · exact .ends ho

theorem keeps_run {p : Tx δ τ} (ho : s.Ok Z) (h : Trans.Ok Z s t ⟨l, .run p⟩) (hr : s.Ready S t (.run p)) :
    Z.Keeps s t (s.advance S t l (.run p)) := by
  have hall := h
  obtain ⟨hlog, C, hC, hCs, hv⟩ := h
  have hlog : l.Ok S s t [] := hlog
  have hnow : Z.Now l C s.db := ⟨ho.inv, ho.wf, hlog.agrees, hCs⟩
  have hsince : Z.Since l C s.db s.db := ⟨hCs, .refl⟩
  cases p with
  | select next => exact .quiet ho ⟨hlog, _, hC.since s.db, hsince, hv s.db hnow⟩
  | lock a rows cond next =>
    obtain ⟨hstrong, hgot⟩ := hv s.db hnow
    exact .quiet ho ⟨hlog, _, hC.since s.db, hsince, hstrong, hgot⟩
  | update k a set next =>
    obtain ⟨hw, hp, hfalse, htrue⟩ := hv
    simp only [Store.advance]
    split
    · rename_i v hk
      exact .take ho hr ⟨hlog.set hk hw (hp v), C, hC.mono fun _ => firm_hold, hCs, htrue v⟩
    · exact .quiet ho ⟨hlog, C, hC, hCs, hfalse⟩
  | delete rows next =>
    have hstage : Stage.Ok Z l (Z.Since l C s.db) (.deleting ((rows s.db).map (·, none)) next) := by
      refine fun more hmore => hv s.db hnow more fun e he => (hmore e he).imp_left ?_
      rintro ⟨via, hvia, -⟩
      obtain ⟨k, hk, hke⟩ := List.mem_map.mp hvia
      rw [Prod.mk.injEq] at hke
      exact hke.1 ▸ hk
    refine .quiet ho ⟨⟨hlog.held, hlog.firm, hlog.sets, hlog.gone, fun k hk c v hc hp => ?_⟩, _, hC.since s.db,
      hsince, hstage⟩
    exact (hlog.cascade k hk c v hc hp).imp_right fun h => absurd h List.not_mem_nil
  | commit tag ins => exact keeps_commit ho hall hr
  | abort => exact .ends ho

theorem keeps_locking {ks : List κ} {cond : Sigma δ → Bool} {got : List (Sigma δ)}
    {next : List (Sigma δ) → Tx δ τ} (ho : s.Ok Z) (h : Trans.Ok Z s t ⟨l, .locking a ks cond got next⟩)
    (hr : s.Ready S t (.locking a ks cond got next : Stage δ τ)) :
    Z.Keeps s t (s.advance S t l (.locking a ks cond got next : Stage δ τ)) := by
  obtain ⟨hlog, C, hC, hCs, hstrong, hgot⟩ := h
  have hlog : l.Ok S s t [] := hlog
  cases ks with
  | nil =>
    have := hgot [] (List.Sublist.refl _) fun _ h => absurd h List.not_mem_nil
    simp only [List.append_nil, Log.hold, List.keys_nil, ite_self] at this
    exact .quiet ho ⟨hlog, C, hC, hCs, this.mono fun d hd => ⟨hd, fun _ h => absurd h List.not_mem_nil⟩⟩
  | cons k ks =>
    have hrest (k') (hk : k' ∈ ks) := hstrong k' (List.mem_cons_of_mem _ hk)
    -- The row is left out, for what it is now; the rest of the rows may still come.
    have hskip (hk : ∀ v, s.db.rows k = some v → cond ⟨k, v⟩ = false) :
        Z.Keeps s t (s, ⟨l, .locking a ks cond got next⟩) := by
      let C' := fun d' => C d' ∧ ∃ d, C d ∧ Z.Later l d d' ∧ ∀ v, d.rows k = some v → cond ⟨k, v⟩ = false
      have hC' : Z.Closed l C' := fun d d' hd hd' =>
        ⟨hC _ _ hd.1 hd', hd.2.imp fun d₁ h => ⟨h.1, h.2.1.trans hd', h.2.2⟩⟩
      refine .quiet ho ⟨hlog, C', hC', ⟨hCs, s.db, hCs, .refl, hk⟩, hrest, fun more hm hmc => ?_⟩
      refine (hgot more (hm.trans (List.sublist_cons_self _ _)) hmc).mono fun d' hd' => ⟨hd'.1.1, fun k' hk' hn => ?_⟩
      rcases List.mem_cons.mp hk' with rfl | hk'
      · exact hd'.1.2
      · obtain ⟨d₁, h1, h2⟩ := hd'.2 k' hk' hn
        exact ⟨d₁, h1.1, h2⟩
    simp only [Store.advance]
    split
    · rename_i v hk
      split_ifs with hcond
      · refine .take ho hr ⟨hlog.hold hk (hstrong k List.mem_cons_self), C, hC.mono fun _ => firm_hold, hCs, hrest,
          fun more hm hmc => ?_⟩
        have := hgot (⟨k, v⟩ :: more) (by simpa using hm) (by simpa using ⟨hcond, hmc⟩)
        rw [hold_hold] at this
        simp only [List.append_assoc, List.singleton_append]
        refine this.mono fun d' hd' => ⟨hd'.1, fun k' hk' hn => ?_⟩
        rw [List.keys_cons, List.mem_cons, not_or] at hn
        obtain ⟨d₁, h1, h2, h3⟩ := hd'.2 k' (List.mem_of_ne_of_mem hn.1 hk') hn.2
        exact ⟨d₁, h1, h2.mono fun _ => firm_hold, h3⟩
      · refine hskip fun w hw => ?_
        rw [hk, Option.some.injEq] at hw
        simpa [hw] using hcond
    · rename_i hk
      exact hskip fun w hw => by rw [hk] at hw; cases hw

theorem keeps_deleting {next : Tx δ τ} (ho : s.Ok Z) (h : Trans.Ok Z s t ⟨l, .deleting todo next⟩)
    (hr : s.Ready S t (.deleting todo next : Stage δ τ)) :
    Z.Keeps s t (s.advance S t l (.deleting todo next : Stage δ τ)) := by
  obtain ⟨hlog, C, hC, hCs, hst⟩ := h
  cases todo with
  | nil =>
    have := hst [] fun _ h => absurd h List.not_mem_nil
    simp only [Log.delete, Log.hold, List.append_nil, List.keys_nil, ite_self] at this
    exact .quiet ho ⟨hlog, C, hC, hCs, this⟩
  | cons e todo =>
    obtain ⟨k, via⟩ := e
    have hlog : l.Ok S s t ((k, via) :: todo) := hlog
    have htodo (more) (hm : S.Takes todo more) : S.Takes ((k, via) :: todo) more := by
      intro e he
      refine (hm e he).imp_left ?_
      rintro ⟨via', hvia, hp⟩
      exact ⟨via', List.mem_cons_of_mem _ hvia, hp⟩
    have hskip (hk : ∀ v, s.db.rows k = some v → ¬∀ p ∈ via, p ∈ S.parents ⟨k, v⟩) :
        Z.Keeps s t (s, ⟨l, .deleting todo next⟩) :=
      .quiet ho ⟨hlog.skip hk, C, hC, hCs, fun more hm => hst more (htodo more hm)⟩
    simp only [Store.advance]
    split
    · rename_i v hk
      split_ifs with hvia
      · refine .take ho hr ⟨hlog.delete ho.wf hk, C, hC.mono fun _ => firm_hold, hCs, fun more hm => ?_⟩
        have := hst (⟨k, v⟩ :: more) ?_
        · simpa [Log.delete, Log.hold] using this
        intro e he
        rcases List.mem_cons.mp he with rfl | he
        · exact .inl ⟨via, List.mem_cons_self, hvia⟩
        · rcases hm e he with ⟨via', hmem, hp⟩ | ⟨p, hpm, hp⟩
          · rcases List.mem_append.mp hmem with hmem | hmem
            · exact .inl ⟨via', List.mem_cons_of_mem _ hmem, hp⟩
            · obtain ⟨c, -, hce⟩ := List.mem_map.mp hmem
              rw [Prod.mk.injEq] at hce
              exact .inr ⟨⟨k, v⟩, List.mem_cons_self, hp k hce.2.symm⟩
          · exact .inr ⟨p, List.mem_cons_of_mem _ hpm, hp⟩
      · refine hskip fun w hw => ?_
        rw [hk, Option.some.injEq] at hw
        exact hw ▸ hvia
    · rename_i hk
      exact hskip fun w hw => by rw [hk] at hw; cases hw

theorem keeps_advance {x : Stage δ τ} (ho : s.Ok Z) (h : Trans.Ok Z s t ⟨l, x⟩) (hr : s.Ready S t x) :
    Z.Keeps s t (s.advance S t l x) := by
  cases x with
  | idle => exact hr.elim
  | run p => exact keeps_run ho h hr
  | locking a todo cond got next => exact keeps_locking ho h hr
  | deleting todo next => exact keeps_deleting ho h hr

/-! ## Interleavings -/

section Interleavings

variable {ρ : Type} {prog : ρ → Tx δ τ} {c c' : Threads.Config (Store δ) (Session δ τ ρ)}
  {P : Threads.Config (Store δ) (Session δ τ ρ) → ℕ × TxAction ρ → Prop}

variable (Z) in
/-- What holds of a connection. -/
def Session.Ok (s : Store δ) (t : ℕ) (p : Session δ τ ρ) : Prop := Trans.Ok Z s t p.toTrans

/-- **Interleavings of valid programs.** -/
theorem Tx.holds (hprog : ∀ r, (prog r).Valid Z .empty fun _ => True)
    (h : (Tx.threads S prog).machine.Reach P c c') (h0 : Threads.Holds (Store.Ok Z) (Session.Ok Z) c) :
    Threads.Holds (Store.Ok Z) (Session.Ok Z) c' := by
  refine Threads.invariant h h0 fun c t a hc hp _ => ?_
  have hk : Z.Keeps c.shared t (((Tx.threads S prog).post t c.shared (c.th t) a).1,
      ((Tx.threads S prog).post t c.shared (c.th t) a).2.toTrans) := by
    cases a with
    | begin r => exact .quiet hc.shared ⟨.empty, fun _ => True, fun _ _ _ _ => trivial, trivial, hprog r⟩
    | step => exact keeps_advance hc.shared (hc.thread t) hp
    | abort => exact .ends hc.shared
  exact ⟨hk.store, hk.own, fun u hu ho => hk.others u _ hu ho⟩

/-- **Who commits.** -/
theorem Tx.committing (h : Threads.Holds (Store.Ok Z) (Session.Ok Z) c)
    (ht : (c.th t).stage = .run (.commit tag ins)) : Z.post c.shared.db (c.th t).log tag ins := by
  obtain ⟨hlog, C, -, hCs, hst⟩ := h.thread t
  rw [ht] at hst
  exact hst c.shared.db ⟨h.shared.inv, h.shared.wf, hlog.agrees, hCs⟩

end Interleavings

end Lib
