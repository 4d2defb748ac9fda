import Mathlib.Data.Int.Notation
import McServerDashboard.Lib.Threads

/-!
# The content pools and their collection

The pool of server JARs and the cache of plugin jars: a blob is stored under its SHA-256 before the row that references
it is committed, and `RunJarPoolGc` and `RunPluginCacheGc` delete what is old and referenced by no committed row. A
thread is one pass of a collector, one start or one install.

* `ensureJar`: which pool operation `EnsureJar` ends with.
* `Calm`: no pass gives up a key that a start or an install holds, or takes while the pass deletes it.
* **`rows_present`**: in a calm run every committed row's blob is in the pool.
* **`calm_of_fresh`**: the safety window makes calm what is put anew.
-/

namespace McServerDashboard.Storage.ContentPools

open Lib

/-- Seconds. -/
def GC_SAFETY_WINDOW : ℤ := 3600

/-! ## Ensuring a JAR -/

inductive HashAlgorithm
  | sha1
  | sha256
  deriving DecidableEq

def HashAlgorithm.value : HashAlgorithm → String
  | sha1 => "sha1"
  | sha256 => "sha256"

structure JarSource where
  url : String
  expected_hash : Option String
  hash_algorithm : Option HashAlgorithm

def source_fingerprint (source : JarSource) : String :=
  match source.expected_hash, source.hash_algorithm with
  | some hash, some algorithm => algorithm.value ++ ":" ++ hash.toLower
  | _, _ => "url:" ++ source.url

/-- The SHA-256 that the source publishes. -/
def JarSource.sha256 (source : JarSource) : Option String :=
  if source.hash_algorithm = some .sha256 then source.expected_hash else none

variable {Data : Type*}

def verify (digest : HashAlgorithm → Data → String) (source : JarSource) (data : Data) : Bool :=
  match source.hash_algorithm, source.expected_hash with
  | some algorithm, some hash => (digest algorithm data).toLower == hash.toLower
  | _, _ => true

/-- What the catalog, the fetcher and the pool answer during one call; none is a failure. -/
structure Answers (Data : Type*) where
  resolve : Option JarSource
  has : Bool
  fetch : Option Data
  /-- The pool's answer after a failed download. -/
  hasAfter : Bool

/-- How `EnsureJar` ends: with a key that the pool has, or with a put. -/
inductive Ensured (Data : Type*)
  | pooled (key : String) (source : Option String)
  | put (data : Data) (source : String)

/-- Whether the known key is still the build that the catalog resolves to. -/
def sameBuild (known_key : String) (known_source : Option String) (source : JarSource) : Bool :=
  known_source == some (source_fingerprint source) && source.sha256.all (known_key.toLower == ·.toLower) ||
    source.sha256.any (known_key.toLower == ·.toLower)

/-- `EnsureJar`; none where it raises. -/
def ensureJar (digest : HashAlgorithm → Data → String) (known_key known_source : Option String) (a : Answers Data) :
    Option (Ensured Data) :=
  match a.resolve with
  | none => if a.has then known_key.map (.pooled · known_source) else none
  | some source =>
    match known_key.filter (a.has && sameBuild · known_source source) with
    | some key => some (.pooled key (some (source_fingerprint source)))
    | none =>
      match a.fetch.filter (verify digest source) with
      | some data => some (.put data (source_fingerprint source))
      | none => if a.hasAfter then known_key.map (.pooled · known_source) else none

/-! ## The pools, the rows and the threads -/

inductive Kind
  | jar
  | plugin
  deriving DecidableEq

structure Shared where
  now : ℤ
  /-- The blobs and their `modified_at`. -/
  pool : Kind → String → Option ℤ
  /-- The committed rows and the keys they reference. -/
  rows : Kind → List (ℕ × String)

/-- A put; where the key is there already, the backend may keep the old time. -/
def Shared.put (s : Shared) (kind : Kind) (key : String) (refresh : Bool) : Shared :=
  if s.pool kind key = none ∨ refresh then
    { s with pool := Function.update s.pool kind (Function.update (s.pool kind) key (some s.now)) }
  else s

def Shared.delete (s : Shared) (kind : Kind) (key : String) : Shared :=
  { s with pool := Function.update s.pool kind (Function.update (s.pool kind) key none) }

def Shared.commit (s : Shared) (kind : Kind) (row : ℕ) (key : String) : Shared :=
  { s with rows := Function.update s.rows kind ((row, key) :: (s.rows kind).filter (·.1 ≠ row)) }

/-- `references.live()`. -/
def Shared.live (s : Shared) (kind : Kind) : List String := (s.rows kind).map (·.2)

inductive Pc
  | idle
  /-- The pass has read these entries of the pool. -/
  | listing (kind : Kind) (entries : List (String × ℤ))
  | gathered (kind : Kind) (entries : List (String × ℤ)) (live : List String)
  /-- The loop, with the entries that are left. -/
  | sweeping (kind : Kind) (entries : List (String × ℤ)) (live : List String) (cutoff : ℤ)
  /-- The fresh references do not have the key. -/
  | deleting (kind : Kind) (key : String) (entries : List (String × ℤ)) (live : List String) (cutoff : ℤ)
  | swept
  /-- The start or install has ensured its key at that time. -/
  | ensured (kind : Kind) (row : ℕ) (key : String) (since : ℤ)
  | committed (kind : Kind) (row : ℕ) (key : String)

inductive Action (Data : Type*)
  | tick (n : ℕ)
  | list (kind : Kind)
  /-- The listing comes to this key. -/
  | entry (key : String)
  | live
  | clock
  /-- One turn of the loop, up to the delete. -/
  | next
  | delete
  | finish
  | ensure (row : ℕ) (known_key known_source : Option String) (answers : Answers Data) (refresh : Bool)
  | ingest (row : ℕ) (content : Data) (refresh : Bool)
  | commit

section Machine

variable (digest : HashAlgorithm → Data → String) (sha256 : Data → String)

/-- The loop skips the entry. -/
def Skips (s : Shared) (kind : Kind) (entry : String × ℤ) (live : List String) (cutoff : ℤ) : Prop :=
  entry.1 ∈ live ∨ cutoff < entry.2 ∨ entry.1 ∈ s.live kind

instance {s : Shared} {kind : Kind} {entry : String × ℤ} {live : List String} {cutoff : ℤ} :
    Decidable (Skips s kind entry live cutoff) := inferInstanceAs (Decidable (_ ∨ _ ∨ _))

/-- A row is committed less than the safety window after its key was ensured. -/
def pre (s : Shared) : Pc → Action Data → Prop
  | .idle, .tick _ => True
  | .idle, .list _ => True
  | .listing kind _, .entry key => s.pool kind key ≠ none
  | .listing _ _, .live => True
  | .gathered _ _ _, .clock => True
  | .sweeping _ entries _ _, .next => entries ≠ []
  | .sweeping _ entries _ _, .finish => entries = []
  | .deleting _ _ _ _ _, .delete => True
  | .idle, .ensure _ known_key known_source answers _ =>
    match ensureJar digest known_key known_source answers with
    | some (.pooled key _) => s.pool .jar key ≠ none
    | some (.put _ _) => True
    | none => False
  | .idle, .ingest _ _ _ => True
  | .ensured _ _ _ since, .commit => s.now < since + GC_SAFETY_WINDOW
  | _, _ => False

def post (s : Shared) : Pc → Action Data → Shared × Pc
  | .idle, .tick n => ({ s with now := s.now + n }, .idle)
  | .idle, .list kind => (s, .listing kind [])
  | .listing kind entries, .entry key =>
    match s.pool kind key with
    | some modified_at => (s, .listing kind (entries ++ [(key, modified_at)]))
    | none => (s, .listing kind entries)
  | .listing kind entries, .live => (s, .gathered kind entries (s.live kind))
  | .gathered kind entries live, .clock => (s, .sweeping kind entries live (s.now - GC_SAFETY_WINDOW))
  | .sweeping kind (entry :: entries) live cutoff, .next =>
    if Skips s kind entry live cutoff then (s, .sweeping kind entries live cutoff)
    else (s, .deleting kind entry.1 entries live cutoff)
  | .sweeping _ [] _ _, .finish => (s, .swept)
  | .deleting kind key entries live cutoff, .delete => (s.delete kind key, .sweeping kind entries live cutoff)
  | .idle, .ensure row known_key known_source answers refresh =>
    match ensureJar digest known_key known_source answers with
    | some (.pooled key _) => (s, .ensured .jar row key s.now)
    | some (.put data _) => (s.put .jar (sha256 data) refresh, .ensured .jar row (sha256 data) s.now)
    | none => (s, .idle)
  | .idle, .ingest row content refresh =>
    (s.put .plugin (sha256 content) refresh, .ensured .plugin row (sha256 content) s.now)
  | .ensured kind row key _, .commit => (s.commit kind row key, .committed kind row key)
  | p, _ => (s, p)

def threads : Threads Shared Pc (Action Data) := ⟨fun _ => pre digest, fun _ => post digest sha256⟩

end Machine

/-- Every committed row's blob is in the pool. -/
def Present (s : Shared) : Prop := ∀ kind row key, (row, key) ∈ s.rows kind → s.pool kind key ≠ none

/-! ## Calm runs -/

/-- The pass is about to delete the key. -/
def Pc.Condemns (kind : Kind) (key : String) : Pc → Prop
  | .deleting k x _ _ _ => k = kind ∧ x = key
  | _ => False

/-- The start or install has ensured the key, and is yet to commit its row. -/
def Pc.Holds (kind : Kind) (key : String) (since : ℤ) : Pc → Prop
  | .ensured k _ x at' => k = kind ∧ x = key ∧ at' = since
  | _ => False

/-- All that a step can do to the pools and the rows. -/
inductive Effect (s : Shared) (p : Pc) : Shared → Pc → Prop
  /-- Time may pass; the thread neither gives up a key nor holds one. -/
  | quiet (s' : Shared) (p' : Pc) : s'.pool = s.pool → s'.rows = s.rows → s.now ≤ s'.now →
    (∀ kind key, ¬p'.Condemns kind key) → (∀ kind key since, ¬p'.Holds kind key since) → Effect s p s' p'
  | condemn (kind : Kind) (key : String) (entries : List (String × ℤ)) (live : List String) (cutoff : ℤ) :
    key ∉ s.live kind → Effect s p s (.deleting kind key entries live cutoff)
  | delete (kind : Kind) (key : String) (entries : List (String × ℤ)) (live : List String) (cutoff : ℤ) :
    p = .deleting kind key entries live cutoff → Effect s p (s.delete kind key) (.sweeping kind entries live cutoff)
  | hold (s' : Shared) (kind : Kind) (row : ℕ) (key : String) : s'.pool kind key ≠ none →
    (∀ k x, s.pool k x ≠ none → s'.pool k x ≠ none) → s'.rows = s.rows → s'.now = s.now → Effect s p s' (.ensured kind row key s.now)
  | commit (kind : Kind) (row : ℕ) (key : String) (since : ℤ) : p = .ensured kind row key since →
    s.now < since + GC_SAFETY_WINDOW → Effect s p (s.commit kind row key) (.committed kind row key)

variable {digest : HashAlgorithm → Data → String} {sha256 : Data → String}
  {P : Threads.Config Shared Pc → ℕ × Action Data → Prop} {c d : Threads.Config Shared Pc} {s s' : Shared} {p p' : Pc}
  {a : Action Data} {t u : ℕ} {kind : Kind} {row : ℕ} {key : String} {since cutoff : ℤ}
  {entries : List (String × ℤ)} {live : List String}

/-- The step does not make a pass give up a key that someone holds and may still commit, nor make someone hold a key
that a pass has given up. -/
structure Calm (digest : HashAlgorithm → Data → String) (sha256 : Data → String) (c : Threads.Config Shared Pc)
    (x : ℕ × Action Data) : Prop where
  condemns : ∀ kind key, (post digest sha256 c.shared (c.th x.1) x.2).2.Condemns kind key →
    ∀ u since, (c.th u).Holds kind key since → since + GC_SAFETY_WINDOW ≤ c.shared.now
  holds : ∀ kind key since, (post digest sha256 c.shared (c.th x.1) x.2).2.Holds kind key since →
    ∀ u, ¬(c.th u).Condemns kind key

theorem put_pool (s : Shared) (kind : Kind) (key : String) (refresh : Bool) (k : Kind) (x : String) :
    (s.put kind key refresh).pool k x = s.pool k x ∨
      (k = kind ∧ x = key ∧ (s.put kind key refresh).pool k x = some s.now) := by
  unfold Shared.put
  split_ifs
  · by_cases hk : k = kind
    · by_cases hx : x = key
      · exact .inr ⟨hk, hx, by simp [hk, hx]⟩
      · exact .inl (by simp [hk, hx])
    · exact .inl (by simp [hk])
  · exact .inl rfl

theorem put_present (s : Shared) (kind : Kind) (key : String) (refresh : Bool) :
    (s.put kind key refresh).pool kind key ≠ none := by
  unfold Shared.put
  split_ifs with h
  · simp
  · exact fun hn => h (.inl hn)

theorem put_rows (s : Shared) (kind : Kind) (key : String) (refresh : Bool) :
    (s.put kind key refresh).rows = s.rows ∧ (s.put kind key refresh).now = s.now := by
  unfold Shared.put
  split_ifs <;> exact ⟨rfl, rfl⟩

/-- A key that is put is held. -/
theorem effect_put (s : Shared) (p : Pc) (kind : Kind) (row : ℕ) (key : String) (refresh : Bool) :
    Effect s p (s.put kind key refresh) (.ensured kind row key s.now) := by
  refine .hold _ _ _ _ (put_present s kind key refresh) (fun k x hx => ?_) (put_rows ..).1 (put_rows ..).2
  rcases put_pool s kind key refresh k x with h | ⟨-, -, h⟩
  · rwa [h]
  · rw [h]
    exact Option.some_ne_none _

theorem effect (sha256 : Data → String) (h : pre digest s p a) : Effect s p (post digest sha256 s p a).1 (post digest sha256 s p a).2 := by
  have hstay : ∀ p' : Pc, (∀ kind key, ¬p'.Condemns kind key) → (∀ kind key since, ¬p'.Holds kind key since) →
      Effect s p s p' := fun p' => .quiet s p' rfl rfl (Int.le_refl _)
  cases p <;> cases a <;> first | exact absurd h id | skip
  case idle.tick n =>
    exact .quiet _ _ rfl rfl (Int.le_add_of_nonneg_right (Int.natCast_nonneg n)) (fun _ _ => id) fun _ _ _ => id
  case idle.list => exact hstay _ (fun _ _ => id) fun _ _ _ => id
  case listing.entry kind entries key =>
    simp only [post]
    split <;> exact hstay _ (fun _ _ => id) fun _ _ _ => id
  case listing.live | gathered.clock => exact hstay _ (fun _ _ => id) fun _ _ _ => id
  case sweeping.next kind entries live cutoff =>
    cases entries with
    | nil => exact absurd rfl h
    | cons entry entries =>
      simp only [post]
      split_ifs with hskip
      · exact hstay _ (fun _ _ => id) fun _ _ _ => id
      · exact .condemn _ _ _ _ _ fun hlive => hskip (.inr (.inr hlive))
  case sweeping.finish kind entries live cutoff =>
    subst h
    exact hstay _ (fun _ _ => id) fun _ _ _ => id
  case deleting.delete => exact .delete _ _ _ _ _ rfl
  case idle.ensure row known_key known_source answers refresh =>
    simp only [pre] at h
    simp only [post]
    split at h
    · exact .hold _ _ _ _ h (fun _ _ => id) rfl rfl
    · exact effect_put ..
    · exact absurd h id
  case idle.ingest => exact effect_put ..
  case ensured.commit => exact .commit _ _ _ _ rfl h

/-- What holds along a calm run. -/
structure Inv (c : Threads.Config Shared Pc) : Prop where
  rows : Present c.shared
  held : ∀ u kind key since, (c.th u).Holds kind key since → c.shared.now < since + GC_SAFETY_WINDOW →
    c.shared.pool kind key ≠ none
  condemned : ∀ u kind key, (c.th u).Condemns kind key → key ∉ c.shared.live kind ∧
    ∀ v since, (c.th v).Holds kind key since → since + GC_SAFETY_WINDOW ≤ c.shared.now

theorem mem_commit {k : Kind} {x : String} {r : ℕ} (h : (r, x) ∈ (s.commit kind row key).rows k) :
    k = kind ∧ x = key ∨ (r, x) ∈ s.rows k := by
  by_cases hk : k = kind
  · subst hk
    simp only [Shared.commit, Function.update_self, List.mem_cons, Prod.mk.injEq, List.mem_filter] at h
    rcases h with ⟨-, rfl⟩ | ⟨h, -⟩
    · exact .inl ⟨rfl, rfl⟩
    · exact .inr h
  · exact .inr (by simpa [Shared.commit, hk] using h)

theorem delete_pool {k : Kind} {x : String} :
    (s.delete kind key).pool k x = if k = kind ∧ x = key then none else s.pool k x := by
  by_cases hk : k = kind
  · by_cases hx : x = key <;> simp [Shared.delete, hk, hx]
  · simp [Shared.delete, hk]

/-- Whoever holds a key after the step of `t` has held it before, or is `t`. -/
theorem holds_update {since : ℤ} (h : (Function.update c.th t p' u).Holds kind key since) :
    u = t ∧ p'.Holds kind key since ∨ (c.th u).Holds kind key since := by
  by_cases hu : u = t
  · subst hu
    rw [Function.update_self] at h
    exact .inl ⟨rfl, h⟩
  · rw [Function.update_of_ne hu] at h
    exact .inr h

theorem condemns_update (h : (Function.update c.th t p' u).Condemns kind key) :
    p'.Condemns kind key ∨ (c.th u).Condemns kind key ∧ u ≠ t := by
  by_cases hu : u = t
  · subst hu
    rw [Function.update_self] at h
    exact .inl h
  · rw [Function.update_of_ne hu] at h
    exact .inr ⟨h, hu⟩

theorem Inv.step (hi : Inv c) (he : Effect c.shared (c.th t) s' p')
    (hcondemns : ∀ kind key, p'.Condemns kind key →
      ∀ u since, (c.th u).Holds kind key since → since + GC_SAFETY_WINDOW ≤ c.shared.now)
    (hholds : ∀ kind key since, p'.Holds kind key since → ∀ u, ¬(c.th u).Condemns kind key) :
    Inv ⟨s', Function.update c.th t p'⟩ := by
  have hbefore := hi.condemned
  cases he with
  | quiet _ _ hpool hrows hnow hc hh =>
    refine ⟨fun k r x hx => ?_, fun u k x since hu hlt => ?_, fun u k x hu => ?_⟩
    · rw [hpool]
      exact hi.rows k r x (hrows ▸ hx)
    · rw [hpool]
      rcases holds_update hu with ⟨-, h⟩ | h
      · exact absurd h (hh _ _ _)
      · exact hi.held u k x since h (Int.lt_of_le_of_lt hnow hlt)
    · rcases condemns_update hu with h | ⟨h, -⟩
      · exact absurd h (hc _ _)
      · obtain ⟨hlive, hv⟩ := hi.condemned u k x h
        refine ⟨by rwa [Shared.live, hrows], fun v since hv' => ?_⟩
        rcases holds_update hv' with ⟨-, h'⟩ | h'
        · exact absurd h' (hh _ _ _)
        · exact Int.le_trans (hv v since h') hnow
  | condemn kind key entries live cutoff hlive =>
    have hnot : ∀ k x since, ¬(Pc.deleting kind key entries live cutoff).Holds k x since := fun _ _ _ => id
    refine ⟨hi.rows, fun u k x since hu hlt => ?_, fun u k x hu => ?_⟩
    · rcases holds_update hu with ⟨-, h⟩ | h
      · exact absurd h (hnot _ _ _)
      · exact hi.held u k x since h hlt
    · have hv : ∀ v since, (Function.update c.th t (Pc.deleting kind key entries live cutoff) v).Holds k x since →
          (c.th v).Holds k x since := fun v since hv => (holds_update hv).resolve_left fun h => hnot _ _ _ h.2
      rcases condemns_update hu with h | ⟨h, -⟩
      · obtain ⟨rfl, rfl⟩ := h
        exact ⟨hlive, fun v since h' => hcondemns _ _ ⟨rfl, rfl⟩ v since (hv v since h')⟩
      · obtain ⟨hl, hv'⟩ := hi.condemned u k x h
        exact ⟨hl, fun v since h' => hv' v since (hv v since h')⟩
  | delete kind key entries live cutoff hp =>
    have hnot : ∀ k x since, ¬(Pc.sweeping kind entries live cutoff).Holds k x since := fun _ _ _ => id
    obtain ⟨hlive, hv⟩ := hi.condemned t kind key (by rw [hp]; exact ⟨rfl, rfl⟩)
    refine ⟨fun k r x hx => ?_, fun u k x since hu hlt => ?_, fun u k x hu => ?_⟩
    · rw [delete_pool, if_neg]
      · exact hi.rows k r x hx
      · rintro ⟨rfl, rfl⟩
        exact hlive (List.mem_map_of_mem (f := (·.2)) hx)
    · rcases holds_update hu with ⟨-, h⟩ | h
      · exact absurd h (hnot _ _ _)
      · rw [delete_pool, if_neg]
        · exact hi.held u k x since h hlt
        · rintro ⟨rfl, rfl⟩
          exact absurd hlt (Int.not_lt.mpr (hv u since h))
    · rcases condemns_update hu with h | ⟨h, -⟩
      · exact absurd h id
      · obtain ⟨hl, hv'⟩ := hi.condemned u k x h
        exact ⟨hl, fun v since h' => hv' v since ((holds_update h').resolve_left fun h => hnot _ _ _ h.2)⟩
  | hold _ kind row key hpresent hgrow hrows hnow =>
    refine ⟨fun k r x hx => hgrow k x (hi.rows k r x (hrows ▸ hx)), fun u k x since hu hlt => ?_, fun u k x hu => ?_⟩
    · rcases holds_update hu with ⟨-, rfl, rfl, -⟩ | h
      · exact hpresent
      · exact hgrow k x (hi.held u k x since h (hnow ▸ hlt))
    · rcases condemns_update hu with h | ⟨h, -⟩
      · exact absurd h id
      · obtain ⟨hl, hv⟩ := hi.condemned u k x h
        refine ⟨by rwa [Shared.live, hrows], fun v since hv' => ?_⟩
        rcases holds_update hv' with ⟨-, h'⟩ | h'
        · exact absurd h (hholds k x since h' u)
        · rw [hnow]
          exact hv v since h'
  | commit kind row key since hp hlt =>
    have hself : (c.th t).Holds kind key since := by rw [hp]; exact ⟨rfl, rfl, rfl⟩
    have hnot : ∀ k x since, ¬(Pc.committed kind row key).Holds k x since := fun _ _ _ => id
    refine ⟨fun k r x hx => ?_, fun u k x since' hu hlt' => ?_, fun u k x hu => ?_⟩
    · rcases mem_commit hx with ⟨rfl, rfl⟩ | hx
      · exact hi.held t _ _ since hself hlt
      · exact hi.rows k r x hx
    · rcases holds_update hu with ⟨-, h⟩ | h
      · exact absurd h (hnot _ _ _)
      · exact hi.held u k x since' h hlt'
    · rcases condemns_update hu with h | ⟨h, -⟩
      · exact absurd h id
      · obtain ⟨hl, hv⟩ := hi.condemned u k x h
        refine ⟨fun hx => ?_, fun v since' h' => hv v since' ((holds_update h').resolve_left fun h => hnot _ _ _ h.2)⟩
        obtain ⟨⟨r, x'⟩, hmem, rfl⟩ := List.mem_map.mp hx
        rcases mem_commit hmem with ⟨rfl, rfl⟩ | hmem
        · exact absurd hlt (Int.not_lt.mpr (hv t since hself))
        · exact hl (List.mem_map_of_mem (f := (·.2)) hmem)

/-- **In a calm run every committed row's blob stays in the pool.** -/
theorem rows_present (h0 : Present c.shared) (hidle : ∀ t, c.th t = .idle)
    (h : (threads digest sha256).machine.Reach (Calm digest sha256) c d) : Present d.shared := by
  refine (h.invariant (I := Inv) ⟨h0, fun u kind key since hu => ?_, fun u kind key hu => ?_⟩ ?_).rows
  · rw [hidle] at hu
    exact absurd hu id
  · rw [hidle] at hu
    exact absurd hu id
  · exact fun e x hi hpre hcalm => hi.step (effect sha256 hpre) hcalm.condemns hcalm.holds

/-! ## The safety window -/

/-- The pass has the key among the entries it still looks at. -/
def Pc.Lists (kind : Kind) (key : String) (modified_at : ℤ) : Pc → Prop
  | .listing k entries | .gathered k entries _ | .sweeping k entries _ _ | .deleting k _ entries _ _ =>
    k = kind ∧ (key, modified_at) ∈ entries
  | _ => False

def Pc.limit : Pc → Option ℤ
  | .sweeping _ _ _ cutoff | .deleting _ _ _ _ cutoff => some cutoff
  | _ => none

/-- A key is ensured only by putting its blob anew, while no pass has listed it. -/
structure Fresh (digest : HashAlgorithm → Data → String) (sha256 : Data → String) (c : Threads.Config Shared Pc)
    (x : ℕ × Action Data) : Prop where
  anew : ∀ kind key since, (post digest sha256 c.shared (c.th x.1) x.2).2.Holds kind key since →
    (post digest sha256 c.shared (c.th x.1) x.2).1.pool kind key = some c.shared.now
  unlisted : ∀ kind key since, (post digest sha256 c.shared (c.th x.1) x.2).2.Holds kind key since →
    ∀ u, ¬(c.th u).Condemns kind key ∧ ∀ modified_at, ¬(c.th u).Lists kind key modified_at

/-- Whatever a pass may know of a held key is no older than the hold. -/
structure Window (c : Threads.Config Shared Pc) : Prop where
  since_le : ∀ u kind key since, (c.th u).Holds kind key since → since ≤ c.shared.now
  listed : ∀ u kind key since, (c.th u).Holds kind key since →
    ∀ v modified_at, (c.th v).Lists kind key modified_at → since ≤ modified_at
  pool : ∀ u kind key since, (c.th u).Holds kind key since →
    ∀ modified_at, c.shared.pool kind key = some modified_at → since ≤ modified_at
  cutoff : ∀ u cutoff, (c.th u).limit = some cutoff → cutoff + GC_SAFETY_WINDOW ≤ c.shared.now

variable {modified_at : ℤ}

theorem now_post (sha256 : Data → String) (h : pre digest s p a) : s.now ≤ (post digest sha256 s p a).1.now := by
  have he := effect sha256 h
  generalize (post digest sha256 s p a).1 = s' at he ⊢
  generalize (post digest sha256 s p a).2 = p' at he
  cases he with
  | quiet _ _ _ _ hnow => exact hnow
  | condemn | delete | commit => exact Int.le_refl _
  | hold _ _ _ _ _ _ _ hnow => exact Int.le_of_eq hnow.symm

theorem holds_post (h : pre digest s p a) (hh : (post digest sha256 s p a).2.Holds kind key since) :
    since = s.now := by
  have he := effect sha256 h
  generalize (post digest sha256 s p a).1 = s' at he
  generalize (post digest sha256 s p a).2 = p' at he hh
  cases he with
  | quiet _ _ _ _ _ _ hnot => exact absurd hh (hnot _ _ _)
  | condemn | delete | commit => exact absurd hh id
  | hold => exact hh.2.2.symm

theorem pool_post (h : pre digest s p a) (hm : (post digest sha256 s p a).1.pool kind key = some modified_at) :
    s.pool kind key = some modified_at ∨ modified_at = s.now := by
  have hput : ∀ k x refresh, (s.put k x refresh).pool kind key = some modified_at →
      s.pool kind key = some modified_at ∨ modified_at = s.now := fun k x refresh hm => by
    rcases put_pool s k x refresh kind key with h | ⟨-, -, h⟩
    · exact .inl (h ▸ hm)
    · rw [h, Option.some.injEq] at hm
      exact .inr hm.symm
  cases p <;> cases a <;> first | exact absurd h id | exact .inl hm | skip
  case listing.entry =>
    simp only [post] at hm
    split at hm <;> exact .inl hm
  case sweeping.next kind entries live cutoff =>
    cases entries with
    | nil => exact absurd rfl h
    | cons entry entries =>
      simp only [post] at hm
      split_ifs at hm <;> exact .inl hm
  case sweeping.finish =>
    subst h
    exact .inl hm
  case deleting.delete =>
    simp only [post, delete_pool] at hm
    split_ifs at hm
    exact .inl hm
  case idle.ensure row known_key known_source answers refresh =>
    simp only [post] at hm
    split at hm
    · exact .inl hm
    · exact hput _ _ _ hm
    · exact .inl hm
  case idle.ingest => exact hput _ _ _ hm

theorem lists_post (h : pre digest s p a) (hl : (post digest sha256 s p a).2.Lists kind key modified_at) :
    p.Lists kind key modified_at ∨ s.pool kind key = some modified_at := by
  cases p <;> cases a <;> first | exact absurd h id | exact .inl hl | skip
  case idle.list => simp [post, Pc.Lists] at hl
  case idle.ensure row known_key known_source answers refresh =>
    simp only [post] at hl
    split at hl <;> exact absurd hl id
  case listing.entry kind' entries key' =>
    simp only [post] at hl
    split at hl
    next hpool =>
      obtain ⟨rfl, hmem⟩ := hl
      rcases List.mem_append.mp hmem with hmem | hmem
      · exact .inl ⟨rfl, hmem⟩
      · simp only [List.mem_singleton, Prod.mk.injEq] at hmem
        obtain ⟨rfl, rfl⟩ := hmem
        exact .inr hpool
    next => exact .inl hl
  case sweeping.next kind' entries live cutoff =>
    cases entries with
    | nil => exact absurd rfl h
    | cons entry entries =>
      simp only [post] at hl
      split_ifs at hl <;> exact .inl ⟨hl.1, List.mem_cons_of_mem _ hl.2⟩
  case sweeping.finish =>
    subst h
    exact absurd hl id

theorem limit_post {limit : ℤ} (h : pre digest s p a) (hl : (post digest sha256 s p a).2.limit = some limit) :
    p.limit = some limit ∨ limit = s.now - GC_SAFETY_WINDOW := by
  cases p <;> cases a <;> first | exact absurd h id | exact .inl hl | skip
  case idle.ensure row known_key known_source answers refresh =>
    simp only [post] at hl
    split at hl <;> cases hl
  case listing.entry =>
    simp only [post] at hl
    split at hl <;> cases hl
  case gathered.clock => exact .inr (Option.some.inj hl).symm
  case sweeping.next kind' entries live cutoff =>
    cases entries with
    | nil => exact absurd rfl h
    | cons entry entries =>
      simp only [post] at hl
      split_ifs at hl <;> exact .inl hl
  case sweeping.finish =>
    subst h
    cases hl

theorem not_lists_of_holds (h : p.Holds kind key since) {k : Kind} {x : String} :
    ¬p.Lists k x modified_at ∧ p.limit = none := by
  cases p <;> first | exact absurd h id | exact ⟨id, rfl⟩

theorem Window.step (hw : Window c) (h : pre digest c.shared (c.th t) a) (hf : Fresh digest sha256 c (t, a)) :
    Window ((threads digest sha256).step c t a) := by
  have hnow := now_post sha256 h
  -- Who holds a key afterwards has put it just now, or has held it before.
  have hholds : ∀ u kind key since, (((threads digest sha256).step c t a).th u).Holds kind key since →
      u = t ∧ since = c.shared.now ∧ (post digest sha256 c.shared (c.th t) a).2.Holds kind key since ∨
        (c.th u).Holds kind key since := fun u kind key since hu => by
    rcases holds_update hu with ⟨hut, hp⟩ | hu
    · exact .inl ⟨hut, holds_post h hp, hp⟩
    · exact .inr hu
  refine ⟨fun u kind key since hu => ?_, fun u kind key since hu v m hm => ?_, fun u kind key since hu m hm => ?_,
    fun u limit hl => ?_⟩
  · rcases hholds u kind key since hu with ⟨-, hs, -⟩ | hu
    · rw [hs]
      exact hnow
    · exact Int.le_trans (hw.since_le u kind key since hu) hnow
  · rcases hholds u kind key since hu with ⟨rfl, -, hp⟩ | hu'
    · by_cases hv : v = u
      · subst hv
        exact absurd hm (not_lists_of_holds hu).1
      · rw [Threads.step_ne hv] at hm
        exact absurd hm ((hf.unlisted kind key since hp v).2 m)
    · by_cases hv : v = t
      · subst hv
        rw [Threads.step_self] at hm
        rcases lists_post h hm with hm | hm
        · exact hw.listed u kind key since hu' _ m hm
        · exact hw.pool u kind key since hu' m hm
      · rw [Threads.step_ne hv] at hm
        exact hw.listed u kind key since hu' v m hm
  · rcases hholds u kind key since hu with ⟨-, hs, hp⟩ | hu
    · have hanew := hf.anew kind key since hp
      change (post digest sha256 c.shared (c.th t) a).1.pool kind key = some m at hm
      rw [hanew, Option.some.injEq] at hm
      exact Int.le_of_eq (hs.trans hm)
    · rcases pool_post h hm with hm | hm
      · exact hw.pool u kind key since hu m hm
      · rw [hm]
        exact hw.since_le u kind key since hu
  · by_cases hu : u = t
    · subst hu
      rw [Threads.step_self] at hl
      rcases limit_post h hl with hl | hl
      · exact Int.le_trans (hw.cutoff u limit hl) hnow
      · rw [hl, Int.sub_add_cancel]
        exact hnow
    · rw [Threads.step_ne hu] at hl
      exact Int.le_trans (hw.cutoff u limit hl) hnow

/-- A pass gives up only what is older than its limit. -/
theorem condemns_post (h : pre digest s p a) (hc : (post digest sha256 s p a).2.Condemns kind key) :
    ∃ limit modified_at, p.limit = some limit ∧ p.Lists kind key modified_at ∧ modified_at ≤ limit := by
  cases p <;> cases a <;> first | exact absurd h id | exact absurd hc id | skip
  case idle.ensure row known_key known_source answers refresh =>
    simp only [post] at hc
    split at hc <;> exact absurd hc id
  case listing.entry =>
    simp only [post] at hc
    split at hc <;> exact absurd hc id
  case sweeping.next kind' entries live cutoff =>
    cases entries with
    | nil => exact absurd rfl h
    | cons entry entries =>
      simp only [post] at hc
      split_ifs at hc with hskip
      · exact absurd hc id
      · obtain ⟨rfl, rfl⟩ := hc
        exact ⟨cutoff, entry.2, rfl, ⟨rfl, List.mem_cons_self⟩, Int.not_lt.mp fun hlt => hskip (.inr (.inl hlt))⟩
  case sweeping.finish =>
    subst h
    exact absurd hc id

theorem Window.calm (hw : Window c) (h : pre digest c.shared (c.th t) a) (hf : Fresh digest sha256 c (t, a)) :
    Calm digest sha256 c (t, a) := by
  refine ⟨fun kind key hc u since hu => ?_, fun kind key since hp u => (hf.unlisted kind key since hp u).1⟩
  obtain ⟨limit, modified_at, hlimit, hlists, hle⟩ := condemns_post h hc
  calc since + GC_SAFETY_WINDOW ≤ modified_at + GC_SAFETY_WINDOW :=
        Int.add_le_add_right (hw.listed u kind key since hu t modified_at hlists) _
    _ ≤ limit + GC_SAFETY_WINDOW := Int.add_le_add_right hle _
    _ ≤ c.shared.now := hw.cutoff t limit hlimit

/-- **The safety window makes calm what is put anew.** -/
theorem calm_of_fresh (hidle : ∀ t, c.th t = .idle)
    (h : (threads digest sha256).machine.Reach (Fresh digest sha256) c d) :
    (threads digest sha256).machine.Reach (Calm digest sha256) c d := by
  have hstart : Window c := by
    constructor <;> simp [hidle, Pc.Holds, Pc.limit]
  have hwindow : ∀ e, (threads digest sha256).machine.Reach (Fresh digest sha256) c e → Window e := fun e he =>
    he.invariant (I := Window) hstart fun e x hw hpre hf => hw.step hpre hf
  induction h with
  | refl => exact .refl
  | step x hr hpre hf ih => exact ih.step x hpre ((hwindow _ hr).calm hpre hf)

/-! ## A re-used blob is lost -/

/-- An old blob that no row references. -/
def orphaned : Threads.Config Shared Pc where
  shared := ⟨7200, fun kind key => if kind = .plugin ∧ key = "jar" then some 0 else none, fun _ => []⟩
  th _ := .idle

/-- An install re-uses an old blob, a pass finds it unreferenced and deletes it, and the row is committed. -/
theorem install_loses_blob : ¬ ∀ c, (threads (fun _ _ => "") id).machine.Reach Machine.Any orphaned c →
    (∀ t, c.th t = .idle ∨ c.th t = .swept ∨ ∃ kind row key, c.th t = .committed kind row key) → Present c.shared := by
  intro hpresent
  have h0 : (threads (fun _ _ => "") id).machine.Reach Machine.Any orphaned orphaned := .refl
  have h1 := h0.step (0, Action.ingest 5 "jar" false) trivial trivial
  have h2 := h1.step (1, Action.list .plugin) trivial trivial
  have h3 := h2.step (1, Action.entry "jar") (Option.some_ne_none 0) trivial
  have h4 := h3.step (1, Action.live) trivial trivial
  have h5 := h4.step (1, Action.clock) trivial trivial
  have h6 := h5.step (1, Action.next) (List.cons_ne_nil _ _) trivial
  have h7 := h6.step (1, Action.delete) trivial trivial
  have h8 := h7.step (0, Action.commit) (show (7200 : ℤ) < 7200 + GC_SAFETY_WINDOW by decide) trivial
  have h9 := h8.step (1, Action.finish) rfl trivial
  refine hpresent _ h9 (fun t => ?_) .plugin 5 "jar" List.mem_cons_self rfl
  match t with
  | 0 => exact .inr (.inr ⟨.plugin, 5, "jar", rfl⟩)
  | 1 => exact .inr (.inl rfl)
  | t + 2 => exact .inl rfl

/-- A pass deletes the old blob, and an install puts it anew and commits its row. -/
theorem rows_present_again : ∃ c : Threads.Config Shared Pc,
    (threads (fun _ _ => "") id).machine.Reach (Calm (fun _ _ => "") id) orphaned c ∧ c.shared.rows .plugin = [(5, "jar")] ∧ Present c.shared := by
  have h0 : (threads (fun _ _ => "") id).machine.Reach (Calm (fun _ _ => "") id) orphaned orphaned := .refl
  have h1 := h0.step (1, Action.list .plugin) trivial ⟨fun _ _ h => h.elim, fun _ _ _ h => h.elim⟩
  have h2 := h1.step (1, Action.entry "jar") (Option.some_ne_none 0) ⟨fun _ _ h => h.elim, fun _ _ _ h => h.elim⟩
  have h3 := h2.step (1, Action.live) trivial ⟨fun _ _ h => h.elim, fun _ _ _ h => h.elim⟩
  have h4 := h3.step (1, Action.clock) trivial ⟨fun _ _ h => h.elim, fun _ _ _ h => h.elim⟩
  have h5 := h4.step (1, Action.next) (List.cons_ne_nil _ _) ⟨fun _ _ _ u _ hu => (match u with
    | 0 => hu.elim
    | 1 => hu.elim
    | u + 2 => hu.elim), fun _ _ _ h => h.elim⟩
  have h6 := h5.step (1, Action.delete) trivial ⟨fun _ _ h => h.elim, fun _ _ _ h => h.elim⟩
  have h7 := h6.step (0, Action.ingest 5 "jar" false) trivial ⟨fun _ _ h => h.elim, fun _ _ _ _ u hu => (match u with
    | 0 => hu.elim
    | 1 => hu.elim
    | u + 2 => hu.elim)⟩
  have h8 := h7.step (0, Action.commit) (show (7200 : ℤ) < 7200 + GC_SAFETY_WINDOW by decide)
    ⟨fun _ _ h => h.elim, fun _ _ _ h => h.elim⟩
  exact ⟨_, h8, rfl, rows_present (fun _ _ _ h => absurd h List.not_mem_nil) (fun _ => rfl) h8⟩

end McServerDashboard.Storage.ContentPools
