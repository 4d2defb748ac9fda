import McServerDashboard.Lib.BreadthFirst
import McServerDashboard.Lib.Writes
import McServerDashboard.Plugins.Resolution

/-!
# The walk over the dependencies

* `Selectable`: a selection raises no `ValueError`; **`select_isSome`**: exactly then.
* `Asks`, `AtMost`: the requests for one dependency.
* `Settles`, **`visit_cases`**: what a turn of the walk does.
* `Walking`: the walk between two dependencies; **`Walking.visit`**, **`walking_rounds`**.
-/

namespace McServerDashboard.Plugins

open Lib Lib.BreadthFirst Properties

variable {σ : Type*} {catalog : Catalog σ} {dialect : Str} {plugins : List ServerPlugin}

/-! ## Selections -/

/-- At most one candidate, or all version numbers have components. -/
def Selectable (dialect : Str) (selection : Str × List CatalogVersion) : Prop :=
  (candidates selection.1 dialect selection.2).length ≤ 1 ∨
    ∀ v ∈ candidates selection.1 dialect selection.2, (components v.versionNumber).isSome

instance : DecidablePred (Selectable dialect) := fun _ => inferInstanceAs (Decidable (_ ∨ _))

theorem newer_isSome {v best : CatalogVersion} :
    (newer v best).isSome ↔ (components v.versionNumber).isSome ∧ (components best.versionNumber).isSome := by
  rw [newer, Option.isSome_map, compareVersions]
  cases components v.versionNumber with
  | none => simp
  | some x => cases components best.versionNumber <;> simp

/-- The scan for the newest compares each of the versions. -/
theorem newest_isSome {vs : List CatalogVersion} {best : CatalogVersion} :
    (vs.foldlM (fun best v => do return if ← newer v best then v else best) best : Option CatalogVersion).isSome ↔
      vs = [] ∨ ∀ v ∈ best :: vs, (components v.versionNumber).isSome := by
  induction vs generalizing best with
  | nil => simp
  | cons v vs ih =>
    rw [List.foldlM_cons]
    cases hn : newer v best with
    | none =>
      have hnot := mt newer_isSome.mpr (by rw [hn]; exact Bool.false_ne_true)
      simp only [Option.bind_eq_bind, Option.bind_none, Option.isSome_none, Bool.false_eq_true, List.cons_ne_nil,
        false_or, false_iff]
      exact fun h => hnot ⟨h v (by simp), h best (by simp)⟩
    | some b =>
      obtain ⟨hv, hbest⟩ := newer_isSome.mp (by rw [hn]; rfl)
      have hkept : (components (if b then v else best).versionNumber).isSome := by
        cases b
        · exact hbest
        · exact hv
      change (vs.foldlM _ (if b then v else best) : Option CatalogVersion).isSome ↔ _
      rw [ih]
      simp only [List.forall_mem_cons, List.cons_ne_nil, false_or]
      constructor
      · rintro (rfl | ⟨-, h⟩)
        · exact ⟨hbest, hv, fun _ h => by cases h⟩
        · exact ⟨hbest, hv, h⟩
      · exact fun h => .inr ⟨hkept, h.2.2⟩

/-- **A selection raises** only where two or more candidates are compared, and one of them has no components. -/
theorem select_isSome {range : Str} {versions : List CatalogVersion} :
    (selectImportVersion range dialect versions).isSome ↔ Selectable dialect (range, versions) := by
  rw [selectImportVersion, Selectable]
  simp only
  cases hc : candidates range dialect versions with
  | nil => simp
  | cons v vs =>
    simp only [Option.isSome_map, newest_isSome, List.length_cons]
    constructor
    · rintro (rfl | h)
      · exact .inl (Nat.le_refl _)
      · exact .inr h
    · rintro (h | h)
      · exact .inl (List.length_eq_zero_iff.mp (by omega))
      · exact .inr h

/-! ## Requests -/

def Request.isListing : Request → Bool
  | .listVersions _ => true
  | _ => false

def Request.isLookup : Request → Bool
  | .getProject _ => true
  | _ => false

def Request.isSearch : Request → Bool
  | .search _ => true
  | _ => false

/-- The requests that were made for the identifier. -/
def Walk.requestsFor (w : Walk σ) (id : Str) : List Request := (w.requests.filter (·.1 = id)).map Prod.snd

/-- The requests `rs` for `id` come between `w` and `w'`, and nothing else but selections. -/
structure Asks (w w' : Walk σ) (id : Str) (rs : List Request) (selections : List (Str × List CatalogVersion)) :
    Prop where
  entries : w'.entries = w.entries
  visited : w'.visited = w.visited
  requirers : w'.requirers = w.requirers
  incompatible : w'.incompatible = w.incompatible
  imports : w'.imports = w.imports
  requests : w'.requests = w.requests ++ rs.map fun r => (id, r)
  selections : w'.selections = w.selections ++ selections

variable {w w' w'' : Walk σ} {id : Str} {rs rs' : List Request} {dep : FrontierDep} {will : WillImport}
  {sels sels' : List (Str × List CatalogVersion)}

theorem Asks.refl : Asks w w id [] [] :=
  ⟨rfl, rfl, rfl, rfl, rfl, (List.append_nil _).symm, (List.append_nil _).symm⟩

theorem Asks.trans (h : Asks w w' id rs sels) (h' : Asks w' w'' id rs' sels') :
    Asks w w'' id (rs ++ rs') (sels ++ sels') where
  entries := h'.entries.trans h.entries
  visited := h'.visited.trans h.visited
  requirers := h'.requirers.trans h.requirers
  incompatible := h'.incompatible.trans h.incompatible
  imports := h'.imports.trans h.imports
  requests := by rw [h'.requests, h.requests, List.map_append, List.append_assoc]
  selections := by rw [h'.selections, h.selections, List.append_assoc]

theorem asks_ask {α : Type*} {r : Request} {f : σ → σ × α} {a : α} (h : w.ask id r f = (w', a)) :
    Asks w w' id [r] [] := by
  cases h
  exact ⟨rfl, rfl, rfl, rfl, rfl, rfl, (List.append_nil _).symm⟩

/-- At most `k` listings, one lookup and one search. -/
structure AtMost (k : ℕ) (rs : List Request) : Prop where
  listings : rs.countP Request.isListing ≤ k
  lookups : rs.countP Request.isLookup ≤ 1
  searches : rs.countP Request.isSearch ≤ 1

theorem AtMost.list {k : ℕ} (h : AtMost k rs) (pid : Str) : AtMost (k + 1) (rs ++ [Request.listVersions pid]) where
  listings := by
    rw [List.countP_append]
    exact Nat.add_le_add_right h.listings 1
  lookups := by
    rw [List.countP_append]
    exact h.lookups
  searches := by
    rw [List.countP_append]
    exact h.searches

/-- A project is looked up once, perhaps after a search. -/
theorem locateProject_asks {project : Option CatalogProject} (h : locateProject catalog dep w = (w', project)) :
    ∃ rs, Asks w w' dep.identifier rs [] ∧ AtMost 0 rs := by
  unfold locateProject at h
  split at h
  · exact ⟨_, asks_ask h, Nat.zero_le 0, Nat.le_refl 1, Nat.zero_le 1⟩
  · split at h
    · next w1 hsearch =>
      cases h
      exact ⟨_, asks_ask hsearch, Nat.zero_le 0, Nat.zero_le 1, Nat.le_refl 1⟩
    · next w1 hits hsearch =>
      split at h
      · cases h
        exact ⟨_, asks_ask hsearch, Nat.zero_le 0, Nat.zero_le 1, Nat.le_refl 1⟩
      · exact ⟨_, (asks_ask hsearch).trans (asks_ask h), Nat.zero_le 0, Nat.le_refl 1, Nat.le_refl 1⟩

theorem Asks.select (h : Asks w w' id rs []) (sel : Str × List CatalogVersion) :
    Asks w { w' with selections := w'.selections ++ [sel] } id rs [sel] :=
  ⟨h.entries, h.visited, h.requirers, h.incompatible, h.imports, h.requests, by rw [h.selections, List.append_nil]⟩

/-- A dependency is resolved by one lookup and one listing; what is selected from can be selected from. -/
theorem resolveWillImport_asks {found : Option WillImport}
    (h : resolveWillImport catalog dialect dep w = .ok (w', found)) :
    ∃ rs sels, Asks w w' dep.identifier rs sels ∧ AtMost 1 rs ∧ ∀ sel ∈ sels, Selectable dialect sel := by
  unfold resolveWillImport at h
  split at h
  · next w1 hlocate =>
    cases h
    obtain ⟨rs, hasks, hmost⟩ := locateProject_asks hlocate
    exact ⟨rs, [], hasks, ⟨hmost.listings.trans (Nat.zero_le 1), hmost.lookups, hmost.searches⟩, fun _ h => by cases h⟩
  · next w1 project hlocate =>
    obtain ⟨rs, hasks, hmost⟩ := locateProject_asks hlocate
    split at h
    · next w2 hlist =>
      cases h
      exact ⟨_, [], hasks.trans (asks_ask hlist), hmost.list _, fun _ h => by cases h⟩
    · next w2 versions hlist =>
      have hasks2 := (hasks.trans (asks_ask hlist)).select (dep.versionRange, versions)
      have hselect : ∀ {r : Option CatalogVersion}, selectImportVersion dep.versionRange dialect versions = some r →
          ∀ sel ∈ [(dep.versionRange, versions)], Selectable dialect sel := by
        intro r hr sel hsel
        rw [List.mem_singleton.mp hsel]
        exact select_isSome.mp (Option.isSome_of_eq_some hr)
      simp only at h
      split at h
      · cases h
      · next hnone =>
        cases h
        exact ⟨_, _, hasks2, hmost.list _, hselect hnone⟩
      · next v hsome =>
        cases h
        exact ⟨_, _, hasks2, hmost.list _, hselect hsome⟩

/-- A listing that the catalog may answer. -/
def Catalog.Lists (catalog : Catalog σ) (versions : List CatalogVersion) : Prop :=
  ∃ id s, (catalog.listVersions id s).2 = some versions

/-- It raises at a selection from a listing. -/
theorem resolveWillImport_raises (h : resolveWillImport catalog dialect dep w = .error w') :
    ∃ sel ∈ w'.selections, ¬ Selectable dialect sel ∧ catalog.Lists sel.2 := by
  unfold resolveWillImport at h
  split at h
  · cases h
  · split at h
    · cases h
    · next w2 versions hlist =>
      simp only at h
      split at h
      · next hnone =>
        cases h
        refine ⟨(dep.versionRange, versions), List.mem_append_right _ List.mem_cons_self, fun hsel => ?_,
          _, _, congrArg Prod.snd hlist⟩
        have := select_isSome.mpr hsel
        rw [hnone] at this
        cases this
      · cases h
      · cases h

/-- The requirements of an import are listed once more, and stand one level below it. -/
theorem frontierFromWillImport_asks {depth : ℕ} {child : List FrontierDep} {edges : List (Str × Str)}
    (h : frontierFromWillImport catalog id will depth w = (w', child, edges)) :
    Asks w w' id [.listVersions will.projectId] [] ∧ ∀ d ∈ child, d.depth = depth ∧ d.requiredBy = some will.slug := by
  unfold frontierFromWillImport at h
  split at h
  · next w1 hlist =>
    cases h
    exact ⟨asks_ask hlist, fun d hd => by cases hd⟩
  · next w1 versions hlist =>
    split at h
    · cases h
      exact ⟨asks_ask hlist, fun d hd => by cases hd⟩
    · next v hfind =>
      cases h
      refine ⟨asks_ask hlist, fun d hd => ?_⟩
      obtain ⟨x, -, rfl⟩ := List.mem_map.mp hd
      exact ⟨rfl, rfl⟩

/-! ## A turn of the walk -/

/-- A new entry: what it is, the requests for it, and what it queues. -/
structure Settles (dialect : Str) (plugins : List ServerPlugin) (dep : FrontierDep) (w w' : Walk σ)
    (status : ResolutionStatus) (found : Option WillImport) (child : List FrontierDep) (edges : List (Str × Str)) :
    Prop where
  entries : w'.entries = w.entries ++ [⟨dep.identifier, dep.versionRange, status, found, dep.depth, dep.requiredBy, false⟩]
  visited : w'.visited = dep.identifier :: w.visited
  requirers : w'.requirers = (w.addRequirer dep).requirers
  incompatible : w'.incompatible = w.incompatible ++ edges
  imports : w'.imports = w.imports ++ child.map fun d => (dep.identifier, d.identifier)
  requests : ∃ rs, AtMost 2 rs ∧ w'.requests = w.requests ++ rs.map fun r => (dep.identifier, r)
  selections : ∃ sels, (∀ sel ∈ sels, Selectable dialect sel) ∧ w'.selections = w.selections ++ sels
  expanded : ∀ d ∈ child, dep.depth < maxResolutionDepth ∧ d.depth = dep.depth + 1 ∧ status = .needsImport ∧
    ∃ will, found = some will ∧ d.requiredBy = some will.slug
  found : found.isSome ↔ status = .needsImport
  satisfied : status = .alreadySatisfied ↔ satisfied dialect plugins dep = true

variable {next next' : List FrontierDep}

/-- The walk as the dependency is classified. -/
def Walk.enter (w : Walk σ) (dep : FrontierDep) : Walk σ :=
  { w.addRequirer dep with visited := dep.identifier :: w.visited }

theorem visit_eq : visit catalog dialect plugins (w, next) dep =
    if dep.identifier ∈ w.visited then .ok (w.addRequirer dep, next)
    else if satisfied dialect plugins dep then .ok ((w.enter dep).addEntry dep .alreadySatisfied none, next)
    else if maxResolutionDepth ≤ dep.depth then .ok ((w.enter dep).addEntry dep .depthExceeded none, next)
    else
      match resolveWillImport catalog dialect dep (w.enter dep) with
      | .error w => .error w
      | .ok (w, none) => .ok (w.addEntry dep .unresolvable none, next)
      | .ok (w, some will) => .ok (expand catalog dep will w next) := rfl

/-- An entry without an import queues nothing. -/
theorem settles_of_asks {rs : List Request} {sels : List (Str × List CatalogVersion)} {w1 : Walk σ}
    {status : ResolutionStatus} (hasks : Asks (w.enter dep) w1 dep.identifier rs sels) (hmost : AtMost 1 rs)
    (hselectable : ∀ sel ∈ sels, Selectable dialect sel) (hstatus : status ≠ .needsImport)
    (hsat : status = .alreadySatisfied ↔ satisfied dialect plugins dep = true) :
    Settles dialect plugins dep w (w1.addEntry dep status none) status none [] [] where
  entries := congrArg (· ++ _) hasks.entries
  visited := hasks.visited
  requirers := hasks.requirers
  incompatible := hasks.incompatible.trans (List.append_nil _).symm
  imports := hasks.imports.trans (List.append_nil _).symm
  requests := ⟨rs, ⟨hmost.listings.trans (by omega), hmost.lookups, hmost.searches⟩, hasks.requests⟩
  selections := ⟨sels, hselectable, hasks.selections⟩
  expanded d hd := by cases hd
  found := iff_of_false Bool.false_ne_true hstatus
  satisfied := hsat

theorem settles_of_expand {rs : List Request} {sels : List (Str × List CatalogVersion)} {w1 : Walk σ}
    (hasks : Asks (w.enter dep) w1 dep.identifier rs sels) (hmost : AtMost 1 rs)
    (hselectable : ∀ sel ∈ sels, Selectable dialect sel) (hsat : ¬ satisfied dialect plugins dep = true)
    (hdepth : dep.depth < maxResolutionDepth) (h : expand catalog dep will w1 next = (w', next')) :
    ∃ child edges, Settles dialect plugins dep w w' .needsImport (some will) child edges ∧ next' = next ++ child := by
  unfold expand at h
  split at h
  next w2 child edges hfrontier =>
  obtain ⟨rfl, rfl⟩ := Prod.mk.inj h
  obtain ⟨hasks2, hchild⟩ := frontierFromWillImport_asks hfrontier
  have hall := hasks.requests
  refine ⟨child, edges, ?_, rfl⟩
  exact {
    entries := hasks2.entries.trans (congrArg (· ++ _) hasks.entries)
    visited := hasks2.visited.trans hasks.visited
    requirers := hasks2.requirers.trans hasks.requirers
    incompatible := congrArg (· ++ edges) (hasks2.incompatible.trans hasks.incompatible)
    imports := congrArg (· ++ _) (hasks2.imports.trans hasks.imports)
    requests := ⟨_, hmost.list will.projectId, by
      refine hasks2.requests.trans ?_
      rw [List.map_append, ← List.append_assoc]
      exact congrArg (· ++ _) hasks.requests⟩
    selections := ⟨sels, hselectable, hasks2.selections.trans ((List.append_nil _).trans hasks.selections)⟩
    expanded := fun d hd => ⟨hdepth, (hchild d hd).1, rfl, will, rfl, (hchild d hd).2⟩
    found := iff_of_true rfl rfl
    satisfied := iff_of_false (fun h => by cases h) hsat }

/-- **What a turn can do**: pass over a dependency that is known, or settle a new one. -/
theorem visit_cases (h : visit catalog dialect plugins (w, next) dep = .ok (w', next')) :
    (dep.identifier ∈ w.visited ∧ w' = w.addRequirer dep ∧ next' = next) ∨
      (dep.identifier ∉ w.visited ∧ ∃ status found child edges,
        Settles dialect plugins dep w w' status found child edges ∧ next' = next ++ child) := by
  rw [visit_eq] at h
  split_ifs at h with hvisited hsat hdepth
  · cases h
    exact .inl ⟨hvisited, rfl, rfl⟩
  · cases h
    exact .inr ⟨hvisited, .alreadySatisfied, none, [], [], settles_of_asks .refl
      ⟨Nat.zero_le _, Nat.zero_le _, Nat.zero_le _⟩ (fun _ h => by cases h) (fun h => by cases h) (iff_of_true rfl hsat),
      (List.append_nil _).symm⟩
  · cases h
    exact .inr ⟨hvisited, .depthExceeded, none, [], [], settles_of_asks .refl
      ⟨Nat.zero_le _, Nat.zero_le _, Nat.zero_le _⟩ (fun _ h => by cases h) (fun h => by cases h)
      (iff_of_false (fun h => by cases h) hsat), (List.append_nil _).symm⟩
  · split at h
    · cases h
    · next w1 hresolve =>
      cases h
      obtain ⟨rs, sels, hasks, hmost, hselectable⟩ := resolveWillImport_asks hresolve
      exact .inr ⟨hvisited, .unresolvable, none, [], [], settles_of_asks hasks hmost hselectable (fun h => by cases h)
        (iff_of_false (fun h => by cases h) hsat), (List.append_nil _).symm⟩
    · next w1 will hresolve =>
      obtain ⟨rs, sels, hasks, hmost, hselectable⟩ := resolveWillImport_asks hresolve
      obtain ⟨child, edges, hsettles, hnext⟩ := settles_of_expand hasks hmost hselectable hsat (Nat.lt_of_not_le hdepth)
        (Except.ok.inj h)
      exact .inr ⟨hvisited, .needsImport, some will, child, edges, hsettles, hnext⟩

/-- A turn raises at a selection. -/
theorem visit_raises (h : visit catalog dialect plugins (w, next) dep = .error w') :
    ∃ sel ∈ w'.selections, ¬ Selectable dialect sel ∧ catalog.Lists sel.2 := by
  rw [visit_eq] at h
  split_ifs at h
  split at h
  · next w1 hresolve =>
    cases h
    exact resolveWillImport_raises hresolve
  · cases h
  · cases h

/-! ## The rounds -/

variable {frontier : List FrontierDep} {fuel : ℕ} {r : Except (Walk σ) (Walk σ)}

theorem rounds_cons : rounds catalog dialect plugins (fuel + 1) (dep :: frontier) w =
    match (dep :: frontier).foldlM (visit catalog dialect plugins) (w, []) with
    | .error w => some (.error w)
    | .ok (w, next) => rounds catalog dialect plugins fuel next w := rfl

/-- **The run rule**: what every turn keeps, of the walk and all that is queued, holds at the end. -/
theorem rounds_rule {I : Walk σ → List FrontierDep → Prop}
    (hvisit : ∀ {w dep rest next w' next'}, I w (dep :: rest ++ next) →
      visit catalog dialect plugins (w, next) dep = .ok (w', next') → I w' (rest ++ next'))
    (h : I w frontier) (hok : rounds catalog dialect plugins fuel frontier w = some (.ok w')) : I w' [] := by
  induction fuel generalizing w frontier with
  | zero =>
    cases frontier with
    | nil =>
      cases hok
      exact h
    | cons dep frontier => cases hok
  | succ fuel ih =>
    cases frontier with
    | nil =>
      cases hok
      exact h
    | cons dep frontier =>
      rw [rounds_cons] at hok
      split at hok
      · cases hok
      · next w1 next hfold =>
        have hround : I w1 next := foldlM_ok (P := fun rest acc => I acc.1 (rest ++ acc.2)) hvisit
          (by rwa [List.append_nil]) hfold
        exact ih hround hok

/-- A walk raises at a selection. -/
theorem rounds_raises (herr : rounds catalog dialect plugins fuel frontier w = some (.error w')) :
    ∃ sel ∈ w'.selections, ¬ Selectable dialect sel ∧ catalog.Lists sel.2 := by
  induction fuel generalizing w frontier with
  | zero => cases frontier <;> cases herr
  | succ fuel ih =>
    cases frontier with
    | nil => cases herr
    | cons dep frontier =>
      rw [rounds_cons] at herr
      split at herr
      · next hfold =>
        cases herr
        obtain ⟨acc, d, hd⟩ := foldlM_error hfold
        exact visit_raises hd
      · exact ih herr

/-- More fuel does not change the walk. -/
theorem rounds_mono {fuel' : ℕ} (hle : fuel ≤ fuel') (h : rounds catalog dialect plugins fuel frontier w = some r) :
    rounds catalog dialect plugins fuel' frontier w = some r := by
  induction fuel generalizing w frontier fuel' with
  | zero =>
    cases frontier with
    | nil => cases fuel' <;> exact h
    | cons dep frontier => cases h
  | succ fuel ih =>
    obtain ⟨fuel', rfl⟩ := Nat.exists_eq_add_one_of_ne_zero (Nat.ne_of_gt (Nat.lt_of_lt_of_le fuel.succ_pos hle))
    cases frontier with
    | nil => exact h
    | cons dep frontier =>
      rw [rounds_cons] at h ⊢
      split at h
      · exact h
      · exact ih (Nat.le_of_succ_le_succ hle) h

/-- **The walk ends**: with each round it is one level deeper, and the last level queues nothing. -/
theorem rounds_isSome {room : ℕ} (hdepth : ∀ d ∈ frontier, d.depth + room = maxResolutionDepth + 1)
    (hmax : ∀ d ∈ frontier, d.depth ≤ maxResolutionDepth) (hfuel : room ≤ fuel) :
    (rounds catalog dialect plugins fuel frontier w).isSome := by
  induction room generalizing w frontier fuel with
  | zero =>
    cases frontier with
    | nil => cases fuel <;> rfl
    | cons dep frontier =>
      have h1 := hdepth dep List.mem_cons_self
      have h2 := hmax dep List.mem_cons_self
      omega
  | succ room ih =>
    obtain ⟨fuel, rfl⟩ := Nat.exists_eq_add_one_of_ne_zero (Nat.ne_of_gt (Nat.lt_of_lt_of_le room.succ_pos hfuel))
    cases frontier with
    | nil => rfl
    | cons dep frontier =>
      rw [rounds_cons]
      split
      · rfl
      · next w1 next hfold =>
        -- what is queued in this round stands one level below it
        have hnext : ∀ d ∈ next, d.depth + room = maxResolutionDepth + 1 ∧ d.depth ≤ maxResolutionDepth := by
          refine (foldlM_ok (P := fun rest acc => (∀ d ∈ rest, d.depth + (room + 1) = maxResolutionDepth + 1) ∧
            ∀ d ∈ acc.2, d.depth + room = maxResolutionDepth + 1 ∧ d.depth ≤ maxResolutionDepth) ?_
            ⟨hdepth, fun d hd => by cases hd⟩ hfold).2
          rintro dep rest ⟨w, acc⟩ ⟨w', acc'⟩ ⟨hrest, hacc⟩ hok
          refine ⟨fun d hd => hrest d (List.mem_cons_of_mem _ hd), fun d hd => ?_⟩
          have hdep := hrest dep List.mem_cons_self
          rcases visit_cases hok with ⟨-, -, rfl⟩ | ⟨-, status, found, child, edges, hsettles, rfl⟩
          · exact hacc d hd
          · rcases List.mem_append.mp hd with hd | hd
            · exact hacc d hd
            · obtain ⟨hlt, heq, -⟩ := hsettles.expanded d hd
              omega
        exact ih (fun d hd => (hnext d hd).1) (fun d hd => (hnext d hd).2) (Nat.le_of_succ_le_succ hfuel)

/-! ## What the walk keeps -/

/-- The entries with their distances. -/
def settled (w : Walk σ) : List (Str × ℕ) := w.entries.map fun e => (e.depIdentifier, e.depth)

/-- The identifiers that the installed plugins require. -/
def roots (plugins : List ServerPlugin) : List Str := (initialFrontier plugins).map (·.identifier)

structure Walking (dialect : Str) (plugins : List ServerPlugin) (w : Walk σ) (queue : List FrontierDep) : Prop where
  search : Searching (roots plugins) w.imports (settled w) (queue.map fun d => (d.identifier, d.depth))
  visited : ∀ id, id ∈ w.visited ↔ id ∈ w.entries.map (·.depIdentifier)
  queue : ∀ d ∈ queue, d.depth ≤ maxResolutionDepth
  entries : ∀ e ∈ w.entries, e.depth ≤ maxResolutionDepth ∧ e.blocked = false
  asked : ∀ id, AtMost 2 (w.requestsFor id)
  unasked : ∀ id, id ∉ w.visited → w.requestsFor id = []
  selections : ∀ sel ∈ w.selections, Selectable dialect sel

/-- What the installed plugins require has no other requirer. -/
theorem of_mem_initialFrontier : ∀ d ∈ initialFrontier plugins, d.depth = 0 ∧ d.requiredBy = none := by
  intro d hd
  rcases List.mem_append.mp hd with hd | hd
  · obtain ⟨p, -, hd⟩ := List.mem_flatMap.mp hd
    unfold frontierFromPlugin at hd
    split at hd
    · cases hd
    · obtain ⟨x, -, hx⟩ := List.mem_filterMap.mp hd
      obtain ⟨target, -, rfl⟩ := Option.map_eq_some_iff.mp hx
      exact ⟨rfl, rfl⟩
  · obtain ⟨pid, -, rfl⟩ := List.mem_map.mp hd
    exact ⟨rfl, rfl⟩

theorem depth_initialFrontier : ∀ d ∈ initialFrontier plugins, d.depth = 0 := fun d hd => (of_mem_initialFrontier d hd).1

theorem walking_start (s : σ) : Walking dialect plugins (.start s) (initialFrontier plugins) where
  search := by
    have hqueue : (initialFrontier plugins).map (fun d => (d.identifier, d.depth)) = (roots plugins).map fun id => (id, 0) := by
      rw [roots, List.map_map]
      exact List.map_congr_left fun d hd => by rw [Function.comp_apply, depth_initialFrontier d hd]
    rw [hqueue]
    exact searching_start
  visited _ := Iff.rfl
  queue d hd := by
    rw [depth_initialFrontier d hd]
    exact Nat.zero_le _
  entries e he := by cases he
  asked _ := ⟨Nat.zero_le _, Nat.zero_le _, Nat.zero_le _⟩
  unasked _ _ := rfl
  selections _ h := by cases h

/-- The requests of a turn are for its dependency. -/
theorem requestsFor_append {rs : List Request} (h : w'.requests = w.requests ++ rs.map fun r => (id, r)) (id' : Str) :
    w'.requestsFor id' = w.requestsFor id' ++ if id' = id then rs else [] := by
  rw [Walk.requestsFor, h, List.filter_append, List.map_append, Walk.requestsFor]
  congr 1
  split_ifs with hid
  · rw [List.filter_eq_self.mpr (by simp [hid]), List.map_map]
    exact List.map_id rs
  · rw [List.filter_eq_nil_iff.mpr (by simp [Ne.symm hid])]
    rfl

/-- **The step lemma.** -/
theorem Walking.visit {rest : List FrontierDep} (h : Walking dialect plugins w (dep :: rest ++ next))
    (hok : visit catalog dialect plugins (w, next) dep = .ok (w', next')) : Walking dialect plugins w' (rest ++ next') := by
  rcases visit_cases hok with ⟨hvisited, rfl, rfl⟩ | ⟨hvisited, status, found, child, edges, hsettles, rfl⟩
  · obtain ⟨e, he, hid⟩ := List.mem_map.mp ((h.visited _).mp hvisited)
    have hsettled : (dep.identifier, e.depth) ∈ settled w := hid ▸ List.mem_map_of_mem he
    exact ⟨h.search.skip hsettled, h.visited, fun d hd => h.queue d (List.mem_cons_of_mem _ hd), h.entries, h.asked,
      h.unasked, h.selections⟩
  · have hnew : dep.identifier ∉ (settled w).map Prod.fst := by
      rw [settled, List.map_map]
      exact fun hmem => hvisited ((h.visited _).mpr hmem)
    obtain ⟨rs, hmost, hrequests⟩ := hsettles.requests
    obtain ⟨sels, hselectable, hselections⟩ := hsettles.selections
    have hdep := h.queue dep List.mem_cons_self
    refine ⟨?_, fun id => ?_, fun d hd => ?_, fun e he => ?_, fun id => ?_, fun id hid => ?_, fun sel hsel => ?_⟩
    · have hall := h.search.settle hnew (child.map (·.identifier))
      have hchild : child.map (fun d => (d.identifier, d.depth)) =
          (child.map (·.identifier)).map fun id => (id, dep.depth + 1) := by
        rw [List.map_map]
        exact List.map_congr_left fun d hd => by rw [Function.comp_apply, (hsettles.expanded d hd).2.1]
      rw [settled, hsettles.entries, List.map_append, hsettles.imports, ← List.append_assoc, List.map_append, hchild]
      rw [List.map_map] at hall
      exact hall
    · rw [hsettles.visited, hsettles.entries, List.map_append, List.mem_append, ← h.visited, List.mem_cons, or_comm]
      simp only [List.map_cons, List.map_nil, List.mem_singleton]
    · rw [← List.append_assoc] at hd
      rcases List.mem_append.mp hd with hd | hd
      · exact h.queue d (List.mem_cons_of_mem _ hd)
      · obtain ⟨hlt, heq, -⟩ := hsettles.expanded d hd
        omega
    · rw [hsettles.entries] at he
      rcases List.mem_append.mp he with he | he
      · exact h.entries e he
      · obtain rfl := List.mem_singleton.mp he
        exact ⟨hdep, rfl⟩
    · rw [requestsFor_append hrequests]
      split_ifs with hid
      · rw [hid, h.unasked _ hvisited]
        exact hmost
      · rw [List.append_nil]
        exact h.asked id
    · rw [hsettles.visited, List.mem_cons, not_or] at hid
      rw [requestsFor_append hrequests, if_neg hid.1, List.append_nil]
      exact h.unasked id hid.2
    · rw [hselections] at hsel
      rcases List.mem_append.mp hsel with hsel | hsel
      · exact h.selections sel hsel
      · exact hselectable sel hsel

/-- **The run lemma.** -/
theorem walking_rounds {s : σ}
    (h : rounds catalog dialect plugins fuel (initialFrontier plugins) (.start s) = some (.ok w)) :
    Walking dialect plugins w [] :=
  rounds_rule (I := Walking dialect plugins) (fun hI hok => hI.visit hok) (walking_start s) h

theorem rounds_start_isSome {s : σ} (hfuel : maxResolutionDepth + 1 ≤ fuel) :
    (rounds catalog dialect plugins fuel (initialFrontier plugins) (.start s)).isSome :=
  rounds_isSome (fun d hd => by rw [depth_initialFrontier d hd, Nat.zero_add])
    (fun d hd => (depth_initialFrontier d hd).trans_le (Nat.zero_le _)) hfuel

end McServerDashboard.Plugins
