import Mathlib.Data.List.Sigma
import McServerDashboard.Plugins.Closure

/-!
# What blocking leaves

The loop of `_block_and_prune` blocks what conflicts and what nothing requires any more, until neither is left.

* `fixpoint_isSome`, `fixpoint_mono`: it ends, after a round for each entry at most.
* **`kept_of_fixpoint`**: what it leaves conflicts with nothing that was there at the beginning, and is required.
* **`keeps_supported`**: a set of entries without conflicts that support one another is left.
* `Requiring`: the requirers that the walk has noted.
-/

namespace McServerDashboard.Plugins

open Lib Properties

namespace Blocking

variable {b : Blocking} {blocked blocked' final : List ℕ} {e : ResolutionEntry} {i fuel : ℕ}

/-! ## A round -/

theorem mem_unblocked : e ∈ b.unblocked blocked ↔ ∃ i, b.entries[i]? = some e ∧ i ∉ blocked := by
  rw [unblocked, List.mem_map]
  constructor
  · rintro ⟨⟨e', i⟩, hx, rfl⟩
    obtain ⟨hmem, hi⟩ := List.mem_filter.mp hx
    exact ⟨i, List.mem_zipIdx_iff_getElem?.mp hmem, of_decide_eq_true hi⟩
  · rintro ⟨i, hget, hi⟩
    exact ⟨(e, i), List.mem_filter.mpr ⟨List.mem_zipIdx_iff_getElem?.mpr hget, decide_eq_true hi⟩, rfl⟩

theorem mem_newBlocked : i ∈ b.newBlocked blocked ↔
    ∃ e, b.entries[i]? = some e ∧ i ∉ blocked ∧ (b.conflicts blocked e = true ∨ b.required blocked e = false) := by
  rw [newBlocked, List.mem_map]
  constructor
  · rintro ⟨⟨e, i⟩, hx, rfl⟩
    obtain ⟨hmem, hi⟩ := List.mem_filter.mp hx
    have := of_decide_eq_true hi
    exact ⟨e, List.mem_zipIdx_iff_getElem?.mp hmem, this.1, this.2.imp_right (by simp)⟩
  · rintro ⟨e, hget, hi, h⟩
    refine ⟨(e, i), List.mem_filter.mpr ⟨List.mem_zipIdx_iff_getElem?.mpr hget, decide_eq_true ⟨hi, ?_⟩⟩, rfl⟩
    exact h.imp_right (by simp)

theorem nodup_newBlocked : (b.newBlocked blocked).Nodup :=
  (List.nodup_zipIdx_map_snd b.entries).sublist (List.filter_sublist.map Prod.snd)

/-! ## With more blocked, less is there -/

theorem unblocked_subset (h : blocked ⊆ blocked') : b.unblocked blocked' ⊆ b.unblocked blocked := by
  intro e he
  obtain ⟨i, hget, hi⟩ := mem_unblocked.mp he
  exact mem_unblocked.mpr ⟨i, hget, fun hmem => hi (h hmem)⟩

theorem mem_presentIds {id : Str} : id ∈ b.presentIds blocked ↔
    id ∈ installedIds b.plugins ∨
      ∃ e ∈ b.unblocked blocked, ∃ will, e.added = some will ∧ (id = will.slug ∨ id = e.depIdentifier) := by
  rw [presentIds, List.mem_append, List.mem_flatMap]
  refine or_congr_right (exists_congr fun e => and_congr_right fun _ => ?_)
  cases e.added with
  | none => simp
  | some will => simp

theorem mem_presentProjectIds {id : Str} : id ∈ b.presentProjectIds blocked ↔
    id ∈ installedProjectIds b.plugins ∨
      ∃ e ∈ b.unblocked blocked, ∃ will, e.added = some will ∧ id = will.projectId := by
  rw [presentProjectIds, List.mem_append, List.mem_filterMap]
  refine or_congr_right (exists_congr fun e => and_congr_right fun _ => ?_)
  cases e.added with
  | none => simp
  | some will => simp [eq_comm]

theorem mem_addedIds {id : Str} : id ∈ b.addedIds blocked ↔
    ∃ e ∈ b.unblocked blocked, ∃ will, e.added = some will ∧ will.slug = id := by
  rw [addedIds, List.mem_filterMap]
  refine exists_congr fun e => and_congr_right fun _ => ?_
  cases e.added with
  | none => simp
  | some will => simp

theorem mem_conflictIds {id : Str} : id ∈ b.conflictIds blocked ↔
    ∃ edge ∈ conflictEdges b.plugins, edge.2 ∈ b.presentIds blocked ∧ (id = edge.1 ∨ id = edge.2) := by
  simp only [conflictIds, List.mem_flatMap, List.mem_filter, decide_eq_true_eq, List.mem_cons, List.not_mem_nil,
    or_false, and_assoc]

theorem mem_conflictProjectIds {id : Str} : id ∈ b.conflictProjectIds blocked ↔
    ∃ edge ∈ b.incompatibleEdges, (edge.1 ∈ b.presentProjectIds blocked ∧ edge.2 ∈ b.presentProjectIds blocked) ∧
      (id = edge.1 ∨ id = edge.2) := by
  simp only [conflictProjectIds, List.mem_flatMap, List.mem_filter, decide_eq_true_eq, List.mem_cons, List.not_mem_nil,
    or_false, and_assoc]

theorem conflicts_iff : b.conflicts blocked e = true ↔ ∃ will, e.added = some will ∧
    (will.slug ∈ b.conflictIds blocked ∨ will.projectId ∈ b.conflictProjectIds blocked) := by
  simp only [conflicts, Option.any_eq_true, decide_eq_true_eq]

theorem presentIds_subset (h : blocked ⊆ blocked') : b.presentIds blocked' ⊆ b.presentIds blocked := by
  intro id hid
  rw [mem_presentIds] at hid ⊢
  exact hid.imp_right fun ⟨e, he, hwill⟩ => ⟨e, unblocked_subset h he, hwill⟩

theorem presentProjectIds_subset (h : blocked ⊆ blocked') :
    b.presentProjectIds blocked' ⊆ b.presentProjectIds blocked := by
  intro id hid
  rw [mem_presentProjectIds] at hid ⊢
  exact hid.imp_right fun ⟨e, he, hwill⟩ => ⟨e, unblocked_subset h he, hwill⟩

/-- A conflict was one before. -/
theorem conflicts_of_subset (h : blocked ⊆ blocked') (hconf : b.conflicts blocked' e = true) :
    b.conflicts blocked e = true := by
  obtain ⟨will, hadded, hwill⟩ := conflicts_iff.mp hconf
  refine conflicts_iff.mpr ⟨will, hadded, hwill.imp (fun hslug => ?_) fun hproject => ?_⟩
  · obtain ⟨edge, hedge, hpresent, hid⟩ := mem_conflictIds.mp hslug
    exact mem_conflictIds.mpr ⟨edge, hedge, presentIds_subset h hpresent, hid⟩
  · obtain ⟨edge, hedge, hpresent, hid⟩ := mem_conflictProjectIds.mp hproject
    exact mem_conflictProjectIds.mpr ⟨edge, hedge, hpresent.imp (presentProjectIds_subset h ·)
      (presentProjectIds_subset h ·), hid⟩

/-- The entry has a requirer that is installed, or that an entry of `S` adds. -/
def Supported (b : Blocking) (S : ResolutionEntry → Prop) (e : ResolutionEntry) : Prop :=
  none ∈ b.requirersOf e ∨ ∃ req, some req ∈ b.requirersOf e ∧
    (req ∈ installedIds b.plugins ∨ ∃ e' ∈ b.entries, S e' ∧ ∃ will, e'.added = some will ∧ will.slug = req)

theorem Supported.mono {S T : ResolutionEntry → Prop} (h : Supported b S e) (hST : ∀ e ∈ b.entries, S e → T e) :
    Supported b T e :=
  h.imp_right fun ⟨req, hreq, hby⟩ => ⟨req, hreq, hby.imp_right fun ⟨e', he', hS, hwill⟩ => ⟨e', he', hST e' he' hS, hwill⟩⟩

theorem mem_entries_of_unblocked (h : e ∈ b.unblocked blocked) : e ∈ b.entries := by
  obtain ⟨i, hget, -⟩ := mem_unblocked.mp h
  exact List.mem_of_getElem? hget

theorem required_iff : b.required blocked e = true ↔ Supported b (· ∈ b.unblocked blocked) e := by
  rw [required, List.any_eq_true, Supported]
  constructor
  · rintro ⟨r, hr, hby⟩
    cases r with
    | none => exact .inl hr
    | some req =>
      refine .inr ⟨req, hr, (of_decide_eq_true hby).imp_right fun hadded => ?_⟩
      obtain ⟨e', he', hwill⟩ := mem_addedIds.mp hadded
      exact ⟨e', mem_entries_of_unblocked he', he', hwill⟩
  · rintro (hr | ⟨req, hr, hby⟩)
    · exact ⟨none, hr, rfl⟩
    · exact ⟨some req, hr, decide_eq_true (hby.imp_right fun ⟨e', _, he', hwill⟩ => mem_addedIds.mpr ⟨e', he', hwill⟩)⟩

/-! ## The loop -/

theorem fixpoint_succ : b.fixpoint (fuel + 1) blocked =
    if b.newBlocked blocked = [] then some blocked else b.fixpoint fuel (blocked ++ b.newBlocked blocked) :=
  rfl

/-- **It ends**: each round but the last blocks an entry. -/
theorem fixpoint_isSome (hnodup : blocked.Nodup) (hlt : ∀ i ∈ blocked, i < b.entries.length)
    (hfuel : b.entries.length < fuel + blocked.length) : (b.fixpoint fuel blocked).isSome := by
  induction fuel generalizing blocked with
  | zero =>
    have hle := (List.subperm_of_subset hnodup fun i hi => List.mem_range.mpr (hlt i hi)).length_le
    rw [List.length_range] at hle
    omega
  | succ fuel ih =>
    rw [fixpoint_succ]
    split_ifs with hnew
    · rfl
    · have hpos := List.length_pos_iff.mpr hnew
      refine ih ?_ ?_ ?_
      · refine List.Nodup.append hnodup nodup_newBlocked fun i hi hi' => ?_
        obtain ⟨e, -, hnot, -⟩ := mem_newBlocked.mp hi'
        exact hnot hi
      · intro i hi
        rcases List.mem_append.mp hi with hi | hi
        · exact hlt i hi
        · obtain ⟨e, hget, -⟩ := mem_newBlocked.mp hi
          exact (List.getElem?_eq_some_iff.mp hget).1
      · rw [List.length_append]
        omega

theorem fixpoint_mono {fuel' : ℕ} (hle : fuel ≤ fuel') (h : b.fixpoint fuel blocked = some final) :
    b.fixpoint fuel' blocked = some final := by
  induction fuel generalizing blocked fuel' with
  | zero => cases h
  | succ fuel ih =>
    obtain ⟨fuel', rfl⟩ := Nat.exists_eq_add_one_of_ne_zero (Nat.ne_of_gt (Nat.lt_of_lt_of_le fuel.succ_pos hle))
    rw [fixpoint_succ] at h ⊢
    split_ifs at h ⊢ with hnew
    · exact h
    · exact ih (Nat.le_of_succ_le_succ hle) h

/-- **The run rule** of the loop. -/
theorem fixpoint_rule {I : List ℕ → Prop} (hstep : ∀ blocked, I blocked → I (blocked ++ b.newBlocked blocked))
    (h : I blocked) (hfix : b.fixpoint fuel blocked = some final) : I final ∧ b.newBlocked final = [] := by
  induction fuel generalizing blocked with
  | zero => cases hfix
  | succ fuel ih =>
    rw [fixpoint_succ] at hfix
    split_ifs at hfix with hnew
    · cases hfix
      exact ⟨h, hnew⟩
    · exact ih (hstep blocked h) hfix

/-- What is left is left as it was not blocked in the first round. -/
theorem newBlocked_subset (hfix : b.fixpoint fuel [] = some final) : b.newBlocked [] ⊆ final := by
  cases fuel with
  | zero => cases hfix
  | succ fuel =>
    rw [fixpoint_succ] at hfix
    split_ifs at hfix with hnew
    · rw [hnew]
      exact List.nil_subset _
    · exact (fixpoint_rule (I := fun blocked => b.newBlocked [] ⊆ blocked)
        (fun blocked h i hi => List.mem_append_left _ (h hi)) (fun i hi => hi) hfix).1

/-- **What is left** has no conflict, not even with what was blocked, and is required by what is left. -/
theorem kept_of_fixpoint (hfix : b.fixpoint fuel [] = some final) (he : e ∈ b.unblocked final) :
    b.conflicts [] e = false ∧ Supported b (· ∈ b.unblocked final) e := by
  obtain ⟨i, hget, hi⟩ := mem_unblocked.mp he
  constructor
  · refine Bool.eq_false_iff.mpr fun hconf => hi (newBlocked_subset hfix ?_)
    exact mem_newBlocked.mpr ⟨e, hget, List.not_mem_nil, .inl hconf⟩
  · have hlast := (fixpoint_rule (I := fun _ => True) (fun _ _ => trivial) trivial hfix).2
    refine required_iff.mp (Bool.eq_true_of_not_eq_false fun hreq => ?_)
    have hmem := mem_newBlocked.mpr ⟨e, hget, hi, .inr hreq⟩
    rw [hlast] at hmem
    cases hmem

/-- **What supports itself is left**: nothing in it is blocked, round by round. -/
theorem keeps_supported {S : ResolutionEntry → Prop} (hfix : b.fixpoint fuel [] = some final)
    (hS : ∀ e ∈ b.entries, S e → b.conflicts [] e = false ∧ Supported b S e) (he : e ∈ b.entries) (hSe : S e) :
    e ∈ b.unblocked final := by
  have hkeep : ∀ i e, b.entries[i]? = some e → S e → i ∉ final := by
    refine (fixpoint_rule (I := fun blocked => ∀ i e, b.entries[i]? = some e → S e → i ∉ blocked)
      (fun blocked h i e hget hSe hi => ?_) (fun i e _ _ hi => by cases hi) hfix).1
    rcases List.mem_append.mp hi with hi | hi
    · exact h i e hget hSe hi
    obtain ⟨e', hget', -, hwhy⟩ := mem_newBlocked.mp hi
    obtain rfl : e = e' := Option.some.inj (hget.symm.trans hget')
    obtain ⟨hconf, hsup⟩ := hS e (List.mem_of_getElem? hget) hSe
    rcases hwhy with hwhy | hwhy
    · rw [conflicts_of_subset (List.nil_subset _) hwhy] at hconf
      cases hconf
    · have hreq : b.required blocked e = true := by
        refine required_iff.mpr (hsup.mono fun e' he' hSe' => ?_)
        obtain ⟨j, hj⟩ := List.mem_iff_getElem?.mp he'
        exact mem_unblocked.mpr ⟨j, hj, h j e' hj hSe'⟩
      rw [hreq] at hwhy
      cases hwhy
  obtain ⟨i, hi⟩ := List.mem_iff_getElem?.mp he
  exact mem_unblocked.mpr ⟨i, hi, hkeep i e hi hSe⟩

/-! ## The plan -/

/-- The flag is all that is changed. -/
theorem map_markBlocked {α : Type*} {f : ResolutionEntry → α} (hf : ∀ e : ResolutionEntry, f { e with blocked := true } = f e) :
    (b.markBlocked blocked).map f = b.entries.map f := by
  rw [markBlocked, List.map_map]
  conv_rhs => rw [← List.zipIdx_map_fst 0 b.entries, List.map_map]
  refine List.map_congr_left fun x _ => ?_
  simp only [Function.comp_apply]
  split_ifs
  · exact hf x.1
  · rfl

/-- What is not marked is what is left. -/
theorem mem_markBlocked (hnew : ∀ e ∈ b.entries, e.blocked = false) :
    e ∈ b.markBlocked blocked ∧ e.blocked = false ↔ e ∈ b.unblocked blocked := by
  rw [markBlocked, mem_unblocked, List.mem_map]
  constructor
  · rintro ⟨⟨⟨e', i⟩, hmem, rfl⟩, hb⟩
    have hget := List.mem_zipIdx_iff_getElem?.mp hmem
    split_ifs at hb ⊢ with hi
    exact ⟨i, hget, hi⟩
  · rintro ⟨i, hget, hi⟩
    exact ⟨⟨(e, i), List.mem_zipIdx_iff_getElem?.mpr hget, if_neg hi⟩, hnew e (List.mem_of_getElem? hget)⟩

end Blocking

/-! ## The requirers of a walk -/

variable {σ : Type*} {catalog : Catalog σ} {dialect : Str} {plugins : List ServerPlugin} {w w' : Walk σ}
  {dep : FrontierDep} {queue rest next next' child : List FrontierDep} {id : Str} {r : Option Str}

/-- `r` has asked for `id`, or will have when the queue is through. -/
def Asking (requirers : Dict Str (List (Option Str))) (queue : List FrontierDep) (id : Str) (r : Option Str) : Prop :=
  r ∈ (requirers.get? id).getD [] ∨ ∃ d ∈ queue, d.identifier = id ∧ d.requiredBy = r

/-- A turn moves what asks from the queue to the requirers. -/
theorem asking_addRequirer : Asking (w.addRequirer dep).requirers rest id r ↔ Asking w.requirers (dep :: rest) id r := by
  have hget : r ∈ ((w.addRequirer dep).requirers.get? id).getD [] ↔
      r ∈ (w.requirers.get? id).getD [] ∨ dep.identifier = id ∧ dep.requiredBy = r := by
    rw [Walk.addRequirer, Dict.get?_set]
    split_ifs with hid
    · subst hid
      simp [eq_comm]
    · simp [Ne.symm hid]
  rw [Asking, Asking, hget, or_assoc]
  simp only [List.exists_mem_cons_iff]

theorem asking_append :
    Asking w.requirers (queue ++ child) id r ↔
      Asking w.requirers queue id r ∨ ∃ d ∈ child, d.identifier = id ∧ d.requiredBy = r := by
  simp only [Asking, List.mem_append, or_and_right, exists_or, or_assoc]

/-- What the walk has noted of who requires what. -/
structure Requiring (plugins : List ServerPlugin) (w : Walk σ) (queue : List FrontierDep) : Prop where
  entries : ∀ e ∈ w.entries, (w.requirers.get? e.depIdentifier).isSome
  roots : ∀ id, Asking w.requirers queue id none ↔ id ∈ roots plugins
  imports : ∀ edge ∈ w.imports, ∃ e ∈ w.entries, e.depIdentifier = edge.1 ∧
    ∃ will, e.added = some will ∧ Asking w.requirers queue edge.2 (some will.slug)

theorem requiring_start (s : σ) : Requiring plugins (.start s) (initialFrontier plugins) where
  entries e he := by cases he
  roots id := by
    rw [Asking, roots, List.mem_map]
    constructor
    · rintro (h | ⟨d, hd, rfl, -⟩)
      · cases h
      · exact ⟨d, hd, rfl⟩
    · rintro ⟨d, hd, rfl⟩
      exact .inr ⟨d, hd, rfl, (of_mem_initialFrontier d hd).2⟩
  imports edge h := by cases h

/-- The requirer has an entry in the dictionary, as all that had one. -/
theorem isSome_addRequirer (h : id = dep.identifier ∨ (w.requirers.get? id).isSome) :
    ((w.addRequirer dep).requirers.get? id).isSome := by
  rw [Walk.addRequirer, Dict.get?_set]
  split_ifs with hid
  · rfl
  · exact h.resolve_left hid

theorem Requiring.visit (h : Requiring plugins w (dep :: rest ++ next))
    (hok : visit catalog dialect plugins (w, next) dep = .ok (w', next')) : Requiring plugins w' (rest ++ next') := by
  rcases visit_cases hok with ⟨hvisited, rfl, rfl⟩ | ⟨hvisited, status, found, child, edges, hsettles, rfl⟩
  · refine ⟨fun e he => isSome_addRequirer (.inr (h.entries e he)), fun id => ?_, fun edge hedge => ?_⟩
    · rw [asking_addRequirer]
      exact h.roots id
    · obtain ⟨e, he, hid, will, hadded, hask⟩ := h.imports edge hedge
      exact ⟨e, he, hid, will, hadded, asking_addRequirer.mpr hask⟩
  · -- the children ask in the name of the import, and are queued
    have hasking : ∀ id r, Asking w'.requirers (rest ++ (next ++ child)) id r ↔
        Asking w.requirers (dep :: rest ++ next) id r ∨ ∃ d ∈ child, d.identifier = id ∧ d.requiredBy = r := by
      intro id r
      rw [hsettles.requirers, ← List.append_assoc, asking_append, asking_addRequirer]
      rfl
    refine ⟨fun e he => ?_, fun id => ?_, fun edge hedge => ?_⟩
    · rw [hsettles.entries] at he
      rw [hsettles.requirers]
      rcases List.mem_append.mp he with he | he
      · exact isSome_addRequirer (.inr (h.entries e he))
      · obtain rfl := List.mem_singleton.mp he
        exact isSome_addRequirer (.inl rfl)
    · rw [hasking, h.roots]
      refine or_iff_left ?_
      rintro ⟨d, hd, -, hnone⟩
      obtain ⟨-, -, -, will, -, hsome⟩ := hsettles.expanded d hd
      rw [hnone] at hsome
      cases hsome
    · rw [hsettles.imports] at hedge
      rw [hsettles.entries]
      rcases List.mem_append.mp hedge with hedge | hedge
      · obtain ⟨e, he, hid, will, hadded, hask⟩ := h.imports edge hedge
        exact ⟨e, List.mem_append_left _ he, hid, will, hadded, (hasking _ _).mpr (.inl hask)⟩
      · obtain ⟨d, hd, rfl⟩ := List.mem_map.mp hedge
        obtain ⟨-, -, hstatus, will, hfound, hby⟩ := hsettles.expanded d hd
        refine ⟨_, List.mem_append_right _ (List.mem_singleton.mpr rfl), rfl, will, ?_, (hasking _ _).mpr (.inr ⟨d, hd, rfl, hby⟩)⟩
        rw [ResolutionEntry.added, if_pos hstatus, hfound]

theorem requiring_rounds {fuel : ℕ} {s : σ}
    (h : rounds catalog dialect plugins fuel (initialFrontier plugins) (.start s) = some (.ok w)) :
    Requiring plugins w [] :=
  rounds_rule (I := Requiring plugins) (fun hI hok => hI.visit hok) (requiring_start s) h

/-- The requirers as `_block_and_prune` reads them. -/
theorem Requiring.mem_requirersOf (h : Requiring plugins w []) {e : ResolutionEntry} (he : e ∈ w.entries) :
    r ∈ (w.blocking plugins).requirersOf e ↔ Asking w.requirers [] e.depIdentifier r := by
  obtain ⟨rs, hrs⟩ := Option.isSome_iff_exists.mp (h.entries e he)
  rw [Blocking.requirersOf, Walk.blocking, Asking, hrs]
  simp

end McServerDashboard.Plugins
