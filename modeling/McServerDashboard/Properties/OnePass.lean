import Mathlib.Data.List.Perm.Basic
import McServerDashboard.Properties.Platform

/-!
# One pass, or one key after the other

* `clearProperty`, `removeKeys`, `clearResourcePackProperties`: keys removed.
* `oneByOne`: keys set and cleared one after the other; `rewritten`: what a pass does to the entries.
* **`rewritten_oneByOne`**: one pass for all the keys is a pass for each, exactly when none of the keys
  that are set is read back as a later one.
* `LoneCr`: the file ends in a lone backslash before a carriage return.
* **`unmanaged_kept`**: what `apply_platform_properties` and the removal leave alone.
-/

namespace McServerDashboard.Properties

open Lib Lib.Properties

variable {content s : Bytes} {key value k q : Str} {vs : List (Str × Str)} {cleared written : List Str}
  {es : List (Str × Str)} {ops : List (Str × Option Str)} {op : Str × Option Str}
  {bs : List (List Line × Option Bytes)} {b : List Line × Option Bytes}

/-- The loop of `_clear_property`, and the rest of the file. -/
def clearLoop (content : Bytes) : ℕ → List Property → Bytes
  | cursor, [] => content.drop cursor
  | cursor, p :: ps => slice content cursor p.start ++ clearLoop content p.stop ps

/-- `_clear_property`. -/
def clearProperty (content : Bytes) (key : Str) : Bytes :=
  clearLoop content 0 ((parse content).filter (·.key = key))

/-- `remove_keys`. -/
def removeKeys (content : Bytes) (keys : List Str) : Bytes := normalize (rewrite content (parse content) [] keys)

/-- `clear_resource_pack_properties`. -/
def clearResourcePackProperties (content : Bytes) : Bytes :=
  normalize (rewrite content (parse content) [] resourcePackKeys)

/-- A key is set to a value, or cleared. -/
def applyOne (content : Bytes) : Str × Option Str → Bytes
  | (key, some value) => setProperty content key value
  | (key, none) => clearProperty content key

/-- The keys are set and cleared one after the other. -/
def oneByOne (content : Bytes) (ops : List (Str × Option Str)) : Bytes := ops.foldl applyOne content

/-- The keys that are set, with their values. -/
def sets (ops : List (Str × Option Str)) : List (Str × Str) :=
  ops.filterMap fun op => op.2.map fun value => (op.1, value)

/-- The keys that are cleared. -/
def clears (ops : List (Str × Option Str)) : List Str :=
  ops.filterMap fun op => if op.2 = none then some op.1 else none

/-- No key that is set is read back as a later one: two characters that are a surrogate pair are read
back as one. -/
def Apart (ops : List (Str × Option Str)) : Prop :=
  ops.Pairwise fun a b => a.2 = none ∨ b.1 ≠ merged a.1

/-! ## What a pass does to the entries -/

/-- The entries that `_rewrite` leaves. -/
def rewritten (vs : List (Str × Str)) (cleared : List Str) (es : List (Str × Str)) : List (Str × Str) :=
  rewriteEntries vs cleared [] es ++
    (vs.filter (·.1 ∉ es.map (·.1))).map fun kv => (merged kv.1, merged kv.2)

/-- What one key's pass does to the entries. -/
def rewrittenOne (es : List (Str × Str)) (op : Str × Option Str) : List (Str × Str) :=
  rewritten (sets [op]) (clears [op]) es

theorem lookup_of_not_mem (h : k ∉ vs.map (·.1)) : vs.lookup k = none := by
  rw [List.lookup_eq_none_iff]
  intro p hp
  rw [bne_iff_ne]
  rintro rfl
  exact h (List.mem_map.mpr ⟨p, hp, rfl⟩)

theorem mem_of_sets (h : k ∈ (sets ops).map (·.1)) : k ∈ ops.map (·.1) := by
  obtain ⟨kv, hkv, rfl⟩ := List.mem_map.mp h
  obtain ⟨op, hop, hkv⟩ := List.mem_filterMap.mp hkv
  obtain ⟨v, -, rfl⟩ := Option.map_eq_some_iff.mp hkv
  exact List.mem_map.mpr ⟨op, hop, rfl⟩

theorem mem_of_clears (h : k ∈ clears ops) : k ∈ ops.map (·.1) := by
  obtain ⟨op, hop, hk⟩ := List.mem_filterMap.mp h
  split_ifs at hk
  obtain rfl := Option.some.inj hk
  exact List.mem_map.mpr ⟨op, hop, rfl⟩

/-- With no key there is nothing to do. -/
theorem rewriteEntries_nil : rewriteEntries [] [] written es = es := by
  induction es with
  | nil => rfl
  | cons kv es ih => simp [rewriteEntries, ih]

/-- A key that is cleared first. -/
theorem rewriteEntries_clear (hk : k ∉ vs.map (·.1)) : rewriteEntries vs (k :: cleared) written es =
    rewriteEntries vs cleared written (es.filter (·.1 ≠ k)) := by
  induction es generalizing written with
  | nil => rfl
  | cons kv es ih =>
    by_cases hkv : kv.1 = k
    · rw [List.filter_cons_of_neg (by simpa using hkv), ← ih, rewriteEntries, hkv, lookup_of_not_mem hk]
      dsimp only
      rw [if_pos List.mem_cons_self]
    · rw [List.filter_cons_of_pos (by simpa using hkv), rewriteEntries, rewriteEntries]
      cases vs.lookup kv.1 with
      | some v =>
        dsimp only
        split_ifs
        · exact ih
        · rw [ih]
      | none =>
        dsimp only
        simp only [List.mem_cons, hkv, false_or]
        split_ifs
        · exact ih
        · rw [ih]

/-- A key that is set first. -/
theorem rewriteEntries_set {w w₁ w₂ : List Str} (hm : merged k ∉ vs.map (·.1)) (hc : merged k ∉ cleared)
    (h₁ : k ∈ w ↔ k ∈ w₁) (h₂ : ∀ x, x ≠ k → (x ∈ w ↔ x ∈ w₂)) :
    rewriteEntries ((k, value) :: vs) cleared w es =
      rewriteEntries vs cleared w₂ (rewriteEntries [(k, value)] [] w₁ es) := by
  induction es generalizing w w₁ w₂ with
  | nil => rfl
  | cons kv es ih =>
    by_cases hkv : kv.1 = k
    · simp only [rewriteEntries, hkv, List.lookup_cons_self]
      by_cases hw : k ∈ w
      · rw [if_pos hw, if_pos (h₁.mp hw)]
        exact ih h₁ h₂
      · rw [if_neg hw, if_neg (h₁.not.mp hw), rewriteEntries, lookup_of_not_mem hm]
        dsimp only
        rw [if_neg hc]
        refine congrArg _ (ih (by simp) fun x hx => ?_)
        rw [List.mem_cons, or_iff_right hx, h₂ x hx]
    · have hne : (kv.1 == k) = false := beq_false_of_ne hkv
      simp only [rewriteEntries, List.lookup_cons, hne, List.lookup_nil, List.not_mem_nil, if_false]
      cases hl : vs.lookup kv.1 with
      | some v =>
        dsimp only
        by_cases hw : kv.1 ∈ w
        · rw [if_pos hw, if_pos ((h₂ _ hkv).mp hw)]
          exact ih h₁ h₂
        · rw [if_neg hw, if_neg ((h₂ _ hkv).not.mp hw)]
          refine congrArg _ (ih ?_ fun x hx => ?_)
          · rw [List.mem_cons, or_iff_right (Ne.symm hkv), h₁]
          · rw [List.mem_cons, List.mem_cons, h₂ x hx]
      | none =>
        dsimp only
        split_ifs
        · exact ih h₁ h₂
        · exact congrArg _ (ih h₁ h₂)

/-- An entry at the end that is not concerned. -/
theorem rewriteEntries_snoc {kv : Str × Str} (hv : kv.1 ∉ vs.map (·.1)) (hc : kv.1 ∉ cleared) :
    rewriteEntries vs cleared written (es ++ [kv]) = rewriteEntries vs cleared written es ++ [kv] := by
  induction es generalizing written with
  | nil => simp [rewriteEntries, lookup_of_not_mem hv, hc]
  | cons e es ih =>
    simp only [List.cons_append, rewriteEntries]
    cases vs.lookup e.1 with
    | some v | none =>
      dsimp only
      split_ifs <;> simp [ih]

/-- A key that the entries do not have changes nothing in them. -/
theorem rewriteEntries_absent (h : k ∉ es.map (·.1)) : rewriteEntries [(k, value)] [] written es = es := by
  induction es generalizing written with
  | nil => rfl
  | cons kv es ih =>
    rw [List.map_cons, List.mem_cons, not_or] at h
    have hne : (kv.1 == k) = false := beq_false_of_ne (Ne.symm h.1)
    simp [rewriteEntries, List.lookup_cons, hne, ih h.2]

/-- The other keys stay where one is set. -/
theorem mem_keys_set {x : Str} (hx : x ≠ k) (hm : x ≠ merged k) :
    x ∈ (rewriteEntries [(k, value)] [] written es).map (·.1) ↔ x ∈ es.map (·.1) := by
  induction es generalizing written with
  | nil => rfl
  | cons kv es ih =>
    by_cases hkv : kv.1 = k
    · simp only [rewriteEntries, hkv, List.lookup_cons_self, List.map_cons, List.mem_cons, hx, false_or]
      split_ifs
      · exact ih
      · rw [List.map_cons, List.mem_cons, or_iff_right hm, ih]
    · have hne : (kv.1 == k) = false := beq_false_of_ne hkv
      simp only [rewriteEntries, List.lookup_cons, hne, List.lookup_nil, List.not_mem_nil, if_false,
        List.map_cons, List.mem_cons, ih]

/-- **A pass for the first key, then one for the others.** -/
theorem rewritten_cons (hnodup : ((op :: ops).map (·.1)).Nodup)
    (hm : op.2 = none ∨ merged op.1 ∉ ops.map (·.1)) :
    rewritten (sets (op :: ops)) (clears (op :: ops)) es =
      rewritten (sets ops) (clears ops) (rewrittenOne es op) := by
  obtain ⟨hk, -⟩ := List.nodup_cons.mp hnodup
  have hks : op.1 ∉ (sets ops).map (·.1) := fun h => hk (mem_of_sets h)
  obtain ⟨k, - | v⟩ := op
  · -- The key is cleared.
    have hone : rewrittenOne es (k, none) = es.filter (·.1 ≠ k) := by
      show rewriteEntries [] [k] [] es ++ [] = _
      rw [List.append_nil, rewriteEntries_clear (by simp), rewriteEntries_nil]
    show rewritten (sets ops) (k :: clears ops) es = _
    rw [hone, rewritten, rewritten, rewriteEntries_clear hks]
    refine congrArg _ (congrArg _ (List.filter_congr fun kv hkv => ?_))
    have hne : kv.1 ≠ k := fun h => hks (List.mem_map.mpr ⟨kv, hkv, h⟩)
    refine decide_eq_decide.mpr (not_congr ?_)
    simp only [List.mem_map, List.mem_filter, decide_eq_true_eq]
    constructor
    · rintro ⟨e, he, hek⟩
      exact ⟨e, ⟨he, hek ▸ hne⟩, hek⟩
    · rintro ⟨e, ⟨he, -⟩, hek⟩
      exact ⟨e, he, hek⟩
  · have hm : merged k ∉ ops.map (·.1) := hm.resolve_left (by simp)
    have hms : merged k ∉ (sets ops).map (·.1) := fun h => hm (mem_of_sets h)
    have hmc : merged k ∉ clears ops := fun h => hm (mem_of_clears h)
    have hset : rewriteEntries ((k, v) :: sets ops) (clears ops) [] es =
        rewriteEntries (sets ops) (clears ops) [] (rewriteEntries [(k, v)] [] [] es) :=
      rewriteEntries_set hms hmc Iff.rfl fun _ _ => Iff.rfl
    have hkeys : ∀ es' : List (Str × Str),
        (∀ x, x ≠ k → x ≠ merged k → (x ∈ es'.map (·.1) ↔ x ∈ es.map (·.1))) →
          (sets ops).filter (·.1 ∉ es'.map (·.1)) = (sets ops).filter (·.1 ∉ es.map (·.1)) := by
      intro es' h
      refine List.filter_congr fun kv hkv => decide_eq_decide.mpr (not_congr (h _ ?_ ?_))
      · exact fun h => hks (List.mem_map.mpr ⟨kv, hkv, h⟩)
      · exact fun h => hms (List.mem_map.mpr ⟨kv, hkv, h⟩)
    show rewritten ((k, v) :: sets ops) (clears ops) es = rewritten (sets ops) (clears ops)
      (rewriteEntries [(k, v)] [] [] es ++
        ([(k, v)].filter (·.1 ∉ es.map (·.1))).map fun kv => (merged kv.1, merged kv.2))
    by_cases hmem : k ∈ es.map (·.1)
    · rw [List.filter_cons_of_neg (by simpa using hmem), List.filter_nil, List.map_nil, List.append_nil,
        rewritten, rewritten, hset, List.filter_cons_of_neg (by simpa using hmem),
        hkeys _ fun x hx hxm => mem_keys_set hx hxm]
    · rw [List.filter_cons_of_pos (by simpa using hmem), List.filter_nil, List.map_singleton,
        rewriteEntries_absent hmem, rewritten, rewritten, hset, rewriteEntries_absent hmem,
        rewriteEntries_snoc hms hmc, List.filter_cons_of_pos (by simpa using hmem), List.map_cons,
        List.append_assoc, List.singleton_append, hkeys (es ++ [(merged k, merged v)])]
      intro x _ hxm
      simp [hxm]

/-- **One pass is a pass for each key**, when no key that is set is read back as a later one. -/
theorem rewritten_eq_foldl (hnodup : (ops.map (·.1)).Nodup) (ha : Apart ops) :
    rewritten (sets ops) (clears ops) es = ops.foldl rewrittenOne es := by
  induction ops generalizing es with
  | nil =>
    show rewriteEntries [] [] [] es ++ [] = es
    rw [List.append_nil, rewriteEntries_nil]
  | cons op ops ih =>
    obtain ⟨hop, ha⟩ := List.pairwise_cons.mp ha
    rw [rewritten_cons hnodup, ih (List.nodup_cons.mp hnodup).2 ha, List.foldl_cons]
    by_cases ho : op.2 = none
    · exact .inl ho
    · refine .inr fun hmem => ?_
      obtain ⟨b, hb, hbm⟩ := List.mem_map.mp hmem
      exact (hop b hb).resolve_left ho hbm

/-- What is read back of an entry that is written. -/
def readBack (kv : Str × Str) : Str × Str := (merged kv.1, merged kv.2)

variable (value k vs cleared es) in
/-- A key that is set first has its value once, in the place of one it had. -/
theorem rewriteEntries_perm (w w₂ : List Str) (h₂ : ∀ x, x ≠ k → (x ∈ w ↔ x ∈ w₂)) :
    (rewriteEntries ((k, value) :: vs) cleared w es).Perm
      ((if k ∉ w ∧ k ∈ es.map (·.1) then [readBack (k, value)] else []) ++
        rewriteEntries vs cleared w₂ (es.filter (·.1 ≠ k))) := by
  induction es generalizing w w₂ with
  | nil => simp [rewriteEntries]
  | cons kv es ih =>
    by_cases hkv : kv.1 = k
    · rw [List.filter_cons_of_neg (by simpa using hkv)]
      simp only [rewriteEntries, hkv, List.lookup_cons_self, List.map_cons, List.mem_cons_self, and_true]
      by_cases hw : k ∈ w
      · rw [if_pos hw, if_neg (not_not.mpr hw)]
        refine (ih w w₂ h₂).trans ?_
        rw [if_neg fun h => h.1 hw]
      · rw [if_neg hw, if_pos hw]
        refine List.Perm.cons _ ((ih _ w₂ fun x hx => ?_).trans ?_)
        · rw [List.mem_cons, or_iff_right hx, h₂ x hx]
        · rw [if_neg fun h => h.1 List.mem_cons_self]
          exact List.Perm.refl _
    · have hne : (kv.1 == k) = false := beq_false_of_ne hkv
      have hkeys : k ∈ (kv :: es).map (·.1) ↔ k ∈ es.map (·.1) := by simp [Ne.symm hkv]
      rw [List.filter_cons_of_pos (by simpa using hkv)]
      simp only [rewriteEntries, List.lookup_cons, hne, hkeys]
      cases vs.lookup kv.1 with
      | some v =>
        dsimp only
        by_cases hw : kv.1 ∈ w
        · rw [if_pos hw, if_pos ((h₂ _ hkv).mp hw)]
          exact ih w w₂ h₂
        · rw [if_neg hw, if_neg ((h₂ _ hkv).not.mp hw)]
          have hstep := ih (kv.1 :: w) (kv.1 :: w₂) fun x hx => by
            rw [List.mem_cons, List.mem_cons, h₂ x hx]
          simp only [List.mem_cons, Ne.symm hkv, false_or] at hstep
          exact (hstep.cons _).trans List.perm_middle.symm
      | none =>
        dsimp only
        by_cases hc : kv.1 ∈ cleared
        · rw [if_pos hc, if_pos hc]
          exact ih w w₂ h₂
        · rw [if_neg hc, if_neg hc]
          exact ((ih w w₂ h₂).cons _).trans List.perm_middle.symm

/-- **The entries after one pass**, whatever their order: what is set, and the keys not named. -/
theorem rewritten_perm (hnodup : (ops.map (·.1)).Nodup) : (rewritten (sets ops) (clears ops) es).Perm
    ((sets ops).map readBack ++ es.filter (·.1 ∉ ops.map (·.1))) := by
  induction ops generalizing es with
  | nil =>
    show (rewriteEntries [] [] [] es ++ []).Perm _
    simp [rewriteEntries_nil, sets]
  | cons op ops ih =>
    obtain ⟨hk, hnodup'⟩ := List.nodup_cons.mp hnodup
    have hks : op.1 ∉ (sets ops).map (·.1) := fun h => hk (mem_of_sets h)
    have hfilter : es.filter (·.1 ∉ (op :: ops).map (·.1)) =
        (es.filter (·.1 ≠ op.1)).filter (·.1 ∉ ops.map (·.1)) := by
      rw [List.filter_filter]
      refine List.filter_congr fun kv _ => ?_
      rw [← Bool.decide_and, decide_eq_decide, List.map_cons, List.mem_cons, not_or, and_comm]
    have happended : (sets ops).filter (·.1 ∉ es.map (·.1)) =
        (sets ops).filter (·.1 ∉ (es.filter (·.1 ≠ op.1)).map (·.1)) := by
      refine List.filter_congr fun kv hkv => decide_eq_decide.mpr (not_congr ?_)
      have hne : kv.1 ≠ op.1 := fun h => hks (List.mem_map.mpr ⟨kv, hkv, h⟩)
      simp only [List.mem_map, List.mem_filter, decide_eq_true_eq]
      constructor
      · rintro ⟨e, he, hek⟩
        exact ⟨e, ⟨he, hek ▸ hne⟩, hek⟩
      · rintro ⟨e, ⟨he, -⟩, hek⟩
        exact ⟨e, he, hek⟩
    have hrest : (rewritten (sets ops) (clears ops) (es.filter (·.1 ≠ op.1))).Perm _ := ih hnodup'
    rw [hfilter]
    obtain ⟨k, - | v⟩ := op
    · show (rewritten (sets ops) (k :: clears ops) es).Perm _
      rw [rewritten, rewriteEntries_clear hks, happended]
      exact hrest
    · have hset := rewriteEntries_perm v k (sets ops) (clears ops) es [] [] fun _ _ => Iff.rfl
      show (rewriteEntries ((k, v) :: sets ops) (clears ops) [] es ++
        (((k, v) :: sets ops).filter (·.1 ∉ es.map (·.1))).map readBack).Perm
          (readBack (k, v) :: ((sets ops).map readBack ++ _))
      refine (hset.append_right _).trans (List.Perm.trans ?_ (hrest.cons _))
      rw [rewritten, ← happended]
      by_cases hmem : k ∈ es.map (·.1)
      · rw [if_pos ⟨List.not_mem_nil, hmem⟩, List.filter_cons_of_neg (by simpa using hmem)]
        exact List.Perm.refl _
      · rw [if_neg fun h => hmem h.2, List.filter_cons_of_pos (by simpa using hmem), List.nil_append,
          List.map_cons]
        exact List.perm_middle

/-! ## How often a key is read -/

/-- The keys that are set and read back as `q`. -/
def readAs (q : Str) (ops : List (Str × Option Str)) : ℕ := (sets ops).countP fun kv => merged kv.1 = q

theorem count_rewrittenOne : (rewrittenOne es op).countP (·.1 = q) =
    readAs q [op] + (es.filter (·.1 ≠ op.1)).countP (·.1 = q) := by
  have hperm : (rewritten (sets [op]) (clears [op]) es).Perm _ := rewritten_perm (by simp)
  rw [rewrittenOne, hperm.countP_eq, List.countP_append, List.countP_map]
  simp only [List.map_cons, List.map_nil, List.mem_singleton]
  rfl

theorem readAs_append {ops' : List (Str × Option Str)} : readAs q (ops ++ ops') = readAs q ops + readAs q ops' := by
  rw [readAs, sets, List.filterMap_append, List.countP_append]
  rfl

/-- What is set and cleared later leaves a key alone that is not among them. -/
theorem count_foldl (h : q ∉ ops.map (·.1)) :
    (ops.foldl rewrittenOne es).countP (·.1 = q) = es.countP (·.1 = q) + readAs q ops := by
  induction ops generalizing es with
  | nil => rfl
  | cons op ops ih =>
    rw [List.map_cons, List.mem_cons, not_or] at h
    have hother : (es.filter (·.1 ≠ op.1)).countP (·.1 = q) = es.countP (·.1 = q) := by
      rw [List.countP_filter]
      refine List.countP_congr fun kv _ => ?_
      simp only [Bool.and_eq_true, decide_eq_true_eq, and_iff_left_iff_imp]
      rintro rfl
      exact h.1
    rw [List.foldl_cons, ih h.2, count_rewrittenOne, hother, show op :: ops = [op] ++ ops from rfl, readAs_append]
    omega

/-- **One pass for all the keys is a pass for each exactly when** none that is set is read back as a later
one: the later pass would have found it. -/
theorem rewritten_oneByOne (hnodup : (ops.map (·.1)).Nodup) :
    rewritten (sets ops) (clears ops) es = ops.foldl rewrittenOne es ↔ Apart ops := by
  refine ⟨fun heq => List.pairwise_iff_getElem.mpr fun i j hi hj hij => ?_, rewritten_eq_foldl hnodup⟩
  by_contra hbad
  rw [not_or, not_not] at hbad
  obtain ⟨hset, hread⟩ := hbad
  obtain ⟨pre, hpre⟩ : ∃ pre, ops.take j = pre := ⟨_, rfl⟩
  obtain ⟨post, hpost⟩ : ∃ post, ops.drop (j + 1) = post := ⟨_, rfl⟩
  have hsplit : ops = pre ++ ops[j] :: post := by
    rw [← hpre, ← hpost, List.getElem_cons_drop, List.take_append_drop]
  have hi' : ops[i] ∈ pre := by
    rw [← hpre]
    exact List.mem_take_iff_getElem.mpr ⟨i, by omega, rfl⟩
  obtain ⟨b, hb⟩ : ∃ b, ops[j] = b := ⟨_, rfl⟩
  rw [hb] at hread hsplit
  have hlate : b.1 ∉ post.map (·.1) := by
    rw [hsplit, List.map_append, List.map_cons, List.nodup_append] at hnodup
    exact (List.nodup_cons.mp hnodup.2.1).1
  have hchain : (ops.foldl rewrittenOne es).countP (·.1 = b.1) = readAs b.1 [b] + readAs b.1 post := by
    rw [hsplit, List.foldl_append, List.foldl_cons, count_foldl hlate, count_rewrittenOne]
    simp [List.countP_eq_zero]
  have hpass : (rewritten (sets ops) (clears ops) es).countP (·.1 = b.1) =
      readAs b.1 pre + (readAs b.1 [b] + readAs b.1 post) := by
    rw [(rewritten_perm hnodup).countP_eq, List.countP_append, List.countP_map]
    have hnone : (es.filter (·.1 ∉ ops.map (·.1))).countP (·.1 = b.1) = 0 := by
      refine List.countP_eq_zero.mpr fun kv hkv => ?_
      have hout := of_decide_eq_true (List.mem_filter.mp hkv).2
      rw [decide_eq_true_eq]
      rintro heq
      exact hout (heq ▸ List.mem_map.mpr ⟨b, by rw [hsplit]; simp, rfl⟩)
    rw [hnone, ← readAs_append, ← readAs_append]
    conv_rhs => rw [show pre ++ ([b] ++ post) = ops from hsplit.symm]
    rfl
  have hone : 0 < readAs b.1 pre := by
    obtain ⟨v, hv⟩ := Option.ne_none_iff_exists'.mp hset
    refine List.countP_pos_iff.mpr ⟨(ops[i].1, v), List.mem_filterMap.mpr ⟨_, hi', by rw [hv]; rfl⟩, ?_⟩
    exact decide_eq_true hread.symm
  rw [heq, hchain] at hpass
  omega

/-! ## One key's pass over the file -/

variable (content vs cleared) in
/-- The loop of `_rewrite`, and the rest of the file. -/
theorem foldl_replaced : ((parse content).foldl (Splice.step content vs cleared) ⟨[], 0, []⟩).out ++
    content.drop ((parse content).foldl (Splice.step content vs cleared) ⟨[], 0, []⟩).cursor =
      replaced content vs cleared := by
  obtain ⟨hbytes, -⟩ := blocks_sound content
  have h := (foldl_step (u := []) vs cleared ⟨[], 0, []⟩ hbytes.symm le_rfl blocks_pos).1
  rw [List.length_nil, ← parse_eq] at h
  rw [h, slice_self, List.append_nil, List.nil_append, replaced]

/-- The loop of `_clear_property` is that of `_rewrite` for one key. -/
theorem clearLoop_eq (ps : List Property) (s : Splice) :
    s.out ++ clearLoop content s.cursor (ps.filter (·.key = key)) =
      (ps.foldl (Splice.step content [] [key]) s).out ++
        content.drop (ps.foldl (Splice.step content [] [key]) s).cursor := by
  induction ps generalizing s with
  | nil => rfl
  | cons p ps ih =>
    rw [List.foldl_cons, ← ih]
    by_cases hp : p.key = key
    · rw [List.filter_cons_of_pos (by simpa using hp)]
      simp [clearLoop, Splice.step, hp]
    · rw [List.filter_cons_of_neg (by simpa using hp)]
      simp [Splice.step, hp]

theorem clearProperty_eq : clearProperty content key = replaced content [] [key] := by
  rw [← foldl_replaced, ← clearLoop_eq]
  rfl

theorem keys_eq : (entries content).map (·.1) = (parse content).map (·.key) := by
  rw [entries, ← parse_entries, List.map_map]
  rfl

theorem found_iff : (parse content).filter (·.key = key) = [] ↔ key ∉ (entries content).map (·.1) := by
  simp only [keys_eq, List.filter_eq_nil_iff, List.mem_map, decide_eq_true_eq, not_exists, not_and]

theorem setProperty_found (h : key ∈ (entries content).map (·.1)) :
    setProperty content key value = normalize (replaced content [(key, value)] []) := by
  rw [setProperty, if_neg (found_iff.not.mpr (not_not.mpr h)), ← foldl_replaced,
    ← setLoop_eq _ ⟨[], 0, []⟩ 0 (by simp)]
  rfl

theorem setProperty_new (h : key ∉ (entries content).map (·.1)) :
    setProperty content key value = withLf content ++ (newLine key value ++ [lf]) := by
  rw [setProperty, if_pos (found_iff.mpr h), ← List.append_assoc]
  rfl

/-- The file does not end inside a logical line that it reads. -/
def Calm (content : Bytes) : Prop := rest (ending content) = []

theorem calm_iff : endsInDanglingContinuation content (parse content) = false ↔ Calm content := by
  rw [← Bool.not_eq_true, endsInDanglingContinuation_iff, not_not, Calm]

/-- A calm file ends between logical lines, or in a lone backslash before CR LF, which is nothing. -/
theorem Calm.cases (h : Calm s) : ending s = .start ∨ ending s = .lone true := by
  unfold Calm at h
  cases hm : ending s with
  | start => exact .inl rfl
  | cont acc =>
    rw [hm] at h
    cases h
  | lone c =>
    cases c with
    | true => exact .inr rfl
    | false =>
      rw [hm] at h
      cases h

theorem Calm.replaced (h : Calm content) : Calm (replaced content vs cleared) := by
  rcases ending_replaced content vs cleared with he | ⟨he, -⟩
  · rw [Calm, he]
    rfl
  · rwa [Calm, he]

theorem Calm.normalize (h : Calm s) : entries (normalize s) = entries s ∧ Calm (normalize s) := by
  constructor
  · refine entries_normalize fun hlone => ?_
    rcases h.cases with he | he <;> rw [he] at hlone <;> cases hlone
  unfold Properties.normalize
  split
  · exact h
  next hlf =>
  by_cases hs : s = []
  · subst hs
    rfl
  rw [Calm, (lf_more hs hlf).2]
  rcases h.cases with he | he
  · rw [he]
    rfl
  · exact absurd ((List.suffix_cons cr [lf]).trans (ends_crlf he)) hlf

theorem Calm.append (h : Calm s) : Calm (withLf s ++ (newLine key value ++ [lf])) := by
  have hclosed : ending (newLine key value ++ [lf]) = .start := closed_newLine.ending_nil
  obtain ⟨-, hlf, hend⟩ := withLf_spec s
  rcases hlf with hnil | hlf
  · rw [hnil, List.nil_append, Calm, hclosed]
    rfl
  obtain ⟨l, r, -, -, -, hl⟩ := exists_line (s := newLine key value ++ [lf]) (by simp)
  have hstart : after .start (lines (newLine key value ++ [lf])) = .start := hclosed
  -- Past a lone backslash a line is a first line.
  have hlone : ∀ c, after (.lone c) (lines (newLine key value ++ [lf])) = .start := fun c => by
    rw [hl] at hstart ⊢
    exact hstart
  have hres : after (ending (withLf s)) (lines (newLine key value ++ [lf])) = .start := by
    rcases hend with he | ⟨c, d, -, he⟩
    · rcases h.cases with hs | hs <;> rw [he, hs]
      · exact hstart
      · exact hlone true
    · rw [he]
      exact hlone d
  rw [Calm, ending_append hlf, hres]
  rfl

/-- **One key set or cleared** in a calm file. -/
theorem Calm.applyOne (h : Calm content) :
    entries (applyOne content op) = rewrittenOne (entries content) op ∧ Calm (applyOne content op) := by
  obtain ⟨k, - | v⟩ := op
  · rw [Properties.applyOne, clearProperty_eq, entries_replaced]
    exact ⟨(List.append_nil _).symm, h.replaced⟩
  · rw [Properties.applyOne]
    show _ = rewritten [(k, v)] [] (entries content) ∧ _
    rw [rewritten]
    by_cases hk : k ∈ (entries content).map (·.1)
    · have hcalm : Calm (Properties.replaced content [(k, v)] []) := h.replaced
      obtain ⟨he, hc⟩ := hcalm.normalize
      rw [setProperty_found hk, he, entries_replaced, List.filter_cons_of_neg (by simpa using hk)]
      exact ⟨(List.append_nil _).symm, hc⟩
    · have hseal : sealOf (ending content) = [] := by
        rcases h.cases with he | he <;> rw [he] <;> rfl
      have happ := entries_append (s := content) (r := newLine k v ++ [lf]) (by simp)
      have hnew := entries_newLines [(k, v)]
      rw [List.flatMap_singleton] at hnew
      rw [hseal, List.nil_append] at happ
      rw [setProperty_new hk, happ, hnew, rewriteEntries_absent hk,
        List.filter_cons_of_pos (by simpa using hk)]
      exact ⟨rfl, h.append⟩

theorem entries_oneByOne (h : Calm content) :
    entries (oneByOne content ops) = ops.foldl rewrittenOne (entries content) := by
  induction ops generalizing content with
  | nil => rfl
  | cons op ops ih =>
    obtain ⟨he, hc⟩ : entries (applyOne content op) = _ ∧ Calm (applyOne content op) := h.applyOne
    rw [oneByOne, List.foldl_cons, List.foldl_cons, ← he]
    exact ih hc

/-! ## The end of the file -/

/-- The last logical line of the file is of lone backslashes, and the file ends in a carriage return. -/
def LoneCr (content : Bytes) : Prop :=
  endsInDanglingContinuation content (parse content) = true ∧
    (∃ p, (parse content).getLast? = some p ∧ continuationEnd content p = [61, lf]) ∧ [cr] <:+ content

theorem loneCr_iff : LoneCr content ↔ ending content = .lone false ∧ [cr] <:+ content := by
  have hseal : sealOf (ending content) = [61, lf] ↔ ending content = .lone false := by
    rcases ending content with - | (- | -) | acc <;> simp [sealOf]
  rw [LoneCr, ← and_assoc, ← hseal, ← continuationEnd_eq]
  refine and_congr_left fun _ => ?_
  by_cases hd : endsInDanglingContinuation content (parse content) = true
  · rw [if_pos hd, and_iff_right hd]
    cases (parse content).getLast? <;> simp
  · rw [if_neg hd]
    simp [hd]

/-- The end of the file stays when its last property is not concerned. -/
theorem kept_edits (hne : bs ≠ []) (hb : ∀ b, bs.getLast? = some b → ∀ t, b.2 = some t →
    vs.lookup (entry t).1 = none ∧ (entry t).1 ∉ cleared) :
    kept bs (edits vs cleared written (keysOf bs)) := by
  induction bs generalizing written with
  | nil => exact absurd rfl hne
  | cons b bs ih =>
    obtain ⟨taken, none | t⟩ := b
    · cases bs with
      | nil => trivial
      | cons b' bs => exact ih (List.cons_ne_nil _ _) fun b hb' => hb b (by rwa [List.getLast?_cons_cons])
    · obtain ⟨e, he⟩ := step_edit [] vs cleared ⟨[], 0, written⟩ ⟨(entry t).1, [], 0, 0⟩ (keysOf bs)
      cases bs with
      | nil =>
        obtain ⟨hl, hc⟩ := hb _ rfl t rfl
        show (edits vs cleared written [(entry t).1]).head? = some .keep
        simp [edits, hl, hc]
      | cons b' bs =>
        show kept (b' :: bs) (edits vs cleared written ((entry t).1 :: keysOf (b' :: bs))).tail
        rw [he.1, List.tail_cons]
        exact ih (List.cons_ne_nil _ _) fun b hb' => hb b (by rwa [List.getLast?_cons_cons])

/-- A lone backslash at the end is the empty key, and stays where that is not concerned. -/
theorem ending_replaced_lone (h : ending content = .lone false) (hv : [] ∉ vs.map (·.1)) (hc : [] ∉ cleared) :
    ending (replaced content vs cleared) = .lone false ∧
      ([cr] <:+ content → [cr] <:+ replaced content vs cleared) := by
  obtain ⟨hbytes, hsound⟩ := blocks_sound content
  have hne : blocks .start [] (lines content) ≠ [] := by
    refine blocks_ne (.inr fun hnil => ?_)
    rw [ending, hnil] at h
    cases h
  have hkept : kept (blocks .start [] (lines content))
      (edits vs cleared [] (keysOf (blocks .start [] (lines content)))) := by
    refine kept_edits hne fun b hb t ht => ?_
    -- The last logical line is the empty one.
    have hlogicals : logicals content = front content ++ [[]] := by rw [logicals_front, h]; rfl
    obtain ⟨init, hinit⟩ := List.getLast?_eq_some_iff.mp hb
    rw [logicals, hinit, List.filterMap_append, List.filterMap_cons_some ht, List.filterMap_nil] at hlogicals
    have hnil : t = [] := (List.singleton_inj.mp (List.append_inj_right' hlogicals rfl))
    have hentry : (entry []).1 = [] := by decide
    rw [hnil, hentry]
    exact ⟨lookup_of_not_mem hv, hc⟩
  obtain ⟨he, u, v, w, hu, hw, hwne⟩ := ending_spliced hsound length_edits_blocks hkept
  rw [hbytes] at he hw
  refine ⟨he.trans h, fun hcr => ?_⟩
  rw [show replaced content vs cleared = u ++ w from hu]
  rw [hw, List.singleton_suffix_iff_getLast?_eq_some, List.getLast?_append_of_ne_nil _ hwne] at hcr
  rwa [List.singleton_suffix_iff_getLast?_eq_some, List.getLast?_append_of_ne_nil _ hwne]

/-- `_normalize` loses the empty key of a lone backslash before a carriage return, and no other. -/
theorem values_normalize_empty :
    values (normalize s) [] = values s [] ↔ ¬(ending s = .lone false ∧ [cr] <:+ s) := by
  refine ⟨?_, fun h => by rw [values_eq, values_eq, entries_normalize fun hlone hcr => h ⟨hlone, hcr⟩]⟩
  rintro heq ⟨hlone, hcr⟩
  have hs : s ≠ [] := by
    rintro rfl
    cases hlone
  have hlf : ¬[lf] <:+ s := by
    rw [List.singleton_suffix_iff_getLast?_eq_some] at hcr ⊢
    rw [hcr]
    decide
  obtain ⟨hf, he⟩ := lf_more hs hlf
  have hlost : entries s = entries (normalize s) ++ [([], [])] := by
    have hentry : entry [] = ([], []) := by decide
    rw [Properties.normalize, if_neg hlf, entries, entries, logicals_front, logicals_front, hf, he, hlone,
      decide_eq_true hcr]
    simp [Mode.sealed, rest, finish, hentry]
  have hlen := congrArg List.length heq
  rw [values_eq, values_eq, hlost] at hlen
  simp at hlen

variable (hv : ∀ k v, vs.lookup k = some v → merged k = k) (hnodup : (vs.map (·.1)).Nodup)
  (he : [] ∉ vs.map (·.1)) (hc : [] ∉ cleared)

include hv hnodup he hc in
/-- **A pass for other keys leaves the empty one alone**, but for a lone backslash before a carriage return
that nothing is appended to. -/
theorem values_pass_empty : values (normalize (rewrite content (parse content) vs cleared)) [] = values content [] ↔
    ¬(LoneCr content ∧ ∀ kv ∈ vs, kv.1 ∈ (parse content).map (·.key)) := by
  have hsame : values (rewrite content (parse content) vs cleared) [] = values content [] := by
    rw [values_rewrite hv hnodup, lookup_of_not_mem he]
    simp [hc]
  rw [← hsame, values_normalize_empty, loneCr_iff]
  refine not_congr ?_
  have happended : vs.filter (·.1 ∉ (entries content).map (·.1)) = [] ↔
      ∀ kv ∈ vs, kv.1 ∈ (parse content).map (·.key) := by
    rw [keys_eq, List.filter_eq_nil_iff]
    simp
  rw [rewrite_eq, ← happended]
  dsimp only
  split
  next hnil =>
    rw [and_iff_left hnil]
    constructor
    · rintro ⟨hlone, hcr⟩
      rcases ending_replaced content vs cleared with hend | ⟨hend, u, v, w, hu, hw, hwne⟩
      · rw [hend] at hlone
        cases hlone
      · rw [hu, List.singleton_suffix_iff_getLast?_eq_some, List.getLast?_append_of_ne_nil _ hwne] at hcr
        refine ⟨hend ▸ hlone, ?_⟩
        rwa [hw, List.singleton_suffix_iff_getLast?_eq_some, List.getLast?_append_of_ne_nil _ hwne]
    · rintro ⟨hlone, hcr⟩
      obtain ⟨hend, hcr'⟩ := ending_replaced_lone hlone he hc
      exact ⟨hend, hcr' hcr⟩
  next hne =>
    refine iff_of_false (fun ⟨_, hcr⟩ => ?_) fun h => hne h.2
    -- What is appended ends in a line feed.
    obtain ⟨kvs, kv, hkvs⟩ := (List.eq_nil_or_concat _).resolve_left hne
    rw [hkvs, List.concat_eq_append, List.flatMap_append, List.flatMap_singleton, ← List.append_assoc,
      ← List.append_assoc, ← List.append_assoc, List.singleton_suffix_iff_getLast?_eq_some,
      List.getLast?_concat] at hcr
    exact absurd hcr (by decide)

variable (content) in
/-- The removal of keys. -/
theorem removed (keys : List Str) :
    (∀ key, key ∉ keys → values (removeKeys content keys) key = values content key) ↔
      ¬(LoneCr content ∧ [] ∉ keys) := by
  have hother : ∀ key, key ≠ [] → key ∉ keys → values (removeKeys content keys) key = values content key := by
    intro key hne hkey
    rw [removeKeys, values_normalize hne, values_rewrite (by simp) (by simp)]
    simp [hkey]
  by_cases hk : [] ∈ keys
  · refine iff_of_true (fun key hkey => hother key ?_ hkey) fun h => h.2 hk
    rintro rfl
    exact hkey hk
  · have hempty : values (removeKeys content keys) [] = values content [] ↔ _ :=
      values_pass_empty (by simp) (by simp) (by simp) hk
    rw [and_iff_left hk]
    refine ⟨fun h hlone => hempty.mp (h [] hk) ⟨hlone, by simp⟩, fun h key hkey => ?_⟩
    by_cases hne : key = []
    · rw [hne]
      exact hempty.mpr fun h' => h h'.1
    · exact hother key hne hkey

/-- **What `apply_platform_properties` and the removal of keys leave alone.**

* `apply_platform_properties` leaves every key that it does not manage its values, unless the last logical
  line is of lone backslashes before a carriage return and no key is appended after it;
* the removal leaves every other key its values, unless the file ends so and the empty key, which is what
  that line is read as, is to stay;
* in a file that does not end in a dangling continuation, one pass for keys that are set and cleared is
  read as the passes for one after the other exactly when no key that is set is read back as a later one. -/
theorem unmanaged_kept (content : Bytes) :
    (∀ gamePort rconPassword resourcePack,
      (∀ key, key ∉ platformManagedKeys →
        values (applyPlatformProperties content gamePort rconPassword resourcePack) key = values content key) ↔
      ¬(LoneCr content ∧ ∀ kv ∈ platformValues (parse content) gamePort rconPassword resourcePack,
        kv.1 ∈ (parse content).map (·.key))) ∧
    ((∀ key, key ∉ resourcePackKeys → values (clearResourcePackProperties content) key = values content key) ↔
      ¬LoneCr content) ∧
    (∀ keys : List Str, (∀ key, key ∉ keys → values (removeKeys content keys) key = values content key) ↔
      ¬(LoneCr content ∧ [] ∉ keys)) ∧
    (endsInDanglingContinuation content (parse content) = false →
      ∀ ops : List (Str × Option Str), (ops.map (·.1)).Nodup →
        ((parse (rewrite content (parse content) (sets ops) (clears ops))).map (fun p => (p.key, p.value)) =
          (parse (oneByOne content ops)).map (fun p => (p.key, p.value)) ↔ Apart ops)) := by
  refine ⟨fun gamePort rconPassword resourcePack => ?_, ?_, removed content, fun hcalm ops hnodup => ?_⟩
  · have hkeys : [] ∉ (platformValues (parse content) gamePort rconPassword resourcePack).map (·.1) := fun h =>
      platform_key_ne (platformValues_keys.subset h) rfl
    have hcleared : [] ∉ platformCleared resourcePack := fun h =>
      absurd (platformCleared_subset _ h) (by decide)
    have hempty : values (applyPlatformProperties content gamePort rconPassword resourcePack) [] =
        values content [] ↔ _ :=
      values_pass_empty (fun k v hl => merged_platform (mem_of_lookup hl)) platformValues_nodup hkeys hcleared
    rw [← hempty]
    refine ⟨fun h => h [] (by decide), fun h key hkey => ?_⟩
    by_cases hne : key = []
    · rw [hne]
      exact h
    · exact (applied content gamePort rconPassword resourcePack).others key hne hkey
  · have h := removed content resourcePackKeys
    rwa [and_iff_left (by decide : [] ∉ resourcePackKeys)] at h
  · rw [parse_entries, parse_entries]
    show entries _ = entries _ ↔ _
    rw [entries_oneByOne (calm_iff.mp hcalm), ← rewritten_oneByOne hnodup, entries_rewrite, rewritten]

/-- **A port is set and a password cleared** as in one pass. -/
theorem unmanaged_kept_port :
    (parse (rewrite (encode (str "rcon.password=a\nmotd=b")) (parse (encode (str "rcon.password=a\nmotd=b")))
      [(portKey, str "25565")] [rconPasswordKey])).map (fun p => (p.key, p.value)) =
    (parse (oneByOne (encode (str "rcon.password=a\nmotd=b"))
      [(portKey, some (str "25565")), (rconPasswordKey, none)])).map (fun p => (p.key, p.value)) := by
  refine ((unmanaged_kept (encode (str "rcon.password=a\nmotd=b"))).2.2.2 (by decide +kernel)
    [(portKey, some (str "25565")), (rconPasswordKey, none)] (by decide)).mpr ?_
  exact List.pairwise_pair.mpr (.inr (by decide))

/-- The removal of the resource-pack keys loses the empty key of a lone backslash before a carriage return. -/
theorem empty_key_lost : ¬∀ content key, key ∉ resourcePackKeys →
    values (clearResourcePackProperties content) key = values content key := by
  intro h
  have hkey : [] ∉ resourcePackKeys := by decide
  exact absurd (h [backslash, cr] [] hkey) (by decide +kernel)

end McServerDashboard.Properties
