import McServerDashboard.Plugins.VersionOrder

/-!
# Versions that no range tells apart

A version is compared with the bounds of a range, but an `x`-range looks at its text.

* `Tied`: versions with the same components, up to zeros; `Places`: with the same parts, where a range can name them.
* `Alike`: both, of the versions without the blanks around them; `Alike.satisfies`.
* `placed`, `below`: ranges that name a part, and that end at a version.
* **`equal_versions_alike`**: which equal versions satisfy the same ranges.
-/

namespace McServerDashboard.Plugins

open Lib Lib.Properties Properties

/-! ## Pieces of texts -/

/-- No two bars in a row. -/
def Unbarred (s : Str) : Prop := s.IsChain fun c d => ¬ (c = 124 ∧ d = 124)

/-- What can stand in a predicate of a range. -/
structure Plain (s : Str) : Prop where
  chars : ∀ c ∈ s, c ≠ 44 ∧ isSpace c = false
  bars : Unbarred s

theorem Plain.piece {s t : Str} (h : Plain s) (ht : t <:+: s) : Plain t where
  chars c hc := h.chars c (ht.subset hc)
  bars := List.IsChain.infix h.bars ht

theorem splitOnP_pieces {α : Type*} (p : α → Bool) (s : List α) :
    (∀ t ∈ s.splitOnP p, t <:+: s ∧ ∀ c ∈ t, p c = false) ∧ ∀ t ∈ (s.splitOnP p).head?, t <+: s := by
  induction s with
  | nil => simp [List.splitOnP_nil]
  | cons c s ih =>
    rw [List.splitOnP_cons_eq_if_modifyHead]
    split_ifs with hc
    · refine ⟨List.forall_mem_cons.mpr ⟨⟨List.nil_infix, by simp⟩, fun t ht => ?_⟩, fun t ht => ?_⟩
      · exact ⟨(ih.1 t ht).1.trans (List.infix_cons_iff.mpr (.inr List.infix_rfl)), (ih.1 t ht).2⟩
      · obtain rfl : [] = t := Option.some.inj ht
        exact List.nil_prefix
    · obtain ⟨hmem, hhead⟩ := ih
      cases hsplit : s.splitOnP p with
      | nil => exact absurd hsplit (List.splitOnP_ne_nil p s)
      | cons u us =>
        rw [hsplit] at hmem hhead
        have hu : c :: u <+: c :: s := List.cons_prefix_cons.mpr ⟨rfl, hhead u rfl⟩
        rw [List.modifyHead_cons]
        refine ⟨List.forall_mem_cons.mpr ⟨⟨hu.isInfix, List.forall_mem_cons.mpr ⟨by simpa using hc, ?_⟩⟩, ?_⟩, ?_⟩
        · exact (hmem u List.mem_cons_self).2
        · intro t ht
          obtain ⟨hpiece, hp⟩ := hmem t (List.mem_cons_of_mem _ ht)
          exact ⟨hpiece.trans (List.infix_cons_iff.mpr (.inr List.infix_rfl)), hp⟩
        · intro t ht
          obtain rfl : c :: u = t := Option.some.inj ht
          exact hu

theorem infix_of_mem_splitOn {c : CodePoint} {s t : Str} (h : t ∈ s.splitOn c) : t <:+: s := by
  rw [List.splitOn_eq_splitOnP] at h
  exact ((splitOnP_pieces _ s).1 t h).1

theorem notMem_of_mem_splitOn {c : CodePoint} {s t : Str} (h : t ∈ s.splitOn c) : c ∉ t := by
  rw [List.splitOn_eq_splitOnP] at h
  intro hc
  have hne := ((splitOnP_pieces _ s).1 t h).2 c hc
  rw [beq_self_eq_true] at hne
  cases hne

theorem infix_of_strip (s : Str) : strip s <:+: s :=
  (List.rdropWhile_prefix _ _).isInfix.trans (List.dropWhile_suffix _).isInfix

theorem splitBars_pieces (s : Str) :
    (∀ t ∈ splitBars s, Unbarred t) ∧ ∀ t ∈ (splitBars s).head?, t <+: s := by
  induction s using splitBars.induct with
  | case1 s ih =>
    rw [splitBars]
    refine ⟨List.forall_mem_cons.mpr ⟨.nil, ih.1⟩, fun t ht => ?_⟩
    obtain rfl : [] = t := Option.some.inj ht
    exact List.nil_prefix
  | case2 =>
    rw [splitBars]
    exact ⟨List.forall_mem_singleton.mpr .nil, fun t ht => by cases ht; exact List.nil_prefix⟩
  | case3 c s hbars ih =>
    rw [splitBars]
    swap
    · exact hbars
    obtain ⟨hmem, hhead⟩ := ih
    cases hsplit : splitBars s with
    | nil => exact ⟨fun t ht => (List.not_mem_nil ht).elim, fun t ht => by cases ht⟩
    | cons u us =>
      rw [hsplit] at hmem hhead
      have hu := hhead u rfl
      rw [List.modifyHead_cons]
      refine ⟨List.forall_mem_cons.mpr ⟨List.isChain_cons.mpr ⟨?_, hmem u List.mem_cons_self⟩, fun t ht => ?_⟩,
        fun t ht => ?_⟩
      · rintro d hd ⟨rfl, rfl⟩
        obtain ⟨r, rfl⟩ := List.head?_eq_some_iff.mp hd
        obtain ⟨r', rfl⟩ := hu
        exact hbars _ rfl rfl
      · exact hmem t (List.mem_cons_of_mem _ ht)
      · obtain rfl : c :: u = t := Option.some.inj ht
        exact List.cons_prefix_cons.mpr ⟨rfl, hu⟩

/-! ## Versions that are tied -/

/-- The components of two versions are the same up to zeros at the end, or neither has any. -/
def Tied (v w : Str) : Prop :=
  Option.Rel (fun x y => compareLists x y = .eq) (components v) (components w)

/-- An `x`-range can name the part. -/
structure Nameable (part : Str) : Prop extends Plain part where
  named : isWildcard part = false

/-- The parts between the dots are the same, where an `x`-range can name them. -/
def Places (v w : Str) : Prop :=
  ∀ (i : ℕ) (part : Str), Nameable part → ((v.splitOn 46)[i]? = some part ↔ (w.splitOn 46)[i]? = some part)

/-- No range tells the versions apart. -/
structure Alike (a b : Str) : Prop where
  tied : Tied (strip a) (strip b)
  places : Places (strip a) (strip b)

variable {v w : Str}

theorem Tied.compare (h : Tied v w) (t : Str) : compareVersions v t = compareVersions w t := by
  rw [compareVersions, compareVersions]
  cases hv : components v with
  | none =>
    rw [Tied, hv] at h
    cases hw : components w with
    | none => rfl
    | some y =>
      rw [hw] at h
      cases h
  | some x =>
    rw [Tied, hv] at h
    cases hw : components w with
    | none =>
      rw [hw] at h
      cases h
    | some y =>
      rw [hw] at h
      cases h with
      | some h =>
        cases components t with
        | none => rfl
        | some z =>
          rw [compareLists_eq] at h
          show some (compareLists x z) = some (compareLists y z)
          rw [compareLists_eq, compareLists_eq, Std.TransCmp.congr_left h]

/-- The number at a place of a version, which is zero where there is none. -/
def numberAt (x : List Component) (i : ℕ) : ℤ :=
  match x.getD i (.number 0) with
  | .number n => n
  | .text _ => 0

theorem majorMinor_eq (v : Str) : majorMinor v = (components v).map fun x => (numberAt x 0, numberAt x 1) := by
  rw [majorMinor]
  cases components v with
  | none => rfl
  | some x =>
    rcases x with _ | ⟨m | s, _ | ⟨n | t, x⟩⟩
    all_goals rfl

theorem Tied.majorMinor (h : Tied v w) : majorMinor v = majorMinor w := by
  rw [majorMinor_eq, majorMinor_eq]
  rw [Tied] at h
  generalize components v = cv, components w = cw at h ⊢
  cases h with
  | none => rfl
  | some h =>
    rw [compareLists_eq, Padded.compareLists_eq_iff] at h
    rw [Option.map_some, Option.map_some, numberAt, numberAt, h, h]
    rfl

/-! ## What versions that are alike satisfy -/

theorem xRange_iff (v target : Str) : xRange v target = true ↔
    ∀ (i : ℕ) (part : Str), (target.splitOn 46)[i]? = some part →
      isWildcard part = true ∨ (v.splitOn 46)[i]? = some part := by
  rw [xRange, List.all_eq_true]
  constructor
  · intro h i part hpart
    simpa using h (part, i) (List.mem_zipIdx_iff_getElem?.mpr hpart)
  · rintro h ⟨part, i⟩ hpart
    simpa using h i part (List.mem_zipIdx_iff_getElem?.mp hpart)

theorem xRange_congr {target : Str} (h : Places v w) (htarget : Plain target) : xRange v target = xRange w target := by
  rw [Bool.eq_iff_iff, xRange_iff, xRange_iff]
  refine forall₃_congr fun i part hpart => ?_
  cases hnamed : isWildcard part with
  | true => exact ⟨fun _ => .inl rfl, fun _ => .inl rfl⟩
  | false => rw [h i part ⟨htarget.piece (infix_of_mem_splitOn (List.mem_of_getElem? hpart)), hnamed⟩]

theorem within_congr (h : Tied v w) (lower upper : Str) : within v lower upper = within w lower upper := by
  rw [within, within, h.compare, h.compare]

theorem semverPredicate_congr {predicate : Str} (h : Tied v w) (hplaces : Places v w) (hplain : Plain predicate) :
    semverPredicate v predicate = semverPredicate w predicate := by
  have htilde : ∀ target, tilde v target = tilde w target := by
    intro target
    rw [tilde, tilde]
    simp only [within_congr h]
  have hcaret : ∀ target, caret v target = caret w target := by
    intro target
    rw [caret, caret]
    simp only [within_congr h]
  have hrange : ∀ target, Plain target → xRange v target = xRange w target := fun _ => xRange_congr hplaces
  have htarget : Plain (if (str "=").isPrefixOf predicate then strip (predicate.drop 1) else predicate) := by
    split_ifs
    · exact hplain.piece ((infix_of_strip _).trans (List.drop_suffix 1 _).isInfix)
    · exact hplain
  rw [semverPredicate, semverPredicate]
  simp only [h.compare, htilde, hcaret, hrange _ htarget]

theorem anyM_congr {α : Type*} {f g : α → Option Bool} {l : List α} (h : ∀ x ∈ l, f x = g x) : l.anyM f = l.anyM g := by
  induction l with
  | nil => rfl
  | cons x l ih =>
    rw [List.anyM, List.anyM, h x List.mem_cons_self, ih fun y hy => h y (List.mem_cons_of_mem _ hy)]

theorem allM_congr {α : Type*} {f g : α → Option Bool} {l : List α} (h : ∀ x ∈ l, f x = g x) : l.allM f = l.allM g := by
  induction l with
  | nil => rfl
  | cons x l ih =>
    rw [List.allM, List.allM, h x List.mem_cons_self, ih fun y hy => h y (List.mem_cons_of_mem _ hy)]

theorem semverSatisfies_congr (h : Tied v w) (hplaces : Places v w) (spec : Str) :
    semverSatisfies v spec = semverSatisfies w spec := by
  refine anyM_congr fun alt halt => allM_congr fun predicate hpredicate => semverPredicate_congr h hplaces ?_
  obtain ⟨hpiece, hchars⟩ := (splitOnP_pieces _ alt).1 predicate (List.mem_of_mem_filter hpredicate)
  refine ⟨fun c hc => ?_, List.IsChain.infix ((splitBars_pieces spec).1 alt halt) hpiece⟩
  simpa using hchars c hc

theorem mavenSatisfies_congr (h : Tied v w) (spec : Str) : mavenSatisfies v spec = mavenSatisfies w spec := by
  have hinterval : mavenInterval v = mavenInterval w := by
    funext token
    rw [mavenInterval, mavenInterval]
    simp only [h.compare]
  rw [mavenSatisfies, mavenSatisfies, hinterval]

/-- Versions that are alike satisfy the same ranges. -/
theorem Alike.satisfies {a b : Str} (h : Alike a b) (range loader : Str) :
    versionSatisfies a range loader = versionSatisfies b range loader := by
  rw [versionSatisfies, versionSatisfies, paperSatisfies, paperSatisfies, h.tied.majorMinor,
    mavenSatisfies_congr h.tied, semverSatisfies_congr h.tied h.places]

/-! ## A range that no version is in -/

theorem satisfies_nothing (a : Str) :
    versionSatisfies a (str "<1,>1") (str "fabric") = (components (strip a)).isNone := by
  have hpredicates : semverSatisfies (strip a) (str "<1,>1") =
      [[str "<1", str ">1"]].anyM fun ps => ps.allM (semverPredicate (strip a)) := rfl
  have hlt : semverPredicate (strip a) (str "<1") =
      (compareVersions (strip a) (str "1")).map fun o => decide (o = .lt) := rfl
  have hgt : semverPredicate (strip a) (str ">1") =
      (compareVersions (strip a) (str "1")).map fun o => decide (o = .gt) := rfl
  have hsatisfies : versionSatisfies a (str "<1,>1") (str "fabric") =
      (semverSatisfies (strip a) (str "<1,>1")).getD true := rfl
  rw [hsatisfies, hpredicates, List.anyM, List.allM, List.allM, hlt, hgt, compareVersions]
  have hone : components (str "1") = some [.number 1] := by decide
  cases components (strip a) with
  | none => rfl
  | some x =>
    rw [hone]
    cases ho : compareLists x [.number 1] <;> simp [ho]

/-! ## A range that names a part -/

/-- The part is at a place, behind wildcards and before one. -/
def placed : ℕ → Str → Str
  | 0, part => part ++ [46, 42]
  | i + 1, part => 42 :: 46 :: placed i part

theorem splitOn_placed {part : Str} (hpart : 46 ∉ part) (i : ℕ) :
    (placed i part).splitOn 46 = List.replicate i [42] ++ [part, [42]] := by
  have hnot : ∀ c ∈ part, (c == 46) = false := fun c hc => beq_eq_false_iff_ne.mpr (ne_of_mem_of_not_mem hc hpart)
  induction i with
  | zero =>
    rw [placed, List.splitOn_eq_splitOnP, List.splitOnP_append_cons_of_forall_mem hnot 46 (by decide)]
    rfl
  | succ i ih =>
    rw [List.splitOn_eq_splitOnP] at ih ⊢
    rw [placed, List.replicate_succ, List.cons_append, ← ih, List.splitOnP_cons_eq_if_modifyHead, if_neg (by decide),
      List.splitOnP_cons_eq_if_modifyHead, if_pos (by decide), List.modifyHead_cons]

theorem Plain.cons {c : CodePoint} {s : Str} (hc : c ≠ 44 ∧ isSpace c = false) (hbar : c ≠ 124) (h : Plain s) :
    Plain (c :: s) where
  chars := List.forall_mem_cons.mpr ⟨hc, h.chars⟩
  bars := List.isChain_cons.mpr ⟨fun _ _ hd => hbar hd.1, h.bars⟩

theorem Plain.placed {part : Str} (h : Plain part) (i : ℕ) : Plain (placed i part) := by
  induction i with
  | zero =>
    have htail : ∀ c ∈ ([46, 42] : Str), c ≠ 44 ∧ isSpace c = false :=
      List.forall_mem_cons.mpr ⟨by decide, List.forall_mem_singleton.mpr (by decide)⟩
    refine ⟨fun c hc => (List.mem_append.mp hc).elim (h.chars c) (htail c),
      List.isChain_append.mpr ⟨h.bars, by decide, ?_⟩⟩
    rintro c - d hd ⟨-, rfl⟩
    cases hd
  | succ i ih => exact (ih.cons (by decide) (by decide)).cons (by decide) (by decide)

theorem getLast?_placed (i : ℕ) (part : Str) : (placed i part).getLast? = some 42 := by
  induction i with
  | zero => rw [placed, List.getLast?_append_of_ne_nil _ (List.cons_ne_nil _ _)]; rfl
  | succ i ih => rw [placed, List.getLast?_cons, List.getLast?_cons, ih]; rfl

theorem xRange_placed {part : Str} (hpart : 46 ∉ part) (hnamed : isWildcard part = false) (i : ℕ) :
    xRange v (placed i part) = decide ((v.splitOn 46)[i]? = some part) := by
  rw [Bool.eq_iff_iff, xRange_iff, splitOn_placed hpart, decide_eq_true_eq]
  have hi : (List.replicate i [42] ++ [part, [42]])[i]? = some part := by
    rw [List.getElem?_append_right (by rw [List.length_replicate]), List.length_replicate, Nat.sub_self]
    rfl
  constructor
  · intro h
    exact (h i part hi).resolve_left (by rw [hnamed]; nofun)
  · intro h j q hq
    by_cases hj : j = i
    · subst hj
      rw [hi] at hq
      obtain rfl := Option.some.inj hq
      exact .inr h
    · refine .inl ?_
      have hmem : q = [42] := by
        rcases Nat.lt_or_gt_of_ne hj with hlt | hgt
        · rw [List.getElem?_append_left (by rwa [List.length_replicate])] at hq
          exact List.eq_of_mem_replicate (List.mem_of_getElem? hq)
        · obtain ⟨k, rfl⟩ := Nat.exists_eq_add_of_lt hgt
          rw [List.getElem?_append_right (by rw [List.length_replicate]; omega), List.length_replicate,
            show i + k + 1 - i = k + 1 by omega] at hq
          cases k with
          | zero => exact (Option.some.inj hq).symm
          | succ k => cases hq
      rw [hmem]
      decide

theorem splitBars_eq_singleton {s : Str} (h : Unbarred s) : splitBars s = [s] := by
  induction s using splitBars.induct with
  | case1 s ih => exact absurd ⟨rfl, rfl⟩ (List.isChain_cons_cons.mp h).1
  | case2 => rw [splitBars]
  | case3 c s hbars ih =>
    rw [splitBars, ih (List.IsChain.tail h)]
    · rfl
    · exact hbars

theorem satisfies_placed {a part : Str} (h : Nameable part) (hpart : 46 ∉ part) (i : ℕ) :
    versionSatisfies a (61 :: placed i part) (str "fabric") = decide (((strip a).splitOn 46)[i]? = some part) := by
  have hplaced := h.toPlain.placed i
  have hplain : Plain (61 :: placed i part) := hplaced.cons (by decide) (by decide)
  have hlast : ∀ c ∈ (placed i part).getLast?, isSpace c = false := by
    rintro c hc
    rw [getLast?_placed] at hc
    obtain rfl := Option.some.inj hc
    decide
  have hstrip : strip (placed i part) = placed i part :=
    strip_eq_self (fun c hc => (hplaced.chars c (List.mem_of_mem_head? hc)).2) hlast
  have hstrip' : strip (61 :: placed i part) = 61 :: placed i part :=
    strip_eq_self (fun c hc => (hplain.chars c (List.mem_of_mem_head? hc)).2)
      fun c hc => (hplain.chars c (List.mem_of_mem_getLast? hc)).2
  have hrange : isXRange (placed i part) = true := by
    rw [isXRange, splitOn_placed hpart, List.any_eq_true]
    exact ⟨[42], by simp, by decide⟩
  have hpredicate : semverPredicate (strip a) (61 :: placed i part) = some (xRange (strip a) (placed i part)) := by
    have heq : semverPredicate (strip a) (61 :: placed i part) =
        if isXRange (strip (placed i part)) then some (xRange (strip a) (strip (placed i part)))
        else (compareVersions (strip a) (strip (placed i part))).map fun o => decide (o = .eq) := rfl
    rw [heq, hstrip, if_pos hrange]
  have hsemver : semverSatisfies (strip a) (61 :: placed i part) = some (xRange (strip a) (placed i part)) := by
    have hchars : ∀ c ∈ 61 :: placed i part, (decide (c = 44) || isSpace c) = false := by
      intro c hc
      rw [decide_eq_false (hplain.chars c hc).1, (hplain.chars c hc).2]
      rfl
    have hsplit : ((61 :: placed i part).splitOnP fun c => c = 44 || isSpace c).filter (· ≠ []) =
        [61 :: placed i part] := by
      rw [List.splitOnP_eq_singleton hchars]
      rfl
    rw [semverSatisfies, splitBars_eq_singleton hplain.bars, List.anyM, alternative, hsplit, List.allM, hpredicate]
    cases xRange (strip a) (placed i part) <;> rfl
  have hany : ¬ (61 :: placed i part = [] ∨ 61 :: placed i part = str "*") := by
    rintro (h | h)
    · cases h
    · cases (List.cons.inj h).1
  rw [versionSatisfies, hstrip', if_neg hany, if_neg (by decide), if_neg (by decide), hsemver,
    ← xRange_placed hpart h.named]
  rfl

/-! ## A range that ends at a version -/

/-- A version below all that have fewer components; its metadata opens brackets. -/
def bottom : ℕ → ℕ → Str
  | 0, opens => 43 :: List.replicate opens 40
  | k + 1, opens => 0 :: 46 :: bottom k opens

/-- From the bottom up to a version; brackets that the version closes are open. -/
def below (k : ℕ) (version : Str) : Str := 91 :: (bottom k (version.length + 3) ++ 44 :: (version ++ [43, 41]))

theorem mem_bottom {k opens : ℕ} {c : CodePoint} (h : c ∈ bottom k opens) : c = 0 ∨ c = 46 ∨ c = 43 ∨ c = 40 := by
  induction k with
  | zero =>
    rcases List.mem_cons.mp h with rfl | h
    · exact .inr (.inr (.inl rfl))
    · exact .inr (.inr (.inr (List.eq_of_mem_replicate h)))
  | succ k ih =>
    rcases List.mem_cons.mp h with rfl | h
    · exact .inl rfl
    rcases List.mem_cons.mp h with rfl | h
    · exact .inr (.inl rfl)
    · exact ih h

theorem isSpace_of_mem_bottom {k opens : ℕ} {c : CodePoint} (h : c ∈ bottom k opens) : isSpace c = false := by
  rcases mem_bottom h with rfl | rfl | rfl | rfl <;> decide

theorem notMem_bottom (k opens : ℕ) : 44 ∉ bottom k opens := fun h => by
  rcases mem_bottom h with h | h | h | h <;> cases h

theorem parts_bottom (k opens : ℕ) : parts (bottom k opens) = List.replicate k [0] := by
  induction k with
  | zero => rfl
  | succ k ih =>
    rw [parts] at ih ⊢
    rw [List.replicate_succ, ← ih, bottom, List.takeWhile_cons_of_pos (by decide),
      List.takeWhile_cons_of_pos (by decide), List.splitOnP_cons_eq_if_modifyHead, if_neg (by decide), List.splitOnP_cons_eq_if_modifyHead,
      if_pos (by decide)]
    rfl

theorem components_bottom (k opens : ℕ) : components (bottom k opens) = some (List.replicate k (.text [0])) := by
  rw [components, parts_bottom]
  induction k with
  | zero => rfl
  | succ k ih => rw [List.replicate_succ, List.mapM_cons, ih]; rfl

theorem text_ne_nil {x : List Component} (hx : components v = some x) : ∀ s, .text s ∈ x → s ≠ [] := by
  intro s hs
  have hmem : ∀ (ps : List Str) (y : List Component), ps.mapM component = some y → .text s ∈ y → s ∈ ps := by
    intro ps
    induction ps with
    | nil =>
      rintro y hy hs
      obtain rfl : [] = y := Option.some.inj hy
      cases hs
    | cons p ps ih =>
      intro y hy hs
      rw [List.mapM_cons] at hy
      obtain ⟨c, hc, hy⟩ := Option.bind_eq_some_iff.mp hy
      obtain ⟨z, hz, hy⟩ := Option.bind_eq_some_iff.mp hy
      obtain rfl : c :: z = y := Option.some.inj hy
      rcases List.mem_cons.mp hs with rfl | hs
      · rw [component] at hc
        split_ifs at hc
        · obtain ⟨n, -, hn⟩ := Option.map_eq_some_iff.mp hc
          cases hn
        · cases hc
          exact List.mem_cons_self
      · exact List.mem_cons_of_mem _ (ih z hz hs)
  exact ne_nil_of_mem_parts (hmem _ _ hx hs)

/-- A version is above the bottom. -/
theorem compare_bottom {x : List Component} (hx : components v = some x) {k : ℕ} (hk : x.length < k) (opens : ℕ) :
    compareVersions v (bottom k opens) = some .gt := by
  rw [compareVersions_eq hx (components_bottom k opens)]
  refine congrArg some (Padded.compareLists_replicate rfl (fun c hc => ?_) hk)
  cases c with
  | number n => nofun
  | text s =>
    obtain ⟨c, s, rfl⟩ := List.exists_cons_of_ne_nil (text_ne_nil hx s hc)
    have hnot : ¬ (c :: s : Str) < [0] := by
      rw [List.cons_lt_cons_iff]
      rintro (h | ⟨-, h⟩)
      · exact absurd h (Fin.not_lt_zero c)
      · exact absurd h (List.not_lt_nil s)
    rw [compareComponents, if_neg hnot]
    split_ifs <;> nofun

theorem splitIntervals_cons {c : CodePoint} (hc : c = 0 ∨ c = 46 ∨ c = 43) (depth : ℤ) (s : Str) :
    splitIntervals depth (c :: s) = (splitIntervals depth s).modifyHead (c :: ·) := by
  rcases hc with rfl | rfl | rfl <;> rfl

theorem splitIntervals_bottom (k opens : ℕ) (depth : ℤ) (s : Str) :
    splitIntervals depth (bottom k opens ++ s) =
      (splitIntervals (depth + opens) s).modifyHead (bottom k opens ++ ·) := by
  have hopens : ∀ depth : ℤ, splitIntervals depth (List.replicate opens 40 ++ s) =
      (splitIntervals (depth + opens) s).modifyHead (List.replicate opens 40 ++ ·) := by
    induction opens with
    | zero =>
      intro depth
      rw [Nat.cast_zero, add_zero]
      exact (congrFun List.modifyHead_id _).symm
    | succ opens ih =>
      intro depth
      have hcons : splitIntervals depth (40 :: (List.replicate opens 40 ++ s)) =
          (splitIntervals (depth + 1) (List.replicate opens 40 ++ s)).modifyHead (40 :: ·) := rfl
      rw [List.replicate_succ, List.cons_append, hcons, ih, List.modifyHead_modifyHead, add_assoc, Nat.cast_succ,
        add_comm (opens : ℤ) 1]
      rfl
  induction k with
  | zero =>
    rw [bottom, List.cons_append, splitIntervals_cons (.inr (.inr rfl)), hopens, List.modifyHead_modifyHead]
    rfl
  | succ k ih =>
    rw [bottom, List.cons_append, List.cons_append, splitIntervals_cons (.inl rfl),
      splitIntervals_cons (.inr (.inl rfl)), ih, List.modifyHead_modifyHead, List.modifyHead_modifyHead]
    rfl

/-- Where more brackets are open than characters are left, nothing separates. -/
theorem splitIntervals_deep {s : Str} {depth : ℤ} (h : s.length < depth) : splitIntervals depth s = [s] := by
  induction s generalizing depth with
  | nil => rfl
  | cons c s ih =>
    rw [List.length_cons, Nat.cast_succ] at h
    have hdepth : ∃ d, (if c = 91 ∨ c = 40 then depth + 1 else if c = 93 ∨ c = 41 then depth - 1 else depth) = d ∧
        depth - 1 ≤ d ∧ (c = 44 → d = depth) := by
      refine ⟨_, rfl, by split_ifs <;> omega, ?_⟩
      rintro rfl
      rw [if_neg (by decide), if_neg (by decide)]
    obtain ⟨d, hd, hle, hcomma⟩ := hdepth
    rw [splitIntervals]
    simp only [hd]
    rw [if_neg fun hzero => by have := hcomma hzero.1; omega, ih (by omega)]
    rfl

theorem splitIntervals_below (k : ℕ) (t : Str) : splitIntervals 0 (below k t) = [below k t] := by
  have hopen : ∀ s, splitIntervals 0 (91 :: s) = (splitIntervals 1 s).modifyHead (91 :: ·) := fun _ => rfl
  have hlen : ((44 :: (t ++ [43, 41]) : Str).length : ℤ) < 1 + ((t.length + 3 : ℕ) : ℤ) := by
    rw [List.length_cons, List.length_append, List.length_cons, List.length_singleton]
    push_cast
    omega
  rw [below, hopen, splitIntervals_bottom, splitIntervals_deep hlen]
  rfl

theorem components_metadata (t : Str) : components (t ++ [43]) = components t := by
  have h : (t ++ [43]).takeWhile (· ≠ 43) = t.takeWhile (· ≠ 43) := by
    induction t with
    | nil => rfl
    | cons c t ih =>
      rw [List.cons_append, List.takeWhile_cons, List.takeWhile_cons, ih]
  rw [components, components, parts, parts, h]

theorem below_eq (k : ℕ) (t : Str) : below k t = 91 :: (bottom k (t.length + 3) ++ 44 :: (t ++ [43])) ++ [41] := by
  rw [below]
  simp

theorem getLast?_below (k : ℕ) (t : Str) : (below k t).getLast? = some 41 := by
  rw [below_eq, List.getLast?_concat]

/-- What is in the range below a version is below the version. -/
theorem mavenInterval_below {x : List Component} (hx : components v = some x) {k : ℕ} (hk : x.length < k) {t : Str}
    (ht : ∀ c ∈ t.head?, isSpace c = false) :
    mavenInterval v (below k t) = (compareVersions v t).map fun o => decide (o = .lt) := by
  set low := bottom k (t.length + 3) with hbottom
  have hcomma : ∀ c ∈ low, decide (c ≠ 44) = true := fun c hc =>
    decide_eq_true (ne_of_mem_of_not_mem hc (notMem_bottom _ _))
  have hinner : (below k t).tail.dropLast = low ++ 44 :: (t ++ [43]) := by
    rw [below_eq, List.cons_append, List.tail_cons, List.dropLast_concat]
  have hlow : strip ((low ++ 44 :: (t ++ [43])).takeWhile (· ≠ 44)) = low := by
    rw [List.takeWhile_append_of_pos hcomma, List.takeWhile_cons_of_neg (by decide), List.append_nil]
    exact strip_eq_self (fun c hc => isSpace_of_mem_bottom (List.mem_of_mem_head? hc))
      fun c hc => isSpace_of_mem_bottom (List.mem_of_mem_getLast? hc)
  have hhigh : strip ((low ++ 44 :: (t ++ [43])).dropWhile (· ≠ 44)).tail = t ++ [43] := by
    rw [List.dropWhile_append_of_pos hcomma, List.dropWhile_cons_of_neg (by decide), List.tail_cons]
    refine strip_eq_self (fun c hc => ?_) fun c hc => ?_
    · cases t with
      | nil =>
        obtain rfl := Option.some.inj hc
        decide
      | cons d t => exact ht c hc
    · rw [List.getLast?_concat] at hc
      obtain rfl := Option.some.inj hc
      decide
  have hlow_ne : low ≠ [] := by
    rw [hbottom]
    cases k <;> exact List.cons_ne_nil _ _
  have hlow_gt : compareVersions v low = some .gt := compare_bottom hx hk _
  have hhigh_eq : compareVersions v (t ++ [43]) = compareVersions v t := by
    rw [compareVersions, compareVersions, components_metadata]
  have hmem : (44 : CodePoint) ∈ low ++ 44 :: (t ++ [43]) := List.mem_append_right _ List.mem_cons_self
  have hopens : ((below k t).head?.any fun c => c = 91 || c = 40) = true := rfl
  have hcloses : ((below k t).getLast?.any fun c => c = 93 || c = 41) = true := by
    rw [getLast?_below]
    rfl
  rw [mavenInterval]
  simp only [hopens, hcloses, hinner, hlow, hhigh, hlow_gt, hhigh_eq]
  rw [if_neg (by decide), if_neg (by decide), if_neg (not_not.mpr hmem), if_pos hlow_ne, Option.bind_eq_bind,
    Option.bind_some, if_neg (by rintro (h | ⟨h, -⟩) <;> cases h), getLast?_below,
    if_pos (List.append_ne_nil_of_right_ne_nil _ (List.cons_ne_nil _ _))]
  cases compareVersions v t with
  | none => rfl
  | some o => cases o <;> rfl

theorem satisfies_below {a t : Str} {x : List Component} (hx : components (strip a) = some x) {k : ℕ}
    (hk : x.length < k) (ht : ∀ c ∈ t.head?, isSpace c = false) {o : Ordering}
    (ho : compareVersions (strip a) t = some o) :
    versionSatisfies a (below k t) (str "forge") = decide (o = .lt) := by
  have hne : below k t ≠ [] := List.cons_ne_nil _ _
  have hstrip : strip (below k t) = below k t := by
    refine strip_eq_self (fun c hc => ?_) fun c hc => ?_
    · obtain rfl := Option.some.inj hc
      decide
    · rw [getLast?_below] at hc
      obtain rfl := Option.some.inj hc
      decide
  have hany : ¬ (below k t = [] ∨ below k t = str "*") := by
    rintro (h | h)
    · cases h
    · cases (List.cons.inj h).1
  have hmaven : mavenSatisfies (strip a) (below k t) = some (decide (o = .lt)) := by
    have htokens : ((splitIntervals 0 (below k t)).map strip).filter (· ≠ []) = [below k t] := by
      rw [splitIntervals_below, List.map_singleton, hstrip]
      rfl
    rw [mavenSatisfies, htokens]
    simp only [List.filterMap_cons, mavenInterval_below hx hk ht, ho, Option.map_some, List.filterMap_nil]
    rw [if_neg (List.cons_ne_nil _ _)]
    simp
  rw [versionSatisfies, hstrip, if_neg hany, if_neg (by decide), if_pos (.inl rfl), hmaven]
  rfl

/-! ## Alike versions -/

theorem head?_strip (s : Str) : ∀ c ∈ (strip s).head?, isSpace c = false := by
  intro c hc
  obtain ⟨t, ht⟩ := List.rdropWhile_prefix isSpace (s.dropWhile isSpace)
  obtain ⟨u, hu⟩ := List.head?_eq_some_iff.mp hc
  have hhead := List.head?_dropWhile_not isSpace s
  rw [← ht, show (s.dropWhile isSpace).rdropWhile isSpace = c :: u from hu] at hhead
  exact hhead

theorem compareVersions_self {x : List Component} (hx : components v = some x) : compareVersions v v = some .eq := by
  rw [compareVersions_eq hx hx]
  exact congrArg some Std.ReflCmp.compare_self

/-- Versions that satisfy the same ranges are alike. -/
theorem alike_of_satisfies {a b : Str}
    (h : ∀ range loader, versionSatisfies a range loader = versionSatisfies b range loader) : Alike a b := by
  refine ⟨?_, fun i part hpart => ?_⟩
  · have hnothing := h (str "<1,>1") (str "fabric")
    rw [satisfies_nothing, satisfies_nothing] at hnothing
    rw [Tied]
    cases hx : components (strip a) with
    | none =>
      rw [hx] at hnothing
      rw [Option.isNone_iff_eq_none.mp hnothing.symm]
      exact .none
    | some x =>
      obtain ⟨y, hy⟩ : ∃ y, components (strip b) = some y := by
        rw [← Option.isSome_iff_exists, ← Option.not_isNone, ← hnothing, hx]
        rfl
      rw [hy]
      refine .some ?_
      -- the range below the greater of the two has one of them
      have hab := compareVersions_eq hx hy
      have hba := compareVersions_eq hy hx
      rw [← compareLists_eq] at hab hba
      have hswap : compareLists y x = (compareLists x y).swap := by
        rw [compareLists_eq, compareLists_eq]
        exact Std.OrientedCmp.eq_swap
      cases ho : compareLists x y with
      | eq => rfl
      | lt =>
        have hbelow := h (below (x.length + y.length + 1) (strip b)) (str "forge")
        rw [satisfies_below hx (by omega) (head?_strip b) hab,
          satisfies_below hy (by omega) (head?_strip b) (compareVersions_self hy), ho] at hbelow
        cases hbelow
      | gt =>
        have hbelow := h (below (x.length + y.length + 1) (strip a)) (str "forge")
        rw [satisfies_below hx (by omega) (head?_strip a) (compareVersions_self hx),
          satisfies_below hy (by omega) (head?_strip a) hba, hswap, ho] at hbelow
        cases hbelow
  · by_cases hdot : 46 ∈ part
    · have hnot : ∀ s : Str, (s.splitOn 46)[i]? ≠ some part := fun s hs =>
        notMem_of_mem_splitOn (List.mem_of_getElem? hs) hdot
      exact iff_of_false (hnot _) (hnot _)
    · have hplaced := h (61 :: placed i part) (str "fabric")
      rw [satisfies_placed hpart hdot, satisfies_placed hpart hdot] at hplaced
      exact decide_eq_decide.mp hplaced

/-- **Equal versions satisfy the same ranges**, exactly when they are still tied without the blanks around them, and
have the same parts wherever a range can name the part. -/
theorem equal_versions_alike (a b : Str) :
    (compareVersions a b = some .eq →
        ∀ range loader, versionSatisfies a range loader = versionSatisfies b range loader) ↔
      (compareVersions a b = some .eq → Alike a b) :=
  imp_congr_right fun _ => ⟨alike_of_satisfies, Alike.satisfies⟩

/-- **An `x`-range sees the metadata** of a version. -/
theorem satisfies_metadata : compareVersions (str "1.2") (str "1.2+b") = some .eq ∧
    versionSatisfies (str "1.2") (str "1.2.x") (str "fabric") = true ∧
    versionSatisfies (str "1.2+b") (str "1.2.x") (str "fabric") = false := by
  decide

end McServerDashboard.Plugins
