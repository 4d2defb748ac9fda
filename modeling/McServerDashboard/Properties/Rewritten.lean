import McServerDashboard.Properties.Writer

/-!
# What a rewritten `server.properties` reads

* `entries`: the keys and the values of a file, in order.
* **`endsInDanglingContinuation_iff`**, **`continuationEnd_eq`**: the end of a file that continues onto what follows.
* **`entries_append`**: appended lines are not read into the line above.
* **`entries_rewrite`**: the keys and the values that `_rewrite` leaves.
* `entries_normalize`, `filter_normalize`: what `_normalize` leaves.
-/

namespace McServerDashboard.Properties

open Lib Lib.Properties

variable {content s r w : Bytes} {key value : Str} {values : List (Str × Str)} {cleared written keys : List Str}
  {bs init : List (List Line × Option Bytes)} {b : List Line × Option Bytes} {es : List Edit} {found : List Bytes}

/-! ## The edited file -/

/-- The keys and the values of a file, in order. -/
def entries (content : Bytes) : List (Str × Str) := (logicals content).map entry

/-- The edited file is closed, or ends in the last block as it is. -/
theorem spliced_run (hs : Sound bs) (hes : es.length = (bs.filterMap (·.2)).length) :
    (¬ kept bs es → Closed (spliced bs es) (edited (bs.filterMap (·.2)) es)) ∧
      (kept bs es → ∃ w found b, bs.getLast? = some b ∧ Closed w found ∧ spliced bs es = w ++ bytes b.1 ∧
        logicals (bytes b.1) = b.2.toList ∧ edited (bs.filterMap (·.2)) es = found ++ b.2.toList) := by
  induction bs generalizing es with
  | nil => exact ⟨fun _ => closed_nil, fun h => absurd h id⟩
  | cons b bs ih =>
    obtain ⟨taken, none | t⟩ := b
    · -- a block without a property stays
      cases bs with
      | nil =>
        refine ⟨fun h => absurd trivial h, fun _ => ⟨[], [], _, rfl, closed_nil, ?_, hs.2, rfl⟩⟩
        simp [spliced]
      | cons b' bs =>
        obtain ⟨hclosed, hrest⟩ := hs
        obtain ⟨hno, hyes⟩ := ih hrest hes
        refine ⟨fun h => hclosed.append (hno h), fun h => ?_⟩
        obtain ⟨w, found, b, hb, hw, htext, hlog, hed⟩ := hyes h
        refine ⟨bytes taken ++ w, found, b, hb, hclosed.append hw, ?_, hlog, hed⟩
        rw [List.append_assoc, ← htext]
        rfl
    · obtain _ | ⟨e, es⟩ := es
      · cases hes
      have hlen : es.length = (bs.filterMap (·.2)).length := by simpa using hes
      have htext : (taken, some t) :: bs ≠ [] → e ≠ .keep → Closed (e.text taken) (e.found t) := by
        intro _ hne
        cases e with
        | keep => exact absurd rfl hne
        | drop => exact closed_nil
        | write k v => exact closed_newLine
      cases bs with
      | nil =>
        have hnil : es = [] := List.length_eq_zero_iff.mp hlen
        subst hnil
        constructor
        · intro h
          have hne : e ≠ .keep := fun he => h (by rw [he]; rfl)
          have hc := htext (List.cons_ne_nil _ _) hne
          have happ : e.text taken ++ [] = e.text taken := List.append_nil _
          have happ' : e.found t ++ [] = e.found t := List.append_nil _
          show Closed (e.text taken ++ []) (e.found t ++ [])
          rwa [happ, happ']
        · intro h
          have he : e = .keep := Option.some.inj h
          subst he
          exact ⟨[], [], _, rfl, closed_nil, List.append_nil _, hs.2, rfl⟩
      | cons b' bs =>
        obtain ⟨hclosed, hrest⟩ := hs
        obtain ⟨hno, hyes⟩ := ih hrest hlen
        have hhead : Closed (e.text taken) (e.found t) := by
          by_cases he : e = .keep
          · rw [he]
            exact hclosed
          · exact htext (List.cons_ne_nil _ _) he
        refine ⟨fun h => hhead.append (hno h), fun h => ?_⟩
        obtain ⟨w, found, b, hb, hw, htext, hlog, hed⟩ := hyes h
        refine ⟨e.text taken ++ w, e.found t ++ found, b, hb, hhead.append hw, ?_, hlog, ?_⟩
        · rw [List.append_assoc, ← htext]
          rfl
        · rw [List.append_assoc, ← hed]
          rfl

/-- **The logical lines of the edited file.** -/
theorem logicals_spliced (hs : Sound bs) (hes : es.length = (bs.filterMap (·.2)).length) :
    logicals (spliced bs es) = edited (bs.filterMap (·.2)) es := by
  obtain ⟨hno, hyes⟩ := spliced_run hs hes
  by_cases h : kept bs es
  · obtain ⟨w, found, b, -, hw, htext, hlog, hed⟩ := hyes h
    rw [htext, (hw _).logicals, hlog, hed]
  · exact (hno h).logicals_nil

/-! ## Entries -/

/-- What `_rewrite` does to the entries. -/
def rewriteEntries (values : List (Str × Str)) (cleared : List Str) : List Str → List (Str × Str) → List (Str × Str)
  | _, [] => []
  | written, kv :: kvs =>
    match values.lookup kv.1 with
    | some value =>
      if kv.1 ∈ written then rewriteEntries values cleared written kvs
      else (merged kv.1, merged value) :: rewriteEntries values cleared (kv.1 :: written) kvs
    | none =>
      if kv.1 ∈ cleared then rewriteEntries values cleared written kvs
      else kv :: rewriteEntries values cleared written kvs

theorem map_entry_edited (ts : List Bytes) :
    (edited ts (edits values cleared written (ts.map fun t => (entry t).1))).map entry =
      rewriteEntries values cleared written (ts.map entry) := by
  induction ts generalizing written with
  | nil => rfl
  | cons t ts ih =>
    simp only [List.map_cons, edits, rewriteEntries]
    cases hl : values.lookup (entry t).1 with
    | some value =>
      by_cases hw : (entry t).1 ∈ written
      · simp only [hw, if_true, edited, Edit.found, List.nil_append, ih]
      · simp only [hw, if_false, edited, Edit.found, List.singleton_append, List.map_cons, entry_newLine, ih]
    | none =>
      by_cases hc : (entry t).1 ∈ cleared
      · simp only [hc, if_true, edited, Edit.found, List.nil_append, ih]
      · simp only [hc, if_false, edited, Edit.found, List.singleton_append, List.map_cons, ih]

/-! ## The end of a file -/

/-- What the lines of an unfinished block say of where they leave the logical line. -/
def Pending : Mode → List Line → Prop
  | .start, taken => taken = []
  | .lone _, taken => (∀ x ∈ taken, trim x.text = [backslash]) ∧ ∃ l, taken.getLast? = some l ∧ odd l.text = true
  | .cont _, taken => (∃ x ∈ taken, trim x.text ≠ [backslash]) ∧ ∃ l, taken.getLast? = some l ∧ odd l.text = true

theorem pending_first {m m' : Mode} {l : Line} {taken : List Line} (h : Pending m taken) (hs : step m l = (m', none)) :
    Pending m' (taken ++ [l]) := by
  have hlast : (taken ++ [l]).getLast? = some l := List.getLast?_concat
  have hfirst (hall : ∀ x ∈ taken, trim x.text = [backslash]) (hf : first l (trim l.text) = (m', none)) :
      Pending m' (taken ++ [l]) := by
    unfold first at hf
    split at hf
    next ht =>
      cases hf
      refine ⟨fun x hx => ?_, l, hlast, by rw [← odd_trim, ht, odd_single]⟩
      rcases List.mem_append.mp hx with hx | hx
      · exact hall x hx
      · rw [List.mem_singleton.mp hx, ht]
    next ht =>
    split at hf
    · cases hf
    split at hf
    next hodd =>
      cases hf
      exact ⟨⟨l, by simp, ht⟩, l, hlast, by rwa [← odd_trim]⟩
    · cases hf
  cases m with
  | start =>
    refine hfirst (fun x hx => ?_) hs
    rw [show taken = [] from h] at hx
    cases hx
  | lone c => exact hfirst h.1 hs
  | cont acc =>
    simp only [step] at hs
    split at hs
    next hodd =>
      cases hs
      obtain ⟨⟨x, hx, hne⟩, -⟩ := h
      exact ⟨⟨x, List.mem_append_left _ hx, hne⟩, l, hlast, by rwa [← odd_trim]⟩
    · cases hs

/-- A line that ends a property does not end in an odd run of backslashes. -/
theorem odd_of_found {m : Mode} {l : Line} {t : Bytes} (h : (step m l).2 = some (some t)) : odd l.text = false := by
  have hfirst (hf : (first l (trim l.text)).2 = some (some t)) : odd l.text = false := by
    unfold first at hf
    split_ifs at hf with h1 h2 h3
    · cases hf
    · rwa [Bool.not_eq_true, odd_trim] at h3
  cases m with
  | start => exact hfirst h
  | lone c => exact hfirst h
  | cont acc =>
    simp only [step] at h
    split_ifs at h with h1
    rwa [Bool.not_eq_true, odd_trim] at h1

theorem blocks_ne {m : Mode} {taken ls : List Line} (h : m ≠ .start ∨ ls ≠ []) : blocks m taken ls ≠ [] := by
  induction ls generalizing m taken with
  | nil =>
    have hm := h.resolve_right fun h => h rfl
    cases m with
    | start => exact absurd rfl hm
    | lone c | cont acc => exact List.cons_ne_nil _ _
  | cons l ls ih =>
    simp only [blocks]
    cases hstep : step m l with
    | mk m' found =>
    cases found with
    | none =>
      have hopen := step_open (m := m) (l := l) (by rw [hstep])
      rw [hstep] at hopen
      exact ih (.inl hopen)
    | some found => exact List.cons_ne_nil _ _

/-- **The last block of a text**: whether a property is left open, and by what lines. -/
theorem last_block {m : Mode} (ls taken : List Line) (hp : Pending m taken)
    (hb : (blocks m taken ls).getLast? = some b) : (b.2 = none → rest (after m ls) = []) ∧
      ∀ t, b.2 = some t → ∃ l, (taken ++ ls).getLast? = some l ∧ (odd l.text = true ↔ rest (after m ls) ≠ []) ∧
        (rest (after m ls) ≠ [] → ((∀ x ∈ b.1, trim x.text = [backslash]) ↔ ∃ c, after m ls = .lone c)) := by
  induction ls generalizing m taken with
  | nil =>
    simp only [after, List.foldl_nil, List.append_nil]
    simp only [blocks] at hb
    cases m with
    | start => cases hb
    | lone c =>
      obtain ⟨hall, l, hl, hodd⟩ := hp
      cases c with
      | true =>
        cases hb
        exact ⟨fun _ => rfl, (fun _ h => by cases h)⟩
      | false =>
        cases hb
        refine ⟨(fun h => by cases h), fun t _ => ⟨l, hl, by simp [hodd, rest, finish], fun _ => ?_⟩⟩
        exact ⟨fun _ => ⟨false, rfl⟩, fun _ => hall⟩
    | cont acc =>
      obtain ⟨⟨x, hx, hne⟩, l, hl, hodd⟩ := hp
      cases hb
      refine ⟨(fun h => by cases h), fun t _ => ⟨l, hl, by simp [hodd, rest, finish], fun _ => ?_⟩⟩
      exact ⟨fun hall => absurd (hall x hx) hne, fun hc => by cases hc.choose_spec⟩
  | cons l ls ih =>
    have hsnoc : taken ++ l :: ls = (taken ++ [l]) ++ ls := by simp
    simp only [blocks] at hb
    cases hstep : step m l with
    | mk m' found =>
    have hafter : after m (l :: ls) = after m' ls := by rw [after, List.foldl_cons, hstep]; rfl
    rw [hstep] at hb
    rw [hafter]
    cases found with
    | none =>
      rw [hsnoc]
      exact ih _ (pending_first hp hstep) hb
    | some found =>
      have hm' : m' = .start := by
        have hs : (step m l).1 = .start := step_start (by rw [hstep])
        rwa [hstep] at hs
      subst hm'
      cases ls with
      | nil =>
        cases hb
        refine ⟨fun _ => rfl, fun t ht => ⟨l, List.getLast?_concat, ?_, fun h => absurd rfl h⟩⟩
        have hodd : odd l.text = false := odd_of_found (m := m) (t := t) (by rw [hstep]; exact congrArg some ht)
        simp [hodd, after, rest, finish]
      | cons l' ls =>
        have hne : blocks .start [] (l' :: ls) ≠ [] := blocks_ne (.inr (List.cons_ne_nil _ _))
        obtain ⟨c, cs, hcs⟩ := List.exists_cons_of_ne_nil hne
        dsimp only at hb
        rw [hcs, List.getLast?_cons_cons, ← hcs] at hb
        obtain ⟨h₁, h₂⟩ := ih [] (show Pending .start [] from rfl) hb
        refine ⟨h₁, fun t ht => ?_⟩
        obtain ⟨x, hx, h₃⟩ := h₂ t ht
        refine ⟨x, ?_, h₃⟩
        rw [hsnoc, List.getLast?_append_of_ne_nil _ (List.cons_ne_nil _ _)]
        exact hx

/-! ### Where the text ends -/

/-- The last line of a text, and what is before it. -/
theorem last_line {l : Line} (hl : (lines s).getLast? = some l) : ∃ u, s = u ++ l.bytes ∧ l.Before [] ∧ l.bytes ≠ [] ∧
    (∀ x ∈ u.getLast?, isEol x = true) ∧ (l.bytes.head? = some lf → u.getLast? ≠ some cr) := by
  obtain ⟨hs, hc⟩ := lines_spec s
  obtain ⟨xs, hxs⟩ := List.getLast?_eq_some_iff.mp hl
  rw [hxs] at hs hc
  refine ⟨bytes xs, ?_, hc.right.2.1, hc.right.1, ?_⟩
  · rw [← hs, bytes_append]
    simp [bytes]
  rcases List.eq_nil_or_concat xs with rfl | ⟨ys, x, rfl⟩
  · simp [bytes]
  · rw [List.concat_eq_append] at hc ⊢
    have hx : x.Before (l.bytes ++ []) := by
      rw [List.append_assoc] at hc
      exact hc.right.2.1
    rw [List.append_nil] at hx
    rw [hc.left.getLast?, Line.bytes]
    have hne : lf ≠ cr := by decide
    rcases hx.ends with he | ⟨he, hhead⟩ | he | ⟨-, he⟩
    · simp [he, isEol, hne]
    · simpa [he, isEol] using hhead
    · simp [he, isEol, hne]
    · exact absurd he hc.right.1

theorem rtakeWhile_append {p : UInt8 → Bool} {u t : Bytes} (ht : ∀ x ∈ t, p x = true) (hu : ∀ x ∈ u.getLast?, p x = false) :
    (u ++ t).rtakeWhile p = t := by
  rw [List.rtakeWhile, List.reverse_append, List.takeWhile_append_of_pos (by simpa using ht)]
  have hnil : u.reverse.takeWhile p = [] := by
    cases hr : u.reverse with
    | nil => rfl
    | cons x r =>
      have hx : u.getLast? = some x := by rw [← List.head?_reverse, hr]; rfl
      rw [List.takeWhile_cons_of_neg (by simp [hu x hx])]
  rw [hnil, List.append_nil, List.reverse_reverse]

/-- The text of the last line, as `_ends_in_dangling_continuation` takes it from the end of the file. -/
theorem dangling_text {l : Line} (hl : (lines s).getLast? = some l) :
    ((if [cr, lf] <:+ s then s.dropLast.dropLast else if [lf] <:+ s ∨ [cr] <:+ s then s.dropLast else s).rtakeWhile
      (!isEol ·)) = l.text := by
  obtain ⟨u, rfl, hb, hne, hu, hcr⟩ := last_line hl
  obtain ⟨text, eol⟩ := l
  have htext : ∀ x ∈ text, isEol x = false := hb.text
  have hend : (u ++ text).rtakeWhile (!isEol ·) = text :=
    rtakeWhile_append (fun x hx => by simp [htext x hx]) fun x hx => by simp [hu x hx]
  have hlast {c : UInt8} (hc : isEol c = true) (hmem : text ≠ []) : ¬ [c] <:+ u ++ text := by
    rw [List.singleton_suffix_iff_getLast?_eq_some, List.getLast?_append_of_ne_nil _ hmem]
    intro h
    rw [htext c (List.mem_of_getLast? h)] at hc
    cases hc
  have hpair {w : Bytes} : [cr, lf] <:+ w ++ [lf] ↔ [cr] <:+ w := by
    constructor
    · rintro ⟨v, hv⟩
      have hsnoc : (v ++ [cr]) ++ [lf] = w ++ [lf] := by rw [← hv, List.append_assoc]; rfl
      exact ⟨v, List.append_cancel_right hsnoc⟩
    · rintro ⟨v, rfl⟩
      exact ⟨v, by simp⟩
  have hpair' {w : Bytes} {c : UInt8} (hc : c ≠ lf) : ¬ [cr, lf] <:+ w ++ [c] := by
    rintro ⟨v, hv⟩
    have hv' := congrArg List.getLast? hv
    simp at hv'
    exact hc hv'.symm
  rcases hb.ends with he | ⟨he, -⟩ | he | ⟨he, -⟩
  · obtain rfl : eol = [lf] := he
    have hs : u ++ (⟨text, [lf]⟩ : Line).bytes = (u ++ text) ++ [lf] := by simp [Line.bytes]
    have hno : ¬ [cr] <:+ u ++ text := by
      by_cases hnil : text = []
      · subst hnil
        rw [List.append_nil, List.singleton_suffix_iff_getLast?_eq_some]
        exact hcr rfl
      · exact hlast rfl hnil
    rw [hs, if_neg (hpair.not.mpr hno), if_pos (.inl (List.suffix_append _ _)), List.dropLast_concat, hend]
  · obtain rfl : eol = [cr] := he
    have hs : u ++ (⟨text, [cr]⟩ : Line).bytes = (u ++ text) ++ [cr] := by simp [Line.bytes]
    rw [hs, if_neg (hpair' (by decide)), if_pos (.inr (List.suffix_append _ _)), List.dropLast_concat, hend]
  · obtain rfl : eol = [cr, lf] := he
    have hs : u ++ (⟨text, [cr, lf]⟩ : Line).bytes = ((u ++ text) ++ [cr]) ++ [lf] := by simp [Line.bytes]
    rw [hs, if_pos (hpair.mpr (List.suffix_append _ _)), List.dropLast_concat, List.dropLast_concat, hend]
  · obtain rfl : eol = [] := he
    have hmem : text ≠ [] := fun h => hne (by simp [Line.bytes, h])
    have hs : u ++ (⟨text, []⟩ : Line).bytes = u ++ text := by simp [Line.bytes]
    have hno : ¬ [cr, lf] <:+ u ++ text := fun h => hlast (c := lf) rfl hmem ((List.suffix_cons cr [lf]).trans h)
    rw [hs, if_neg hno, if_neg (not_or.mpr ⟨hlast rfl hmem, hlast rfl hmem⟩), hend]

/-- The blocks of a file but the last, and the last. -/
theorem sound_last (hs : Sound bs) (hb : bs.getLast? = some b) : ∃ init found, bs = init ++ [b] ∧
    Closed (bytes (init.flatMap (·.1))) found ∧ bytes b.1 ≠ [] ∧ logicals (bytes b.1) = b.2.toList := by
  induction bs with
  | nil => cases hb
  | cons c bs ih =>
    cases bs with
    | nil =>
      cases hb
      exact ⟨[], [], rfl, closed_nil, hs⟩
    | cons c' bs =>
      rw [List.getLast?_cons_cons] at hb
      obtain ⟨init, found, hbs, hc, hlast⟩ := ih hs.2 hb
      refine ⟨c :: init, c.2.toList ++ found, by rw [hbs]; rfl, ?_, hlast⟩
      rw [List.flatMap_cons, bytes_append]
      exact hs.1.append hc

/-- The stops of properties lie within their blocks. -/
theorem stop_le {n : ℕ} {p : Property} (hp : p ∈ located n bs) : p.stop ≤ n + (bytes (bs.flatMap (·.1))).length := by
  induction bs generalizing n with
  | nil => cases hp
  | cons c bs ih =>
    obtain ⟨taken, found⟩ := c
    simp only [located, List.mem_append, Option.mem_toList, Option.map_eq_some_iff] at hp
    rw [List.flatMap_cons, bytes_append, List.length_append]
    rcases hp with ⟨t, -, rfl⟩ | hp
    · dsimp only
      omega
    · have hle := ih hp
      dsimp only
      omega

/-- **The test for a dangling continuation**: the file ends inside a logical line that it reads. -/
theorem endsInDanglingContinuation_iff :
    endsInDanglingContinuation content (parse content) = true ↔ rest (ending content) ≠ [] := by
  obtain ⟨hbytes, hsound⟩ := blocks_sound content
  cases hb : (blocks .start [] (lines content)).getLast? with
  | none =>
    rw [List.getLast?_eq_none_iff] at hb
    have hnil : content = [] := by rw [← hbytes, hb]; rfl
    subst hnil
    simp [endsInDanglingContinuation, parse_eq, lines_nil, blocks, finish, located, ending, after, rest]
  | some b =>
    obtain ⟨init, found, hinit, -, hpos, -⟩ := sound_last hsound hb
    obtain ⟨hnone, hsome⟩ := last_block (lines content) [] (show Pending .start [] from rfl) hb
    have hlen : content.length = (bytes (init.flatMap (·.1))).length + (bytes b.1).length := by
      conv_lhs => rw [← hbytes, hinit]
      simp [bytes_append]
    have hbpos := List.length_pos_iff.mpr hpos
    have hparse : parse content = located 0 init ++ located (bytes (init.flatMap (·.1))).length [b] := by
      rw [parse_eq, hinit, located_append, Nat.zero_add]
    cases hfound : b.2 with
    | none =>
      -- the last block has no property: the last property stops before it
      rw [ending, hnone hfound]
      have hnil : located (bytes (init.flatMap (·.1))).length [b] = [] := located_none (by simpa using hfound)
      rw [hnil, List.append_nil] at hparse
      unfold endsInDanglingContinuation
      cases hp : (parse content).getLast? with
      | none => simp
      | some p =>
        have hstop := stop_le (hparse ▸ List.mem_of_getLast? hp)
        have hne : p.stop ≠ content.length := by omega
        simp [hne]
    | some t =>
      obtain ⟨l, hl, hodd, -⟩ := hsome t hfound
      have hlast : (parse content).getLast? = some
          ⟨(entry t).1, (entry t).2, (bytes (init.flatMap (·.1))).length, content.length⟩ := by
        rw [hparse, hlen, located, hfound]
        simp [located]
      rw [List.nil_append] at hl
      unfold endsInDanglingContinuation
      rw [hlast]
      simp only [ne_eq, not_true_eq_false, if_false]
      rw [dangling_text hl, show endsWithOddBackslash (l.text.dropWhile isBlank) = odd (trim l.text) from rfl, odd_trim]
      exact hodd

/-- What ends the logical line that a file leaves open. -/
def sealOf : Mode → Bytes
  | .lone false => [61, lf]
  | .cont _ => [lf]
  | _ => []

/-- **What `_rewrite` writes after a dangling end.** -/
theorem continuationEnd_eq : (if endsInDanglingContinuation content (parse content) then
    ((parse content).getLast?.map (continuationEnd content)).getD [] else []) = sealOf (ending content) := by
  by_cases hd : endsInDanglingContinuation content (parse content) = true
  · rw [if_pos hd]
    have hrest := endsInDanglingContinuation_iff.mp hd
    obtain ⟨hbytes, hsound⟩ := blocks_sound content
    obtain ⟨ks, last, hks, -, -, hflat⟩ := blocks_spec (m := .start) (lines content) [] rfl rfl fun _ => rfl
    rw [← hks, List.nil_append] at hflat
    cases hb : (blocks .start [] (lines content)).getLast? with
    | none =>
      rw [List.getLast?_eq_none_iff] at hb
      rw [hb] at hflat
      rw [ending, ← hflat] at hrest
      exact absurd rfl hrest
    | some b =>
      obtain ⟨init, found, hinit, -, -, -⟩ := sound_last hsound hb
      obtain ⟨hnone, hsome⟩ := last_block (lines content) [] (show Pending .start [] from rfl) hb
      cases hfound : b.2 with
      | none => exact absurd (hnone hfound) hrest
      | some t =>
        obtain ⟨l, -, -, hlone⟩ := hsome t hfound
        have hcontent : content = bytes (init.flatMap (·.1)) ++ bytes b.1 := by
          conv_lhs => rw [← hbytes, hinit]
          simp [bytes_append]
        have hlast : (parse content).getLast? = some
            ⟨(entry t).1, (entry t).2, (bytes (init.flatMap (·.1))).length,
              (bytes (init.flatMap (·.1))).length + (bytes b.1).length⟩ := by
          rw [parse_eq, hinit, located_append, Nat.zero_add, located, hfound]
          simp [located]
        have hslice : slice content (bytes (init.flatMap (·.1))).length
            ((bytes (init.flatMap (·.1))).length + (bytes b.1).length) = bytes b.1 := by
          rw [hcontent]
          have hmiddle := slice_middle (u := bytes (init.flatMap (·.1))) (w := bytes b.1) (v := [])
          rwa [List.append_nil] at hmiddle
        have hchain : Chain b.1 := by
          have hc := (lines_spec content).2
          rw [← hflat, hinit, List.flatMap_append] at hc
          simpa using hc.right
        rw [hlast]
        simp only [Option.map_some, Option.getD_some, continuationEnd, hslice, lines_of_chain hchain]
        have hall : (b.1.all fun l => l.text.dropWhile isBlank = [backslash]) = true ↔ ∃ c, ending content = .lone c := by
          rw [ending, ← hlone hrest, List.all_eq_true]
          simp only [decide_eq_true_eq]
          rfl
        rw [ending] at hrest
        cases hm : ending content with
        | start =>
          rw [← ending, hm] at hrest
          exact absurd rfl hrest
        | lone c =>
          cases c with
          | true =>
            rw [← ending, hm] at hrest
            exact absurd rfl hrest
          | false => rw [if_pos (hall.mpr ⟨false, hm⟩)]; rfl
        | cont acc =>
          rw [if_neg fun h => ?_]
          · rfl
          · obtain ⟨c, hc⟩ := hall.mp h
            rw [hm] at hc
            cases hc
  · rw [if_neg hd]
    have hrest := endsInDanglingContinuation_iff.not.mp hd
    rw [ne_eq, not_not] at hrest
    cases hm : ending content with
    | start => rfl
    | lone c =>
      cases c with
      | true => rfl
      | false =>
        rw [hm] at hrest
        cases hrest
    | cont acc =>
      rw [hm] at hrest
      cases hrest

/-- The text, ended by a line feed if it is not empty. -/
def withLf (s : Bytes) : Bytes := if s ≠ [] ∧ ¬[lf] <:+ s then s ++ [lf] else s

theorem withLf_spec (s : Bytes) : front (withLf s) = front s ∧ (withLf s = [] ∨ [lf] <:+ withLf s) ∧
    (ending (withLf s) = ending s ∨ ∃ c d, ending s = .lone c ∧ ending (withLf s) = .lone d) := by
  unfold withLf
  split_ifs with h
  · obtain ⟨hf, he⟩ := lf_more h.1 h.2
    refine ⟨hf, .inr (List.suffix_append _ _), ?_⟩
    rw [he]
    cases hm : ending s with
    | lone c => exact .inr ⟨c, _, rfl, rfl⟩
    | start => exact .inl rfl
    | cont acc => exact .inl rfl
  · refine ⟨rfl, ?_, .inl rfl⟩
    by_cases hs : s = []
    · exact .inl hs
    · exact .inr (not_not.mp fun hlf => h ⟨hs, hlf⟩)

/-- **Lines that are appended** are not read into the line that the file leaves open. -/
theorem entries_append (hr : r ≠ []) : entries (withLf s ++ (sealOf (ending s) ++ r)) = entries s ++ entries r := by
  obtain ⟨hf, hlf, hend⟩ := withLf_spec s
  have hfirst : ∀ (c : Bool) (l : Line) (ls : List Line), emits (.lone c) (l :: ls) ++ rest (after (.lone c) (l :: ls)) =
      emits .start (l :: ls) ++ rest (after .start (l :: ls)) := fun c l ls => rfl
  have hrun : ∀ v, logicals (withLf s ++ v) =
      front s ++ (emits (ending (withLf s)) (lines v) ++ rest (after (ending (withLf s)) (lines v))) := by
    intro v
    rcases hlf with hnil | hlf
    · have hs : front s = [] := by rw [← hf, hnil]; rfl
      rw [hs, hnil, List.nil_append, List.nil_append, logicals_eq]
      rfl
    · rw [logicals_front, front_append hlf, ending_append hlf, hf, List.append_assoc]
  have hline : ∀ (text : Bytes) (v : Bytes), (∀ x ∈ text, isEol x = false) →
      lines ((text ++ [lf]) ++ v) = ⟨text, [lf]⟩ :: lines v := fun text v ht =>
    lines_cons (l := ⟨text, [lf]⟩) (by simp [Line.bytes]) ⟨ht, .inl rfl⟩
  have hentries : entries s = (front s ++ rest (ending s)).map entry := by rw [entries, logicals_front]
  have hr' : logicals r = emits .start (lines r) ++ rest (after .start (lines r)) := logicals_eq
  rw [hentries, entries, entries, hrun, hr']
  simp only [List.map_append, List.append_assoc]
  congr 1
  cases hm : ending s with
  | start =>
    have he : ending (withLf s) = .start := by
      rcases hend with he | ⟨c, d, hc, -⟩
      · rw [he, hm]
      · rw [hm] at hc
        cases hc
    rw [he]
    rfl
  | cont acc =>
    have he : ending (withLf s) = .cont acc := by
      rcases hend with he | ⟨c, d, hc, -⟩
      · rw [he, hm]
      · rw [hm] at hc
        cases hc
    have hl := hline [] r (by simp)
    rw [List.nil_append] at hl
    rw [he, sealOf, hl]
    simp [emits, after, step, trim, odd, rest, finish]
  | lone c =>
    obtain ⟨d, he⟩ : ∃ d, ending (withLf s) = .lone d := by
      rcases hend with he | ⟨c', d, -, hd⟩
      · exact ⟨c, he.trans hm⟩
      · exact ⟨d, hd⟩
    rw [he]
    cases c with
    | true =>
      obtain ⟨l, v, -, -, -, hl⟩ := exists_line hr
      rw [show sealOf (.lone true) = [] from rfl, List.nil_append, hl, ← List.map_append, hfirst, List.map_append]
      rfl
    | false =>
      have hl := hline [61] r fun x hx => by rw [List.mem_singleton.mp hx]; rfl
      have hstep : ∀ d, step (.lone d) ⟨[61], [lf]⟩ = (.start, some (some [61])) := by decide
      have hempty : entry [61] = entry [] := by decide
      rw [sealOf, show [61, lf] = [61] ++ [lf] from rfl, hl]
      simp [emits, after, hstep, hempty, rest, finish]

/-! ## `_rewrite` -/

/-- The blocks of a file take bytes. -/
theorem blocks_pos : ∀ b ∈ blocks .start [] (lines content), bytes b.1 ≠ [] := by
  intro b hb
  obtain ⟨ks, last, hks, -, -, hflat⟩ := blocks_spec (m := .start) (lines content) [] rfl rfl fun _ => rfl
  rw [← hks, List.nil_append] at hflat
  have hc := (lines_spec content).2
  have hne := blocks_ne_nil (m := .start) (lines content) [] (fun _ => rfl) b hb
  obtain ⟨xs, ys, hxs⟩ := List.append_of_mem hb
  rw [← hflat, hxs, List.flatMap_append, List.flatMap_cons] at hc
  exact hc.right.left.ne_nil hne

theorem closed_newLines (kvs : List (Str × Str)) :
    Closed (kvs.flatMap fun kv => newLine kv.1 kv.2 ++ [lf]) (kvs.map fun kv => newLine kv.1 kv.2) := by
  induction kvs with
  | nil => exact closed_nil
  | cons kv kvs ih =>
    rw [List.flatMap_cons, List.map_cons]
    exact closed_newLine.append ih

theorem entries_newLines (kvs : List (Str × Str)) : entries (kvs.flatMap fun kv => newLine kv.1 kv.2 ++ [lf]) =
    kvs.map fun kv => (merged kv.1, merged kv.2) := by
  rw [entries, (closed_newLines kvs).logicals_nil, List.map_map]
  exact List.map_congr_left fun kv _ => entry_newLine

/-- The end of a file that an edit keeps. -/
theorem ending_spliced (hs : Sound bs) (hes : es.length = (bs.filterMap (·.2)).length) (hk : kept bs es) :
    ending (spliced bs es) = ending (bytes (bs.flatMap (·.1))) ∧
      ∃ u v w, spliced bs es = u ++ w ∧ bytes (bs.flatMap (·.1)) = v ++ w ∧ w ≠ [] := by
  obtain ⟨w, found, b, hb, hw, htext, -, -⟩ := (spliced_run hs hes).2 hk
  obtain ⟨init, found', hinit, hc, hpos, -⟩ := sound_last hs hb
  have hbytes : bytes (bs.flatMap (·.1)) = bytes (init.flatMap (·.1)) ++ bytes b.1 := by
    rw [hinit]
    simp [bytes_append]
  refine ⟨?_, _, _, _, htext, hbytes, hpos⟩
  rw [htext, hbytes, (hw _).ending, (hc _).ending]

/-- The file with its properties replaced or dropped, and nothing appended. -/
def replaced (content : Bytes) (values : List (Str × Str)) (cleared : List Str) : Bytes :=
  spliced (blocks .start [] (lines content)) (edits values cleared [] (keysOf (blocks .start [] (lines content))))

theorem keysOf_blocks : keysOf (blocks .start [] (lines content)) = (entries content).map (·.1) := by
  rw [entries, List.map_map]
  rfl

theorem length_edits_blocks : (edits values cleared [] (keysOf (blocks .start [] (lines content)))).length =
    ((blocks .start [] (lines content)).filterMap (·.2)).length := by
  rw [length_edits, keysOf, List.length_map]

theorem entries_replaced :
    entries (replaced content values cleared) = rewriteEntries values cleared [] (entries content) := by
  rw [entries, replaced, logicals_spliced (blocks_sound content).2 length_edits_blocks, keysOf, map_entry_edited]
  rfl

variable (content values cleared) in
/-- The end of the file is that of the original, or no logical line is left open. -/
theorem ending_replaced : ending (replaced content values cleared) = .start ∨
    ending (replaced content values cleared) = ending content ∧
      ∃ u v w, replaced content values cleared = u ++ w ∧ content = v ++ w ∧ w ≠ [] := by
  obtain ⟨hbytes, hsound⟩ := blocks_sound content
  by_cases hk : kept (blocks .start [] (lines content))
      (edits values cleared [] (keysOf (blocks .start [] (lines content))))
  · have hend := ending_spliced hsound length_edits_blocks hk
    rw [hbytes] at hend
    exact .inr hend
  · exact .inl ((spliced_run hsound length_edits_blocks).1 hk).ending_nil

/-- **`_rewrite`** replaces and drops, ends the logical line that is left open, and appends. -/
theorem rewrite_eq (content : Bytes) (values : List (Str × Str)) (cleared : List Str) :
    rewrite content (parse content) values cleared =
      let out := replaced content values cleared
      let appended := values.filter (·.1 ∉ (entries content).map (·.1))
      if appended = [] then out
      else withLf out ++ (sealOf (ending out) ++ appended.flatMap fun kv => newLine kv.1 kv.2 ++ [lf]) := by
  obtain ⟨hbytes, hsound⟩ := blocks_sound content
  obtain ⟨h₁, h₂, h₃⟩ := foldl_step (u := []) values cleared ⟨[], 0, []⟩ hbytes.symm
    le_rfl blocks_pos
  rw [List.length_nil, ← parse_eq] at h₁ h₂ h₃
  have hreplaced : replaced content values cleared = spliced (blocks .start [] (lines content))
      (edits values cleared [] (keysOf (blocks .start [] (lines content)))) := rfl
  rw [show slice content 0 0 = [] from slice_self, List.append_nil, List.nil_append, ← hreplaced] at h₁
  generalize hfold : (parse content).foldl (Splice.step content values cleared) ⟨[], 0, []⟩ = s' at *
  have happended : values.filter (·.1 ∉ s'.written) = values.filter (·.1 ∉ (entries content).map (·.1)) := by
    refine List.filter_congr fun kv hkv => ?_
    have hsome : (values.lookup kv.1).isSome := by
      rw [List.lookup_isSome_iff]
      exact ⟨kv, hkv, by simp⟩
    simp only [h₂, keysOf_blocks, List.not_mem_nil, false_or, hsome, and_true]
  have hseal : (if s'.cursor < content.length ∧ endsInDanglingContinuation content (parse content) then
      ((parse content).getLast?.map (continuationEnd content)).getD [] else []) =
        sealOf (ending (replaced content values cleared)) := by
    rw [hreplaced]
    by_cases hk : kept (blocks .start [] (lines content))
        (edits values cleared [] (keysOf (blocks .start [] (lines content))))
    · rw [(ending_spliced hsound length_edits_blocks hk).1, hbytes, ← continuationEnd_eq]
      simp only [(h₃.mp hk).2, true_and]
    · rw [((spliced_run hsound length_edits_blocks).1 hk).ending_nil, if_neg fun h => hk (h₃.mpr ⟨?_, h.1⟩)]
      · rfl
      · intro hnil
        rw [← hbytes, hnil] at h
        exact Nat.not_lt_zero _ h.1
  have hout : ∀ o r : Bytes, (if s'.cursor < content.length ∧ endsInDanglingContinuation content (parse content) then
        o ++ ((parse content).getLast?.map (continuationEnd content)).getD [] else o) ++ r =
      o ++ (sealOf (ending (replaced content values cleared)) ++ r) := by
    intro o r
    rw [← hseal]
    split_ifs <;> simp
  simp only [rewrite, hfold, happended, h₁, hout]
  rfl

/-- **The keys and the values that `_rewrite` leaves.** -/
theorem entries_rewrite : entries (rewrite content (parse content) values cleared) =
    rewriteEntries values cleared [] (entries content) ++
      (values.filter (·.1 ∉ (entries content).map (·.1))).map fun kv => (merged kv.1, merged kv.2) := by
  rw [rewrite_eq]
  dsimp only
  split
  next hnil => rw [hnil, List.map_nil, List.append_nil, entries_replaced]
  next hne =>
    have hr : (values.filter (·.1 ∉ (entries content).map (·.1))).flatMap
        (fun kv => newLine kv.1 kv.2 ++ [lf]) ≠ [] := by
      obtain ⟨kv, kvs, hkvs⟩ := List.exists_cons_of_ne_nil hne
      rw [hkvs, List.flatMap_cons]
      exact List.append_ne_nil_of_left_ne_nil (List.append_ne_nil_of_right_ne_nil _ (List.cons_ne_nil _ _)) _
    rw [entries_append hr, entries_replaced, entries_newLines]

/-! ## `_normalize` -/

/-- A text that ends in a lone backslash before CR LF ends in CR LF. -/
theorem ends_crlf (h : ending s = .lone true) : [cr, lf] <:+ s := by
  cases hl : (lines s).getLast? with
  | none =>
    rw [ending, List.getLast?_eq_none_iff.mp hl] at h
    cases h
  | some l =>
    obtain ⟨xs, hxs⟩ := List.getLast?_eq_some_iff.mp hl
    obtain ⟨u, rfl, -⟩ := last_line hl
    have hstep : (step (after .start xs) l).1 = .lone true := by rw [← h, ending, hxs, after_append]; rfl
    have heol : l.eol = [cr, lf] := by
      cases hm : after .start xs with
      | cont acc =>
        rw [hm, step] at hstep
        split at hstep <;> cases hstep
      | start | lone c =>
        rw [hm, step, first] at hstep
        split at hstep
        · simpa using hstep
        · split_ifs at hstep
    exact ⟨u ++ l.text, by simp [Line.bytes, heol]⟩

/-- `_normalize` leaves what the file reads as it is, where it does not end in a lone backslash before CR. -/
theorem entries_normalize (h : ending s = .lone false → ¬[cr] <:+ s) : entries (normalize s) = entries s := by
  unfold normalize
  split
  · rfl
  next hlf =>
  by_cases hs : s = []
  · subst hs
    decide
  obtain ⟨hf, he⟩ := lf_more hs hlf
  rw [entries, entries, logicals_front, logicals_front, hf, he]
  cases hm : ending s with
  | start => rfl
  | cont acc => rfl
  | lone c =>
    cases c with
    | true => exact absurd ((List.suffix_cons cr [lf]).trans (ends_crlf hm)) hlf
    | false => simp [Mode.sealed, h hm]

/-- `_normalize` can lose only the empty key. -/
theorem filter_normalize (hkey : key ≠ []) :
    (entries (normalize s)).filter (·.1 = key) = (entries s).filter (·.1 = key) := by
  unfold normalize
  split
  · rfl
  next hlf =>
  by_cases hs : s = []
  · subst hs
    rfl
  obtain ⟨hf, he⟩ := lf_more hs hlf
  rw [entries, entries, logicals_front, logicals_front, hf, he, List.map_append, List.map_append, List.filter_append,
    List.filter_append]
  congr 1
  have hlone : ∀ c, ((rest (.lone c)).map entry).filter (·.1 = key) = [] := by
    have hempty : entry [] = ([], []) := by decide
    intro c
    cases c <;> simp [rest, finish, hempty, Ne.symm hkey]
  cases hm : ending s with
  | start => rfl
  | cont acc => rfl
  | lone c => exact (hlone _).trans (hlone _).symm

end McServerDashboard.Properties
