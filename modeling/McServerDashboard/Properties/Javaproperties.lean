import Mathlib.Logic.Function.Basic
import McServerDashboard.Lib.Transcode
import McServerDashboard.Lib.Utf8
import McServerDashboard.Properties.Reader

/-!
# How the Worker reads `server.properties`

The package `javaproperties`. A Go string is a list of bytes; a walk goes over what is left of the text.

* `Parse`, `ParseUTF8`: the two ways to load a file.
* **`parse_eq`**: the last value of each key among the logical lines of the grammar, as they are written.
* **`Parse_eq_lastValue`**: the API reads the same keys and values, up to surrogates.
-/

namespace McServerDashboard.Properties.Javaproperties

open Lib Lib.Pattern Lib.Properties

/-- `map[string]string`. -/
abbrev StringMap := Bytes → Option Bytes

def naturalLine (data : Bytes) : Bytes × Bytes :=
  let line := data.takeWhile fun c => !(c = lf || c = cr)
  match data.dropWhile fun c => !(c = lf || c = cr) with
  | [] => (line, [])
  | c :: next => if c = cr ∧ next.head? = some lf then (line, next.tail) else (line, next)

def trimLeadingBlanks (line : Bytes) : Bytes := line.dropWhile isBlank

def isLoneBackslash (line : Bytes) : Bool := line = [backslash]

def endsWithOddBackslash (line : Bytes) : Bool := (line.reverse.takeWhile (· = backslash)).length % 2 = 1

/-! ## Keys and values -/

/-- Four hex digits, `hex4`. -/
def hex4 (raw : Bytes) : Option ℕ :=
  if raw.length < 4 then none else (raw.take 4).foldlM (fun v c => (hexDigit? c).map (v * 16 + ·)) 0

/-- `utf16.DecodeRune`. -/
def decodeRune (high low : ℕ) : ℕ := if isHigh high ∧ isLow low then (pair high low).val else 0xFFFD

/-- `unicodeEscape`: the rune, and what is left. -/
def unicodeEscape (raw : Bytes) : Option (ℕ × Bytes) := do
  let v ← hex4 raw
  let next := raw.drop 4
  if (isHigh v ∨ isLow v) ∧ next.take 2 = [backslash, 117] then
    match hex4 (next.drop 2) with
    | some lo => if decodeRune v lo ≠ 0xFFFD then some (decodeRune v lo, next.drop 6) else some (v, next)
    | none => some (v, next)
  else some (v, next)

/-- `WriteRune`: a surrogate has no bytes of its own. -/
def writeRune (v : ℕ) : Bytes := if isHigh v ∨ isLow v then utf8 0xFFFD else utf8 v

/-- One round of `loadConvert`: what is written, and what is left. -/
def convertOne : Bytes → Bytes × Bytes
  | [] => ([], [])
  | [c] => ([c], [])
  | c :: esc :: raw =>
    if c ≠ backslash then ([c], esc :: raw)
    else if esc = 117 then
      match unicodeEscape raw with
      | some (v, r) => (writeRune v, r)
      | none => ([117], raw)
    else ([escaped esc], raw)

def loadConvert (raw : Bytes) : Bytes := (readAll convertOne raw).flatten

/-- The first loop of `splitKeyValue`: the key, what is left, and whether a separator ended it. -/
def keyLoop (escape : Bool) : Bytes → Bytes × Bytes × Bool
  | [] => ([], [], false)
  | c :: line =>
    if !escape && isSep c then ([], line, true)
    else if !escape && isBlank c then ([], line, false)
    else
      let (key, rest, hasSep) := keyLoop (c = backslash && !escape) line
      (c :: key, rest, hasSep)

/-- The second loop of `splitKeyValue`: the value. -/
def valueLoop (hasSep : Bool) : Bytes → Bytes
  | [] => []
  | c :: line =>
    if isBlank c then valueLoop hasSep line
    else if hasSep || !isSep c then c :: line
    else valueLoop true line

def splitKeyValue (line : Bytes) : Bytes × Bytes :=
  let (key, rest, hasSep) := keyLoop false line
  (loadConvert key, loadConvert (valueLoop hasSep rest))

/-! ## The walk over the file -/

/-- Past the lone backslashes. -/
def loneLoop : ℕ → Bytes → Bytes → Bytes × Bytes
  | 0, line, data => (line, data)
  | n + 1, line, data =>
    if isLoneBackslash line = true ∧ data ≠ [] then
      loneLoop n (trimLeadingBlanks (naturalLine data).1) (naturalLine data).2
    else (line, data)

/-- The lines that continue the logical line. -/
def continuedLoop : ℕ → Bytes → Bytes → Bytes × Bytes
  | 0, logical, data => (logical.dropLast, data)
  | n + 1, logical, data =>
    if data = [] then (logical.dropLast, data)
    else
      let line := trimLeadingBlanks (naturalLine data).1
      if endsWithOddBackslash line then continuedLoop n (logical.dropLast ++ line) (naturalLine data).2
      else (logical.dropLast ++ line, (naturalLine data).2)

/-- One round of the walk: the key and the value that it finds, and what is left. `crlf`: the data ends in
CR LF. -/
def readOne (crlf : Bool) (data : Bytes) : Option (Bytes × Bytes) × Bytes :=
  let (line, next) := naturalLine data
  let (line, next) := loneLoop next.length (trimLeadingBlanks line) next
  if isLoneBackslash line ∧ crlf then (none, next)
  else if line = [] ∨ line.head?.any isMark then (none, next)
  else if endsWithOddBackslash line then
    let (logical, next) := continuedLoop next.length line next
    (some (splitKeyValue logical), next)
  else (some (splitKeyValue line), next)

/-- `parse`, of UTF-8 text. -/
def parse (data : Bytes) : StringMap :=
  (readAll (readOne ([cr, lf] <:+ data)) data).reduceOption.foldl
    (fun out kv => Function.update out kv.1 (some kv.2)) fun _ => none

def latin1ToUTF8 (data : Bytes) : Bytes := data.flatMap fun c => utf8 c.toNat

def Parse (data : Bytes) : StringMap := parse (latin1ToUTF8 data)

def ParseUTF8 (data : Bytes) : StringMap := if validUtf8 data then parse data else Parse data

/-! ## Escapes -/

variable {s r t : Bytes} {l : Line} {u : ℕ}

theorem hex4_eq : hex4 s = (hex4? s).map (·.1) := by
  match s with
  | [] | [_] | [_, _] | [_, _, _] => rfl
  | a :: b :: c :: d :: s =>
    have hlen : ¬(a :: b :: c :: d :: s).length < 4 := by simp
    rw [hex4, if_neg hlen]
    cases ha : hexDigit? a <;> cases hb : hexDigit? b <;> cases hc : hexDigit? c <;> cases hd : hexDigit? d <;>
      simp [hex4?, ha, hb, hc, hd]

theorem hex4_some (h : hex4? s = some (u, r)) : hex4 s = some u ∧ s.drop 4 = r := by
  refine ⟨by rw [hex4_eq, h]; rfl, ?_⟩
  obtain ⟨-, x, rfl, hx⟩ := hex4?_some h
  rw [← hx, List.drop_left]

/-- What is left starts with another escape of a unit. -/
theorem next_unit (r : Bytes) : (r.take 2 = [backslash, 117] ∧ unit? r = hex4? (r.drop 2)) ∨
    (r.take 2 ≠ [backslash, 117] ∧ unit? r = none) := by
  match r with
  | [] | [_] => exact .inr ⟨by simp, rfl⟩
  | b :: c :: r =>
    by_cases h : b = backslash ∧ c = 117
    · exact .inl ⟨by simp [h], by simp [unit?, h]⟩
    · exact .inr ⟨by simpa using h, by simp [unit?, h]⟩

theorem decodeRune_ne {u v : ℕ} : decodeRune u v ≠ 0xFFFD ↔ isHigh u = true ∧ isLow v = true := by
  rw [decodeRune]
  split_ifs with h
  · rw [pair_val h.1 h.2]
    exact ⟨fun _ => h, fun _ => by omega⟩
  · simp [h]

/-- An escape that stands alone. -/
theorem unicodeEscape_code (h : hex4? s = some (u, r))
    (hr : ∀ v r', unit? r = some (v, r') → ¬(isHigh u = true ∧ isLow v = true)) : unicodeEscape s = some (u, r) := by
  obtain ⟨hu, hdrop⟩ := hex4_some h
  simp only [unicodeEscape, hu, hdrop, Option.bind_eq_bind, Option.bind_some]
  split_ifs with hc
  · rcases next_unit r with ⟨-, hunit⟩ | ⟨hne, -⟩
    · rw [hex4_eq]
      cases hv : hex4? (r.drop 2) with
      | none => rfl
      | some p =>
        rw [Option.map_some]
        dsimp only
        rw [if_neg]
        rw [decodeRune_ne]
        exact hr p.1 p.2 (hunit.trans hv)
    · exact absurd hc.2 hne
  · rfl

/-- Two escapes that spell one character. -/
theorem unicodeEscape_pair {v : ℕ} {r' : Bytes} (h : hex4? s = some (u, r)) (h' : unit? r = some (v, r'))
    (hu : isHigh u = true) (hv : isLow v = true) : unicodeEscape s = some ((pair u v).val, r') := by
  obtain ⟨hhex, hdrop⟩ := hex4_some h
  rcases next_unit r with ⟨htake, hunit⟩ | ⟨-, hnone⟩
  · obtain ⟨hhex', hdrop'⟩ := hex4_some (hunit.symm.trans h')
    rw [List.drop_drop] at hdrop'
    simp only [unicodeEscape, hhex, hdrop, Option.bind_eq_bind, Option.bind_some, htake, hu, hhex']
    rw [if_pos ⟨.inl trivial, trivial⟩, if_pos (decodeRune_ne.mpr ⟨hu, hv⟩), hdrop', decodeRune, if_pos ⟨hu, hv⟩]
  · rw [hnone] at h'
    cases h'

theorem unicodeEscape_none (h : hex4? s = none) : unicodeEscape s = none := by
  simp [unicodeEscape, hex4_eq, h]

theorem unicodeEscape_length {v : ℕ} (h : unicodeEscape s = some (v, r)) : r.length ≤ s.length := by
  simp only [unicodeEscape, Option.bind_eq_bind, Option.bind_eq_some_iff] at h
  obtain ⟨w, -, h⟩ := h
  split_ifs at h
  · split at h
    · split_ifs at h
      · rw [← (Prod.mk.inj (Option.some.inj h)).2]
        simp only [List.length_drop]
        omega
      · rw [← (Prod.mk.inj (Option.some.inj h)).2]
        simp
    · rw [← (Prod.mk.inj (Option.some.inj h)).2]
      simp
  · rw [← (Prod.mk.inj (Option.some.inj h)).2]
    simp

theorem convertOne_consumes : Consumes convertOne := by
  intro s hs
  match s with
  | [] => exact absurd rfl hs
  | [c] => exact Nat.zero_lt_one
  | c :: esc :: raw =>
    simp only [convertOne]
    split_ifs
    · simp
    · cases h : unicodeEscape raw with
      | none =>
        simp only [List.length_cons]
        omega
      | some p =>
        have := unicodeEscape_length h
        simp only [List.length_cons]
        omega
    · simp only [List.length_cons]
      omega

/-- What a character is written as. -/
def written : Item → Bytes
  | .raw b => [b]
  | .code c => writeRune c.val

/-- **The characters of a key or a value**, as they are written. -/
theorem loadConvert_eq : loadConvert s = (items s).flatMap written := by
  have hstep {s r : Bytes} (w : Bytes) (hs : s ≠ []) (h : convertOne s = (w, r)) : loadConvert s = w ++ loadConvert r := by
    rw [loadConvert, readAll_eq convertOne_consumes hs, h]
    rfl
  induction s using items_induction with
  | nil => rfl
  | raw b s hb ih =>
    rw [items_raw hb, hstep (w := [b]) (r := s) (List.cons_ne_nil b s), ih]
    · rfl
    · cases s <;> simp [convertOne, hb]
  | lone => rw [items_lone, hstep (w := [backslash]) (r := []) (List.cons_ne_nil _ _) rfl]; rfl
  | simple c s h ih =>
    rw [items_escaped h, hstep (w := [escaped c]) (r := s) (List.cons_ne_nil _ _), ih]
    · rfl
    · by_cases hc : c = 117
      · subst hc
        have hnone : unicodeEscape s = none := unicodeEscape_none (by simpa [unit?] using h)
        simp [convertOne, hnone, escaped]
      · simp [convertOne, hc]
  | code s u r h hr ih =>
    obtain ⟨-, x, rfl, hhex, -⟩ := unit?_some h
    rw [items_code h hr, hstep (w := writeRune u) (r := r) (by simp), ih, List.flatMap_cons, written,
      unit?_val h]
    simp [convertOne, unicodeEscape_code hhex hr]
  | pair s u r v r' h h' hu hv ih =>
    obtain ⟨-, x, rfl, hhex, -⟩ := unit?_some h
    rw [items_pair h h' hu hv, hstep (w := writeRune (pair u v).val) (r := r') (by simp), ih]
    · rfl
    · simp [convertOne, unicodeEscape_pair hhex h' hu hv]

/-! ## Keys and values -/

theorem valueLoop_true : valueLoop true s = trim s := by
  induction s with
  | nil => rfl
  | cons c s ih =>
    by_cases hc : isBlank c = true
    · rw [trim, List.dropWhile_cons_of_pos hc, ← trim, ← ih]
      simp [valueLoop, hc]
    · rw [trim, List.dropWhile_cons_of_neg hc]
      simp [valueLoop, hc]

theorem valueLoop_false : valueLoop false s = skipSep s := by
  induction s with
  | nil => rfl
  | cons c s ih =>
    by_cases hc : isBlank c = true
    · have htrim : trim (c :: s) = trim s := by rw [trim, List.dropWhile_cons_of_pos hc, ← trim]
      rw [skipSep, htrim, ← skipSep, ← ih]
      simp [valueLoop, hc]
    · have htrim : trim (c :: s) = c :: s := by rw [trim, List.dropWhile_cons_of_neg hc]
      simp only [skipSep, htrim, valueLoop, hc]
      by_cases hs : isSep c = true <;> simp [hs, valueLoop_true]

theorem keyLoop_eq : ∃ rest hasSep, keyLoop false s = ((splitKey s).1, rest, hasSep) ∧
    valueLoop hasSep rest = skipSep (splitKey s).2 := by
  induction hn : s.length using Nat.strong_induction_on generalizing s with
  | _ n ih =>
    cases s with
    | nil => exact ⟨[], false, rfl, rfl⟩
    | cons b s =>
      by_cases hb : isKey b = true
      · obtain ⟨rest, hasSep, hloop, hvalue⟩ := ih s.length (by simp [← hn]) (s := s) rfl
        refine ⟨rest, hasSep, ?_, by rw [splitKey_key hb, hvalue]⟩
        simp only [isKey, Bool.not_eq_true', Bool.or_eq_false_iff, decide_eq_false_iff_not] at hb
        rw [splitKey_key (by simp [isKey, hb])]
        simp [keyLoop, hb, hloop]
      · by_cases hbs : b = backslash
        · subst hbs
          cases s with
          | nil => exact ⟨[], false, by rw [splitKey_lone]; decide, by rw [splitKey_lone]; rfl⟩
          | cons c s =>
            obtain ⟨rest, hasSep, hloop, hvalue⟩ := ih s.length (by simp only [← hn, List.length_cons]; omega) (s := s) rfl
            refine ⟨rest, hasSep, ?_, by rw [splitKey_escape, hvalue]⟩
            rw [splitKey_escape]
            have hsep : isSep backslash = false := rfl
            have hblank : isBlank backslash = false := rfl
            simp [keyLoop, hloop, hsep, hblank]
        · have hend : (isBlank b || isSep b) = true := by
            by_contra h
            exact hb (by simpa [isKey, hbs] using h)
          rw [splitKey_end hend]
          by_cases hs : isSep b = true
          · refine ⟨s, true, by simp [keyLoop, hs], ?_⟩
            have hblank : isBlank b = false := by
              by_contra h
              simp only [isSep, isBlank, Bool.or_eq_true, Bool.not_eq_false, decide_eq_true_eq] at h hs
              rcases hs with rfl | rfl <;> exact absurd h (by decide)
            have htrim : trim (b :: s) = b :: s := by
              rw [trim, List.dropWhile_cons_of_neg (by simp [hblank])]
            simp only [skipSep, htrim, hs, if_true]
            exact valueLoop_true
          · have hblank : isBlank b = true := by simpa [hs] using hend
            refine ⟨s, false, by simp [keyLoop, hs, hblank], ?_⟩
            have hskip : valueLoop false (b :: s) = valueLoop false s := by simp [valueLoop, hblank]
            rw [← hskip]
            exact valueLoop_false

/-- What a logical line is read as. -/
def entry (t : Bytes) : Bytes × Bytes := ((items (split t).1).flatMap written, (items (split t).2).flatMap written)

theorem splitKeyValue_eq : splitKeyValue t = entry t := by
  obtain ⟨rest, hasSep, hloop, hvalue⟩ := keyLoop_eq (s := t)
  simp only [splitKeyValue, hloop, hvalue, loadConvert_eq]
  rfl

/-! ## The walk over the file -/

theorem naturalLine_eq : naturalLine s = ((readLine s).1.text, (readLine s).2) := by
  have hclass : (fun c : UInt8 => !(decide (c = lf) || decide (c = cr))) = fun c => !isEol c := rfl
  simp only [naturalLine, readLine, hclass]
  cases h : s.dropWhile (!isEol ·) with
  | nil =>
    have hs : s.takeWhile (!isEol ·) ++ s.dropWhile (!isEol ·) = s := List.takeWhile_append_dropWhile
    rw [h, List.append_nil] at hs
    rw [hs]
  | cons c r =>
    dsimp only
    split_ifs <;> rfl

theorem naturalLine_before (h : l.Before r) : naturalLine (l.bytes ++ r) = (l.text, r) := by
  rw [naturalLine_eq, readLine_before h]

theorem endsWithOddBackslash_eq : endsWithOddBackslash t = odd t := by
  have h : (t.rdropWhile (· = backslash)).length + (t.reverse.takeWhile (· = backslash)).length = t.length := by
    have := congrArg List.length (List.takeWhile_append_dropWhile (p := (· = backslash)) (l := t.reverse))
    rw [List.length_append, List.length_reverse] at this
    rw [List.rdropWhile, List.length_reverse]
    omega
  rw [endsWithOddBackslash, odd, ← h, Nat.add_sub_cancel_left]

variable {m : Mode} {xs : List Line}

/-- Where the logical line starts. -/
theorem loneLoop_spec {n : ℕ} (hn : r.length ≤ n) (hb : l.Before r) (hl : l.bytes ≠ []) :
    ∃ xs l' r', loneLoop n (trim l.text) r = (trim l'.text, r') ∧ l :: lines r = xs ++ l' :: lines r' ∧
      l.bytes ++ r = bytes xs ++ (l'.bytes ++ r') ∧ (∀ x ∈ xs, trim x.text = [backslash]) ∧ l'.Before r' ∧
      l'.bytes ≠ [] ∧ (trim l'.text = [backslash] → r' = []) := by
  induction n generalizing l r with
  | zero =>
    obtain rfl := List.eq_nil_of_length_eq_zero (Nat.le_zero.mp hn)
    exact ⟨[], l, [], rfl, rfl, rfl, nofun, hb, hl, fun _ => rfl⟩
  | succ n ih =>
    by_cases h : trim l.text = [backslash] ∧ r ≠ []
    · obtain ⟨l₁, r₁, rfl, hb₁, hl₁, hlines⟩ := exists_line h.2
      have hlen := List.length_pos_iff.mpr hl₁
      rw [List.length_append] at hn
      obtain ⟨xs, l', r', h₁, h₂, h₃, h₄, h₅⟩ := ih (l := l₁) (r := r₁) (by omega) hb₁ hl₁
      refine ⟨l :: xs, l', r', ?_, by rw [hlines, h₂]; rfl, ?_, ?_, h₅⟩
      · have hc : isLoneBackslash (trim l.text) = true ∧ l₁.bytes ++ r₁ ≠ [] := ⟨by simp [isLoneBackslash, h.1], h.2⟩
        rw [loneLoop, if_pos hc, naturalLine_before hb₁]
        exact h₁
      · rw [h₃]
        simp [Properties.bytes]
      · intro x hx
        rcases List.mem_cons.mp hx with rfl | hx
        · exact h.1
        · exact h₄ x hx
    · refine ⟨[], l, r, ?_, rfl, rfl, nofun, hb, hl, fun ht => ?_⟩
      · rw [loneLoop, if_neg]
        simpa [isLoneBackslash] using h
      · by_contra hr
        exact h ⟨ht, hr⟩

/-- The lines that continue the logical line. -/
theorem continuedLoop_spec {n : ℕ} (hn : s.length ≤ n) (logical : Bytes) : ∃ zs logical' r,
    continuedLoop n logical s = (logical', r) ∧ s = bytes zs ++ r ∧ ∀ taken,
      blocks (.cont logical.dropLast) taken (lines s) = (taken ++ zs, some logical') :: blocks .start [] (lines r) := by
  induction n generalizing logical s with
  | zero =>
    obtain rfl := List.eq_nil_of_length_eq_zero (Nat.le_zero.mp hn)
    exact ⟨[], logical.dropLast, [], rfl, rfl, fun taken => by simp [lines_nil, blocks, finish]⟩
  | succ n ih =>
    by_cases hs : s = []
    · subst hs
      exact ⟨[], logical.dropLast, [], rfl, rfl, fun taken => by simp [lines_nil, blocks, finish]⟩
    · obtain ⟨l, r, rfl, hb, hl, hlines⟩ := exists_line hs
      rw [continuedLoop, if_neg hs, naturalLine_before hb, hlines]
      simp only [endsWithOddBackslash_eq]
      by_cases hodd : odd (trim l.text) = true
      · have hlen := List.length_pos_iff.mpr hl
        rw [List.length_append] at hn
        obtain ⟨zs, logical', r', h₁, h₂, h₃⟩ := ih (s := r) (by omega) (logical.dropLast ++ trim l.text)
        have hne : trim l.text ≠ [] := by
          intro h
          rw [h] at hodd
          cases hodd
        have hodd' : odd (trimLeadingBlanks l.text) = true := hodd
        rw [if_pos hodd']
        refine ⟨l :: zs, logical', r', h₁, ?_, fun taken => ?_⟩
        · conv_lhs => rw [h₂]
          simp [Properties.bytes]
        · rw [List.dropLast_append_of_ne_nil hne] at h₃
          simp only [blocks, step, hodd, if_true, h₃]
          simp
      · have hodd' : ¬odd (trimLeadingBlanks l.text) = true := hodd
        rw [if_neg hodd']
        refine ⟨[l], logical.dropLast ++ trim l.text, r, rfl, by simp [Properties.bytes], fun taken => ?_⟩
        simp [blocks, step, hodd]

/-- **A round of the walk** reads whole blocks. -/
theorem readOne_spec (crlf : Bool) (hs : s ≠ []) : ∃ bs r found, readOne crlf s = (found, r) ∧
    r.length < s.length ∧ s = bytes (bs.flatMap (·.1)) ++ r ∧ ∀ content, s <:+ content →
      crlf = decide ([cr, lf] <:+ content) → blocks .start [] (lines s) = bs ++ blocks .start [] (lines r) ∧
        found.toList = (bs.filterMap (·.2)).map entry := by
  obtain ⟨l₀, r₀, rfl, hb₀, hl₀, hlines₀⟩ := exists_line hs
  obtain ⟨xs, l, r, hloop, hlines, hsplit, hlone, hb, hne, hlast⟩ := loneLoop_spec (Nat.le_refl _) hb₀ hl₀
  rw [← hlines₀] at hlines
  have hlen := List.length_pos_iff.mpr hne
  have hslen : (l₀.bytes ++ r₀).length = (bytes xs).length + (l.bytes.length + r.length) := by
    rw [hsplit]
    simp
  obtain ⟨m, hm, hblocks⟩ := blocks_lone (m := .start) [] (l :: lines r) (fun _ => rfl) hlone
  rw [List.nil_append] at hblocks
  have hread := readOne.eq_1 crlf (l₀.bytes ++ r₀)
  rw [naturalLine_before hb₀] at hread
  dsimp only at hread
  rw [show trimLeadingBlanks l₀.text = trim l₀.text from rfl, hloop] at hread
  simp only [isLoneBackslash, decide_eq_true_eq, endsWithOddBackslash_eq, splitKeyValue_eq] at hread
  generalize l₀.bytes ++ r₀ = s at *
  by_cases hbs : trim l.text = [backslash]
  · obtain rfl := hlast hbs
    refine ⟨[(xs ++ [l], if crlf then none else some [])], [], if crlf then none else some (entry []), ?_, by omega,
      ?_, fun content hc hcrlf => ?_⟩
    · rw [hread, hbs]
      cases crlf with
      | true => rfl
      | false => rfl
    · rw [hsplit]
      simp [Properties.bytes]
    · have hstep : step m l = (.lone crlf, none) := by
        rw [hcrlf]
        refine step_lone hm hbs hb (List.IsSuffix.trans ⟨bytes xs, ?_⟩ hc)
        rw [hsplit, List.append_nil]
      rw [hlines, hblocks]
      refine ⟨?_, ?_⟩
      · simp [blocks, hstep, lines_nil, finish]
      · cases crlf <;> rfl
  · rw [if_neg (fun h => hbs h.1)] at hread
    by_cases hskip : trim l.text = [] ∨ (trim l.text).head?.any isMark = true
    · rw [if_pos hskip] at hread
      have hstep : step m l = (.start, some none) := by
        rw [hm, first, if_neg hbs, if_pos hskip]
      refine ⟨[(xs ++ [l], none)], r, none, hread, by omega, by simp [hsplit, Properties.bytes], fun content _ _ => ⟨?_, rfl⟩⟩
      rw [hlines, hblocks]
      simp [blocks, hstep]
    · rw [if_neg hskip] at hread
      by_cases hodd : odd (trim l.text) = true
      · rw [if_pos hodd] at hread
        obtain ⟨zs, logical, t, hcont, hr, hspec⟩ := continuedLoop_spec (Nat.le_refl _) (trim l.text)
        rw [hcont] at hread
        have hstep : step m l = (.cont (trim l.text).dropLast, none) := by
          rw [hm, first, if_neg hbs, if_neg hskip, if_pos hodd]
        refine ⟨[(xs ++ [l] ++ zs, some logical)], t, some (entry logical), hread, ?_, ?_, fun content _ _ => ⟨?_, rfl⟩⟩
        · have hlen' := congrArg List.length hr
          rw [List.length_append] at hlen'
          omega
        · rw [hsplit, hr]
          simp [Properties.bytes]
        · rw [hlines, hblocks]
          simp only [blocks, hstep, hspec]
          rfl
      · rw [if_neg hodd] at hread
        have hstep : step m l = (.start, some (some (trim l.text))) := by
          rw [hm, first, if_neg hbs, if_neg hskip, if_neg hodd]
        refine ⟨[(xs ++ [l], some (trim l.text))], r, some (entry (trim l.text)), hread, by omega,
          by simp [hsplit, Properties.bytes], fun content _ _ => ⟨?_, rfl⟩⟩
        rw [hlines, hblocks]
        simp [blocks, hstep]

theorem readOne_consumes (crlf : Bool) : Consumes (readOne crlf) := by
  intro s hs
  obtain ⟨-, r, found, hread, hlen, -⟩ := readOne_spec crlf hs
  rw [hread]
  exact hlen

/-- The map that the walk leaves. -/
theorem foldl_update {kvs : List (Bytes × Bytes)} {out : StringMap} {key : Bytes} :
    kvs.foldl (fun (out : StringMap) kv => Function.update out kv.1 (some kv.2)) out key = (lastValue kvs key).or (out key) := by
  induction kvs generalizing out with
  | nil => rfl
  | cons kv kvs ih =>
    rw [List.foldl_cons, ih, lastValue_cons, Option.or_assoc]
    congr 1
    by_cases h : kv.1 = key
    · simp [h]
    · rw [if_neg h, Option.none_or, Function.update_of_ne (Ne.symm h)]

/-- **The walk reads the logical lines**, and keeps the last value of each key. -/
theorem parse_eq (data : Bytes) : parse data = lastValue ((logicals data).map entry) := by
  suffices h : ∀ s, s <:+ data → (readAll (readOne ([cr, lf] <:+ data)) s).reduceOption = (logicals s).map entry by
    funext key
    rw [parse, h data List.suffix_rfl, foldl_update]
    exact Option.or_none
  intro s
  induction s using read_induction (readOne_consumes ([cr, lf] <:+ data)) with
  | hnil => exact fun _ => rfl
  | hread s hs ih =>
    intro hsuffix
    obtain ⟨bs, r, found, hread, -, hsplit, hspec⟩ := readOne_spec ([cr, lf] <:+ data) hs
    obtain ⟨hblocks, hfound⟩ := hspec data hsuffix rfl
    rw [hread] at ih
    rw [readAll_eq (readOne_consumes ([cr, lf] <:+ data)) hs, hread, logicals, hblocks, List.filterMap_append,
      List.map_append, ← hfound]
    have ih := ih (List.IsSuffix.trans ⟨_, hsplit.symm⟩ hsuffix)
    rw [logicals] at ih
    rw [← ih]
    cases found with
    | none => rw [List.reduceOption_cons_of_none]; rfl
    | some kv => rw [List.reduceOption_cons_of_some]; rfl

/-! ## The two readers -/

/-- A Python string in UTF-8, with U+FFFD for a surrogate. -/
def toUTF8 (s : Str) : Bytes := s.flatMap fun c => utf8 (if isHigh c.val ∨ isLow c.val then 0xFFFD else c.val)

theorem transcodes_utf8 : Transcodes fun c => utf8 c.toNat where
  ascii b hb := by
    rw [utf8_single hb, UInt8.ofNat_toNat]
  wide b hb := by
    have hlt : b.toNat < 0x110000 := Nat.lt_trans (UInt8.toNat_lt b) (by decide)
    obtain ⟨l, ts, hutf8, -⟩ := utf8_lead hlt hb
    exact ⟨by simp [hutf8], utf8_wide hlt hb⟩

/-- The characters of latin-1 text, as they are written. -/
theorem written_latin1 : (items (latin1ToUTF8 s)).flatMap written = toUTF8 (decode s) := by
  have hchar (i : Item) : (i.transcode fun c => utf8 c.toNat).flatMap written = toUTF8 [char i] := by
    cases i with
    | raw b =>
      have hraw (w : Bytes) : (w.map Item.raw).flatMap written = w := by
        rw [List.flatMap_map]
        exact List.flatMap_singleton' w
      have hbyte : ¬(isHigh (chr b.toNat).val = true ∨ isLow (chr b.toNat).val = true) := by
        simp [isHigh_byte, isLow_byte]
      rw [Item.transcode, hraw, toUTF8, List.flatMap_singleton, char, if_neg hbyte, val_chr]
    | code c =>
      simp only [Item.transcode, toUTF8, char, List.flatMap_cons, List.flatMap_nil, List.append_nil, written, writeRune]
      split_ifs <;> rfl
  rw [latin1ToUTF8, ← transcode, transcodes_utf8.items, List.flatMap_assoc, decode, toUTF8, List.flatMap_map]
  refine List.flatMap_congr fun i _ => (hchar i).trans ?_
  simp [toUTF8]

/-- **The API and the Worker read the same file**: what the Worker keeps is the last value of each key, with U+FFFD
for every surrogate, and every surrogate there is unpaired. -/
theorem Parse_eq_lastValue (data : Bytes) :
    Parse data = lastValue ((Properties.parse data).map fun p => (toUTF8 p.key, toUTF8 p.value)) ∧
      ∀ p ∈ Properties.parse data, Unpaired p.key ∧ Unpaired p.value := by
  have hentries := parse_entries data
  constructor
  · have hentry (t : Bytes) : entry (transcode (fun c => utf8 c.toNat) t) =
        (toUTF8 (Properties.entry t).1, toUTF8 (Properties.entry t).2) := by
      rw [entry, transcodes_utf8.split]
      exact congrArg₂ Prod.mk written_latin1 written_latin1
    rw [Parse, parse_eq, latin1ToUTF8, ← transcode, transcodes_utf8.logicals, List.map_map]
    refine congrArg lastValue ?_
    have hmap := congrArg (List.map fun kv => (toUTF8 kv.1, toUTF8 kv.2)) hentries
    rw [List.map_map, List.map_map] at hmap
    refine Eq.trans (List.map_congr_left fun t _ => hentry t) hmap.symm
  · intro p hp
    have hmem : (p.key, p.value) ∈ (logicals data).map Properties.entry := hentries ▸ List.mem_map.mpr ⟨p, hp, rfl⟩
    obtain ⟨t, -, ht⟩ := List.mem_map.mp hmem
    rw [← (Prod.mk.inj ht).1, ← (Prod.mk.inj ht).2]
    exact ⟨decode_unpaired, decode_unpaired⟩

end McServerDashboard.Properties.Javaproperties
