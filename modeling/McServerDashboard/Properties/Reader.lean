import Mathlib.Data.List.Chain
import Mathlib.Data.List.Infix
import Mathlib.Data.List.ReduceOption
import McServerDashboard.Lib.Properties

/-!
# How the API reads `server.properties`

The compiled patterns of the reader and the walk over the file. Bytes are read as latin-1; a Python string is a
list of code points, lone surrogates included.

* `parse`: every property of a file, with the span that it takes.
* **`parse_eq`**: the logical lines of the grammar, split and decoded.
-/

namespace McServerDashboard.Properties

open Lib Lib.Pattern Lib.Properties

abbrev Str := List CodePoint

/-- `bytes.decode("latin-1")`. -/
def latin1 (s : Bytes) : Str := s.map fun b => chr b.toNat

/-- `_Property`. -/
structure Property where
  key : Str
  value : Str
  start : ℕ
  stop : ℕ
  deriving DecidableEq

/-! ## Patterns -/

/-- `\r\n?+|\n`. -/
def terminator : Pattern UInt8 :=
  alt (fun s => (one (· = cr) s).map (opt (one (· = lf)))) (one (· = lf))

/-- `[ \t\f]*+`. -/
def blanks (s : Bytes) : Bytes := star (one isBlank) s

/-- `[^\r\n]*+`. -/
def toEol (s : Bytes) : Bytes := star (one fun b => !isEol b) s

/-- `[ \t\f]*+(?:[=:][ \t\f]*+)?+`. -/
def separator (s : Bytes) : Bytes := opt (fun s => (one isSep s).map blanks) (blanks s)

/-- `[^\\=: \t\f]`. -/
def isKeyByte (b : UInt8) : Bool := !(b = backslash || isSep b || isBlank b)

/-- `_PLAIN_PROPERTY`: the key, the value and what is left. -/
def plainProperty (s : Bytes) : Option (Bytes × Bytes × Bytes) := do
  let key := blanks s
  let s₁ ← one (fun b => isKeyByte b && !isEol b && !isMark b) key
  let s₂ := star (one fun b => isKeyByte b && !isEol b) s₁
  let value := separator s₂
  let s₃ := star (one fun b => !(b = backslash || isEol b)) value
  let s₄ ← alt terminator eof s₃
  some (upTo key s₂, upTo value s₃, s₄)

/-- `_NATURAL_LINE`. -/
def naturalLine (s : Bytes) : Bytes × Bytes := (upTo s (toEol s), opt terminator (toEol s))

/-- `_SKIPPED_LINES`. -/
def skippedLines (s : Bytes) : Bytes :=
  star (fun s => terminator (opt (fun s => (one isMark s).map toEol) (blanks s))) s

/-- `_LONE_BACKSLASH_LINES`. -/
def loneBackslashLines (s : Bytes) : Bytes :=
  star (fun s => (one (· = backslash) (blanks s)).bind terminator) s

/-- `(?:[^\\\r\n]++|\\[^\r\n])*+`. -/
def paired (s : Bytes) : Bytes :=
  star (alt (plus fun b => !(b = backslash || isEol b)) (seq (one (· = backslash)) (one fun b => !isEol b))) s

/-- `_CONTINUED_LINES`. -/
def continuedLines (s : Bytes) : Bytes := star (fun s => (one (· = backslash) (paired s)).bind terminator) s

/-- `_LINE_CONTINUATION`, to be replaced by nothing. -/
def lineContinuation (s : Bytes) : Option (Bytes × Bytes) :=
  ((one (· = backslash) s).bind terminator).map fun r => ([], blanks r)

/-- The key of `_KEY_SEPARATOR`. -/
def keyPart (s : Bytes) : Bytes :=
  star (alt (plus isKeyByte) fun s => (one (· = backslash) s).map (opt (one fun _ => true))) s

/-! ## Escapes -/

/-- `[0-9a-fA-F]`, and its value. -/
def digit? (c : CodePoint) : Option ℕ :=
  if 48 ≤ c.val ∧ c.val ≤ 57 then some (c.val - 48)
  else if 97 ≤ c.val ∧ c.val ≤ 102 then some (c.val - 87)
  else if 65 ≤ c.val ∧ c.val ≤ 70 then some (c.val - 55)
  else none

def isHex (c : CodePoint) : Bool := (digit? c).isSome

/-- `int(s, 16)`. -/
def int16 (s : Str) : ℕ := s.foldl (fun n c => n * 16 + (digit? c).getD 0) 0

/-- `[0-9a-fA-F]{4}`. -/
def hex4 : Pattern CodePoint := seq (one isHex) (seq (one isHex) (seq (one isHex) (one isHex)))

/-- `[dD][c-fC-F][0-9a-fA-F]{2}`. -/
def lowHex : Pattern CodePoint :=
  seq (one fun c => c.val = 100 || c.val = 68)
    (seq (one fun c => (99 ≤ c.val && c.val ≤ 102) || (67 ≤ c.val && c.val ≤ 70)) (seq (one isHex) (one isHex)))

/-- `_SIMPLE_ESCAPES`, of one character. -/
def translate (c : CodePoint) : CodePoint :=
  if c.val = 116 then 9 else if c.val = 114 then 13 else if c.val = 110 then 10 else if c.val = 102 then 12 else c

/-- The groups of `_ESCAPE`. -/
structure Escape where
  unit : Option Str
  low : Option Str
  char : Str

/-- `_ESCAPE`. -/
def escape? (s : Str) : Option (Escape × Str) := do
  let t ← one (·.val = 92) s
  match (one (·.val = 117) t).bind fun u => (hex4 u).map (u, ·) with
  | some (u, r) =>
    match ((one (·.val = 92) r).bind (one (·.val = 117))).bind fun v => (lowHex v).map (v, ·) with
    | some (v, r') => some (⟨some (upTo u r), some (upTo v r'), []⟩, r')
    | none => some (⟨some (upTo u r), none, []⟩, r)
  | none => some (⟨none, none, upTo t (opt (one fun _ => true) t)⟩, opt (one fun _ => true) t)

/-- `_unescape`. -/
def unescape (e : Escape) : Str :=
  match e.unit with
  | none => if e.char = [] then [92] else e.char.map translate
  | some unit =>
    match e.low with
    | none => [chr (int16 unit)]
    | some low =>
      if 0xD800 ≤ int16 unit ∧ int16 unit ≤ 0xDBFF then
        [chr (0x10000 + (int16 unit - 0xD800) <<< 10 + (int16 low - 0xDC00))]
      else [chr (int16 unit), chr (int16 low)]

/-- `_SIMPLE_ESCAPE.split`: the literal runs, each with the character escaped after it, and the last run. -/
def splitSimple : Str → List (Str × CodePoint) × Str
  | [] => ([], [])
  | [c] => ([], [c])
  | b :: c :: s =>
    if b.val = 92 then (([], c) :: (splitSimple s).1, (splitSimple s).2)
    else
      match splitSimple (c :: s) with
      | ((lit, x) :: parts, last) => ((b :: lit, x) :: parts, last)
      | ([], last) => ([], b :: last)

/-- `_load_convert`. -/
def loadConvert (raw : Bytes) : Str :=
  let text := latin1 raw
  if 92 ∉ text then text
  else if [92, 117] <:+: text then sub (fun s => (escape? s).map fun e => (unescape e.1, e.2)) id text
  else (splitSimple text).1.flatMap (fun part => part.1 ++ [translate part.2]) ++ (splitSimple text).2

/-! ## The walk over the file -/

/-- `_split_key_value`. -/
def splitKeyValue (line : Bytes) : Str × Str :=
  (loadConvert (upTo line (keyPart line)), loadConvert (separator (keyPart line)))

/-- `_ends_with_odd_backslash`. -/
def endsWithOddBackslash (line : Bytes) : Bool :=
  (line.length - (line.rdropWhile (· = backslash)).length) % 2 = 1

/-- The line, without its leading blanks, that the logical line starts on, past the lone backslashes. -/
def firstLine (s : Bytes) : Bytes × Bytes :=
  let (line, r) := naturalLine s
  let line := line.dropWhile isBlank
  if line = [backslash] ∧ r ≠ [] then
    let r := loneBackslashLines r
    if r ≠ [] then ((naturalLine r).1.dropWhile isBlank, (naturalLine r).2) else (line, r)
  else (line, r)

/-- One round of the walk: the property that it finds, if any, and what is left. `crlf`: the file ends in
CR LF. -/
def readOne (crlf : Bool) (s : Bytes) : Option (Str × Str) × Bytes :=
  match plainProperty s with
  | some (key, value, r) => (some (latin1 key, latin1 value), r)
  | none =>
    let (line, r) := firstLine s
    if line = [backslash] ∧ crlf then (none, r)
    else if line = [] ∨ line.head?.any isMark then (none, skippedLines r)
    else if endsWithOddBackslash line then
      let e := continuedLines r
      let (last, t) := naturalLine e
      let last := last.dropWhile isBlank
      let last := if endsWithOddBackslash last then last.dropLast else last
      let middle := sub lineContinuation id (upTo r e)
      (some (splitKeyValue (line.dropLast ++ middle.dropWhile isBlank ++ last)), t)
    else (some (splitKeyValue line), r)

/-- The property of a round, and what is left. -/
def readProperty (content s : Bytes) : Option Property × Bytes :=
  let (found, r) := readOne ([cr, lf] <:+ content) s
  (found.map fun kv => ⟨kv.1, kv.2, content.length - s.length, content.length - r.length⟩, r)

/-- `_parse`. -/
def parse (content : Bytes) : List Property := (readAll (readProperty content) content).reduceOption

/-- The last value of a key, which is the one that counts. -/
def lastValue {α β : Type*} [DecidableEq α] (kvs : List (α × β)) (key : α) : Option β :=
  ((kvs.filter (·.1 = key)).getLast?).map (·.2)

/-- No lead surrogate is directly followed by a trail surrogate. -/
def Unpaired (s : Str) : Prop := s.IsChain fun c d => ¬(isHigh c.val = true ∧ isLow d.val = true)

instance : DecidablePred Unpaired := fun s => by
  unfold Unpaired
  infer_instance

theorem lastValue_cons {α β : Type*} [DecidableEq α] {kv : α × β} {kvs : List (α × β)} {key : α} :
    lastValue (kv :: kvs) key = (lastValue kvs key).or (if kv.1 = key then some kv.2 else none) := by
  by_cases h : kv.1 = key
  · cases hl : kvs.filter (·.1 = key) with
    | nil => simp [lastValue, h, hl]
    | cons x xs =>
      obtain ⟨y, hy⟩ := Option.isSome_iff_exists.mp (show (x :: xs).getLast?.isSome = true by simp)
      have hcons : (kv :: x :: xs).getLast? = some y := List.getLast?_cons_cons.trans hy
      simp only [lastValue, List.filter_cons, h, decide_true, if_true, hl, hcons, hy]
      rfl
  · simp [lastValue, h]

/-! ## Natural lines -/

variable {s r t : Bytes} {l : Line}

theorem toEol_eq : toEol s = s.dropWhile (!isEol ·) := star_one

theorem blanks_eq : blanks s = s.dropWhile isBlank := star_one

/-- The terminator of a line, after text that belongs to it. -/
theorem terminator_line (ht : ∀ b ∈ t, isEol b = false) (h : Ends l.eol r) :
    terminator (t ++ l.eol ++ r) = if t = [] ∧ l.eol ≠ [] then some r else none := by
  cases t with
  | cons b t =>
    have hb := ht b List.mem_cons_self
    simp only [isEol, Bool.or_eq_false_iff, decide_eq_false_iff_not] at hb
    simp [terminator, alt, one, hb]
  | nil =>
    rcases h with h | ⟨h, hr⟩ | h | ⟨h, hr⟩
    · simp [terminator, alt, one, h, show lf ≠ cr by decide]
    · have : opt (one (· = lf)) r = r := by
        cases r with
        | nil => rfl
        | cons b r =>
          have hb : b ≠ lf := by simpa using hr
          simp [opt, one, hb]
      simp [terminator, alt, one, h, this]
    · simp [terminator, alt, one, opt, h]
    · subst hr
      simp [terminator, alt, one, h]

theorem naturalLine_before (h : l.Before r) : naturalLine (l.bytes ++ r) = (l.text, r) := by
  have htext : toEol (l.bytes ++ r) = l.eol ++ r := by
    rw [toEol_eq, Line.bytes, List.append_assoc, List.dropWhile_append_of_pos (by simpa using h.text)]
    rcases h.ends with heol | ⟨heol, -⟩ | heol | ⟨heol, rfl⟩ <;> simp [heol, isEol]
  have hupTo : upTo (l.bytes ++ r) (l.eol ++ r) = l.text := by
    rw [Line.bytes, List.append_assoc]
    exact upTo_append
  have hend : opt terminator (l.eol ++ r) = r := by
    have := terminator_line (t := []) (fun _ h => absurd h List.not_mem_nil) h.ends
    rw [List.nil_append] at this
    rw [opt, this]
    split_ifs with heol
    · rfl
    · have : l.eol = [] := by simpa using heol
      simp [this]
  rw [naturalLine, htext, hupTo, hend]

theorem blanks_stops (h : Stops r) : blanks (t ++ r) = trim t ++ r :=
  blanks_eq.trans (dropWhile_stops (fun b hb => by rcases isEol_cases hb with rfl | rfl <;> rfl) h)

theorem separator_stops (h : Stops r) : separator (t ++ r) = skipSep t ++ r := by
  rw [separator, blanks_stops h, skipSep]
  cases ht : trim t with
  | nil => simp [opt, one_stops (p := isSep) (fun b hb => by rcases isEol_cases hb with rfl | rfl <;> rfl) h]
  | cons b t =>
    by_cases hb : isSep b = true
    · simp [opt, one, hb, blanks_stops h]
    · simp [opt, one, hb]

theorem terminator_eol (h : Ends l.eol r) : terminator (l.eol ++ r) = if l.eol ≠ [] then some r else none := by
  have := terminator_line (t := []) nofun h
  simpa using this

/-- The lines that a star over whole lines takes. -/
theorem star_lines {f : Pattern UInt8} {P : Bytes → Prop} [DecidablePred P]
    (hf : ∀ (l : Line) (r : Bytes), l.Before r → f (l.bytes ++ r) = if P l.text ∧ l.eol ≠ [] then some r else none)
    (s : Bytes) : ∃ xs, lines s = xs ++ lines (star f s) ∧ s = bytes xs ++ star f s ∧
      (∀ x ∈ xs, P x.text ∧ x.eol ≠ []) ∧
      ∀ (l : Line) (r : Bytes), star f s = l.bytes ++ r → l.Before r → P l.text → l.eol = [] := by
  induction s using read_induction readLine_consumes with
  | hnil =>
    refine ⟨[], rfl, rfl, nofun, fun l r he hb hP => ?_⟩
    have hnil : star f ([] : Bytes) = [] := by simp [Pattern.star]
    rw [hnil] at he
    exact (List.append_eq_nil_iff.mp (List.append_eq_nil_iff.mp he.symm).1).2
  | hread s hs ih =>
    obtain ⟨l, r, rfl, hb, hl, hlines⟩ := exists_line hs
    rw [readLine_before hb] at ih
    dsimp only at ih
    by_cases hP : P l.text ∧ l.eol ≠ []
    · obtain ⟨xs, h1, h2, h3, h4⟩ := ih
      have hstar : star f (l.bytes ++ r) = star f r := by
        refine star_some (by rw [hf l r hb, if_pos hP]) ?_
        rw [List.length_append]
        have := List.length_pos_iff.mpr hl
        omega
      rw [hstar, hlines]
      refine ⟨l :: xs, by rw [h1]; rfl, ?_, fun x hx => ?_, h4⟩
      · conv_lhs => rw [h2]
        simp [Properties.bytes]
      · rcases List.mem_cons.mp hx with rfl | hx
        · exact hP
        · exact h3 x hx
    · have hstar : star f (l.bytes ++ r) = l.bytes ++ r := star_none (by rw [hf l r hb, if_neg hP])
      rw [hstar]
      refine ⟨[], rfl, rfl, nofun, fun l' r' he hb' hP' => ?_⟩
      have := readLine_before hb
      rw [he, readLine_before hb', Prod.mk.injEq] at this
      obtain ⟨rfl, -⟩ := this
      by_contra hne
      exact hP ⟨hP', hne⟩

theorem backslash_stops (h : Stops r) : one (· = backslash) r = none :=
  one_stops (fun b hb => by rcases isEol_cases hb with rfl | rfl <;> rfl) h

theorem trim_text (h : ∀ b ∈ t, isEol b = false) : ∀ b ∈ trim t, isEol b = false :=
  fun b hb => h b ((List.dropWhile_sublist isBlank).subset hb)

/-- What `_LONE_BACKSLASH_LINES` repeats. -/
theorem lone_before (h : l.Before r) : (one (· = backslash) (blanks (l.bytes ++ r))).bind terminator =
    if trim l.text = [backslash] ∧ l.eol ≠ [] then some r else none := by
  rw [Line.bytes, List.append_assoc, blanks_stops h.stops]
  have htext := trim_text h.text
  generalize trim l.text = t at htext ⊢
  cases t with
  | nil => simp [backslash_stops h.stops]
  | cons b t =>
    by_cases hb : b = backslash
    · have := terminator_line (t := t) (fun c hc => htext c (List.mem_cons_of_mem b hc)) h.ends
      rw [List.append_assoc] at this
      simp [one, hb, this]
    · simp [one, hb]

/-- What `_SKIPPED_LINES` repeats. -/
theorem skipped_before (h : l.Before r) :
    terminator (opt (fun s => (one isMark s).map toEol) (blanks (l.bytes ++ r))) =
      if (trim l.text = [] ∨ (trim l.text).head?.any isMark = true) ∧ l.eol ≠ [] then some r else none := by
  rw [Line.bytes, List.append_assoc, blanks_stops h.stops]
  have htext := trim_text h.text
  generalize trim l.text = t at htext ⊢
  cases t with
  | nil =>
    have hmark : one isMark (l.eol ++ r) = none :=
      one_stops (fun b hb => by rcases isEol_cases hb with rfl | rfl <;> rfl) h.stops
    simp [opt, hmark, terminator_eol h.ends]
  | cons b t =>
    by_cases hb : isMark b = true
    · have heol : toEol (t ++ (l.eol ++ r)) = l.eol ++ r := by
        have ht : t.dropWhile (!isEol ·) = [] := by
          simpa using fun c hc => htext c (List.mem_cons_of_mem b hc)
        rw [toEol_eq, dropWhile_stops (fun c hc => by simp [hc]) h.stops, ht, List.nil_append]
      simp [opt, one, hb, heol, terminator_eol h.ends]
    · have := terminator_line htext h.ends
      simp only [List.cons_append, List.append_assoc] at this
      simp [opt, one, hb, this]

theorem paired_stops (ht : ∀ b ∈ t, isEol b = false) (h : Stops r) :
    paired (t ++ r) = if odd t then backslash :: r else r := by
  have hclass : ∀ b, isEol b = true → (!(b = backslash || isEol b)) = false := fun b hb => by simp [hb]
  induction hn : t.length using Nat.strong_induction_on generalizing t with
  | _ n ih =>
    cases t with
    | nil =>
      have : alt (plus fun b => !(b = backslash || isEol b))
          (seq (one (· = backslash)) (one fun b => !isEol b)) r = none := by
        simp only [alt, plus, seq, one_stops hclass h, backslash_stops h]
        rfl
      exact star_none this
    | cons b t =>
      have hb : isEol b = false := ht b List.mem_cons_self
      by_cases hbs : b = backslash
      · subst hbs
        cases t with
        | nil =>
          refine star_none ?_
          have hnone : one (fun b => !isEol b) r = none := one_stops (fun b hb => by simp [hb]) h
          have hbs : one (· = backslash) (backslash :: r) = some r := rfl
          simp only [alt, plus, seq, List.cons_append, List.nil_append, hbs, Option.bind_some, hnone]
          rfl
        | cons c t =>
          have hc : isEol c = false := ht c (by simp)
          have hstep : paired (backslash :: c :: t ++ r) = paired (t ++ r) := by
            refine star_some ?_ (by simp only [List.cons_append, List.length_cons]; omega)
            simp [alt, plus, seq, one, hc]
          rw [hstep, odd_pair]
          exact ih _ (by simp only [← hn, List.length_cons]; omega) (fun x hx => ht x (by simp [hx])) rfl
      · have hstep : paired (b :: t ++ r) = paired (t ++ r) := star_alt_plus (by simp [hbs, hb])
        rw [hstep, odd_cons hbs]
        exact ih _ (by simp [← hn]) (fun x hx => ht x (by simp [hx])) rfl

/-- What `_CONTINUED_LINES` repeats. -/
theorem continued_before (h : l.Before r) : (one (· = backslash) (paired (l.bytes ++ r))).bind terminator =
    if odd l.text = true ∧ l.eol ≠ [] then some r else none := by
  rw [Line.bytes, List.append_assoc, paired_stops h.text h.stops]
  by_cases ho : odd l.text = true
  · simp [ho, one, terminator_eol h.ends]
  · simp [ho, backslash_stops h.stops]

/-! ## Joined lines -/

/-- What a line that goes on in the next one adds to the logical line. -/
def joined (ys : List Line) : Bytes := ys.flatMap fun y => (trim y.text).dropLast

theorem joined_blanks (ys : List Line) : (joined ys).dropWhile isBlank = joined ys := by
  induction ys with
  | nil => rfl
  | cons y ys ih =>
    have hhead : ∀ b ∈ (trim y.text).head?, isBlank b = false := fun b hb => by
      have := List.head?_dropWhile_not isBlank y.text
      rw [← trim, hb] at this
      simpa using this
    simp only [joined, List.flatMap_cons] at ih ⊢
    cases ht : (trim y.text).dropLast with
    | nil => simpa using ih
    | cons b t =>
      have hb : (trim y.text).head? = some b := by
        cases h : trim y.text with
        | nil => simp [h] at ht
        | cons c u => cases u <;> simp_all
      simp [hhead b hb]

theorem finds_lineContinuation : Finds lineContinuation := by
  intro s out r h hs
  have hopt (s : Bytes) : (opt (one (· = lf)) s).length ≤ s.length := by
    cases s with
    | nil => exact Nat.le_refl _
    | cons b s => by_cases hb : b = lf <;> simp [opt, one, hb]
  simp only [lineContinuation, Option.map_eq_some_iff, Prod.mk.injEq] at h
  obtain ⟨u, hu, -, rfl⟩ := h
  rw [blanks_eq]
  refine Nat.lt_of_le_of_lt (List.length_dropWhile_le isBlank u) ?_
  obtain _ | ⟨b, _ | ⟨c, s⟩⟩ := s
  · exact absurd rfl hs
  · by_cases hb : b = backslash <;> simp [one, hb, terminator, alt] at hu
  ·
    by_cases hb : b = backslash
    · by_cases hc : c = cr
      · have := hopt s
        simp [one, hb, terminator, alt, hc] at hu
        simp only [← hu, List.length_cons]
        omega
      · by_cases hc' : c = lf <;> simp [one, hb, terminator, alt, hc', show lf ≠ cr by decide, hc] at hu
        simp only [← hu, List.length_cons]
        omega
    · simp [one, hb] at hu

/-- The text of a line has no continuation. -/
theorem sub_text (h : ∀ b ∈ t, isEol b = false) (hs : ∀ b, s.head? = some b → b = backslash) (hne : s ≠ []) :
    sub lineContinuation id (t ++ s) = t ++ sub lineContinuation id s := by
  induction t with
  | nil => rfl
  | cons b t ih =>
    have hnone : lineContinuation (b :: (t ++ s)) = none := by
      by_cases hb : b = backslash
      · have hhead : ∀ c ∈ (t ++ s).head?, isEol c = false := fun c hc => by
          cases t with
          | nil => rw [hs c hc]; rfl
          | cons x t => exact h c (by cases hc; simp)
        cases hts : t ++ s with
        | nil => exact absurd (List.append_eq_nil_iff.mp hts).2 hne
        | cons c u =>
          have hc := hhead c (by rw [hts]; rfl)
          simp only [isEol, Bool.or_eq_false_iff, decide_eq_false_iff_not] at hc
          simp [lineContinuation, one, hb, terminator, alt, hc]
      · simp [lineContinuation, one, hb]
    rw [List.cons_append, sub_none finds_lineContinuation hnone, ih fun c hc => h c (List.mem_cons_of_mem b hc)]
    rfl

/-- `_LINE_CONTINUATION` takes one line off, and the blanks of the next. -/
theorem sub_line (hb : l.Before r) (ho : odd t = true) (ht : ∀ b ∈ t, isEol b = false) (he : l.eol ≠ []) :
    sub lineContinuation id (t ++ l.eol ++ r) = t.dropLast ++ sub lineContinuation id (blanks r) := by
  have hsplit : t ++ l.eol ++ r = t.dropLast ++ (backslash :: (l.eol ++ r)) := by
    conv_lhs => rw [odd_eq_append ho]
    simp
  have hfind : lineContinuation (backslash :: (l.eol ++ r)) = some ([], blanks r) := by
    simp [lineContinuation, one, terminator_eol hb.ends, he]
  rw [hsplit, sub_text (fun b hb => ht b (List.dropLast_sublist t |>.subset hb)) (fun b hb => by simpa using hb.symm)
    (List.cons_ne_nil _ _), sub_some finds_lineContinuation (List.cons_ne_nil _ _) hfind, List.nil_append]

/-- The lines that go on, put together. -/
theorem sub_joined {ys : List Line} (hc : Chain ys) (ho : ∀ y ∈ ys, odd y.text = true ∧ y.eol ≠ []) :
    sub lineContinuation id (blanks (bytes ys)) = joined ys := by
  induction ys with
  | nil => rfl
  | cons y ys ih =>
    obtain ⟨-, hb, hc⟩ := hc
    obtain ⟨hodd, heol⟩ := ho y List.mem_cons_self
    have hbytes : blanks (Properties.bytes (y :: ys)) = trim y.text ++ y.eol ++ Properties.bytes ys := by
      simp only [Properties.bytes, List.flatMap_cons, Line.bytes, List.append_assoc]
      exact blanks_stops hb.stops
    rw [hbytes, sub_line hb (odd_trim.trans hodd) (trim_text hb.text) heol,
      ih hc fun y' hy' => ho y' (List.mem_cons_of_mem y hy')]
    rfl

theorem sub_continued {ys : List Line} (hc : Chain ys) (ho : ∀ y ∈ ys, odd y.text = true ∧ y.eol ≠ []) :
    (sub lineContinuation id (bytes ys)).dropWhile isBlank = joined ys := by
  cases ys with
  | nil => rfl
  | cons y ys =>
    have h : sub lineContinuation id (Properties.bytes (y :: ys)) = y.text.dropLast ++ joined ys := by
      obtain ⟨-, hb, hc⟩ := hc
      obtain ⟨hodd, heol⟩ := ho y List.mem_cons_self
      rw [Properties.bytes, List.flatMap_cons, Line.bytes, ← Properties.bytes, sub_line hb hodd hb.text heol]
      exact congrArg _ (sub_joined hc fun y' hy' => ho y' (List.mem_cons_of_mem y hy'))
    have hodd := (ho y List.mem_cons_self).1
    have hsplit : y.text = y.text.takeWhile isBlank ++ trim y.text := (List.takeWhile_append_dropWhile).symm
    have hne : trim y.text ≠ [] := by
      intro hnil
      rw [← odd_trim, hnil] at hodd
      cases hodd
    have hdrop : y.text.dropLast = y.text.takeWhile isBlank ++ (trim y.text).dropLast := by
      conv_lhs => rw [hsplit]
      exact List.dropLast_append_of_ne_nil hne
    rw [h, hdrop, List.append_assoc, List.dropWhile_append_of_pos fun b hb => List.mem_takeWhile_imp hb]
    exact joined_blanks (y :: ys)

/-! ## Keys and values -/

theorem keyPart_eq : keyPart s = (splitKey s).2 := by
  have hnone (b : UInt8) (t : Bytes) (hb : (isBlank b || isSep b) = true) : keyPart (b :: t) = b :: t := by
    have hbs : b ≠ backslash := by
      rintro rfl
      cases hb
    have hkey : isKeyByte b = false := by
      simp only [isKeyByte, hbs, decide_false, Bool.false_or, Bool.or_comm (isSep b)]
      rw [hb]
      rfl
    refine star_none ?_
    simp [alt, plus, one, hkey, hbs]
  have hkey (b : UInt8) (t : Bytes) (hbs : b ≠ backslash) (hb : ¬(isBlank b || isSep b) = true) :
      keyPart (b :: t) = keyPart t := by
    refine star_alt_plus ?_
    simp only [isKeyByte, hbs, decide_false, Bool.false_or, Bool.or_comm (isSep b)]
    simpa using hb
  have hkey' : isKeyByte backslash = false := rfl
  fun_induction splitKey s with
  | case1 => rfl
  | case2 b hb => exact hnone b [] hb
  | case3 b hb =>
    by_cases hbs : b = backslash
    · subst hbs
      decide
    · exact hkey b [] hbs hb
  | case4 c s ih =>
    refine Eq.trans (star_some (r := s) ?_ (by simp only [List.length_cons]; omega)) ih
    simp [alt, plus, one, hkey', opt]
  | case5 b c s hbs hb => exact hnone b (c :: s) hb
  | case6 b c s hbs hb ih => exact (hkey b (c :: s) hbs hb).trans ih

theorem splitKeyValue_eq : splitKeyValue t = (loadConvert (split t).1, loadConvert (split t).2) := by
  have hkey : upTo t (splitKey t).2 = (splitKey t).1 := by
    have h := upTo_append (t := (splitKey t).1) (r := (splitKey t).2)
    rwa [splitKey_append] at h
  have hvalue : separator (splitKey t).2 = skipSep (splitKey t).2 := by
    have h := separator_stops (t := (splitKey t).2) (r := []) nofun
    simpa using h
  rw [splitKeyValue, keyPart_eq, hkey, hvalue, split]

/-! ## Escapes -/

/-- What an item spells. -/
def char : Item → CodePoint
  | .raw b => chr b.toNat
  | .code c => c

/-- A key or a value, read. -/
def decode (raw : Bytes) : Str := (items raw).map char

theorem val_chr {b : UInt8} : (chr b.toNat).val = b.toNat :=
  Nat.mod_eq_of_lt (Nat.lt_trans (UInt8.toNat_lt b) (by decide))

theorem val_chr_eq {b c : UInt8} : (chr b.toNat).val = c.toNat ↔ b = c := by
  rw [val_chr]
  exact UInt8.toNat_inj

theorem latin1_cons {b : UInt8} : latin1 (b :: s) = chr b.toNat :: latin1 s := rfl

theorem digit?_chr {b : UInt8} : digit? (chr b.toNat) = hexDigit? b := by
  simp only [digit?, hexDigit?, val_chr, UInt8.le_iff_toNat_le]
  rfl

theorem digit?_lt {c : CodePoint} {n : ℕ} (h : digit? c = some n) : n < 16 := by
  unfold digit? at h
  split_ifs at h <;> simp only [Option.some.injEq] at h <;> omega

/-- Four hex digits of the text, and their value. -/
theorem hex4_latin1 : (hex4 (latin1 s)).map (fun r => (int16 (upTo (latin1 s) r), r)) =
    (hex4? s).map fun p => (p.1, latin1 p.2) := by
  match s with
  | [] => rfl
  | [a] => simp [hex4, hex4?, latin1, seq_one_cons, seq_one_nil]
  | [a, b] => simp [hex4, hex4?, latin1, seq_one_cons, seq_one_nil]
  | [a, b, c] => simp [hex4, hex4?, latin1, seq_one_cons, one]
  | a :: b :: c :: d :: s =>
    have hval : int16 [chr a.toNat, chr b.toNat, chr c.toNat, chr d.toNat] =
        (((hexDigit? a).getD 0 * 16 + (hexDigit? b).getD 0) * 16 + (hexDigit? c).getD 0) * 16 +
          (hexDigit? d).getD 0 := by
      simp [int16, digit?_chr]
    have hup : upTo (latin1 (a :: b :: c :: d :: s)) (latin1 s) =
        [chr a.toNat, chr b.toNat, chr c.toNat, chr d.toNat] :=
      upTo_append (t := [chr a.toNat, chr b.toNat, chr c.toNat, chr d.toNat])
    simp only [hex4, latin1_cons, seq_one_cons, one_cons, isHex, digit?_chr, hex4?] at hup ⊢
    cases ha : hexDigit? a <;> cases hb : hexDigit? b <;> cases hc : hexDigit? c <;> cases hd : hexDigit? d <;>
      simp [hup, hval, ha, hb, hc, hd]

/-- `[dD]`. -/
theorem isHex_13 {c : CodePoint} : (c.val = 100 || c.val = 68 : Bool) = (digit? c).any (· = 13) := by
  rw [Bool.eq_iff_iff]
  unfold digit?
  split_ifs <;> simp <;> omega

/-- `[c-fC-F]`. -/
theorem isHex_12 {c : CodePoint} :
    ((99 ≤ c.val && c.val ≤ 102) || (67 ≤ c.val && c.val ≤ 70) : Bool) = (digit? c).any (12 ≤ ·) := by
  rw [Bool.eq_iff_iff]
  unfold digit?
  split_ifs <;> simp <;> omega

/-- The digits of a trail surrogate. -/
theorem isLow_digits {a b c d : ℕ} (ha : a < 16) (hb : b < 16) (hc : c < 16) (hd : d < 16) :
    isLow (((a * 16 + b) * 16 + c) * 16 + d) = (decide (a = 13) && decide (12 ≤ b)) := by
  rw [Bool.eq_iff_iff]
  simp only [isLow, Bool.and_eq_true, decide_eq_true_eq]
  omega

/-- The unit of a trail surrogate. -/
theorem lowHex_eq (t : Str) : lowHex t = (hex4 t).bind fun r => if isLow (int16 (upTo t r)) then some r else none := by
  match t with
  | [] => rfl
  | [a] => simp [lowHex, hex4, seq_one_cons, seq_one_nil]
  | [a, b] => simp [lowHex, hex4, seq_one_cons, seq_one_nil]
  | [a, b, c] => simp [lowHex, hex4, seq_one_cons, one]
  | a :: b :: c :: d :: r =>
    have hup : upTo (a :: b :: c :: d :: r) r = [a, b, c, d] := upTo_append (t := [a, b, c, d])
    simp only [lowHex, hex4, seq_one_cons, one_cons, isHex_13, isHex_12, isHex]
    obtain ha | ⟨m, ha⟩ := Option.eq_none_or_eq_some (digit? a)
    · simp [ha]
    obtain hb | ⟨n, hb⟩ := Option.eq_none_or_eq_some (digit? b)
    · simp [hb]
    obtain hc | ⟨o, hc⟩ := Option.eq_none_or_eq_some (digit? c)
    · simp [hc]
    obtain hd | ⟨q, hd⟩ := Option.eq_none_or_eq_some (digit? d)
    · simp [hd]
    have hlow := isLow_digits (digit?_lt ha) (digit?_lt hb) (digit?_lt hc) (digit?_lt hd)
    have hint : int16 [a, b, c, d] = ((m * 16 + n) * 16 + o) * 16 + q := by simp [int16, ha, hb, hc, hd]
    simp only [ha, hb, hc, hd, Option.any_some, Option.isSome_some, if_true, Option.bind_some, hup, hint, hlow]
    by_cases hm : m = 13 <;> by_cases hn : 12 ≤ n <;> simp [hm, hn]

/-- An escape of a unit. -/
theorem unit?_latin1 : ((one (·.val = 92) (latin1 s)).bind (one (·.val = 117))).bind
      (fun t => (hex4 t).map fun r => (int16 (upTo t r), r)) = (unit? s).map fun p => (p.1, latin1 p.2) := by
  have h92 {b : UInt8} : (chr b.toNat).val = 92 ↔ b = backslash := val_chr_eq (c := backslash)
  have h117 {b : UInt8} : (chr b.toNat).val = 117 ↔ b = 117 := val_chr_eq (c := 117)
  match s with
  | [] => rfl
  | [b] => by_cases hb : b = backslash <;> simp [latin1, one, h92, hb, unit?]
  | b :: c :: s =>
    by_cases hb : b = backslash
    · by_cases hc : c = 117
      · simp only [latin1_cons, one_cons, h92, hb, hc, unit?]
        exact hex4_latin1
      · simp [latin1_cons, one_cons, h92, h117, hb, hc, unit?]
    · simp [latin1_cons, one_cons, h92, hb, unit?]

/-- An escape of a unit, or none. -/
theorem unit_cases (s : Bytes) :
    (unit? s = none ∧ ∀ t, (one (·.val = 92) (latin1 s)).bind (one (·.val = 117)) = some t → hex4 t = none) ∨
    ∃ u r t, unit? s = some (u, r) ∧ (one (·.val = 92) (latin1 s)).bind (one (·.val = 117)) = some t ∧
      hex4 t = some (latin1 r) ∧ int16 (upTo t (latin1 r)) = u := by
  have h := unit?_latin1 (s := s)
  cases hu : unit? s with
  | none =>
    rw [hu, Option.map_none, Option.bind_eq_none_iff] at h
    exact .inl ⟨rfl, fun t ht => by simpa using h t ht⟩
  | some p =>
    rw [hu, Option.map_some, Option.bind_eq_some_iff] at h
    obtain ⟨t, ht, hr⟩ := h
    rw [Option.map_eq_some_iff] at hr
    obtain ⟨r, hr, hp⟩ := hr
    rw [Prod.mk.injEq] at hp
    exact .inr ⟨p.1, p.2, t, rfl, ht, hp.2 ▸ hr, hp.2 ▸ hp.1⟩

theorem translate_chr {b : UInt8} : translate (chr b.toNat) = chr (escaped b).toNat := by
  have h116 : (chr b.toNat).val = 116 ↔ b = 116 := val_chr_eq (c := 116)
  have h114 : (chr b.toNat).val = 114 ↔ b = 114 := val_chr_eq (c := 114)
  have h110 : (chr b.toNat).val = 110 ↔ b = 110 := val_chr_eq (c := 110)
  have h102 : (chr b.toNat).val = 102 ↔ b = 102 := val_chr_eq (c := 102)
  simp only [translate, escaped, h116, h114, h110, h102]
  split_ifs <;> rfl

theorem isHigh_isLow {n : ℕ} (h : isLow n = true) : isHigh n = false := by
  simp only [isHigh, isLow, Bool.and_eq_true, Bool.and_eq_false_iff, decide_eq_true_eq, decide_eq_false_iff_not] at *
  omega

/-- `_ESCAPE` takes what a backslash starts. -/
theorem escape?_latin1 (s : Bytes) : ∃ e out r, escape? (latin1 (backslash :: s)) = some (e, latin1 r) ∧
    unescape e = out.map char ∧ items (backslash :: s) = out ++ items r ∧ r.length ≤ s.length := by
  have hone : one (fun c : CodePoint => decide (c.val = 92)) (latin1 (backslash :: s)) = some (latin1 s) := rfl
  rcases unit_cases (backslash :: s) with ⟨hu, h⟩ | ⟨u, r, t, hu, ht, hhex, hint⟩
  · have hnone : (one (fun c : CodePoint => decide (c.val = 117)) (latin1 s)).bind
        (fun u => (hex4 u).map (u, ·)) = none := by
      simp only [hone, Option.bind_some] at h
      simpa only [Option.bind_eq_none_iff, Option.map_eq_none_iff] using h
    cases s with
    | nil => exact ⟨_, [.raw backslash], [], rfl, rfl, by simp [items_lone, items_nil], Nat.le_refl _⟩
    | cons c s =>
      refine ⟨⟨none, none, [chr c.toNat]⟩, [.raw (escaped c)], s, ?_, ?_, items_escaped hu, by simp⟩
      · simp only [escape?, hone, Option.bind_eq_bind, Option.bind_some, hnone]
        simp [latin1_cons, opt, one, upTo]
      · exact congrArg (fun c => [c]) translate_chr
  · have hsome : (one (fun c : CodePoint => decide (c.val = 117)) (latin1 s)).bind
        (fun u => (hex4 u).map (u, ·)) = some (t, latin1 r) := by
      simp only [hone, Option.bind_some] at ht
      rw [ht, Option.bind_some, hhex]
      rfl
    have hlen := unit?_length hu
    simp only [List.length_cons] at hlen
    rcases unit_cases r with ⟨hv, h⟩ | ⟨v, r', t', hv, ht', hhex', hint'⟩
    · have hnone : ((one (fun c : CodePoint => decide (c.val = 92)) (latin1 r)).bind
          (one (fun c => decide (c.val = 117)))).bind (fun v => (lowHex v).map (v, ·)) = none := by
        simp only [Option.bind_eq_none_iff, Option.map_eq_none_iff]
        intro v hv
        rw [lowHex_eq, h v hv]
        rfl
      refine ⟨⟨some (upTo t (latin1 r)), none, []⟩, [.code (chr u)], r, ?_, ?_,
        items_code hu (by simp [hv]), by omega⟩
      · simp only [escape?, hone, Option.bind_eq_bind, Option.bind_some, hsome, hnone]
      · simp [unescape, hint, char]
    · have hlow : ((one (fun c : CodePoint => decide (c.val = 92)) (latin1 r)).bind
          (one (fun c => decide (c.val = 117)))).bind (fun v => (lowHex v).map (v, ·)) =
          if isLow v then some (t', latin1 r') else none := by
        rw [ht', Option.bind_some, lowHex_eq, hhex', Option.bind_some, hint']
        split_ifs <;> rfl
      have hlen' := unit?_length hv
      by_cases hvl : isLow v = true
      · rw [if_pos hvl] at hlow
        have hesc : escape? (latin1 (backslash :: s)) =
            some (⟨some (upTo t (latin1 r)), some (upTo t' (latin1 r')), []⟩, latin1 r') := by
          simp only [escape?, hone, Option.bind_eq_bind, Option.bind_some, hsome, hlow]
        by_cases huh : isHigh u = true
        · refine ⟨_, [.code (pair u v)], r', hesc, ?_, items_pair hu hv huh hvl, by omega⟩
          have huh' : 0xD800 ≤ u ∧ u ≤ 0xDBFF := by simpa [isHigh] using huh
          simp [unescape, hint, hint', huh', char, pair, Nat.shiftLeft_eq]
        · refine ⟨_, [.code (chr u), .code (chr v)], r', hesc, ?_, ?_, by omega⟩
          · have huh' : ¬(0xD800 ≤ u ∧ u ≤ 0xDBFF) := by simpa [isHigh] using huh
            simp only [unescape, hint, hint', huh', if_false]
            rfl
          · rw [items_code hu fun v' r'' hv' h => huh h.1, items_code hv fun w r'' hw h => ?_]
            · rfl
            · rw [isHigh_isLow hvl] at h
              cases h.1
      · rw [if_neg hvl] at hlow
        refine ⟨⟨some (upTo t (latin1 r)), none, []⟩, [.code (chr u)], r, ?_, ?_,
          items_code hu (fun v' r'' hv' h => ?_), by omega⟩
        · simp only [escape?, hone, Option.bind_eq_bind, Option.bind_some, hsome, hlow]
        · simp [unescape, hint, char]
        · rw [hv, Option.some.injEq, Prod.mk.injEq] at hv'
          exact hvl (hv'.1 ▸ h.2)

theorem hex4_length (s r : Str) (h : hex4 s = some r) : r.length ≤ s.length := by
  refine seq_one_length (fun s r h => seq_one_length (fun s r h => seq_one_length (fun s r h => ?_) h) h) h
  have := one_length h
  omega

theorem finds_escape : Finds fun s : Str => (escape? s).map fun e => (unescape e.1, e.2) := by
  intro s out r h _
  obtain ⟨⟨e, r⟩, he, h⟩ := Option.map_eq_some_iff.mp h
  obtain rfl := (Prod.mk.inj h).2
  simp only [escape?, Option.bind_eq_bind, Option.bind_eq_some_iff] at he
  obtain ⟨t, ht, he⟩ := he
  have hlen := one_length ht
  suffices r.length ≤ t.length by
    dsimp only
    omega
  split at he
  · rename_i u r₁ hu
    obtain ⟨v, hv, hr₁⟩ := Option.bind_eq_some_iff.mp hu
    obtain ⟨r₁, hhex, h₁⟩ := Option.map_eq_some_iff.mp hr₁
    obtain ⟨rfl, rfl⟩ := Prod.mk.inj h₁
    have := one_length hv
    have := hex4_length _ _ hhex
    split at he
    · rename_i w r₂ hw
      obtain ⟨x, hx, hr₂⟩ := Option.bind_eq_some_iff.mp hw
      obtain ⟨y, hy, hx⟩ := Option.bind_eq_some_iff.mp hx
      obtain ⟨r₂, hlow, h₂⟩ := Option.map_eq_some_iff.mp hr₂
      obtain ⟨rfl, rfl⟩ := Prod.mk.inj h₂
      rw [lowHex_eq] at hlow
      obtain ⟨r₃, hhex', h₃⟩ := Option.bind_eq_some_iff.mp hlow
      split_ifs at h₃
      obtain rfl := Option.some.inj h₃
      have := one_length hx
      have := one_length hy
      have := hex4_length _ _ hhex'
      obtain rfl := (Prod.mk.inj (Option.some.inj he)).2
      omega
    · obtain rfl := (Prod.mk.inj (Option.some.inj he)).2
      omega
  · obtain rfl := (Prod.mk.inj (Option.some.inj he)).2
    exact opt_one_length

/-- `_ESCAPE.sub(_unescape, …)`. -/
theorem sub_escape (s : Bytes) : sub (fun s => (escape? s).map fun e => (unescape e.1, e.2)) id (latin1 s) = decode s := by
  have hsome {s : Bytes} : ∃ out r, (escape? (latin1 (backslash :: s))).map (fun e => (unescape e.1, e.2)) =
      some (out.map char, latin1 r) ∧ items (backslash :: s) = out ++ items r ∧ r.length ≤ s.length := by
    obtain ⟨e, out, r, he, hout, hitems, hr⟩ := escape?_latin1 s
    exact ⟨out, r, by rw [he, ← hout]; rfl, hitems, hr⟩
  induction hn : s.length using Nat.strong_induction_on generalizing s with
  | _ n ih =>
    match s with
    | [] => rfl
    | b :: s =>
      by_cases hb : b = backslash
      · subst hb
        obtain ⟨out, r, he, hitems, hr⟩ := hsome (s := s)
        rw [sub_some finds_escape (by simp [latin1_cons]) he, ih _ (by simp only [List.length_cons] at hn; omega) r rfl]
        simp [decode, hitems]
      · have hnone : (escape? (latin1 (b :: s))).map (fun e => (unescape e.1, e.2)) = none := by
          have h92 : (chr b.toNat).val ≠ 92 := fun h => hb (val_chr_eq (c := backslash).mp h)
          simp [latin1_cons, escape?, one, h92]
        refine (sub_none finds_escape hnone).trans ?_
        rw [← latin1, ih _ (by simp [← hn]) s rfl]
        simp [decode, items_raw hb, char]

theorem mem_latin1 : 92 ∈ latin1 s ↔ backslash ∈ s := by
  simp only [latin1, List.mem_map]
  constructor
  · rintro ⟨b, hb, h⟩
    exact val_chr_eq (c := backslash).mp (congrArg Fin.val h) ▸ hb
  · exact fun h => ⟨backslash, h, rfl⟩

theorem decode_plain (h : backslash ∉ s) : decode s = latin1 s := by
  rw [decode, items_plain h, List.map_map]
  rfl

/-- `_SIMPLE_ESCAPE.split`, and the pieces put together again. -/
theorem splitSimple_eq (s : Bytes) (h : ¬[92, 117] <:+: latin1 s) :
    (splitSimple (latin1 s)).1.flatMap (fun part => part.1 ++ [translate part.2]) ++ (splitSimple (latin1 s)).2 =
      decode s := by
  match s with
  | [] => rfl
  | [b] =>
    by_cases hb : b = backslash
    · subst hb
      rfl
    · simp [decode, items_raw hb, items_nil, char, latin1, splitSimple]
  | b :: c :: s =>
    have hsuffix {t : Bytes} (ht : t <:+ b :: c :: s) : ¬[92, 117] <:+: latin1 t := fun hi =>
      h (hi.trans (ht.map _).isInfix)
    by_cases hb : b = backslash
    · subst hb
      have ih := splitSimple_eq s (hsuffix ⟨[backslash, c], rfl⟩)
      have hu : unit? (backslash :: c :: s) = none := by
        refine if_neg fun hc => h ?_
        rw [hc.2]
        exact ⟨[], latin1 s, rfl⟩
      have h92 : (chr backslash.toNat).val = 92 := rfl
      simp only [latin1_cons, splitSimple, h92, if_true, List.flatMap_cons, List.nil_append, translate_chr,
        List.append_assoc, ih]
      simp [decode, items_escaped hu, char]
    · have ih := splitSimple_eq (c :: s) (hsuffix ⟨[b], rfl⟩)
      have h92 : (chr b.toNat).val ≠ 92 := fun h => hb (val_chr_eq (c := backslash).mp h)
      have hdecode : decode (b :: c :: s) = chr b.toNat :: decode (c :: s) := by
        simp [decode, items_raw hb, char]
      rw [hdecode, ← ih]
      simp only [latin1_cons, splitSimple, h92, if_false]
      cases hsplit : splitSimple (chr c.toNat :: latin1 s) with
      | mk parts last => cases parts <;> simp

/-- **The three ways to read the escapes agree.** -/
theorem loadConvert_eq : loadConvert s = decode s := by
  unfold loadConvert
  dsimp only
  by_cases h92 : 92 ∉ latin1 s
  · rw [if_pos h92]
    exact (decode_plain (mt mem_latin1.mpr h92)).symm
  · rw [if_neg h92]
    split_ifs with hu
    · exact sub_escape s
    · exact splitSimple_eq s hu

theorem unit?_val {u : ℕ} (h : unit? s = some (u, r)) : (chr u).val = u :=
  Nat.mod_eq_of_lt (Nat.lt_trans (unit?_some h).1 (by decide))

theorem isLow_byte {b : UInt8} : isLow (chr b.toNat).val = false := by
  have := UInt8.toNat_lt b
  simp only [val_chr, isLow, Bool.and_eq_false_iff, decide_eq_false_iff_not]
  omega

theorem isHigh_byte {b : UInt8} : isHigh (chr b.toNat).val = false := by
  have := UInt8.toNat_lt b
  simp only [val_chr, isHigh, Bool.and_eq_false_iff, decide_eq_false_iff_not]
  omega

theorem pair_val {u v : ℕ} (hu : isHigh u = true) (hv : isLow v = true) :
    (pair u v).val = 0x10000 + (u - 0xD800) * 0x400 + (v - 0xDC00) := by
  simp only [isHigh, isLow, Bool.and_eq_true, decide_eq_true_eq] at hu hv
  exact Nat.mod_eq_of_lt (by omega)

theorem isLow_pair {u v : ℕ} (hu : isHigh u = true) (hv : isLow v = true) : isLow (pair u v).val = false := by
  simp only [pair_val hu hv, isLow, Bool.and_eq_false_iff, decide_eq_false_iff_not]
  omega

theorem isHigh_pair {u v : ℕ} (hu : isHigh u = true) (hv : isLow v = true) : isHigh (pair u v).val = false := by
  simp only [pair_val hu hv, isHigh, Bool.and_eq_false_iff, decide_eq_false_iff_not]
  omega

/-- Only an escape spells a trail surrogate. -/
theorem head_low : ∀ c ∈ (decode s).head?, isLow c.val = true → ∃ v r, unit? s = some (v, r) ∧ isLow v = true := by
  intro c hc hlow
  induction s using items_induction with
  | nil => cases hc
  | raw b s hb =>
    rw [decode, items_raw hb] at hc
    obtain rfl : char (.raw b) = c := by simpa using hc
    rw [char, isLow_byte] at hlow
    cases hlow
  | lone =>
    rw [decode, items_lone] at hc
    obtain rfl : char (.raw backslash) = c := by simpa using hc
    rw [char, isLow_byte] at hlow
    cases hlow
  | simple b s h =>
    rw [decode, items_escaped h] at hc
    obtain rfl : char (.raw (escaped b)) = c := by simpa using hc
    rw [char, isLow_byte] at hlow
    cases hlow
  | code s u r h hr =>
    rw [decode, items_code h hr] at hc
    obtain rfl : char (.code (chr u)) = c := by simpa using hc
    rw [char, unit?_val h] at hlow
    exact ⟨u, r, h, hlow⟩
  | pair s u r v r' h h' hu hv =>
    rw [decode, items_pair h h' hu hv] at hc
    obtain rfl : char (.code (pair u v)) = c := by simpa using hc
    rw [char, isLow_pair hu hv] at hlow
    cases hlow

/-- Two escapes that make a pair are read as one. -/
theorem decode_unpaired : Unpaired (decode s) := by
  induction s using items_induction with
  | nil => exact .nil
  | raw b s hb ih =>
    rw [decode, items_raw hb]
    exact List.isChain_cons.mpr ⟨fun _ _ h => absurd h.1 (by simp [char, isHigh_byte]), ih⟩
  | lone => exact .singleton _
  | simple c s h ih =>
    rw [decode, items_escaped h]
    exact List.isChain_cons.mpr ⟨fun _ _ h => absurd h.1 (by simp [char, isHigh_byte]), ih⟩
  | code s u r h hr ih =>
    rw [decode, items_code h hr]
    refine List.isChain_cons.mpr ⟨fun c hc hcc => ?_, ih⟩
    obtain ⟨v, r', hv, hlow⟩ := head_low c hc hcc.2
    rw [char, unit?_val h] at hcc
    exact hr v r' hv ⟨hcc.1, hlow⟩
  | pair s u r v r' h h' hu hv ih =>
    rw [decode, items_pair h h' hu hv]
    exact List.isChain_cons.mpr ⟨fun _ _ h => absurd h.1 (by simp [char, isHigh_pair hu hv]), ih⟩

/-! ## Plain lines -/

/-- Without a backslash in it, the key is the bytes before the separator. -/
theorem splitKey_plain (h : ∀ b ∈ (t.dropWhile isKeyByte).head?, b ≠ backslash) :
    splitKey t = (t.takeWhile isKeyByte, t.dropWhile isKeyByte) := by
  have hkey (b : UInt8) (hb : b ≠ backslash) : isKeyByte b = !(isBlank b || isSep b) := by
    simp [isKeyByte, hb, Bool.or_comm]
  have hbs : isKeyByte backslash = false := rfl
  fun_induction splitKey t with
  | case1 => rfl
  | case2 b hb =>
    have hne : b ≠ backslash := by rintro rfl; cases hb
    simp [hkey b hne, hb]
  | case3 b hb =>
    have hne : b ≠ backslash := by
      rintro rfl
      exact h backslash rfl rfl
    simp [hkey b hne, hb]
  | case4 c s ih => exact absurd rfl (h backslash rfl)
  | case5 b c s hne hb => simp [hkey b hne, hb]
  | case6 b c s hne hb ih =>
    have hpos : isKeyByte b = true := by simpa [hkey b hne] using hb
    rw [List.dropWhile_cons_of_pos hpos] at h
    simp [hpos, ih h]

/-- The separator has no backslash in it. -/
theorem skipSep_append : ∃ w, s = w ++ skipSep s ∧ backslash ∉ w := by
  have hblank (s : Bytes) : backslash ∉ s.takeWhile isBlank := fun h => nomatch List.mem_takeWhile_imp h
  have hs : s.takeWhile isBlank ++ trim s = s := List.takeWhile_append_dropWhile
  cases ht : trim s with
  | nil =>
    refine ⟨s.takeWhile isBlank, ?_, hblank s⟩
    rw [ht] at hs
    simp only [skipSep, ht]
    exact hs.symm
  | cons b r =>
    rw [ht] at hs
    by_cases hb : isSep b = true
    · refine ⟨s.takeWhile isBlank ++ b :: r.takeWhile isBlank, ?_, ?_⟩
      · have hr : r.takeWhile isBlank ++ trim r = r := List.takeWhile_append_dropWhile
        simp only [skipSep, ht, hb, if_true]
        rw [List.append_assoc, List.cons_append, hr, hs]
      · have hne : backslash ≠ b := by rintro rfl; cases hb
        simp [hblank, hne]
    · refine ⟨s.takeWhile isBlank, ?_, hblank s⟩
      simp only [skipSep, ht, hb]
      exact hs.symm

/-- The key stays on the line. -/
theorem key_line (ht : ∀ b ∈ t, isEol b = false) :
    t.dropWhile (fun b => isKeyByte b && !isEol b) = t.dropWhile isKeyByte := by
  induction t with
  | nil => rfl
  | cons b t ih =>
    have hb := ht b List.mem_cons_self
    by_cases hk : isKeyByte b = true
    · simp [hb, hk, ih fun c hc => ht c (List.mem_cons_of_mem b hc)]
    · simp [hk]

theorem plain_end (hb : l.Before r) (ht : ∀ b ∈ t, isEol b = false) {r' : Bytes}
    (h : alt terminator eof (t ++ (l.eol ++ r)) = some r') : t = [] ∧ r' = r := by
  have hterm := terminator_line ht hb.ends
  rw [List.append_assoc] at hterm
  rw [alt, hterm] at h
  by_cases hc : t = [] ∧ l.eol ≠ []
  · rw [if_pos hc, Option.some_or] at h
    exact ⟨hc.1, (Option.some.inj h).symm⟩
  · rw [if_neg hc, Option.none_or] at h
    cases hnil : t ++ (l.eol ++ r) with
    | nil =>
      rw [hnil] at h
      simp only [List.append_eq_nil_iff] at hnil
      exact ⟨hnil.1, by rw [hnil.2.2]; exact (Option.some.inj h).symm⟩
    | cons b s =>
      rw [hnil] at h
      cases h

/-- `_PLAIN_PROPERTY` reads a line as the general path does. -/
theorem plainProperty_before (hb : l.Before r) {key value r' : Bytes}
    (h : plainProperty (l.bytes ++ r) = some (key, value, r')) :
    r' = r ∧ first l (trim l.text) = (.start, some (some (trim l.text))) ∧
      (latin1 key, latin1 value) = (decode (split (trim l.text)).1, decode (split (trim l.text)).2) := by
  have htext := trim_text hb.text
  simp only [plainProperty, Option.bind_eq_bind, Option.bind_eq_some_iff, Option.some.injEq, Prod.mk.injEq] at h
  rw [Line.bytes, List.append_assoc, blanks_stops hb.stops] at h
  generalize trim l.text = t at h htext ⊢
  have hs := hb.stops
  obtain ⟨s₁, h₁, s₄, h₄, rfl, rfl, rfl⟩ := h
  cases t with
  | nil =>
    rw [List.nil_append, one_stops (fun b hb => by simp [hb]) hs] at h₁
    cases h₁
  | cons b t =>
    rw [List.cons_append, one_cons] at h₁
    split_ifs at h₁ with hkey
    obtain rfl := Option.some.inj h₁
    simp only [Bool.and_eq_true, Bool.not_eq_true'] at hkey
    obtain ⟨⟨hkb, hbeol⟩, hmark⟩ := hkey
    have ht : ∀ c ∈ t, isEol c = false := fun c hc => htext c (List.mem_cons_of_mem b hc)
    have hne : b ≠ backslash := by rintro rfl; cases hkb
    -- the key runs to a byte that is no part of it, on the same line
    have hdrop : star (one fun b => isKeyByte b && !isEol b) (t ++ (l.eol ++ r)) =
        t.dropWhile isKeyByte ++ (l.eol ++ r) := by
      rw [Pattern.star_one, dropWhile_stops (fun b hb => by simp [hb]) hs]
      rw [key_line ht]
    have hsplit : b :: t = (b :: t.takeWhile isKeyByte) ++ t.dropWhile isKeyByte := by
      rw [List.cons_append, List.takeWhile_append_dropWhile]
    obtain ⟨w, hw, hwb⟩ := skipSep_append (s := t.dropWhile isKeyByte)
    have hv : ∀ c ∈ skipSep (t.dropWhile isKeyByte), isEol c = false := fun c hc => by
      refine ht c ((List.dropWhile_sublist isKeyByte).subset ?_)
      rw [hw]
      exact List.mem_append_right w hc
    rw [hdrop, separator_stops hs] at h₄ ⊢
    have hstar (v : Bytes) : star (one fun b => !(b = backslash || isEol b)) (v ++ (l.eol ++ r)) =
        v.dropWhile (fun b => !(b = backslash || isEol b)) ++ (l.eol ++ r) := by
      rw [Pattern.star_one, dropWhile_stops (fun b hb => by simp [hb]) hs]
    rw [hstar] at h₄ ⊢
    obtain ⟨hnil, hr'⟩ := plain_end hb (fun c hc => hv c ((List.dropWhile_sublist _).subset hc)) h₄
    have hvb : backslash ∉ skipSep (t.dropWhile isKeyByte) := fun hmem => by
      have := List.dropWhile_eq_nil_iff.mp hnil backslash hmem
      simp at this
    have hkeyb : backslash ∉ b :: t.takeWhile isKeyByte := by
      simp only [List.mem_cons, not_or]
      exact ⟨Ne.symm hne, fun hmem => absurd (List.mem_takeWhile_imp hmem) Bool.false_ne_true⟩
    refine ⟨hr', ?_, ?_⟩
    · have hodd : odd (b :: t) = false := by
        rw [hsplit, odd_append hkeyb, hw, odd_append hwb]
        have := odd_append (s := []) hvb
        rwa [List.append_nil] at this
      simp [first, hne, hmark, hodd]
    · have hhead : ∀ c ∈ ((b :: t).dropWhile isKeyByte).head?, c ≠ backslash := by
        rw [List.dropWhile_cons_of_pos hkb]
        rintro c hc rfl
        refine hvb ?_
        cases hd : t.dropWhile isKeyByte with
        | nil => rw [hd] at hc; cases hc
        | cons x u =>
          rw [hd] at hc
          obtain rfl : x = backslash := by simpa using hc
          exact List.mem_cons_self
      have hspl : split (b :: t) = (b :: t.takeWhile isKeyByte, skipSep (t.dropWhile isKeyByte)) := by
        simp only [split, splitKey_plain hhead, List.takeWhile_cons_of_pos hkb, List.dropWhile_cons_of_pos hkb]
      have hup : upTo (b :: t ++ (l.eol ++ r)) (t.dropWhile isKeyByte ++ (l.eol ++ r)) = b :: t.takeWhile isKeyByte := by
        conv_lhs => rw [hsplit, List.append_assoc]
        exact upTo_append
      rw [hspl, decode_plain hkeyb, decode_plain hvb, hnil, List.nil_append, upTo_append, hup]

/-! ## Rounds of the walk -/

variable {ls taken xs ys : List Line} {m : Mode}

theorem blocks_skipped (h : ∀ y ∈ ys, trim y.text = [] ∨ (trim y.text).head?.any isMark = true) :
    blocks .start [] (ys ++ ls) = ys.map (fun y => ([y], none)) ++ blocks .start [] ls := by
  induction ys with
  | nil => rfl
  | cons y ys ih =>
    have hstep : step .start y = (.start, some none) := by
      have hy := h y List.mem_cons_self
      have hne : trim y.text ≠ [backslash] := by
        intro heq
        rw [heq] at hy
        exact absurd hy (by decide)
      simp only [step, first, hne, if_false, if_pos hy]
    simp only [List.cons_append, blocks, hstep, List.nil_append, List.map_cons,
      ih fun y' hy' => h y' (List.mem_cons_of_mem y hy')]

theorem blocks_joined (acc : Bytes) (taken ls : List Line) (h : ∀ y ∈ ys, odd y.text = true) :
    blocks (.cont acc) taken (ys ++ ls) = blocks (.cont (acc ++ joined ys)) (taken ++ ys) ls := by
  induction ys generalizing acc taken with
  | nil => simp [joined]
  | cons y ys ih =>
    have hodd : odd (trim y.text) = true := odd_trim.trans (h y List.mem_cons_self)
    simp only [List.cons_append, blocks, step, hodd, if_true]
    rw [ih _ _ fun y' hy' => h y' (List.mem_cons_of_mem y hy')]
    simp [joined]

/-- Where the logical line starts. -/
theorem firstLine_spec (hs : s ≠ []) : ∃ xs l r, lines s = xs ++ l :: lines r ∧ s = bytes xs ++ (l.bytes ++ r) ∧
    (∀ x ∈ xs, trim x.text = [backslash]) ∧ l.Before r ∧ l.bytes ≠ [] ∧ (trim l.text = [backslash] → r = []) ∧
    firstLine s = (trim l.text, r) := by
  obtain ⟨l, r, rfl, hb, hne, hlines⟩ := exists_line hs
  by_cases h : trim l.text = [backslash] ∧ r ≠ []
  · obtain ⟨ys, h₁, h₂, h₃, h₄⟩ := star_lines
      (f := fun s => (one (· = backslash) (blanks s)).bind terminator) (P := fun t => trim t = [backslash])
      (fun l r => lone_before) r
    rw [← loneBackslashLines] at h₁ h₂ h₄
    have hlone : ∀ x ∈ l :: ys, trim x.text = [backslash] := fun x hx => by
      rcases List.mem_cons.mp hx with rfl | hx
      · exact h.1
      · exact (h₃ x hx).1
    by_cases hr : loneBackslashLines r = []
    · rw [hr, lines_nil, List.append_nil] at h₁
      rw [hr, List.append_nil] at h₂
      obtain ⟨xs, last, hxs⟩ : ∃ xs last, l :: ys = xs ++ [last] :=
        ⟨_, _, (List.dropLast_append_getLast (List.cons_ne_nil l ys)).symm⟩
      have hlines' : lines (l.bytes ++ r) = xs ++ [last] := by rw [hlines, h₁, hxs]
      have hspec := lines_spec (l.bytes ++ r)
      rw [hlines'] at hspec
      obtain ⟨hlast, hbefore, -⟩ := hspec.2.right
      refine ⟨xs, last, [], hlines', ?_, fun x hx => hlone x ?_, hbefore, hlast, fun _ => rfl, ?_⟩
      · rw [← hspec.1, bytes_append]
        simp [Properties.bytes]
      · rw [hxs]
        exact List.mem_append_left _ hx
      · have htrim : trim last.text = [backslash] := hlone last (by rw [hxs]; exact List.mem_append_right _ (by simp))
        have hline : l.text.dropWhile isBlank = [backslash] := h.1
        simp only [firstLine, naturalLine_before hb, hline, true_and]
        simp [h.2, hr, htrim]
    · obtain ⟨l', r', hr', hb', hne', hlines'⟩ := exists_line hr
      have hline : l.text.dropWhile isBlank = [backslash] := h.1
      refine ⟨l :: ys, l', r', ?_, ?_, hlone, hb', hne', fun ht => ?_, ?_⟩
      · rw [hlines, h₁, hlines']
        rfl
      · conv_lhs => rw [h₂, hr']
        simp [Properties.bytes]
      · exact hb'.ends.nil (h₄ l' r' hr' hb' ht)
      · have hr'' : loneBackslashLines r ≠ [] := hr
        simp only [firstLine, naturalLine_before hb, hline, true_and]
        rw [if_pos h.2, if_pos hr'', hr', naturalLine_before hb']
        rfl
  · refine ⟨[], l, r, hlines, rfl, fun _ h => absurd h List.not_mem_nil, hb, hne, fun ht => ?_, ?_⟩
    · by_contra hr
      exact h ⟨ht, hr⟩
    · simp only [firstLine, naturalLine_before hb]
      exact if_neg h

/-- The key and the value of a logical line. -/
def entry (t : Bytes) : Str × Str := (decode (split t).1, decode (split t).2)

/-- The blocks that a round takes. -/
def Found : Option (Str × Str) → List (List Line × Option Bytes) → Prop
  | none, bs => ∀ b ∈ bs, b.2 = none
  | some kv, bs => ∃ taken t, bs = [(taken, some t)] ∧ kv = entry t

/-- The line that a run of continued lines stops at, without what would go on. -/
def lastLine (t : Bytes) : Bytes := if odd (trim t) then (trim t).dropLast else trim t

/-- The lines after a line that goes on: those that go on in turn, and the last one. -/
theorem continued_spec (r : Bytes) : ∃ zs t text, naturalLine (continuedLines r) = (text, t) ∧ r = bytes zs ++ t ∧
    ∀ acc taken, blocks (.cont acc) taken (lines r) = (taken ++ zs, some (acc ++
      (sub lineContinuation id (upTo r (continuedLines r))).dropWhile isBlank ++ lastLine text)) ::
        blocks .start [] (lines t) := by
  obtain ⟨ys, h₁, h₂, h₃, h₄⟩ := star_lines (f := fun s => (one (· = backslash) (paired s)).bind terminator)
    (P := fun t => odd t = true) (fun l r => continued_before) r
  rw [← continuedLines] at h₁ h₂ h₄
  generalize continuedLines r = e at h₁ h₂ h₄ ⊢
  have hchain : Chain ys := by
    have := (lines_spec r).2
    rw [h₁] at this
    exact this.left
  have hmiddle : (sub lineContinuation id (upTo r e)).dropWhile isBlank = joined ys := by
    have hup : upTo r e = bytes ys := by
      conv_lhs => rw [h₂]
      exact upTo_append
    rw [hup]
    exact sub_continued hchain h₃
  have hjoined (acc : Bytes) (taken ls : List Line) := blocks_joined acc taken ls fun y hy => (h₃ y hy).1
  rw [hmiddle, h₁]
  by_cases he : e = []
  · subst he
    refine ⟨ys, [], [], rfl, h₂, fun acc taken => ?_⟩
    rw [hjoined]
    simp [lines_nil, blocks, finish, lastLine, trim, odd]
  · obtain ⟨l, t, rfl, hb, -, hlines⟩ := exists_line he
    refine ⟨ys ++ [l], t, l.text, naturalLine_before hb, ?_, fun acc taken => ?_⟩
    · conv_lhs => rw [h₂]
      simp [Properties.bytes]
    · rw [hjoined, hlines]
      by_cases hodd : odd (trim l.text) = true
      · have heol := h₄ l t rfl hb (odd_trim.symm.trans hodd)
        obtain rfl := hb.ends.nil heol
        simp [blocks, step, hodd, lines_nil, finish, lastLine]
      · simp [blocks, step, hodd, lastLine]

/-- **A round of the walk** reads whole blocks. -/
theorem readOne_spec (crlf : Bool) (hs : s ≠ []) : ∃ bs r found, readOne crlf s = (found, r) ∧
    r.length < s.length ∧ s = bytes (bs.flatMap (·.1)) ++ r ∧ ∀ content, s <:+ content →
      crlf = decide ([cr, lf] <:+ content) → blocks .start [] (lines s) = bs ++ blocks .start [] (lines r) ∧
        Found found bs := by
  cases hp : plainProperty s with
  | some p =>
    obtain ⟨l, r, rfl, hb, hne, hlines⟩ := exists_line hs
    obtain ⟨hr, hfirst, hkv⟩ := plainProperty_before hb hp
    have hlen := List.length_pos_iff.mpr hne
    refine ⟨[([l], some (trim l.text))], r, some (latin1 p.1, latin1 p.2.1), ?_, ?_, by simp [Properties.bytes],
      fun content _ _ => ⟨?_, _, _, rfl, hkv⟩⟩
    · simp only [readOne, hp, hr]
    · rw [List.length_append]
      omega
    · rw [hlines]
      simp only [blocks, step, hfirst]
      rfl
  | none =>
    obtain ⟨xs, l, r, hlines, hsplit, hlone, hb, hne, hlast, hfirst⟩ := firstLine_spec hs
    have hlen := List.length_pos_iff.mpr hne
    have hslen : s.length = (bytes xs).length + (l.bytes.length + r.length) := by
      conv_lhs => rw [hsplit]
      simp
    obtain ⟨m, hm, hblocks⟩ := blocks_lone (m := .start) [] (l :: lines r) (fun _ => rfl) hlone
    rw [List.nil_append] at hblocks
    have hread := readOne.eq_1 crlf s
    rw [hp, hfirst] at hread
    dsimp only at hread
    by_cases hbs : trim l.text = [backslash]
    · obtain rfl := hlast hbs
      refine ⟨[(xs ++ [l], if crlf then none else some [])], [], if crlf then none else some ([], []), ?_, by omega,
        ?_, fun content hc hcrlf => ?_⟩
      · rw [hread, hbs]
        cases crlf with
        | true => rfl
        | false => decide
      · conv_lhs => rw [hsplit]
        simp [Properties.bytes]
      · have hstep : step m l = (.lone crlf, none) := by
          rw [hcrlf]
          refine step_lone hm hbs hb (List.IsSuffix.trans ⟨bytes xs, ?_⟩ hc)
          rw [hsplit, List.append_nil]
        rw [hlines, hblocks]
        refine ⟨?_, ?_⟩
        · simp [blocks, hstep, lines_nil, finish]
        · cases crlf with
          | true => simp [Found]
          | false => exact ⟨_, _, rfl, rfl⟩
    · rw [if_neg (fun h => hbs h.1)] at hread
      by_cases hskip : trim l.text = [] ∨ (trim l.text).head?.any isMark = true
      · rw [if_pos hskip] at hread
        obtain ⟨ys, h₁, h₂, h₃, -⟩ := star_lines
          (f := fun s => terminator (opt (fun s => (one isMark s).map toEol) (blanks s)))
          (P := fun t => trim t = [] ∨ (trim t).head?.any isMark = true) (fun l r => skipped_before) r
        rw [← skippedLines] at h₁ h₂
        have hstep : step m l = (.start, some none) := by
          rw [hm, first, if_neg hbs, if_pos hskip]
        refine ⟨(xs ++ [l], none) :: ys.map (fun y => ([y], none)), skippedLines r, none, hread, ?_, ?_,
          fun content _ _ => ⟨?_, ?_⟩⟩
        · have hlen' := congrArg List.length h₂
          rw [List.length_append] at hlen'
          omega
        · rw [hsplit]
          conv_lhs => rw [h₂]
          simp [Properties.bytes, List.flatMap_map]
        · rw [hlines, hblocks, h₁]
          simp only [blocks, hstep, blocks_skipped fun y hy => (h₃ y hy).1]
          rfl
        · simp [Found]
      · rw [if_neg hskip] at hread
        by_cases hodd : odd (trim l.text) = true
        · have hodd' : endsWithOddBackslash (trim l.text) = true := hodd
          rw [if_pos hodd'] at hread
          obtain ⟨zs, t, text, hnat, hr, hcont⟩ := continued_spec r
          rw [hnat, splitKeyValue_eq, loadConvert_eq, loadConvert_eq] at hread
          have hstep : step m l = (.cont (trim l.text).dropLast, none) := by
            rw [hm, first, if_neg hbs, if_neg hskip, if_pos hodd]
          refine ⟨[(xs ++ [l] ++ zs, some _)], t, some (entry _), hread, ?_, ?_, fun content _ _ => ⟨?_, _, _, rfl, rfl⟩⟩
          · have hlen' := congrArg List.length hr
            rw [List.length_append] at hlen'
            omega
          · rw [hsplit]
            conv_lhs => rw [hr]
            simp [Properties.bytes]
          · rw [hlines, hblocks]
            simp only [blocks, hstep, hcont]
            rfl
        · have hodd' : ¬endsWithOddBackslash (trim l.text) = true := hodd
          rw [if_neg hodd', splitKeyValue_eq, loadConvert_eq, loadConvert_eq] at hread
          have hstep : step m l = (.start, some (some (trim l.text))) := by
            rw [hm, first, if_neg hbs, if_neg hskip, if_neg hodd]
          refine ⟨[(xs ++ [l], some (trim l.text))], r, some (entry (trim l.text)), hread, by omega, ?_,
            fun content _ _ => ⟨?_, _, _, rfl, rfl⟩⟩
          · conv_lhs => rw [hsplit]
            simp [Properties.bytes]
          · rw [hlines, hblocks]
            simp [blocks, hstep]

/-! ## The properties of a file -/

/-- The properties of blocks, from an offset on. -/
def located : ℕ → List (List Line × Option Bytes) → List Property
  | _, [] => []
  | n, (taken, found) :: bs =>
    (found.map fun t => (⟨(entry t).1, (entry t).2, n, n + (bytes taken).length⟩ : Property)).toList ++
      located (n + (bytes taken).length) bs

theorem located_append {n : ℕ} {bs bs' : List (List Line × Option Bytes)} :
    located n (bs ++ bs') = located n bs ++ located (n + (bytes (bs.flatMap (·.1))).length) bs' := by
  induction bs generalizing n with
  | nil => rfl
  | cons b bs ih =>
    obtain ⟨taken, found⟩ := b
    simp only [List.cons_append, located, ih, List.append_assoc, List.flatMap_cons, bytes_append, List.length_append,
      Nat.add_assoc]

theorem located_none {n : ℕ} {bs : List (List Line × Option Bytes)} (h : ∀ b ∈ bs, b.2 = none) : located n bs = [] := by
  induction bs generalizing n with
  | nil => rfl
  | cons b bs ih =>
    obtain ⟨taken, found⟩ := b
    obtain rfl : found = none := h _ List.mem_cons_self
    exact ih fun b hb => h b (List.mem_cons_of_mem _ hb)

theorem readProperty_consumes (content : Bytes) : Consumes (readProperty content) := by
  intro s hs
  obtain ⟨-, r, found, hread, hlen, -⟩ := readOne_spec ([cr, lf] <:+ content) hs
  simp only [readProperty, hread]
  exact hlen

/-- **The walk reads the logical lines**, each with the bytes that it takes. -/
theorem parse_eq (content : Bytes) : parse content = located 0 (blocks .start [] (lines content)) := by
  suffices h : ∀ s, s <:+ content → (readAll (readProperty content) s).reduceOption =
      located (content.length - s.length) (blocks .start [] (lines s)) by
    rw [parse, h content List.suffix_rfl, Nat.sub_self]
  intro s
  induction s using read_induction (readProperty_consumes content) with
  | hnil => exact fun _ => rfl
  | hread s hs ih =>
    intro hsuffix
    obtain ⟨bs, r, found, hread, hlen, hsplit, hspec⟩ := readOne_spec ([cr, lf] <:+ content) hs
    obtain ⟨hblocks, hfound⟩ := hspec content hsuffix rfl
    have hrest : (readProperty content s).2 = r := by simp only [readProperty, hread]
    have hslen := congrArg List.length hsplit
    rw [List.length_append] at hslen
    have hcontent := hsuffix.length_le
    have hoffset : content.length - s.length + (bytes (bs.flatMap (·.1))).length = content.length - r.length := by
      omega
    rw [hrest] at ih
    rw [readAll_eq (readProperty_consumes content) hs, hrest, hblocks, located_append, hoffset,
      ← ih (List.IsSuffix.trans ⟨_, hsplit.symm⟩ hsuffix)]
    cases found with
    | none =>
      rw [located_none hfound]
      simp [readProperty, hread, List.reduceOption_cons_of_none]
    | some kv =>
      obtain ⟨taken, t, rfl, rfl⟩ := hfound
      simp only [List.flatMap_cons, List.flatMap_nil, List.append_nil] at hoffset
      simp [readProperty, hread, located, hoffset, List.reduceOption_cons_of_some]

/-- The keys and the values of a file. -/
theorem parse_entries (content : Bytes) :
    (parse content).map (fun p => (p.key, p.value)) = (logicals content).map entry := by
  have h (n : ℕ) (bs : List (List Line × Option Bytes)) :
      (located n bs).map (fun p => (p.key, p.value)) = (bs.filterMap (·.2)).map entry := by
    induction bs generalizing n with
    | nil => rfl
    | cons b bs ih =>
      obtain ⟨taken, found⟩ := b
      cases found with
      | none => exact ih _
      | some t => exact congrArg (entry t :: ·) (ih _)
  rw [parse_eq, h, logicals]

end McServerDashboard.Properties
