import Mathlib.Data.List.DropRight
import McServerDashboard.Lib.Patterns
import McServerDashboard.Lib.CodePoints

/-!
# The grammar of `.properties` files

How `java.util.Properties.load` reads a text, line by line: lines that end in an odd run of backslashes go on
in the next one, a backslash alone leaves the next line a first line, blank lines and comments are skipped.

* `Line`, `lines`: the natural lines; `step`: what a line makes of the logical line so far.
* `blocks`: the logical lines, each with the text that it takes; `logicals`: the logical lines.
* `split`, `items`: the key and the value of a logical line, and their characters.
* **`Closed`**: a text that leaves nothing open, whatever follows it.
-/

namespace Lib.Properties

open Lib.Pattern

abbrev Bytes := List UInt8

abbrev lf : UInt8 := 10
abbrev cr : UInt8 := 13
abbrev backslash : UInt8 := 92

def isEol (b : UInt8) : Bool := b = lf || b = cr

/-- A blank, a tab or a form feed. -/
def isBlank (b : UInt8) : Bool := b = 32 || b = 9 || b = 12

/-- `=` or `:`. -/
def isSep (b : UInt8) : Bool := b = 61 || b = 58

/-- `#` or `!`. -/
def isMark (b : UInt8) : Bool := b = 35 || b = 33

/-! ## Natural lines -/

structure Line where
  text : Bytes
  eol : Bytes
  deriving DecidableEq

def Line.bytes (l : Line) : Bytes := l.text ++ l.eol

/-- The first line of a text, and what follows it. -/
def readLine (s : Bytes) : Line × Bytes :=
  match s.dropWhile (!isEol ·) with
  | [] => (⟨s, []⟩, [])
  | b :: r =>
    if b = cr ∧ r.head? = some lf then (⟨s.takeWhile (!isEol ·), [cr, lf]⟩, r.tail)
    else (⟨s.takeWhile (!isEol ·), [b]⟩, r)

def lines (s : Bytes) : List Line := readAll readLine s

/-- The line without its leading blanks. -/
def trim (s : Bytes) : Bytes := s.dropWhile isBlank

/-- The line ends in an odd run of backslashes. -/
def odd (s : Bytes) : Bool := (s.length - (s.rdropWhile (· = backslash)).length) % 2 = 1

/-! ## Logical lines -/

/-- Where a line finds the logical line. -/
inductive Mode
  | start
  /-- Only lone backslashes so far, and whether the last of them ended in CR LF. -/
  | lone (crlf : Bool)
  | cont (acc : Bytes)
  deriving DecidableEq

/-- A first line, without its leading blanks: where the next one finds the logical line, and what ends here, a
logical line or lines that are skipped. -/
def first (l : Line) (t : Bytes) : Mode × Option (Option Bytes) :=
  if t = [backslash] then (.lone (l.eol = [cr, lf]), none)
  else if t = [] ∨ t.head?.any isMark = true then (.start, some none)
  else if odd t then (.cont t.dropLast, none)
  else (.start, some (some t))

def step : Mode → Line → Mode × Option (Option Bytes)
  | .start, l => first l (trim l.text)
  | .lone _, l => first l (trim l.text)
  | .cont acc, l =>
    if odd (trim l.text) then (.cont (acc ++ (trim l.text).dropLast), none)
    else (.start, some (some (acc ++ trim l.text)))

/-- What ends with the text. -/
def finish : Mode → Option (Option Bytes)
  | .start => none
  | .lone crlf => some (if crlf then none else some [])
  | .cont acc => some (some acc)

/-- The logical lines and the skipped ones, each with the lines that it takes. -/
def blocks : Mode → List Line → List Line → List (List Line × Option Bytes)
  | m, taken, [] => (finish m).toList.map (taken, ·)
  | m, taken, l :: ls =>
    match step m l with
    | (m', none) => blocks m' (taken ++ [l]) ls
    | (m', some found) => (taken ++ [l], found) :: blocks m' [] ls

/-- The logical lines. -/
def logicals (s : Bytes) : List Bytes := (blocks .start [] (lines s)).filterMap (·.2)

/-! ## Keys and values -/

/-- The key runs to the first `=`, `:` or blank that is not escaped. -/
def splitKey : Bytes → Bytes × Bytes
  | [] => ([], [])
  | [b] => if isBlank b || isSep b then ([], [b]) else ([b], [])
  | b :: c :: s =>
    if b = backslash then (b :: c :: (splitKey s).1, (splitKey s).2)
    else if isBlank b || isSep b then ([], b :: c :: s)
    else (b :: (splitKey (c :: s)).1, (splitKey (c :: s)).2)

/-- What is left after the separator: blanks, at most one `=` or `:`, and blanks. -/
def skipSep (s : Bytes) : Bytes :=
  match trim s with
  | [] => []
  | b :: r => if isSep b then trim r else b :: r

/-- The key and the value of a logical line, as they are spelled. -/
def split (t : Bytes) : Bytes × Bytes := ((splitKey t).1, skipSep (splitKey t).2)

abbrev CodePoint := Fin 0x110000

def chr (n : ℕ) : CodePoint := Fin.ofNat _ n

/-- The lead and the trail of a surrogate pair. -/
def isHigh (n : ℕ) : Bool := 0xD800 ≤ n && n ≤ 0xDBFF

def isLow (n : ℕ) : Bool := 0xDC00 ≤ n && n ≤ 0xDFFF

def pair (high low : ℕ) : CodePoint := chr (0x10000 + (high - 0xD800) * 0x400 + (low - 0xDC00))

/-- A character of a key or a value: a byte of the text, or the code point of an escape. -/
inductive Item
  | raw (b : UInt8)
  | code (c : CodePoint)
  deriving DecidableEq

def hexDigit? (b : UInt8) : Option ℕ :=
  if 48 ≤ b ∧ b ≤ 57 then some (b.toNat - 48)
  else if 97 ≤ b ∧ b ≤ 102 then some (b.toNat - 87)
  else if 65 ≤ b ∧ b ≤ 70 then some (b.toNat - 55)
  else none

/-- Four hex digits. -/
def hex4? : Bytes → Option (ℕ × Bytes)
  | a :: b :: c :: d :: s => do
    let a ← hexDigit? a
    let b ← hexDigit? b
    let c ← hexDigit? c
    let d ← hexDigit? d
    some (((a * 16 + b) * 16 + c) * 16 + d, s)
  | _ => none

/-- `\u` and four hex digits. -/
def unit? : Bytes → Option (ℕ × Bytes)
  | b :: c :: s => if b = backslash ∧ c = 117 then hex4? s else none
  | _ => none

/-- What a backslash and one byte spell. -/
def escaped (b : UInt8) : UInt8 := if b = 116 then 9 else if b = 114 then 13 else if b = 110 then 10 else
  if b = 102 then 12 else b

/-- The first character, and what is left. -/
def readItem (s : Bytes) : Item × Bytes :=
  match unit? s, s with
  | some (u, r), _ =>
    match unit? r with
    | some (v, r') => if isHigh u ∧ isLow v then (.code (pair u v), r') else (.code (chr u), r)
    | none => (.code (chr u), r)
  | none, b :: c :: r => if b = backslash then (.raw (escaped c), r) else (.raw b, c :: r)
  | none, [b] => (.raw b, [])
  | none, [] => (.raw backslash, [])

/-- The characters of a key or a value. -/
def items (s : Bytes) : List Item := readAll readItem s

/-! ## Runs of backslashes -/

variable {b c : UInt8} {s r t u : Bytes} {l : Line} {ls xs ys : List Line} {m m' : Mode}

theorem odd_cons (hc : c ≠ backslash) : odd (c :: t) = odd t := by
  have h : (c :: t).rdropWhile (· = backslash) = c :: t.rdropWhile (· = backslash) := by
    simp only [List.rdropWhile, List.reverse_cons, List.dropWhile_append]
    split_ifs with he
    · simp [List.isEmpty_iff.mp he, hc]
    · simp
  simp [odd, h]

theorem odd_pair : odd (backslash :: c :: t) = odd t := by
  by_cases ht : ∀ x ∈ t, x = backslash
  · have htail : t.rdropWhile (· = backslash) = [] := List.rdropWhile_eq_nil_iff.mpr (by simpa using ht)
    by_cases hc : c = backslash
    · have h : (backslash :: c :: t).rdropWhile (· = backslash) = [] :=
        List.rdropWhile_eq_nil_iff.mpr (by simpa [hc] using ht)
      simp only [odd, h, htail, List.length_cons, List.length_nil, Nat.sub_zero, decide_eq_decide]
      omega
    · have h : (c :: t).rdropWhile (· = backslash) = [c] := by
        simp only [List.rdropWhile, List.reverse_cons, List.dropWhile_append] at htail ⊢
        simp [List.reverse_eq_nil_iff.mp htail, hc]
      have h' : (backslash :: c :: t).rdropWhile (· = backslash) = [backslash, c] := by
        simp only [List.rdropWhile, List.reverse_cons] at h ⊢
        rw [List.dropWhile_append]
        have hne : (t.reverse ++ [c]).dropWhile (· = backslash) = [c] := by
          have := congrArg List.reverse h
          simpa using this
        simp [hne]
      simp [odd, h', htail]
  · simp only [not_forall] at ht
    have hne : t.reverse.dropWhile (· = backslash) ≠ [] := by
      simpa using ht
    have h : (backslash :: c :: t).rdropWhile (· = backslash) = backslash :: c :: t.rdropWhile (· = backslash) := by
      simp only [List.rdropWhile, List.reverse_cons, List.append_assoc, List.dropWhile_append]
      simp [hne]
    simp [odd, h]

theorem odd_single : odd [backslash] = true := by decide

theorem odd_trim : odd (trim t) = odd t := by
  induction t with
  | nil => rfl
  | cons c t ih =>
    by_cases hc : isBlank c = true
    · rw [trim, List.dropWhile_cons_of_pos hc]
      have hne : c ≠ backslash := by
        rintro rfl
        cases hc
      exact ih.trans (odd_cons hne).symm
    · rw [trim, List.dropWhile_cons_of_neg hc]

theorem odd_append (h : backslash ∉ t) : odd (t ++ s) = odd s := by
  induction t with
  | nil => rfl
  | cons b t ih =>
    rw [List.mem_cons, not_or] at h
    exact (odd_cons (Ne.symm h.1)).trans (ih h.2)

/-- An odd run ends the line. -/
theorem odd_eq_append (h : odd t = true) : t = t.dropLast ++ [backslash] := by
  have hne : t ≠ [] := by
    rintro rfl
    cases h
  suffices t.getLast hne = backslash by
    rw [← this]
    exact (List.dropLast_append_getLast hne).symm
  by_contra hlast
  have hself : t.rdropWhile (· = backslash) = t := List.rdropWhile_eq_self_iff.mpr fun _ => by simpa using hlast
  simp [odd, hself] at h

/-! ## The natural lines of a text -/

/-- `eol` is what ends a line before `r`. -/
def Ends (eol r : Bytes) : Prop :=
  eol = [lf] ∨ eol = [cr] ∧ r.head? ≠ some lf ∨ eol = [cr, lf] ∨ eol = [] ∧ r = []

/-- Only the end of the text ends a line with nothing. -/
theorem Ends.nil {eol r : Bytes} (h : Ends eol r) (he : eol = []) : r = [] := by
  rcases h with h | ⟨h, -⟩ | h | ⟨-, h⟩
  · rw [he] at h; cases h
  · rw [he] at h; cases h
  · rw [he] at h; cases h
  · exact h

/-- A line, and what follows it. -/
structure Line.Before (l : Line) (r : Bytes) : Prop where
  text : ∀ b ∈ l.text, isEol b = false
  ends : Ends l.eol r

theorem readLine_before (h : l.Before r) : readLine (l.bytes ++ r) = (l, r) := by
  obtain ⟨text, eol⟩ := l
  obtain ⟨htext, hends⟩ := h
  have hdrop (s : Bytes) : (text ++ s).dropWhile (!isEol ·) = s.dropWhile (!isEol ·) := by
    rw [List.dropWhile_append_of_pos]
    simpa using htext
  have htake (s : Bytes) : (text ++ s).takeWhile (!isEol ·) = text ++ s.takeWhile (!isEol ·) := by
    rw [List.takeWhile_append_of_pos]
    simpa using htext
  simp only [readLine, Line.bytes, List.append_assoc, hdrop, htake]
  rcases hends with rfl | ⟨rfl, hr⟩ | rfl | ⟨rfl, rfl⟩
  · simp [isEol, show lf ≠ cr by decide]
  · simp [isEol, hr]
  · simp [isEol]
  · simp

theorem readLine_spec (s : Bytes) : ∃ l r, readLine s = (l, r) ∧ s = l.bytes ++ r ∧ l.Before r := by
  have htext : ∀ b ∈ s.takeWhile (!isEol ·), isEol b = false := fun b hb => by
    simpa using List.mem_takeWhile_imp hb
  have hs : s.takeWhile (!isEol ·) ++ s.dropWhile (!isEol ·) = s := List.takeWhile_append_dropWhile
  unfold readLine
  cases hd : s.dropWhile (!isEol ·) with
  | nil =>
    rw [hd, List.append_nil] at hs
    exact ⟨_, _, rfl, by simp [Line.bytes], hs ▸ htext, .inr (.inr (.inr ⟨rfl, rfl⟩))⟩
  | cons b r =>
    have hb : isEol b = true := by
      have := List.head?_dropWhile_not (!isEol ·) s
      rw [hd] at this
      simpa using this
    rw [hd] at hs
    dsimp only
    split_ifs with hcr
    · obtain ⟨rfl, hr⟩ := hcr
      obtain ⟨r, rfl⟩ : ∃ r', r = lf :: r' := by
        cases r with
        | nil => cases hr
        | cons x r => exact ⟨r, by simpa using hr⟩
      exact ⟨_, _, rfl, by simp [Line.bytes, hs], htext, .inr (.inr (.inl rfl))⟩
    · refine ⟨_, _, rfl, by simp [Line.bytes, hs], htext, ?_⟩
      simp only [isEol, Bool.or_eq_true, decide_eq_true_eq] at hb
      rcases hb with rfl | rfl
      · exact .inl rfl
      · exact .inr (.inl ⟨rfl, fun hr => hcr ⟨rfl, hr⟩⟩)

theorem readLine_consumes : Consumes readLine := by
  intro s hs
  obtain ⟨l, r, he, hlr, hb⟩ := readLine_spec s
  rw [he]
  conv_rhs => rw [hlr]
  rw [List.length_append]
  dsimp only
  suffices 0 < l.bytes.length by omega
  rw [List.length_pos_iff]
  intro hnil
  have htext : l.text = [] := (List.append_eq_nil_iff.mp hnil).1
  have heol : l.eol = [] := (List.append_eq_nil_iff.mp hnil).2
  exact hs (by rw [hlr, hnil, hb.ends.nil heol, List.append_nil])

/-- What follows the text of a line is no part of it. -/
def Stops (r : Bytes) : Prop := ∀ b ∈ r.head?, isEol b = true

theorem Line.Before.stops (h : l.Before r) : Stops (l.eol ++ r) := by
  rcases h.ends with heol | ⟨heol, -⟩ | heol | ⟨heol, rfl⟩ <;> simp [heol, Stops, isEol]

theorem one_stops {p : UInt8 → Bool} (hp : ∀ b, isEol b = true → p b = false) (h : Stops r) : one p r = none := by
  cases r with
  | nil => rfl
  | cons b r => simp [one, hp b (h b rfl)]

/-- A class without terminators stays on the line. -/
theorem dropWhile_stops {p : UInt8 → Bool} (hp : ∀ b, isEol b = true → p b = false) (h : Stops r) :
    (t ++ r).dropWhile p = t.dropWhile p ++ r := by
  rw [List.dropWhile_append]
  split_ifs with ht
  · rw [List.isEmpty_iff.mp ht]
    cases r with
    | nil => rfl
    | cons b r => simp [hp b (h b rfl)]
  · rfl

theorem isEol_cases {b : UInt8} (h : isEol b = true) : b = lf ∨ b = cr := by simpa [isEol] using h

/-- The text of lines. -/
def bytes (ls : List Line) : Bytes := ls.flatMap Line.bytes

/-- Lines one after the other, as they are read. -/
def Chain : List Line → Prop
  | [] => True
  | l :: ls => l.bytes ≠ [] ∧ l.Before (bytes ls) ∧ Chain ls

theorem lines_nil : lines [] = [] := rfl

theorem lines_cons (hl : l.bytes ≠ []) (h : l.Before r) : lines (l.bytes ++ r) = l :: lines r := by
  rw [lines, readAll_eq readLine_consumes (by simp [hl]), readLine_before h]
  rfl

theorem lines_of_chain (h : Chain ls) : lines (bytes ls) = ls := by
  induction ls with
  | nil => rfl
  | cons l ls ih =>
    obtain ⟨hl, hb, hc⟩ := h
    rw [bytes, List.flatMap_cons]
    exact (lines_cons hl hb).trans (congrArg _ (ih hc))

/-- A text starts with a line. -/
theorem exists_line (hs : s ≠ []) : ∃ l r, s = l.bytes ++ r ∧ l.Before r ∧ l.bytes ≠ [] ∧ lines s = l :: lines r := by
  obtain ⟨l, r, he, rfl, hb⟩ := readLine_spec s
  have hl : l.bytes ≠ [] := by
    intro hnil
    have := readLine_consumes _ hs
    rw [he, hnil] at this
    simp at this
  exact ⟨l, r, rfl, hb, hl, lines_cons hl hb⟩

/-- A text is read into the lines that it is made of. -/
theorem lines_spec (s : Bytes) : bytes (lines s) = s ∧ Chain (lines s) := by
  induction s using read_induction readLine_consumes with
  | hnil => exact ⟨rfl, trivial⟩
  | hread s hs ih =>
    obtain ⟨l, r, he, rfl, hb⟩ := readLine_spec s
    rw [he] at ih
    have hl : l.bytes ≠ [] := by
      intro hnil
      have := readLine_consumes _ hs
      rw [he, hnil] at this
      simp at this
    rw [lines_cons hl hb]
    refine ⟨?_, hl, by rwa [ih.1], ih.2⟩
    rw [bytes, List.flatMap_cons]
    exact congrArg _ ih.1

theorem Chain.right (h : Chain (xs ++ ys)) : Chain ys := by
  induction xs with
  | nil => exact h
  | cons l xs ih => exact ih h.2.2

theorem Ends.of_append {eol : Bytes} (h : Ends eol (r ++ t)) : Ends eol r := by
  rcases h with h | ⟨h, hr⟩ | h | ⟨h, hr⟩
  · exact .inl h
  · refine .inr (.inl ⟨h, fun hh => hr ?_⟩)
    rw [List.head?_append, hh]
    rfl
  · exact .inr (.inr (.inl h))
  · exact .inr (.inr (.inr ⟨h, (List.append_eq_nil_iff.mp hr).1⟩))

theorem bytes_append : bytes (xs ++ ys) = bytes xs ++ bytes ys := List.flatMap_append

theorem Chain.left (h : Chain (xs ++ ys)) : Chain xs := by
  induction xs with
  | nil => trivial
  | cons l xs ih =>
    obtain ⟨hl, hb, hc⟩ := h
    have hb : l.Before (bytes (xs ++ ys)) := hb
    rw [bytes_append] at hb
    exact ⟨hl, ⟨hb.text, hb.ends.of_append⟩, ih hc⟩

/-! ## Runs over lines -/

/-- The logical lines that end within the lines. -/
def emits : Mode → List Line → List Bytes
  | _, [] => []
  | m, l :: ls => (step m l).2.join.toList ++ emits (step m l).1 ls

def after (m : Mode) (ls : List Line) : Mode := ls.foldl (fun m l => (step m l).1) m

/-- The logical line that ends with the text. -/
def rest (m : Mode) : List Bytes := (finish m).join.toList

theorem emits_append : emits m (xs ++ ys) = emits m xs ++ emits (after m xs) ys := by
  induction xs generalizing m with
  | nil => rfl
  | cons l xs ih =>
    simp only [List.cons_append, emits, ih, List.append_assoc]
    rfl

theorem after_append : after m (xs ++ ys) = after (after m xs) ys := List.foldl_append

theorem filterMap_blocks {taken : List Line} :
    (blocks m taken ls).filterMap (·.2) = emits m ls ++ rest (after m ls) := by
  induction ls generalizing m taken with
  | nil =>
    cases hf : finish m with
    | none => simp [blocks, emits, after, rest, hf]
    | some found => cases found <;> simp [blocks, emits, after, rest, hf]
  | cons l ls ih =>
    simp only [after] at ih
    simp only [blocks, emits, after, List.foldl_cons]
    obtain ⟨m', found⟩ := step m l
    cases found with
    | none => simpa using ih
    | some found => cases found <;> simp [ih]

theorem logicals_eq : logicals s = emits .start (lines s) ++ rest (after .start (lines s)) := filterMap_blocks

/-- Where the text leaves the logical line. -/
def ending (s : Bytes) : Mode := after .start (lines s)

/-- The text is read as what is found, and then as `r`. -/
structure Continues (s r : Bytes) (found : List Bytes) : Prop where
  logicals : logicals s = found ++ logicals r
  ending : ending s = ending r

theorem continues_of_lines (h : lines s = xs ++ lines r) (ha : after .start xs = .start) :
    Continues s r (emits .start xs) := by
  constructor
  · rw [logicals_eq, logicals_eq, h, emits_append, after_append, ha, List.append_assoc]
  · rw [ending, h, after_append, ha, ending]

/-- A blank line. -/
theorem continues_lf : Continues (lf :: r) r [] := by
  have h : lines (lf :: r) = [⟨[], [lf]⟩] ++ lines r :=
    lines_cons (l := ⟨[], [lf]⟩) (by simp [Line.bytes]) ⟨by simp, .inl rfl⟩
  exact continues_of_lines h rfl

/-- Past lone backslashes a line is a first line. -/
def Fresh (m : Mode) : Prop := ∀ l, step m l = first l (trim l.text)

theorem blocks_lone (taken ls : List Line) (hm : Fresh m) (h : ∀ x ∈ xs, trim x.text = [backslash]) :
    ∃ m', Fresh m' ∧ blocks m taken (xs ++ ls) = blocks m' (taken ++ xs) ls := by
  induction xs generalizing m taken with
  | nil => exact ⟨m, hm, by simp⟩
  | cons x xs ih =>
    have hstep : step m x = (.lone (x.eol = [cr, lf]), none) := by
      rw [hm, h x List.mem_cons_self]
      rfl
    obtain ⟨m', hm', heq⟩ := ih (m := .lone (x.eol = [cr, lf])) (taken ++ [x]) (fun _ => rfl)
      fun y hy => h y (List.mem_cons_of_mem x hy)
    refine ⟨m', hm', ?_⟩
    simp only [List.cons_append, blocks, hstep, heq, List.append_assoc, List.nil_append]

/-- A lone backslash at the end of the text. -/
theorem step_lone {content : Bytes} (hm : Fresh m) (hl : trim l.text = [backslash]) (hb : l.Before [])
    (hc : l.bytes <:+ content) : step m l = (.lone ([cr, lf] <:+ content), none) := by
  have htext : l.text = l.text.takeWhile isBlank ++ [backslash] := by
    rw [← hl]
    exact List.takeWhile_append_dropWhile.symm
  have heol : [cr, lf] <:+ content ↔ l.eol = [cr, lf] := by
    obtain ⟨u, rfl⟩ := hc
    rw [Line.bytes, htext, ← List.reverse_prefix]
    have hcr : cr ≠ backslash := by decide
    have hlf : lf ≠ backslash := by decide
    have hne : lf ≠ cr := by decide
    rcases hb.ends with h | ⟨h, -⟩ | h | ⟨h, -⟩ <;> simp [h, hcr, hlf, hne]
  rw [hm, hl, first, if_pos rfl]
  simp only [heol]

/-- A block that ends before the text does. -/
def Ended (b : List Line × Option Bytes) : Prop := after .start b.1 = .start ∧ emits .start b.1 = b.2.toList

/-- A block that the end of the text ends. -/
def Open (b : List Line × Option Bytes) : Prop := finish (after .start b.1) = some b.2 ∧ emits .start b.1 = []

theorem step_start {found : Option Bytes} (h : (step m l).2 = some found) : (step m l).1 = .start := by
  cases m <;> simp only [step, first] at h ⊢ <;> split_ifs at h ⊢ <;> rfl

theorem step_open (h : (step m l).2 = none) : (step m l).1 ≠ .start := by
  cases m <;> simp only [step, first] at h ⊢ <;> split_ifs at h ⊢ <;> nofun

/-- All blocks but maybe the last are ended. -/
theorem blocks_spec (ls taken : List Line) (hm : after .start taken = m) (he : emits .start taken = [])
    (ht : m = .start → taken = []) : ∃ bs last, blocks m taken ls = bs ++ last ∧ (∀ b ∈ bs, Ended b) ∧
      (last = [] ∨ ∃ b, last = [b] ∧ Open b) ∧ (bs ++ last).flatMap (·.1) = taken ++ ls := by
  induction ls generalizing m taken with
  | nil =>
    cases hf : finish m with
    | none =>
      refine ⟨[], [], by simp [blocks, hf], nofun, .inl rfl, ?_⟩
      cases m with
      | start => simp [ht rfl]
      | _ => cases hf
    | some found => exact ⟨[], [(taken, found)], by simp [blocks, hf], nofun, .inr ⟨_, rfl, hm ▸ hf, he⟩, by simp⟩
  | cons l ls ih =>
    have hafter : after .start (taken ++ [l]) = (step m l).1 := by
      rw [after_append, hm]
      rfl
    have hemits : emits .start (taken ++ [l]) = (step m l).2.join.toList := by
      rw [emits_append, he, hm]
      simp [emits]
    have hstart {found} (hs : (step m l).2 = some found) : (step m l).1 = .start := step_start hs
    have hopen (hs : (step m l).2 = none) : (step m l).1 ≠ .start := step_open hs
    simp only [blocks]
    generalize step m l = r at *
    obtain ⟨m', found⟩ := r
    cases found with
    | none =>
      obtain ⟨bs, last, h1, h2, h3, h4⟩ := ih _ hafter (by simpa using hemits) fun h => absurd h (hopen rfl)
      exact ⟨bs, last, h1, h2, h3, by simpa using h4⟩
    | some found =>
      obtain rfl : m' = .start := hstart rfl
      obtain ⟨bs, last, h1, h2, h3, h4⟩ := ih [] (m := .start) rfl rfl fun _ => rfl
      refine ⟨(taken ++ [l], found) :: bs, last, congrArg _ h1, ?_, h3, by simpa using h4⟩
      intro b hb
      rcases List.mem_cons.mp hb with rfl | hb
      · exact ⟨hafter, by simpa using hemits⟩
      · exact h2 b hb

/-! ## Texts that leave nothing open -/

theorem Ends.append {eol : Bytes} (h : Ends eol r) (hr : r ≠ []) : Ends eol (r ++ t) := by
  rcases h with h | ⟨h, hh⟩ | h | ⟨-, h⟩
  · exact .inl h
  · refine .inr (.inl ⟨h, ?_⟩)
    rwa [List.head?_append_of_ne_nil _ hr]
  · exact .inr (.inr (.inl h))
  · exact absurd h hr

theorem Chain.ne_nil (h : Chain ls) (hne : ls ≠ []) : bytes ls ≠ [] := by
  cases ls with
  | nil => exact absurd rfl hne
  | cons l ls => simp [bytes, h.1]

theorem lines_append (h : Chain xs) (hl : ∀ l ∈ xs.getLast?, Ends l.eol r) :
    lines (bytes xs ++ r) = xs ++ lines r := by
  induction xs with
  | nil => rfl
  | cons l xs ih =>
    obtain ⟨hne, hb, hc⟩ := h
    rw [bytes, List.flatMap_cons, List.append_assoc]
    by_cases hxs : xs = []
    · subst hxs
      exact lines_cons hne ⟨hb.text, hl l rfl⟩
    · refine (lines_cons hne ⟨hb.text, hb.ends.append (hc.ne_nil hxs)⟩).trans (congrArg _ (ih hc fun l' hl' => ?_))
      exact hl l' (by rwa [List.getLast?_cons_of_ne_nil hxs])

/-- A line feed after lines that end in none. -/
def sealed : List Line → List Line
  | [] => []
  | [l] => [⟨l.text, l.eol ++ [lf]⟩]
  | l :: ls => l :: sealed ls

theorem lines_sealed (h : Chain xs) (hne : xs ≠ []) (hl : ∀ l ∈ xs.getLast?, l.eol = [] ∨ l.eol = [cr]) :
    lines (bytes xs ++ lf :: r) = sealed xs ++ lines r := by
  induction xs with
  | nil => exact absurd rfl hne
  | cons l xs ih =>
    obtain ⟨hln, hb, hc⟩ := h
    rw [bytes, List.flatMap_cons, List.append_assoc]
    by_cases hxs : xs = []
    · subst hxs
      have heq : l.bytes ++ lf :: r = (⟨l.text, l.eol ++ [lf]⟩ : Line).bytes ++ r := by simp [Line.bytes]
      simp only [List.flatMap_nil, List.nil_append, heq]
      refine lines_cons (by simp [Line.bytes]) ⟨hb.text, ?_⟩
      rcases hl l rfl with h | h
      · exact .inl (by simp [h])
      · exact .inr (.inr (.inl (by simp [h])))
    · have hs : sealed (l :: xs) = l :: sealed xs := by
        cases xs with
        | nil => exact absurd rfl hxs
        | cons x xs => rfl
      rw [hs]
      refine (lines_cons hln ⟨hb.text, hb.ends.append (hc.ne_nil hxs)⟩).trans
        (congrArg _ (ih hc hxs fun l' hl' => ?_))
      exact hl l' (by rwa [List.getLast?_cons_of_ne_nil hxs])

/-- How the last line ends matters to a lone backslash only. -/
theorem run_sealed (h : after m xs = .start) : emits m (sealed xs) = emits m xs ∧ after m (sealed xs) = .start := by
  induction xs generalizing m with
  | nil => exact ⟨rfl, h⟩
  | cons l xs ih =>
    cases xs with
    | nil =>
      have hfirst (t : Bytes) (h : (first l t).1 = .start) (l' : Line) : first l' t = first l t := by
        unfold first at h ⊢
        split_ifs at h ⊢ <;> rfl
      have hstep : step m ⟨l.text, l.eol ++ [lf]⟩ = step m l := by
        have h : (step m l).1 = .start := h
        cases m with
        | cont acc => rfl
        | _ => exact hfirst _ h _
      simp only [sealed, emits, after, List.foldl_cons, List.foldl_nil, hstep]
      exact ⟨trivial, h⟩
    | cons x xs =>
      obtain ⟨h1, h2⟩ := ih (m := (step m l).1) h
      exact ⟨congrArg ((step m l).2.join.toList ++ ·) h1, h2⟩

/-- The text of lines that leave nothing open, and a line feed. -/
theorem continues_lf_append (h : Chain xs) (ha : after .start xs = .start) :
    Continues (bytes xs ++ lf :: r) r (emits .start xs) := by
  by_cases hne : xs = []
  · subst hne
    exact continues_lf
  by_cases hl : ∀ l ∈ xs.getLast?, l.eol = [] ∨ l.eol = [cr]
  · obtain ⟨h1, h2⟩ := run_sealed ha
    rw [← h1]
    exact continues_of_lines (lines_sealed h hne hl) h2
  · have hlines : lines (bytes xs ++ lf :: r) = xs ++ lines (lf :: r) := by
      refine lines_append h fun l hlast => ?_
      simp only [not_forall] at hl
      obtain ⟨l', hl', hn⟩ := hl
      obtain rfl : l' = l := Option.some.inj (hl'.symm.trans hlast)
      obtain ⟨ys, hys⟩ := List.getLast?_eq_some_iff.mp hlast
      have hb : l'.Before [] := (hys ▸ h).right.2.1
      rcases hb.ends with h | ⟨h, -⟩ | h | ⟨h, -⟩
      · exact .inl h
      · exact absurd (.inr h) hn
      · exact .inr (.inr (.inl h))
      · exact absurd (.inl h) hn
    have hc := continues_of_lines hlines ha
    exact ⟨hc.logicals.trans (congrArg _ continues_lf.logicals), hc.ending.trans continues_lf.ending⟩

/-- The text of terminated lines that leave nothing open. -/
theorem continues_append (h : Chain xs) (hl : ∀ l ∈ xs.getLast?, l.eol ≠ []) (ha : after .start xs = .start) :
    Continues (bytes xs ++ r) r (emits .start xs) := by
  by_cases hr : ∃ r', r = lf :: r'
  · obtain ⟨r', rfl⟩ := hr
    have hc := continues_lf_append (r := r') h ha
    exact ⟨hc.logicals.trans (congrArg _ continues_lf.logicals.symm), hc.ending.trans continues_lf.ending.symm⟩
  · refine continues_of_lines (lines_append h fun l hlast => ?_) ha
    obtain ⟨ys, hys⟩ := List.getLast?_eq_some_iff.mp hlast
    have hb : l.Before [] := (hys ▸ h).right.2.1
    rcases hb.ends with h | ⟨h, -⟩ | h | ⟨h, -⟩
    · exact .inl h
    · refine .inr (.inl ⟨h, fun hh => hr ?_⟩)
      obtain ⟨r', hr'⟩ := List.head?_eq_some_iff.mp hh
      exact ⟨r', hr'⟩
    · exact .inr (.inr (.inl h))
    · exact absurd h (hl l hlast)

/-- **The text leaves nothing open**, whatever follows it. -/
def Closed (w : Bytes) (found : List Bytes) : Prop := ∀ r, Continues (w ++ r) r found

variable {found found' : List Bytes} {w w' : Bytes}

theorem closed_nil : Closed [] [] := fun _ => ⟨rfl, rfl⟩

theorem Closed.append (h : Closed w found) (h' : Closed w' found') : Closed (w ++ w') (found ++ found') := by
  intro r
  rw [List.append_assoc]
  exact ⟨by rw [(h _).logicals, (h' r).logicals, List.append_assoc], (h _).ending.trans (h' r).ending⟩

theorem Closed.ending_nil (h : Closed w found) : ending w = .start := by
  have := (h []).ending
  rwa [List.append_nil] at this

theorem Closed.logicals_nil (h : Closed w found) : logicals w = found := by
  have := (h []).logicals
  rwa [List.append_nil, show logicals [] = [] from rfl, List.append_nil] at this

/-! ## What a text has finished -/

/-- The logical lines that end within the text. -/
def front (s : Bytes) : List Bytes := emits .start (lines s)

theorem logicals_front : logicals s = front s ++ rest (ending s) := logicals_eq

theorem Continues.front (h : Continues s r found) : front s = found ++ front r := by
  have hl := h.logicals
  rw [logicals_front, logicals_front, h.ending, ← List.append_assoc] at hl
  exact List.append_cancel_right hl

/-- What the last line ends in is what the text ends in. -/
theorem Chain.getLast? (h : Chain (xs ++ [l])) : (bytes (xs ++ [l])).getLast? = l.bytes.getLast? := by
  have hb : bytes (xs ++ [l]) = bytes xs ++ l.bytes := by simp [bytes]
  rw [hb, List.getLast?_append_of_ne_nil _ h.right.1]

theorem Chain.ends_lf (h : Chain (xs ++ [l])) (hl : [lf] <:+ bytes (xs ++ [l])) : l.eol = [lf] ∨ l.eol = [cr, lf] := by
  rw [List.singleton_suffix_iff_getLast?_eq_some, h.getLast?, Line.bytes] at hl
  have hb : l.Before [] := h.right.2.1
  rcases hb.ends with he | ⟨he, -⟩ | he | ⟨he, -⟩
  · exact .inl he
  · rw [he, List.getLast?_concat, Option.some.injEq] at hl
    exact absurd hl (by decide)
  · exact .inr he
  · rw [he, List.append_nil] at hl
    exact absurd (hb.text lf (List.mem_of_getLast? hl)) (by decide)

/-- A line feed at the end ends the last line. -/
theorem lines_append_of_lf (h : [lf] <:+ s) : lines (s ++ r) = lines s ++ lines r := by
  obtain ⟨hs, hc⟩ := lines_spec s
  conv_lhs => rw [← hs]
  refine lines_append hc fun l hl => ?_
  obtain ⟨ys, hys⟩ := List.getLast?_eq_some_iff.mp hl
  rw [hys] at hc hs
  rcases hc.ends_lf (hs.symm ▸ h) with he | he
  · exact .inl he
  · exact .inr (.inr (.inl he))

theorem front_append (h : [lf] <:+ s) : front (s ++ r) = front s ++ emits (ending s) (lines r) := by
  rw [front, lines_append_of_lf h, emits_append]
  rfl

theorem ending_append (h : [lf] <:+ s) : ending (s ++ r) = after (ending s) (lines r) := by
  rw [ending, lines_append_of_lf h, after_append]
  rfl

/-- Where a line feed more leaves the logical line: only a lone backslash looks at how its line ends. -/
def Mode.sealed (crlf : Bool) : Mode → Mode
  | .lone _ => .lone crlf
  | m => m

theorem step_sealed (l' : Line) (h : l'.text = l.text) :
    (step m l').1 = (step m l).1.sealed (l'.eol = [cr, lf]) ∧ (step m l').2 = (step m l).2 := by
  cases m <;> simp only [step, first, h] <;> split_ifs <;> simp [Mode.sealed]

theorem sealed_append : sealed (xs ++ [l]) = xs ++ [⟨l.text, l.eol ++ [lf]⟩] := by
  induction xs with
  | nil => rfl
  | cons x xs ih =>
    rw [List.cons_append, List.cons_append, ← ih]
    cases xs <;> rfl

/-- A line feed more, after a text that ends in none. -/
theorem lf_more (hs : s ≠ []) (h : ¬[lf] <:+ s) : front (s ++ [lf]) = front s ∧
    ending (s ++ [lf]) = (ending s).sealed ([cr] <:+ s) := by
  obtain ⟨hbytes, hc⟩ := lines_spec s
  have hne : lines s ≠ [] := by
    intro hnil
    rw [hnil] at hbytes
    exact hs hbytes.symm
  obtain ⟨xs, l, hxs⟩ : ∃ xs l, lines s = xs ++ [l] := ⟨_, _, (List.dropLast_append_getLast hne).symm⟩
  rw [hxs] at hc hbytes
  have hb : l.Before [] := hc.right.2.1
  have hlast : s.getLast? = l.bytes.getLast? := by rw [← hbytes, hc.getLast?]
  rw [List.singleton_suffix_iff_getLast?_eq_some, hlast] at h
  have heol : l.eol = [] ∨ l.eol = [cr] := by
    rcases hb.ends with he | ⟨he, -⟩ | he | ⟨he, -⟩
    · exact absurd (by simp [Line.bytes, he]) h
    · exact .inr he
    · exact absurd (by simp [Line.bytes, he]) h
    · exact .inl he
  have hcr : [cr] <:+ s ↔ l.eol ++ [lf] = [cr, lf] := by
    rw [List.singleton_suffix_iff_getLast?_eq_some, hlast]
    rcases heol with he | he
    · have hno : l.text.getLast? ≠ some cr := fun hmem =>
        absurd (hb.text cr (List.mem_of_getLast? hmem)) (by decide)
      simp [Line.bytes, he, hno]
    · simp [Line.bytes, he]
  have hlines : lines (s ++ [lf]) = xs ++ [⟨l.text, l.eol ++ [lf]⟩] := by
    have := lines_sealed (r := []) hc (by simp) (by simpa using heol)
    rwa [hbytes, sealed_append, lines_nil, List.append_nil] at this
  obtain ⟨h₁, h₂⟩ := step_sealed (m := after .start xs) (l := l) ⟨l.text, l.eol ++ [lf]⟩ rfl
  simp only [front, ending, hlines, hxs, emits_append, after_append, hcr]
  constructor
  · simp only [emits, h₂]
  · exact h₁

/-! ## The blocks of a text -/

theorem blocks_ne_nil (ls taken : List Line) (h : taken = [] → m = .start) : ∀ b ∈ blocks m taken ls, b.1 ≠ [] := by
  induction ls generalizing m taken with
  | nil =>
    intro b hb
    simp only [blocks, List.mem_map, Option.mem_toList] at hb
    obtain ⟨found, hf, rfl⟩ := hb
    intro hnil
    rw [h hnil] at hf
    cases hf
  | cons l ls ih =>
    intro b hb
    have hstart {found} (hs : (step m l).2 = some found) : (step m l).1 = .start := step_start hs
    simp only [blocks] at hb
    generalize step m l = p at hb hstart
    obtain ⟨m', found⟩ := p
    cases found with
    | none => exact ih _ (by simp) b hb
    | some found =>
      rcases List.mem_cons.mp hb with rfl | hb
      · simp
      · exact ih _ (fun _ => hstart rfl) b hb

/-- Every block is closed, but for the last one. -/
def Sound : List (List Line × Option Bytes) → Prop
  | [] => True
  | [b] => bytes b.1 ≠ [] ∧ logicals (bytes b.1) = b.2.toList
  | b :: bs => Closed (bytes b.1) b.2.toList ∧ Sound bs

/-- **The blocks of a text** make it up. -/
theorem blocks_sound (s : Bytes) : bytes ((blocks .start [] (lines s)).flatMap (·.1)) = s ∧
    Sound (blocks .start [] (lines s)) := by
  obtain ⟨hbytes, hchain⟩ := lines_spec s
  obtain ⟨bs, last, h₁, h₂, h₃, h₄⟩ := blocks_spec (m := .start) (lines s) [] rfl rfl fun _ => rfl
  have hne := blocks_ne_nil (m := .start) (lines s) [] fun _ => rfl
  rw [List.nil_append] at h₄
  rw [h₁] at hne ⊢
  rw [← h₄] at hchain
  refine ⟨by rw [h₄, hbytes], ?_⟩
  clear h₁ h₄ hbytes
  have hlogicals {b : List Line × Option Bytes} (hc : Chain b.1) :
      logicals (bytes b.1) = emits .start b.1 ++ rest (after .start b.1) := by
    rw [logicals_eq, lines_of_chain hc]
  induction bs with
  | nil =>
    rcases h₃ with rfl | ⟨b, rfl, hopen, hemits⟩
    · trivial
    · have hc : Chain b.1 := by simpa using hchain
      refine ⟨hc.ne_nil (hne b (by simp)), ?_⟩
      rw [hlogicals hc, hemits, rest, hopen]
      rfl
  | cons b bs ih =>
    rw [List.cons_append, List.flatMap_cons] at hchain
    have hc := hchain.left
    obtain ⟨hafter, hemits⟩ := h₂ b List.mem_cons_self
    by_cases hlast : bs ++ last = []
    · rw [List.cons_append, hlast]
      refine ⟨hc.ne_nil (hne b (by simp)), ?_⟩
      rw [hlogicals hc, hemits, hafter]
      exact List.append_nil _
    · have ih := ih hchain.right (fun b' hb' => h₂ b' (List.mem_cons_of_mem b hb'))
        fun b' hb' => hne b' (List.mem_cons_of_mem (l := bs ++ last) b hb')
      have hrest : bytes ((bs ++ last).flatMap (·.1)) ≠ [] := by
        refine hchain.right.ne_nil ?_
        intro hnil
        obtain ⟨b', hb'⟩ := List.exists_mem_of_ne_nil _ hlast
        exact hne b' (List.mem_cons_of_mem b hb') (List.flatMap_eq_nil_iff.mp hnil b' hb')
      have hclosed : Closed (bytes b.1) b.2.toList := by
        intro r
        rw [← hemits]
        refine continues_append hc (fun l hl heol => ?_) hafter
        obtain ⟨ys, hys⟩ := List.getLast?_eq_some_iff.mp hl
        rw [hys, List.append_assoc] at hchain
        exact hrest (hchain.right.2.1.ends.nil heol)
      cases hbs : bs ++ last with
      | nil => exact absurd hbs hlast
      | cons b' bs' =>
        rw [List.cons_append, hbs]
        rw [hbs] at ih
        exact ⟨hclosed, ih⟩

/-! ## The key of a logical line -/

theorem splitKey_append : (splitKey s).1 ++ (splitKey s).2 = s := by
  fun_induction splitKey s <;> simp_all

/-- A byte of the key. -/
def isKey (b : UInt8) : Bool := !(b = backslash || isBlank b || isSep b)

theorem splitKey_key (h : isKey b = true) : splitKey (b :: s) = (b :: (splitKey s).1, (splitKey s).2) := by
  simp only [isKey, Bool.not_eq_true', Bool.or_eq_false_iff, decide_eq_false_iff_not] at h
  cases s <;> simp [splitKey, h]

theorem splitKey_escape : splitKey (backslash :: c :: s) = (backslash :: c :: (splitKey s).1, (splitKey s).2) := by
  simp [splitKey]

theorem splitKey_lone : splitKey [backslash] = ([backslash], []) := by decide

theorem splitKey_end (h : isBlank b || isSep b) : splitKey (b :: s) = ([], b :: s) := by
  have hb : b ≠ backslash := by
    rintro rfl
    cases h
  cases s <;> simp [splitKey, h, hb]

/-! ## The characters of a key or a value -/

variable {u v : ℕ} {r' : Bytes}

theorem hexDigit?_lt {n : ℕ} (h : hexDigit? b = some n) : n < 16 := by
  simp only [hexDigit?, UInt8.le_iff_toNat_le] at h
  have h57 : (57 : UInt8).toNat = 57 := rfl
  have h102 : (102 : UInt8).toNat = 102 := rfl
  have h70 : (70 : UInt8).toNat = 70 := rfl
  split_ifs at h <;> simp only [Option.some.injEq] at h <;> omega

theorem hexDigit?_wide (h : 128 ≤ b.toNat) : hexDigit? b = none := by
  simp only [hexDigit?, UInt8.le_iff_toNat_le]
  have h57 : (57 : UInt8).toNat = 57 := rfl
  have h102 : (102 : UInt8).toNat = 102 := rfl
  have h70 : (70 : UInt8).toNat = 70 := rfl
  split_ifs <;> first | omega | rfl

/-- One hex digit. -/
def readDigit? : Bytes → Option (ℕ × Bytes)
  | [] => none
  | b :: s => (hexDigit? b).map (·, s)

theorem hex4?_eq : hex4? s = (readDigit? s).bind fun a => (readDigit? a.2).bind fun b => (readDigit? b.2).bind fun c =>
    (readDigit? c.2).bind fun d => some (((a.1 * 16 + b.1) * 16 + c.1) * 16 + d.1, d.2) := by
  match s with
  | [] => rfl
  | [a] => cases ha : hexDigit? a <;> simp [hex4?, readDigit?, ha]
  | [a, b] => cases ha : hexDigit? a <;> cases hb : hexDigit? b <;> simp [hex4?, readDigit?, ha, hb]
  | [a, b, c] =>
    cases ha : hexDigit? a <;> cases hb : hexDigit? b <;> cases hc : hexDigit? c <;>
      simp [hex4?, readDigit?, ha, hb, hc]
  | a :: b :: c :: d :: s =>
    cases ha : hexDigit? a <;> cases hb : hexDigit? b <;> cases hc : hexDigit? c <;> cases hd : hexDigit? d <;>
      simp [hex4?, readDigit?, ha, hb, hc, hd]

theorem hex4?_some (h : hex4? s = some (u, r)) : u < 65536 ∧ ∃ x, s = x ++ r ∧ x.length = 4 := by
  match s with
  | [] | [_] | [_, _] | [_, _, _] => cases h
  | a :: b :: c :: d :: s =>
    simp only [hex4?, Option.bind_eq_bind, Option.bind_eq_some_iff, Option.some.injEq, Prod.mk.injEq] at h
    obtain ⟨w, hw, x, hx, y, hy, z, hz, rfl, rfl⟩ := h
    have := hexDigit?_lt hw
    have := hexDigit?_lt hx
    have := hexDigit?_lt hy
    have := hexDigit?_lt hz
    exact ⟨by omega, [a, b, c, d], rfl, rfl⟩

theorem unit?_some (h : unit? s = some (u, r)) :
    u < 65536 ∧ ∃ x, s = backslash :: 117 :: x ++ r ∧ hex4? (x ++ r) = some (u, r) ∧ x.length = 4 := by
  match s with
  | [] | [_] => cases h
  | b :: c :: s =>
    simp only [unit?] at h
    split_ifs at h with hbc
    obtain ⟨hu, x, rfl, hx⟩ := hex4?_some h
    exact ⟨hu, x, by rw [hbc.1, hbc.2]; rfl, h, hx⟩

theorem unit?_length (h : unit? s = some (u, r)) : r.length + 6 = s.length := by
  obtain ⟨-, x, rfl, -, hx⟩ := unit?_some h
  simp only [List.cons_append, List.length_cons, List.length_append]
  omega

theorem readItem_consumes : Consumes readItem := by
  intro s hs
  unfold readItem
  cases h : unit? s with
  | some p =>
    have := unit?_length h
    dsimp only
    cases h' : unit? p.2 with
    | some p' =>
      have := unit?_length h'
      dsimp only
      split_ifs <;> dsimp only <;> omega
    | none =>
      dsimp only
      omega
  | none =>
    match s with
    | [] => exact absurd rfl hs
    | [b] => simp
    | b :: c :: r =>
      dsimp only
      split_ifs <;> simp only [List.length_cons] <;> omega

theorem items_nil : items [] = [] := rfl

theorem items_of_read {x : Item} (hs : s ≠ []) (h : readItem s = (x, r)) : items s = x :: items r := by
  rw [items, readAll_eq readItem_consumes hs, h]
  rfl

theorem unit?_none (hb : b ≠ backslash) : unit? (b :: s) = none := by
  cases s <;> simp [unit?, hb]

theorem items_raw (hb : b ≠ backslash) : items (b :: s) = .raw b :: items s := by
  refine items_of_read (List.cons_ne_nil b s) ?_
  cases s <;> simp [readItem, unit?_none hb, hb]

theorem items_lone : items [backslash] = [.raw backslash] := items_of_read (List.cons_ne_nil _ _) rfl

theorem items_escaped (h : unit? (backslash :: c :: s) = none) :
    items (backslash :: c :: s) = .raw (escaped c) :: items s := by
  refine items_of_read (List.cons_ne_nil _ _) ?_
  simp [readItem, h]

theorem items_code (h : unit? s = some (u, r))
    (hr : ∀ v r', unit? r = some (v, r') → ¬(isHigh u = true ∧ isLow v = true)) :
    items s = .code (chr u) :: items r := by
  refine items_of_read (by rintro rfl; cases h) ?_
  unfold readItem
  rw [h]
  dsimp only
  cases h' : unit? r with
  | none => rfl
  | some p => exact if_neg (hr p.1 p.2 h')

theorem items_pair (h : unit? s = some (u, r)) (h' : unit? r = some (v, r')) (hu : isHigh u = true)
    (hv : isLow v = true) : items s = .code (pair u v) :: items r' := by
  refine items_of_read (by rintro rfl; cases h) ?_
  unfold readItem
  simp [h, h', hu, hv]

theorem items_append (h : backslash ∉ t) : items (t ++ s) = t.map .raw ++ items s := by
  induction t with
  | nil => rfl
  | cons b t ih =>
    rw [List.mem_cons, not_or] at h
    rw [List.cons_append, items_raw (Ne.symm h.1), ih h.2]
    rfl

theorem items_plain (h : backslash ∉ t) : items t = t.map .raw := by
  have := items_append (s := []) h
  rwa [List.append_nil, items_nil, List.append_nil] at this

/-- The ways a text starts. -/
theorem items_induction {P : Bytes → Prop} (nil : P []) (raw : ∀ b s, b ≠ backslash → P s → P (b :: s))
    (lone : P [backslash])
    (simple : ∀ c s, unit? (backslash :: c :: s) = none → P s → P (backslash :: c :: s))
    (code : ∀ s u r, unit? s = some (u, r) →
      (∀ v r', unit? r = some (v, r') → ¬(isHigh u = true ∧ isLow v = true)) → P r → P s)
    (pair : ∀ s u r v r', unit? s = some (u, r) → unit? r = some (v, r') → isHigh u = true → isLow v = true →
      P r' → P s) (s : Bytes) : P s := by
  induction hn : s.length using Nat.strong_induction_on generalizing s with
  | _ n ih =>
    subst hn
    match s with
    | [] => exact nil
    | b :: s =>
      by_cases hb : b = backslash
      · subst hb
        cases h : unit? (backslash :: s) with
        | none =>
          match s with
          | [] => exact lone
          | c :: s => exact simple c s h (ih _ (by simp only [List.length_cons]; omega) _ rfl)
        | some p =>
          have hlen := unit?_length h
          by_cases hp : ∃ v r', unit? p.2 = some (v, r') ∧ isHigh p.1 = true ∧ isLow v = true
          · obtain ⟨v, r', h', hu, hv⟩ := hp
            have hlen' := unit?_length h'
            exact pair _ p.1 p.2 v r' h h' hu hv (ih _ (by omega) _ rfl)
          · refine code _ p.1 p.2 h (fun v r' h' huv => hp ⟨v, r', h', huv⟩) (ih _ (by omega) _ rfl)
      · exact raw b s hb (ih _ (by simp) _ rfl)

end Lib.Properties
