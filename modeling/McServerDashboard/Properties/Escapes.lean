import McServerDashboard.Lib.Utf8
import McServerDashboard.Properties.Reader

/-!
# How the API spells a property

* `escapeKey`, `escapeValue`: a key and a value, escaped; `newLine`: the line that is written.
* `merged`: what is read back, a character for two units that make one.
* **`entry_newLine`, `closed_newLine`**: the line is one logical line whatever follows it, and reads back.
-/

namespace McServerDashboard.Properties

open Lib Lib.Properties

/-- The code points of a text. -/
def str (s : String) : Str := s.toList.map fun c => chr c.toNat

theorem str_injective : Function.Injective str := by
  intro s t h
  refine String.toList_injective (List.map_injective_iff.mpr (fun c d hcd => Char.toNat_inj.mp ?_) h)
  have hval : c.toNat % 1114112 = d.toNat % 1114112 := congrArg Fin.val hcd
  have hc : c.toNat < 0xD800 ∨ 0xDFFF < c.toNat ∧ c.toNat < 0x110000 := c.valid
  have hd : d.toNat < 0xD800 ∨ 0xDFFF < d.toNat ∧ d.toNat < 0x110000 := d.valid
  omega

theorem str_ne_nil {s : String} (h : s ≠ "") : str s ≠ [] := fun hnil =>
  h (String.toList_eq_nil_iff.mp (List.map_eq_nil_iff.mp hnil))

/-- `s.encode("latin-1")`, of text that latin-1 holds. -/
def encode (s : Str) : Bytes := s.map fun c => .ofNat c.val

/-- An upper-case hex digit. -/
def hexDigit (n : ℕ) : CodePoint := if n < 10 then chr (48 + n) else chr (55 + n)

/-- `\u` and the digits of a UTF-16 unit. -/
def unitEscape (u : ℕ) : Str :=
  [92, 117, hexDigit (u / 4096), hexDigit (u / 256 % 16), hexDigit (u / 16 % 16), hexDigit (u % 16)]

/-- `char.encode("utf-16-be", "surrogatepass")`, unit by unit. -/
def utf16 (c : CodePoint) : List ℕ :=
  if c.val < 0x10000 then [c.val] else [0xD800 + (c.val - 0x10000) / 0x400, 0xDC00 + (c.val - 0x10000) % 0x400]

/-- `_ESCAPES`. -/
def escapes (c : CodePoint) : Option Str :=
  if c.val = 92 then some [92, 92]
  else if c.val = 10 then some [92, 110]
  else if c.val = 13 then some [92, 114]
  else if c.val = 9 then some [92, 116]
  else if c.val = 12 then some [92, 102]
  else none

/-- `_SPECIALS`: `=`, `:`, `#`, `!` and a blank. -/
def isSpecial (c : CodePoint) : Bool := c.val = 61 || c.val = 58 || c.val = 35 || c.val = 33 || c.val = 32

/-- `_escape_char`. -/
def escapeChar (c : CodePoint) : Str :=
  match escapes c with
  | some spelling => spelling
  | none => if 0x20 ≤ c.val ∧ c.val ≤ 0x7E then [c] else (utf16 c).flatMap unitEscape

/-- A character of a key. -/
def escapeKeyChar (c : CodePoint) : Str := if isSpecial c then [92, c] else escapeChar c

/-- `_escape_key`. -/
def escapeKey (key : Str) : Str := key.flatMap escapeKeyChar

/-- `_escape_value`. -/
def escapeValue (value : Str) : Str :=
  let escaped := value.flatMap escapeChar
  if value.head?.any isSpecial then 92 :: escaped else escaped

/-- `f"{_escape_key(key)}={_escape_value(value)}".encode("latin-1")`. -/
def newLine (key value : Str) : Bytes := encode (escapeKey key ++ 61 :: escapeValue value)

/-- A lead surrogate and the trail surrogate after it read as the character that they make. -/
def merged : Str → Str
  | c :: d :: s => if isHigh c.val ∧ isLow d.val then pair c.val d.val :: merged s else c :: merged (d :: s)
  | s => s

variable {s t r : Bytes} {c d : CodePoint} {u : ℕ} {key value : Str}

theorem encode_append {s t : Str} : encode (s ++ t) = encode s ++ encode t := List.map_append

theorem encode_flatMap {f : CodePoint → Str} {s : Str} : encode (s.flatMap f) = s.flatMap fun c => encode (f c) :=
  List.map_flatMap

/-! ## Hex digits -/

/-- An upper-case hex digit, as a byte. -/
theorem hexDigit_byte : ∀ n, n < 16 → hexDigit? (.ofNat (hexDigit n).val) = some n := by decide

theorem hex4?_unitEscape (hu : u < 65536) : unit? (encode (unitEscape u) ++ s) = some (u, s) := by
  have h₁ := hexDigit_byte (u / 4096) (by omega)
  have h₂ := hexDigit_byte (u / 256 % 16) (by omega)
  have h₃ := hexDigit_byte (u / 16 % 16) (by omega)
  have h₄ := hexDigit_byte (u % 16) (by omega)
  have hval : ((u / 4096 * 16 + u / 256 % 16) * 16 + u / 16 % 16) * 16 + u % 16 = u := by omega
  have hlead : encode (unitEscape u) = backslash :: 117 :: encode (unitEscape u).tail.tail := rfl
  rw [hlead]
  simp only [List.cons_append, unit?, and_self, if_true]
  simp [unitEscape, encode, hex4?, h₁, h₂, h₃, h₄, hval]

theorem printable_hexDigit : ∀ n, n < 16 → 0x20 ≤ (hexDigit n).val ∧ (hexDigit n).val ≤ 0x7E := by decide

/-! ## Printable ASCII -/

/-- Printable ASCII. -/
def Printable (s : Str) : Prop := ∀ c ∈ s, 0x20 ≤ c.val ∧ c.val ≤ 0x7E

theorem Printable.append {s t : Str} (hs : Printable s) (ht : Printable t) : Printable (s ++ t) := by
  intro c hc
  rcases List.mem_append.mp hc with h | h
  · exact hs c h
  · exact ht c h

theorem Printable.flatMap {f : CodePoint → Str} {s : Str} (h : ∀ c, Printable (f c)) : Printable (s.flatMap f) := by
  intro c hc
  obtain ⟨d, -, hd⟩ := List.mem_flatMap.mp hc
  exact h d c hd

theorem printable_unitEscape (hu : u < 65536) : Printable (unitEscape u) := by
  intro c hc
  simp only [unitEscape, List.mem_cons, List.not_mem_nil, or_false] at hc
  rcases hc with rfl | rfl | rfl | rfl | rfl | rfl
  · decide
  · decide
  · exact printable_hexDigit _ (by omega)
  · exact printable_hexDigit _ (by omega)
  · exact printable_hexDigit _ (by omega)
  · exact printable_hexDigit _ (by omega)

theorem utf16_lt : ∀ u ∈ utf16 c, u < 65536 := by
  have := c.isLt
  unfold utf16
  split_ifs with h
  · simpa using h
  · intro u hu
    simp only [List.mem_cons, List.not_mem_nil, or_false] at hu
    omega

theorem escapes_some {t : Str} (h : escapes c = some t) : ∃ x, t = [92, x] ∧ (0x20 ≤ x.val ∧ x.val ≤ 0x7E) ∧
    x.val ≠ 117 ∧ char (.raw (escaped (.ofNat x.val))) = c := by
  unfold escapes at h
  split_ifs at h with hc hc hc hc hc
  iterate 5 exact ⟨_, (Option.some.inj h).symm, by decide, by decide, Fin.ext hc.symm⟩

theorem printable_escapeChar : Printable (escapeChar c) := by
  unfold escapeChar
  cases h : escapes c with
  | some t =>
    obtain ⟨x, rfl, hx, -⟩ := escapes_some h
    intro y hy
    simp only [List.mem_cons, List.not_mem_nil, or_false] at hy
    rcases hy with rfl | rfl
    · decide
    · exact hx
  | none =>
    dsimp only
    split_ifs with hc
    · intro x hx
      obtain rfl := List.mem_singleton.mp hx
      exact hc
    · intro x hx
      obtain ⟨u, hu, hx⟩ := List.mem_flatMap.mp hx
      exact printable_unitEscape (utf16_lt u hu) x hx

theorem printable_escapeKey : Printable (escapeKey key) := by
  refine .flatMap fun c x hx => ?_
  unfold escapeKeyChar at hx
  split_ifs at hx with hc
  · simp only [List.mem_cons, List.not_mem_nil, or_false] at hx
    rcases hx with rfl | rfl
    · decide
    · simp only [isSpecial, Bool.or_eq_true, decide_eq_true_eq] at hc
      omega
  · exact printable_escapeChar x hx

theorem printable_escapeValue : Printable (escapeValue value) := by
  have h : Printable (value.flatMap escapeChar) := .flatMap fun c => printable_escapeChar
  simp only [escapeValue]
  split_ifs
  · intro c hc
    rcases List.mem_cons.mp hc with rfl | hc
    · decide
    · exact h c hc
  · exact h

/-! ## What a spelling reads as -/

/-- The text spells the character, whatever follows it. -/
structure Spells (c : CodePoint) (t : Bytes) : Prop where
  odd : ∀ s, odd (t ++ s) = odd s
  /-- A surrogate is a unit, which may make a pair with the next one. -/
  unit : isHigh c.val = true ∨ isLow c.val = true → ∀ s, unit? (t ++ s) = some (c.val, s)
  char : isHigh c.val = false → isLow c.val = false → ∀ s, decode (t ++ s) = c :: decode s
  low : isLow c.val = false → ∀ s v r, unit? (t ++ s) = some (v, r) → isLow v = false

theorem char_escaped {b : UInt8} : isHigh (char (.raw b)).val = false ∧ isLow (char (.raw b)).val = false :=
  ⟨isHigh_byte, isLow_byte⟩

/-- A backslash, and a character that is no `u`. -/
theorem spells_simple {x : CodePoint} (hx : x.val ≤ 0x7E) (hu : x.val ≠ 117)
    (hc : char (.raw (escaped (.ofNat x.val))) = c) : Spells c (encode [92, x]) := by
  have hne : UInt8.ofNat x.val ≠ 117 := fun h => hu (by rw [← toNat_ofNat (by omega : x.val < 256), h]; rfl)
  have hunit (s : Bytes) : unit? (encode [92, x] ++ s) = none := if_neg fun h => hne h.2
  obtain ⟨hhigh, hlow⟩ := char_escaped (b := escaped (.ofNat x.val))
  rw [hc] at hhigh hlow
  refine ⟨fun s => odd_pair, ?_, fun _ _ s => ?_, ?_⟩
  · simp [hhigh, hlow]
  · have hitems : items (backslash :: .ofNat x.val :: s) = .raw (escaped (.ofNat x.val)) :: items s :=
      items_escaped (hunit s)
    show (items (backslash :: .ofNat x.val :: s)).map Properties.char = _
    rw [hitems, List.map_cons, hc]
    rfl
  · simp [hunit]

theorem spells_raw (hc : c.val ≤ 0x7E) (hb : c.val ≠ 92) : Spells c (encode [c]) := by
  have hne : UInt8.ofNat c.val ≠ backslash := fun h =>
    hb (by rw [← toNat_ofNat (by omega : c.val < 256), h]; rfl)
  have hchar : Properties.char (.raw (.ofNat c.val)) = c := by
    refine Fin.ext ?_
    rw [Properties.char, val_chr, toNat_ofNat (by omega)]
  obtain ⟨hhigh, hlow⟩ := char_escaped (b := .ofNat c.val)
  rw [hchar] at hhigh hlow
  have hunit (s : Bytes) : unit? (encode [c] ++ s) = none := unit?_none hne
  refine ⟨fun s => odd_cons hne, ?_, fun _ _ s => ?_, ?_⟩
  · simp [hhigh, hlow]
  · show (items (.ofNat c.val :: s)).map Properties.char = _
    rw [items_raw hne, List.map_cons, hchar]
    rfl
  · simp [hunit]

/-- The digits of a unit are no backslashes, and part of the key. -/
theorem unitEscape_tail (hu : u < 65536) : ∃ w, encode (unitEscape u) = backslash :: 117 :: w ∧
    ∀ b ∈ w, isKey b = true := by
  have hkey : ∀ n, n < 16 → isKey (.ofNat (hexDigit n).val) = true := by decide
  refine ⟨_, rfl, ?_⟩
  intro b hb
  simp only [List.map_cons, List.map_nil, List.mem_cons, List.not_mem_nil, or_false] at hb
  rcases hb with rfl | rfl | rfl | rfl
  · exact hkey _ (by omega)
  · exact hkey _ (by omega)
  · exact hkey _ (by omega)
  · exact hkey _ (by omega)

theorem odd_unitEscape (hu : u < 65536) : odd (encode (unitEscape u) ++ s) = odd s := by
  obtain ⟨w, hw, hkey⟩ := unitEscape_tail hu
  rw [hw]
  exact odd_pair.trans (odd_append fun h => absurd (hkey backslash h) (by decide))

theorem spells_unit (hc : c.val < 65536) : Spells c (encode (unitEscape c.val)) := by
  have hunit (s : Bytes) := hex4?_unitEscape (s := s) hc
  have hval : chr c.val = c := Fin.ext (Nat.mod_eq_of_lt c.isLt)
  refine ⟨fun s => odd_unitEscape hc, fun _ s => hunit s, fun hhigh _ s => ?_, fun hlow s v r h => ?_⟩
  · have hno (v : ℕ) (r' : Bytes) (_ : unit? s = some (v, r')) : ¬(isHigh c.val = true ∧ isLow v = true) := by
      simp [hhigh]
    rw [decode, items_code (hunit s) hno, List.map_cons, Properties.char, hval]
    rfl
  · rw [hunit, Option.some.injEq, Prod.mk.injEq] at h
    exact h.1 ▸ hlow

theorem spells_pair (hc : 65536 ≤ c.val) : Spells c (encode ((utf16 c).flatMap unitEscape)) := by
  have hlt := c.isLt
  set h := 0xD800 + (c.val - 0x10000) / 0x400 with hh
  set l := 0xDC00 + (c.val - 0x10000) % 0x400 with hl
  have htext : encode ((utf16 c).flatMap unitEscape) = encode (unitEscape h) ++ encode (unitEscape l) := by
    rw [utf16, if_neg (by omega), ← encode_append]
    simp [hh, hl]
  have hhigh : isHigh h = true := by
    simp only [isHigh, Bool.and_eq_true, decide_eq_true_eq]
    omega
  have hlow : isLow l = true := by
    simp only [isLow, Bool.and_eq_true, decide_eq_true_eq]
    omega
  have hpair : pair h l = c := by
    refine Fin.ext ?_
    rw [pair_val hhigh hlow]
    omega
  have hunit (s : Bytes) : unit? (encode (unitEscape h) ++ encode (unitEscape l) ++ s) =
      some (h, encode (unitEscape l) ++ s) := by
    rw [List.append_assoc]
    exact hex4?_unitEscape (by omega)
  have hunit' (s : Bytes) := hex4?_unitEscape (s := s) (by omega : l < 65536)
  have hnot : isHigh c.val = false ∧ isLow c.val = false := by
    rw [← hpair]
    exact ⟨isHigh_pair hhigh hlow, isLow_pair hhigh hlow⟩
  rw [htext]
  refine ⟨fun s => ?_, ?_, fun _ _ s => ?_, fun _ s v r hv => ?_⟩
  · rw [List.append_assoc, odd_unitEscape (by omega), odd_unitEscape (by omega)]
  · simp [hnot]
  · rw [decode, items_pair (hunit s) (hunit' s) hhigh hlow, List.map_cons, Properties.char, hpair]
    rfl
  · rw [hunit, Option.some.injEq, Prod.mk.injEq] at hv
    rw [← hv.1]
    by_contra hc
    rw [Bool.not_eq_false] at hc
    rw [isHigh_isLow hc] at hhigh
    cases hhigh

theorem spells_escapeChar : Spells c (encode (escapeChar c)) := by
  unfold escapeChar
  cases h : escapes c with
  | some t =>
    obtain ⟨x, rfl, hx, hu, hc⟩ := escapes_some h
    exact spells_simple hx.2 hu hc
  | none =>
    have hb : c.val ≠ 92 := by
      intro hc
      simp [escapes, hc] at h
    dsimp only
    split_ifs with hc
    · exact spells_raw hc.2 hb
    · by_cases hlt : c.val < 65536
      · rw [utf16, if_pos hlt, List.flatMap_singleton]
        exact spells_unit hlt
      · exact spells_pair (Nat.le_of_not_lt hlt)

theorem spells_escapeKeyChar : Spells c (encode (escapeKeyChar c)) := by
  unfold escapeKeyChar
  split_ifs with hc
  · simp only [isSpecial, Bool.or_eq_true, decide_eq_true_eq] at hc
    refine spells_simple (by omega) (by omega) (Fin.ext ?_)
    rcases hc with (((hc | hc) | hc) | hc) | hc <;> rw [hc] <;> rfl
  · exact spells_escapeChar

/-- A text that spells a string, character by character. -/
inductive Spelled : Str → Bytes → Prop
  | nil : Spelled [] []
  | cons {c : CodePoint} {s : Str} {t u : Bytes} (hc : Spells c t) (hs : Spelled s u) : Spelled (c :: s) (t ++ u)

theorem Spelled.flatMap {f : CodePoint → Bytes} (hf : ∀ c, Spells c (f c)) (s : Str) : Spelled s (s.flatMap f) := by
  induction s with
  | nil => exact .nil
  | cons c s ih => exact .cons (hf c) ih

theorem Spelled.odd {s : Str} (h : Spelled s t) : odd (t ++ r) = odd r := by
  induction h with
  | nil => rfl
  | cons hc _ ih => rw [List.append_assoc, hc.odd, ih]

/-- **Characters that are spelled** one by one are read back. -/
theorem Spelled.decode {s : Str} (h : Spelled s t) : decode t = merged s := by
  have hval (c : CodePoint) : chr c.val = c := Fin.ext (Nat.mod_eq_of_lt c.isLt)
  fun_induction merged s generalizing t with
  | case1 c d s h' ih =>
    obtain _ | ⟨hc, _ | ⟨hd, hs⟩⟩ := h
    rw [Properties.decode, items_pair (hc.unit (.inl h'.1) _) (hd.unit (.inr h'.2) _) h'.1 h'.2, List.map_cons,
      ← Properties.decode, ih hs]
    rfl
  | case2 c d s h' ih =>
    obtain _ | ⟨hc, hds⟩ := h
    by_cases hsur : isHigh c.val = true ∨ isLow c.val = true
    · rw [Properties.decode, items_code (hc.unit hsur _) fun v r hv hvc => ?_, List.map_cons, ← Properties.decode,
        ih hds, char, hval]
      obtain _ | ⟨hd, hs⟩ := hds
      have hdlow : isLow d.val = false := by simpa [hvc.1] using h'
      rw [hd.low hdlow _ _ _ hv] at hvc
      cases hvc.2
    · rw [not_or, Bool.not_eq_true, Bool.not_eq_true] at hsur
      rw [hc.char hsur.1 hsur.2, ih hds]
  | case3 s h' =>
    cases h with
    | nil => rfl
    | @cons c s t u hc hs =>
      cases hs with
      | nil =>
        by_cases hsur : isHigh c.val = true ∨ isLow c.val = true
        · rw [Properties.decode, items_code (hc.unit hsur _) (by simp [unit?]), List.map_cons, ← Properties.decode,
            char, hval]
          rfl
        · rw [not_or, Bool.not_eq_true, Bool.not_eq_true] at hsur
          rw [hc.char hsur.1 hsur.2]
          rfl
      | @cons d s t u hd hs => exact absurd rfl (h' c d s)

theorem merged_unpaired {s : Str} (h : Unpaired s) : merged s = s := by
  fun_induction merged s with
  | case1 c d s hcd ih => exact absurd hcd (List.isChain_cons_cons.mp h).1
  | case2 c d s hcd ih => rw [ih (List.isChain_cons_cons.mp h).2]
  | case3 s _ => rfl

theorem spelled_escapeKey : Spelled key (encode (escapeKey key)) := by
  rw [escapeKey, encode_flatMap]
  exact .flatMap (fun c => spells_escapeKeyChar) key

theorem escapeValue_cons {v : Str} : escapeValue (c :: v) = escapeKeyChar c ++ v.flatMap escapeChar := by
  simp only [escapeValue, List.head?_cons, Option.any_some, escapeKeyChar, List.flatMap_cons]
  split_ifs with hc
  · have hesc : escapeChar c = [c] := by
      simp only [isSpecial, Bool.or_eq_true, decide_eq_true_eq] at hc
      rcases hc with (((hc | hc) | hc) | hc) | hc <;> simp [escapeChar, escapes, hc]
    rw [hesc]
    rfl
  · rfl

theorem spelled_escapeValue : Spelled value (encode (escapeValue value)) := by
  cases value with
  | nil => exact .nil
  | cons c v =>
    rw [escapeValue_cons, encode_append, encode_flatMap]
    exact .cons spells_escapeKeyChar (.flatMap (fun c => spells_escapeChar) v)

/-! ## The line that is written -/

theorem plain_byte : ∀ n, n < 127 → 32 ≤ n ∧ n ≠ 92 ∧ ¬(n = 61 ∨ n = 58 ∨ n = 35 ∨ n = 33 ∨ n = 32) →
    isBlank (.ofNat n) = false ∧ isMark (.ofNat n) = false ∧ isKey (.ofNat n) = true := by decide

/-- The three ways to spell a character of a key. -/
theorem escapeKeyChar_cases (c : CodePoint) : (∃ x, encode (escapeKeyChar c) = [backslash, x]) ∨
    (∃ b, encode (escapeKeyChar c) = [b] ∧ isBlank b = false ∧ isMark b = false ∧ isKey b = true) ∨
      encode (escapeKeyChar c) = (utf16 c).flatMap fun u => encode (unitEscape u) := by
  unfold escapeKeyChar
  split_ifs with hs
  · exact .inl ⟨_, rfl⟩
  · unfold escapeChar
    cases h : escapes c with
    | some t =>
      obtain ⟨x, rfl, -⟩ := escapes_some h
      exact .inl ⟨_, rfl⟩
    | none =>
      have hb : c.val ≠ 92 := by
        intro hc
        simp [escapes, hc] at h
      dsimp only
      split_ifs with hc
      · have hplain : ¬(c.val = 61 ∨ c.val = 58 ∨ c.val = 35 ∨ c.val = 33 ∨ c.val = 32) := by
          simpa [isSpecial, or_assoc] using hs
        exact .inr (.inl ⟨_, rfl, plain_byte c.val (by omega) ⟨hc.1, hb, hplain⟩⟩)
      · exact .inr (.inr List.map_flatMap)

/-- What starts the text of a character is no blank and no comment mark. -/
theorem escapeKeyChar_head : ∃ b w, encode (escapeKeyChar c) = b :: w ∧ isBlank b = false ∧ isMark b = false := by
  rcases escapeKeyChar_cases c with ⟨x, h⟩ | ⟨b, h, hblank, hmark, -⟩ | h
  · exact ⟨_, _, h, rfl, rfl⟩
  · exact ⟨_, _, h, hblank, hmark⟩
  · rw [h, utf16]
    split_ifs <;> exact ⟨backslash, _, rfl, rfl, rfl⟩

theorem splitKey_keys {w : Bytes} (h : ∀ b ∈ w, isKey b = true) :
    splitKey (w ++ s) = (w ++ (splitKey s).1, (splitKey s).2) := by
  induction w with
  | nil => rfl
  | cons b w ih =>
    rw [List.cons_append, splitKey_key (h b List.mem_cons_self), ih fun c hc => h c (List.mem_cons_of_mem b hc)]
    rfl

theorem splitKey_unitEscape (hu : u < 65536) : splitKey (encode (unitEscape u) ++ s) =
    (encode (unitEscape u) ++ (splitKey s).1, (splitKey s).2) := by
  obtain ⟨w, hw, hkey⟩ := unitEscape_tail hu
  rw [hw]
  show splitKey (backslash :: 117 :: (w ++ s)) = _
  rw [splitKey_escape, splitKey_keys hkey]
  rfl

/-- The characters of a key do not end it. -/
theorem splitKey_escapeKey : splitKey (encode (escapeKey key) ++ s) =
    (encode (escapeKey key) ++ (splitKey s).1, (splitKey s).2) := by
  have hunits (us : List ℕ) (h : ∀ u ∈ us, u < 65536) (s : Bytes) :
      splitKey ((us.flatMap fun u => encode (unitEscape u)) ++ s) =
        ((us.flatMap fun u => encode (unitEscape u)) ++ (splitKey s).1, (splitKey s).2) := by
    induction us with
    | nil => rfl
    | cons u us ih =>
      rw [List.flatMap_cons, List.append_assoc, splitKey_unitEscape (h u List.mem_cons_self),
        ih fun v hv => h v (List.mem_cons_of_mem u hv), List.append_assoc]
  rw [escapeKey, encode_flatMap]
  induction key with
  | nil => rfl
  | cons c key ih =>
    rw [List.flatMap_cons, List.append_assoc, List.append_assoc]
    rcases escapeKeyChar_cases c with ⟨x, h⟩ | ⟨b, h, -, -, hkey⟩ | h
    · rw [h, List.cons_append, List.cons_append, List.nil_append, splitKey_escape, ih]
      rfl
    · rw [h, List.cons_append, List.nil_append, splitKey_key hkey, ih]
      rfl
    · rw [h, hunits _ utf16_lt, ih]

/-- A new line starts with no blank and no comment mark. -/
theorem newLine_head (key value : Str) : ∃ b w, newLine key value = b :: w ∧ isBlank b = false ∧ isMark b = false := by
  cases key with
  | nil => exact ⟨61, _, rfl, rfl, rfl⟩
  | cons c key =>
    obtain ⟨b, w, h, hblank, hmark⟩ := escapeKeyChar_head (c := c)
    refine ⟨b, w ++ encode (escapeKey key ++ 61 :: escapeValue value), ?_, hblank, hmark⟩
    rw [newLine, escapeKey, List.flatMap_cons, List.append_assoc, encode_append, h]
    rfl

theorem newLine_eq : newLine key value = encode (escapeKey key) ++ 61 :: encode (escapeValue value) := by
  rw [newLine, encode_append]
  rfl

theorem split_newLine : split (newLine key value) = (encode (escapeKey key), encode (escapeValue value)) := by
  have hsep : splitKey (61 :: encode (escapeValue value)) = ([], 61 :: encode (escapeValue value)) :=
    splitKey_end (by decide)
  have htrim : trim (encode (escapeValue value)) = encode (escapeValue value) := by
    cases value with
    | nil => rfl
    | cons c v =>
      obtain ⟨b, w, h, hblank, -⟩ := escapeKeyChar_head (c := c)
      rw [escapeValue_cons, encode_append, h]
      exact List.dropWhile_cons_of_neg (by simp [hblank])
  rw [split, newLine_eq, splitKey_escapeKey, hsep, List.append_nil]
  show (_, trim _) = _
  rw [htrim]

/-- **A new line reads back.** -/
theorem entry_newLine : entry (newLine key value) = (merged key, merged value) := by
  rw [entry, split_newLine, spelled_escapeKey.decode, spelled_escapeValue.decode]

theorem odd_newLine (key value : Str) : odd (newLine key value) = false := by
  rw [newLine_eq, spelled_escapeKey.odd, odd_cons (by decide)]
  have h : odd (encode (escapeValue value) ++ []) = odd [] := spelled_escapeValue.odd
  rwa [List.append_nil] at h

theorem printable_newLine : ∀ b ∈ newLine key value, 0x20 ≤ b.toNat ∧ b.toNat ≤ 0x7E := by
  have h : Printable (escapeKey key ++ 61 :: escapeValue value) := by
    refine printable_escapeKey.append fun c hc => ?_
    rcases List.mem_cons.mp hc with rfl | hc
    · decide
    · exact printable_escapeValue c hc
  intro b hb
  obtain ⟨c, hc, rfl⟩ := List.mem_map.mp hb
  have := h c hc
  rwa [toNat_ofNat (by omega)]

theorem newLine_before : (⟨newLine key value, [lf]⟩ : Line).Before r := by
  refine ⟨fun b hb => ?_, .inl rfl⟩
  have := printable_newLine b hb
  have hcode : isEol b = false := by
    simp only [isEol, Bool.or_eq_false_iff, decide_eq_false_iff_not]
    exact ⟨by rintro rfl; exact absurd this.1 (by decide), by rintro rfl; exact absurd this.1 (by decide)⟩
  exact hcode

theorem step_newLine : step .start ⟨newLine key value, [lf]⟩ = (.start, some (some (newLine key value))) := by
  obtain ⟨b, w, h, hblank, hmark⟩ := newLine_head key value
  have htrim : trim (newLine key value) = newLine key value := by
    rw [h]
    exact List.dropWhile_cons_of_neg (by simp [hblank])
  have hlone : newLine key value ≠ [backslash] := by
    intro hl
    have := odd_newLine key value
    rw [hl] at this
    cases this
  have hskip : ¬(newLine key value = [] ∨ (newLine key value).head?.any isMark = true) := by
    simp [h, hmark]
  rw [step, htrim, first, if_neg hlone, if_neg hskip, if_neg (by simp [odd_newLine])]

/-- **A new line is one logical line**, whatever follows it. -/
theorem closed_newLine : Closed (newLine key value ++ [lf]) [newLine key value] := by
  intro r
  have hlines : lines (newLine key value ++ [lf] ++ r) = [⟨newLine key value, [lf]⟩] ++ lines r :=
    lines_cons (by simp [Line.bytes]) newLine_before
  have h := continues_of_lines hlines (by simp [after, step_newLine])
  simpa [emits, step_newLine] using h

/-- **An escaped pair reads back**, and is spelled in printable ASCII. -/
theorem parse_newLine (hkey : Unpaired key) (hvalue : Unpaired value) :
    parse (newLine key value ++ [lf]) = [⟨key, value, 0, (newLine key value ++ [lf]).length⟩] ∧
      Printable (escapeKey key) ∧ Printable (escapeValue value) := by
  refine ⟨?_, printable_escapeKey, printable_escapeValue⟩
  have hlines : lines (newLine key value ++ [lf]) = [⟨newLine key value, [lf]⟩] := by
    have := lines_cons (l := ⟨newLine key value, [lf]⟩) (r := []) (by simp [Line.bytes]) newLine_before
    rwa [List.append_nil] at this
  rw [parse_eq, hlines]
  simp [blocks, step_newLine, finish, located, entry_newLine, merged_unpaired hkey, merged_unpaired hvalue,
    Properties.bytes, Line.bytes]

/-- A key with a separator and a blank, and a value with a line end and a lone surrogate before an emoji. -/
theorem parse_newLine_surrogate : Unpaired (str "a= b") ∧ Unpaired (0xD83D :: str "\n😀") ∧
    (parse (newLine (str "a= b") (0xD83D :: str "\n😀") ++ [lf])).map (fun p => (p.key, p.value)) =
      [(str "a= b", 0xD83D :: str "\n😀")] := by
  have hkey : Unpaired (str "a= b") := by decide
  have hvalue : Unpaired (0xD83D :: str "\n😀") := by decide
  refine ⟨hkey, hvalue, ?_⟩
  rw [(parse_newLine hkey hvalue).1]
  rfl

end McServerDashboard.Properties
