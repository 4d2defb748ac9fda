import McServerDashboard.Lib.Properties

/-!
# `.properties` files in another encoding

An encoding that leaves ASCII alone, and spells every other byte with bytes that are not ASCII, leaves the
grammar alone.

* `Transcodes`, `transcode`: such an encoding, of a text.
* **`Transcodes.logicals`, `Transcodes.split`, `Transcodes.items`**: the logical lines, the keys and the values, and
  their characters.
-/

namespace Lib.Properties

open Lib.Pattern

/-- ASCII stays, and nothing else becomes ASCII. -/
structure Transcodes (enc : UInt8 → Bytes) : Prop where
  ascii : ∀ b, b.toNat < 128 → enc b = [b]
  wide : ∀ b, 128 ≤ b.toNat → enc b ≠ [] ∧ ∀ c ∈ enc b, 128 ≤ c.toNat

def transcode (enc : UInt8 → Bytes) (s : Bytes) : Bytes := s.flatMap enc

/-- The class takes every byte that is not ASCII, or none. -/
def Uniform (p : UInt8 → Bool) (v : Bool) : Prop := ∀ b : UInt8, 128 ≤ b.toNat → p b = v

theorem Uniform.not {p : UInt8 → Bool} {v : Bool} (h : Uniform p v) : Uniform (fun b => !p b) (!v) :=
  fun b hb => congrArg _ (h b hb)

theorem uniform_eq {c : UInt8} (hc : c.toNat < 128) : Uniform (· = c) false := by
  intro b hb
  have : b ≠ c := by
    rintro rfl
    omega
  simp [this]

theorem uniform_isEol : Uniform isEol false := fun b hb => by
  simp only [isEol, uniform_eq (c := lf) (by decide) b hb, uniform_eq (c := cr) (by decide) b hb, Bool.or_self]

theorem uniform_isBlank : Uniform isBlank false := fun b hb => by
  simp only [isBlank, uniform_eq (c := 32) (by decide) b hb, uniform_eq (c := 9) (by decide) b hb,
    uniform_eq (c := 12) (by decide) b hb, Bool.or_self]

theorem uniform_isSep : Uniform isSep false := fun b hb => by
  simp only [isSep, uniform_eq (c := 61) (by decide) b hb, uniform_eq (c := 58) (by decide) b hb, Bool.or_self]

theorem uniform_isMark : Uniform isMark false := fun b hb => by
  simp only [isMark, uniform_eq (c := 35) (by decide) b hb, uniform_eq (c := 33) (by decide) b hb, Bool.or_self]

variable {enc : UInt8 → Bytes} {s t r : Bytes} {b : UInt8} {m : Mode} {l : Line} {ls : List Line}

theorem transcode_append : transcode enc (s ++ t) = transcode enc s ++ transcode enc t := List.flatMap_append

theorem transcode_cons : transcode enc (b :: s) = enc b ++ transcode enc s := List.flatMap_cons

def Line.transcode (enc : UInt8 → Bytes) (l : Line) : Line := ⟨Properties.transcode enc l.text, l.eol⟩

def Mode.transcode (enc : UInt8 → Bytes) : Mode → Mode
  | .cont acc => .cont (Properties.transcode enc acc)
  | m => m

namespace Transcodes

variable (he : Transcodes enc)
include he

theorem cons_ascii (hb : b.toNat < 128) : transcode enc (b :: s) = b :: transcode enc s := by
  rw [transcode_cons, he.ascii b hb]
  rfl

/-- The bytes that spell a byte that is not ASCII. -/
theorem cons_wide (hb : 128 ≤ b.toNat) : ∃ c cs, enc b = c :: cs ∧ ∀ x ∈ c :: cs, 128 ≤ x.toNat := by
  obtain ⟨hne, hwide⟩ := he.wide b hb
  obtain ⟨c, cs, hc⟩ := List.exists_cons_of_ne_nil hne
  exact ⟨c, cs, hc, hc ▸ hwide⟩

theorem all_eq {p : UInt8 → Bool} {v : Bool} (hp : Uniform p v) (x : UInt8) (hx : x ∈ enc b) : p x = p b := by
  by_cases hb : b.toNat < 128
  · rw [he.ascii b hb, List.mem_singleton] at hx
    rw [hx]
  · have hb := Nat.le_of_not_lt hb
    rw [hp b hb, hp x ((he.wide b hb).2 x hx)]

theorem ne_nil : enc b ≠ [] := by
  by_cases hb : b.toNat < 128
  · simp [he.ascii b hb]
  · exact (he.wide b (Nat.le_of_not_lt hb)).1

/-- Past its first byte, what spells a byte is not ASCII. -/
theorem uncons (b : UInt8) : ∃ c cs, enc b = c :: cs ∧ ∀ x ∈ cs, 128 ≤ x.toNat := by
  by_cases hb : b.toNat < 128
  · exact ⟨b, [], he.ascii b hb, nofun⟩
  · obtain ⟨c, cs, hc, hwide⟩ := he.cons_wide (Nat.le_of_not_lt hb)
    exact ⟨c, cs, hc, fun x hx => hwide x (List.mem_cons_of_mem c hx)⟩

theorem nil_iff : transcode enc s = [] ↔ s = [] := by
  cases s with
  | nil => simp [transcode]
  | cons b s => simp [transcode_cons, he.ne_nil]

theorem dropWhile {p : UInt8 → Bool} {v : Bool} (hp : Uniform p v) :
    (transcode enc s).dropWhile p = transcode enc (s.dropWhile p) := by
  induction s with
  | nil => rfl
  | cons b s ih =>
    rw [transcode_cons]
    by_cases hb : p b = true
    · rw [List.dropWhile_append_of_pos fun x hx => (he.all_eq hp x hx).trans hb, ih, List.dropWhile_cons_of_pos hb]
    · obtain ⟨c, cs, hc⟩ := List.exists_cons_of_ne_nil (he.ne_nil (b := b))
      have hcb : ¬p c = true := by rwa [he.all_eq hp c (hc ▸ List.mem_cons_self)]
      rw [List.dropWhile_cons_of_neg hb, transcode_cons, hc, List.cons_append, List.dropWhile_cons_of_neg hcb]

theorem takeWhile {p : UInt8 → Bool} {v : Bool} (hp : Uniform p v) :
    (transcode enc s).takeWhile p = transcode enc (s.takeWhile p) := by
  have h : transcode enc (s.takeWhile p) ++ transcode enc (s.dropWhile p) =
      (transcode enc s).takeWhile p ++ (transcode enc s).dropWhile p := by
    rw [← transcode_append, List.takeWhile_append_dropWhile, List.takeWhile_append_dropWhile]
  rw [he.dropWhile hp] at h
  exact (List.append_cancel_right h).symm

/-- What starts the encoded text starts the text, if it is ASCII. -/
theorem eq_cons (hb : b.toNat < 128) (h : transcode enc s = b :: r) : ∃ s', s = b :: s' ∧ r = transcode enc s' := by
  cases s with
  | nil => cases h
  | cons x s =>
    by_cases hx : x.toNat < 128
    · rw [he.cons_ascii hx, List.cons.injEq] at h
      exact ⟨s, by rw [h.1], h.2.symm⟩
    · obtain ⟨c, cs, hc, hwide⟩ := he.cons_wide (Nat.le_of_not_lt hx)
      rw [transcode_cons, hc, List.cons_append, List.cons.injEq] at h
      have := hwide c List.mem_cons_self
      rw [h.1] at this
      omega

theorem head?_any {p : UInt8 → Bool} {v : Bool} (hp : Uniform p v) : (transcode enc s).head?.any p = s.head?.any p := by
  cases s with
  | nil => rfl
  | cons b s =>
    obtain ⟨c, cs, hc⟩ := List.exists_cons_of_ne_nil (he.ne_nil (b := b))
    rw [transcode_cons, hc]
    exact he.all_eq hp c (hc ▸ List.mem_cons_self)

theorem backslash_not_mem (hb : b ≠ backslash) : backslash ∉ enc b := by
  intro hmem
  have := he.all_eq (uniform_eq (c := backslash) (by decide)) backslash hmem
  simp [hb] at this

/-! ## Lines -/

theorem readLine : readLine (transcode enc s) =
    (⟨transcode enc (readLine s).1.text, (readLine s).1.eol⟩, transcode enc (readLine s).2) := by
  have heol : Uniform (fun b => !isEol b) true := uniform_isEol.not
  have hb (b : UInt8) (r : Bytes) (h : s.dropWhile (!isEol ·) = b :: r) : b.toNat < 128 := by
    have hb := List.head?_dropWhile_not (!isEol ·) s
    rw [h] at hb
    rcases isEol_cases (b := b) (by simpa using hb) with rfl | rfl <;> decide
  simp only [Properties.readLine, he.dropWhile heol, he.takeWhile heol]
  cases h : s.dropWhile (!isEol ·) with
  | nil => rfl
  | cons b r =>
    rw [he.cons_ascii (hb b r h)]
    have hlf : (transcode enc r).head? = some lf ↔ r.head? = some lf := by
      have hany (o : Option UInt8) : o = some lf ↔ o.any (· = lf) = true := by cases o <;> simp
      rw [hany, hany, he.head?_any (uniform_eq (by decide))]
    simp only [hlf]
    split_ifs with hcr
    · cases r with
      | nil => cases hcr.2
      | cons x r =>
        obtain rfl : x = lf := by simpa using hcr.2
        rw [he.cons_ascii (by decide)]
        rfl
    · rfl

theorem lines : lines (transcode enc s) = (lines s).map (·.transcode enc) := by
  induction s using read_induction readLine_consumes with
  | hnil => rfl
  | hread s hs ih =>
    rw [Properties.lines, readAll_eq readLine_consumes (mt he.nil_iff.mp hs), he.readLine]
    conv_rhs => rw [Properties.lines, readAll_eq readLine_consumes hs]
    exact congrArg _ ih

theorem odd : odd (transcode enc s) = odd s := by
  have hwide (b : UInt8) (hb : b ≠ backslash) (t : Bytes) : Properties.odd (enc b ++ t) = Properties.odd t :=
    odd_append (he.backslash_not_mem hb)
  induction hn : s.length using Nat.strong_induction_on generalizing s with
  | _ n ih =>
    match s with
    | [] => rfl
    | b :: s =>
      by_cases hb : b = backslash
      · subst hb
        rw [he.cons_ascii (by decide)]
        match s with
        | [] => rfl
        | c :: s =>
          obtain ⟨x, xs, hx, hwide⟩ := he.uncons c
          have htail : backslash ∉ xs := fun h => absurd (hwide backslash h) (by decide)
          rw [transcode_cons, hx, List.cons_append, odd_pair, odd_pair, odd_append htail]
          exact ih _ (by simp only [← hn, List.length_cons]; omega) rfl
      · rw [transcode_cons, hwide b hb, odd_cons hb]
        exact ih _ (by simp [← hn]) rfl

theorem trim : trim (transcode enc s) = transcode enc (trim s) := he.dropWhile uniform_isBlank

theorem dropLast (h : Properties.odd s = true) : (transcode enc s).dropLast = transcode enc s.dropLast := by
  have hs := odd_eq_append h
  conv_lhs => rw [hs, transcode_append, he.cons_ascii (by decide)]
  exact List.dropLast_concat

theorem lone_iff : transcode enc s = [backslash] ↔ s = [backslash] := by
  constructor
  · intro h
    obtain ⟨s', rfl, hs'⟩ := he.eq_cons (by decide) h
    rw [he.nil_iff.mp hs'.symm]
  · rintro rfl
    exact he.cons_ascii (by decide)

/-! ## Logical lines -/

theorem first : first (l.transcode enc) (transcode enc t) =
    ((first l t).1.transcode enc, (first l t).2.map (·.map (transcode enc))) := by
  have hmark := he.head?_any (s := t) uniform_isMark
  simp only [Properties.first, he.lone_iff, he.nil_iff, hmark, he.odd]
  split_ifs with _ _ hodd
  · rfl
  · rfl
  · rw [he.dropLast hodd]
    rfl
  · rfl

theorem step : step (m.transcode enc) (l.transcode enc) =
    ((step m l).1.transcode enc, (step m l).2.map (·.map (transcode enc))) := by
  cases m with
  | cont acc =>
    simp only [Mode.transcode, Properties.step, Line.transcode, he.trim, he.odd]
    split_ifs with hodd
    · rw [he.dropLast hodd, ← transcode_append]
      rfl
    · rw [← transcode_append]
      rfl
  | _ =>
    simp only [Mode.transcode, Properties.step]
    exact (congrArg (Properties.first _) he.trim).trans he.first

theorem blocks (m : Mode) (taken : List Line) : blocks (m.transcode enc) (taken.map (·.transcode enc)) (ls.map (·.transcode enc)) =
    (blocks m taken ls).map fun b => (b.1.map (·.transcode enc), b.2.map (transcode enc)) := by
  induction ls generalizing m taken with
  | nil =>
    cases m with
    | lone crlf => cases crlf <;> rfl
    | _ => rfl
  | cons l ls ih =>
    simp only [List.map_cons, Properties.blocks, he.step]
    cases h : Properties.step m l with
    | mk m' found =>
      cases found with
      | none => simpa using ih m' (taken ++ [l])
      | some found => simpa using ih m' []

/-- **The logical lines** of the encoded text. -/
theorem logicals : logicals (transcode enc s) = (logicals s).map (transcode enc) := by
  simp only [Properties.logicals, he.lines]
  refine (congrArg (List.filterMap (·.2)) (he.blocks .start [])).trans ?_
  rw [List.filterMap_map, List.map_filterMap]
  rfl

/-! ## Keys and values -/

omit he in
theorem splitKey_append (h : ∀ b ∈ t, isKey b = true) :
    splitKey (t ++ s) = (t ++ (splitKey s).1, (splitKey s).2) := by
  induction t with
  | nil => rfl
  | cons b t ih =>
    rw [List.cons_append, splitKey_key (h b List.mem_cons_self), ih fun c hc => h c (List.mem_cons_of_mem b hc)]
    rfl

theorem splitKey : splitKey (transcode enc s) = (transcode enc (splitKey s).1, transcode enc (splitKey s).2) := by
  have hkey : Uniform isKey true := fun b hb => by
    simp [isKey, uniform_eq (c := backslash) (by decide) b hb, uniform_isBlank b hb, uniform_isSep b hb]
  induction hn : s.length using Nat.strong_induction_on generalizing s with
  | _ n ih =>
    cases s with
    | nil => rfl
    | cons b s =>
      by_cases hb : isKey b = true
      · rw [splitKey_key hb, transcode_cons, splitKey_append fun x hx => (he.all_eq hkey x hx).trans hb,
          ih _ (by simp [← hn]) rfl, transcode_cons]
      · have hascii : b.toNat < 128 := by
          by_contra h
          exact hb (hkey b (Nat.le_of_not_lt h))
        rw [he.cons_ascii hascii]
        by_cases hbs : b = backslash
        · subst hbs
          cases s with
          | nil =>
            rw [splitKey_lone, he.cons_ascii hascii]
            exact splitKey_lone
          | cons c s =>
            obtain ⟨x, xs, hx, hwide⟩ := he.uncons c
            have hrest := ih s.length (by simp only [← hn, List.length_cons]; omega) (s := s) rfl
            rw [transcode_cons, hx, List.cons_append, splitKey_escape, splitKey_escape,
              splitKey_append fun y hy => hkey y (hwide y hy), hrest, he.cons_ascii hascii, transcode_cons, hx]
            rfl
        · have hend : (isBlank b || isSep b) = true := by
            by_contra h
            exact hb (by simpa [isKey, hbs] using h)
          rw [splitKey_end hend, splitKey_end hend, he.cons_ascii hascii]
          rfl

theorem skipSep : skipSep (transcode enc s) = transcode enc (skipSep s) := by
  simp only [Properties.skipSep, he.trim]
  cases h : Properties.trim s with
  | nil => rfl
  | cons b r =>
    by_cases hb : b.toNat < 128
    · rw [he.cons_ascii hb]
      by_cases hs : isSep b = true
      · simp only [hs, if_true]
        exact he.trim
      · simp [hs, he.cons_ascii hb]
    · obtain ⟨c, cs, hc, hwide⟩ := he.cons_wide (Nat.le_of_not_lt hb)
      rw [transcode_cons, hc]
      simp [uniform_isSep b (Nat.le_of_not_lt hb), uniform_isSep c (hwide c List.mem_cons_self), transcode_cons, hc]

/-- **The key and the value** of an encoded line. -/
theorem split : split (transcode enc t) = (transcode enc (split t).1, transcode enc (split t).2) := by
  simp only [Properties.split, he.splitKey, he.skipSep]

/-! ## Characters -/

theorem digit : readDigit? (transcode enc s) = (readDigit? s).map fun p => (p.1, transcode enc p.2) := by
  cases s with
  | nil => rfl
  | cons b s =>
    by_cases hb : b.toNat < 128
    · rw [he.cons_ascii hb]
      cases h : hexDigit? b <;> simp [readDigit?, h]
    · obtain ⟨c, cs, hc, hwide⟩ := he.cons_wide (Nat.le_of_not_lt hb)
      rw [transcode_cons, hc]
      simp [readDigit?, hexDigit?_wide (Nat.le_of_not_lt hb), hexDigit?_wide (hwide c List.mem_cons_self)]

theorem hex4 : hex4? (transcode enc s) = (hex4? s).map fun p => (p.1, transcode enc p.2) := by
  simp only [hex4?_eq, he.digit, Option.bind_map, Option.map_bind, Function.comp_def, Option.map_some]

theorem unit : unit? (transcode enc s) = (unit? s).map fun p => (p.1, transcode enc p.2) := by
  match s with
  | [] => rfl
  | b :: s =>
    by_cases hb : b = backslash
    · subst hb
      rw [he.cons_ascii (by decide)]
      match s with
      | [] => rfl
      | c :: s =>
        by_cases hc : c = 117
        · subst hc
          rw [he.cons_ascii (by decide)]
          exact he.hex4
        · obtain ⟨x, xs, hx, -⟩ := he.uncons c
          have hx117 : x ≠ 117 := by
            have := he.all_eq (uniform_eq (c := 117) (by decide)) x (hx ▸ List.mem_cons_self)
            simpa [hc] using this
          rw [transcode_cons, hx]
          simp [unit?, hc, hx117]
    · obtain ⟨x, xs, hx, -⟩ := he.uncons b
      have hxb : x ≠ backslash := by
        rintro rfl
        exact he.backslash_not_mem hb (hx ▸ List.mem_cons_self)
      rw [transcode_cons, hx, unit?_none hb]
      exact unit?_none hxb

end Transcodes

theorem escaped_wide (h : 128 ≤ b.toNat) : escaped b = b := by
  have hb (c : UInt8) (hc : c.toNat < 128) : b ≠ c := by
    rintro rfl
    omega
  simp [escaped, hb 116 (by decide), hb 114 (by decide), hb 110 (by decide), hb 102 (by decide)]

theorem escaped_ascii (h : b.toNat < 128) : (escaped b).toNat < 128 := by
  unfold escaped
  split_ifs <;> first | assumption | decide

/-- The characters that spell a character. -/
def Item.transcode (enc : UInt8 → Bytes) : Item → List Item
  | .raw b => (enc b).map .raw
  | .code c => [.code c]

/-- **The characters** of an encoded key or value. -/
theorem Transcodes.items (he : Transcodes enc) : items (Properties.transcode enc s) =
    (items s).flatMap (·.transcode enc) := by
  induction s using items_induction with
  | nil => rfl
  | raw b s hb ih =>
    rw [transcode_cons, items_append (he.backslash_not_mem hb), ih, items_raw hb]
    rfl
  | lone =>
    rw [he.cons_ascii (by decide), items_lone]
    show Properties.items [backslash] = _
    rw [items_lone]
    simp [Item.transcode, he.ascii backslash (by decide)]
  | simple c s h ih =>
    have h' := he.unit (s := backslash :: c :: s)
    rw [h, he.cons_ascii (by decide)] at h'
    rw [he.cons_ascii (by decide), items_escaped h]
    by_cases hc : c.toNat < 128
    · rw [he.cons_ascii hc] at h' ⊢
      rw [items_escaped h', ih, List.flatMap_cons, Item.transcode, he.ascii _ (escaped_ascii hc)]
      rfl
    · obtain ⟨x, xs, hx, hwide⟩ := he.cons_wide (Nat.le_of_not_lt hc)
      have htail : backslash ∉ xs := fun hmem => absurd (hwide backslash (List.mem_cons_of_mem x hmem)) (by decide)
      rw [transcode_cons, hx, List.cons_append] at h' ⊢
      rw [items_escaped h', items_append htail, ih, List.flatMap_cons, Item.transcode,
        escaped_wide (Nat.le_of_not_lt hc), escaped_wide (hwide x List.mem_cons_self), hx]
      rfl
  | code s u r h hr ih =>
    rw [items_code h hr, items_code (by rw [he.unit, h]; rfl) ?_, ih]
    · rfl
    · intro v r' hv
      rw [he.unit, Option.map_eq_some_iff] at hv
      obtain ⟨p, hp, hpv⟩ := hv
      rw [← (Prod.mk.inj hpv).1]
      exact hr p.1 p.2 hp
  | pair s u r v r' h h' hu hv ih =>
    rw [items_pair h h' hu hv, items_pair (by rw [he.unit, h]; rfl) (by rw [he.unit, h']; rfl) hu hv, ih]
    rfl

end Lib.Properties
