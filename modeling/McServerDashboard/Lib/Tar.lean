import Mathlib.Data.Nat.Digits.Lemmas
import Mathlib.Algebra.Order.BigOperators.Group.List
import Mathlib.Data.List.TakeWhile

/-!
# Tar archives

An archive is a sequence of 512-byte blocks: for each member a header block that names it and
declares its size, then its body padded to whole blocks, and at the end two or more zero blocks. A
name or a size that does not fit the header travels in an extension member before it: a long-name
member in the GNU format, a list of records in the pax format.

* `itn`, `nti`: the number fields; `stn`, `nts`: the text fields.
* `Header.create`, `parse`: a header block with its checksum.
* `tobuf`: the header of a file member, extension members included.
* `read`: the members of an archive, if it is well formed.
* **`read_tobuf`**: behind the header of `tobuf` the reader takes as many bytes as it declares.
* `Members`: an unfinished archive and what it holds; `Members.append`, `Members.finish`.
-/

namespace Lib.Tar

abbrev Bytes := List UInt8

def blocksize : ℕ := 512

def zeros (n : ℕ) : Bytes := List.replicate n 0

/-- The zero bytes that fill the last block of `n` bytes. -/
def padding (n : ℕ) : ℕ := if n % blocksize = 0 then 0 else blocksize - n % blocksize

/-- The bytes of an ASCII text. -/
def ascii (s : String) : Bytes := s.toList.map fun c => UInt8.ofNat c.toNat

@[simp] theorem length_zeros (n : ℕ) : (zeros n).length = n := List.length_replicate

/-! ## Number fields -/

/-- The digits of `n` in base `b`, the highest first. -/
def digits (b n : ℕ) : List ℕ := (Nat.digits b n).reverse

/-- The number that digits spell. -/
def value (b : ℕ) (ds : List ℕ) : ℕ := ds.foldl (fun n d => n * b + d) 0

def asciiDigit (d : ℕ) : UInt8 := UInt8.ofNat (48 + d)

def isDigit (b : ℕ) (c : UInt8) : Bool := 48 ≤ c.toNat && c.toNat < 48 + b

/-- The number that ASCII digits spell. -/
def number (b : ℕ) (s : Bytes) : Option ℕ :=
  if s.all (isDigit b) then some (value b (s.map fun c => c.toNat - 48)) else none

/-- `str(n)`. -/
def decimal (n : ℕ) : Bytes := if n = 0 then [48] else (digits 10 n).map asciiDigit

/-- `n` in octal, in a field of `w` bytes that ends in a NUL. -/
def octal (w n : ℕ) : Bytes := ((digits 8 n).leftpad (w - 1) 0).map asciiDigit ++ [0]

/-- `n` in base 256, in a field of `w` bytes that starts with `0o200`. -/
def base256 (w n : ℕ) : Bytes := 128 :: ((digits 256 n).leftpad (w - 1) 0).map UInt8.ofNat

/-- A number field of `w` bytes; without the GNU extension a number can be too large for it. -/
def itn (gnu : Bool) (w n : ℕ) : Option Bytes :=
  if n < 8 ^ (w - 1) then some (octal w n)
  else if gnu && n < 256 ^ (w - 1) then some (base256 w n)
  else none

/-- A text up to its first NUL. -/
def nts (s : Bytes) : Bytes := s.takeWhile (· ≠ 0)

/-- A text field of `w` bytes. -/
def stn (w : ℕ) (s : Bytes) : Bytes := s.take w ++ zeros (w - s.length)

/-- The number in a field. -/
def nti (s : Bytes) : Option ℕ :=
  match s with
  | 128 :: rest => some (value 256 (rest.map UInt8.toNat))
  | _ => number 8 (nts s)

variable {b w n : ℕ} {s : Bytes}

theorem value_digits (b n : ℕ) : value b (digits b n) = n := by
  rw [value, digits, List.foldl_reverse]
  conv_rhs => rw [← Nat.ofDigits_digits b n, Nat.ofDigits_eq_foldr]
  congr 1
  funext d k
  exact (Nat.add_comm _ _).trans (congrArg (d + ·) (Nat.mul_comm _ _))

theorem value_leftpad (ds : List ℕ) : value b (ds.leftpad w 0) = value b ds := by
  rw [List.leftpad, value, List.foldl_append, value]
  congr 1
  induction w - ds.length with
  | zero => rfl
  | succ k ih => rw [List.replicate_succ, List.foldl_cons, zero_mul, zero_add, ih]

theorem digits_lt (hb : 1 < b) {d : ℕ} (hd : d ∈ digits b n) : d < b :=
  Nat.digits_lt_base hb (List.mem_reverse.mp hd)

theorem leftpad_lt (hb : 1 < b) {d : ℕ} (hd : d ∈ (digits b n).leftpad w 0) : d < b := by
  rw [List.leftpad, List.mem_append] at hd
  rcases hd with h | h
  · rw [(List.mem_replicate.mp h).2]
    omega
  · exact digits_lt hb h

theorem length_leftpad_digits (hb : 1 < b) (h : n < b ^ w) : ((digits b n).leftpad w 0).length = w := by
  rw [List.length_leftpad, digits, List.length_reverse, Nat.max_eq_left]
  exact (Nat.digits_length_le_iff hb n).mpr h

theorem toNat_asciiDigit {d : ℕ} (h : d < 10) : (asciiDigit d).toNat = 48 + d := by
  rw [asciiDigit, UInt8.toNat_ofNat', Nat.mod_eq_of_lt (by omega)]

/-- ASCII digits spell the number that they are the digits of. -/
theorem number_map (hb : b ≤ 10) {ds : List ℕ} (h : ∀ d ∈ ds, d < b) :
    number b (ds.map asciiDigit) = some (value b ds) := by
  have hall : (ds.map asciiDigit).all (isDigit b) = true := by
    rw [List.all_map, List.all_eq_true]
    intro d hd
    have := h d hd
    simp only [Function.comp_apply, isDigit, toNat_asciiDigit (show d < 10 by omega),
      Bool.and_eq_true, decide_eq_true_eq]
    omega
  rw [number, if_pos hall, List.map_map]
  congr 2
  conv_rhs => rw [← List.map_id ds]
  refine List.map_congr_left fun d hd => ?_
  have := h d hd
  rw [Function.comp_apply, toNat_asciiDigit (by omega), id_eq]
  omega

/-- A text field is read up to its first NUL or to its end. -/
theorem nts_append_zeros (s : Bytes) (n : ℕ) : nts (s ++ zeros n) = nts s := by
  induction s with
  | nil => cases n <;> rfl
  | cons c s ih =>
    simp only [nts, List.cons_append, List.takeWhile_cons] at ih ⊢
    split
    · rw [ih]
    · rfl

theorem nts_append_nul (s t : Bytes) (h : ∀ c ∈ s, c ≠ 0) : nts (s ++ 0 :: t) = s := by
  rw [nts, List.takeWhile_append_of_pos fun c hc => decide_eq_true (h c hc)]
  exact List.append_nil s

@[simp] theorem length_stn : (stn w s).length = w := by
  rw [stn, List.length_append, List.length_take, length_zeros]
  omega

theorem nts_stn (h : s.length ≤ w) : nts (stn w s) = nts s := by
  rw [stn, List.take_of_length_le h, nts_append_zeros]

theorem asciiDigit_ne {d : ℕ} (h : d < 10) {c : UInt8} (hc : c.toNat < 48 ∨ 57 < c.toNat) :
    asciiDigit d ≠ c := by
  intro he
  have := toNat_asciiDigit h
  rw [he] at this
  omega

theorem length_octal (h : n < 8 ^ (w - 1)) (hw : 0 < w) : (octal w n).length = w := by
  rw [octal, List.length_append, List.length_map, length_leftpad_digits (by decide) h,
    List.length_singleton]
  omega

/-- An octal field reads back, whatever stands behind its NUL. -/
theorem nti_octal_append (w n : ℕ) (t : Bytes) : nti (octal w n ++ t) = some n := by
  have hlt : ∀ d ∈ (digits 8 n).leftpad (w - 1) 0, d < 8 := fun d hd => leftpad_lt (by decide) hd
  have hnum : number 8 (nts (octal w n ++ t)) = some n := by
    rw [octal, List.append_assoc, List.singleton_append, nts_append_nul, number_map (by decide) hlt,
      value_leftpad, value_digits]
    intro c hc
    obtain ⟨d, hd, rfl⟩ := List.mem_map.mp hc
    exact asciiDigit_ne ((hlt d hd).trans (by decide)) (.inl (by decide))
  unfold nti
  split
  · next rest he =>
    -- no octal field starts with the mark of a base-256 field
    exfalso
    rw [octal] at he
    cases hds : (digits 8 n).leftpad (w - 1) 0 with
    | nil =>
      rw [hds] at he
      cases he
    | cons d ds =>
      rw [hds, List.map_cons, List.cons_append, List.cons_append] at he
      have hd := hlt d (hds ▸ List.mem_cons_self)
      exact asciiDigit_ne (hd.trans (by decide)) (.inr (by decide)) (List.cons.inj he).1
  · exact hnum

theorem nti_octal (w n : ℕ) : nti (octal w n) = some n := by
  rw [← List.append_nil (octal w n), nti_octal_append]

theorem nti_base256 (w n : ℕ) : nti (base256 w n) = some n := by
  have hlt : ∀ d ∈ (digits 256 n).leftpad (w - 1) 0, d < 256 := fun d hd => leftpad_lt (by decide) hd
  change some (value 256 _) = _
  rw [List.map_map]
  have : ((digits 256 n).leftpad (w - 1) 0).map (UInt8.toNat ∘ UInt8.ofNat) =
      (digits 256 n).leftpad (w - 1) 0 := by
    conv_rhs => rw [← List.map_id ((digits 256 n).leftpad (w - 1) 0)]
    refine List.map_congr_left fun d hd => ?_
    rw [Function.comp_apply, UInt8.toNat_ofNat', Nat.mod_eq_of_lt (hlt d hd), id_eq]
  rw [this, value_leftpad, value_digits]

theorem nti_itn {gnu : Bool} (h : itn gnu w n = some s) : nti s = some n := by
  unfold itn at h
  split_ifs at h
  · cases h
    exact nti_octal w n
  · cases h
    exact nti_base256 w n

theorem length_itn {gnu : Bool} (hw : 0 < w) (h : itn gnu w n = some s) : s.length = w := by
  unfold itn at h
  split_ifs at h with h8 h256
  · cases h
    exact length_octal h8 hw
  · cases h
    simp only [Bool.and_eq_true, decide_eq_true_eq] at h256
    rw [base256, List.length_cons, List.length_map, length_leftpad_digits (by decide) h256.2]
    omega

theorem number_decimal (n : ℕ) : number 10 (decimal n) = some n := by
  unfold decimal
  split_ifs with hn
  · rw [hn]
    rfl
  · rw [number_map le_rfl fun d hd => digits_lt (by decide) hd, value_digits]

/-! ## Header blocks -/

/-- The two formats that are written. -/
inductive Format
  | gnu
  | pax
  deriving DecidableEq

def Format.magic : Format → Bytes
  | gnu => ascii "ustar" ++ [32, 32, 0]
  | pax => ascii "ustar" ++ [0, 48, 48]

/-- The type flag of a regular file. -/
def regtype : UInt8 := 48

/-- The type flag of a GNU long name. -/
def longnameType : UInt8 := 76

/-- The type flag of a pax extended header. -/
def xhdtype : UInt8 := 120

/-- What a header block says; the other fields are zero. -/
structure Header where
  name : Bytes
  mode : ℕ
  size : ℕ
  type : UInt8

/-- The sum of the bytes around the checksum field, the field itself read as blanks. -/
def checksum (front back : Bytes) : ℕ := 256 + ((front ++ back).map UInt8.toNat).sum

/-- The fields before the checksum. -/
def Header.front (h : Header) (size : Bytes) : Bytes :=
  stn 100 h.name ++ (octal 8 h.mode ++ (octal 8 0 ++ (octal 8 0 ++ (size ++ octal 12 0))))

/-- The fields behind the checksum. -/
def Header.back (h : Header) (f : Format) : Bytes := h.type :: (zeros 100 ++ (f.magic ++ zeros 247))

/-- `_create_header`. -/
def Header.create (h : Header) (f : Format) (gnu : Bool) : Option Bytes :=
  (itn gnu 12 h.size).map fun size =>
    h.front size ++ (octal 7 (checksum (h.front size) (h.back f)) ++ [32] ++ h.back f)

/-- The `w` bytes of a block from `off` on. -/
def field (off w : ℕ) (blk : Bytes) : Bytes := (blk.drop off).take w

/-- Name, size and type of a header block that passes its checksum. -/
def parse (blk : Bytes) : Option (Bytes × ℕ × UInt8) := do
  let size ← nti (field 124 12 blk)
  let sum ← nti (field 148 8 blk)
  let type ← blk[156]?
  if sum = checksum (blk.take 148) (blk.drop 156) ∧
      (field 257 8 blk = Format.gnu.magic ∨ field 257 8 blk = Format.pax.magic) then
    some (nts (field 0 100 blk), size, type)
  else none

theorem field_append {a c d : Bytes} {off : ℕ} (ha : a.length = off) (hc : c.length = w) :
    field off w (a ++ (c ++ d)) = c := by
  rw [field, List.drop_left' ha, List.take_left' hc]

theorem length_front {h : Header} {size : Bytes} (hm : h.mode < 8 ^ 7) (hs : size.length = 12) :
    (h.front size).length = 148 := by
  have h0 : (octal 8 0).length = 8 := rfl
  have h1 : (octal 12 0).length = 12 := rfl
  simp only [Header.front, List.length_append, length_stn, length_octal (w := 8) hm (by decide), h0, h1, hs]

theorem length_back (h : Header) (f : Format) : (h.back f).length = 356 := by
  have : f.magic.length = 8 := by cases f <;> rfl
  simp only [Header.back, List.length_cons, List.length_append, length_zeros, this, Nat.reduceAdd]

theorem checksum_lt {front back : Bytes} (h : (front ++ back).length ≤ 512) :
    checksum front back < 8 ^ 6 := by
  have hsum : ((front ++ back).map UInt8.toNat).sum ≤ (front ++ back).length * 255 := by
    have := List.sum_le_card_nsmul ((front ++ back).map UInt8.toNat) 255 fun x hx => by
      obtain ⟨c, -, rfl⟩ := List.mem_map.mp hx
      have := c.toNat_lt
      omega
    rwa [List.length_map, Nat.nsmul_eq_mul] at this
  unfold checksum
  omega

/-- What a written header block is: three parts of known lengths. -/
theorem Header.create_eq {h : Header} {f : Format} {gnu : Bool} {blk : Bytes}
    (hm : h.mode < 8 ^ 7) (hc : h.create f gnu = some blk) :
    ∃ size chk, itn gnu 12 h.size = some size ∧ size.length = 12 ∧ chk.length = 8 ∧
      nti chk = some (checksum (h.front size) (h.back f)) ∧
      blk = h.front size ++ (chk ++ h.back f) := by
  obtain ⟨size, hsize, rfl⟩ := Option.map_eq_some_iff.mp hc
  have hlen := length_itn (by decide) hsize
  have hlt : checksum (h.front size) (h.back f) < 8 ^ 6 := checksum_lt (by
    rw [List.length_append, length_front hm hlen, length_back]
    decide)
  refine ⟨size, _, hsize, hlen, ?_, nti_octal_append 7 _ [32], rfl⟩
  rw [List.length_append, length_octal (w := 7) hlt (by decide), List.length_singleton]

/-- A header block has the size of a block. -/
theorem Header.length_create {h : Header} {f : Format} {gnu : Bool} {blk : Bytes}
    (hm : h.mode < 8 ^ 7) (hc : h.create f gnu = some blk) : blk.length = blocksize := by
  obtain ⟨size, chk, -, hlen, hchk, -, rfl⟩ := h.create_eq hm hc
  rw [List.length_append, List.length_append, length_front hm hlen, length_back, hchk]
  rfl

/-- A header block is read as it was written. -/
theorem Header.parse_create {h : Header} {f : Format} {gnu : Bool} {blk : Bytes}
    (hm : h.mode < 8 ^ 7) (hc : h.create f gnu = some blk) :
    parse blk = some (nts (stn 100 h.name), h.size, h.type) := by
  obtain ⟨size, chk, hsize, hlen, hchk, hsum, rfl⟩ := h.create_eq hm hc
  have hfront := length_front hm hlen
  have hmode := length_octal (w := 8) hm (by decide)
  have hmagic : f.magic.length = 8 := by cases f <;> rfl
  have hname : field 0 100 (h.front size ++ (chk ++ h.back f)) = stn 100 h.name := by
    rw [Header.front, List.append_assoc]
    exact field_append (a := []) rfl length_stn
  have hsz : field 124 12 (h.front size ++ (chk ++ h.back f)) = size := by
    have : h.front size ++ (chk ++ h.back f) =
        (stn 100 h.name ++ (octal 8 h.mode ++ (octal 8 0 ++ octal 8 0))) ++
          (size ++ (octal 12 0 ++ (chk ++ h.back f))) := by
      simp only [Header.front, List.append_assoc]
    rw [this]
    refine field_append ?_ hlen
    rw [List.length_append, length_stn, List.length_append, hmode]
    rfl
  have hck : field 148 8 (h.front size ++ (chk ++ h.back f)) = chk := field_append hfront hchk
  have hmg : field 257 8 (h.front size ++ (chk ++ h.back f)) = f.magic := by
    have : h.front size ++ (chk ++ h.back f) =
        (h.front size ++ (chk ++ h.type :: zeros 100)) ++ (f.magic ++ zeros 247) := by
      simp only [Header.back, List.append_assoc, List.cons_append]
    rw [this]
    refine field_append ?_ hmagic
    rw [List.length_append, hfront, List.length_append, hchk, List.length_cons, length_zeros]
  have hty : (h.front size ++ (chk ++ h.back f))[156]? = some h.type := by
    rw [← List.append_assoc, List.getElem?_append_right, List.length_append, hfront, hchk]
    · rfl
    · rw [List.length_append, hfront, hchk]
  have htake : (h.front size ++ (chk ++ h.back f)).take 148 = h.front size := List.take_left' hfront
  have hdrop : (h.front size ++ (chk ++ h.back f)).drop 156 = h.back f := by
    rw [← List.append_assoc]
    exact List.drop_left' (by rw [List.length_append, hfront, hchk])
  have hor : f.magic = Format.gnu.magic ∨ f.magic = Format.pax.magic := by
    cases f
    · exact .inl rfl
    · exact .inr rfl
  simp only [parse, hsz, hck, hty, htake, hdrop, hname, hmg, nti_itn hsize, hsum, Option.bind_eq_bind,
    Option.bind_some, true_and]
  rw [if_pos hor]

/-- A block of zeros is no header. -/
theorem parse_eq_some_ne_zero {blk : Bytes} {x : Bytes × ℕ × UInt8} (h : parse blk = some x) :
    ¬ blk.all (· = 0) = true := by
  intro hz
  have hmem : (117 : UInt8) ∈ field 257 8 blk := by
    simp only [parse, Option.bind_eq_bind, Option.bind_eq_some_iff] at h
    obtain ⟨_, -, _, -, _, -, h⟩ := h
    split_ifs at h with hc
    rcases hc.2 with hm | hm <;> rw [hm] <;> decide
  have := List.all_eq_true.mp hz 117 (List.mem_of_mem_drop (List.mem_of_mem_take hmem))
  exact absurd this (by decide)

/-! ## Extended headers -/

/-- `_create_payload`. -/
def payload (data : Bytes) : Bytes := data ++ zeros (padding data.length)

/-- `n` with the length of `n` itself counted, up to the first fixed point. -/
def recordLengthFrom (l : ℕ) : ℕ → ℕ → ℕ
  | 0, p => p
  | fuel + 1, p => if l + (decimal p).length = p then p else recordLengthFrom l fuel (l + (decimal p).length)

/-- The length of a record that has `l` bytes besides its length. -/
def recordLength (l : ℕ) : ℕ := recordLengthFrom l (2 * l + 3) 0

/-- One record of a pax header. -/
def record (key val : Bytes) : Bytes :=
  decimal (recordLength (key.length + val.length + 3)) ++ 32 :: (key ++ 61 :: (val ++ [10]))

/-- The first record and what is behind it. -/
def parseRecord (bs : Bytes) : Option ((Bytes × Bytes) × Bytes) :=
  let ds := bs.takeWhile (isDigit 10)
  (number 10 ds).bind fun len =>
    let kv := ((bs.take len).drop (ds.length + 1)).dropLast
    let key := kv.takeWhile (· ≠ 61)
    if len ≤ bs.length ∧ ds.length < len ∧ bs[ds.length]? = some 32 ∧ bs[len - 1]? = some 10 ∧
        kv[key.length]? = some 61 then
      some ((key, kv.drop (key.length + 1)), bs.drop len)
    else none

/-- The name and the size that extended headers set for the next member. -/
structure Ext where
  name : Option Bytes := none
  size : Option ℕ := none
  deriving DecidableEq

/-- `_proc_pax`: the records of a pax header. -/
def Ext.records : ℕ → Bytes → Ext → Option Ext
  | _, [], e => some e
  | 0, _, _ => none
  | fuel + 1, bs, e =>
    (parseRecord bs).bind fun ((key, val), rest) =>
      if key = ascii "path" then records fuel rest { e with name := some val }
      else if key = ascii "size" then
        (number 10 val).bind fun n => records fuel rest { e with size := some n }
      else records fuel rest e

theorem length_decimal_le (n : ℕ) : (decimal n).length ≤ n / 2 + 1 := by
  induction n using Nat.strong_induction_on with
  | _ n ih =>
    rcases Nat.lt_or_ge n 10 with h | h
    · have : ∀ k < 10, (decimal k).length ≤ k / 2 + 1 := by decide
      exact this n h
    · have := ih (n / 10) (by omega)
      have hd : (decimal n).length = (decimal (n / 10)).length + 1 := by
        simp only [decimal, digits, if_neg (show n ≠ 0 by omega), if_neg (show n / 10 ≠ 0 by omega),
          List.length_map, List.length_reverse]
        rw [Nat.digits_of_two_le_of_pos (by decide) (by omega), List.length_cons]
      omega

theorem length_decimal_mono {m n : ℕ} (h : m ≤ n) : (decimal m).length ≤ (decimal n).length := by
  unfold decimal
  split_ifs with hm hn hn
  · rfl
  · rw [List.length_map, digits, List.length_reverse]
    exact Nat.pos_of_ne_zero fun h0 => hn (Nat.digits_eq_nil_iff_eq_zero.mp (List.length_eq_zero_iff.mp h0))
  · omega
  · simp only [digits, List.length_map, List.length_reverse]
    exact Nat.le_length_digits_le 10 _ _ h

theorem recordLengthFrom_eq {l : ℕ} (fuel p : ℕ) (hp : p ≤ l + (decimal p).length) (hb : p ≤ 2 * l + 2)
    (hf : 2 * l + 2 - p < fuel) :
    recordLengthFrom l fuel p = l + (decimal (recordLengthFrom l fuel p)).length := by
  induction fuel generalizing p with
  | zero => omega
  | succ fuel ih =>
    unfold recordLengthFrom
    split_ifs with he
    · exact he.symm
    · have hle := length_decimal_le p
      exact ih _ (Nat.add_le_add_left (length_decimal_mono hp) l) (by omega) (by omega)

/-- The loop ends at a length that counts itself. -/
theorem recordLength_eq (l : ℕ) : recordLength l = l + (decimal (recordLength l)).length :=
  recordLengthFrom_eq _ 0 (Nat.zero_le _) (Nat.zero_le _) (by omega)

theorem length_record (key val : Bytes) :
    (record key val).length = recordLength (key.length + val.length + 3) := by
  have := recordLength_eq (key.length + val.length + 3)
  simp only [record, List.length_append, List.length_cons, List.length_nil]
  omega

theorem isDigit_of_mem_decimal {n : ℕ} {c : UInt8} (h : c ∈ decimal n) : isDigit 10 c = true := by
  have := number_decimal n
  unfold number at this
  split_ifs at this with hall
  exact List.all_eq_true.mp hall c h

/-- A record is read as it was written, whatever comes behind it. -/
theorem parseRecord_record {key : Bytes} (hk : 61 ∉ key) (val rest : Bytes) :
    parseRecord (record key val ++ rest) = some ((key, val), rest) := by
  set p := recordLength (key.length + val.length + 3) with hp
  have hlen : (record key val).length = p := length_record key val
  have hds : (record key val ++ rest).takeWhile (isDigit 10) = decimal p := by
    rw [record, ← hp, List.append_assoc, List.takeWhile_append_of_pos fun c hc => isDigit_of_mem_decimal hc]
    exact List.append_nil _
  have hdlen : (decimal p).length + (key.length + val.length + 3) = p := by
    rw [Nat.add_comm]
    exact (recordLength_eq _).symm
  have hkv : (((record key val ++ rest).take p).drop ((decimal p).length + 1)).dropLast = key ++ 61 :: val := by
    rw [List.take_left' hlen]
    have : record key val = (decimal p ++ [32]) ++ ((key ++ 61 :: val) ++ [10]) := by
      simp [record, ← hp]
    rw [this, List.drop_left' (by rw [List.length_append, List.length_singleton]), List.dropLast_concat]
  have hkey : (key ++ 61 :: val).takeWhile (· ≠ 61) = key := by
    rw [List.takeWhile_append_of_pos]
    · exact List.append_nil _
    · intro c hc
      refine decide_eq_true ?_
      rintro rfl
      exact hk hc
  have hblank : (record key val ++ rest)[(decimal p).length]? = some 32 := by
    rw [record, ← hp, List.append_assoc, List.getElem?_append_right le_rfl, Nat.sub_self]
    rfl
  have hend : (record key val ++ rest)[p - 1]? = some 10 := by
    have : record key val = (decimal p ++ 32 :: (key ++ 61 :: val)) ++ [10] := by
      simp [record, ← hp]
    rw [this, List.append_assoc, List.getElem?_append_right]
    · have h0 : p - 1 - (decimal p ++ 32 :: (key ++ 61 :: val)).length = 0 := by
        simp only [List.length_append, List.length_cons]
        omega
      rw [h0]
      rfl
    · simp only [List.length_append, List.length_cons]
      omega
  have heq : (key ++ 61 :: val)[key.length]? = some 61 := by
    rw [List.getElem?_append_right le_rfl, Nat.sub_self]
    rfl
  simp only [parseRecord, hds, number_decimal, Option.bind_some, hkv, hkey]
  rw [if_pos ⟨by rw [List.length_append, hlen]; omega, by omega, hblank, hend, heq⟩, List.drop_left' hlen,
    List.append_cons, List.drop_left' (by rw [List.length_append, List.length_singleton])]

/-- One record is applied and the others follow. -/
theorem Ext.records_record {e : Ext} {key : Bytes} (hk : 61 ∉ key) (fuel : ℕ) (val rest : Bytes) :
    e.records (fuel + 1) (record key val ++ rest) =
      if key = ascii "path" then Ext.records fuel rest { e with name := some val }
      else if key = ascii "size" then
        (number 10 val).bind fun n => Ext.records fuel rest { e with size := some n }
      else Ext.records fuel rest e := by
  have hrec := parseRecord_record hk val rest
  revert hrec
  cases record key val ++ rest with
  | nil =>
    intro hrec
    cases hrec
  | cons c bs =>
    intro hrec
    simp only [Ext.records, hrec, Option.bind_some]

/-! ## File members -/

def isAscii (s : Bytes) : Bool := s.all fun c => c.toNat < 128

/-- `encode("ascii", "replace")` of a UTF-8 text: one `?` for each other character. -/
def asciiReplace (s : Bytes) : Bytes :=
  s.filterMap fun c => if c.toNat < 128 then some c else if c.toNat < 192 then none else some 63

/-- `_create_gnu_long_header` of a name. -/
def gnuLongHeader (name : Bytes) : Option Bytes :=
  (Header.create ⟨ascii "././@LongLink", 0, (name ++ [0]).length, longnameType⟩ .gnu false).map
    (· ++ payload (name ++ [0]))

/-- `_create_pax_generic_header`. -/
def paxHeader (records : Bytes) : Option Bytes :=
  (Header.create ⟨ascii "././@PaxHeader", 0, records.length, xhdtype⟩ .pax false).map (· ++ payload records)

/-- The name does not go into a pax header's own field. -/
def paxName (name : Bytes) : Bool := !isAscii name || 100 < name.length

/-- The size does not go into a pax header's own field. -/
def paxSize (size : ℕ) : Bool := !decide (size < 8 ^ 11)

/-- The records for what does not fit a pax header. -/
def paxRecords (name : Bytes) (size : ℕ) : Bytes :=
  (if paxName name then record (ascii "path") name else []) ++
    if paxSize size then record (ascii "size") (decimal size) else []

/-- `TarInfo.tobuf` of a regular file. -/
def tobuf (f : Format) (name : Bytes) (size : ℕ) : Option Bytes :=
  match f with
  | .gnu =>
    (if 100 < name.length then gnuLongHeader name else some []).bind fun ext =>
      (Header.create ⟨name, 0o644, size, regtype⟩ .gnu true).map (ext ++ ·)
  | .pax =>
    (if paxRecords name size = [] then some [] else paxHeader (paxRecords name size)).bind fun ext =>
      (Header.create ⟨asciiReplace name, 0o644, if paxSize size then 0 else size, regtype⟩ .pax false).map
        (ext ++ ·)

/-! ## Reading -/

/-- The members of a well-formed archive: every header passes its checksum, every body is there in
whole blocks, and the rest is two or more blocks of zeros. -/
def read (e : Ext) (bs : Bytes) : Option (List (Bytes × Bytes)) :=
  if bs.length < blocksize then none
  else if (bs.take blocksize).all (· = 0) then
    if bs.all (· = 0) ∧ 2 * blocksize ≤ bs.length ∧ bs.length % blocksize = 0 ∧ e = {} then some []
    else none
  else match parse (bs.take blocksize) with
    | none => none
    | some (name, declared, type) =>
      let size := if type = regtype then e.size.getD declared else declared
      let rest := bs.drop blocksize
      if rest.length < size + padding size then none
      else if type = regtype then
        (read {} (rest.drop (size + padding size))).map ((e.name.getD name, rest.take size) :: ·)
      else if type = longnameType then
        read { e with name := some (nts (rest.take size)) } (rest.drop (size + padding size))
      else if type = xhdtype then
        match e.records size (rest.take size) with
        | none => none
        | some e' => read e' (rest.drop (size + padding size))
      else none
termination_by bs.length
decreasing_by all_goals
  rw [List.length_drop, List.length_drop]
  have : 0 < blocksize := by decide
  omega

variable {blk name body rest : Bytes} {declared size : ℕ} {type : UInt8} {e : Ext} {f : Format}

/-- What a header block makes of the bytes behind it. -/
theorem read_block (hlen : blk.length = blocksize) (hp : parse blk = some (name, declared, type)) :
    read e (blk ++ rest) =
      let size := if type = regtype then e.size.getD declared else declared
      if rest.length < size + padding size then none
      else if type = regtype then
        (read {} (rest.drop (size + padding size))).map ((e.name.getD name, rest.take size) :: ·)
      else if type = longnameType then
        read { e with name := some (nts (rest.take size)) } (rest.drop (size + padding size))
      else if type = xhdtype then
        match e.records size (rest.take size) with
        | none => none
        | some e' => read e' (rest.drop (size + padding size))
      else none := by
  have hlt : ¬ (blk ++ rest).length < blocksize := by
    rw [List.length_append, hlen]
    omega
  conv_lhs => unfold read
  rw [if_neg hlt, List.take_left' hlen, if_neg (parse_eq_some_ne_zero hp), hp, List.drop_left' hlen]

/-- A block that is neither zero nor a header ends the reading. -/
theorem read_junk (hlen : blk.length = blocksize) (hz : ¬ blk.all (· = 0) = true) (hp : parse blk = none) :
    read e (blk ++ rest) = none := by
  unfold read
  rw [List.take_left' hlen, if_neg hz, hp, ite_self]

theorem length_payload (data : Bytes) : (payload data).length = data.length + padding data.length := by
  rw [payload, List.length_append, length_zeros]

theorem payload_whole (n : ℕ) : (n + padding n) % blocksize = 0 := by
  unfold padding blocksize
  split_ifs <;> omega

/-- An extension member sets what the next member takes. -/
theorem read_extension {h : Header} {gnu : Bool} {data : Bytes} (hm : h.mode = 0) (hs : h.size = data.length)
    (ht : h.type ≠ regtype) (hc : h.create f gnu = some blk) :
    read e (blk ++ payload data ++ rest) =
      if h.type = longnameType then read { e with name := some (nts data) } rest
      else if h.type = xhdtype then
        match e.records data.length data with
        | none => none
        | some e' => read e' rest
      else none := by
  have hmode : h.mode < 8 ^ 7 := by
    rw [hm]
    decide
  have hlen : ¬ (payload data ++ rest).length < data.length + padding data.length := by
    rw [List.length_append, length_payload]
    omega
  have htake : (payload data ++ rest).take data.length = data := by
    rw [payload, List.append_assoc, List.take_left' rfl]
  have hdrop : (payload data ++ rest).drop (data.length + padding data.length) = rest :=
    List.drop_left' (length_payload data)
  rw [List.append_assoc, read_block (h.length_create hmode hc) (h.parse_create hmode hc)]
  simp only [if_neg ht, hs, if_neg hlen, htake, hdrop]

/-- A long name replaces the name of the next member. -/
theorem read_gnuLongHeader {hd : Bytes} (h : gnuLongHeader name = some hd) :
    read e (hd ++ rest) = read { e with name := some (nts name) } rest := by
  obtain ⟨blk, hblk, rfl⟩ := Option.map_eq_some_iff.mp h
  have hne : longnameType ≠ regtype := by decide
  rw [read_extension rfl rfl hne hblk, if_pos rfl, ← nts_append_zeros name 1]
  rfl

/-- What the records of a file member set. -/
theorem records_paxRecords (name : Bytes) (size : ℕ) {fuel : ℕ} (hf : 2 ≤ fuel) :
    Ext.records fuel (paxRecords name size) {} =
      some ⟨if paxName name then some name else none, if paxSize size then some size else none⟩ := by
  obtain ⟨fuel, rfl⟩ := Nat.exists_eq_add_of_le' hf
  have hpath : 61 ∉ ascii "path" := by decide
  have hsize : 61 ∉ ascii "size" := by decide
  have hne : ascii "size" ≠ ascii "path" := by decide
  have hlast : ∀ fuel e, Ext.records (fuel + 1) (if paxSize size then record (ascii "size") (decimal size) else []) e =
      some { e with size := if paxSize size then some size else e.size } := by
    intro fuel e
    split_ifs
    · have := Ext.records_record (e := e) hsize fuel (decimal size) []
      rw [List.append_nil] at this
      rw [this, if_neg hne, if_pos rfl, number_decimal]
      cases fuel <;> rfl
    · rfl
  unfold paxRecords
  by_cases hn : paxName name
  · rw [if_pos hn, if_pos hn, Ext.records_record hpath, if_pos rfl, hlast]
  · rw [if_neg hn, if_neg hn, List.nil_append, hlast]

theorem paxRecords_eq_nil (h : paxRecords name size = []) : ¬ paxName name ∧ ¬ paxSize size := by
  have hrec : ∀ key val : Bytes, record key val ≠ [] := fun key val h =>
    List.cons_ne_nil _ _ (List.append_eq_nil_iff.mp h).2
  have ⟨hname, hsize⟩ := List.append_eq_nil_iff.mp h
  constructor
  · intro hn
    rw [if_pos hn] at hname
    exact hrec _ _ hname
  · intro hs
    rw [if_pos hs] at hsize
    exact hrec _ _ hsize

theorem two_le_length_paxRecords (h : paxRecords name size ≠ []) : 2 ≤ (paxRecords name size).length := by
  have hrec : ∀ key val : Bytes, 2 ≤ (record key val).length := by
    intro key val
    have := recordLength_eq (key.length + val.length + 3)
    rw [length_record]
    omega
  unfold paxRecords at h ⊢
  split_ifs at h ⊢
  · rw [List.length_append]
    have := hrec (ascii "path") name
    omega
  · rw [List.append_nil]
    exact hrec _ _
  · exact hrec _ _
  · exact absurd rfl h

/-- A pax header sets what does not fit the header block. -/
theorem read_paxHeader {hd : Bytes} (hne : paxRecords name size ≠ [])
    (h : paxHeader (paxRecords name size) = some hd) :
    read {} (hd ++ rest) =
      read ⟨if paxName name then some name else none, if paxSize size then some size else none⟩ rest := by
  obtain ⟨blk, hblk, rfl⟩ := Option.map_eq_some_iff.mp h
  have hreg : xhdtype ≠ regtype := by decide
  have hlong : xhdtype ≠ longnameType := by decide
  rw [read_extension rfl rfl hreg hblk, if_neg hlong, if_pos rfl,
    records_paxRecords name size (two_le_length_paxRecords hne)]

theorem asciiReplace_eq (h : isAscii name = true) : asciiReplace name = name := by
  have hlt := List.all_eq_true.mp h
  unfold asciiReplace
  conv_rhs => rw [← List.filterMap_some (l := name)]
  refine List.filterMap_congr fun c hc => ?_
  rw [if_pos (of_decide_eq_true (hlt c hc))]

/-- **A header of a file member declares its size**: the reader takes as many bytes behind it, and
goes on behind their last block. The name is the one that was written, up to a NUL. -/
theorem read_tobuf {hd : Bytes} (h : tobuf f name size = some hd) :
    ∃ name', nts name' = nts name ∧ ∀ rest, read {} (hd ++ rest) =
      if rest.length < size + padding size then none
      else (read {} (rest.drop (size + padding size))).map ((name', rest.take size) :: ·) := by
  have hmode : 0o644 < 8 ^ 7 := by decide
  have hnts : nts (nts name) = nts name := List.takeWhile_idem
  cases f with
  | gnu =>
    obtain ⟨ext, hext, h⟩ := Option.bind_eq_some_iff.mp h
    obtain ⟨blk, hblk, rfl⟩ := Option.map_eq_some_iff.mp h
    have hlen := Header.length_create hmode hblk
    have hparse := Header.parse_create hmode hblk
    split_ifs at hext with hlong
    · refine ⟨nts name, hnts, fun rest => ?_⟩
      rw [List.append_assoc, read_gnuLongHeader hext, read_block hlen hparse]
      rfl
    · cases hext
      refine ⟨nts (stn 100 name), by rw [nts_stn (by omega), hnts], fun rest => ?_⟩
      rw [List.nil_append, read_block hlen hparse]
      rfl
  | pax =>
    obtain ⟨ext, hext, h⟩ := Option.bind_eq_some_iff.mp h
    obtain ⟨blk, hblk, rfl⟩ := Option.map_eq_some_iff.mp h
    have hlen := Header.length_create hmode hblk
    have hparse := Header.parse_create hmode hblk
    -- with or without a pax header, the reader comes to the block with what it sets
    have hread : ∀ rest, read {} (ext ++ blk ++ rest) =
        read ⟨if paxName name then some name else none, if paxSize size then some size else none⟩ (blk ++ rest) := by
      intro rest
      rw [List.append_assoc]
      split_ifs at hext with hrec
      · cases hext
        obtain ⟨hn, hs⟩ := paxRecords_eq_nil hrec
        rw [if_neg hn, if_neg hs, List.nil_append]
      · exact read_paxHeader hrec hext
    refine ⟨(if paxName name then some name else none).getD (nts (stn 100 (asciiReplace name))), ?_, fun rest => ?_⟩
    · split_ifs with hn
      · rfl
      · simp only [paxName, Bool.or_eq_true, Bool.not_eq_true', decide_eq_true_eq, not_or,
          Bool.not_eq_false, not_lt] at hn
        rw [Option.getD_none, asciiReplace_eq hn.1, nts_stn hn.2, hnts]
    · rw [hread, read_block hlen hparse]
      have hsize : (if paxSize size then some size else none).getD (if paxSize size then 0 else size) = size := by
        split_ifs <;> rfl
      simp only [if_pos, hsize]

/-! ## Whole archives -/

/-- A sequence of whole file members, with what the reader makes of them. -/
structure Members (out : Bytes) (ms : List (Bytes × Bytes)) : Prop where
  whole : out.length % blocksize = 0
  reads : ∀ rest, read {} (out ++ rest) = (read {} rest).map (ms ++ ·)

theorem Members.nil : Members [] [] where
  whole := rfl
  reads rest := by
    rw [List.nil_append]
    cases read {} rest <;> rfl

theorem length_tobuf {hd : Bytes} (h : tobuf f name size = some hd) : hd.length % blocksize = 0 := by
  have hmode : 0o644 < 8 ^ 7 := by decide
  have hext : ∀ {hdr : Header} {f : Format} {data ext : Bytes}, hdr.mode = 0 →
      (hdr.create f false).map (· ++ payload data) = some ext → ext.length % blocksize = 0 := by
    intro hdr f data ext hm hext
    obtain ⟨blk, hblk, rfl⟩ := Option.map_eq_some_iff.mp hext
    have hlt : hdr.mode < 8 ^ 7 := by
      rw [hm]
      decide
    rw [List.length_append, hdr.length_create hlt hblk, length_payload, Nat.add_mod_left]
    exact payload_whole _
  cases f with
  | gnu =>
    obtain ⟨ext, he, h⟩ := Option.bind_eq_some_iff.mp h
    obtain ⟨blk, hblk, rfl⟩ := Option.map_eq_some_iff.mp h
    rw [List.length_append, Header.length_create hmode hblk, Nat.add_mod_right]
    split_ifs at he
    · exact hext rfl he
    · cases he
      rfl
  | pax =>
    obtain ⟨ext, he, h⟩ := Option.bind_eq_some_iff.mp h
    obtain ⟨blk, hblk, rfl⟩ := Option.map_eq_some_iff.mp h
    rw [List.length_append, Header.length_create hmode hblk, Nat.add_mod_right]
    split_ifs at he
    · cases he
      rfl
    · exact hext rfl he

/-- **One more member**: its body has the size that its header declares. -/
theorem Members.append {out hd : Bytes} {ms : List (Bytes × Bytes)} (hms : Members out ms)
    (hhd : tobuf f name body.length = some hd) :
    ∃ name', nts name' = nts name ∧
      Members (out ++ (hd ++ (body ++ zeros (padding body.length)))) (ms ++ [(name', body)]) := by
  obtain ⟨name', hname, hread⟩ := read_tobuf hhd
  refine ⟨name', hname, ?_, fun rest => ?_⟩
  · have := hms.whole
    have := length_tobuf hhd
    have := payload_whole body.length
    simp only [List.length_append, length_zeros, blocksize] at *
    omega
  · have hlen : ¬ (payload body ++ rest).length < body.length + padding body.length := by
      rw [List.length_append, length_payload]
      omega
    have htake : (payload body ++ rest).take body.length = body := by
      rw [payload, List.append_assoc, List.take_left' rfl]
    have hdrop : (payload body ++ rest).drop (body.length + padding body.length) = rest :=
      List.drop_left' (length_payload body)
    rw [List.append_assoc, hms.reads, List.append_assoc, ← payload, hread, if_neg hlen, htake, hdrop,
      Option.map_map]
    congr 1
    funext xs
    exact (List.append_cons ms _ xs).trans rfl

/-- Two or more blocks of zeros end an archive. -/
theorem read_zeros {n : ℕ} (h2 : 2 * blocksize ≤ n) (hn : n % blocksize = 0) : read {} (zeros n) = some [] := by
  have hall : (zeros n).all (· = 0) = true := by
    rw [zeros, List.all_replicate]
    simp
  have hlt : ¬ (zeros n).length < blocksize := by
    rw [length_zeros]
    omega
  have htake : ((zeros n).take blocksize).all (· = 0) = true := List.all_eq_true.mpr fun c hc =>
    List.all_eq_true.mp hall c (List.mem_of_mem_take hc)
  unfold read
  rw [if_neg hlt, if_pos htake, if_pos]
  rw [length_zeros]
  exact ⟨hall, h2, hn, rfl⟩

/-- **A finished archive is read as it was written.** -/
theorem Members.finish {out : Bytes} {ms : List (Bytes × Bytes)} {n : ℕ} (hms : Members out ms)
    (h2 : 2 * blocksize ≤ n) (hn : n % blocksize = 0) : read {} (out ++ zeros n) = some ms := by
  rw [hms.reads, read_zeros h2 hn, Option.map_some, List.append_nil]

end Lib.Tar
