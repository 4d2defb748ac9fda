import Mathlib.Data.List.DropRight
import Mathlib.Data.Nat.Digits.Defs
import Mathlib.Tactic.IntervalCases
import McServerDashboard.Lib.Properties

/-!
# Digits and blanks in Python strings

* `decimal?`, `isDigit`: a character may be a digit for `str.isdigit` and yet have no decimal value.
* `int?`, `str?`: numbers and their texts, both up to a number of digits.
* `strip`: the text without the blanks around it.
* **`isSome_int?`**: which texts of digits are numbers.
-/

namespace Lib

open Lib.Properties

/-- The zeros of the decimal digits; the nine digits follow each of them. -/
def decimalZeros : List ℕ :=
  [0x30, 0x660, 0x6f0, 0x7c0, 0x966, 0x9e6, 0xa66, 0xae6, 0xb66, 0xbe6, 0xc66, 0xce6, 0xd66, 0xde6, 0xe50, 0xed0,
   0xf20, 0x1040, 0x1090, 0x17e0, 0x1810, 0x1946, 0x19d0, 0x1a80, 0x1a90, 0x1b50, 0x1bb0, 0x1c40, 0x1c50, 0xa620,
   0xa8d0, 0xa900, 0xa9d0, 0xa9f0, 0xaa50, 0xabf0, 0xff10, 0x104a0, 0x10d30, 0x11066, 0x110f0, 0x11136, 0x111d0,
   0x112f0, 0x11450, 0x114d0, 0x11650, 0x116c0, 0x11730, 0x118e0, 0x11950, 0x11c50, 0x11d50, 0x11da0, 0x11f50,
   0x16a60, 0x16ac0, 0x16b50, 0x1d7ce, 0x1d7d8, 0x1d7e2, 0x1d7ec, 0x1d7f6, 0x1e140, 0x1e2f0, 0x1e4f0, 0x1e950,
   0x1fbf0]

/-- Digits that are not decimal, such as superscripts. -/
def otherDigits : List (ℕ × ℕ) :=
  [(0xb2, 0xb3), (0xb9, 0xb9), (0x1369, 0x1371), (0x19da, 0x19da), (0x2070, 0x2070), (0x2074, 0x2079),
   (0x2080, 0x2089), (0x2460, 0x2468), (0x2474, 0x247c), (0x2488, 0x2490), (0x24ea, 0x24ea), (0x24f5, 0x24fd),
   (0x24ff, 0x24ff), (0x2776, 0x277e), (0x2780, 0x2788), (0x278a, 0x2792), (0x10a40, 0x10a43), (0x10e60, 0x10e68),
   (0x11052, 0x1105a), (0x1f100, 0x1f10a)]

/-- The value of a decimal digit. -/
def decimal? (c : CodePoint) : Option ℕ := (decimalZeros.find? fun z => z ≤ c.val && c.val < z + 10).map (c.val - ·)

/-- `str.isdigit` of a character. -/
def isDigit (c : CodePoint) : Bool := (decimal? c).isSome || otherDigits.any fun r => r.1 ≤ c.val && c.val ≤ r.2

/-- `str.isspace` of a character. -/
def isSpace (c : CodePoint) : Bool :=
  (9 ≤ c.val && c.val ≤ 13) || (28 ≤ c.val && c.val ≤ 32) || c.val = 0x85 || c.val = 0xA0 || c.val = 0x1680 ||
    (0x2000 ≤ c.val && c.val ≤ 0x200A) || c.val = 0x2028 || c.val = 0x2029 || c.val = 0x202F || c.val = 0x205F ||
    c.val = 0x3000

/-- `str.strip`. -/
def strip (s : List CodePoint) : List CodePoint := (s.dropWhile isSpace).rdropWhile isSpace

/-- The most digits of a number that is converted from or to a text. -/
def maxStrDigits : ℕ := 4300

/-- The number that digits spell; single underscores may stand between two of them. -/
def digits? (s : List CodePoint) : Option ℕ := do
  let groups := s.splitOn 95
  if [] ∈ groups then none
  let ds ← groups.flatten.mapM decimal?
  if maxStrDigits < ds.length then none
  return ds.foldl (fun n d => n * 10 + d) 0

/-- `int(s)`; `none` for `ValueError`. -/
def int? (s : List CodePoint) : Option ℤ :=
  match strip s with
  | 43 :: s => (digits? s).map Int.ofNat
  | 45 :: s => (digits? s).map fun n => -(n : ℤ)
  | s => (digits? s).map Int.ofNat

/-- `str(n)`; `none` for `ValueError`. -/
def str? (n : ℤ) : Option (List CodePoint) :=
  let ds := if n = 0 then [48] else (Nat.digits 10 n.natAbs).reverse.map fun d => chr (48 + d)
  if maxStrDigits < ds.length then none else some (if n < 0 then 45 :: ds else ds)

example : int? [49, 95, 0x664] = some 14 := by decide

example : isDigit 0xB2 ∧ int? [0xB2] = none := by decide

/-! ## Digits alone -/

theorem isSome_mapM {α β : Type*} {f : α → Option β} {l : List α} :
    (l.mapM f).isSome ↔ ∀ x ∈ l, (f x).isSome := by
  induction l with
  | nil => simp
  | cons x l ih =>
    rw [List.mapM_cons, List.forall_mem_cons, ← ih]
    cases f x <;> cases l.mapM f <;> simp

theorem length_of_mapM {α β : Type*} {f : α → Option β} {l : List α} {ys : List β} (h : l.mapM f = some ys) :
    ys.length = l.length := by
  induction l generalizing ys with
  | nil =>
    obtain rfl : [] = ys := Option.some.inj h
    rfl
  | cons x l ih =>
    rw [List.mapM_cons] at h
    obtain ⟨y, -, h⟩ := Option.bind_eq_some_iff.mp h
    obtain ⟨zs, hzs, h⟩ := Option.bind_eq_some_iff.mp h
    obtain rfl : y :: zs = ys := Option.some.inj h
    rw [List.length_cons, List.length_cons, ih hzs]

/-- A blank is no digit. -/
theorem isDigit_of_isSpace {c : CodePoint} (h : isSpace c = true) : isDigit c = false := by
  obtain ⟨c, hc⟩ := c
  simp only [isSpace, Bool.or_eq_true, Bool.and_eq_true, decide_eq_true_eq] at h
  rcases h with (((((((((h | h) | h) | h) | h) | h) | h) | h) | h) | h) | h
  all_goals first
    | (subst h; decide +revert)
    | (obtain ⟨h1, h2⟩ := h; interval_cases c <;> decide +revert)

theorem strip_eq_self {s : List CodePoint} (hhead : ∀ c ∈ s.head?, isSpace c = false)
    (hlast : ∀ c ∈ s.getLast?, isSpace c = false) : strip s = s := by
  have hdrop : s.dropWhile isSpace = s := by
    cases s with
    | nil => rfl
    | cons c s => exact List.dropWhile_cons_of_neg (by simp [hhead c rfl])
  rw [strip, hdrop, List.rdropWhile_eq_self_iff]
  intro hs
  simp [hlast _ (List.getLast?_eq_getLast_of_ne_nil hs)]

/-- A text of digits is a number when they are decimal, and not too many. -/
theorem isSome_int? {s : List CodePoint} (hs : s ≠ []) (hdigit : ∀ c ∈ s, isDigit c = true) :
    (int? s).isSome ↔ (∀ c ∈ s, (decimal? c).isSome) ∧ s.length ≤ maxStrDigits := by
  have hspace : ∀ c ∈ s, isSpace c = false := by
    intro c hc
    cases h : isSpace c with
    | false => rfl
    | true =>
      have hdigit := hdigit c hc
      rw [isDigit_of_isSpace h] at hdigit
      cases hdigit
  have hstrip : strip s = s := strip_eq_self (fun c hc => hspace c (List.mem_of_mem_head? hc))
    fun c hc => hspace c (List.mem_of_mem_getLast? hc)
  have hint : int? s = (digits? s).map Int.ofNat := by
    unfold int?
    rw [hstrip]
    split
    · cases hdigit 43 List.mem_cons_self
    · cases hdigit 45 List.mem_cons_self
    · rfl
  have hgroups : s.splitOn 95 = [s] := by
    rw [List.splitOn_eq_splitOnP]
    refine List.splitOnP_eq_singleton fun c hc => ?_
    rw [beq_eq_false_iff_ne]
    rintro rfl
    cases hdigit 95 hc
  rw [hint, Option.isSome_map, digits?, hgroups, ← isSome_mapM]
  have hne : [] ∉ [s] := by simpa using hs.symm
  cases h : s.mapM decimal? with
  | none => simp [hne, h]
  | some ds =>
    have hlen := length_of_mapM h
    by_cases hle : s.length ≤ maxStrDigits
    · simp [hne, h, hlen, hle]
    · simp [hne, h, hlen, hle, not_le.mp hle]

end Lib
