import McServerDashboard.Lib.Characters
import McServerDashboard.Lib.Utf8

/-!
# Texts as Python reads them

* `decodeReplace`: UTF-8 with a replacement for what is none.
* `splitlines`, `partition`, `rstrip`: the methods of strings.
-/

namespace Lib

open Lib.Properties

/-- The trail bytes that may follow a lead byte first. -/
def secondByte (lead : UInt8) : ℕ × ℕ :=
  if lead = 0xE0 then (0xA0, 0xBF) else if lead = 0xED then (0x80, 0x9F) else if lead = 0xF0 then (0x90, 0xBF)
  else if lead = 0xF4 then (0x80, 0x8F) else (0x80, 0xBF)

/-- How many trail bytes a lead byte announces; none if it is no lead byte. -/
def announced (lead : UInt8) : ℕ :=
  if 0xC2 ≤ lead ∧ lead ≤ 0xDF then 1 else if 0xE0 ≤ lead ∧ lead ≤ 0xEF then 2
  else if 0xF0 ≤ lead ∧ lead ≤ 0xF4 then 3 else 0

/-- The trail bytes of a sequence that are there. -/
def trailBytes (range : ℕ × ℕ) : ℕ → List UInt8 → List UInt8
  | n + 1, b :: s => if range.1 ≤ b.toNat ∧ b.toNat ≤ range.2 then b :: trailBytes (0x80, 0xBF) n s else []
  | _, _ => []

/-- `bytes.decode("utf-8", errors="replace")`: a replacement for each broken sequence. -/
def decodeReplace : List UInt8 → List CodePoint
  | [] => []
  | b :: s =>
    let trail := trailBytes (secondByte b) (announced b) s
    if b < 0x80 then chr b.toNat :: decodeReplace s
    else if announced b ≠ 0 ∧ trail.length = announced b then
      chr (merge b.toNat (trail.map (·.toNat))) :: decodeReplace (s.drop trail.length)
    else chr 0xFFFD :: decodeReplace (s.drop trail.length)
termination_by s => s.length
decreasing_by
  all_goals
    simp only [List.length_drop, List.length_cons]
    omega

/-- A character that ends a line. -/
def isLineBreak (c : CodePoint) : Bool :=
  (10 ≤ c.val && c.val ≤ 13) || (28 ≤ c.val && c.val ≤ 30) || c.val = 0x85 || c.val = 0x2028 || c.val = 0x2029

/-- `str.splitlines`. -/
def splitlines (s : List CodePoint) : List (List CodePoint) :=
  match _h : s.dropWhile (!isLineBreak ·) with
  | [] => if s = [] then [] else [s]
  | c :: r => s.takeWhile (!isLineBreak ·) :: splitlines (if c = 13 ∧ r.head? = some 10 then r.tail else r)
termination_by s.length
decreasing_by
  have hle := (List.dropWhile_suffix (!isLineBreak ·) (l := s)).length_le
  rw [_h, List.length_cons] at hle
  split_ifs
  · rw [List.length_tail]
    omega
  · omega

/-- `str.partition` at a character that is there: what stands before it and after it. -/
def partition (c : CodePoint) (s : List CodePoint) : List CodePoint × List CodePoint :=
  (s.takeWhile (· ≠ c), (s.dropWhile (· ≠ c)).tail)

/-- `str.rstrip`. -/
def rstrip (s : List CodePoint) : List CodePoint := s.rdropWhile isSpace

end Lib
