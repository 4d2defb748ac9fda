import McServerDashboard.Lib.Patterns

/-!
# UTF-8

* `utf8`: the bytes of a code point; `validUtf8`: the texts that are UTF-8.
* `utf8_lead`: a lead byte, and the trail bytes that it announces; `utf8_wide`: nothing but ASCII has an ASCII byte.
-/

namespace Lib

open Lib.Pattern

/-- The bytes of a code point. -/
def utf8 (n : ℕ) : List UInt8 :=
  if n < 0x80 then [.ofNat n]
  else if n < 0x800 then [.ofNat (0xC0 + n / 64), .ofNat (0x80 + n % 64)]
  else if n < 0x10000 then [.ofNat (0xE0 + n / 4096), .ofNat (0x80 + n / 64 % 64), .ofNat (0x80 + n % 64)]
  else [.ofNat (0xF0 + n / 262144), .ofNat (0x80 + n / 4096 % 64), .ofNat (0x80 + n / 64 % 64), .ofNat (0x80 + n % 64)]

def between (a b : UInt8) : Pattern UInt8 := one fun c => a ≤ c && c ≤ b

/-- One character: no overlong sequence, no surrogate, nothing above U+10FFFF. -/
def character : Pattern UInt8 :=
  let tail := between 0x80 0xBF
  [between 0x00 0x7F,
   seq (between 0xC2 0xDF) tail,
   seq (between 0xE0 0xE0) (seq (between 0xA0 0xBF) tail),
   seq (between 0xE1 0xEC) (seq tail tail),
   seq (between 0xED 0xED) (seq (between 0x80 0x9F) tail),
   seq (between 0xEE 0xEF) (seq tail tail),
   seq (between 0xF0 0xF0) (seq (between 0x90 0xBF) (seq tail tail)),
   seq (between 0xF1 0xF3) (seq tail (seq tail tail)),
   seq (between 0xF4 0xF4) (seq (between 0x80 0x8F) (seq tail tail))].foldr alt fun _ => none

/-- Characters, and nothing else. -/
def validUtf8 (s : List UInt8) : Bool := star character s = []

/-! ## Lead and trail bytes -/

/-- The trail bytes that a lead byte announces. -/
def trails (n : ℕ) : ℕ :=
  if 0xC0 ≤ n ∧ n < 0xE0 then 1 else if 0xE0 ≤ n ∧ n < 0xF0 then 2 else if 0xF0 ≤ n ∧ n < 0xF8 then 3 else 0

def isTrail (n : ℕ) : Bool := 0x80 ≤ n && n < 0xC0

/-- The code point of a sequence. -/
def merge (lead : ℕ) (ts : List ℕ) : ℕ :=
  ts.foldl (fun n t => n * 64 + (t - 0x80)) (lead - (if trails lead = 1 then 0xC0 else if trails lead = 2 then 0xE0 else 0xF0))

variable {n : ℕ}

theorem toNat_ofNat {k : ℕ} (h : k < 256) : (UInt8.ofNat k).toNat = k := Nat.mod_eq_of_lt h

theorem utf8_single (h : n < 0x80) : utf8 n = [.ofNat n] := if_pos h

/-- A lead byte, and the trail bytes that it announces. -/
theorem utf8_lead (hn : n < 0x110000) (h : 0x80 ≤ n) : ∃ l ts, utf8 n = .ofNat l :: ts.map .ofNat ∧
    (0xC0 ≤ l ∧ l < 0xF8) ∧ trails l = ts.length ∧ ts ≠ [] ∧ (∀ x ∈ ts, isTrail x = true) ∧ merge l ts = n := by
  have hlead (l k : ℕ) (hl : (0xC0 ≤ l ∧ l < 0xE0 ∧ k = 1) ∨ (0xE0 ≤ l ∧ l < 0xF0 ∧ k = 2) ∨
      0xF0 ≤ l ∧ l < 0xF8 ∧ k = 3) : trails l = k := by
    simp only [trails]
    split_ifs <;> omega
  have htrail (k : ℕ) : isTrail (0x80 + k % 64) = true := by
    simp only [isTrail, Bool.and_eq_true, decide_eq_true_eq]
    omega
  simp only [utf8, if_neg (Nat.not_lt.mpr h)]
  split_ifs with h₂ h₃
  · have hl := hlead (0xC0 + n / 64) 1 (by omega)
    refine ⟨0xC0 + n / 64, [0x80 + n % 64], rfl, by omega, hl, by simp, by simp [htrail], ?_⟩
    simp only [merge, hl, List.foldl_cons, List.foldl_nil, if_true]
    omega
  · have hl := hlead (0xE0 + n / 4096) 2 (by omega)
    refine ⟨0xE0 + n / 4096, [0x80 + n / 64 % 64, 0x80 + n % 64], rfl, by omega, hl, by simp, by simp [htrail], ?_⟩
    simp only [merge, hl, List.foldl_cons, List.foldl_nil, Nat.reduceEqDiff, if_false, if_true]
    omega
  · have hl := hlead (0xF0 + n / 262144) 3 (by omega)
    refine ⟨0xF0 + n / 262144, [0x80 + n / 4096 % 64, 0x80 + n / 64 % 64, 0x80 + n % 64], rfl, by omega, hl, by simp,
      by simp [htrail], ?_⟩
    simp only [merge, hl, List.foldl_cons, List.foldl_nil, Nat.reduceEqDiff, if_false]
    omega

/-- Nothing but ASCII has an ASCII byte. -/
theorem utf8_wide (hn : n < 0x110000) (h : 0x80 ≤ n) : ∀ x ∈ utf8 n, 0x80 ≤ x.toNat := by
  obtain ⟨l, ts, hutf8, hl, -, -, htrail, -⟩ := utf8_lead hn h
  rw [hutf8]
  intro x hx
  rcases List.mem_cons.mp hx with rfl | hx
  · rw [toNat_ofNat (by omega)]
    omega
  · obtain ⟨k, hk, rfl⟩ := List.mem_map.mp hx
    have := htrail k hk
    simp only [isTrail, Bool.and_eq_true, decide_eq_true_eq] at this
    rw [toNat_ofNat (by omega)]
    exact this.1

end Lib
