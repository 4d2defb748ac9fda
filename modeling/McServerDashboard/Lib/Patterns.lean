import Mathlib.Data.List.TakeWhile
import Mathlib.Data.Nat.Notation
import Mathlib.Tactic.SplitIfs

/-!
# Patterns with possessive quantifiers

A regular expression whose quantifiers never give anything back is a function: what is left of the input
after the match at its start. A reader takes such pieces off the input until nothing is left.

* `Pattern`, `star`, `opt`, `alt`: patterns; `upTo`: the text of a match.
* `readAll`: the pieces of an input; `sub`: a substitution.
-/

namespace Lib

variable {α β : Type*}

/-- What is left of the input after the match at its start. -/
abbrev Pattern (α : Type*) := List α → Option (List α)

namespace Pattern

/-- One item of a class. -/
def one (p : α → Bool) : Pattern α
  | a :: s => if p a then some s else none
  | [] => none

/-- The end of the input. -/
def eof : Pattern α
  | [] => some []
  | _ :: _ => none

def seq (f g : Pattern α) : Pattern α := fun s => (f s).bind g

def alt (f g : Pattern α) : Pattern α := fun s => (f s).or (g s)

/-- `f?+`, which always matches. -/
def opt (f : Pattern α) (s : List α) : List α := (f s).getD s

def many (f : Pattern α) : ℕ → List α → List α
  | 0, s => s
  | n + 1, s =>
    match f s with
    | some r => if r.length < s.length then many f n r else s
    | none => s

/-- `f*+`, which always matches. -/
def star (f : Pattern α) (s : List α) : List α := many f s.length s

/-- `p++` of a class. -/
def plus (p : α → Bool) : Pattern α := fun s => (one p s).map (star (one p))

/-- The text of a match. -/
def upTo (s r : List α) : List α := s.take (s.length - r.length)

variable {f g : Pattern α} {p : α → Bool} {s r t : List α} {m n : ℕ}

@[simp] theorem many_zero : many f 0 s = s := rfl

theorem many_succ : many f (n + 1) s =
    match f s with
    | some r => if r.length < s.length then many f n r else s
    | none => s :=
  rfl

theorem one_cons {a : α} : one p (a :: s) = if p a then some s else none := rfl

theorem one_length (h : one p s = some r) : r.length + 1 = s.length := by
  cases s with
  | nil => cases h
  | cons a s =>
    rw [one_cons] at h
    split_ifs at h
    rw [Option.some.inj h, List.length_cons]

theorem seq_one_nil : seq (one p) g [] = none := rfl

theorem seq_one_cons {a : α} : seq (one p) g (a :: s) = if p a then g s else none := by
  by_cases ha : p a = true <;> simp [seq, one, ha]

theorem seq_one_length (hg : ∀ s r, g s = some r → r.length ≤ s.length) (h : seq (one p) g s = some r) :
    r.length ≤ s.length := by
  obtain ⟨t, ht, hr⟩ := Option.bind_eq_some_iff.mp h
  have := one_length ht
  have := hg t r hr
  omega

theorem opt_one_length : (opt (one p) s).length ≤ s.length := by
  rw [opt]
  cases h : one p s with
  | none => exact Nat.le_refl _
  | some r =>
    have := one_length h
    rw [Option.getD_some]
    omega

theorem many_eq (hm : s.length ≤ m) (hn : s.length ≤ n) : many f m s = many f n s := by
  induction m generalizing n s with
  | zero =>
    obtain rfl := List.eq_nil_of_length_eq_zero (Nat.le_zero.mp hm)
    cases n with
    | zero => rfl
    | succ n => cases hf : f ([] : List α) <;> simp [many_succ, hf]
  | succ m ih =>
    cases n with
    | zero =>
      obtain rfl := List.eq_nil_of_length_eq_zero (Nat.le_zero.mp hn)
      cases hf : f ([] : List α) <;> simp [many_succ, hf]
    | succ n =>
      rw [many_succ, many_succ]
      cases hf : f s with
      | none => rfl
      | some r =>
        by_cases hr : r.length < s.length
        · simp only [hr, if_true]
          exact ih (by omega) (by omega)
        · simp [hr]

/-- The star goes on after a match that takes something. -/
theorem star_some (h : f s = some r) (hr : r.length < s.length) : star f s = star f r := by
  cases s with
  | nil => exact absurd hr (Nat.not_lt_zero _)
  | cons a s =>
    simp only [star, List.length_cons, many_succ, h, List.length_cons] at hr ⊢
    simp only [hr, if_true]
    exact many_eq (by omega) (Nat.le_refl _)

theorem star_none (h : f s = none) : star f s = s := by
  cases s <;> simp [star, many_succ, h]

theorem star_one : star (one p) s = s.dropWhile p := by
  induction s with
  | nil => rfl
  | cons a s ih =>
    by_cases ha : p a = true
    · rw [star_some (r := s) (by simp [one, ha]) (by simp), ih, List.dropWhile_cons_of_pos ha]
    · rw [star_none (by simp [one, ha]), List.dropWhile_cons_of_neg ha]

/-- A run that an iteration takes may be taken item by item. -/
theorem star_alt_plus {a : α} (ha : p a = true) : star (alt (plus p) g) (a :: s) = star (alt (plus p) g) s := by
  have hplus (b : α) (t : List α) (hb : p b = true) : alt (plus p) g (b :: t) = some (t.dropWhile p) := by
    simp [alt, plus, one, hb, star_one]
  have hlen (t : List α) : (t.dropWhile p).length ≤ t.length := List.length_dropWhile_le p t
  rw [star_some (hplus a s ha) (Nat.lt_succ_of_le (hlen s))]
  cases s with
  | nil => rfl
  | cons b s =>
    by_cases hb : p b = true
    · rw [List.dropWhile_cons_of_pos hb]
      exact (star_some (hplus b s hb) (Nat.lt_succ_of_le (hlen s))).symm
    · rw [List.dropWhile_cons_of_neg hb]

theorem upTo_append : upTo (t ++ r) r = t := by simp [upTo]

end Pattern

/-! ## Readers -/

def pieces (read : List α → β × List α) : ℕ → List α → List β
  | n + 1, a :: s => (read (a :: s)).1 :: pieces read n (read (a :: s)).2
  | _, _ => []

/-- The pieces of the input, one after the other. -/
def readAll (read : List α → β × List α) (s : List α) : List β := pieces read s.length s

/-- Each piece takes something off the input. -/
def Consumes (read : List α → β × List α) : Prop := ∀ s, s ≠ [] → (read s).2.length < s.length

/-- Each match of a pattern is replaced, every other item is translated. -/
def sub (find : List α → Option (List β × List α)) (keep : α → β) (s : List α) : List β :=
  (readAll (fun s =>
    match find s, s with
    | some found, _ => found
    | none, a :: r => ([keep a], r)
    | none, [] => ([], [])) s).flatten

section ReadAll

variable {read : List α → β × List α} {s r : List α} {m n : ℕ}

theorem pieces_eq (h : Consumes read) (hm : s.length ≤ m) (hn : s.length ≤ n) :
    pieces read m s = pieces read n s := by
  induction m generalizing n s with
  | zero =>
    obtain rfl := List.eq_nil_of_length_eq_zero (Nat.le_zero.mp hm)
    cases n <;> rfl
  | succ m ih =>
    cases s with
    | nil => cases n <;> rfl
    | cons a s =>
      cases n with
      | zero => exact absurd hn (Nat.not_succ_le_zero _)
      | succ n =>
        have := h (a :: s) (List.cons_ne_nil a s)
        simp only [pieces]
        simp only [List.length_cons] at hm hn this
        rw [ih (n := n) (by omega) (by omega)]

theorem readAll_eq (h : Consumes read) (hs : s ≠ []) : readAll read s = (read s).1 :: readAll read (read s).2 := by
  cases s with
  | nil => exact absurd rfl hs
  | cons a s =>
    have := h (a :: s) hs
    simp only [readAll, List.length_cons, pieces]
    rw [pieces_eq h (by simp only [List.length_cons] at this; omega) (Nat.le_refl _)]

/-- What holds at the end of the input, and of an input if it holds of what is left after its first piece. -/
theorem read_induction {P : List α → Prop} (h : Consumes read) (hnil : P [])
    (hread : ∀ s, s ≠ [] → P (read s).2 → P s) (s : List α) : P s := by
  induction hn : s.length using Nat.strong_induction_on generalizing s with
  | _ n ih =>
    by_cases hs : s = []
    · exact hs ▸ hnil
    · exact hread s hs (ih _ (hn ▸ h s hs) _ rfl)

end ReadAll

section Sub

variable {find : List α → Option (List β × List α)} {keep : α → β} {a : α} {s r : List α} {out : List β}

/-- A match takes something. -/
def Finds (find : List α → Option (List β × List α)) : Prop :=
  ∀ s out r, find s = some (out, r) → s ≠ [] → r.length < s.length

theorem sub_consumes (h : Finds find) : Consumes fun s : List α =>
    match find s, s with
    | some found, _ => found
    | none, a :: r => ([keep a], r)
    | none, [] => ([], []) := by
  intro s hs
  dsimp only
  split
  · rename_i found hf
    exact h _ found.1 found.2 hf hs
  · simp
  · exact absurd rfl hs

theorem sub_some (h : Finds find) (hs : s ≠ []) (hf : find s = some (out, r)) :
    sub find keep s = out ++ sub find keep r := by
  rw [sub, readAll_eq (sub_consumes h) hs]
  simp [sub, hf]

theorem sub_none (h : Finds find) (hf : find (a :: s) = none) :
    sub find keep (a :: s) = keep a :: sub find keep s := by
  rw [sub, readAll_eq (sub_consumes h) (List.cons_ne_nil a s)]
  simp [sub, hf]

end Sub

end Lib
