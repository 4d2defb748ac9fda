import Mathlib.Data.List.Basic

/-!
# Frames on a stream

Messages are sent as frames one after the other, and the stream delivers their bytes in pieces of any size. The reader
of a frame asks for so many bytes more, until it is whole.

* `Framing`: the frames of messages, and what a reader makes of a part of one.
* `Carries`: the bytes read of the present frame and those on the way, and the messages that they make.
* **`Carries.take`**, **`Carries.whole`**: however it is cut, the stream gives the messages in order.
-/

namespace Lib

/-- What a reader makes of the bytes it has of a frame. -/
inductive Scan (M : Type*)
  /-- So many bytes more, or fewer if they are not there. -/
  | more (n : ℕ)
  | refused
  | whole (m : M)

structure Framing (β M : Type*) where
  encode : M → List β
  scan : List β → Scan M
  encode_ne_nil : ∀ m, encode m ≠ []
  scan_part : ∀ m got rest, got ++ rest = encode m → rest ≠ [] →
    scan got = .refused ∨ ∃ n, scan got = .more n ∧ n ≤ rest.length
  scan_encode : ∀ m, scan (encode m) = .refused ∨ scan (encode m) = .whole m

variable {β M : Type*} {F : Framing β M} {got wire : List β} {ms : List M}

/-- `got` has been read of the first of the messages, and the rest of them is on the way. -/
structure Carries (F : Framing β M) (got wire : List β) (ms : List M) : Prop where
  bytes : got ++ wire = ms.flatMap F.encode
  part : ∀ m ∈ ms.head?, got <+: F.encode m

namespace Carries

theorem nil : Carries F [] [] [] := ⟨rfl, nofun⟩

theorem of_nil (h : Carries F got wire []) : got = [] ∧ wire = [] := List.append_eq_nil_iff.mp h.bytes

/-- A message is sent. -/
theorem emit (h : Carries F got wire ms) (m : M) : Carries F got (wire ++ F.encode m) (ms ++ [m]) := by
  refine ⟨?_, ?_⟩
  · rw [← List.append_assoc, h.bytes, List.flatMap_append, List.flatMap_singleton]
  · cases ms with
    | nil =>
      rw [h.of_nil.1]
      exact fun m' _ => List.nil_prefix
    | cons m' ms => exact h.part

/-- What is left of the first message. -/
theorem rest_of_cons {m : M} (h : Carries F got wire (m :: ms)) :
    ∃ rest, got ++ rest = F.encode m ∧ wire = rest ++ ms.flatMap F.encode := by
  obtain ⟨rest, hrest⟩ := h.part m rfl
  have hbytes : got ++ wire = got ++ (rest ++ ms.flatMap F.encode) := by
    rw [h.bytes, ← List.append_assoc, hrest, List.flatMap_cons]
  exact ⟨rest, hrest, List.append_cancel_left hbytes⟩

/-- **A piece is read**, of the bytes that the reader has asked for. -/
theorem take {piece rest : List β} {n : ℕ} (h : Carries F got (piece ++ rest) ms) (hscan : F.scan got = .more n)
    (hpiece : piece.length ≤ n) : Carries F (got ++ piece) rest ms := by
  refine ⟨by rw [List.append_assoc, h.bytes], ?_⟩
  cases ms with
  | nil => nofun
  | cons m ms =>
    rintro m' ⟨⟩
    obtain ⟨left, hleft, hwire⟩ := h.rest_of_cons
    have hne : left ≠ [] := by
      rintro rfl
      rw [List.append_nil] at hleft
      rcases F.scan_encode m with hs | hs <;> rw [← hleft, hscan] at hs <;> cases hs
    rcases F.scan_part m got left hleft hne with hs | ⟨n', hs, hn⟩
    · rw [hscan] at hs
      cases hs
    · rw [hscan] at hs
      cases hs
      have hpre : piece <+: left :=
        List.prefix_of_prefix_length_le ⟨rest, hwire⟩ (List.prefix_append _ _) (Nat.le_trans hpiece hn)
      rw [← hleft]
      exact (List.prefix_append_right_inj got).mpr hpre

/-- **A frame is whole**: it is the first of the messages. -/
theorem whole {m : M} (h : Carries F got wire ms) (hscan : F.scan got = .whole m) :
    ∃ ms', ms = m :: ms' ∧ Carries F [] wire ms' := by
  cases ms with
  | nil =>
    rw [h.of_nil.1] at hscan
    rcases F.scan_part m [] (F.encode m) rfl (F.encode_ne_nil m) with hs | ⟨n, hs, -⟩ <;> rw [hscan] at hs <;> cases hs
  | cons m' ms =>
    obtain ⟨left, hleft, hwire⟩ := h.rest_of_cons
    by_cases hne : left = []
    · rw [hne, List.append_nil] at hleft
      rw [hne, List.nil_append] at hwire
      rcases F.scan_encode m' with hs | hs <;> rw [← hleft, hscan] at hs <;> cases hs
      exact ⟨ms, rfl, hwire, fun m'' _ => List.nil_prefix⟩
    · rcases F.scan_part m' got left hleft hne with hs | ⟨n, hs, -⟩ <;> rw [hscan] at hs <;> cases hs

end Carries

end Lib
