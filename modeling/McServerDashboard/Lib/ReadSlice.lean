import McServerDashboard.Lib.Bufio

/-!
# Reading up to a delimiter

* `cut`: the pieces of a list that a delimiter ends, and what is left; `cut_append`: it can be cut in parts.
* `Reader.readSlice`: a piece, or as much of it as the buffer holds.
* **`Reader.Fit.readSlice`**: what it reads does not depend on the chunks.
-/

namespace Lib

variable {β : Type*} [DecidableEq β] {d : β}

/-! ## Pieces -/

/-- The pieces that the delimiter ends, and what is left. -/
def cut (d : β) : List β → List (List β) × List β
  | [] => ([], [])
  | c :: xs =>
    if c = d then ([] :: (cut d xs).1, (cut d xs).2)
    else
      match (cut d xs).1 with
      | [] => ([], c :: (cut d xs).2)
      | l :: ls => ((c :: l) :: ls, (cut d xs).2)

theorem cut_of_notMem {l : List β} (h : d ∉ l) : cut d l = ([], l) := by
  induction l with
  | nil => rfl
  | cons c l ih =>
    rw [List.mem_cons, not_or] at h
    rw [cut, if_neg (Ne.symm h.1), ih h.2]

theorem cut_piece {l : List β} (h : d ∉ l) (xs : List β) :
    cut d (l ++ d :: xs) = (l :: (cut d xs).1, (cut d xs).2) := by
  induction l with
  | nil => exact if_pos rfl
  | cons c l ih =>
    rw [List.mem_cons, not_or] at h
    rw [List.cons_append, cut, if_neg (Ne.symm h.1), ih h.2]

/-- A list is left over, or starts with a piece. -/
theorem cut_induction {P : List β → Prop} (hrest : ∀ l, d ∉ l → P l)
    (hpiece : ∀ l xs, d ∉ l → P xs → P (l ++ d :: xs)) (xs : List β) : P xs := by
  induction h : xs.length using Nat.strongRecOn generalizing xs with
  | ind n ih =>
    by_cases hd : d ∈ xs
    · obtain ⟨l, ys, rfl, hl⟩ := List.eq_append_cons_of_mem hd
      refine hpiece l ys hl (ih _ ?_ ys rfl)
      rw [← h, List.length_append, List.length_cons]
      omega
    · exact hrest xs hd

theorem notMem_cut_snd (xs : List β) : d ∉ (cut d xs).2 := by
  induction xs using cut_induction (d := d) with
  | hrest l hl => rwa [cut_of_notMem hl]
  | hpiece l xs hl ih => rwa [cut_piece hl]

theorem cut_append (xs ys : List β) : cut d (xs ++ ys) =
    ((cut d xs).1 ++ (cut d ((cut d xs).2 ++ ys)).1, (cut d ((cut d xs).2 ++ ys)).2) := by
  induction xs using cut_induction (d := d) with
  | hrest l hl =>
    rw [cut_of_notMem hl]
    rfl
  | hpiece l xs hl ih =>
    rw [List.append_assoc, List.cons_append, cut_piece hl, cut_piece hl, ih]
    rfl

/-! ## Reading a piece -/

/-- Why a piece ends. -/
inductive Stop
  | delim
  /-- The buffer is full. -/
  | full
  | error (e : IoErr)
  deriving DecidableEq

namespace Reader

/-- `ReadSlice`: up to the delimiter, or all that is in the buffer. -/
def readSlice (d : β) (r : Reader β) : List β × Stop × Reader β :=
  if d ∈ r.buf then
    (r.buf.takeWhile (· ≠ d) ++ [d], .delim, { r with buf := (r.buf.dropWhile (· ≠ d)).tail })
  else if _hfull : r.size ≤ r.buf.length then (r.buf, .full, { r with buf := [] })
  else
    match _h : r.source.read (r.size - r.buf.length) with
    | .error e => (r.buf, .error e, { r with buf := [] })
    | .ok (got, source) => readSlice d { r with buf := r.buf ++ got, source }
termination_by r.size - r.buf.length
decreasing_by
  have := Source.length_of_read _h (by omega)
  rw [List.length_append]
  omega

theorem takeWhile_piece {l : List β} (h : d ∉ l) (xs : List β) :
    (l ++ d :: xs).takeWhile (· ≠ d) = l ∧ (l ++ d :: xs).dropWhile (· ≠ d) = d :: xs := by
  have hl : ∀ c ∈ l, decide (c ≠ d) = true := fun c hc => decide_eq_true fun heq => h (heq ▸ hc)
  refine ⟨?_, ?_⟩
  · rw [List.takeWhile_append_of_pos hl, List.takeWhile_cons_of_neg (by simp), List.append_nil]
  · rw [List.dropWhile_append_of_pos hl, List.dropWhile_cons_of_neg (by simp)]

/-- A reader that reads what there is. -/
structure Fit (n : ℕ) (r : Reader β) : Prop where
  sound : r.source.Sound
  size : r.size = n
  buf : r.buf.length ≤ n

variable {n : ℕ} {r r' : Reader β} {chunk : List β} {stop : Stop}

theorem bytes_of_readSlice (h : r.readSlice d = (chunk, stop, r')) :
    r.bytes = chunk ++ r'.bytes ∧ ((∀ e, stop ≠ .error e) → chunk ≠ []) := by
  fun_induction readSlice d r with
  | case1 r hd =>
    cases h
    obtain ⟨l, xs, hsplit, hl⟩ := List.eq_append_cons_of_mem hd
    obtain ⟨htake, hdrop⟩ := takeWhile_piece hl xs
    refine ⟨?_, fun _ => List.append_ne_nil_of_right_ne_nil _ (List.cons_ne_nil _ _)⟩
    rw [bytes, bytes, hsplit, htake, hdrop]
    simp
  | case2 r hd hfull =>
    cases h
    exact ⟨rfl, fun _ => List.ne_nil_of_length_pos (Nat.lt_of_lt_of_le r.size_pos hfull)⟩
  | case3 r hd hfull e hread =>
    cases h
    exact ⟨rfl, fun hstop => absurd rfl (hstop e)⟩
  | case4 r hd hfull got source hread ih =>
    obtain ⟨hbytes, hne⟩ := ih h
    refine ⟨?_, hne⟩
    rw [← hbytes, bytes, bytes, Source.rest_of_read hread, List.append_assoc]

/-- What is read of the bytes `xs`: up to the delimiter, as many as the buffer holds, or all. -/
inductive Sliced (d : β) (n : ℕ) : List β → List β → Stop → List β → Prop
  | delim {l ys : List β} : d ∉ l → l.length < n → Sliced d n (l ++ d :: ys) (l ++ [d]) .delim ys
  | full {l ys : List β} : d ∉ l → l.length = n → Sliced d n (l ++ ys) l .full ys
  | eof {l : List β} : d ∉ l → l.length < n → Sliced d n l l (.error .eof) []

/-- **The chunks do not matter**: a piece that fits into the buffer is read, or the buffer is. -/
theorem Fit.readSlice (h : r.Fit n) (d : β) :
    ∃ chunk stop r', r.readSlice d = (chunk, stop, r') ∧ r'.Fit n ∧ Sliced d n r.bytes chunk stop r'.bytes := by
  fun_induction Reader.readSlice d r with
  | case1 r hd =>
    obtain ⟨l, xs, hsplit, hl⟩ := List.eq_append_cons_of_mem hd
    obtain ⟨htake, hdrop⟩ := takeWhile_piece hl xs
    have hlen := h.buf
    rw [hsplit, List.length_append, List.length_cons] at hlen
    refine ⟨_, _, _, rfl, ⟨h.sound, h.size, ?_⟩, ?_⟩
    · rw [hsplit, hdrop, List.tail_cons]
      show xs.length ≤ n
      omega
    · rw [bytes, bytes, hsplit, htake, hdrop, List.append_assoc, List.cons_append]
      exact .delim hl (by omega)
  | case2 r hd hfull =>
    refine ⟨_, _, _, rfl, ⟨h.sound, h.size, Nat.zero_le n⟩, .full hd ?_⟩
    have hle := h.buf
    have hsize := h.size
    omega
  | case3 r hd hfull e hread =>
    have hrest : r.source.rest = [] := by
      by_contra hne
      obtain ⟨got, c', hok⟩ := h.sound.read (n := r.size - r.buf.length) hne
      rw [hread] at hok
      cases hok
    obtain rfl : e = .eof := by
      rw [Source.read, hrest] at hread
      split at hread
      · next hnone => exact absurd hnone (h.sound _)
      · exact (Except.error.inj hread).symm
      · next hcons => cases hcons
    refine ⟨_, _, _, rfl, ⟨h.sound, h.size, Nat.zero_le n⟩, ?_⟩
    rw [bytes, bytes, hrest, List.append_nil, List.append_nil]
    exact .eof hd (by have hsize := h.size; omega)
  | case4 r hd hfull got source hread ih =>
    have hlen := Source.length_of_read hread (by omega)
    have hsize := h.size
    obtain ⟨chunk, stop, r', hslice, hfit, hsliced⟩ := ih ⟨h.sound.of_read hread, h.size, by
      rw [List.length_append]
      omega⟩
    refine ⟨chunk, stop, r', hslice, hfit, ?_⟩
    rwa [bytes, Source.rest_of_read hread, ← List.append_assoc]

end Reader

end Lib
