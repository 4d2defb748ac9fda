import McServerDashboard.Lib.Tar
import McServerDashboard.Lib.Writes

/-!
# Streams of tar members

A tar archive behind a codec of headers: a header, the body it declares padded to whole blocks, and so on to the
trailer. The codec says what the bytes of a header are and finds a header again in front of a stream.

* `Writer`: writes headers and bodies, and checks the one against the other; `Codec.next` reads a member.
* `blocks`: the bytes of members whose bodies are as long as declared.
* **`Settled.close`**: what a writer has written is the blocks of its members; **`members_blocks`**: a reader finds them.
-/

namespace Lib.Archive

open Lib.Tar

/-- How headers of type `H` are spelled, whose bodies have the sizes `size`. -/
structure Codec (H : Type*) (size : H → ℕ) where
  /-- `none` where the header is refused. -/
  encode : H → Option Bytes
  /-- The header in front of a stream and what follows it, or the end of the archive; `none` where there is neither. -/
  decode : Bytes → Option (Option (H × Bytes))
  decode_encode : ∀ h b rest, encode h = some b → decode (b ++ rest) = some (some (h, rest))
  decode_trailer : decode (zeros (2 * blocksize)) = some none
  decode_lt : ∀ s h rest, decode s = some (some (h, rest)) → rest.length < s.length

inductive Error
  /-- The body of the last member is shorter than declared. -/
  | missed
  /-- And longer. -/
  | tooLong
  | refused
  | malformed
  | unexpectedEOF
  deriving DecidableEq

variable {H : Type*} {size : H → ℕ} (c : Codec H size)

/-! ## Writing -/

structure Writer where
  out : Bytes
  /-- What is left of the body. -/
  left : ℕ
  /-- The padding that follows it. -/
  pad : ℕ

namespace Writer

def new : Writer := ⟨[], 0, 0⟩

def writeHeader (w : Writer) (h : H) : Except Error Writer :=
  if w.left ≠ 0 then .error .missed
  else match c.encode h with
    | none => .error .refused
    | some b => .ok ⟨w.out ++ zeros w.pad ++ b, size h, padding (size h)⟩

def write (w : Writer) (d : Bytes) : Except Error Writer :=
  if d.length ≤ w.left then .ok { w with out := w.out ++ d, left := w.left - d.length } else .error .tooLong

/-- The archive. -/
def close (w : Writer) : Except Error Bytes :=
  if w.left ≠ 0 then .error .missed else .ok (w.out ++ zeros w.pad ++ zeros (2 * blocksize))

/-- Members, one after the other. -/
def writeAll (w : Writer) : List (H × Bytes) → Except Error Writer
  | [] => .ok w
  | (h, body) :: ms => do
    let w ← w.writeHeader c h
    let w ← w.write body
    Writer.writeAll w ms

variable {w : Writer} {d e : Bytes} {ms ms' : List (H × Bytes)}

/-- A body may be written in pieces. -/
theorem write_append (h : (d ++ e).length ≤ w.left) : (w.write d >>= fun w => w.write e) = w.write (d ++ e) := by
  rw [List.length_append] at h
  have hd : d.length ≤ w.left := by omega
  rw [write, if_pos hd]
  change Writer.write _ e = _
  rw [write, write, if_pos (by simp only; omega), if_pos (by rw [List.length_append]; exact h), List.append_assoc,
    List.length_append, Nat.sub_sub]

theorem writeAll_append : w.writeAll c (ms ++ ms') = w.writeAll c ms >>= fun w => w.writeAll c ms' := by
  induction ms generalizing w with
  | nil => rfl
  | cons m ms ih =>
    obtain ⟨h, body⟩ := m
    simp only [List.cons_append, writeAll, ih, bind_assoc]

end Writer

/-! ## Members and their blocks -/

/-- The header is one that the codec spells, and the body is as long as it declares. -/
def Fits (m : H × Bytes) : Prop := (c.encode m.1).isSome ∧ m.2.length = size m.1

/-- The blocks of a member. -/
def block (m : H × Bytes) : Bytes := (c.encode m.1).getD [] ++ m.2 ++ zeros (padding (size m.1))

def blocks (ms : List (H × Bytes)) : Bytes := ms.flatMap (block c)

variable {c} {w w' : Writer} {ms : List (H × Bytes)} {m : H × Bytes} {h : H} {body d rest out : Bytes}

theorem blocks_append {ms' : List (H × Bytes)} : blocks c (ms ++ ms') = blocks c ms ++ blocks c ms' := by
  rw [blocks, List.flatMap_append]
  rfl

theorem blocks_singleton : blocks c [m] = block c m := by
  rw [blocks, List.flatMap_singleton]

/-- The writer is between members, and has written `ms`. -/
structure Settled (c : Codec H size) (w : Writer) (ms : List (H × Bytes)) : Prop where
  left : w.left = 0
  out : w.out ++ zeros w.pad = blocks c ms
  fits : ∀ m ∈ ms, Fits c m

/-- After `ms` it has written the header `h`, and `body` behind it. -/
structure Writing (c : Codec H size) (w : Writer) (ms : List (H × Bytes)) (h : H) (body : Bytes) : Prop where
  accepted : (c.encode h).isSome
  left : w.left + body.length = size h
  pad : w.pad = padding (size h)
  out : w.out = blocks c ms ++ (c.encode h).getD [] ++ body
  fits : ∀ m ∈ ms, Fits c m

theorem settled_new : Settled c .new [] := ⟨rfl, rfl, fun _ h => by cases h⟩

theorem Settled.writeHeader (hw : Settled c w ms) (hok : w.writeHeader c h = .ok w') : Writing c w' ms h [] := by
  unfold Writer.writeHeader at hok
  rw [if_neg (not_not_intro hw.left)] at hok
  split at hok
  · cases hok
  · next b hb =>
    cases hok
    exact ⟨by rw [hb]; rfl, rfl, rfl, by rw [hw.out, hb, List.append_nil]; rfl, hw.fits⟩

theorem Writing.write (hw : Writing c w ms h body) (hok : w.write d = .ok w') : Writing c w' ms h (body ++ d) := by
  unfold Writer.write at hok
  split_ifs at hok with hd
  cases hok
  refine ⟨hw.accepted, ?_, hw.pad, ?_, hw.fits⟩
  · have := hw.left
    rw [List.length_append]
    simp only
    omega
  · simp only [hw.out, List.append_assoc]

theorem Writing.settled (hw : Writing c w ms h body) (hleft : w.left = 0) : Settled c w (ms ++ [(h, body)]) := by
  refine ⟨hleft, ?_, fun m hm => ?_⟩
  · rw [hw.out, hw.pad, blocks_append, blocks_singleton, block]
    simp only [List.append_assoc]
  · rcases List.mem_append.mp hm with hm | hm
    · exact hw.fits m hm
    · obtain rfl := List.mem_singleton.mp hm
      have := hw.left
      exact ⟨hw.accepted, by simp only; omega⟩

/-- **The archive is the blocks of the members, and the trailer.** -/
theorem Settled.close (hw : Settled c w ms) (hok : w.close = .ok out) : out = blocks c ms ++ zeros (2 * blocksize) := by
  unfold Writer.close at hok
  rw [if_neg (not_not_intro hw.left)] at hok
  cases hok
  rw [hw.out]

theorem Settled.writeAll {ms' : List (H × Bytes)} (hw : Settled c w ms) (hok : w.writeAll c ms' = .ok w')
    (hsize : ∀ m ∈ ms', m.2.length = size m.1) : Settled c w' (ms ++ ms') := by
  induction ms' generalizing w ms with
  | nil =>
    cases hok
    rwa [List.append_nil]
  | cons m ms' ih =>
    obtain ⟨h, body⟩ := m
    rw [Writer.writeAll] at hok
    obtain ⟨w1, h1, hok⟩ := ok_of_bind hok
    obtain ⟨w2, h2, hok⟩ := ok_of_bind hok
    have hwriting := (hw.writeHeader h1).write h2
    rw [List.nil_append] at hwriting
    have hleft := hwriting.left
    have hm := hsize _ List.mem_cons_self
    have hnext := ih (hwriting.settled (by simp only at hm; omega)) hok fun m hm => hsize m (List.mem_cons_of_mem _ hm)
    rwa [List.append_assoc, List.singleton_append] at hnext

/-- Members whose headers are all accepted are written. -/
theorem exists_writeAll (hleft : w.left = 0) (hms : ∀ m ∈ ms, Fits c m) :
    ∃ w', w.writeAll c ms = .ok w' ∧ w'.left = 0 := by
  induction ms generalizing w with
  | nil => exact ⟨w, rfl, hleft⟩
  | cons m ms ih =>
    obtain ⟨h, body⟩ := m
    obtain ⟨haccepted, hsize⟩ := hms _ List.mem_cons_self
    obtain ⟨b, hb⟩ := Option.isSome_iff_exists.mp haccepted
    simp only at hb hsize
    have h1 : w.writeHeader c h = .ok ⟨w.out ++ zeros w.pad ++ b, size h, padding (size h)⟩ := by
      rw [Writer.writeHeader, if_neg (not_not_intro hleft), hb]
    rw [Writer.writeAll, h1]
    simp only [bind, Except.bind, Writer.write, hsize, Nat.le_refl, if_true, Nat.sub_self]
    exact ih rfl fun m hm => hms m (List.mem_cons_of_mem _ hm)

theorem exists_close (hleft : w.left = 0) : ∃ out, w.close = .ok out :=
  ⟨_, by rw [Writer.close, if_neg (not_not_intro hleft)]⟩

/-! ## Reading -/

variable (c) in
/-- `Next` and the body: the next member and what follows it, or the end of the archive. -/
def Codec.next (s : Bytes) : Except Error (Option ((H × Bytes) × Bytes)) :=
  match c.decode s with
  | none => .error .malformed
  | some none => .ok none
  | some (some (h, rest)) =>
    if rest.length < size h + padding (size h) then .error .unexpectedEOF
    else .ok (some ((h, rest.take (size h)), rest.drop (size h + padding (size h))))

/-- **A reader finds the member that was written.** -/
theorem next_block (hm : Fits c m) : c.next (block c m ++ rest) = .ok (some (m, rest)) := by
  obtain ⟨h, body⟩ := m
  obtain ⟨haccepted, hsize⟩ := hm
  obtain ⟨b, hb⟩ := Option.isSome_iff_exists.mp haccepted
  simp only at hb hsize
  have hbytes : block c (h, body) ++ rest = b ++ (body ++ (zeros (padding (size h)) ++ rest)) := by
    simp only [block, hb, Option.getD_some, List.append_assoc]
  rw [Codec.next, hbytes, c.decode_encode h b _ hb]
  simp only
  rw [if_neg (by simp only [List.length_append, length_zeros]; omega), ← hsize, List.take_left, ← List.drop_drop,
    List.drop_left]
  have hz : (zeros (padding body.length)).length = padding body.length := length_zeros _
  rw [List.drop_left' hz]

theorem next_trailer : c.next (zeros (2 * blocksize)) = .ok none := by
  rw [Codec.next, c.decode_trailer]

theorem length_of_next (h : c.next d = .ok (some (m, rest))) : rest.length < d.length := by
  unfold Codec.next at h
  split at h
  · cases h
  · cases h
  · next hdr rest' hdec =>
    split_ifs at h
    cases h
    rw [List.length_drop]
    have := c.decode_lt _ _ _ hdec
    omega

variable (c) in
/-- All members of an archive. -/
def Codec.members : ℕ → Bytes → Except Error (List (H × Bytes))
  | 0, _ => .error .malformed
  | fuel + 1, s => do
    match ← c.next s with
    | none => .ok []
    | some (m, rest) => return m :: (← Codec.members fuel rest)

/-- **The archive of members is read as those members.** -/
theorem members_blocks {fuel : ℕ} (hms : ∀ m ∈ ms, Fits c m) (hfuel : ms.length < fuel) :
    c.members fuel (blocks c ms ++ zeros (2 * blocksize)) = .ok ms := by
  induction ms generalizing fuel with
  | nil =>
    obtain ⟨n, rfl⟩ := Nat.exists_eq_add_one_of_ne_zero (Nat.ne_of_gt hfuel)
    rw [Codec.members]
    change (c.next (zeros (2 * blocksize)) >>= _) = _
    rw [next_trailer]
    rfl
  | cons m ms ih =>
    obtain ⟨n, rfl⟩ := Nat.exists_eq_add_one_of_ne_zero (Nat.ne_of_gt (Nat.zero_lt_of_lt hfuel))
    have hbytes : blocks c (m :: ms) ++ zeros (2 * blocksize) =
        block c m ++ (blocks c ms ++ zeros (2 * blocksize)) := by
      rw [blocks, List.flatMap_cons, List.append_assoc]
      rfl
    rw [Codec.members, hbytes, next_block (hms m List.mem_cons_self)]
    change (c.members n (blocks c ms ++ zeros (2 * blocksize)) >>= _) = _
    rw [ih (fun m hm => hms m (List.mem_cons_of_mem _ hm)) (Nat.lt_of_succ_lt_succ hfuel)]
    rfl

/-- The blocks of a member are not empty. -/
theorem block_ne_nil (hm : Fits c m) : 0 < (block c m).length := by
  have h : c.next (block c m ++ zeros (2 * blocksize)) = .ok (some (m, zeros (2 * blocksize))) := next_block hm
  have := length_of_next h
  rw [List.length_append] at this
  omega

theorem length_le_blocks (hms : ∀ m ∈ ms, Fits c m) : ms.length ≤ (blocks c ms).length := by
  induction ms with
  | nil => exact Nat.zero_le _
  | cons m ms ih =>
    have h1 := block_ne_nil (hms m List.mem_cons_self)
    have h2 := ih fun m hm => hms m (List.mem_cons_of_mem _ hm)
    rw [List.length_cons, blocks, List.flatMap_cons, List.length_append]
    rw [blocks] at h2
    omega

end Lib.Archive
