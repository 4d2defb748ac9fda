import Mathlib.Tactic.Ring
import McServerDashboard.Relay.Protocol

/-!
# The Minecraft packets that the relay writes

The writing side of the package `mc`. A VarInt is written in its shortest form, and any encoding of it can be read.

* `appendVarInt`, `encodePacket`, `StatusResponsePacket`: what is written.
* `isVarInt_appendVarInt`: the bytes of a VarInt, five at most.
* `Exactly`: what a reader of packets does with any stream.
* **`packets_exact`**: what is written is read back, and nothing is read past the packet.
-/

namespace McServerDashboard.Relay.Protocol

open Lib

def MaxStatusResponseBytes : ℕ := 64 * 1024

def maxStringLen : ℕ := 32767

theorem shiftRight_seven (u : UInt32) : (u >>> 7).toNat = u.toNat / 128 := by
  rw [UInt32.toNat_shiftRight, Nat.shiftRight_eq_div_pow]
  rfl

/-- The loop of `appendVarInt`. -/
def appendVarIntLoop (dst : List UInt8) (u : UInt32) : List UInt8 :=
  let b := (u &&& 0x7F).toUInt8
  if h : u >>> 7 = 0 then dst ++ [b] else appendVarIntLoop (dst ++ [b ||| 0x80]) (u >>> 7)
termination_by u.toNat
decreasing_by
  have hne : (u >>> 7).toNat ≠ 0 := fun hzero => h (UInt32.toNat_inj.mp hzero)
  rw [shiftRight_seven] at hne ⊢
  omega

def appendVarInt (dst : List UInt8) (v : Int32) : List UInt8 := appendVarIntLoop dst v.toUInt32

/-- The id and the body of a packet, before its length. -/
def packetInner (id : Int32) (body : List UInt8) : List UInt8 := appendVarInt [] id ++ body

def encodePacket (id : Int32) (body : List UInt8) : List UInt8 :=
  appendVarInt [] (Int32.ofNat (packetInner id body).length) ++ packetInner id body

def appendString (dst s : List UInt8) : List UInt8 := appendVarInt dst (Int32.ofNat s.length) ++ s

def StatusResponsePacket (statusJSON : List UInt8) : List UInt8 := encodePacket 0 (appendString [] statusJSON)

/-! ## The bytes of a VarInt -/

theorem toNat_low (u : UInt32) : (u &&& 0x7F).toUInt8.toNat = u.toNat % 128 := by
  have hmask : (0x7F : UInt32).toNat = 2 ^ 7 - 1 := rfl
  rw [UInt32.toNat_toUInt8, UInt32.toNat_and, hmask, Nat.and_two_pow_sub_one_eq_mod]
  omega

theorem toNat_high {b : UInt8} (h : b.toNat < 128) : (b ||| 0x80).toNat = b.toNat + 128 := by
  have hbit : (0x80 : UInt8).toNat = 2 ^ 7 * 1 := rfl
  rw [UInt8.toNat_or, hbit, Nat.or_comm, ← Nat.two_pow_add_eq_or_of_lt h, Nat.add_comm]

theorem toNat_payload (b : UInt8) : (b &&& 0x7F).toUInt32.toNat = b.toNat % 128 := by
  have hmask : (0x7F : UInt8).toNat = 2 ^ 7 - 1 := rfl
  rw [UInt8.toNat_toUInt32, UInt8.toNat_and, hmask, Nat.and_two_pow_sub_one_eq_mod]

theorem continues_iff (b : UInt8) : b &&& 0x80 = 0 ↔ b.toNat < 128 := by
  have hall : ∀ i : Fin 256, i.val &&& 128 = 0 ↔ i.val < 128 := by decide +kernel
  rw [← UInt8.toNat_inj, UInt8.toNat_and]
  exact hall ⟨b.toNat, b.toNat_lt⟩

/-- The value of a VarInt, byte by byte. -/
theorem toNat_varIntValue_cons {n : ℕ} {b : UInt8} {bs : List UInt8} (hn : 7 * n < 32) (hb : b.toNat % 128 * 2 ^ (7 * n) < 2 ^ 32)
    {m : ℕ} (hrest : (varIntValue (n + 1) bs).toNat = m * 2 ^ (7 * (n + 1))) :
    (varIntValue n (b :: bs)).toNat = (b.toNat % 128 + m * 128) * 2 ^ (7 * n) := by
  have hshift : (7 * n).toUInt32.toNat % 32 = 7 * n := by
    rw [Nat.toUInt32_eq, UInt32.toNat_ofNat']
    omega
  have hlow : b.toNat % 128 * 2 ^ (7 * n) < 2 ^ (7 * (n + 1)) := by
    rw [Nat.mul_succ, Nat.add_comm, Nat.pow_add]
    exact Nat.mul_lt_mul_of_pos_right (Nat.mod_lt _ (by omega)) (Nat.two_pow_pos _)
  rw [varIntValue, UInt32.toNat_or, UInt32.toNat_shiftLeft, hshift, toNat_payload, hrest, Nat.shiftLeft_eq,
    Nat.mod_eq_of_lt hb, Nat.or_comm, Nat.mul_comm m, ← Nat.two_pow_add_eq_or_of_lt hlow, Nat.mul_succ 7, Nat.pow_add]
  ring

/-- What the loop appends: the value of its bytes is the number, shifted to their place. -/
theorem appendVarIntLoop_spec : ∀ (k n : ℕ) (u : UInt32) (dst : List UInt8), n + k ≤ 4 → u.toNat < 2 ^ (7 * (k + 1)) →
    u.toNat * 2 ^ (7 * n) < 2 ^ 32 →
    ∃ init last, appendVarIntLoop dst u = dst ++ (init ++ [last]) ∧ init.length ≤ k ∧ (∀ b ∈ init, b &&& 0x80 ≠ 0) ∧
      last &&& 0x80 = 0 ∧ (varIntValue n (init ++ [last])).toNat = u.toNat * 2 ^ (7 * n)
  | k, n, u, dst, hn, hu, hfits => by
    have hlow : (u &&& 0x7F).toUInt8.toNat = u.toNat % 128 := toNat_low u
    have hpiece : u.toNat % 128 * 2 ^ (7 * n) < 2 ^ 32 :=
      lt_of_le_of_lt (Nat.mul_le_mul_right _ (Nat.mod_le _ _)) hfits
    rw [appendVarIntLoop]
    by_cases hlast : u >>> 7 = 0
    · rw [dif_pos hlast]
      have hsmall : u.toNat / 128 = 0 := by rw [← shiftRight_seven, hlast]; rfl
      refine ⟨[], (u &&& 0x7F).toUInt8, rfl, Nat.zero_le k, by simp, ?_, ?_⟩
      · rw [continues_iff, hlow]
        omega
      · rw [List.nil_append, toNat_varIntValue_cons (m := 0) (by omega) (by rw [hlow, Nat.mod_mod]; exact hpiece)
          (by rw [Nat.zero_mul]; rfl), hlow]
        have hsame : u.toNat % 128 % 128 + 0 * 128 = u.toNat := by omega
        rw [hsame]
    · rw [dif_neg hlast]
      have hne : u.toNat / 128 ≠ 0 := by
        rw [← shiftRight_seven]
        exact fun hzero => hlast (UInt32.toNat_inj.mp hzero)
      cases k with
      | zero => omega
      | succ k =>
        have hnext : (u >>> 7).toNat = u.toNat / 128 := shiftRight_seven u
        have hroom : u.toNat / 128 * 2 ^ (7 * (n + 1)) ≤ u.toNat * 2 ^ (7 * n) := by
          rw [Nat.mul_succ 7, Nat.add_comm, Nat.pow_add, ← Nat.mul_assoc]
          exact Nat.mul_le_mul_right _ (Nat.div_mul_le_self _ _)
        obtain ⟨init, last, happend, hlen, hinit, hend, hvalue⟩ := appendVarIntLoop_spec k (n + 1) (u >>> 7)
          (dst ++ [(u &&& 0x7F).toUInt8 ||| 0x80]) (by omega)
          (by
            rw [hnext, Nat.div_lt_iff_lt_mul (by omega)]
            refine lt_of_lt_of_eq hu ?_
            rw [Nat.mul_succ 7 (k + 1), Nat.pow_add])
          (by
            rw [hnext]
            omega)
        have hhigh : ((u &&& 0x7F).toUInt8 ||| 0x80).toNat = u.toNat % 128 + 128 := by
          rw [toNat_high (by omega), hlow]
        refine ⟨((u &&& 0x7F).toUInt8 ||| 0x80) :: init, last, ?_, ?_, ?_, hend, ?_⟩
        · rw [happend, List.append_assoc]
          rfl
        · rw [List.length_cons]
          omega
        · intro b hb
          rcases List.mem_cons.mp hb with rfl | hb
          · rw [Ne, continues_iff, hhigh]
            omega
          · exact hinit b hb
        · have hbyte : ((u &&& 0x7F).toUInt8 ||| 0x80).toNat % 128 = u.toNat % 128 := by
            rw [hhigh]
            omega
          rw [hnext] at hvalue
          rw [List.cons_append, toNat_varIntValue_cons (by omega) (by rw [hbyte]; exact hpiece) hvalue, hbyte]
          have hsplit : u.toNat % 128 + u.toNat / 128 * 128 = u.toNat := by omega
          rw [hsplit]

/-- **A number is written as a VarInt.** -/
theorem isVarInt_appendVarInt (v : Int32) : IsVarInt (appendVarInt [] v) v := by
  have hlt := v.toUInt32.toNat_lt
  obtain ⟨init, last, happend, hlen, hinit, hlast, hvalue⟩ := appendVarIntLoop_spec 4 0 v.toUInt32 [] (by omega)
    (by omega) (by omega)
  rw [List.nil_append] at happend
  rw [appendVarInt, happend]
  refine ⟨?_, ⟨init, last, rfl, hinit, hlast⟩, ?_⟩
  · rw [List.length_append, List.length_singleton]
    exact Nat.succ_le_succ hlen
  · have hsame : varIntValue 0 (init ++ [last]) = v.toUInt32 := by
      rw [← UInt32.toNat_inj, hvalue, Nat.mul_zero, Nat.pow_zero, Nat.mul_one]
    rw [hsame]
    exact Int32.toInt32_toUInt32 v

/-- A length below 2 ^ 31 is written as it is. -/
theorem toInt_ofNat {n : ℕ} (h : n < 2 ^ 31) : (Int32.ofNat n).toInt = n := by
  have hsize : Int32.size = 2 ^ 32 := rfl
  rw [Int32.toInt_ofNat', hsize, Int.bmod_eq_of_le] <;> omega

/-! ## The bytes of a packet -/

theorem appendVarInt_ne_nil (v : Int32) : appendVarInt [] v ≠ [] := by
  obtain ⟨init, last, heq, -⟩ := (isVarInt_appendVarInt v).ends
  rw [heq]
  exact List.append_ne_nil_of_right_ne_nil _ (List.cons_ne_nil _ _)

/-- A packet is framed, if it is not too long. -/
theorem framed_encodePacket {id : Int32} {body : List UInt8} {maxLen : ℕ} (hmax : (packetInner id body).length ≤ maxLen)
    (h32 : (packetInner id body).length < 2 ^ 31) : Framed maxLen (encodePacket id body) (packetInner id body) where
  split := ⟨_, _, rfl, isVarInt_appendVarInt _, toInt_ofNat h32⟩
  pos := by
    rw [packetInner, List.length_append]
    exact Nat.add_pos_left (List.length_pos_iff.mpr (appendVarInt_ne_nil id)) _
  length_le := hmax

/-- The VarInt at the start of a list is determined. -/
theorem ends_unique {xs xs' ys ys' : List UInt8} (h : Ends xs) (h' : Ends xs') (heq : xs ++ ys = xs' ++ ys') : xs = xs' := by
  obtain ⟨init, last, rfl, hinit, hlast⟩ := h
  obtain ⟨init', last', rfl, hinit', hlast'⟩ := h'
  rw [List.append_assoc, List.append_assoc] at heq
  induction init generalizing init' with
  | nil =>
    cases init' with
    | nil =>
      have hcons := List.cons.inj heq
      rw [hcons.1]
    | cons b' init' =>
      have hcons := List.cons.inj heq
      exact absurd (hcons.1 ▸ hlast) (hinit' b' List.mem_cons_self)
  | cons b init ih =>
    cases init' with
    | nil =>
      have hcons := List.cons.inj heq
      exact absurd (hcons.1 ▸ hlast') (hinit b List.mem_cons_self)
    | cons b' init' =>
      have hcons := List.cons.inj heq
      rw [hcons.1, List.cons_append, List.cons_append, ih (fun b hb => hinit b (List.mem_cons_of_mem _ hb)) init'
        hcons.2 fun b hb => hinit' b (List.mem_cons_of_mem _ hb)]

/-! ## Reading packets from any stream -/

variable {ρ : Type} [ByteReader ρ UInt8] {r r' : ρ} {maxLen : ℕ} {len ys raw body : List UInt8} {value : Int32}

/-- **What reading a packet does with a stream**: it takes the packet that the VarInt at the start declares, whatever
follows it, or reports an error. -/
structure Exactly (maxLen : ℕ) (read : ReadM ρ (List UInt8 × List UInt8)) : Prop where
  /-- What is accepted is a packet of the declared length, neither negative nor above the limit, and no byte more. -/
  accepted : ∀ r raw body r', read.run r = .ok ((raw, body), r') →
    ByteReader.bytes r = raw ++ ByteReader.bytes r' ∧ Framed maxLen raw body
  /-- A length out of range is an error, whatever follows it. -/
  outOfRange : ∀ r len value ys, ByteReader.Sound r → ByteReader.bytes r = len ++ ys → IsVarInt len value →
    value.toInt ≤ 0 ∨ (maxLen : Int) < value.toInt → read.run r = .error (.packetLength value.toInt)
  /-- A packet that is there is read, whatever follows it. -/
  whole : ∀ r len value body ys, ByteReader.Sound r → ByteReader.bytes r = len ++ (body ++ ys) → IsVarInt len value →
    value.toInt = body.length → 0 < body.length → body.length ≤ maxLen →
    ∃ r', read.run r = .ok ((len ++ body, body), r') ∧ ByteReader.bytes r' = ys
  /-- A packet that ends early is an error. -/
  short : ∀ r len value ys, ByteReader.bytes r = len ++ ys → IsVarInt len value → (ys.length : Int) < value.toInt →
    ∃ e, read.run r = .error e
  /-- So is a length that is no VarInt. -/
  noLength : ∀ r, (∀ len value ys, ByteReader.bytes r = len ++ ys → ¬ IsVarInt len value) → ∃ e, read.run r = .error e

omit [ByteReader ρ UInt8] in
/-- An outcome that is not accepted is an error. -/
theorem error_of_not {α : Type} {m : ReadM ρ α} (h : ∀ a r', m.run r ≠ .ok (a, r')) : ∃ e, m.run r = .error e := by
  cases hrun : m.run r with
  | ok x => exact absurd hrun (h x.1 x.2)
  | error e => exact ⟨e, rfl⟩

theorem readPacketWithLimit_exactly (maxLen : ℕ) : Exactly maxLen (readPacketWithLimit maxLen : ReadM ρ _) where
  accepted := by
    intro r raw body r' hrun
    obtain ⟨xs, hbytes, rfl, hframed⟩ := readPacket_takes r _ r' hrun
    exact ⟨hbytes, hframed⟩
  outOfRange := by
    intro r len value ys hr hbytes hlen hbad
    obtain ⟨r', hrun, -, -⟩ := readVarInt_reads hlen r ys hr hbytes
    rw [readPacketWithLimit, StateT.run_bind, hrun]
    show StateT.run (if value.toInt ≤ 0 ∨ (maxLen : Int) < value.toInt then _ else _) r' = _
    rw [if_pos hbad]
    rfl
  whole := by
    intro r len value body ys hr hbytes hlen hvalue hpos hle
    have hframed : Framed maxLen (len ++ body) body := ⟨⟨len, value, rfl, hlen, hvalue⟩, hpos, hle⟩
    obtain ⟨r', hrun, -, hrest⟩ := readPacket_reads hframed r ys hr (by rw [hbytes, List.append_assoc])
    exact ⟨r', hrun, hrest⟩
  short := by
    intro r len value ys hbytes hlen hshort
    refine error_of_not fun x r' hrun => ?_
    obtain ⟨xs, hxs, -, hframed⟩ := readPacket_takes r x r' hrun
    obtain ⟨len', value', rfl, hlen', hvalue'⟩ := hframed.split
    rw [hbytes, List.append_assoc] at hxs
    have hsame : len = len' := ends_unique hlen.ends hlen'.ends hxs
    have hys : ys = x.2 ++ ByteReader.bytes r' := List.append_cancel_left (hsame ▸ hxs)
    have hvalues : value = value' := by rw [← hlen.value_eq, hsame, hlen'.value_eq]
    rw [hvalues, hvalue', hys, List.length_append] at hshort
    omega
  noLength := by
    intro r hno
    refine error_of_not fun x r' hrun => ?_
    obtain ⟨xs, hxs, -, hframed⟩ := readPacket_takes r x r' hrun
    obtain ⟨len, value, rfl, hlen, -⟩ := hframed.split
    rw [List.append_assoc] at hxs
    exact hno len value _ hxs hlen

/-- What is written as a packet is read back. -/
theorem encodePacket_reads {id : Int32} (hmax : (packetInner id body).length ≤ maxLen)
    (h32 : (packetInner id body).length < 2 ^ 31) :
    Reads (readPacketWithLimit maxLen : ReadM ρ _) (encodePacket id body) (encodePacket id body, packetInner id body) ∧
      (readVarInt : ReadM (List UInt8) _).run (packetInner id body) =
        .ok ((id, (appendVarInt [] id).length, appendVarInt [] id), body) :=
  ⟨readPacket_reads (framed_encodePacket hmax h32), run_of_reads (readVarInt_reads (isVarInt_appendVarInt id))⟩

theorem length_packetInner_string {s : List UInt8} (hs : s.length ≤ maxStringLen) :
    (packetInner 0 (appendString [] s)).length ≤ 32777 := by
  have hle : s.length ≤ 32767 := hs
  have hlen5 : (appendVarInt [] (Int32.ofNat s.length)).length ≤ 5 := (isVarInt_appendVarInt _).length_le
  have hid5 : (appendVarInt [] 0).length ≤ 5 := (isVarInt_appendVarInt 0).length_le
  rw [packetInner, appendString, List.length_append, List.length_append]
  omega

/-- The payload of a status response is read back. -/
theorem statusResponsePacket_reads {json : List UInt8} (hjson : json.length ≤ maxStringLen) :
    ∃ packet, Reads (readPacketWithLimit MaxStatusResponseBytes : ReadM ρ _) (StatusResponsePacket json)
        (StatusResponsePacket json, packet) ∧
      ((do
        let (id, _, _) ← readVarInt
        let payload ← readString maxStringLen
        pure (id, payload) : ReadM (List UInt8) _).run packet) = .ok ((0, json), []) := by
  have hlen : IsVarInt (appendVarInt [] (Int32.ofNat json.length)) _ := isVarInt_appendVarInt _
  have hid : IsVarInt (appendVarInt [] 0) 0 := isVarInt_appendVarInt 0
  have hle : json.length ≤ 32767 := hjson
  have hshort : (packetInner 0 (appendString [] json)).length ≤ 32777 := length_packetInner_string hjson
  have hstring : IsString maxStringLen (appendString [] json) json :=
    ⟨⟨_, _, rfl, hlen, toInt_ofNat (by omega)⟩, hjson⟩
  refine ⟨packetInner 0 (appendString [] json), (encodePacket_reads ?_ (by omega)).1, ?_⟩
  · exact hshort.trans (by decide)
  · have hbody : Reads (do
        let (id, _, _) ← readVarInt
        let payload ← readString maxStringLen
        pure (id, payload) : ReadM (List UInt8) _) (packetInner 0 (appendString [] json)) (0, json) :=
      (readVarInt_reads hid).bind ((readString_reads hstring).last (Reads.pure _))
    rw [← List.append_nil (packetInner 0 _)]
    exact run_of_reads hbody

/-- **VarInts and packets are read back, and no packet is read beyond its length.** -/
theorem packets_exact (ρ : Type) [ByteReader ρ UInt8] (maxLen : ℕ) :
    (∀ v : Int32, Reads (readVarInt : ReadM ρ _) (appendVarInt [] v) (v, (appendVarInt [] v).length, appendVarInt [] v)) ∧
    (∀ (id : Int32) (body : List UInt8), (packetInner id body).length ≤ maxLen → (packetInner id body).length < 2 ^ 31 →
      Reads (readPacketWithLimit maxLen : ReadM ρ _) (encodePacket id body) (encodePacket id body, packetInner id body) ∧
        (readVarInt : ReadM (List UInt8) _).run (packetInner id body) =
          .ok ((id, (appendVarInt [] id).length, appendVarInt [] id), body)) ∧
    Exactly maxLen (readPacketWithLimit maxLen : ReadM ρ _) :=
  ⟨fun v => readVarInt_reads (isVarInt_appendVarInt v), fun _ _ hmax h32 => encodePacket_reads hmax h32,
    readPacketWithLimit_exactly maxLen⟩

/-- A status response. -/
theorem packets_exact_statusResponse :
    Reads (readPacketWithLimit MaxStatusResponseBytes : ReadM (List UInt8) _) (StatusResponsePacket [123, 125])
        (StatusResponsePacket [123, 125], packetInner 0 (appendString [] [123, 125])) ∧
      (readVarInt : ReadM (List UInt8) _).run (packetInner 0 (appendString [] [123, 125])) =
        .ok ((0, (appendVarInt [] 0).length, appendVarInt [] 0), appendString [] [123, 125]) := by
  have hlen : (packetInner 0 (appendString [] [123, 125])).length ≤ 32777 := length_packetInner_string (by decide)
  exact (packets_exact (List UInt8) MaxStatusResponseBytes).2.1 0 (appendString [] [123, 125])
    (hlen.trans (by decide)) (by omega)

end McServerDashboard.Relay.Protocol
