import McServerDashboard.Lib.Bufio

/-!
# The Minecraft packets that the relay reads

The package `mc`: VarInts, the framing of a packet, the handshake and the login start. A packet is read through the
buffer of the listener, its body then from the bytes of the packet.

* `IsVarInt`, `Framed`, `HandshakeBody`: the bytes of a well-formed packet, with any encoding of its lengths.
* **`readHandshake_reads`**, **`readLoginStart_reads`**: a well-formed packet is read, and `Raw` is its bytes.
* **`readHandshake_takes`**, **`readLoginStart_takes`**: whatever is read, `Raw` is exactly what was read.
-/

namespace McServerDashboard.Relay.Protocol

open Lib

def MaxPreRouteBytes : ℕ := 1024

def maxVarIntBytes : ℕ := 5

def maxServerAddressLen : ℕ := 255

def maxPlayerNameLen : ℕ := 16

inductive Err
  | io (e : IoErr)
  | varIntTooLong
  | stringLength (length : Int)
  | packetLength (length : Int)
  /-- `handshake: unexpected packet id`. -/
  | handshakeId (id : Int)
  deriving DecidableEq

/-- What reads from `ρ`, and may fail. -/
abbrev ReadM (ρ : Type) := StateT ρ (Except Err)

section Reading

variable {ρ : Type} [ByteReader ρ UInt8]

def readByte : ReadM ρ UInt8 := fun r => (ByteReader.readByte r).mapError .io

def readFull (n : ℕ) : ReadM ρ (List UInt8) := fun r => (ByteReader.readFull n r).mapError .io

/-- The loop of `readVarInt` where `room` more bytes may come, after the bytes `raw` with the value so far. -/
def readVarIntLoop : ℕ → UInt32 → List UInt8 → ReadM ρ (Int32 × ℕ × List UInt8)
  | 0, _, _ => throw .varIntTooLong
  | room + 1, value, raw => do
    let b ← readByte
    let value := value ||| (b &&& 0x7F).toUInt32 <<< (7 * raw.length).toUInt32
    if b &&& 0x80 = 0 then pure (value.toInt32, raw.length + 1, raw ++ [b])
    else readVarIntLoop room value (raw ++ [b])

/-- The value of a VarInt, how many bytes it has, and these bytes. -/
def readVarInt : ReadM ρ (Int32 × ℕ × List UInt8) := readVarIntLoop maxVarIntBytes 0 []

def readString (maxLen : ℕ) : ReadM ρ (List UInt8) := do
  let (length, _, _) ← readVarInt
  if length.toInt < 0 ∨ (maxLen : Int) < length.toInt then throw (.stringLength length.toInt)
  else readFull length.toInt.toNat

def readUint16 : ReadM ρ UInt16 := do
  let hi ← readByte
  let lo ← readByte
  pure (hi.toUInt16 <<< 8 ||| lo.toUInt16)

/-- The bytes of a whole packet, and of its body. -/
def readPacketWithLimit (maxLen : ℕ) : ReadM ρ (List UInt8 × List UInt8) := do
  let (length, _, lenRaw) ← readVarInt
  if length.toInt ≤ 0 ∨ (maxLen : Int) < length.toInt then throw (.packetLength length.toInt)
  else
    let body ← readFull length.toInt.toNat
    pure (lenRaw ++ body, body)

def readPacket : ReadM ρ (List UInt8 × List UInt8) := readPacketWithLimit MaxPreRouteBytes

end Reading

def NextStateStatus : Int32 := 1

def NextStateLogin : Int32 := 2

def NextStateTransfer : Int32 := 3

structure Handshake where
  ProtocolVersion : Int32
  ServerAddress : List UInt8
  Port : UInt16
  NextState : Int32
  /-- The whole packet, its length prefix included. -/
  Raw : List UInt8

def Handshake.IsLogin (h : Handshake) : Bool := h.NextState == NextStateLogin || h.NextState == NextStateTransfer

/-- The protocol version, the server address, the port and the next state of the body of a handshake. -/
def parseHandshake : ReadM (List UInt8) (Int32 × List UInt8 × UInt16 × Int32) := do
  let (id, _, _) ← readVarInt
  if id ≠ 0 then throw (.handshakeId id.toInt)
  else
    let (protocol, _, _) ← readVarInt
    let addr ← readString maxServerAddressLen
    let port ← readUint16
    let (next, _, _) ← readVarInt
    pure (protocol, addr, port, next)

/-- Read a value of the body of a packet. -/
def parse {ρ α : Type} (m : ReadM (List UInt8) α) (body : List UInt8) : ReadM ρ α :=
  match m.run body with
  | .ok (a, _) => pure a
  | .error e => throw e

section Packets

variable {ρ : Type} [ByteReader ρ UInt8]

def readHandshake : ReadM ρ Handshake := do
  let (raw, body) ← readPacket
  let (protocol, addr, port, next) ← parse parseHandshake body
  pure { ProtocolVersion := protocol, ServerAddress := addr, Port := port, NextState := next, Raw := raw }

end Packets

def protoUUIDRequired : Int32 := 764

def protoUUIDBoolMin : Int32 := 761

structure LoginStart where
  Name : List UInt8
  /-- The 16 bytes of the UUID, or none. -/
  UUID : List UInt8
  /-- The whole packet, its length prefix included. -/
  Raw : List UInt8

/-- What is read of the body of a login start after its name; a UUID that cannot be read is left out. -/
def readUUID? (protocolVersion : Int32) : ReadM (List UInt8) (List UInt8) :=
  if protoUUIDRequired ≤ protocolVersion then readFull 16
  else if protoUUIDBoolMin ≤ protocolVersion then do
    let has ← readByte
    if has = 0 then pure [] else readFull 16
  else pure []

/-- The name in the body of a login start, and what comes after it. -/
def parseName (body : List UInt8) : Option (List UInt8 × List UInt8) :=
  match readVarInt.run body with
  | .error _ => none
  | .ok ((id, _, _), rest) =>
    if id ≠ 0 then none
    else
      match (readString maxPlayerNameLen).run rest with
      | .error _ => none
      | .ok (name, rest) => some (name, rest)

/-- The login start in a packet; what cannot be parsed stays empty. -/
def parseLoginStart (protocolVersion : Int32) (raw body : List UInt8) : LoginStart :=
  match parseName body with
  | none => ⟨[], [], raw⟩
  | some (name, rest) =>
    match (readUUID? protocolVersion).run rest with
    | .error _ => ⟨name, [], raw⟩
    | .ok (uuid, _) => ⟨name, uuid, raw⟩

section Packets

variable {ρ : Type} [ByteReader ρ UInt8]

def readLoginStart (protocolVersion : Int32) : ReadM ρ LoginStart := do
  let (raw, body) ← readPacket
  pure (parseLoginStart protocolVersion raw body)

end Packets

/-! ## Well-formed packets -/

/-- The value of the bytes of a VarInt from the `n`-th on. -/
def varIntValue (n : ℕ) : List UInt8 → UInt32
  | [] => 0
  | b :: bs => (b &&& 0x7F).toUInt32 <<< (7 * n).toUInt32 ||| varIntValue (n + 1) bs

/-- All bytes but the last have the high bit. -/
def Ends (raw : List UInt8) : Prop :=
  ∃ init last, raw = init ++ [last] ∧ (∀ b ∈ init, b &&& 0x80 ≠ 0) ∧ last &&& 0x80 = 0

/-- An encoding of a VarInt, the shortest one or not. -/
structure IsVarInt (raw : List UInt8) (value : Int32) : Prop where
  length_le : raw.length ≤ maxVarIntBytes
  ends : Ends raw
  value_eq : (varIntValue 0 raw).toInt32 = value

/-- The bytes of a string, its length before it. -/
structure IsString (maxLen : ℕ) (raw s : List UInt8) : Prop where
  split : ∃ len value, raw = len ++ s ∧ IsVarInt len value ∧ value.toInt = s.length
  length_le : s.length ≤ maxLen

/-- A packet is the length of its body and the body. -/
structure Framed (maxLen : ℕ) (raw body : List UInt8) : Prop where
  split : ∃ len value, raw = len ++ body ∧ IsVarInt len value ∧ value.toInt = body.length
  pos : 0 < body.length
  length_le : body.length ≤ maxLen

/-- The body of a handshake; bytes may follow it. -/
def HandshakeBody (body : List UInt8) (hs : Handshake) : Prop :=
  ∃ id protocol addr hi lo next trailing,
    body = (id ++ (protocol ++ (addr ++ ([hi, lo] ++ next)))) ++ trailing ∧ IsVarInt id 0 ∧
      IsVarInt protocol hs.ProtocolVersion ∧ IsString maxServerAddressLen addr hs.ServerAddress ∧
      hs.Port = hi.toUInt16 <<< (8 : UInt16) ||| lo.toUInt16 ∧ IsVarInt next hs.NextState

variable {ρ : Type} [ByteReader ρ UInt8] {raw body xs : List UInt8} {maxLen : ℕ} {value : Int32}

/-! ## What is read -/

theorem readByte_reads (b : UInt8) : Reads (readByte : ReadM ρ UInt8) [b] b := by
  intro r ys hr hbytes
  obtain ⟨b', r', h, hr'⟩ := ByteReader.exists_readByte hr (by rw [hbytes]; exact List.cons_ne_nil b ys)
  have hcons := ByteReader.bytes_of_readByte h
  rw [hbytes, List.singleton_append, List.cons.injEq] at hcons
  obtain ⟨rfl, rfl⟩ := hcons
  exact ⟨r', by simp only [readByte, StateT.run, h]; rfl, hr', rfl⟩

theorem readByte_takes : Takes (readByte : ReadM ρ UInt8) fun xs b => xs = [b] := by
  intro r b r' h
  cases hb : ByteReader.readByte r with
  | error e => simp [readByte, StateT.run, hb, Except.mapError] at h
  | ok x =>
    obtain ⟨b', r''⟩ := x
    simp only [readByte, StateT.run, hb, Except.mapError, Except.ok.injEq, Prod.mk.injEq] at h
    obtain ⟨rfl, rfl⟩ := h
    exact ⟨[b'], ByteReader.bytes_of_readByte hb, rfl⟩

theorem readFull_reads (xs : List UInt8) : Reads (readFull xs.length : ReadM ρ (List UInt8)) xs xs := by
  intro r ys hr hbytes
  obtain ⟨got, r', h, hr'⟩ := ByteReader.exists_readFull (n := xs.length) hr (by
    rw [hbytes, List.length_append]
    omega)
  obtain ⟨happend, hlen⟩ := ByteReader.bytes_of_readFull h
  obtain ⟨rfl, rfl⟩ := List.append_inj (hbytes.symm.trans happend) hlen.symm
  exact ⟨r', by simp only [readFull, StateT.run, h]; rfl, hr', rfl⟩

theorem readFull_takes (n : ℕ) :
    Takes (readFull n : ReadM ρ (List UInt8)) fun xs got => xs = got ∧ got.length = n := by
  intro r got r' h
  cases hb : ByteReader.readFull n r with
  | error e => simp [readFull, StateT.run, hb, Except.mapError] at h
  | ok x =>
    obtain ⟨got', r''⟩ := x
    simp only [readFull, StateT.run, hb, Except.mapError, Except.ok.injEq, Prod.mk.injEq] at h
    obtain ⟨rfl, rfl⟩ := h
    obtain ⟨happend, hlen⟩ := ByteReader.bytes_of_readFull hb
    exact ⟨got', happend, rfl, hlen⟩

theorem readVarIntLoop_reads {last : UInt8} (hlast : last &&& 0x80 = 0) :
    ∀ (init : List UInt8) (room : ℕ) (value : UInt32) (raw : List UInt8), init.length < room →
      (∀ b ∈ init, b &&& 0x80 ≠ 0) →
      Reads (readVarIntLoop room value raw : ReadM ρ _) (init ++ [last])
        ((value ||| varIntValue raw.length (init ++ [last])).toInt32, raw.length + (init ++ [last]).length,
          raw ++ (init ++ [last]))
  | [], room + 1, value, raw, _, _ => by
    rw [readVarIntLoop]
    refine (readByte_reads last).last ?_
    simp only [hlast, ↓reduceIte, List.nil_append, varIntValue, UInt32.or_zero, List.length_singleton]
    exact Reads.pure _
  | b :: init, room + 1, value, raw, hroom, hinit => by
    rw [readVarIntLoop]
    refine (readByte_reads b).bind ?_
    rw [if_neg (hinit b List.mem_cons_self)]
    have ih := readVarIntLoop_reads hlast init room
      (value ||| (b &&& 0x7F).toUInt32 <<< (7 * raw.length).toUInt32) (raw ++ [b])
      (Nat.lt_of_succ_lt_succ hroom) fun b' hb' => hinit b' (List.mem_cons_of_mem _ hb')
    simp only [List.length_append, List.length_singleton, List.append_assoc, List.singleton_append,
      UInt32.or_assoc] at ih
    have hlen : raw.length + (b :: (init ++ [last])).length = raw.length + 1 + (init.length + 1) := by
      rw [List.length_cons, List.length_append, List.length_singleton]
      omega
    simp only [List.cons_append, varIntValue, hlen]
    exact ih

theorem readVarInt_reads (h : IsVarInt raw value) : Reads (readVarInt : ReadM ρ _) raw (value, raw.length, raw) := by
  obtain ⟨init, last, rfl, hinit, hlast⟩ := h.ends
  have hlen := h.length_le
  rw [List.length_append, List.length_singleton] at hlen
  have hloop : Reads (readVarInt : ReadM ρ _) (init ++ [last]) _ :=
    readVarIntLoop_reads hlast init maxVarIntBytes 0 [] hlen hinit
  rw [List.nil_append, UInt32.zero_or, List.length_nil, h.value_eq, Nat.zero_add] at hloop
  exact hloop

/-- What the loop gives after the bytes `xs`. -/
theorem readVarIntLoop_takes : ∀ (room : ℕ) (value : UInt32) (raw : List UInt8),
    Takes (readVarIntLoop room value raw : ReadM ρ _) fun xs a =>
      a = ((value ||| varIntValue raw.length xs).toInt32, raw.length + xs.length, raw ++ xs) ∧
        xs.length ≤ room ∧ Ends xs
  | 0, _, _ => Takes.throw _
  | room + 1, value, raw => by
    rw [readVarIntLoop]
    refine readByte_takes.bind fun xs b hb => ?_
    subst hb
    split_ifs with hstop
    · refine Takes.pure ⟨?_, ?_, ⟨[], b, rfl, by simp, hstop⟩⟩
      · simp [varIntValue]
      · simp
    · refine (readVarIntLoop_takes room _ (raw ++ [b])).mono ?_
      rintro ys a ⟨rfl, hlen, init, last, rfl, hinit, hlast⟩
      refine ⟨?_, ?_, ⟨b :: init, last, rfl, ?_, hlast⟩⟩
      · have hlen : raw.length + ([b] ++ (init ++ [last])).length = raw.length + 1 + (init ++ [last]).length := by
          rw [List.length_append, List.length_singleton, Nat.add_assoc]
        rw [hlen]
        simp only [List.singleton_append, varIntValue, UInt32.or_assoc, List.length_append, List.length_singleton,
          List.append_assoc]
      · rw [List.singleton_append, List.length_cons]
        omega
      · intro b' hb'
        rcases List.mem_cons.mp hb' with rfl | h
        · exact hstop
        · exact hinit b' h

theorem readVarInt_takes :
    Takes (readVarInt : ReadM ρ _) fun xs a => a.2 = (xs.length, xs) ∧ IsVarInt xs a.1 := by
  refine (readVarIntLoop_takes maxVarIntBytes 0 []).mono ?_
  rintro xs a ⟨rfl, hlen, hends⟩
  rw [List.length_nil, Nat.zero_add, List.nil_append, UInt32.zero_or]
  exact ⟨rfl, hlen, hends, rfl⟩

theorem readString_reads {s : List UInt8} (h : IsString maxLen raw s) :
    Reads (readString maxLen : ReadM ρ _) raw s := by
  obtain ⟨len, value, rfl, hlen, hvalue⟩ := h.split
  have hle := h.length_le
  refine (readVarInt_reads hlen).bind ?_
  simp only [hvalue]
  rw [if_neg (by omega), Int.toNat_natCast]
  exact readFull_reads s

theorem readUint16_reads (hi lo : UInt8) :
    Reads (readUint16 : ReadM ρ _) [hi, lo] (hi.toUInt16 <<< 8 ||| lo.toUInt16) :=
  (readByte_reads hi).bind ((readByte_reads lo).last (Reads.pure _))

theorem readPacket_reads (h : Framed maxLen raw body) :
    Reads (readPacketWithLimit maxLen : ReadM ρ _) raw (raw, body) := by
  obtain ⟨len, value, rfl, hlen, hvalue⟩ := h.split
  have hpos := h.pos
  have hle := h.length_le
  refine (readVarInt_reads hlen).bind ?_
  simp only [hvalue]
  rw [if_neg (by omega), Int.toNat_natCast]
  exact (readFull_reads body).last (Reads.pure _)

/-- Whatever packet is read, it is framed, and its bytes are those that were read. -/
theorem readPacket_takes :
    Takes (readPacketWithLimit maxLen : ReadM ρ _) fun xs a => a.1 = xs ∧ Framed maxLen xs a.2 := by
  refine readVarInt_takes.bind ?_
  rintro xs ⟨value, n, raw⟩ ⟨heq, hvar⟩
  simp only [Prod.mk.injEq] at heq
  obtain ⟨rfl, rfl⟩ := heq
  dsimp only
  split_ifs with hbad
  · exact Takes.throw _
  · refine (readFull_takes _).bind ?_
    rintro ys body ⟨rfl, hlen⟩
    refine Takes.pure ?_
    rw [List.append_nil]
    dsimp only at hbad hlen ⊢
    exact ⟨rfl, ⟨raw, value, rfl, hvar, by omega⟩, by omega, by omega⟩

/-- What can be parsed of a slice is parsed. -/
theorem run_of_reads {α : Type} {m : ReadM (List UInt8) α} {a : α} {trailing : List UInt8} (h : Reads m xs a) :
    m.run (xs ++ trailing) = .ok (a, trailing) := by
  obtain ⟨r', hrun, -, hr'⟩ := h (xs ++ trailing) trailing trivial rfl
  exact hr' ▸ hrun

theorem parseHandshake_run {hs : Handshake} (h : HandshakeBody body hs) :
    ∃ trailing, parseHandshake.run body =
      .ok ((hs.ProtocolVersion, hs.ServerAddress, hs.Port, hs.NextState), trailing) := by
  obtain ⟨id, protocol, addr, hi, lo, next, trailing, rfl, hid, hprotocol, haddr, hport, hnext⟩ := h
  refine ⟨trailing, run_of_reads ?_⟩
  refine (readVarInt_reads hid).bind ?_
  refine (readVarInt_reads hprotocol).bind ((readString_reads haddr).bind ((readUint16_reads hi lo).bind ?_))
  rw [← hport]
  exact (readVarInt_reads hnext).last (Reads.pure _)

/-- **A well-formed handshake is read**, in any chunks and with any encoding of its numbers. -/
theorem readHandshake_reads {hs : Handshake} (h : Framed MaxPreRouteBytes hs.Raw body) (hbody : HandshakeBody body hs) :
    Reads (readHandshake : ReadM ρ _) hs.Raw hs := by
  obtain ⟨trailing, hrun⟩ := parseHandshake_run hbody
  refine (readPacket_reads h).last ?_
  simp only [parse, hrun, pure_bind]
  exact Reads.pure hs

theorem parse_takes {α : Type} (m : ReadM (List UInt8) α) (body : List UInt8) :
    Takes (parse m body : ReadM ρ α) fun xs _ => xs = [] := by
  unfold parse
  split
  · exact Takes.pure rfl
  · exact Takes.throw _

/-- **What a handshake keeps is what was read of it.** -/
theorem readHandshake_takes : Takes (readHandshake : ReadM ρ _) fun xs hs => hs.Raw = xs := by
  refine readPacket_takes.bind ?_
  rintro xs ⟨raw, body⟩ ⟨rfl, -⟩
  refine (parse_takes _ body).bind ?_
  rintro _ ⟨protocol, addr, port, next⟩ rfl
  exact Takes.pure (by rw [List.append_nil, List.append_nil])

theorem raw_parseLoginStart (protocolVersion : Int32) : (parseLoginStart protocolVersion raw body).Raw = raw := by
  unfold parseLoginStart
  split
  · rfl
  · split <;> rfl

/-- **Any packet is read as a login start**, whatever is in it. -/
theorem readLoginStart_reads (protocolVersion : Int32) (h : Framed MaxPreRouteBytes raw body) :
    Reads (readLoginStart protocolVersion : ReadM ρ _) raw (parseLoginStart protocolVersion raw body) :=
  (readPacket_reads h).last (Reads.pure _)

/-- **What a login start keeps is what was read of it.** -/
theorem readLoginStart_takes (protocolVersion : Int32) :
    Takes (readLoginStart protocolVersion : ReadM ρ _) fun xs login => login.Raw = xs := by
  refine readPacket_takes.bind ?_
  rintro xs ⟨raw, body⟩ ⟨rfl, -⟩
  exact Takes.pure (by rw [List.append_nil]; exact raw_parseLoginStart protocolVersion)

end McServerDashboard.Relay.Protocol
