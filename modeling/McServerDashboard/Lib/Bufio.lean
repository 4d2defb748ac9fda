import Mathlib.Data.List.Basic

/-!
# Buffered reading

A source of bytes that come in chunks of any size, and a buffer before it. Whoever reads through the buffer sees the
bytes, never the chunks.

* `Source`, `Sink`: the receiving and the sending end of a connection.
* `Reader`: the buffer over a source.
* `ByteReader`: what can be read byte by byte and in blocks of a given length.
* `Reads m xs a`: reading exactly `xs`, `m` gives `a`.
* `Takes m P`: whatever `m` gives, it has read some `xs` with `P xs a`.
* **`Reads.bind`**, **`Takes.bind`**: the rules of composition.
-/

namespace Lib

inductive IoErr
  | eof
  | unexpectedEOF
  /-- The deadline has passed, or the connection is broken. -/
  | failed
  | noProgress
  deriving DecidableEq

variable {β : Type*}

/-- A connection, at its receiving end. -/
structure Source (β : Type*) where
  /-- What is still to come. -/
  rest : List β
  /-- How many reads there have been. -/
  reads : ℕ
  /-- The read of that number gets at most one more than this, or fails. -/
  gives : ℕ → Option ℕ

namespace Source

/-- No read fails before the end. -/
def Sound (c : Source β) : Prop := ∀ i, c.gives i ≠ none

/-- A read into a buffer of length `n`. -/
def read (n : ℕ) (c : Source β) : Except IoErr (List β × Source β) :=
  match c.gives c.reads, c.rest with
  | none, _ => .error .failed
  | some _, [] => .error .eof
  | some k, b :: bs =>
    .ok ((b :: bs).take (min n (k + 1)),
      { c with rest := (b :: bs).drop (min n (k + 1)), reads := c.reads + 1 })

variable {c c' : Source β} {n : ℕ} {got : List β}

theorem rest_of_read (h : c.read n = .ok (got, c')) : c.rest = got ++ c'.rest := by
  unfold read at h
  split at h <;> cases h
  next hrest => rw [hrest, List.take_append_drop]

theorem length_of_read (h : c.read n = .ok (got, c')) (hn : 0 < n) : 0 < got.length ∧ got.length ≤ n := by
  unfold read at h
  split at h <;> cases h
  rw [List.length_take, List.length_cons]
  omega

theorem Sound.of_read (hc : c.Sound) (h : c.read n = .ok (got, c')) : c'.Sound := by
  unfold read at h
  split at h <;> cases h
  exact hc

theorem Sound.read (hc : c.Sound) (hrest : c.rest ≠ []) : ∃ got c', c.read n = .ok (got, c') := by
  obtain ⟨b, bs, hb⟩ := List.exists_cons_of_ne_nil hrest
  obtain ⟨k, hk⟩ := Option.ne_none_iff_exists'.mp (hc c.reads)
  rw [Source.read, hk, hb]
  exact ⟨_, _, rfl⟩

end Source

/-- A connection, at its sending end. -/
structure Sink (β : Type*) where
  written : List β
  /-- How many writes there have been. -/
  writes : ℕ
  /-- The write of that number fails after so many bytes, if at all. -/
  fails : ℕ → Option ℕ

namespace Sink

variable (k : Sink β)

/-- No write fails. -/
def Sound : Prop := ∀ i, k.fails i = none

def write (bs : List β) : Bool × Sink β :=
  match k.fails k.writes with
  | none => (true, { k with written := k.written ++ bs, writes := k.writes + 1 })
  | some n => (false, { k with written := k.written ++ bs.take n, writes := k.writes + 1 })

/-- The blocks one after another, up to the first that fails. -/
def writeAll (k : Sink β) : List (List β) → Bool × Sink β
  | [] => (true, k)
  | b :: bs =>
    match k.write b with
    | (true, k) => k.writeAll bs
    | (false, k) => (false, k)

variable {k} {k' : Sink β} {bs : List β} {blocks : List (List β)}

theorem written_of_write (h : k.write bs = (true, k')) : k'.written = k.written ++ bs := by
  unfold write at h
  split at h <;> cases h
  rfl

theorem written_prefix_write (k : Sink β) (bs : List β) : (k.write bs).2.written <+: k.written ++ bs := by
  unfold write
  split
  · exact List.prefix_rfl
  · exact (List.prefix_append_right_inj _).mpr (List.take_prefix _ _)

theorem written_of_writeAll (h : k.writeAll blocks = (true, k')) : k'.written = k.written ++ blocks.flatten := by
  fun_induction writeAll k blocks with
  | case1 k =>
    cases h
    rw [List.flatten_nil, List.append_nil]
  | case2 k b bs k1 hw ih => rw [ih h, written_of_write hw, List.flatten_cons, List.append_assoc]
  | case3 => cases h

theorem written_prefix_writeAll (k : Sink β) (blocks : List (List β)) :
    (k.writeAll blocks).2.written <+: k.written ++ blocks.flatten := by
  fun_induction writeAll k blocks with
  | case1 k => exact List.prefix_append _ _
  | case2 k b bs k1 hw ih =>
    rw [List.flatten_cons, ← List.append_assoc, ← written_of_write hw]
    exact ih
  | case3 k b bs k1 hw =>
    have := written_prefix_write k b
    rw [hw] at this
    rw [List.flatten_cons, ← List.append_assoc]
    exact this.trans (List.prefix_append _ _)

theorem Sound.write (hk : k.Sound) :
    k.write bs = (true, { k with written := k.written ++ bs, writes := k.writes + 1 }) := by
  rw [Sink.write, hk]

theorem Sound.writeAll (hk : k.Sound) (blocks : List (List β)) :
    ∃ k', k.writeAll blocks = (true, k') ∧ k'.Sound := by
  induction blocks generalizing k with
  | nil => exact ⟨k, rfl, hk⟩
  | cons b bs ih =>
    obtain ⟨k', h, hk'⟩ := ih (k := { k with written := k.written ++ b, writes := k.writes + 1 }) hk
    refine ⟨k', ?_, hk'⟩
    rw [Sink.writeAll, hk.write]
    exact h

end Sink

/-- A `bufio.Reader`. -/
structure Reader (β : Type*) where
  size : ℕ
  buf : List β
  source : Source β
  size_pos : 0 < size

namespace Reader

variable (r : Reader β)

/-- What is still to be read. -/
def bytes : List β := r.buf ++ r.source.rest

def readByte : Except IoErr (β × Reader β) :=
  match r.buf with
  | b :: bs => .ok (b, { r with buf := bs })
  | [] =>
    match r.source.read r.size with
    | .error e => .error e
    | .ok ([], _) => .error .noProgress
    | .ok (b :: bs, source) => .ok (b, { r with buf := bs, source })

/-- One `Read` into a slice of length `n`; a long slice is read into without the buffer. -/
def read (n : ℕ) : Except IoErr (List β × Reader β) :=
  match r.buf with
  | b :: bs => .ok ((b :: bs).take n, { r with buf := (b :: bs).drop n })
  | [] =>
    match r.source.read (if r.size ≤ n then n else r.size) with
    | .error e => .error e
    | .ok (got, source) => .ok (got.take n, { r with buf := got.drop n, source })

variable {r} {r' : Reader β} {n : ℕ} {got : List β} {b : β}

theorem length_of_read (h : r.read n = .ok (got, r')) (hn : 0 < n) : 0 < got.length ∧ got.length ≤ n := by
  unfold read at h
  split at h
  · cases h
    rw [List.length_take, List.length_cons]
    omega
  · split at h <;> cases h
    next hread =>
    have := (Source.length_of_read hread (by split_ifs <;> [exact hn; exact r.size_pos])).1
    rw [List.length_take]
    omega

/-- `io.ReadFull`. -/
def readFull : ℕ → Reader β → Except IoErr (List β × Reader β)
  | 0, r => .ok ([], r)
  | n + 1, r =>
    match _h : r.read (n + 1) with
    | .error e => .error e
    | .ok (got, r') =>
      match readFull (n + 1 - got.length) r' with
      | .ok (more, r'') => .ok (got ++ more, r'')
      | .error .eof => .error .unexpectedEOF
      | .error e => .error e
termination_by n => n
decreasing_by
  have := length_of_read _h (Nat.succ_pos n)
  omega

theorem bytes_of_readByte (h : r.readByte = .ok (b, r')) : r.bytes = b :: r'.bytes := by
  unfold readByte at h
  split at h
  next hbuf =>
    cases h
    rw [bytes, hbuf]
    rfl
  next hbuf =>
    split at h <;> cases h
    next hread =>
    rw [bytes, hbuf, Source.rest_of_read hread]
    rfl

theorem bytes_of_read (h : r.read n = .ok (got, r')) : r.bytes = got ++ r'.bytes := by
  unfold read at h
  split at h
  next hbuf =>
    cases h
    rw [bytes, bytes, hbuf, ← List.append_assoc, List.take_append_drop]
  next hbuf =>
    split at h <;> cases h
    next hread =>
    rw [bytes, hbuf, List.nil_append, Source.rest_of_read hread]
    simp only [bytes, ← List.append_assoc, List.take_append_drop]

theorem sound_of_readByte (hr : r.source.Sound) (h : r.readByte = .ok (b, r')) : r'.source.Sound := by
  unfold readByte at h
  split at h
  · cases h
    exact hr
  · split at h <;> cases h
    next hread => exact hr.of_read hread

theorem sound_of_read (hr : r.source.Sound) (h : r.read n = .ok (got, r')) : r'.source.Sound := by
  unfold read at h
  split at h
  · cases h
    exact hr
  · split at h <;> cases h
    next hread => exact hr.of_read hread

theorem exists_readByte (hr : r.source.Sound) (hb : r.bytes ≠ []) : ∃ b r', r.readByte = .ok (b, r') := by
  unfold readByte
  cases hbuf : r.buf with
  | cons b bs => exact ⟨_, _, rfl⟩
  | nil =>
    rw [bytes, hbuf, List.nil_append] at hb
    obtain ⟨got, c', hread⟩ := hr.read (n := r.size) hb
    obtain ⟨b, bs, rfl⟩ := List.exists_cons_of_length_pos (Source.length_of_read hread r.size_pos).1
    rw [hread]
    exact ⟨_, _, rfl⟩

theorem exists_read (hr : r.source.Sound) (hb : r.bytes ≠ []) : ∃ got r', r.read n = .ok (got, r') := by
  unfold read
  cases hbuf : r.buf with
  | cons b bs => exact ⟨_, _, rfl⟩
  | nil =>
    rw [bytes, hbuf, List.nil_append] at hb
    obtain ⟨got, c', hread⟩ := hr.read (n := if r.size ≤ n then n else r.size) hb
    rw [hread]
    exact ⟨_, _, rfl⟩

/-- What is read in full is read in order, whatever the chunks. -/
theorem bytes_of_readFull (h : r.readFull n = .ok (got, r')) : r.bytes = got ++ r'.bytes ∧ got.length = n := by
  fun_induction readFull n r generalizing got r' with
  | case1 r =>
    cases h
    exact ⟨rfl, rfl⟩
  | case2 => cases h
  | case3 n r first r1 hread more r2 hmore ih =>
    cases h
    obtain ⟨hbytes, hlen⟩ := ih hmore
    have := length_of_read hread (Nat.succ_pos n)
    refine ⟨by rw [bytes_of_read hread, hbytes, List.append_assoc], ?_⟩
    rw [List.length_append, hlen]
    omega
  | case4 | case5 => cases h

theorem exists_readFull (hr : r.source.Sound) (hn : n ≤ r.bytes.length) :
    ∃ got r', r.readFull n = .ok (got, r') ∧ r'.source.Sound := by
  fun_induction readFull n r with
  | case1 r => exact ⟨_, _, rfl, hr⟩
  | case2 n r e hread =>
    obtain ⟨got, r', h⟩ := exists_read (n := n + 1) hr (List.length_pos_iff.mp (by omega))
    rw [hread] at h
    cases h
  | case3 n r first r1 hread more r2 hmore ih =>
    obtain ⟨_, _, h, hs⟩ := ih (sound_of_read hr hread) (by
      have := congrArg List.length (bytes_of_read hread)
      rw [List.length_append] at this
      omega)
    rw [hmore] at h
    cases h
    exact ⟨_, _, rfl, hs⟩
  | case4 n r first r1 hread hmore ih | case5 n r first r1 hread e hne hmore ih =>
    obtain ⟨_, _, h, -⟩ := ih (sound_of_read hr hread) (by
      have := congrArg List.length (bytes_of_read hread)
      rw [List.length_append] at this
      omega)
    rw [hmore] at h
    cases h

end Reader

/-! ## Reading from either kind of reader -/

/-- What gives bytes one by one and in blocks, in their order. -/
class ByteReader (ρ : Type*) (β : outParam Type*) where
  bytes : ρ → List β
  /-- No read fails before the end. -/
  Sound : ρ → Prop
  readByte : ρ → Except IoErr (β × ρ)
  readFull : ℕ → ρ → Except IoErr (List β × ρ)
  bytes_of_readByte : ∀ {r r' b}, readByte r = .ok (b, r') → bytes r = b :: bytes r'
  bytes_of_readFull : ∀ {n r r' got}, readFull n r = .ok (got, r') → bytes r = got ++ bytes r' ∧ got.length = n
  exists_readByte : ∀ {r}, Sound r → bytes r ≠ [] → ∃ b r', readByte r = .ok (b, r') ∧ Sound r'
  exists_readFull : ∀ {n r}, Sound r → n ≤ (bytes r).length → ∃ got r', readFull n r = .ok (got, r') ∧ Sound r'

instance : ByteReader (Reader β) β where
  bytes := Reader.bytes
  Sound r := r.source.Sound
  readByte := Reader.readByte
  readFull := Reader.readFull
  bytes_of_readByte := Reader.bytes_of_readByte
  bytes_of_readFull := Reader.bytes_of_readFull
  exists_readByte hr hb := by
    obtain ⟨b, r', h⟩ := Reader.exists_readByte hr hb
    exact ⟨b, r', h, Reader.sound_of_readByte hr h⟩
  exists_readFull := Reader.exists_readFull

/-- A slice of bytes that is read from its start. -/
instance : ByteReader (List β) β where
  bytes r := r
  Sound _ := True
  readByte
    | [] => .error .eof
    | b :: r => .ok (b, r)
  readFull n r := if r.length < n then .error (if r = [] then .eof else .unexpectedEOF) else .ok (r.take n, r.drop n)
  bytes_of_readByte {r r' b} h := by
    cases r <;> cases h
    rfl
  bytes_of_readFull {n r r' got} h := by
    split_ifs at h with hn
    cases h
    exact ⟨(List.take_append_drop n r).symm, List.length_take_of_le (Nat.le_of_not_lt hn)⟩
  exists_readByte {r} _ hb := by
    obtain ⟨b, bs, rfl⟩ := List.exists_cons_of_ne_nil hb
    exact ⟨b, bs, rfl, trivial⟩
  exists_readFull {n r} _ hn := ⟨r.take n, r.drop n, if_neg (Nat.not_lt.mpr hn), trivial⟩

open ByteReader

section Rules

universe v

variable {ρ α γ : Type v} {ε : Type*} [ByteReader ρ β] {m : StateT ρ (Except ε) α} {f : α → StateT ρ (Except ε) γ}
  {xs ys : List β} {a : α} {c : γ} {P : List β → α → Prop} {Q : List β → γ → Prop}

/-- Where the bytes `xs` come next, `m` reads exactly them and gives `a`. -/
def Reads (m : StateT ρ (Except ε) α) (xs : List β) (a : α) : Prop :=
  ∀ r ys, Sound r → bytes r = xs ++ ys → ∃ r', m.run r = .ok (a, r') ∧ Sound r' ∧ bytes r' = ys

/-- Whatever `m` gives, it has read bytes for which `P` holds. -/
def Takes (m : StateT ρ (Except ε) α) (P : List β → α → Prop) : Prop :=
  ∀ r a r', m.run r = .ok (a, r') → ∃ xs, bytes r = xs ++ bytes r' ∧ P xs a

theorem Reads.pure (a : α) : Reads (pure a : StateT ρ (Except ε) α) [] a :=
  fun r _ hr h => ⟨r, rfl, hr, h⟩

theorem Reads.bind (hm : Reads m xs a) (hf : Reads (f a) ys c) : Reads (m >>= f) (xs ++ ys) c := by
  intro r zs hr hbytes
  obtain ⟨r', hrun, hr', hbytes'⟩ := hm r (ys ++ zs) hr (by rw [hbytes, List.append_assoc])
  obtain ⟨r'', hrun', hr'', hbytes''⟩ := hf r' zs hr' hbytes'
  exact ⟨r'', by rw [StateT.run_bind, hrun]; exact hrun', hr'', hbytes''⟩

/-- Nothing more is read. -/
theorem Reads.last (hm : Reads m xs a) (hf : Reads (f a) [] c) : Reads (m >>= f) xs c := by
  have h := hm.bind hf
  rwa [List.append_nil] at h

theorem Takes.pure (h : P [] a) : Takes (pure a : StateT ρ (Except ε) α) P := by
  rintro r a' r' hrun
  cases hrun
  exact ⟨[], rfl, h⟩

theorem Takes.bind (hm : Takes m P)
    (hf : ∀ xs a, P xs a → Takes (f a) fun ys c => Q (xs ++ ys) c) : Takes (m >>= f) Q := by
  intro r c r'' hrun
  rw [StateT.run_bind] at hrun
  cases hr : m.run r with
  | error e =>
    rw [hr] at hrun
    cases hrun
  | ok x =>
    obtain ⟨a, r'⟩ := x
    rw [hr] at hrun
    obtain ⟨xs, hxs, hP⟩ := hm r a r' hr
    obtain ⟨ys, hys, hQ⟩ := hf xs a hP r' c r'' hrun
    exact ⟨xs ++ ys, by rw [hxs, hys, List.append_assoc], hQ⟩

theorem Takes.throw (e : ε) : Takes (throw e : StateT ρ (Except ε) α) P := by
  intro r a r' hrun
  cases hrun

theorem Takes.mono {P' : List β → α → Prop} (hm : Takes m P) (h : ∀ xs a, P xs a → P' xs a) : Takes m P' := by
  intro r a r' hrun
  obtain ⟨xs, hxs, hP⟩ := hm r a r' hrun
  exact ⟨xs, hxs, h xs a hP⟩

end Rules

end Lib
