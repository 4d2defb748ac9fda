import Mathlib.Data.List.Induction
import Mathlib.Tactic.NormNum
import Mathlib.Tactic.Ring
import McServerDashboard.Storage.Region

/-!
# The check of region files by the Worker

The Worker checks the region files that it is going to send by the rules of the storage, in 64-bit arithmetic and by
reads that fail at the end of the file.

* `int64`: a result of 64 bits.
* `checkChunk`, `checkOpened`: the check of a chunk, and of a file.
* **`checkOpened_eq`**: both checks have the same verdict, and fail at the same chunk for the same reason.
-/

namespace McServerDashboard.Worker.RegionFsck

open Storage Storage.Region

/-! ## The check -/

/-- A result of an `int64`, which wraps around. -/
def int64 (x : ℤ) : ℤ := x.bmod (2 ^ 64)

def sectorSize : ℤ := 4096

def entryCount : ℕ := 1024

def locationTableSize : ℕ := entryCount * 4

def headerSectors : ℤ := 2

def chunkPrefix : ℕ := 5

def externalFlag : UInt8 := 0x80

def knownCompressionSchemes : List UInt8 := [1, 2, 3, 4]

inductive Reason
  | none
  | notAligned
  | sectorOutOfBounds
  | badCompression
  | truncatedChunk
  deriving DecidableEq

def Reason.string : Reason → String
  | none => "none"
  | notAligned => "not_4096_aligned"
  | sectorOutOfBounds => "sector_out_of_bounds"
  | badCompression => "bad_compression"
  | truncatedChunk => "truncated_chunk"

/-- The reason that `checkOpened` returns with a check. -/
def reason : Check → Reason
  | .header => .notAligned
  | .sectorBounds | .startsPastEnd => .sectorOutOfBounds
  | .scheme => .badCompression
  | .shortPrefix | .emptyLength | .sectorOverrun | .fileOverrun => .truncatedChunk

inductive ReadError
  | negativeOffset
  | eof
  deriving DecidableEq

/-- `ReadAt`, which fails when it does not fill the buffer. -/
def readAt (data : List UInt8) (n : ℕ) (off : ℤ) : Except ReadError (List UInt8) :=
  if off < 0 then .error .negativeOffset
  else if data.length < off.toNat + n then .error .eof
  else .ok ((data.drop off.toNat).take n)

/-- `binary.BigEndian.Uint32`. -/
def uint32 (b : List UInt8) : ℕ :=
  (b.getD 3 0).toNat ||| (b.getD 2 0).toNat <<< 8 ||| (b.getD 1 0).toNat <<< 16 ||| (b.getD 0 0).toNat <<< 24

/-- The three bytes of an offset, each in its place. -/
def entryOffset (entry : List UInt8) : ℤ :=
  ((entry.getD 0 0).toNat <<< 16 ||| (entry.getD 1 0).toNat <<< 8 ||| (entry.getD 2 0).toNat : ℕ)

def knownScheme (compression : UInt8) : Bool :=
  (if compression &&& externalFlag ≠ 0 then compression &&& ~~~externalFlag else compression) ∈ knownCompressionSchemes

/-- The rest of a turn, from the five bytes before the payload. -/
def checkHead (size offset sectorCount : ℤ) (head : List UInt8) : Option Check :=
  if !knownScheme (head.getD 4 0) then some .scheme
  else if (uint32 (head.take 4) : ℤ) < 1 then some .emptyLength
  else if int64 (int64 (sectorCount * sectorSize) - 4) < uint32 (head.take 4) then some .sectorOverrun
  else if size < int64 (int64 (int64 (offset * sectorSize) + 4) + uint32 (head.take 4)) then some .fileOverrun
  else none

def checkSectors (size : ℤ) (data : List UInt8) (offset sectorCount : ℤ) : Except ReadError (Option Check) :=
  if offset = 0 ∧ sectorCount = 0 then .ok none
  else if offset < headerSectors ∨ sectorCount = 0 then .ok (some .sectorBounds)
  else if size ≤ int64 (offset * sectorSize) then .ok (some .startsPastEnd)
  else
    match readAt data chunkPrefix (int64 (offset * sectorSize)) with
    | .error .eof => .ok (some .shortPrefix)
    | .error e => .error e
    | .ok head => .ok (checkHead size offset sectorCount head)

/-- A turn of the loop of `checkOpened`. -/
def checkChunk (size : ℤ) (data entry : List UInt8) : Except ReadError (Option Check) :=
  checkSectors size data (entryOffset entry) (entry.getD 3 0).toNat

/-- The loop, up to the first finding or error. -/
def checkChunks (size : ℤ) (data table : List UInt8) : List ℕ → Except ReadError (Option Finding)
  | [] => .ok none
  | index :: rest =>
    match checkChunk size data ((table.drop (index * 4)).take 4) with
    | .error e => .error e
    | .ok (some c) => .ok (some ⟨c, some index⟩)
    | .ok none => checkChunks size data table rest

/-- `checkOpened` on a regular file, with what failed. -/
def checkOpened (data : List UInt8) : Except ReadError (Option Finding) :=
  let size := int64 data.length
  if size = 0 then .ok none
  else if size < headerSectors * sectorSize then .ok (some ⟨.header, none⟩)
  else
    match readAt data locationTableSize 0 with
    | .error e => .error e
    | .ok table => checkChunks size data table (List.range entryCount)

/-- The bytes of a file, the size of which is an `int64`. -/
structure RegionFile where
  bytes : List UInt8
  fits : bytes.length < 2 ^ 63

/-! ## Arithmetic -/

theorem int64_of_lt {x : ℤ} (hlo : -2 ^ 63 ≤ x) (hhi : x < 2 ^ 63) : int64 x = x :=
  Int.bmod_eq_of_le (by norm_num; exact hlo) (by norm_num; exact hhi)

theorem fromBytes_lt (bytes : List UInt8) : fromBytes bytes < 2 ^ (8 * bytes.length) := by
  induction bytes using List.reverseRecOn with
  | nil => decide
  | append_singleton bytes b ih =>
    rw [fromBytes, List.foldl_append, List.length_append, Nat.mul_add, Nat.pow_add]
    have hb := b.toNat_lt
    change fromBytes bytes * 256 + b.toNat < 2 ^ (8 * bytes.length) * 256
    omega

/-- Bits in their place are added. -/
theorem or_shiftLeft {x k : ℕ} (hx : x < 2 ^ k) (y : ℕ) : x ||| y <<< k = x + y * 2 ^ k := by
  rw [Nat.or_comm, ← Nat.shiftLeft_add_eq_or_of_lt hx, Nat.shiftLeft_eq, Nat.add_comm]

/-- The bytes of an offset, in their places, are the number that they spell. -/
theorem entryOffset_eq {entry : List UInt8} (h : entry.length = 4) : entryOffset entry = (fromBytes (entry.take 3) : ℤ) := by
  match entry, h with
  | [a, b, c, d], _ =>
    have ha := a.toNat_lt
    have hb := b.toNat_lt
    have hc := c.toNat_lt
    have hspell : fromBytes ([a, b, c, d].take 3) = c.toNat + b.toNat * 2 ^ 8 + a.toNat * 2 ^ 16 := by
      simp only [fromBytes, List.take_succ_cons, List.take_zero, List.foldl_cons, List.foldl_nil]
      omega
    have hplace : a.toNat <<< 16 ||| b.toNat <<< 8 ||| c.toNat = c.toNat + b.toNat * 2 ^ 8 + a.toNat * 2 ^ 16 := by
      rw [Nat.or_comm, Nat.or_comm (_ <<< 16), ← Nat.or_assoc, or_shiftLeft hc, or_shiftLeft (by omega)]
    rw [hspell, ← hplace]
    rfl

/-- So are those of a length. -/
theorem uint32_eq {head : List UInt8} (h : head.length = 4) : uint32 head = fromBytes head := by
  match head, h with
  | [a, b, c, d], _ =>
    have ha := a.toNat_lt
    have hb := b.toNat_lt
    have hc := c.toNat_lt
    have hd := d.toNat_lt
    have hspell : fromBytes [a, b, c, d] =
        d.toNat + c.toNat * 2 ^ 8 + b.toNat * 2 ^ 16 + a.toNat * 2 ^ 24 := by
      simp only [fromBytes, List.foldl_cons, List.foldl_nil]
      omega
    have hplace : d.toNat ||| c.toNat <<< 8 ||| b.toNat <<< 16 ||| a.toNat <<< 24 =
        d.toNat + c.toNat * 2 ^ 8 + b.toNat * 2 ^ 16 + a.toNat * 2 ^ 24 := by
      rw [or_shiftLeft hd, or_shiftLeft (x := d.toNat + c.toNat * 2 ^ 8) (k := 16) (by omega), or_shiftLeft (by omega)]
    rw [hspell, ← hplace]
    rfl

/-- The same schemes are known. -/
theorem knownScheme_eq (compression : UInt8) :
    knownScheme compression = decide (scheme compression.toNat ∈ compressionSchemes) := by
  have hall : ∀ n < 256, knownScheme (UInt8.ofNat n) = decide (scheme (UInt8.ofNat n).toNat ∈ compressionSchemes) := by
    decide +kernel
  have h := hall compression.toNat compression.toNat_lt
  rwa [UInt8.ofNat_toNat] at h

/-! ## The verdicts -/

variable {data entry : List UInt8}

theorem readAt_eq {n off : ℕ} (h : off + n ≤ data.length) : readAt data n off = .ok (read data off n) := by
  rw [readAt, if_neg (by omega), Int.toNat_natCast, if_neg (by omega)]
  rfl

theorem readAt_eof {n off : ℕ} (h : data.length < off + n) : readAt data n off = .error .eof := by
  rw [readAt, if_neg (by omega), Int.toNat_natCast, if_pos h]

section

variable {start count length : ℕ}

theorem int64_start (hstart : start < 2 ^ 24) : int64 (start * sectorSize) = ((start * sector : ℕ) : ℤ) := by
  rw [sectorSize, int64_of_lt (by omega) (by omega), sector, Nat.cast_mul]
  rfl

theorem int64_capacity (hcount : count < 2 ^ 8) (hpos : count ≠ 0) :
    int64 (int64 (count * sectorSize) - 4) = ((count * sector - 4 : ℕ) : ℤ) := by
  have hsectors : int64 (count * sectorSize) = count * 4096 := int64_of_lt (by rw [sectorSize]; omega) (by rw [sectorSize]; omega)
  rw [hsectors, int64_of_lt (by omega) (by omega), sector]
  omega

theorem int64_end (hstart : start < 2 ^ 24) (hlength : length < 2 ^ 32) :
    int64 (int64 (int64 (start * sectorSize) + 4) + length) = ((start * sector + 4 + length : ℕ) : ℤ) := by
  have hhead : int64 (((start * sector : ℕ) : ℤ) + 4) = ((start * sector + 4 : ℕ) : ℤ) := by
    rw [int64_of_lt (by rw [sector]; omega) (by rw [sector]; omega), Nat.cast_add]
    rfl
  rw [int64_start hstart, hhead, ← Nat.cast_add]
  exact int64_of_lt (by rw [sector]; omega) (by rw [sector]; omega)

end

variable {start count : ℕ}

/-- **What is declared is judged alike**: an offset has 24 bits, a count 8 and a length 32, so that nothing wraps
around. -/
theorem checkHead_eq {size : ℕ} {head : List UInt8} (hstart : start < 2 ^ 24) (hcount : count < 2 ^ 8) (hpos : count ≠ 0)
    (hhead : head.length = Region.chunkPrefix) : checkHead size start count head = Region.checkHead size start count head := by
  have hfour : (head.take 4).length = 4 := by
    rw [List.length_take, hhead]
    rfl
  have hdeclared := fromBytes_lt (head.take 4)
  rw [hfour, show 8 * 4 = 32 from rfl] at hdeclared
  rw [checkHead, Region.checkHead, if_neg (Nat.not_lt_of_le (Nat.le_of_eq hhead.symm)), uint32_eq hfour, knownScheme_eq,
    int64_end hstart hdeclared, int64_capacity hcount hpos]
  refine if_congr (by simp) rfl (if_congr ?_ rfl (if_congr Nat.cast_lt rfl (if_congr Nat.cast_lt rfl rfl)))
  exact Int.ofNat_lt (m := 1)

/-- **Where a chunk lies is judged alike.** -/
theorem checkSectors_eq (hstart : start < 2 ^ 24) (hcount : count < 2 ^ 8) :
    checkSectors data.length data start count = .ok (Region.checkSectors data.length data start count) := by
  have hheader : headerSectors = ((Region.headerSectors : ℕ) : ℤ) := rfl
  have hfive : chunkPrefix = Region.chunkPrefix := rfl
  rw [checkSectors, Region.checkSectors, int64_start hstart, hheader, hfive]
  by_cases habsent : start = 0 ∧ count = 0
  · rw [if_pos habsent, if_pos (by exact_mod_cast habsent)]
  rw [if_neg habsent, if_neg (by exact_mod_cast habsent)]
  by_cases hbounds : start < Region.headerSectors ∨ count = 0
  · rw [if_pos hbounds, if_pos (hbounds.imp Int.ofNat_lt.mpr Nat.cast_eq_zero.mpr)]
  rw [if_neg hbounds, if_neg (mt (Or.imp Int.ofNat_lt.mp Nat.cast_eq_zero.mp) hbounds)]
  by_cases hpast : data.length ≤ start * sector
  · rw [if_pos hpast, if_pos (Nat.cast_le.mpr hpast)]
  rw [if_neg hpast, if_neg (mt Nat.cast_le.mp hpast)]
  by_cases hshort : data.length < start * sector + Region.chunkPrefix
  · have hlt : (read data (start * sector) Region.chunkPrefix).length < Region.chunkPrefix := by
      rw [length_read]
      omega
    rw [readAt_eof hshort, Region.checkHead, if_pos hlt]
  · have hhead : (read data (start * sector) Region.chunkPrefix).length = Region.chunkPrefix := by
      rw [length_read]
      omega
    rw [readAt_eq (Nat.le_of_not_lt hshort)]
    exact congrArg Except.ok (checkHead_eq hstart hcount (not_or.mp hbounds).2 hhead)

theorem checkChunk_eq (hentry : entry.length = 4) :
    checkChunk data.length data entry = .ok (checkEntry data.length data entry) := by
  have hthree : 8 * (entry.take 3).length = 24 := by
    rw [List.length_take, hentry]
    rfl
  rw [checkChunk, checkEntry, entryOffset_eq hentry]
  exact checkSectors_eq (hthree ▸ fromBytes_lt (entry.take 3)) (UInt8.toNat_lt _)

theorem checkChunks_eq {table : List UInt8} {indices : List ℕ}
    (htable : ∀ index ∈ indices, ((table.drop (index * 4)).take 4).length = 4) :
    checkChunks data.length data table indices = .ok (indices.findSome? fun index =>
      (checkEntry data.length data ((table.drop (index * 4)).take 4)).map fun c => ⟨c, some index⟩) := by
  induction indices with
  | nil => rfl
  | cons index rest ih =>
    rw [checkChunks, checkChunk_eq (htable index List.mem_cons_self), List.findSome?_cons]
    cases checkEntry data.length data ((table.drop (index * 4)).take 4) with
    | none => exact ih fun i hi => htable i (List.mem_cons_of_mem _ hi)
    | some c => rfl

/-- **The Worker and the storage agree on every file**: the check that fails first, the chunk, and the reason given. -/
theorem checkOpened_eq (f : RegionFile) :
    checkOpened f.bytes = .ok (checkRegion f.bytes.length f.bytes) ∧
      ∀ c : Check, (reason c).string = c.reason.value := by
  refine ⟨?_, fun c => by cases c <;> rfl⟩
  have hfits := f.fits
  unfold checkOpened checkRegion
  simp only
  rw [int64_of_lt (by omega) (by exact_mod_cast hfits)]
  have hheader : headerSectors * sectorSize = ((Region.headerSectors * sector : ℕ) : ℤ) := rfl
  rw [hheader]
  by_cases hempty : f.bytes.length = 0
  · rw [if_pos (by exact_mod_cast hempty), if_pos hempty]
  rw [if_neg (by exact_mod_cast hempty), if_neg hempty]
  by_cases hshort : f.bytes.length < Region.headerSectors * sector
  · rw [if_pos (by exact_mod_cast hshort), if_pos hshort]
  rw [if_neg (by exact_mod_cast hshort), if_neg hshort]
  have htwo : Region.headerSectors * sector = 8192 := rfl
  have hfits : 0 + locationTableSize ≤ f.bytes.length := by
    rw [locationTableSize, entryCount]
    omega
  have htable : readAt f.bytes locationTableSize 0 = .ok (read f.bytes 0 Region.locationTableSize) := readAt_eq hfits
  rw [htable]
  refine checkChunks_eq fun index hindex => ?_
  have hlt : index < 1024 := List.mem_range.mp hindex
  have hlen : (read f.bytes 0 Region.locationTableSize).length = 4096 := by
    rw [length_read]
    change min 4096 _ = 4096
    omega
  rw [List.length_take, List.length_drop, hlen]
  omega

/-- A file of one chunk, at the third sector, whose compression scheme is none. -/
def unknownScheme : RegionFile where
  bytes := [0, 0, 2, 1] ++ List.replicate 8188 0 ++ [0, 0, 0, 2, 9, 0] ++ List.replicate 4090 0
  fits := by
    rw [List.length_append, List.length_append, List.length_append, List.length_replicate, List.length_replicate]
    decide

theorem checkOpened_eq_unknownScheme : checkOpened unknownScheme.bytes = .ok (some ⟨.scheme, some 0⟩) ∧
    (reason .scheme).string = "bad_compression" := by
  obtain ⟨hchecked, hreason⟩ := checkOpened_eq unknownScheme
  have hfound : checkRegion unknownScheme.bytes.length unknownScheme.bytes = some ⟨.scheme, some 0⟩ := by decide +kernel
  exact ⟨hchecked.trans (congrArg _ hfound), hreason .scheme⟩

end McServerDashboard.Worker.RegionFsck
