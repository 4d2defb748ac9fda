import Mathlib.Data.List.Basic
import Mathlib.Data.Nat.Bitwise
import Mathlib.Tactic.SplitIfs

/-!
# Region files

A region file is a table of 1024 chunks, another sector of header, and the chunks themselves, each in sectors of its
own. The check reads the table and the first bytes of every chunk.

* `checkEntry`, `checkRegion`: the check of a chunk, and of a file.
* `EntrySound`, `checkEntry_eq_none`: what a chunk passes.
* **`corrupt_prefix_iff`**: what has been cut off a healthy file is found out, exactly if it is part of the header or of a
  chunk.
-/

namespace McServerDashboard.Storage.Region

/-! ## The check -/

def sector : ℕ := 4096

def entryCount : ℕ := 1024

def locationTableSize : ℕ := entryCount * 4

def headerSectors : ℕ := 2

def chunkPrefix : ℕ := 5

def compressionSchemes : List ℕ := [1, 2, 3, 4]

def externalFlag : ℕ := 0x80

inductive ReasonCode
  | not4096Aligned
  | sectorOutOfBounds
  | badCompression
  | truncatedChunk
  deriving DecidableEq

def ReasonCode.value : ReasonCode → String
  | not4096Aligned => "not_4096_aligned"
  | sectorOutOfBounds => "sector_out_of_bounds"
  | badCompression => "bad_compression"
  | truncatedChunk => "truncated_chunk"

/-- The checks that a file can fail. -/
inductive Check
  | header
  | sectorBounds
  | startsPastEnd
  | shortPrefix
  | scheme
  | emptyLength
  | sectorOverrun
  | fileOverrun
  deriving DecidableEq

/-- The reason that `_check_region` returns. -/
def Check.reason : Check → ReasonCode
  | header => .not4096Aligned
  | sectorBounds | startsPastEnd => .sectorOutOfBounds
  | scheme => .badCompression
  | shortPrefix | emptyLength | sectorOverrun | fileOverrun => .truncatedChunk

/-- The check that failed, and at which entry of the table. -/
structure Finding where
  check : Check
  index : Option ℕ
  deriving DecidableEq

/-- `int.from_bytes(…, "big")`. -/
def fromBytes (bytes : List UInt8) : ℕ := bytes.foldl (fun n b => n * 256 + b.toNat) 0

/-- `fh.seek` and `fh.read`. -/
def read (data : List UInt8) (pos n : ℕ) : List UInt8 := (data.drop pos).take n

/-- The scheme without the flag of an external payload. -/
def scheme (compression : ℕ) : ℕ :=
  if compression &&& externalFlag ≠ 0 then Nat.ldiff compression externalFlag else compression

/-- The rest of a turn, from the five bytes before the payload. -/
def checkHead (size offset sectorCount : ℕ) (head : List UInt8) : Option Check :=
  if head.length < chunkPrefix then some .shortPrefix
  else if scheme (head.getD 4 0).toNat ∉ compressionSchemes then some .scheme
  else if fromBytes (head.take 4) < 1 then some .emptyLength
  else if sectorCount * sector - 4 < fromBytes (head.take 4) then some .sectorOverrun
  else if size < offset * sector + 4 + fromBytes (head.take 4) then some .fileOverrun
  else none

def checkSectors (size : ℕ) (data : List UInt8) (offset sectorCount : ℕ) : Option Check :=
  if offset = 0 ∧ sectorCount = 0 then none
  else if offset < headerSectors ∨ sectorCount = 0 then some .sectorBounds
  else if size ≤ offset * sector then some .startsPastEnd
  else checkHead size offset sectorCount (read data (offset * sector) chunkPrefix)

/-- A turn of the loop of `_check_region`. -/
def checkEntry (size : ℕ) (data entry : List UInt8) : Option Check :=
  checkSectors size data (fromBytes (entry.take 3)) (entry.getD 3 0).toNat

/-- An entry of the location table. -/
def tableEntry (data : List UInt8) (index : ℕ) : List UInt8 := read (read data 0 locationTableSize) (index * 4) 4

/-- `_check_region`, with what failed. -/
def checkRegion (size : ℕ) (data : List UInt8) : Option Finding :=
  if size = 0 then none
  else if size < headerSectors * sector then some ⟨.header, none⟩
  else (List.range entryCount).findSome? fun index =>
    (checkEntry size data (tableEntry data index)).map fun c => ⟨c, some index⟩

/-- `check_region_bytes`. -/
def checkRegionBytes (name : String) (data : List UInt8) : Option (String × ReasonCode) :=
  (checkRegion data.length data).map fun f => (name, f.check.reason)

/-! ## Sound chunks -/

variable {data p entry : List UInt8} {size pos n index : ℕ}

/-- A chunk of `count` sectors from the sector `start` on is all there. -/
structure EntrySound (size : ℕ) (data : List UInt8) (start count : ℕ) : Prop where
  clear : headerSectors ≤ start
  allocated : count ≠ 0
  head : start * sector + chunkPrefix ≤ data.length
  scheme : Region.scheme ((read data (start * sector) chunkPrefix).getD 4 0).toNat ∈ compressionSchemes
  length : 1 ≤ fromBytes (read data (start * sector) 4)
  sectors : fromBytes (read data (start * sector) 4) ≤ count * sector - 4
  file : start * sector + 4 + fromBytes (read data (start * sector) 4) ≤ size

theorem length_read : (read data pos n).length = min n (data.length - pos) := by
  rw [read, List.length_take, List.length_drop]

theorem take_read {m : ℕ} (h : m ≤ n) : (read data pos n).take m = read data pos m := by
  rw [read, read, List.take_take, Nat.min_eq_left h]

/-- **The check of a chunk** passes where there is none, or where it is sound. -/
theorem checkEntry_eq_none (hsize : size = data.length) : checkEntry size data entry = none ↔
    (fromBytes (entry.take 3) = 0 ∧ (entry.getD 3 0).toNat = 0) ∨
      EntrySound size data (fromBytes (entry.take 3)) (entry.getD 3 0).toNat := by
  unfold checkEntry
  generalize fromBytes (entry.take 3) = start
  generalize (entry.getD 3 0).toNat = count
  rw [checkSectors, checkHead, take_read (by decide : 4 ≤ chunkPrefix), length_read]
  have hprefix : chunkPrefix = 5 := rfl
  split_ifs with h1 h2 h3 h4 h5 h6 h7 h8
  · exact iff_of_true rfl (.inl h1)
  all_goals simp only [false_iff, not_or, true_iff]
  · exact ⟨h1, fun h => h2.elim (Nat.not_lt_of_le h.clear) h.allocated⟩
  · refine ⟨h1, fun h => ?_⟩
    have := h.file
    omega
  · refine ⟨h1, fun h => ?_⟩
    have := h.head
    omega
  · exact ⟨h1, fun h => Nat.not_lt_of_le h.length h6⟩
  · exact ⟨h1, fun h => Nat.not_lt_of_le h.sectors h7⟩
  · exact ⟨h1, fun h => Nat.not_lt_of_le h.file h8⟩
  · obtain ⟨h2, h2'⟩ := not_or.mp h2
    exact .inr ⟨Nat.le_of_not_lt h2, h2', by omega, h5, Nat.le_of_not_lt h6, Nat.le_of_not_lt h7, Nat.le_of_not_lt h8⟩
  · exact ⟨h1, fun h => h5 h.scheme⟩

/-- **A file is healthy** if it is empty, or has a header and no unsound chunk. -/
theorem checkRegion_eq_none : checkRegion size data = none ↔
    size = 0 ∨ headerSectors * sector ≤ size ∧ ∀ index < entryCount, checkEntry size data (tableEntry data index) = none := by
  unfold checkRegion
  have hpos : 0 < headerSectors * sector := by decide
  split_ifs with h1 h2
  · exact iff_of_true rfl (.inl h1)
  · refine iff_of_false nofun ?_
    rintro (h | ⟨h, -⟩)
    · exact h1 h
    · omega
  · rw [List.findSome?_eq_none_iff, or_iff_right h1]
    simp only [List.mem_range, Option.map_eq_none_iff]
    exact (and_iff_right (Nat.le_of_not_lt h2)).symm

/-! ## Prefixes -/

/-- What lies in the prefix is read from it. -/
theorem read_prefix (hp : p <+: data) (h : pos + n ≤ p.length) : read p pos n = read data pos n := by
  obtain ⟨rest, rfl⟩ := hp
  have hle : n ≤ (p.drop pos).length := by
    rw [List.length_drop]
    omega
  rw [read, read, List.drop_append_of_le_length (Nat.le_trans (Nat.le_add_right _ _) h), List.take_append_of_le_length hle]

/-- The offset of a chunk, and its declared length. -/
def offset (data : List UInt8) (index : ℕ) : ℕ := fromBytes ((tableEntry data index).take 3)

def sectorCount (data : List UInt8) (index : ℕ) : ℕ := ((tableEntry data index).getD 3 0).toNat

def declaredLength (data : List UInt8) (index : ℕ) : ℕ := fromBytes (read data (offset data index * sector) 4)

def Present (data : List UInt8) (index : ℕ) : Prop := ¬ (offset data index = 0 ∧ sectorCount data index = 0)

/-- A sound chunk stays sound in a prefix, as long as it is in it. -/
theorem EntrySound.prefix_iff {start count : ℕ} (hp : p <+: data) (h : EntrySound data.length data start count) :
    EntrySound p.length p start count ↔ start * sector + 4 + fromBytes (read data (start * sector) 4) ≤ p.length := by
  have hfive : chunkPrefix = 4 + 1 := rfl
  constructor
  · intro hs
    have hhead := hs.head
    rw [← read_prefix hp (by omega)]
    exact hs.file
  · intro hle
    have hlength := h.length
    have hread := read_prefix (n := chunkPrefix) hp (show start * sector + chunkPrefix ≤ p.length by omega)
    have hread4 := read_prefix (n := 4) hp (show start * sector + 4 ≤ p.length by omega)
    refine ⟨h.clear, h.allocated, by omega, ?_, ?_, ?_, ?_⟩
    · rw [hread]
      exact h.scheme
    all_goals rw [hread4]
    · exact h.length
    · exact h.sectors
    · exact hle

/-- **A prefix of a healthy file is corrupt**, exactly if it lacks a part of the header or of a chunk. -/
theorem corrupt_prefix_iff (hhealthy : checkRegion data.length data = none) (hp : p <+: data) (hne : p ≠ []) :
    checkRegion p.length p ≠ none ↔ p.length < headerSectors * sector ∨
      ∃ index < entryCount, Present data index ∧ p.length < offset data index * sector + 4 + declaredLength data index := by
  have hpos : p.length ≠ 0 := mt List.length_eq_zero_iff.mp hne
  have hsound := (checkRegion_eq_none.mp hhealthy).resolve_left fun h => hpos (Nat.le_zero.mp (h ▸ hp.length_le))
  rw [Ne, checkRegion_eq_none, or_iff_right hpos, Decidable.not_and_iff_not_or_not, Nat.not_le]
  refine or_congr_right' fun hheader => ?_
  -- the table is in the prefix
  have htable : ∀ index, tableEntry p index = tableEntry data index := by
    intro index
    have hle : 0 + locationTableSize ≤ headerSectors * sector := by decide
    rw [tableEntry, read_prefix hp (by omega), tableEntry]
  simp only [not_forall, exists_prop]
  refine exists_congr fun index => and_congr_right fun hindex => ?_
  have hentry := (checkEntry_eq_none rfl).mp (hsound.2 index hindex)
  rw [htable, checkEntry_eq_none rfl]
  by_cases habsent : offset data index = 0 ∧ sectorCount data index = 0
  · exact iff_of_false (fun h => h (.inl habsent)) fun h => h.1 habsent
  · refine Iff.trans (not_congr (Iff.trans (or_iff_right habsent) ((hentry.resolve_left habsent).prefix_iff hp))) ?_
    rw [Nat.not_le]
    exact (and_iff_right habsent).symm

/-- The file of one chunk, with five bytes. -/
def oneChunk : List UInt8 := ([0, 0, 2, 1] ++ List.replicate 8188 0) ++ [0, 0, 0, 5, 2, 1, 2, 3, 4]

theorem length_oneChunk : oneChunk.length = 8201 := by
  rw [oneChunk, List.length_append, List.length_append, List.length_replicate]
  rfl

theorem tableEntry_oneChunk (index : ℕ) (h : index < entryCount) :
    tableEntry oneChunk index = if index = 0 then [0, 0, 2, 1] else [0, 0, 0, 0] := by
  have htable : read oneChunk 0 locationTableSize = [0, 0, 2, 1] ++ List.replicate 4092 0 := by
    have hmin : min (locationTableSize - [(0 : UInt8), 0, 2, 1].length) 8188 = 4092 := by decide
    rw [read, oneChunk, List.drop_zero, List.append_assoc, List.take_append, List.take_of_length_le (by decide),
      List.take_append_of_le_length (by rw [List.length_replicate]; decide), List.take_replicate, hmin]
  rw [tableEntry, htable, read]
  split_ifs with h0
  · rw [h0]
    rfl
  · have hle : 4 ≤ 4092 - (index * 4 - 4) := by
      simp only [entryCount] at h
      omega
    rw [List.drop_append, List.drop_eq_nil_of_le (show [(0 : UInt8), 0, 2, 1].length ≤ index * 4 by
      simp only [List.length_cons, List.length_nil]
      omega), List.nil_append, List.drop_replicate, List.take_replicate]
    simp only [List.length_cons, List.length_nil]
    rw [Nat.min_eq_left hle]
    rfl

theorem read_oneChunk (n : ℕ) : read oneChunk 8192 n = ([0, 0, 0, 5, 2, 1, 2, 3, 4] : List UInt8).take n := by
  rw [read, oneChunk, List.drop_left' (by rw [List.length_append, List.length_replicate]; rfl)]

theorem checkRegion_oneChunk : checkRegion oneChunk.length oneChunk = none := by
  refine checkRegion_eq_none.mpr (.inr ⟨?_, fun index h => (checkEntry_eq_none rfl).mpr ?_⟩)
  · rw [length_oneChunk]
    decide
  · rw [tableEntry_oneChunk index h, length_oneChunk]
    split_ifs
    · refine .inr ⟨by decide, by decide, ?_, ?_, ?_, ?_, ?_⟩
      · rw [length_oneChunk]
        decide
      all_goals
        have hstart : fromBytes (([0, 0, 2, 1] : List UInt8).take 3) * sector = 8192 := rfl
        rw [hstart, read_oneChunk]
        decide
    · exact .inl (by decide)

/-- The chunk has lost its last three bytes. -/
theorem corrupt_prefix_iff_oneChunk : checkRegion (oneChunk.take 8198).length (oneChunk.take 8198) ≠ none ↔
    (oneChunk.take 8198).length < headerSectors * sector ∨ ∃ index < entryCount, Present oneChunk index ∧
      (oneChunk.take 8198).length < offset oneChunk index * sector + 4 + declaredLength oneChunk index :=
  corrupt_prefix_iff checkRegion_oneChunk (List.take_prefix _ _) (by
    rw [← List.length_pos_iff, List.length_take, length_oneChunk]
    decide)

end McServerDashboard.Storage.Region
