import Mathlib.Algebra.Group.Nat.Defs
import McServerDashboard.Lib.ReadSlice

/-!
# The lines of a log

A server's output is cut into lines twice: `LogPump.Scan` reads a plain stream, `demuxLogs` the frames of Docker's
multiplexed one, whose two streams it carries across frames. What follows is what each of them gives to the pump.

* `scan`, `emitScanLine`: the lines of a plain stream; `scan_eq`.
* `demuxLogs`, `emitFramePayload`: the lines of each stream of the frames; **`demuxLogs_lines`**.
* `Agreeing`: the lines that both cut alike; **`demux_matches_scan`**.
-/

namespace McServerDashboard.Worker.LogDemux

open Lib

abbrev Bytes := List UInt8

abbrev lf : UInt8 := 10
abbrev cr : UInt8 := 13

def maxLogLineBytes : ℕ := 8 * 1024

/-- `…[truncated]`. -/
def truncationMarker : Bytes := [0xE2, 0x80, 0xA6, 91, 116, 114, 117, 110, 99, 97, 116, 101, 100, 93]

/-- `truncate`. -/
def truncate (line : Bytes) : Bytes :=
  if line.length ≤ maxLogLineBytes then line else line.take maxLogLineBytes ++ truncationMarker

/-- `strings.TrimSuffix(s, "\r")`. -/
def trimCR (s : Bytes) : Bytes := if s.getLast? = some cr then s.dropLast else s

/-! ## The plain stream -/

/-- `trimLineEnd`. -/
def trimLineEnd (b : Bytes) : Bytes := trimCR (if b.getLast? = some lf then b.dropLast else b)

/-- What is kept of a line. -/
structure Kept where
  kept : Bytes
  truncated : Bool

def Kept.start : Kept := ⟨[], false⟩

def Kept.add (k : Kept) (content : Bytes) : Kept :=
  let room := maxLogLineBytes - k.kept.length
  if 0 < room then
    if room < content.length then ⟨k.kept ++ content.take room, true⟩ else ⟨k.kept ++ content, k.truncated⟩
  else if 0 < content.length then ⟨k.kept, true⟩
  else k

/-- `emitScanLine`: the line that is emitted. -/
def emitScanLine (kept : Bytes) (truncated : Bool) : Bytes := if truncated then kept ++ truncationMarker else kept

/-- `LogPump.Scan`, from the middle of a line: the lines that it emits. -/
def scan (k : Kept) (r : Reader UInt8) : List Bytes :=
  match _h : r.readSlice lf with
  | (chunk, .delim, r') =>
    let k := k.add (trimLineEnd chunk)
    emitScanLine (trimCR k.kept) k.truncated :: scan .start r'
  | (chunk, .full, r') => scan (k.add chunk) r'
  | (chunk, .error _, _) =>
    let k := k.add chunk
    if k.kept ≠ [] ∨ k.truncated then [emitScanLine k.kept k.truncated] else []
termination_by r.bytes.length
decreasing_by
  all_goals
    obtain ⟨hbytes, hne⟩ := Reader.bytes_of_readSlice _h
    have hpos := List.length_pos_of_ne_nil (hne nofun)
    rw [hbytes, List.length_append]
    omega

/-! ## The frames -/

inductive LogStream
  | stdout
  | stderr
  deriving DecidableEq

def dockerStreamHeaderLen : ℕ := 8

def dockerStreamStdout : UInt8 := 1
def dockerStreamStderr : UInt8 := 2

def maxFrameBytes : ℕ := 16 * 1024 * 1024

def maxCarryBytes : ℕ := maxLogLineBytes + 2

/-- `appendCapped`. -/
def appendCapped (buf s : Bytes) : Bytes :=
  let room := maxCarryBytes - buf.length
  if room = 0 then buf else buf ++ (if room < s.length then s.take room else s)

/-- `emitFramePayload`: the lines that are emitted, and what is carried on. -/
def emitFramePayload (buf payload : Bytes) : List Bytes × Bytes :=
  if _h : lf ∈ payload then
    let (lines, carry) := emitFramePayload [] (payload.dropWhile (· ≠ lf)).tail
    (truncate (trimCR (appendCapped buf (payload.takeWhile (· ≠ lf)))) :: lines, carry)
  else ([], appendCapped buf payload)
termination_by payload.length
decreasing_by
  obtain ⟨l, ys, rfl, hl⟩ := List.eq_append_cons_of_mem _h
  rw [(Reader.takeWhile_piece hl ys).2, List.tail_cons, List.length_append, List.length_cons]
  omega

/-- `binary.BigEndian.Uint32`. -/
def uint32 (b : Bytes) : ℕ := b.foldl (fun n c => n * 256 + c.toNat) 0

/-- What is carried of each stream when the frames end. -/
def flush (carry : LogStream → Bytes) : List (LogStream × Bytes) :=
  [LogStream.stdout, .stderr].filterMap fun s => if carry s = [] then none else some (s, truncate (carry s))

/-- `demuxLogs`: the lines that are emitted, with their streams. -/
def demuxLogs (carry : LogStream → Bytes) (r : Reader UInt8) : List (LogStream × Bytes) :=
  match _h : r.readFull dockerStreamHeaderLen with
  | .error _ => flush carry
  | .ok (header, r') =>
    let size := uint32 (header.drop 4)
    if size = 0 then demuxLogs carry r'
    else if maxFrameBytes < size then flush carry
    else
      match _h' : r'.readFull size with
      | .error _ => flush carry
      | .ok (payload, r'') =>
        let stream := if header.head? = some dockerStreamStdout then LogStream.stdout else .stderr
        let (lines, rest) := emitFramePayload (carry stream) payload
        lines.map (stream, ·) ++ demuxLogs (Function.update carry stream rest) r''
termination_by r.bytes.length
decreasing_by
  · obtain ⟨hbytes, hlen⟩ := Reader.bytes_of_readFull _h
    rw [hbytes, List.length_append, hlen, dockerStreamHeaderLen]
    omega
  · obtain ⟨hbytes, hlen⟩ := Reader.bytes_of_readFull _h
    obtain ⟨hbytes', -⟩ := Reader.bytes_of_readFull _h'
    rw [hbytes, hbytes', List.length_append, List.length_append, hlen, dockerStreamHeaderLen]
    omega

/-! ## What a plain stream emits -/

variable {r : Reader UInt8} {n : ℕ} {l xs ys : Bytes}

theorem trimCR_append_cr (l : Bytes) : trimCR (l ++ [cr]) = l := by
  rw [trimCR, List.getLast?_concat, if_pos rfl, List.dropLast_concat]

theorem trimCR_of_ne (h : l.getLast? ≠ some cr) : trimCR l = l := if_neg h

theorem trimCR_append (h : l ≠ []) (xs : Bytes) : trimCR (xs ++ l) = xs ++ trimCR l := by
  rw [trimCR, trimCR, List.getLast?_append_of_ne_nil _ h, List.dropLast_append_of_ne_nil h]
  split_ifs <;> rfl

theorem trimLineEnd_append_lf (l : Bytes) : trimLineEnd (l ++ [lf]) = trimCR l := by
  rw [trimLineEnd, List.getLast?_concat, if_pos rfl, List.dropLast_concat]

/-- What is kept of the bytes of a line. -/
def keptOf (l : Bytes) : Kept := ⟨l.take maxLogLineBytes, decide (maxLogLineBytes < l.length)⟩

theorem keptOf_add (l content : Bytes) : (keptOf l).add content = keptOf (l ++ content) := by
  have hlen : (keptOf l).kept.length = min maxLogLineBytes l.length := List.length_take
  have happend : (keptOf (l ++ content)).kept =
      (keptOf l).kept ++ content.take (maxLogLineBytes - l.length) := List.take_append
  have htruncated : (keptOf (l ++ content)).truncated = decide (maxLogLineBytes < l.length + content.length) := by
    rw [← List.length_append]
    rfl
  rw [Kept.add, hlen]
  rcases Nat.lt_or_ge l.length maxLogLineBytes with hlt | hge
  · rw [Nat.min_eq_right (Nat.le_of_lt hlt), if_pos (by omega)]
    have hfits : (keptOf l).truncated = false := decide_eq_false (by omega)
    split_ifs with hroom
    · rw [← happend, ← decide_eq_true (show maxLogLineBytes < l.length + content.length by omega), ← htruncated]
    · rw [List.take_of_length_le (Nat.not_lt.mp hroom)] at happend
      rw [← happend, hfits, ← decide_eq_false (show ¬ maxLogLineBytes < l.length + content.length by omega),
        ← htruncated]
  · rw [Nat.min_eq_left hge, if_neg (by omega)]
    rw [Nat.sub_eq_zero_of_le hge, List.take_zero, List.append_nil] at happend
    split_ifs with hcontent
    · rw [← happend, ← decide_eq_true (show maxLogLineBytes < l.length + content.length by omega), ← htruncated]
    · rw [List.eq_nil_of_length_eq_zero (Nat.eq_zero_of_not_pos hcontent), List.append_nil]

/-- What is read of a line whose end is trimmed: a carriage return that fills the buffer is not seen. -/
def lineRead (n : ℕ) (l : Bytes) : Bytes := if n ∣ l.length then l else trimCR l

section

variable {r' : Reader UInt8} {k : Kept} {chunk : Bytes}

theorem scan_delim (h : r.readSlice lf = (chunk, .delim, r')) : scan k r =
    emitScanLine (trimCR (k.add (trimLineEnd chunk)).kept) (k.add (trimLineEnd chunk)).truncated ::
      scan .start r' := by
  rw [scan]
  split <;> rename_i heq <;> (rw [h] at heq; cases heq)
  rfl

theorem scan_full (h : r.readSlice lf = (chunk, .full, r')) : scan k r = scan (k.add chunk) r' := by
  rw [scan]
  split <;> rename_i heq <;> (rw [h] at heq; cases heq)
  rfl

theorem scan_error {e : IoErr} (h : r.readSlice lf = (chunk, .error e, r')) : scan k r =
    if (k.add chunk).kept ≠ [] ∨ (k.add chunk).truncated then
      [emitScanLine (k.add chunk).kept (k.add chunk).truncated] else [] := by
  rw [scan]
  split <;> rename_i heq <;> (rw [h] at heq; cases heq)
  rfl

end

/-- The first piece of a list is found again. -/
theorem piece_inj {l l' : Bytes} (hl : lf ∉ l) (hl' : lf ∉ l') (h : l ++ lf :: xs = l' ++ lf :: ys) :
    l = l' ∧ xs = ys := by
  have hcut := congrArg (List.takeWhile (· ≠ lf)) h
  rw [(Reader.takeWhile_piece hl xs).1, (Reader.takeWhile_piece hl' ys).1] at hcut
  subst hcut
  exact ⟨rfl, (List.cons.inj (List.append_cancel_left h)).2⟩

/-- A line that is read from its middle on. -/
theorem scan_piece (hfit : r.Fit n) (hl : lf ∉ l) (hbytes : r.bytes = l ++ lf :: ys) (xs : Bytes) :
    ∃ r', r'.Fit n ∧ r'.bytes = ys ∧
      scan (keptOf xs) r =
        emitScanLine (trimCR (keptOf (xs ++ lineRead n l)).kept) (keptOf (xs ++ lineRead n l)).truncated ::
          scan .start r' := by
  induction hn : l.length using Nat.strongRecOn generalizing l xs r with
  | ind len ih =>
    obtain ⟨chunk, stop, r', hslice, hfit', hsliced⟩ := hfit.readSlice lf
    rw [hbytes] at hsliced
    generalize hrest : l ++ lf :: ys = zs, hleft : r'.bytes = ws at hsliced
    cases hsliced with
    | delim hl' hlen =>
      obtain ⟨rfl, rfl⟩ := piece_inj hl hl' hrest
      refine ⟨r', hfit', hleft, ?_⟩
      have hread : lineRead n l = trimCR l := by
        rw [lineRead]
        split_ifs with hdvd
        · rw [List.eq_nil_of_length_eq_zero (Nat.eq_zero_of_dvd_of_lt hdvd hlen)]
          rfl
        · rfl
      rw [scan_delim hslice, trimLineEnd_append_lf, keptOf_add, hread]
    | full hl' hlen =>
      obtain ⟨l1, rfl, hws⟩ : ∃ l1, l = chunk ++ l1 ∧ ws = l1 ++ lf :: ys := by
        rcases List.append_eq_append_iff.mp hrest with ⟨l1, rfl, hys⟩ | ⟨l1, hl1, hws⟩
        · cases l1 with
          | nil => exact ⟨[], by rw [List.append_nil, List.append_nil], hys.symm⟩
          | cons c l1 =>
            obtain ⟨rfl, -⟩ := List.cons.inj hys
            exact absurd (List.mem_append_right l List.mem_cons_self) hl'
        · exact ⟨l1, hl1, hws⟩
      have hpos : 0 < n := hfit.size ▸ r.size_pos
      obtain ⟨r'', hfit'', hys, hscan⟩ := ih l1.length (by rw [← hn, List.length_append]; omega) hfit'
        (fun hmem => hl (List.mem_append_right chunk hmem)) (hleft.trans hws) (xs ++ chunk) rfl
      have hread : lineRead n (chunk ++ l1) = chunk ++ lineRead n l1 := by
        have hiff : n ∣ (chunk ++ l1).length ↔ n ∣ l1.length := by
          rw [List.length_append, hlen]
          exact Nat.dvd_add_right (Nat.dvd_refl n)
        rw [lineRead, lineRead]
        by_cases hdvd : n ∣ l1.length
        · rw [if_pos (hiff.mpr hdvd), if_pos hdvd]
        · rw [if_neg (mt hiff.mp hdvd), if_neg hdvd]
          refine trimCR_append (List.ne_nil_of_length_pos (Nat.pos_of_ne_zero fun hzero => hdvd ?_)) chunk
          rw [hzero]
          exact Nat.dvd_zero n
      refine ⟨r'', hfit'', hys, ?_⟩
      rw [scan_full hslice, keptOf_add, hscan, hread, List.append_assoc]
    | eof hl' hlen => exact absurd (hrest ▸ List.mem_append_right l List.mem_cons_self) hl'

theorem emitScanLine_keptOf (l : Bytes) : emitScanLine (keptOf l).kept (keptOf l).truncated = truncate l := by
  rw [keptOf, emitScanLine, truncate]
  split_ifs with hlong hshort hshort
  · exact absurd hshort (Nat.not_le.mpr (of_decide_eq_true hlong))
  · rfl
  · exact List.take_of_length_le hshort
  · exact absurd (decide_eq_true (Nat.lt_of_not_le hshort)) hlong

/-- A line that nothing ends, if there is one. -/
def lastLine (l : Bytes) : List Bytes := if l = [] then [] else [truncate l]

/-- The end of the stream, from the middle of a line. -/
theorem scan_rest (hfit : r.Fit n) (hl : lf ∉ r.bytes) (xs : Bytes) :
    scan (keptOf xs) r = lastLine (xs ++ r.bytes) := by
  induction hn : r.bytes.length using Nat.strongRecOn generalizing xs r with
  | ind len ih =>
    obtain ⟨chunk, stop, r', hslice, hfit', hsliced⟩ := hfit.readSlice lf
    generalize hrest : r.bytes = zs, hleft : r'.bytes = ws at hsliced
    rw [hrest] at hl hn
    cases hsliced with
    | delim => exact absurd (List.mem_append_right _ List.mem_cons_self) hl
    | full hl' hlen =>
      subst hleft
      have hpos : 0 < n := hfit.size ▸ r.size_pos
      rw [List.length_append] at hn
      rw [scan_full hslice, keptOf_add, ih _ (by omega) hfit' (fun hmem => hl (List.mem_append_right _ hmem)) _ rfl,
        List.append_assoc]
    | eof =>
      rw [scan_error hslice, keptOf_add, emitScanLine_keptOf, lastLine]
      by_cases hnil : xs ++ chunk = []
      · rw [hnil]
        rfl
      · have hkept : (keptOf (xs ++ chunk)).kept ≠ [] := by
          rw [keptOf, Ne, List.take_eq_nil_iff, not_or]
          exact ⟨by decide, hnil⟩
        rw [if_pos (.inl hkept), if_neg hnil]

/-- A line as `Scan` emits it. -/
def scannedLine (n : ℕ) (l : Bytes) : Bytes :=
  emitScanLine (trimCR (keptOf (lineRead n l)).kept) (keptOf (lineRead n l)).truncated

/-- The lines of a stream: those that end, and the last. -/
theorem scan_eq (hfit : r.Fit n) :
    scan .start r = (cut lf r.bytes).1.map (scannedLine n) ++ lastLine (cut lf r.bytes).2 := by
  have h : ∀ xs (r : Reader UInt8), r.Fit n → r.bytes = xs →
      scan .start r = (cut lf xs).1.map (scannedLine n) ++ lastLine (cut lf xs).2 := by
    intro xs
    induction xs using cut_induction (d := lf) with
    | hrest l hl =>
      intro r hfit hbytes
      rw [cut_of_notMem hl, ← hbytes]
      exact scan_rest hfit (hbytes ▸ hl) []
    | hpiece l xs hl ih =>
      intro r hfit hbytes
      obtain ⟨r', hfit', hbytes', hscan⟩ := scan_piece hfit hl hbytes []
      rw [cut_piece hl, List.map_cons, List.cons_append, ← ih r' hfit' hbytes']
      exact hscan
  exact h r.bytes r hfit rfl

/-! ## What the frames emit -/

def LogStream.tag : LogStream → UInt8
  | stdout => dockerStreamStdout
  | stderr => dockerStreamStderr

/-- A well-formed frame. -/
structure Frame where
  stream : LogStream
  payload : Bytes
  fits : payload.length ≤ maxFrameBytes

/-- `binary.BigEndian.PutUint32`. -/
def uint32Bytes (n : ℕ) : Bytes :=
  [UInt8.ofNat (n / 2 ^ 24), UInt8.ofNat (n / 2 ^ 16), UInt8.ofNat (n / 2 ^ 8), UInt8.ofNat n]

def Frame.header (f : Frame) : Bytes := f.stream.tag :: 0 :: 0 :: 0 :: uint32Bytes f.payload.length

def Frame.bytes (f : Frame) : Bytes := f.header ++ f.payload

/-- What is written to a stream. -/
def written (s : LogStream) : List Frame → Bytes
  | [] => []
  | f :: fs => if f.stream = s then f.payload ++ written s fs else written s fs

def linesOf (s : LogStream) (emitted : List (LogStream × Bytes)) : List Bytes :=
  (emitted.filter (·.1 = s)).map (·.2)

theorem uint32_uint32Bytes (h : n < 2 ^ 32) : uint32 (uint32Bytes n) = n := by
  simp only [uint32, uint32Bytes, List.foldl_cons, List.foldl_nil, UInt8.toNat_ofNat']
  omega

theorem appendCapped_take (l s : Bytes) :
    appendCapped (l.take maxCarryBytes) s = (l ++ s).take maxCarryBytes := by
  rw [appendCapped, List.length_take, List.take_append]
  split_ifs with hroom hlong
  · rw [show maxCarryBytes - l.length = 0 by omega, List.take_zero, List.append_nil]
  · rw [show maxCarryBytes - min maxCarryBytes l.length = maxCarryBytes - l.length by omega]
  · rw [List.take_of_length_le (show s.length ≤ maxCarryBytes - l.length by omega)]

/-- A line of a stream, as it is emitted. -/
def demuxedLine (l : Bytes) : Bytes := truncate (trimCR l)

theorem truncate_congr {l l' : Bytes} (htake : l.take maxLogLineBytes = l'.take maxLogLineBytes)
    (hlen : l.length ≤ maxLogLineBytes ↔ l'.length ≤ maxLogLineBytes) : truncate l = truncate l' := by
  rw [truncate, truncate]
  split_ifs with h h' h'
  · rwa [List.take_of_length_le h, List.take_of_length_le h'] at htake
  · exact absurd (hlen.mp h) h'
  · exact absurd (hlen.mpr h') h
  · rw [htake]

/-- The cap of the carry is not seen. -/
theorem truncate_take (l : Bytes) : truncate (l.take maxCarryBytes) = truncate l := by
  refine truncate_congr ?_ ?_
  · rw [List.take_take, Nat.min_eq_left (by decide)]
  · rw [List.length_take, maxCarryBytes]
    omega

theorem trimCR_spec (l : Bytes) : trimCR l <+: l ∧ l.length ≤ (trimCR l).length + 1 := by
  rw [trimCR]
  split_ifs
  · exact ⟨List.dropLast_prefix l, by rw [List.length_dropLast]; omega⟩
  · exact ⟨List.prefix_rfl, Nat.le_succ _⟩

/-- Of a long prefix, what is emitted is that of the whole. -/
theorem truncate_of_long {p : Bytes} (h : p <+: l) (hlong : maxLogLineBytes < p.length) :
    truncate p = l.take maxLogLineBytes ++ truncationMarker := by
  obtain ⟨q, rfl⟩ := h
  rw [truncate, if_neg (Nat.not_le.mpr hlong), List.take_append_of_le_length (Nat.le_of_lt hlong)]

theorem truncate_trimCR_take (l : Bytes) : truncate (trimCR (l.take maxCarryBytes)) = demuxedLine l := by
  rw [demuxedLine]
  rcases Nat.lt_or_ge maxCarryBytes l.length with hlong | hshort
  · obtain ⟨hpre, hlen⟩ := trimCR_spec (l.take maxCarryBytes)
    obtain ⟨hpre', hlen'⟩ := trimCR_spec l
    rw [List.length_take_of_le (Nat.le_of_lt hlong)] at hlen
    have hcarry : maxCarryBytes = maxLogLineBytes + 2 := rfl
    rw [truncate_of_long (hpre.trans (List.take_prefix _ l)) (by omega), truncate_of_long hpre' (by omega)]
  · rw [List.take_of_length_le hshort]

theorem emitFramePayload_eq {q : Bytes} (hq : lf ∉ q) (payload : Bytes) :
    emitFramePayload (q.take maxCarryBytes) payload =
      ((cut lf (q ++ payload)).1.map demuxedLine, (cut lf (q ++ payload)).2.take maxCarryBytes) := by
  induction payload using cut_induction (d := lf) generalizing q with
  | hrest l hl =>
    have hnot : lf ∉ q ++ l := fun h => (List.mem_append.mp h).elim hq hl
    rw [emitFramePayload, dif_neg hl, cut_of_notMem hnot, appendCapped_take]
    rfl
  | hpiece l xs hl ih =>
    have hnot : lf ∉ q ++ l := fun h => (List.mem_append.mp h).elim hq hl
    have hnil : emitFramePayload [] xs = ((cut lf xs).1.map demuxedLine, (cut lf xs).2.take maxCarryBytes) :=
      ih List.not_mem_nil
    obtain ⟨htake, hdrop⟩ := Reader.takeWhile_piece hl xs
    rw [emitFramePayload, dif_pos (List.mem_append_right l List.mem_cons_self), htake, hdrop, List.tail_cons, hnil,
      appendCapped_take, truncate_trimCR_take, ← List.append_assoc, cut_piece hnot]
    rfl

section

variable {r' r'' : Reader UInt8} {carry : LogStream → Bytes} {header payload : Bytes}

theorem demuxLogs_error {e : IoErr} (h : r.readFull dockerStreamHeaderLen = .error e) :
    demuxLogs carry r = flush carry := by
  rw [demuxLogs]
  split
  · rfl
  · next heq =>
    rw [h] at heq
    cases heq

theorem demuxLogs_empty (h : r.readFull dockerStreamHeaderLen = .ok (header, r'))
    (hsize : uint32 (header.drop 4) = 0) : demuxLogs carry r = demuxLogs carry r' := by
  rw [demuxLogs]
  split <;> rename_i heq <;> (rw [h] at heq; cases heq)
  exact if_pos hsize

theorem demuxLogs_frame (h : r.readFull dockerStreamHeaderLen = .ok (header, r'))
    (hsize : uint32 (header.drop 4) ≠ 0) (hmax : uint32 (header.drop 4) ≤ maxFrameBytes)
    (hpayload : r'.readFull (uint32 (header.drop 4)) = .ok (payload, r'')) {stream : LogStream}
    (hstream : (if header.head? = some dockerStreamStdout then LogStream.stdout else .stderr) = stream) :
    demuxLogs carry r = (emitFramePayload (carry stream) payload).1.map (stream, ·) ++
      demuxLogs (Function.update carry stream (emitFramePayload (carry stream) payload).2) r'' := by
  rw [demuxLogs]
  split <;> rename_i heq <;> (rw [h] at heq; cases heq)
  simp only [if_neg hsize, if_neg (Nat.not_lt.mpr hmax), hstream]
  split <;> rename_i heq' <;> (rw [hpayload] at heq'; cases heq')
  rfl

end

/-- The lines of a stream of the frames. -/
def demuxedLines (xs : Bytes) : List Bytes := (cut lf xs).1.map demuxedLine ++ lastLine (cut lf xs).2

theorem linesOf_flush (carry : LogStream → Bytes) (s : LogStream) :
    linesOf s (flush carry) = if carry s = [] then [] else [truncate (carry s)] := by
  by_cases hout : carry .stdout = [] <;> by_cases herr : carry .stderr = [] <;> cases s <;>
    simp [flush, linesOf, hout, herr]

theorem flush_take {q : LogStream → Bytes} {s : LogStream} (hq : lf ∉ q s) :
    linesOf s (flush fun s => (q s).take maxCarryBytes) = demuxedLines (q s) := by
  rw [linesOf_flush, demuxedLines, cut_of_notMem hq, List.map_nil, List.nil_append, lastLine, truncate_take]
  by_cases hnil : q s = []
  · rw [hnil]
    rfl
  · have hne : (q s).take maxCarryBytes ≠ [] := by
      rw [Ne, List.take_eq_nil_iff, not_or]
      exact ⟨by decide, hnil⟩
    rw [if_neg hne, if_neg hnil]

theorem linesOf_append (s : LogStream) (a b : List (LogStream × Bytes)) :
    linesOf s (a ++ b) = linesOf s a ++ linesOf s b := by
  rw [linesOf, List.filter_append, List.map_append]
  rfl

theorem linesOf_map (s stream : LogStream) (lines : List Bytes) :
    linesOf s (lines.map (stream, ·)) = if stream = s then lines else [] := by
  rw [linesOf, List.filter_map, List.map_map]
  split_ifs with h <;> simp [Function.comp_def, h]

theorem demuxedLines_append (xs ys : Bytes) :
    demuxedLines (xs ++ ys) = (cut lf xs).1.map demuxedLine ++ demuxedLines ((cut lf xs).2 ++ ys) := by
  rw [demuxedLines, cut_append, List.map_append, List.append_assoc]
  rfl

/-- **The lines of a stream depend on what is written to it alone**, wherever the frames cut it. -/
theorem demuxLogs_lines {q : LogStream → Bytes} (hq : ∀ s, lf ∉ q s) (hr : r.source.Sound) {frames : List Frame}
    (hbytes : r.bytes = frames.flatMap Frame.bytes) (s : LogStream) :
    linesOf s (demuxLogs (fun s => (q s).take maxCarryBytes) r) = demuxedLines (q s ++ written s frames) := by
  induction frames generalizing q r with
  | nil =>
    obtain ⟨e, he⟩ : ∃ e, r.readFull dockerStreamHeaderLen = .error e := by
      cases h : r.readFull dockerStreamHeaderLen with
      | error e => exact ⟨e, rfl⟩
      | ok x =>
        obtain ⟨hsplit, hlen⟩ := Reader.bytes_of_readFull h
        rw [hbytes, List.flatMap_nil, eq_comm, List.append_eq_nil_iff] at hsplit
        rw [hsplit.1] at hlen
        cases hlen
    rw [demuxLogs_error he, flush_take (hq s), written, List.append_nil]
  | cons f fs ih =>
    rw [List.flatMap_cons, Frame.bytes, List.append_assoc] at hbytes
    obtain ⟨header, r1, hheader, hr1⟩ := Reader.exists_readFull (n := dockerStreamHeaderLen) hr (by
      rw [hbytes, List.length_append]
      exact Nat.le_add_right _ _)
    obtain ⟨hsplit, hlen⟩ := Reader.bytes_of_readFull hheader
    obtain ⟨rfl, hbytes1⟩ := List.append_inj (hsplit.symm.trans hbytes) hlen
    have hmax : f.payload.length < 2 ^ 32 := Nat.lt_of_le_of_lt f.fits (by decide)
    have hsize : uint32 (f.header.drop 4) = f.payload.length := uint32_uint32Bytes hmax
    have hstream : (if f.header.head? = some dockerStreamStdout then LogStream.stdout else .stderr) = f.stream := by
      rw [Frame.header, List.head?_cons]
      cases f.stream <;> rfl
    by_cases hempty : f.payload.length = 0
    · rw [List.eq_nil_of_length_eq_zero hempty, List.nil_append] at hbytes1
      rw [demuxLogs_empty hheader (hsize.trans hempty), ih hq hr1 hbytes1, written,
        List.eq_nil_of_length_eq_zero hempty, List.nil_append, ite_self]
    · obtain ⟨payload, r2, hpayload, hr2⟩ := Reader.exists_readFull (n := f.payload.length) hr1 (by
        rw [hbytes1, List.length_append]
        exact Nat.le_add_right _ _)
      obtain ⟨hsplit2, hlen2⟩ := Reader.bytes_of_readFull hpayload
      obtain ⟨rfl, hbytes2⟩ := List.append_inj (hsplit2.symm.trans hbytes1) hlen2
      -- what is left of the stream takes the place of its carry
      set rest := (cut lf (q f.stream ++ f.payload)).2 with hrest
      have hcarry : Function.update (fun s => (q s).take maxCarryBytes) f.stream (rest.take maxCarryBytes) =
          fun s => (Function.update q f.stream rest s).take maxCarryBytes := by
        funext s
        by_cases hs : s = f.stream
        · subst hs
          rw [Function.update_self, Function.update_self]
        · rw [Function.update_of_ne hs, Function.update_of_ne hs]
      have hq' : ∀ s, lf ∉ Function.update q f.stream rest s := by
        intro s
        by_cases hs : s = f.stream
        · subst hs
          rw [Function.update_self]
          exact notMem_cut_snd _
        · rw [Function.update_of_ne hs]
          exact hq s
      rw [demuxLogs_frame hheader (hsize ▸ hempty) (hsize ▸ f.fits) (hsize ▸ hpayload) hstream,
        emitFramePayload_eq (hq _), hcarry, linesOf_append, linesOf_map, ih hq' hr2 hbytes2, written]
      split_ifs with hs
      · subst hs
        rw [Function.update_self, ← List.append_assoc, demuxedLines_append (q f.stream ++ f.payload), hrest]
      · rw [Function.update_of_ne (Ne.symm hs), List.nil_append]

/-! ## Lines that agree -/

/-- A fresh reader of `bufio`, over a source that gives the bytes in chunks of any size. -/
def newReader (chunks : ℕ → ℕ) (bs : Bytes) : Reader UInt8 := ⟨4096, [], ⟨bs, 0, fun i => some (chunks i)⟩, by decide⟩

/-- A line that ends in no second carriage return, also where it is truncated; or that fills one or two buffers. -/
def Agreeing (l : Bytes) : Prop :=
  ((trimCR l).take maxLogLineBytes).getLast? ≠ some cr ∨ l.length = 4096 ∨ l.length = 8192

instance : DecidablePred Agreeing := fun l =>
  inferInstanceAs (Decidable (((trimCR l).take maxLogLineBytes).getLast? ≠ some cr ∨ l.length = 4096 ∨ l.length = 8192))

theorem trimCR_eq_self {l : Bytes} : trimCR l = l ↔ l.getLast? ≠ some cr := by
  refine ⟨fun h hlast => ?_, trimCR_of_ne⟩
  obtain ⟨ys, rfl⟩ := List.getLast?_eq_some_iff.mp hlast
  rw [trimCR_append_cr] at h
  have hlen := congrArg List.length h
  rw [List.length_append, List.length_singleton] at hlen
  omega

theorem emitScanLine_inj {a b : Bytes} {truncated : Bool} :
    emitScanLine a truncated = emitScanLine b truncated ↔ a = b := by
  cases truncated
  · exact Iff.rfl
  · exact List.append_left_inj truncationMarker

/-- **Both emit the line alike**, exactly when it agrees. -/
theorem scannedLine_eq_iff (l : Bytes) : scannedLine 4096 l = demuxedLine l ↔ Agreeing l := by
  obtain ⟨hpre, hlen⟩ := trimCR_spec l
  rw [demuxedLine, ← emitScanLine_keptOf, scannedLine, lineRead]
  split_ifs with hdvd
  · obtain ⟨m, hm⟩ := hdvd
    rcases Nat.lt_or_ge 2 m with hlong | hshort
    · have hmax : maxLogLineBytes = 8192 := rfl
      have htrim : maxLogLineBytes < (trimCR l).length := by omega
      have hkept : keptOf l = keptOf (trimCR l) := by
        obtain ⟨xs, hxs⟩ := hpre
        rw [keptOf, keptOf, decide_eq_true htrim, decide_eq_true (show maxLogLineBytes < l.length by omega)]
        congr 1
        conv_lhs => rw [← hxs, List.take_append_of_le_length (Nat.le_of_lt htrim)]
      rw [hkept, emitScanLine_inj, trimCR_eq_self, Agreeing]
      exact ⟨.inl, fun h => h.resolve_right (by omega)⟩
    · have hmax : maxLogLineBytes = 8192 := rfl
      have hfits : ∀ s : Bytes, s.length ≤ maxLogLineBytes → keptOf s = ⟨s, false⟩ := by
        intro s hs
        rw [keptOf, List.take_of_length_le hs, decide_eq_false (Nat.not_lt.mpr hs)]
      have hle := hpre.length_le
      rw [hfits l (by omega), hfits (trimCR l) (by omega), Agreeing]
      refine iff_of_true rfl ?_
      rcases Nat.eq_zero_or_pos m with rfl | hpos
      · rw [List.eq_nil_of_length_eq_zero (hm.trans (Nat.mul_zero 4096))]
        exact .inl nofun
      · exact .inr (by omega)
  · rw [emitScanLine_inj, trimCR_eq_self, Agreeing]
    refine ⟨.inl, fun h => h.resolve_right ?_⟩
    rintro (h | h)
    · exact hdvd ⟨1, h⟩
    · exact hdvd ⟨2, h⟩

/-- One stream of the frames. -/
theorem stream_matches_iff (frames : List Frame) (chunks chunks' : ℕ → ℕ) (s : LogStream) :
    linesOf s (demuxLogs (fun _ => []) (newReader chunks (frames.flatMap Frame.bytes))) =
        scan .start (newReader chunks' (written s frames)) ↔
      ∀ l ∈ (cut lf (written s frames)).1, Agreeing l := by
  have hdemux : linesOf s (demuxLogs (fun _ => []) (newReader chunks (frames.flatMap Frame.bytes))) =
      demuxedLines (written s frames) :=
    demuxLogs_lines (q := fun _ => []) (fun _ => List.not_mem_nil) (fun i => Option.some_ne_none _) rfl s
  have hscan : scan .start (newReader chunks' (written s frames)) =
      (cut lf (written s frames)).1.map (scannedLine 4096) ++ lastLine (cut lf (written s frames)).2 :=
    scan_eq ⟨fun i => Option.some_ne_none _, rfl, Nat.zero_le _⟩
  rw [hdemux, hscan, demuxedLines, List.append_left_inj, List.map_inj_left]
  exact forall₂_congr fun l _ => eq_comm.trans (scannedLine_eq_iff l)

/-- **The frames agree with the plain stream**, exactly when each line of each stream does. -/
theorem demux_matches_scan (frames : List Frame) (chunks : ℕ → ℕ) (chunks' : LogStream → ℕ → ℕ) :
    (∀ s, linesOf s (demuxLogs (fun _ => []) (newReader chunks (frames.flatMap Frame.bytes))) =
        scan .start (newReader (chunks' s) (written s frames))) ↔
      ∀ s, ∀ l ∈ (cut lf (written s frames)).1, Agreeing l :=
  forall_congr' fun s => stream_matches_iff frames chunks (chunks' s) s

/-- **A second carriage return** is trimmed by `Scan` alone. -/
theorem second_return : ∃ frames : List Frame, written .stdout frames = [97, cr, cr, lf] ∧ ∀ chunks chunks' : ℕ → ℕ,
    linesOf .stdout (demuxLogs (fun _ => []) (newReader chunks (frames.flatMap Frame.bytes))) ≠
      scan .start (newReader chunks' (written .stdout frames)) := by
  refine ⟨[⟨.stdout, [97, cr, cr, lf], by decide⟩], rfl, fun chunks chunks' heq => ?_⟩
  have h := (stream_matches_iff _ _ _ _).mp heq
  revert h
  decide

end McServerDashboard.Worker.LogDemux
