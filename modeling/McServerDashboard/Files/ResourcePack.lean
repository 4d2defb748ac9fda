import McServerDashboard.Lib.Writes
import McServerDashboard.Plugins.Manifest
import McServerDashboard.Plugins.Rows
import Mathlib.Data.List.DropRight
import Mathlib.Logic.Encodable.Basic
import Mathlib.Logic.Equiv.List

/-!
# Resource packs

An uploaded pack has its `pack.mcmeta` anywhere; what is stored has it at the root.

* `Libraries`: `zipfile` and `json`; `ReadsBack`: an archive that was written is read back.
* `validateAndNormalize`: the checks, the search for the shallowest `pack.mcmeta`, and the repacking.
* `Promised`: what is expected of the output; `Strippable`: what is required of the names for it.
* **`normalize_promised`**: the output is as expected, exactly where the names can be stripped.
-/

namespace McServerDashboard.Files.ResourcePack

open Lib Lib.Properties Properties
open Plugins.Manifest (Value ZipError LoadsError)
open Plugins.Manifest renaming ZipInfo → PackInfo
open Plugins (lowerEndswith)

/-! ## Paths -/

/-- `posixpath.basename`. -/
def basename (path : Str) : Str := path.rtakeWhile (· ≠ 47)

/-- `posixpath.dirname`. -/
def dirname (path : Str) : Str :=
  let head := path.rdropWhile (· ≠ 47)
  if head.all (· = 47) then head else head.rdropWhile (· = 47)

/-- `path.count("/")`. -/
def depth (path : Str) : ℕ := path.count 47

/-! ## Libraries -/

inductive Raised
  /-- `InvalidResourcePackError`. -/
  | invalid (message : Str)
  | zip (e : ZipError)
  | loads (e : LoadsError)
  | keyError

structure Libraries where
  isZipfile : List UInt8 → Bool
  infolist : List UInt8 → Except ZipError (List PackInfo)
  /-- The archive of such members. -/
  write : List (Str × List UInt8) → List UInt8
  /-- `json.loads` of bytes; a `UnicodeDecodeError` is a decode error too. -/
  jsonLoads : List UInt8 → Except LoadsError Value

/-- All that is read of a member. -/
def contents (failure : Option ZipError) : List (List UInt8) → Except ZipError (List UInt8)
  | [] =>
    match failure with
    | none => .ok []
    | some e => .error e
  | chunk :: chunks => if chunk = [] then .ok [] else (contents failure chunks).map (chunk ++ ·)

/-- A member, with its contents. -/
def member (info : PackInfo) : Str × Except ZipError (List UInt8) := (info.filename, contents info.failure info.chunks)

/-- `zipfile` reads back the members it wrote. -/
structure ReadsBack (libs : Libraries) : Prop where
  isZipfile : ∀ ms, libs.isZipfile (libs.write ms) = true
  infolist : ∀ ms, ∃ infos, libs.infolist (libs.write ms) = .ok infos ∧
    infos.map member = ms.map fun m => (m.1, .ok m.2)

/-! ## Reads -/

def maxDecompressedBytes : ℕ := 512 * 1024 * 1024
def maxEntryCount : ℕ := 10000
def maxZipInZipDepth : ℕ := 3

/-- A name stands for the last member that has it. -/
def named (infos : List PackInfo) (name : Str) : Except Raised PackInfo :=
  match infos.reverse.find? (·.filename = name) with
  | some info => .ok info
  | none => .error .keyError

/-- `zf.read`. -/
def zfRead (infos : List PackInfo) (name : Str) : Except Raised (List UInt8) := do
  let info ← named infos name
  (contents info.failure info.chunks).mapError .zip

/-- The loop of `_read_entry_chunked`. -/
def readChunks (failure : Option ZipError) : ℕ → List (List UInt8) → Except Raised (List UInt8 × ℕ)
  | cumulative, [] =>
    match failure with
    | none => .ok ([], cumulative)
    | some e => .error (.zip e)
  | cumulative, chunk :: chunks =>
    if chunk = [] then .ok ([], cumulative)
    else if maxDecompressedBytes < cumulative + chunk.length then
      .error (.invalid (str "decompressed size exceeds limit"))
    else (readChunks failure (cumulative + chunk.length) chunks).map fun r => (chunk ++ r.1, r.2)

/-- `_read_entry_chunked`. -/
def readEntryChunked (infos : List PackInfo) (name : Str) (cumulative : ℕ) : Except Raised (List UInt8 × ℕ) := do
  let info ← named infos name
  readChunks info.failure cumulative info.chunks

/-! ## Steps -/

/-- A name that is neither absolute nor has a component `..`. -/
def Safe (name : Str) : Prop := name.head? ≠ some 47 ∧ str ".." ∉ name.splitOn 47

instance (name : Str) : Decidable (Safe name) := inferInstanceAs (Decidable (_ ∧ _))

/-- The safety checks of a member, after so many bytes. -/
def checkEntry (infos : List PackInfo) (totalSize : ℕ) (info : PackInfo) : Except Raised ℕ :=
  if ¬Safe info.filename then .error (.invalid (str "path traversal: " ++ info.filename))
  else if info.isDir then .ok totalSize
  else (readEntryChunked infos info.filename totalSize).map (·.2)

/-- The one member that is no directory, if it is an archive. -/
def zipInZip (infos : List PackInfo) : Option Str :=
  match infos.filter (!·.isDir) with
  | [info] => if lowerEndswith info.filename (str ".zip") then some info.filename else none
  | _ => none

def packMcmeta : Str := str "pack.mcmeta"

def mcmetaPaths (infos : List PackInfo) : List Str :=
  (infos.filter fun info => basename info.filename = packMcmeta && !info.isDir).map (·.filename)

/-- The shallowest of the paths. -/
def shallowest (paths : List Str) : Except Raised Str :=
  match paths.mergeSort (depth · ≤ depth ·) with
  | [] => .error (.invalid (str "pack.mcmeta not found"))
  | first :: rest =>
    match (first :: rest).filter (depth · = depth first) with
    | [target] => .ok target
    | _ => .error (.invalid (str "ambiguous: multiple pack.mcmeta at the same depth"))

/-- `_validate_pack_mcmeta`. -/
def validatePackMcmeta (libs : Libraries) (raw : List UInt8) : Except Raised Unit :=
  match libs.jsonLoads raw with
  | .error .decodeError => .error (.invalid (str "invalid pack.mcmeta: not valid JSON"))
  | .error e => .error (.loads e)
  | .ok data =>
    match data.dict? with
    | none => .error (.invalid (str "invalid pack.mcmeta: not a JSON object"))
    | some data =>
      match (data.lookup (str "pack")).bind Value.dict? with
      | none => .error (.invalid (str "invalid pack.mcmeta: missing 'pack' key"))
      | some pack =>
        match pack.lookup (str "pack_format") with
        | some (.int _) => .ok ()
        | _ => .error (.invalid (str "invalid pack.mcmeta: pack_format must be an integer"))

/-- A member of the repacked archive, after what has been written and read. -/
def repackEntry (infos : List PackInfo) (folder : Str) (out : List (Str × List UInt8) × ℕ) (info : PackInfo) :
    Except Raised (List (Str × List UInt8) × ℕ) :=
  let folderSlash := folder ++ [47]
  if !folderSlash.isPrefixOf info.filename then .ok out
  else
    let newName := info.filename.drop folderSlash.length
    if newName = [] then .ok out
    else (readEntryChunked infos info.filename out.2).map fun r => (out.1 ++ [(newName, r.1)], r.2)

/-- `_repack_stripping_prefix`. -/
def repackStripping (libs : Libraries) (infos : List PackInfo) (folder : Str) : Except Raised (List UInt8) :=
  (infos.foldlM (repackEntry infos folder) ([], 0)).map fun out => libs.write out.1

/-- The steps from the third on. -/
def normalize (libs : Libraries) (content : List UInt8) (infos : List PackInfo) : Except Raised (List UInt8) := do
  let target ← shallowest (mcmetaPaths infos)
  validatePackMcmeta libs (← zfRead infos target)
  if dirname target = [] then return content
  repackStripping libs infos (dirname target)

/-- `validate_and_normalize`, with so many levels of archives left. -/
def validateAndNormalizeAt (libs : Libraries) : ℕ → List UInt8 → Except Raised (List UInt8)
  | 0, _ => .error (.invalid (str "zip-in-zip depth limit exceeded"))
  | levels + 1, content =>
    if !libs.isZipfile content then .error (.invalid (str "not a valid zip"))
    else
      match libs.infolist content with
      | .error e => .error (.zip e)
      | .ok infos =>
        if maxEntryCount < infos.length then .error (.invalid (str "too many entries"))
        else do
          let _ ← infos.foldlM (checkEntry infos) 0
          match zipInZip infos with
          | some name => do
            let (inner, _) ← readEntryChunked infos name 0
            validateAndNormalizeAt libs levels inner
          | none => normalize libs content infos

/-- `validate_and_normalize`. -/
def validateAndNormalize (libs : Libraries) (content : List UInt8) : Except Raised (List UInt8) :=
  validateAndNormalizeAt libs (maxZipInZipDepth + 1) content

/-! ## What is promised -/

/-- The archive inside all the archives that hold nothing but another. -/
def innermost (libs : Libraries) : ℕ → List UInt8 → List UInt8
  | 0, content => content
  | levels + 1, content =>
    match libs.infolist content with
    | .error _ => content
    | .ok infos =>
      match zipInZip infos with
      | none => content
      | some name =>
        match zfRead infos name with
        | .error _ => content
        | .ok inner => innermost libs levels inner

/-- The path of the one `pack.mcmeta` that is less deep than any other. -/
structure Shallowest (infos : List PackInfo) (target : Str) : Prop where
  mem : target ∈ infos.map (·.filename)
  basename : basename target = packMcmeta
  lt : ∀ info ∈ infos, ResourcePack.basename info.filename = packMcmeta → info.filename ≠ target →
    depth target < depth info.filename

/-- A name below a folder; any is below the root. -/
def Below (folder name : Str) : Prop := folder = [] ∨ folder ++ [47] <+: name ∧ name ≠ folder ++ [47]

instance (folder name : Str) : Decidable (Below folder name) := inferInstanceAs (Decidable (_ ∨ _))

/-- The members below a folder. -/
def below (folder : Str) (infos : List PackInfo) : List PackInfo := infos.filter (Below folder ·.filename)

/-- A name relative to a folder. -/
def relative (folder name : Str) : Str := if folder = [] then name else name.drop (folder.length + 1)

/-- The members of the output. -/
structure Normalized (infos : List PackInfo) (target : Str) (outs : List PackInfo) : Prop where
  root : packMcmeta ∈ outs.map (·.filename)
  safe : ∀ info ∈ outs, Safe info.filename
  exact : outs.map member =
    (below (dirname target) infos).map fun info => (relative (dirname target) info.filename, (member info).2)

/-- What is expected of the output: its members, and that it is accepted and returned unchanged. -/
def Promised (libs : Libraries) (content out : List UInt8) : Prop :=
  ∃ infos target outs, libs.infolist (innermost libs (maxZipInZipDepth + 1) content) = .ok infos ∧
    Shallowest infos target ∧ libs.infolist out = .ok outs ∧ Normalized infos target outs ∧
    validateAndNormalize libs out = .ok out

/-- Below the folder of the pack no name goes on with a second slash, and members that share a name share their
contents. -/
structure Strippable (infos : List PackInfo) (folder : Str) : Prop where
  slash : ∀ info ∈ infos, ¬folder ++ str "//" <+: info.filename
  contents : ∀ info ∈ below folder infos, (contents info.failure info.chunks).mapError .zip = zfRead infos info.filename

variable {libs : Libraries} {infos outs : List PackInfo} {folder name target : Str}

/-! ## Names -/

theorem basename_packMcmeta : basename packMcmeta = packMcmeta := by decide

theorem not_dir_of_basename {info : PackInfo} (h : basename info.filename = packMcmeta) : info.isDir = false := by
  have hsuffix : packMcmeta <:+ info.filename := h ▸ List.rtakeWhile_suffix _ _
  obtain ⟨before, hname⟩ := hsuffix
  rw [PackInfo.isDir, ← hname, List.getLast?_append]
  rfl

theorem mem_mcmetaPaths : name ∈ mcmetaPaths infos ↔ name ∈ infos.map (·.filename) ∧ basename name = packMcmeta := by
  simp only [mcmetaPaths, List.mem_map, List.mem_filter, Bool.and_eq_true, decide_eq_true_eq]
  constructor
  · rintro ⟨info, ⟨hmem, hbase, -⟩, rfl⟩
    exact ⟨⟨info, hmem, rfl⟩, hbase⟩
  · rintro ⟨⟨info, hmem, rfl⟩, hbase⟩
    exact ⟨info, ⟨hmem, hbase, by rw [not_dir_of_basename hbase]; rfl⟩, rfl⟩

/-- A relative path in a folder: the folder, slashes, and its last component. -/
theorem dirname_append (hsafe : Safe name) (hdir : dirname name ≠ []) :
    ∃ k, name = dirname name ++ (List.replicate (k + 1) 47 ++ basename name) := by
  have hname : name.rdropWhile (· ≠ 47) ++ basename name = name := List.rdropWhile_append_rtakeWhile
  by_cases hall : (name.rdropWhile (· ≠ 47)).all (· = 47)
  · -- nothing but slashes: the path is absolute
    rw [dirname, if_pos hall] at hdir
    obtain ⟨c, head, hhead⟩ := List.exists_cons_of_ne_nil hdir
    have hc : c = 47 := of_decide_eq_true (List.all_eq_true.mp hall c (hhead ▸ List.mem_cons_self))
    exact (hsafe.1 (by rw [← hname, hhead, hc]; rfl)).elim
  · have hdirname : dirname name = (name.rdropWhile (· ≠ 47)).rdropWhile (· = 47) := by rw [dirname, if_neg hall]
    have hhead : dirname name ++ (name.rdropWhile (· ≠ 47)).rtakeWhile (· = 47) = name.rdropWhile (· ≠ 47) := by
      rw [hdirname]
      exact List.rdropWhile_append_rtakeWhile
    obtain ⟨k, hk⟩ : ∃ k, (name.rdropWhile (· ≠ 47)).rtakeWhile (· = 47) = List.replicate k 47 :=
      ⟨_, List.eq_replicate_iff.mpr ⟨rfl, fun c hc => by simpa using List.mem_rtakeWhile_imp hc⟩⟩
    cases k with
    | zero =>
      -- the text up to the last slash ends in it, but the folder ends in none
      rw [hk, List.replicate_zero, List.append_nil] at hhead
      have hne : (name.rdropWhile (· ≠ 47)) ≠ [] := hhead ▸ hdir
      have hslash : (name.rdropWhile (· ≠ 47)).getLast hne = 47 := by
        simpa using List.rdropWhile_last_not (· ≠ 47) name hne
      have hnot := List.rdropWhile_last_not (· = 47) (name.rdropWhile (· ≠ 47)) (hdirname ▸ hdir)
      simp only [← hdirname, hhead, hslash] at hnot
      exact (hnot (decide_eq_true trivial)).elim
    | succ k =>
      refine ⟨k, ?_⟩
      rw [← List.append_assoc, ← hk, hhead, hname]

/-- A pack below the root, whose path has no second slash after its folder. -/
theorem eq_of_dirname (hsafe : Safe name) (hbase : basename name = packMcmeta) (hdir : dirname name ≠ [])
    (hslash : ¬dirname name ++ str "//" <+: name) : name = dirname name ++ 47 :: packMcmeta := by
  obtain ⟨k, hk⟩ := dirname_append hsafe hdir
  rw [hbase] at hk
  cases k with
  | zero => exact hk
  | succ k => exact (hslash ⟨List.replicate k 47 ++ packMcmeta, by rw [List.append_assoc]; exact hk.symm⟩).elim

/-- A pack at the root. -/
theorem eq_of_dirname_nil (hbase : basename name = packMcmeta) (hdir : dirname name = []) : name = packMcmeta := by
  have hname : name.rdropWhile (· ≠ 47) ++ packMcmeta = name := by
    rw [← hbase]
    exact List.rdropWhile_append_rtakeWhile
  by_cases hall : (name.rdropWhile (· ≠ 47)).all (· = 47)
  · rw [dirname, if_pos hall] at hdir
    rw [← hname, hdir, List.nil_append]
  · rw [dirname, if_neg hall, List.rdropWhile_eq_nil_iff] at hdir
    exact (hall (List.all_eq_true.mpr hdir)).elim

/-! ## The shallowest -/

theorem filter_depth_mergeSort (paths : List Str) (n : ℕ) :
    ((paths.mergeSort (depth · ≤ depth ·)).filter (depth · ≤ n)).Perm (paths.filter (depth · ≤ n)) :=
  (List.mergeSort_perm paths _).filter _

theorem pairwise_depth (paths : List Str) :
    (paths.mergeSort (depth · ≤ depth ·)).Pairwise fun p q => depth p ≤ depth q := by
  have htrans : ∀ p q r : Str, decide (depth p ≤ depth q) = true → decide (depth q ≤ depth r) = true →
      decide (depth p ≤ depth r) = true := fun p q r hpq hqr =>
    decide_eq_true (Nat.le_trans (of_decide_eq_true hpq) (of_decide_eq_true hqr))
  have htotal : ∀ p q : Str, (decide (depth p ≤ depth q) || decide (depth q ≤ depth p)) = true := fun p q => by
    simpa using Nat.le_total (depth p) (depth q)
  exact (List.pairwise_mergeSort htrans htotal paths).imp of_decide_eq_true

/-- The search finds the one path that is no deeper than itself. -/
theorem shallowest_eq_ok {paths : List Str} :
    shallowest paths = .ok target ↔ paths.filter (depth · ≤ depth target) = [target] := by
  rw [← List.perm_singleton, ← (filter_depth_mergeSort paths _).congr_left, List.perm_singleton, shallowest]
  have hsorted := pairwise_depth paths
  cases hpaths : paths.mergeSort (depth · ≤ depth ·) with
  | nil => simp
  | cons first rest =>
    rw [hpaths] at hsorted
    have hmin : ∀ p ∈ first :: rest, depth first ≤ depth p := fun p hp => by
      rcases List.mem_cons.mp hp with rfl | hp
      · exact Nat.le_refl _
      · exact (List.pairwise_cons.mp hsorted).1 p hp
    have hfilter : (first :: rest).filter (depth · ≤ depth first) = (first :: rest).filter (depth · = depth first) :=
      List.filter_congr fun p hp => by
        have := hmin p hp
        exact decide_eq_decide.mpr ⟨fun h => Nat.le_antisymm h this, Nat.le_of_eq⟩
    have hself : first ∈ (first :: rest).filter (depth · = depth first) :=
      List.mem_filter.mpr ⟨List.mem_cons_self, decide_eq_true rfl⟩
    constructor
    · intro h
      dsimp only at h
      split at h
      · next t heq =>
        rw [heq, List.mem_singleton] at hself
        subst hself
        cases h
        rw [hfilter, heq]
      · cases h
    · intro h
      have hmem : target ∈ (first :: rest).filter (depth · ≤ depth target) := h ▸ List.mem_singleton_self target
      have hfirst : first ∈ (first :: rest).filter (depth · ≤ depth target) :=
        List.mem_filter.mpr ⟨List.mem_cons_self, decide_eq_true (hmin target (List.mem_filter.mp hmem).1)⟩
      rw [h, List.mem_singleton] at hfirst
      subst hfirst
      rw [hfilter] at h
      dsimp only
      rw [h]

/-- The path that the search finds is less deep than any other. -/
theorem shallowest_mcmetaPaths (h : shallowest (mcmetaPaths infos) = .ok target) : Shallowest infos target := by
  rw [shallowest_eq_ok] at h
  have hmem : target ∈ mcmetaPaths infos := (List.mem_filter.mp (h ▸ List.mem_singleton_self target)).1
  rw [mem_mcmetaPaths] at hmem
  refine ⟨hmem.1, hmem.2, fun info hinfo hbase hne => Nat.lt_of_not_le fun hle => hne ?_⟩
  have hpath : info.filename ∈ mcmetaPaths infos := mem_mcmetaPaths.mpr ⟨List.mem_map_of_mem hinfo, hbase⟩
  have hfilter : info.filename ∈ (mcmetaPaths infos).filter (depth · ≤ depth target) :=
    List.mem_filter.mpr ⟨hpath, decide_eq_true hle⟩
  rwa [h, List.mem_singleton] at hfilter

theorem Shallowest.unique (h : Shallowest infos target) (h' : Shallowest infos name) : name = target := by
  by_contra hne
  obtain ⟨info, hinfo, rfl⟩ := List.mem_map.mp h.mem
  obtain ⟨info', hinfo', rfl⟩ := List.mem_map.mp h'.mem
  exact Nat.lt_asymm (h.lt info' hinfo' h'.basename hne) (h'.lt info hinfo h.basename (Ne.symm hne))

/-! ## Reads -/

theorem ok_of_map {α β ε : Type} {x : Except ε α} {f : α → β} {b : β} (h : x.map f = .ok b) :
    ∃ a, x = .ok a ∧ f a = b := by
  cases x with
  | error e => cases h
  | ok a => exact ⟨a, rfl, Except.ok.inj h⟩

/-- A member is read in chunks while it fits. -/
theorem readChunks_eq_ok {failure : Option ZipError} {chunks : List (List UInt8)} {c t : ℕ} {d : List UInt8}
    (hc : c ≤ maxDecompressedBytes) : readChunks failure c chunks = .ok (d, t) ↔
      contents failure chunks = .ok d ∧ t = c + d.length ∧ t ≤ maxDecompressedBytes := by
  induction chunks generalizing c d t with
  | nil =>
    cases failure with
    | some e => exact ⟨fun h => (by cases h), fun h => (by cases h.1)⟩
    | none =>
      constructor
      · rintro h
        cases h
        exact ⟨rfl, rfl, hc⟩
      · rintro ⟨h, ht, -⟩
        cases h
        rw [ht]
        rfl
  | cons chunk chunks ih =>
    rw [readChunks, contents]
    split_ifs with hnil hover
    · constructor
      · rintro h
        cases h
        exact ⟨rfl, rfl, hc⟩
      · rintro ⟨h, ht, -⟩
        cases h
        rw [ht]
        rfl
    · refine ⟨fun h => (by cases h), fun ⟨h, ht, hle⟩ => ?_⟩
      obtain ⟨d', -, rfl⟩ := ok_of_map h
      rw [List.length_append] at ht
      omega
    · constructor
      · intro h
        obtain ⟨⟨d', t'⟩, hread, heq⟩ := ok_of_map h
        cases heq
        obtain ⟨hd, ht, hle⟩ := (ih (Nat.le_of_not_lt hover)).mp hread
        rw [hd]
        refine ⟨rfl, ?_, hle⟩
        rw [ht, List.length_append, Nat.add_assoc]
      · rintro ⟨h, ht, hle⟩
        obtain ⟨d', hd, rfl⟩ := ok_of_map h
        rw [List.length_append, ← Nat.add_assoc] at ht
        rw [(ih (Nat.le_of_not_lt hover)).mpr ⟨hd, ht, hle⟩]
        rfl

/-- The same, of the member that a name stands for. -/
theorem readEntryChunked_eq_ok {c t : ℕ} {d : List UInt8} (hc : c ≤ maxDecompressedBytes) :
    readEntryChunked infos name c = .ok (d, t) ↔
      zfRead infos name = .ok d ∧ t = c + d.length ∧ t ≤ maxDecompressedBytes := by
  rw [readEntryChunked, zfRead]
  cases named infos name with
  | error e => exact ⟨fun h => (by cases h), fun h => (by cases h.1)⟩
  | ok info =>
    refine (readChunks_eq_ok hc).trans (and_congr_left fun _ => ?_)
    have hmap : (do let info ← Except.ok info; (contents info.failure info.chunks).mapError .zip :
        Except Raised (List UInt8)) = (contents info.failure info.chunks).mapError .zip := rfl
    rw [hmap]
    cases contents info.failure info.chunks <;> simp [Except.mapError]

/-- Members that have their contents from their names. -/
theorem zfRead_of_forall {f : Str → List UInt8} {info : PackInfo}
    (h : ∀ info ∈ outs, contents info.failure info.chunks = .ok (f info.filename)) (hinfo : info ∈ outs) :
    zfRead outs info.filename = .ok (f info.filename) := by
  rw [zfRead, named]
  cases hfind : outs.reverse.find? (·.filename = info.filename) with
  | none =>
    rw [List.find?_eq_none] at hfind
    exact (hfind info (List.mem_reverse.mpr hinfo) (decide_eq_true rfl)).elim
  | some last =>
    have hmem := List.mem_reverse.mp (List.mem_of_find?_eq_some hfind)
    have hname : last.filename = info.filename := by simpa using List.find?_some hfind
    have hread := h last hmem
    rw [hname] at hread
    show (contents last.failure last.chunks).mapError Raised.zip = _
    rw [hread]
    rfl

/-! ## The checks -/

theorem safe_of_checks {c t : ℕ} (h : outs.foldlM (checkEntry infos) c = .ok t) :
    ∀ info ∈ outs, Safe info.filename := by
  induction outs generalizing c with
  | nil => exact fun info hinfo => (List.not_mem_nil hinfo).elim
  | cons out outs ih =>
    rw [List.foldlM_cons] at h
    obtain ⟨c', hc', h⟩ := ok_of_bind h
    rw [checkEntry] at hc'
    split_ifs at hc' with hsafe hdir
    all_goals
      rw [List.forall_mem_cons]
      exact ⟨hsafe, ih h⟩

/-- Safe members that fit pass the checks. -/
theorem checks_of_safe {f : Str → List UInt8} {c : ℕ} (hsafe : ∀ info ∈ outs, Safe info.filename)
    (hread : ∀ info ∈ outs, zfRead infos info.filename = .ok (f info.filename))
    (hfit : c + (outs.map fun info => (f info.filename).length).sum ≤ maxDecompressedBytes) :
    ∃ t, outs.foldlM (checkEntry infos) c = .ok t := by
  induction outs generalizing c with
  | nil => exact ⟨c, rfl⟩
  | cons out outs ih =>
    rw [List.forall_mem_cons] at hsafe hread
    rw [List.map_cons, List.sum_cons] at hfit
    rw [List.foldlM_cons, checkEntry, if_neg (not_not.mpr hsafe.1)]
    split_ifs with hdir
    · exact ih hsafe.2 hread.2 (by omega)
    · have hentry : readEntryChunked infos out.filename c = .ok (f out.filename, c + (f out.filename).length) :=
        (readEntryChunked_eq_ok (by omega)).mpr ⟨hread.1, rfl, by omega⟩
      rw [hentry]
      refine ih hsafe.2 hread.2 ?_
      dsimp only
      omega

/-! ## The repacking -/

/-- What a name reads, if it can be read. -/
def readBytes (infos : List PackInfo) (name : Str) : List UInt8 := (zfRead infos name).toOption.getD []

theorem readBytes_of_zfRead {d : List UInt8} (h : zfRead infos name = .ok d) : readBytes infos name = d := by
  rw [readBytes, h]
  rfl

theorem below_append {rest : Str} (hfolder : folder ≠ []) : Below folder (folder ++ 47 :: rest) ↔ rest ≠ [] := by
  have hpre : folder ++ [47] <+: folder ++ 47 :: rest := ⟨rest, by simp⟩
  simp only [Below, hfolder, false_or, hpre, true_and, ne_eq, List.append_cancel_left_eq, List.cons.injEq]

theorem exists_of_below (hfolder : folder ≠ []) (h : Below folder name) : ∃ rest, name = folder ++ 47 :: rest := by
  obtain ⟨⟨rest, hrest⟩, -⟩ := h.resolve_left hfolder
  exact ⟨rest, by rw [← hrest, List.append_assoc]; rfl⟩

theorem drop_folder {rest : Str} : (folder ++ 47 :: rest).drop (folder ++ [47]).length = rest := by
  have h : folder ++ 47 :: rest = folder ++ [47] ++ rest := List.append_cons folder 47 rest
  rw [h, List.drop_left]

theorem relative_append {rest : Str} (hfolder : folder ≠ []) : relative folder (folder ++ 47 :: rest) = rest := by
  have hlength : folder.length + 1 = (folder ++ [(47 : CodePoint)]).length := by simp
  rw [relative, if_neg hfolder, hlength, drop_folder]

/-- The repacking reads the members below the folder. -/
theorem repackEntry_eq {out : List (Str × List UInt8) × ℕ} {info : PackInfo} (hfolder : folder ≠ []) :
    repackEntry infos folder out info = if Below folder info.filename then
      (readEntryChunked infos info.filename out.2).map fun r => (out.1 ++ [(relative folder info.filename, r.1)], r.2)
    else .ok out := by
  rw [repackEntry]
  by_cases hpre : folder ++ [47] <+: info.filename
  · obtain ⟨rest, hrest⟩ := hpre
    have hname : info.filename = folder ++ 47 :: rest := by rw [← hrest, List.append_assoc]; rfl
    have hbool : (folder ++ [47]).isPrefixOf info.filename = true := List.isPrefixOf_iff_prefix.mpr ⟨rest, hrest⟩
    rw [hbool, Bool.not_true, if_neg Bool.false_ne_true, hname]
    dsimp only
    rw [drop_folder, relative_append hfolder]
    by_cases hnil : rest = []
    · rw [if_pos hnil, if_neg fun h => (below_append hfolder).mp h hnil]
    · rw [if_neg hnil, if_pos ((below_append hfolder).mpr hnil)]
  · have hbool : (folder ++ [47]).isPrefixOf info.filename = false :=
      Bool.eq_false_iff.mpr fun h => hpre (List.isPrefixOf_iff_prefix.mp h)
    rw [hbool, Bool.not_false, if_pos rfl, if_neg fun h => hpre (h.resolve_left hfolder).1]

/-- What is written: the members below the folder, with what their names read. -/
theorem repack_eq {l : List PackInfo} {out r : List (Str × List UInt8) × ℕ} (hfolder : folder ≠ [])
    (hc : out.2 ≤ maxDecompressedBytes) (h : l.foldlM (repackEntry infos folder) out = .ok r) :
    r.1 = out.1 ++ (below folder l).map (fun info => (relative folder info.filename, readBytes infos info.filename)) ∧
      (∀ info ∈ below folder l, zfRead infos info.filename = .ok (readBytes infos info.filename)) ∧
      out.2 + ((below folder l).map fun info => (readBytes infos info.filename).length).sum ≤ maxDecompressedBytes := by
  induction l generalizing out with
  | nil =>
    cases h
    exact ⟨(List.append_nil _).symm, fun info hinfo => (List.not_mem_nil hinfo).elim, hc⟩
  | cons info l ih =>
    rw [List.foldlM_cons, repackEntry_eq hfolder] at h
    by_cases hbelow : Below folder info.filename
    · have hcons : below folder (info :: l) = info :: below folder l :=
        List.filter_cons_of_pos (decide_eq_true hbelow)
      rw [if_pos hbelow] at h
      obtain ⟨out', hout', h⟩ := ok_of_bind h
      obtain ⟨⟨d, t⟩, hread, rfl⟩ := ok_of_map hout'
      obtain ⟨hd, ht, hle⟩ := (readEntryChunked_eq_ok hc).mp hread
      obtain ⟨hr, hall, hfit⟩ := ih hle h
      rw [hcons, List.map_cons, List.map_cons, List.sum_cons, List.forall_mem_cons, readBytes_of_zfRead hd]
      refine ⟨?_, ⟨hd, hall⟩, ?_⟩
      · rw [hr, List.append_assoc]
        rfl
      · dsimp only at hfit
        omega
    · have hcons : below folder (info :: l) = below folder l :=
        List.filter_cons_of_neg (by simpa using hbelow)
      rw [if_neg hbelow] at h
      rw [hcons]
      exact ih hc h

/-! ## The archive that is searched -/

/-- The first two steps are passed, and the archive holds more than another. -/
structure Searched (libs : Libraries) (content : List UInt8) (infos : List PackInfo) : Prop where
  isZipfile : libs.isZipfile content = true
  infolist : libs.infolist content = .ok infos
  count : infos.length ≤ maxEntryCount
  checks : ∃ t, infos.foldlM (checkEntry infos) 0 = .ok t
  zipInZip : ResourcePack.zipInZip infos = none

section
variable {content inner out : List UInt8} {levels : ℕ}

theorem innermost_of_none (hinfos : libs.infolist content = .ok infos) (hinner : zipInZip infos = none) :
    innermost libs (levels + 1) content = content := by
  simp only [innermost, hinfos, hinner]

theorem innermost_of_some (hinfos : libs.infolist content = .ok infos) (hinner : zipInZip infos = some name)
    (hread : zfRead infos name = .ok inner) : innermost libs (levels + 1) content = innermost libs levels inner := by
  simp only [innermost, hinfos, hinner, hread]

/-- What is accepted is searched at the innermost archive. -/
theorem searched_innermost (h : validateAndNormalizeAt libs levels content = .ok out) :
    ∃ infos, Searched libs (innermost libs levels content) infos ∧
      normalize libs (innermost libs levels content) infos = .ok out := by
  induction levels generalizing content with
  | zero => cases h
  | succ levels ih =>
    rw [validateAndNormalizeAt] at h
    split_ifs at h with hzip
    cases hinfos : libs.infolist content with
    | error e =>
      rw [hinfos] at h
      cases h
    | ok infos =>
      rw [hinfos] at h
      dsimp only at h
      split_ifs at h with hcount
      obtain ⟨t, hchecks, h⟩ := ok_of_bind h
      cases hinner : zipInZip infos with
      | none =>
        rw [hinner] at h
        rw [innermost_of_none hinfos hinner]
        exact ⟨infos, ⟨by simpa using hzip, hinfos, Nat.le_of_not_lt hcount, ⟨t, hchecks⟩, hinner⟩, h⟩
      | some name =>
        rw [hinner] at h
        obtain ⟨⟨inner, t'⟩, hread, h⟩ := ok_of_bind h
        rw [innermost_of_some hinfos hinner ((readEntryChunked_eq_ok (Nat.zero_le _)).mp hread).1]
        exact ih h

theorem Searched.accepted (h : Searched libs content infos) (hout : normalize libs content infos = .ok out) :
    validateAndNormalize libs content = .ok out := by
  obtain ⟨t, hchecks⟩ := h.checks
  simp only [validateAndNormalize, validateAndNormalizeAt, h.isZipfile, h.infolist, Nat.not_lt.mpr h.count, hchecks,
    h.zipInZip, Bool.not_true, Bool.false_eq_true, if_false]
  exact hout

theorem normalize_eq_ok (h : normalize libs content infos = .ok out) :
    ∃ target raw, shallowest (mcmetaPaths infos) = .ok target ∧ zfRead infos target = .ok raw ∧
      validatePackMcmeta libs raw = .ok () ∧
      (if dirname target = [] then .ok content else repackStripping libs infos (dirname target)) = Except.ok out := by
  obtain ⟨target, htarget, h⟩ := ok_of_bind h
  obtain ⟨raw, hraw, h⟩ := ok_of_bind h
  obtain ⟨⟨⟩, hvalid, h⟩ := ok_of_bind h
  exact ⟨target, raw, htarget, hraw, hvalid, h⟩

theorem normalize_of_root {raw : List UInt8} (htarget : shallowest (mcmetaPaths infos) = .ok target)
    (hraw : zfRead infos target = .ok raw) (hvalid : validatePackMcmeta libs raw = .ok ())
    (hroot : dirname target = []) : normalize libs content infos = .ok content := by
  rw [normalize, htarget]
  show (do
    validatePackMcmeta libs (← zfRead infos target)
    if dirname target = [] then return content
    repackStripping libs infos (dirname target)) = _
  rw [hraw]
  show (do
    validatePackMcmeta libs raw
    if dirname target = [] then return content
    repackStripping libs infos (dirname target)) = _
  rw [hvalid, if_pos hroot]
  rfl

end

/-! ## The output -/

theorem mcmetaPaths_eq : mcmetaPaths infos = (infos.map (·.filename)).filter (basename · = packMcmeta) := by
  rw [mcmetaPaths, List.filter_map]
  congr 1
  refine List.filter_congr fun info _ => ?_
  by_cases h : basename info.filename = packMcmeta
  · simp [h, not_dir_of_basename h]
  · simp [h]

/-- The members that are written. -/
def Written (infos outs : List PackInfo) (folder : Str) : Prop :=
  outs.map member =
    (below folder infos).map fun info => (relative folder info.filename, .ok (readBytes infos info.filename))

theorem written_of_repack {out : List UInt8} (hback : ReadsBack libs) (hfolder : folder ≠ [])
    (h : repackStripping libs infos folder = .ok out) : ∃ outs, libs.isZipfile out = true ∧
      libs.infolist out = .ok outs ∧ Written infos outs folder ∧
      ((below folder infos).map fun info => (readBytes infos info.filename).length).sum ≤ maxDecompressedBytes ∧
      ∀ info ∈ below folder infos, zfRead infos info.filename = .ok (readBytes infos info.filename) := by
  obtain ⟨⟨ms, t⟩, hloop, rfl⟩ := ok_of_map h
  obtain ⟨hms, hread, hfit⟩ := repack_eq hfolder (Nat.zero_le _) hloop
  obtain ⟨outs, houts, hmembers⟩ := hback.infolist ms
  refine ⟨outs, hback.isZipfile ms, houts, ?_, ?_, hread⟩
  · rw [Written, hmembers, show ms = _ from hms, List.nil_append, List.map_map]
    rfl
  · rwa [Nat.zero_add] at hfit

namespace Written

/-- A member of the output, and the one it was. -/
theorem exists_below (h : Written infos outs folder) (hfolder : folder ≠ []) {out : PackInfo} (hout : out ∈ outs) :
    ∃ info ∈ infos, info.filename = folder ++ 47 :: out.filename ∧
      contents out.failure out.chunks = .ok (readBytes infos (folder ++ 47 :: out.filename)) := by
  have hmem : member out ∈ outs.map member := List.mem_map_of_mem hout
  rw [h, List.mem_map] at hmem
  obtain ⟨info, hinfo, heq⟩ := hmem
  rw [below, List.mem_filter] at hinfo
  obtain ⟨rest, hrest⟩ := exists_of_below hfolder (of_decide_eq_true hinfo.2)
  rw [hrest, relative_append hfolder] at heq
  have hname : rest = out.filename := congrArg Prod.fst heq
  rw [hname] at hrest heq
  exact ⟨info, hinfo.1, hrest, (congrArg Prod.snd heq).symm⟩

theorem filenames (h : Written infos outs folder) :
    outs.map (·.filename) = (below folder infos).map (relative folder ·.filename) := by
  have hfst := congrArg (List.map Prod.fst) h
  rwa [List.map_map, List.map_map] at hfst

/-- A member below the folder is written. -/
theorem mem_filenames (h : Written infos outs folder) (hfolder : folder ≠ []) {info : PackInfo} (hinfo : info ∈ infos)
    {rest : Str} (hname : info.filename = folder ++ 47 :: rest) (hrest : rest ≠ []) :
    rest ∈ outs.map (·.filename) := by
  rw [h.filenames, List.mem_map]
  refine ⟨info, List.mem_filter.mpr ⟨hinfo, decide_eq_true ?_⟩, ?_⟩
  · rw [hname]
    exact (below_append hfolder).mpr hrest
  · rw [hname, relative_append hfolder]

/-- The output is safe where no name goes on with a second slash. -/
theorem safe (h : Written infos outs folder) (hfolder : folder ≠ []) (hsafe : ∀ info ∈ infos, Safe info.filename)
    (hslash : ∀ info ∈ infos, ¬folder ++ str "//" <+: info.filename) : ∀ out ∈ outs, Safe out.filename := by
  intro out hout
  obtain ⟨info, hinfo, hname, -⟩ := h.exists_below hfolder hout
  refine ⟨fun hhead => ?_, fun hdots => ?_⟩
  · obtain ⟨rest, hrest⟩ := List.head?_eq_some_iff.mp hhead
    refine hslash info hinfo ⟨rest, ?_⟩
    rw [hname, hrest, List.append_assoc]
    rfl
  · refine (hsafe info hinfo).2 ?_
    rw [hname, List.splitOn_append_cons_self]
    exact List.mem_append_right _ hdots

/-- The names of the output read what was written. -/
theorem zfRead_eq (h : Written infos outs folder) (hfolder : folder ≠ []) {out : PackInfo} (hout : out ∈ outs) :
    zfRead outs out.filename = .ok (readBytes infos (folder ++ 47 :: out.filename)) := by
  refine zfRead_of_forall (f := fun rest => readBytes infos (folder ++ 47 :: rest)) (fun out hout => ?_) hout
  obtain ⟨-, -, -, hread⟩ := h.exists_below hfolder hout
  exact hread

theorem sum_eq (h : Written infos outs folder) (hfolder : folder ≠ []) :
    (outs.map fun out => (readBytes infos (folder ++ 47 :: out.filename)).length) =
      (below folder infos).map fun info => (readBytes infos info.filename).length := by
  have hlengths := congrArg (List.map fun rest => (readBytes infos (folder ++ 47 :: rest)).length) h.filenames
  rw [List.map_map, List.map_map] at hlengths
  refine hlengths.trans (List.map_congr_left fun info hinfo => ?_)
  rw [below, List.mem_filter] at hinfo
  obtain ⟨rest, hrest⟩ := exists_of_below hfolder (of_decide_eq_true hinfo.2)
  simp only [Function.comp_apply, hrest, relative_append hfolder]

/-- The pack of the output is at its root. -/
theorem shallowest_eq (h : Written infos outs folder) (hfolder : folder ≠ [])
    (htarget : shallowest (mcmetaPaths infos) = .ok (folder ++ 47 :: packMcmeta)) :
    shallowest (mcmetaPaths outs) = .ok packMcmeta := by
  have hbase := (shallowest_mcmetaPaths htarget).basename
  rw [shallowest_eq_ok, mcmetaPaths_eq] at htarget ⊢
  -- one name is the target before, and so after
  have hbefore : (infos.filter (·.filename = folder ++ 47 :: packMcmeta)).map (·.filename) =
      [folder ++ 47 :: packMcmeta] := by
    have hfilter := congrArg (List.filter (· = folder ++ 47 :: packMcmeta)) htarget
    have hself : [folder ++ 47 :: packMcmeta].filter (· = folder ++ 47 :: packMcmeta) =
        [folder ++ 47 :: packMcmeta] := by simp
    rw [List.filter_filter, List.filter_filter, hself] at hfilter
    rw [← hfilter, List.filter_map]
    congr 1
    refine List.filter_congr fun info _ => ?_
    by_cases hname : info.filename = folder ++ 47 :: packMcmeta
    · simp [hname, hbase]
    · simp [hname]
  have hafter : (outs.map (·.filename)).filter (· = packMcmeta) = [packMcmeta] := by
    have hrelative := congrArg (List.map (relative folder)) hbefore
    rw [List.map_map, List.map_cons, List.map_nil, relative_append hfolder] at hrelative
    rw [h.filenames, List.filter_map, below, List.filter_filter, ← hrelative]
    congr 1
    refine List.filter_congr fun info _ => ?_
    by_cases hbelow : Below folder info.filename
    · obtain ⟨rest, hrest⟩ := exists_of_below hfolder hbelow
      rw [decide_eq_true hbelow, Bool.and_true]
      simp [hrest, relative_append hfolder]
    · have hne : info.filename ≠ folder ++ 47 :: packMcmeta := fun hname =>
        hbelow (by rw [hname]; exact (below_append hfolder).mpr (by decide))
      simp [hbelow, hne]
  rw [List.filter_filter, ← hafter]
  refine List.filter_congr fun name _ => ?_
  rw [← Bool.decide_and, decide_eq_decide]
  constructor
  · rintro ⟨hdepth, hname⟩
    have hnone : 47 ∉ name := List.count_eq_zero.mp (Nat.le_zero.mp hdepth)
    rw [← hname, basename, List.rtakeWhile_eq_self_iff.mpr]
    exact fun c hc => decide_eq_true fun hc' => hnone (hc' ▸ hc)
  · rintro rfl
    exact ⟨Nat.le_refl _, basename_packMcmeta⟩

end Written

/-- The output is searched, and returned unchanged. -/
theorem searched_written {content out raw : List UInt8} (hsearched : Searched libs content infos)
    (h : Written infos outs folder) (hfolder : folder ≠ []) (hzip : libs.isZipfile out = true)
    (houts : libs.infolist out = .ok outs)
    (hfit : ((below folder infos).map fun info => (readBytes infos info.filename).length).sum ≤ maxDecompressedBytes)
    (hslash : ∀ info ∈ infos, ¬folder ++ str "//" <+: info.filename)
    (htarget : shallowest (mcmetaPaths infos) = .ok (folder ++ 47 :: packMcmeta))
    (hraw : zfRead infos (folder ++ 47 :: packMcmeta) = .ok raw) (hvalid : validatePackMcmeta libs raw = .ok ()) :
    packMcmeta ∈ outs.map (·.filename) ∧ Searched libs out outs ∧ normalize libs out outs = .ok out := by
  obtain ⟨t, hchecks⟩ := hsearched.checks
  have hsafe := h.safe hfolder (safe_of_checks hchecks) hslash
  have hshallowest := h.shallowest_eq hfolder htarget
  have hmem := (shallowest_mcmetaPaths hshallowest).mem
  obtain ⟨pack, hpack, hname⟩ := List.mem_map.mp hmem
  have hread : zfRead outs packMcmeta = .ok raw := by
    rw [← hname, h.zfRead_eq hfolder hpack, hname, readBytes_of_zfRead hraw]
  refine ⟨hmem, ⟨hzip, houts, ?_, ?_, ?_⟩, normalize_of_root hshallowest hread hvalid (by decide)⟩
  · have hlength := congrArg List.length h.filenames
    rw [List.length_map, List.length_map] at hlength
    rw [hlength]
    exact (List.length_filter_le _ _).trans hsearched.count
  · refine checks_of_safe (f := fun rest => readBytes infos (folder ++ 47 :: rest)) hsafe
      (fun out hout => h.zfRead_eq hfolder hout) ?_
    rw [h.sum_eq hfolder, Nat.zero_add]
    exact hfit
  · -- the pack is no archive
    have hfile : pack.isDir = false := not_dir_of_basename (by rw [hname]; exact basename_packMcmeta)
    rw [zipInZip]
    split
    · next info heq =>
      have hin : pack ∈ outs.filter (!·.isDir) := List.mem_filter.mpr ⟨hpack, by rw [hfile]; rfl⟩
      rw [heq, List.mem_singleton] at hin
      rw [← hin, hname]
      exact if_neg (by decide)
    · rfl

/-! ## The promise -/

section
variable {content out raw : List UInt8}

/-- A pack at the root is returned unchanged. -/
theorem promised_of_root (hsearched : Searched libs (innermost libs (maxZipInZipDepth + 1) content) infos)
    (htarget : shallowest (mcmetaPaths infos) = .ok target) (hraw : zfRead infos target = .ok raw)
    (hvalid : validatePackMcmeta libs raw = .ok ()) (hroot : dirname target = []) :
    Promised libs content (innermost libs (maxZipInZipDepth + 1) content) := by
  have hshallowest := shallowest_mcmetaPaths htarget
  obtain ⟨t, hchecks⟩ := hsearched.checks
  refine ⟨infos, target, infos, hsearched.infolist, hshallowest, hsearched.infolist, ⟨?_, safe_of_checks hchecks, ?_⟩,
    hsearched.accepted (normalize_of_root htarget hraw hvalid hroot)⟩
  · rw [← eq_of_dirname_nil hshallowest.basename hroot]
    exact hshallowest.mem
  · have hall : below [] infos = infos := List.filter_eq_self.mpr fun info _ => decide_eq_true (.inl rfl)
    rw [hroot, hall]
    rfl

/-- The output has the members below the folder, if they share what they read. -/
theorem Written.exact_iff (h : Written infos outs folder)
    (hread : ∀ info ∈ below folder infos, zfRead infos info.filename = .ok (readBytes infos info.filename)) :
    outs.map member = (below folder infos).map (fun info => (relative folder info.filename, (member info).2)) ↔
      ∀ info ∈ below folder infos,
        (contents info.failure info.chunks).mapError .zip = zfRead infos info.filename := by
  rw [h, List.map_inj_left]
  refine forall₂_congr fun info hinfo => ?_
  rw [hread info hinfo, Prod.mk.injEq]
  show (_ ∧ _ = contents info.failure info.chunks) ↔ _
  cases contents info.failure info.chunks <;> simp [Except.mapError, eq_comm]

/-- What is stored of an upload is as promised, exactly where the names below the folder of its pack can be stripped. -/
theorem normalize_promised (libs : Libraries) (hback : ReadsBack libs) (content out : List UInt8)
    (h : validateAndNormalize libs content = .ok out) : Promised libs content out ↔
      ∀ infos target, libs.infolist (innermost libs (maxZipInZipDepth + 1) content) = .ok infos →
        Shallowest infos target → dirname target ≠ [] → Strippable infos (dirname target) := by
  obtain ⟨infos, hsearched, hnormalize⟩ := searched_innermost h
  obtain ⟨target, raw, htarget, hraw, hvalid, hout⟩ := normalize_eq_ok hnormalize
  have hshallowest := shallowest_mcmetaPaths htarget
  have hunique : ∀ infos' target', libs.infolist (innermost libs (maxZipInZipDepth + 1) content) = .ok infos' →
      Shallowest infos' target' → infos' = infos ∧ target' = target := by
    intro infos' target' hinfos' htarget'
    rw [hsearched.infolist] at hinfos'
    cases hinfos'
    exact ⟨rfl, hshallowest.unique htarget'⟩
  by_cases hroot : dirname target = []
  · rw [if_pos hroot] at hout
    cases hout
    refine iff_of_true (promised_of_root hsearched htarget hraw hvalid hroot) ?_
    intro infos' target' hinfos' htarget' hne
    obtain ⟨rfl, rfl⟩ := hunique infos' target' hinfos' htarget'
    exact (hne hroot).elim
  · rw [if_neg hroot] at hout
    obtain ⟨outs, hzip, houts, hwritten, hfit, hread⟩ := written_of_repack hback hroot hout
    obtain ⟨t, hchecks⟩ := hsearched.checks
    have hsafe := safe_of_checks hchecks
    constructor
    · rintro ⟨infos', target', outs', hinfos', htarget', houts', hnormalized, -⟩ infos'' target'' hinfos'' htarget'' -
      obtain ⟨rfl, rfl⟩ := hunique infos' target' hinfos' htarget'
      obtain ⟨rfl, rfl⟩ := hunique infos'' target'' hinfos'' htarget''
      rw [houts] at houts'
      cases houts'
      refine ⟨fun info hinfo hslash => ?_, (hwritten.exact_iff hread).mp hnormalized.exact⟩
      obtain ⟨rest, hrest⟩ := hslash
      have hname : info.filename = dirname target'' ++ 47 :: 47 :: rest := by
        rw [← hrest, List.append_assoc]
        rfl
      have hmem := hwritten.mem_filenames hroot hinfo hname (List.cons_ne_nil _ _)
      obtain ⟨out', hout', hname'⟩ := List.mem_map.mp hmem
      exact (hnormalized.safe out' hout').1 (by rw [hname']; rfl)
    · intro hstrip
      have hstrippable := hstrip infos target hsearched.infolist hshallowest hroot
      obtain ⟨info, hinfo, hname⟩ := List.mem_map.mp hshallowest.mem
      have hpack : target = dirname target ++ 47 :: packMcmeta :=
        eq_of_dirname (hname ▸ hsafe info hinfo) hshallowest.basename hroot (hname ▸ hstrippable.slash info hinfo)
      rw [hpack] at htarget hraw
      obtain ⟨hmem, hagain, hsame⟩ := searched_written hsearched hwritten hroot hzip houts hfit hstrippable.slash
        htarget hraw hvalid
      exact ⟨infos, target, outs, hsearched.infolist, hshallowest, houts,
        ⟨hmem, hwritten.safe hroot hsafe hstrippable.slash, (hwritten.exact_iff hread).mpr hstrippable.contents⟩,
        hagain.accepted hsame⟩

end

/-! ## An upload with a doubled slash -/

/-- Archives whose length is the number of their list of members, and packs of format 1. -/
def numbered : Libraries where
  isZipfile content := (Encodable.decode (α := List (Str × List ℕ)) content.length).isSome
  infolist content :=
    match Encodable.decode (α := List (Str × List ℕ)) content.length with
    | none => .error .badZipFile
    | some ms => .ok (ms.map fun m => ⟨m.1, [m.2.map UInt8.ofNat], none⟩)
  write ms := List.replicate (Encodable.encode (ms.map fun m => (m.1, m.2.map UInt8.toNat))) 0
  jsonLoads _ := .ok (.dict [(str "pack", .dict [(str "pack_format", .int 1)])])

theorem numbered_infolist (ms : List (Str × List UInt8)) :
    numbered.infolist (numbered.write ms) = .ok (ms.map fun m => ⟨m.1, [m.2], none⟩) := by
  simp [numbered, Function.comp_def]

theorem numbered_isZipfile (ms : List (Str × List UInt8)) : numbered.isZipfile (numbered.write ms) = true := by
  simp [numbered]

theorem numbered_readsBack : ReadsBack numbered := by
  refine ⟨numbered_isZipfile, fun ms => ⟨_, numbered_infolist ms, ?_⟩⟩
  rw [List.map_map]
  refine List.map_congr_left fun m _ => ?_
  show (m.1, contents none [m.2]) = _
  rw [contents]
  split_ifs with h
  · rw [h]
  · simp [contents, Except.map]

/-- A pack of one member, below a folder. -/
theorem numbered_normalize {name rest : Str} (hsafe : Safe name) (hbase : basename name = packMcmeta)
    (hdir : dirname name ≠ []) (hname : name = dirname name ++ 47 :: rest) (hrest : rest ≠ [])
    (hzip : lowerEndswith name (str ".zip") = false) :
    validateAndNormalize numbered (numbered.write [(name, [0])]) = .ok (numbered.write [(rest, [0])]) := by
  have hread : ∀ info ∈ [(⟨name, [[0]], none⟩ : PackInfo)], zfRead [⟨name, [[0]], none⟩] info.filename = .ok [0] :=
    fun info hinfo => zfRead_of_forall (f := fun _ => [0])
      (fun info hinfo => by rw [List.mem_singleton.mp hinfo]; rfl) hinfo
  have htarget : shallowest (mcmetaPaths [⟨name, [[0]], none⟩]) = .ok name := by
    rw [shallowest_eq_ok, mcmetaPaths_eq]
    simp [hbase]
  have hsearched : Searched numbered (numbered.write [(name, [0])]) [⟨name, [[0]], none⟩] := by
    refine ⟨numbered_isZipfile _, numbered_infolist _, by simp [maxEntryCount], ?_, ?_⟩
    · refine checks_of_safe (f := fun _ => [0]) (by simpa using hsafe) hread ?_
      simp [maxDecompressedBytes]
    · have hfile : PackInfo.isDir ⟨name, [[0]], none⟩ = false := not_dir_of_basename hbase
      simp [zipInZip, hfile, hzip]
  have hbelow : Below (dirname name) name := by
    have h := (below_append hdir).mpr hrest
    rwa [← hname] at h
  have hrelative : relative (dirname name) name = rest := by
    have h : relative (dirname name) (dirname name ++ 47 :: rest) = rest := relative_append hdir
    rwa [← hname] at h
  have hentry : readEntryChunked [⟨name, [[0]], none⟩] name 0 = .ok ([0], 1) :=
    (readEntryChunked_eq_ok (Nat.zero_le _)).mpr ⟨hread _ (List.mem_singleton_self _), rfl, by decide⟩
  have hrepack : repackStripping numbered [⟨name, [[0]], none⟩] (dirname name) =
      .ok (numbered.write [(rest, [0])]) := by
    rw [repackStripping, List.foldlM_cons, repackEntry_eq hdir, if_pos hbelow, hrelative]
    dsimp only
    rw [hentry]
    rfl
  refine hsearched.accepted ?_
  rw [normalize, htarget]
  show (do
    validatePackMcmeta numbered (← zfRead [⟨name, [[0]], none⟩] name)
    if dirname name = [] then return _
    repackStripping numbered [⟨name, [[0]], none⟩] (dirname name)) = _
  rw [hread _ (List.mem_singleton_self _), if_neg hdir, hrepack]
  rfl

theorem normalize_promised_wrapped : Promised numbered (numbered.write [(str "a/pack.mcmeta", [0])])
    (numbered.write [(packMcmeta, [0])]) := by
  have hinner : innermost numbered (maxZipInZipDepth + 1) (numbered.write [(str "a/pack.mcmeta", [0])]) =
      numbered.write [(str "a/pack.mcmeta", [0])] := innermost_of_none (numbered_infolist _) (by decide)
  refine (normalize_promised numbered numbered_readsBack _ _ (numbered_normalize (by decide) (by decide) (by decide)
    (by decide) (by decide) (by decide))).mpr fun infos target hinfos htarget _ => ?_
  rw [hinner, numbered_infolist] at hinfos
  cases hinfos
  have hname := htarget.mem
  rw [List.map_map, List.map_singleton, List.mem_singleton] at hname
  rw [hname]
  refine ⟨fun info hinfo => ?_, fun info hinfo => ?_⟩
  · rw [List.mem_singleton.mp hinfo]
    decide
  · rw [List.mem_singleton.mp (List.mem_of_mem_filter hinfo)]
    rfl

/-- Only one of two slashes is stripped: the one member of the output is absolute, and the output is not accepted. -/
theorem doubled_slash_absolute :
    validateAndNormalize numbered (numbered.write [(str "a//pack.mcmeta", [0])]) =
        .ok (numbered.write [(str "/pack.mcmeta", [0])]) ∧
      ¬Promised numbered (numbered.write [(str "a//pack.mcmeta", [0])])
        (numbered.write [(str "/pack.mcmeta", [0])]) := by
  refine ⟨numbered_normalize (by decide) (by decide) (by decide) (by decide) (by decide) (by decide), ?_⟩
  rintro ⟨infos, target, outs, -, -, houts, hnormalized, -⟩
  rw [numbered_infolist] at houts
  cases houts
  exact (hnormalized.safe _ (List.mem_singleton_self _)).1 (by decide)

end McServerDashboard.Files.ResourcePack
