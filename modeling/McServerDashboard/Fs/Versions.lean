import Mathlib.Data.List.DropRight
import Mathlib.Data.List.Sort
import Mathlib.Data.Nat.Digits.Defs
import Mathlib.Data.String.Basic
import McServerDashboard.Fs.Shape
import McServerDashboard.Lib.Characters

/-!
# The retained versions of a file

`versions/` mirrors the working set: the ring of a file is the directory at the file's path below
it. A ring holds one file a version; it may also hold the rings of paths that were below a
directory of the same name. A version id is a zero-padded timestamp and a random suffix.

* `newVersionId`, **`newVersionId_lt`**: later ids sort after earlier ones.
* `ringMembers`, `ring`: the versions among the entries of a ring directory, oldest first.
* `captureVersion`: a copy into the ring, then the prune.
* **`ring_captureVersion`**: a capture appends to the ring of its path, drops what is over the
  retention, and leaves every other ring alone; one that fails leaves all rings alone.
-/

namespace McServerDashboard.Fs

open Lib Lib.Properties

/-! ## Version ids -/

/-- `f"{n:0{width}d}"` of a number that fits. -/
def decimals : ℕ → ℕ → List Char
  | 0, _ => []
  | width + 1, n => decimals width (n / 10) ++ [Nat.digitChar (n % 10)]

/-- A lower-case hexadecimal digit. -/
def isHexDigit (c : Char) : Bool := ('0' ≤ c && c ≤ '9') || ('a' ≤ c && c ≤ 'f')

/-- `uuid4().hex[:8]`. -/
structure Suffix where
  chars : List Char
  eight : chars.length = 8
  hex : chars.all isHexDigit = true
  deriving DecidableEq

/-- `_new_version_id`, from `time.time_ns()` and the random suffix. -/
def newVersionId (ns : ℕ) (suffix : Suffix) : String := String.ofList (decimals 20 ns ++ '-' :: suffix.chars)

/-- `\d` of a pattern. -/
def isDecimal (c : Char) : Bool := (decimal? (chr c.toNat)).isSome

/-- `is_version_ring_member`. -/
def isVersionRingMember (name : String) : Bool :=
  let cs := name.toList
  cs.length = 29 && (cs.take 20).all isDecimal && cs[20]? = some '-' && (cs.drop 21).all isHexDigit

theorem length_decimals (width n : ℕ) : (decimals width n).length = width := by
  induction width generalizing n with
  | zero => rfl
  | succ width ih => rw [decimals, List.length_append, ih, List.length_singleton]

theorem isDecimal_digitChar (n : ℕ) : isDecimal (Nat.digitChar (n % 10)) = true := by
  have hall : ∀ d < 10, isDecimal (Nat.digitChar d) = true := by decide
  exact hall _ (Nat.mod_lt n (by decide))

theorem isDecimal_decimals (width n : ℕ) : (decimals width n).all isDecimal = true := by
  induction width generalizing n with
  | zero => rfl
  | succ width ih =>
    rw [decimals, List.all_append, ih, Bool.true_and, List.all_cons, List.all_nil, Bool.and_true]
    exact isDecimal_digitChar n

/-- What is minted has the format that the ring filters for. -/
theorem isVersionRingMember_newVersionId (ns : ℕ) (suffix : Suffix) :
    isVersionRingMember (newVersionId ns suffix) = true := by
  have hlen := length_decimals 20 ns
  have hdrop : (decimals 20 ns ++ '-' :: suffix.chars).drop 21 = suffix.chars := by
    rw [List.append_cons]
    exact List.drop_left' (by rw [List.length_append, hlen, List.length_singleton])
  simp only [isVersionRingMember, newVersionId, String.toList_ofList]
  rw [hdrop, List.take_left' hlen, List.getElem?_append_right hlen.le, hlen, isDecimal_decimals, suffix.hex,
    List.length_append, hlen, List.length_cons, suffix.eight]
  rfl

/-! ### Their order -/

/-- What stands before decides, if it differs and is as long. -/
theorem append_lt_append {α : Type*} [LinearOrder α] {l m : List α} (hlen : l.length = m.length) (h : l < m) (u v : List α) :
    l ++ u < m ++ v := by
  induction l generalizing m with
  | nil =>
    rw [List.eq_nil_of_length_eq_zero hlen.symm] at h
    exact absurd h (lt_irrefl _)
  | cons a l ih =>
    cases m with
    | nil => cases hlen
    | cons b m =>
      rw [List.cons_append, List.cons_append, List.cons_lt_cons_iff]
      rcases List.cons_lt_cons_iff.mp h with hab | ⟨rfl, hlm⟩
      · exact .inl hab
      · exact .inr ⟨rfl, ih (Nat.succ.inj hlen) hlm⟩

theorem append_lt_append_left {α : Type*} [LinearOrder α] (l : List α) {u v : List α} (h : u < v) : l ++ u < l ++ v := by
  induction l with
  | nil => exact h
  | cons a l ih => exact List.cons_lt_cons_iff.mpr (.inr ⟨rfl, ih⟩)

theorem digitChar_lt {d e : ℕ} (he : e < 10) (h : d < e) : Nat.digitChar d < Nat.digitChar e := by
  have hall : ∀ e < 10, ∀ d < e, Nat.digitChar d < Nat.digitChar e := by decide
  exact hall e he d h

/-- **Padded numbers sort as the numbers do.** -/
theorem decimals_lt {width n m : ℕ} (hm : m < 10 ^ width) (h : n < m) : decimals width n < decimals width m := by
  induction width generalizing n m with
  | zero =>
    rw [pow_zero] at hm
    omega
  | succ width ih =>
    have hdiv : m / 10 < 10 ^ width := by
      rw [pow_succ] at hm
      exact Nat.div_lt_of_lt_mul (by rwa [Nat.mul_comm] at hm)
    rw [decimals, decimals]
    rcases Nat.lt_or_ge (n / 10) (m / 10) with hlt | hge
    · exact append_lt_append ((length_decimals _ _).trans (length_decimals _ _).symm) (ih hdiv hlt) _ _
    · have heq : n / 10 = m / 10 := by omega
      rw [heq]
      refine append_lt_append_left _ (List.cons_lt_cons_iff.mpr (.inl (digitChar_lt ?_ ?_)))
      · exact Nat.mod_lt _ (by decide)
      · omega

/-- **A later id sorts after an earlier one.** -/
theorem newVersionId_lt {n m : ℕ} (hm : m < 10 ^ 20) (h : n < m) (x y : Suffix) : newVersionId n x < newVersionId m y := by
  rw [newVersionId, newVersionId, String.lt_iff_toList_lt, String.toList_ofList, String.toList_ofList]
  exact append_lt_append ((length_decimals _ _).trans (length_decimals _ _).symm) (decimals_lt hm h) _ _

/-! ## Rings -/

/-- The content of the file at a path. -/
def fileAt (t : Tree) (q : Path) : Option Bytes :=
  match t.lookup q with
  | some (.file data) => some data
  | _ => none

/-- `_ring_members`: the names of the child files that have the format of a version id, sorted. -/
def ringMembers (t : Tree) (p : Path) : List String :=
  ((t.keys.filter fun q => q ≠ [] ∧ q.dropLast = p ∧ isVersionRingMember (q.getLastD "") ∧ (fileAt t q).isSome).map
    (·.getLastD "")).insertionSort (· ≤ ·)

/-- The versions of a ring, the oldest first. -/
def ring (t : Tree) (p : Path) : List (String × Bytes) :=
  (ringMembers t p).filterMap fun name => (fileAt t (p ++ [name])).map (name, ·)

variable {t t' : Tree} {p q : Path} {name : String} {data : Bytes}

theorem fileAt_eq_some : fileAt t q = some data ↔ t.lookup q = some (.file data) := by
  unfold fileAt
  split
  · next d h => rw [h, Option.some.injEq, Option.some.injEq, Node.file.injEq]
  · next h => exact ⟨nofun, fun hq => absurd hq (h data)⟩

theorem mem_ringMembers : name ∈ ringMembers t p ↔
    isVersionRingMember name = true ∧ ∃ data, fileAt t (p ++ [name]) = some data := by
  simp only [ringMembers, List.mem_insertionSort, List.mem_map, List.mem_filter, decide_eq_true_eq]
  constructor
  · rintro ⟨q, ⟨-, hne, hp, hmem, hsome⟩, rfl⟩
    have hq : p ++ [q.getLastD ""] = q := by
      rw [← hp, List.getLastD_eq_getLast?, List.getLast?_eq_some_getLast hne, Option.getD_some, List.dropLast_append_getLast]
    rw [hq]
    exact ⟨hmem, Option.isSome_iff_exists.mp hsome⟩
  · rintro ⟨hmem, data, hfile⟩
    have hlast : (p ++ [name]).getLastD "" = name := by rw [List.getLastD_eq_getLast?, List.getLast?_concat, Option.getD_some]
    refine ⟨p ++ [name], ⟨?_, by simp, List.dropLast_concat, hlast.symm ▸ hmem, Option.isSome_iff_exists.mpr ⟨data, hfile⟩⟩, hlast⟩
    have hlook := fileAt_eq_some.mp hfile
    exact AList.mem_keys.mp (AList.lookup_isSome.mp (by rw [hlook]; rfl))

theorem sorted_ringMembers (t : Tree) (p : Path) : (ringMembers t p).Pairwise (· < ·) := by
  have hnodup : (ringMembers t p).Nodup := by
    rw [ringMembers, (List.perm_insertionSort _ _).nodup_iff]
    refine List.Nodup.map_on (fun q hq r hr h => ?_) (t.keys_nodup.filter _)
    simp only [List.mem_filter, decide_eq_true_eq, List.getLastD_eq_getLast?] at hq hr h
    obtain ⟨-, hq0, hqp, -⟩ := hq
    obtain ⟨-, hr0, hrp, -⟩ := hr
    rw [List.getLast?_eq_some_getLast hq0, List.getLast?_eq_some_getLast hr0, Option.getD_some, Option.getD_some] at h
    rw [← List.dropLast_append_getLast hq0, ← List.dropLast_append_getLast hr0, hqp, hrp, h]
  have hle : (ringMembers t p).Pairwise (· ≤ ·) := List.pairwise_insertionSort (· ≤ ·) _
  exact (hle.and hnodup).imp fun h => lt_of_le_of_ne h.1 h.2

theorem mem_ring : (name, data) ∈ ring t p ↔ isVersionRingMember name = true ∧ fileAt t (p ++ [name]) = some data := by
  simp only [ring, List.mem_filterMap, mem_ringMembers, Option.map_eq_some_iff, Prod.mk.injEq]
  constructor
  · rintro ⟨n, ⟨hmem, -⟩, d, hd, rfl, rfl⟩
    exact ⟨hmem, hd⟩
  · rintro ⟨hmem, hd⟩
    exact ⟨name, ⟨hmem, data, hd⟩, data, hd, rfl, rfl⟩

theorem map_fst_ring : (ring t p).map Prod.fst = ringMembers t p := by
  have hall : ∀ names : List String, (∀ n ∈ names, n ∈ ringMembers t p) →
      (names.filterMap fun n => (fileAt t (p ++ [n])).map (n, ·)).map Prod.fst = names := by
    intro names
    induction names with
    | nil => exact fun _ => rfl
    | cons n names ih =>
      intro h
      obtain ⟨-, d, hd⟩ := mem_ringMembers.mp (h n List.mem_cons_self)
      rw [List.filterMap_cons, hd, Option.map_some, List.map_cons, ih fun m hm => h m (List.mem_cons_of_mem _ hm)]
  exact hall _ fun _ h => h

/-- **A ring is what its members and their order say.** -/
theorem ring_eq {l : List (String × Bytes)} (hsorted : (l.map Prod.fst).Pairwise (· < ·))
    (hmem : ∀ n d, (n, d) ∈ l ↔ isVersionRingMember n = true ∧ fileAt t (p ++ [n]) = some d) : ring t p = l := by
  have hpairs : ∀ {l : List (String × Bytes)}, (l.map Prod.fst).Pairwise (· < ·) → l.Pairwise fun x y => x.1 < y.1 :=
    fun h => List.pairwise_map.mp h
  have hring := hpairs (map_fst_ring ▸ sorted_ringMembers t p)
  have hl := hpairs hsorted
  have hnodup : ∀ {l : List (String × Bytes)}, (l.Pairwise fun x y => x.1 < y.1) → l.Nodup :=
    fun h => h.imp fun hlt he => absurd (he ▸ hlt) (lt_irrefl _)
  have hperm : (ring t p).Perm l := by
    refine (List.perm_ext_iff_of_nodup (hnodup hring) (hnodup hl)).mpr ?_
    rintro ⟨n, d⟩
    rw [mem_ring, hmem]
  exact hperm.eq_of_pairwise (fun _ _ _ _ h h' => absurd (h.trans h') (lt_irrefl _)) hring hl

/-- The ring of a path looks only at the files that have the format of its versions. -/
theorem ring_congr (h : ∀ n, isVersionRingMember n = true → fileAt t' (p ++ [n]) = fileAt t (p ++ [n])) :
    ring t' p = ring t p := by
  refine ring_eq (map_fst_ring ▸ sorted_ringMembers t p) fun n d => ?_
  rw [mem_ring]
  constructor
  · rintro ⟨hmem, hd⟩
    exact ⟨hmem, (h n hmem).trans hd⟩
  · rintro ⟨hmem, hd⟩
    exact ⟨hmem, (h n hmem).symm.trans hd⟩

/-! ## Captures -/

/-- `_prune_versions`: the oldest versions over the retention. -/
def pruneVersions (retention : ℕ) (p : Path) (t : Tree) : List TreeOp :=
  ((ringMembers t p).take ((ringMembers t p).length - retention)).map fun name => .discard (p ++ [name])

/-- `_capture_version` of a file that holds `data`; a copy that fails unlinks its temp sibling. -/
def captureVersion (retention : ℕ) (p : Path) (versionId salt : String) (data : Bytes) (t : Tree) :
    Tree × Except Errno Unit :=
  match attempt TreeOp.run (mkdirParents p) t with
  | (t, .error e) => (t, .error e)
  | (t, .ok _) =>
    match attempt TreeOp.run (atomicWrite (p ++ [versionId]) data salt) t with
    | (t, .error e) => ((attempt TreeOp.run [.discard (tempSibling (p ++ [versionId]) salt)] t).1, .error e)
    | (t, .ok _) => attempt TreeOp.run (pruneVersions retention p t) t

theorem fileAt_congr (h : t'.lookup q = t.lookup q) : fileAt t' q = fileAt t q := by
  rw [fileAt, fileAt, h]

/-- No version has the name of a temp sibling. -/
theorem not_member_temp {s salt : String} {r : Path} (hmem : isVersionRingMember name = true) :
    p ++ [name] ≠ tempSibling (r ++ [s]) salt := by
  intro he
  have hname : name = "." ++ s ++ "." ++ salt ++ ".tmp" := by
    rw [tempSibling, List.getLast?_concat, Option.getD_some] at he
    exact List.cons.inj (List.append_inj' he rfl).2 |>.1
  have hdot : name.toList.take 1 = ['.'] := by
    rw [hname, String.append_assoc, String.append_assoc, String.append_assoc, String.toList_append]
    rfl
  have hhead : (name.toList.take 1).all isDecimal = true := by
    simp only [isVersionRingMember, Bool.and_eq_true] at hmem
    have hall := List.all_eq_true.mp hmem.1.1.2
    exact List.all_eq_true.mpr fun c hc => hall c (List.take_subset_take_left _ (by decide) hc)
  rw [hdot] at hhead
  exact absurd hhead (by decide)

/-- The making of directories changes no file. -/
theorem fileAt_mkdirParents (h : t.Shaped) : (attempt TreeOp.run (mkdirParents p) t).1.Shaped ∧
    ∀ q, fileAt (attempt TreeOp.run (mkdirParents p) t).1 q = fileAt t q := by
  refine attempt_invariant TreeOp.run (I := fun u => u.Shaped ∧ ∀ q, fileAt u q = fileAt t q) ⟨h, fun _ => rfl⟩ ?_
  rintro op hop u u' ⟨hu, hfiles⟩ hrun
  obtain ⟨r, rfl, hr, -⟩ := ne_nil_of_mem_mkdirParents hop
  rcases run_mkdir hrun hr with rfl | ⟨rfl, hnone, hparent, hname⟩
  · exact ⟨hu, hfiles⟩
  · refine ⟨hu.insert hr hparent hname (by rw [hnone]; nofun), fun q => ?_⟩
    rw [← hfiles q]
    rcases eq_or_ne q r with rfl | hne
    · rw [fileAt, fileAt, AList.lookup_insert, hnone]
    · exact fileAt_congr (AList.lookup_insert_ne hne)

/-- Nor does it make a temp sibling of a file in the directory. -/
theorem mkdirParents_temp {salt : String} {t1 : Tree} {r : Except Errno Unit} (hfree : t.lookup (tempSibling (p ++ [name]) salt) = none)
    (hmk : attempt TreeOp.run (mkdirParents p) t = (t1, r)) : t1.lookup (tempSibling (p ++ [name]) salt) = none := by
  have hkeep : (attempt TreeOp.run (mkdirParents p) t).1.lookup (tempSibling (p ++ [name]) salt) = none := by
    refine attempt_invariant TreeOp.run (I := fun u => u.lookup (tempSibling (p ++ [name]) salt) = none) hfree ?_
    intro op hop u u' hu hrun
    rwa [op.run_lookup hrun fun htouch => ?_]
    have hle := (mkdirParents_touches hop htouch).1.length_le
    rw [tempSibling_length (by simp), List.length_append, List.length_singleton] at hle
    omega
  rwa [hmk] at hkeep

theorem run_remove_file (h : t.Shaped) (hq : fileAt t q = some data) : TreeOp.run (.remove q) t = .ok (t.erase q) := by
  have hlook := fileAt_eq_some.mp hq
  have hne := h.ne_root hlook
  have hstat := h.stat_of_lookup hlook
  have hshort : q.dropLast ≠ q := by
    intro he
    have := congrArg List.length he
    rw [List.length_dropLast] at this
    have := List.length_pos_iff.mpr hne
    omega
  have hentry := entry_of_stat (stat_above hstat (List.dropLast_prefix q) hshort) fun part hpart =>
    names_of_stat hstat part (List.mem_of_getLast? hpart)
  rw [node_of_ne hne, hlook] at hentry
  simp only [TreeOp.run, TreeOp.runRemove, hentry]

theorem run_discard_file (h : t.Shaped) (hq : fileAt t q = some data) : TreeOp.run (.discard q) t = .ok (t.erase q) := by
  have hrm : TreeOp.runRemove q t = .ok (t.erase q) := run_remove_file h hq
  simp only [TreeOp.run, hrm]

theorem erase_file (h : t.Shaped) (hq : fileAt t q = some data) : Tree.Shaped (t.erase q) :=
  h.erase (by rw [fileAt_eq_some.mp hq]; nofun)

/-- Only the temp sibling of a write that is under way differs, and it is no directory. -/
structure Begun (t : Tree) (p : Path) (salt : String) (u : Tree) : Prop where
  shaped : u.Shaped
  temp : u.lookup (tempSibling p salt) ≠ some .dir
  files : ∀ q, q ≠ tempSibling p salt → fileAt u q = fileAt t q

variable {salt : String} {u : Tree}

theorem Begun.insert (h : Begun t p salt u) (hparent : u.stat (tempSibling p salt).dropLast = .ok .dir)
    (hname : ∀ part ∈ (tempSibling p salt).getLast?, isOverlong part = false) (data : Bytes) :
    Begun t p salt (u.insert (tempSibling p salt) (.file data)) where
  shaped := h.shaped.insert tempSibling_ne_nil hparent hname h.temp
  temp := by
    rw [AList.lookup_insert]
    nofun
  files := fun q hq => (fileAt_congr (AList.lookup_insert_ne hq)).trans (h.files q hq)

/-- Unlinking the temp sibling. -/
theorem Begun.discard (h : Begun t p salt u) :
    Begun t p salt (attempt TreeOp.run [.discard (tempSibling p salt)] u).1 := by
  refine attempt_invariant TreeOp.run (I := Begun t p salt) h fun op hop v v' hv hrun => ?_
  obtain rfl := List.mem_singleton.mp hop
  simp only [TreeOp.run] at hrun
  split at hrun
  · next hremove =>
    cases hrun
    rw [runRemove_eq_ok hremove]
    refine ⟨hv.shaped.erase hv.temp, ?_, fun q hq => ?_⟩
    · rw [AList.lookup_erase]
      exact fun h => by cases h
    · exact (fileAt_congr (AList.lookup_erase_ne hq)).trans (hv.files q hq)
  · cases hrun
    exact hv

/-- What a write that fails has done. -/
theorem begun_of_error {e : Errno} (h : t.Shaped) (hfree : t.lookup (tempSibling p salt) = none)
    (he : perform TreeOp.run (atomicWrite p data salt) t = .error e) :
    Begun t p salt (runAll TreeOp.run (atomicWrite p data salt) t).1 := by
  have hnone : Begun t p salt t := ⟨h, by rw [hfree]; nofun, fun _ _ => rfl⟩
  rw [atomicWrite] at he ⊢
  cases h1 : TreeOp.run (.create (tempSibling p salt)) t with
  | error _ =>
    rw [runAll_cons_error _ h1]
    exact hnone
  | ok t1 =>
    rw [runAll_cons_ok _ h1]
    have hcreated : Begun t p salt t1 := by
      simp only [TreeOp.run] at h1
      split at h1 <;> cases h1
      next hentry =>
      obtain ⟨hparent, hname, -⟩ := entry_spec hentry
      exact hnone.insert hparent hname []
    cases h2 : TreeOp.run (.fill (tempSibling p salt) data) t1 with
    | error _ =>
      rw [runAll_cons_error _ h2]
      exact hcreated
    | ok t2 =>
      rw [runAll_cons_ok _ h2]
      have hfilled : Begun t p salt t2 := by
        simp only [TreeOp.run] at h2
        split at h2 <;> cases h2
        next hentry =>
        obtain ⟨hparent, hname, -⟩ := entry_spec hentry
        exact hcreated.insert hparent hname data
      cases h3 : TreeOp.run (.rename (tempSibling p salt) p) t2 with
      | error _ =>
        rw [runAll_cons_error _ h3]
        exact hfilled
      | ok t3 =>
        simp only [perform, h1, h2, h3, Except.bind] at he
        cases he

/-! ### The prune -/

/-- Unlinking versions takes exactly their files. -/
theorem perform_discards {names : List String} (h : t.Shaped) (hnodup : names.Nodup)
    (hfiles : ∀ n ∈ names, (fileAt t (p ++ [n])).isSome) :
    ∃ t', perform TreeOp.run (names.map fun n => .discard (p ++ [n])) t = .ok t' ∧ t'.Shaped ∧
      ∀ q, fileAt t' q = if ∃ n ∈ names, q = p ++ [n] then none else fileAt t q := by
  induction names generalizing t with
  | nil => exact ⟨t, rfl, h, fun q => by simp⟩
  | cons n names ih =>
    obtain ⟨hn, hnodup⟩ := List.nodup_cons.mp hnodup
    obtain ⟨data, hdata⟩ := Option.isSome_iff_exists.mp (hfiles n List.mem_cons_self)
    have hrest : ∀ m ∈ names, (fileAt (t.erase (p ++ [n])) (p ++ [m])).isSome := by
      intro m hm
      have hne : p ++ [m] ≠ p ++ [n] := by
        intro he
        exact hn ((List.cons.inj (List.append_cancel_left he)).1 ▸ hm)
      rw [fileAt_congr (AList.lookup_erase_ne hne)]
      exact hfiles m (List.mem_cons_of_mem _ hm)
    obtain ⟨t', ht', hshaped, hlook⟩ := ih (erase_file h hdata) hnodup hrest
    refine ⟨t', ?_, hshaped, fun q => ?_⟩
    · rw [List.map_cons, perform, run_discard_file h hdata]
      exact ht'
    · rw [hlook]
      rcases eq_or_ne q (p ++ [n]) with rfl | hne
      · have hgone : fileAt (t.erase (p ++ [n])) (p ++ [n]) = none := by rw [fileAt, AList.lookup_erase]
        have hhere : ∃ m ∈ n :: names, p ++ [n] = p ++ [m] := ⟨n, List.mem_cons_self, rfl⟩
        rw [hgone, ite_self, if_pos hhere]
      · rw [fileAt_congr (AList.lookup_erase_ne hne)]
        refine if_congr ⟨?_, ?_⟩ rfl rfl
        · rintro ⟨m, hm, he⟩
          exact ⟨m, List.mem_cons_of_mem _ hm, he⟩
        · rintro ⟨m, hm, he⟩
          rcases List.mem_cons.mp hm with rfl | hm
          · exact absurd he hne
          · exact ⟨m, hm, he⟩

/-- The prune drops the oldest versions of its ring and touches no other. -/
theorem ring_pruneVersions {retention : ℕ} (h : t.Shaped) : ∃ t',
    perform TreeOp.run (pruneVersions retention p t) t = .ok t' ∧ t'.Shaped ∧ ring t' p = (ring t p).rtake retention ∧
      ∀ q, q ≠ p → ring t' q = ring t q := by
  have hnodup : (ringMembers t p).Nodup := (sorted_ringMembers t p).imp fun hlt he => absurd (he ▸ hlt) (lt_irrefl _)
  obtain ⟨t', ht', hshaped, hfiles⟩ := perform_discards (p := p) h
    (hnodup.sublist (List.take_sublist ((ringMembers t p).length - retention) _)) fun n hn => by
      obtain ⟨-, d, hd⟩ := mem_ringMembers.mp (List.mem_of_mem_take hn)
      rw [hd]
      rfl
  refine ⟨t', ht', hshaped, ?_, fun q hq => ring_congr fun n _ => ?_⟩
  · have hsorted := sorted_ringMembers t p
    rw [← map_fst_ring] at hsorted hfiles
    rw [List.rtake]
    refine ring_eq ?_ fun n d => ?_
    · rw [List.map_drop]
      exact hsorted.drop
    rw [hfiles]
    set excess := (ring t p).length - retention with hexcess
    rw [List.length_map, ← hexcess]
    constructor
    · intro hmem
      obtain ⟨hname, hd⟩ := mem_ring.mp (List.mem_of_mem_drop hmem)
      refine ⟨hname, ?_⟩
      rw [if_neg, hd]
      rintro ⟨m, hm, he⟩
      obtain rfl : n = m := (List.cons.inj (List.append_cancel_left he)).1
      have hn := List.mem_map_of_mem (f := Prod.fst) hmem
      rw [List.map_drop] at hn
      rw [← List.take_append_drop excess ((ring t p).map Prod.fst), List.pairwise_append] at hsorted
      exact absurd (hsorted.2.2 n hm n hn) (lt_irrefl _)
    · rintro ⟨hname, hd⟩
      split_ifs at hd with hgone
      have hmem := mem_ring.mpr ⟨hname, hd⟩
      rw [← List.take_append_drop excess (ring t p)] at hmem
      refine (List.mem_append.mp hmem).resolve_left fun htake => hgone ⟨n, ?_, rfl⟩
      rw [← List.map_take]
      exact List.mem_map_of_mem htake
  · rw [hfiles, if_neg]
    rintro ⟨m, -, he⟩
    exact hq (List.append_inj_left' he rfl)

/-! ### Captures -/

theorem Begun.ring (h : Begun t (q ++ [name]) salt u) (p : Path) : ring u p = ring t p :=
  ring_congr fun n hn => h.files (p ++ [n]) (not_member_temp hn)

/-- A file with a later name than all of the ring is its newest version. -/
theorem ring_insert (hmem : isVersionRingMember name = true) (hlater : ∀ n ∈ ringMembers t p, n < name)
    (hlook : ∀ q, t'.lookup q = (t.insert (p ++ [name]) (.file data)).lookup q) :
    ring t' p = ring t p ++ [(name, data)] ∧ ∀ q, q ≠ p → ring t' q = ring t q := by
  have hne : ∀ q n, (n ≠ name ∨ q ≠ p) → fileAt t' (q ++ [n]) = fileAt t (q ++ [n]) := by
    intro q n hor
    rw [fileAt_congr (hlook _)]
    refine fileAt_congr (AList.lookup_insert_ne fun he => ?_)
    obtain ⟨rfl, hn⟩ := List.append_inj' he rfl
    exact hor.elim (· (List.cons.inj hn).1) (· rfl)
  have hnew : fileAt t' (p ++ [name]) = some data := by
    rw [fileAt_congr (hlook _), fileAt, AList.lookup_insert]
  refine ⟨ring_eq ?_ fun n d => ?_, fun q hq => ring_congr fun n _ => hne q n (.inr hq)⟩
  · rw [List.map_append, map_fst_ring, List.pairwise_append]
    refine ⟨sorted_ringMembers t p, List.pairwise_singleton _ _, fun n hn m hm => ?_⟩
    rw [List.mem_singleton.mp hm]
    exact hlater n hn
  · rw [List.mem_append, List.mem_singleton, mem_ring, Prod.mk.injEq]
    rcases eq_or_ne n name with rfl | hn
    · have hold : fileAt t (p ++ [n]) = none := by
        cases hd : fileAt t (p ++ [n]) with
        | none => rfl
        | some d => exact absurd (hlater n (mem_ringMembers.mpr ⟨hmem, d, hd⟩)) (lt_irrefl _)
      rw [hold, hnew, Option.some.injEq]
      constructor
      · rintro (⟨-, hd⟩ | ⟨-, rfl⟩)
        · cases hd
        · exact ⟨hmem, rfl⟩
      · rintro ⟨-, rfl⟩
        exact .inr ⟨rfl, rfl⟩
    · rw [hne p n (.inl hn)]
      constructor
      · exact fun hor => hor.resolve_right fun h => hn h.1
      · exact .inl

/-- **What a capture leaves in the rings.** -/
theorem ring_captureVersion {retention : ℕ} (h : t.Shaped) (hmem : isVersionRingMember name = true)
    (hlater : ∀ n ∈ ringMembers t p, n < name) (hfree : t.lookup (tempSibling (p ++ [name]) salt) = none)
    {r : Except Errno Unit} (hr : captureVersion retention p name salt data t = (t', r)) :
    t'.Shaped ∧ (∀ q, q ≠ p → ring t' q = ring t q) ∧
      ring t' p = if r.isOk then (ring t p ++ [(name, data)]).rtake retention else ring t p := by
  obtain ⟨hshaped, hfiles⟩ := fileAt_mkdirParents (p := p) h
  unfold captureVersion at hr
  cases hmk : attempt TreeOp.run (mkdirParents p) t with
  | mk t1 r1 =>
    rw [hmk] at hshaped hfiles
    have hring : ∀ q, ring t1 q = ring t q := fun q => ring_congr fun n _ => hfiles (q ++ [n])
    cases r1 with
    | error e =>
      simp only [hmk] at hr
      cases hr
      exact ⟨hshaped, fun q _ => hring q, hring p⟩
    | ok _ =>
      simp only [hmk] at hr
      cases hw : attempt TreeOp.run (atomicWrite (p ++ [name]) data salt) t1 with
      | mk t2 r2 =>
        cases r2 with
        | error e =>
          simp only [hw] at hr
          cases hr
          obtain ⟨herr, rfl⟩ := attempt_error TreeOp.run hw
          have hbegun := (begun_of_error hshaped (mkdirParents_temp hfree hmk) herr).discard
          exact ⟨hbegun.shaped, fun q _ => (hbegun.ring q).trans (hring q), (hbegun.ring p).trans (hring p)⟩
        | ok _ =>
          simp only [hw] at hr
          obtain ⟨hshaped2, -, hlook⟩ := atomicWrite_spec hshaped (by simp) (attempt_ok TreeOp.run hw)
          have hlater1 : ∀ n ∈ ringMembers t1 p, n < name := by
            rw [← map_fst_ring, hring p, map_fst_ring]
            exact hlater
          obtain ⟨hhere, hothers⟩ := ring_insert hmem hlater1 hlook
          obtain ⟨t3, ht3, hshaped3, hpruned, hkept⟩ := @ring_pruneVersions t2 p retention hshaped2
          rw [attempt_of_ok TreeOp.run ht3] at hr
          cases hr
          refine ⟨hshaped3, fun q hq => ((hkept q hq).trans (hothers q hq)).trans (hring q), ?_⟩
          rw [hpruned, hhere, hring p]
          rfl

/-- The names in a ring are short. -/
theorem utf8ByteSize_member (hmem : isVersionRingMember name = true) : name.utf8ByteSize ≤ 116 := by
  have hbytes : ∀ cs : List Char, (String.ofList cs).utf8ByteSize ≤ 4 * cs.length := by
    intro cs
    induction cs with
    | nil => exact le_rfl
    | cons c cs ih =>
      rw [← List.singleton_append, String.ofList_append, String.utf8ByteSize_append, List.singleton_append, List.length_cons]
      have hc := c.utf8Size_le_four
      have hone : (String.ofList [c]).utf8ByteSize = c.utf8Size := by simp
      omega
  have hlen : name.toList.length = 29 := by
    simp only [isVersionRingMember, Bool.and_eq_true, decide_eq_true_eq] at hmem
    exact hmem.1.1.1
  have hle := hbytes name.toList
  rw [String.ofList_toList, hlen] at hle
  exact hle

/-- **When a capture succeeds**: the ring is there, and holds no other ring under the new name. -/
theorem captureVersion_ok {retention : ℕ} (h : t.Shaped) (hdir : t.stat p = .ok .dir) (hmem : isVersionRingMember name = true)
    (hold : t.lookup (p ++ [name]) ≠ some .dir) (hsalt : salt.utf8ByteSize = 8)
    (hfree : t.lookup (tempSibling (p ++ [name]) salt) = none) : (captureVersion retention p name salt data t).2 = .ok () := by
  have hshort := utf8ByteSize_member hmem
  have hname : ∀ part ∈ (p ++ [name]).getLast?, isOverlong part = false := by
    intro part hpart
    rw [List.getLast?_concat, Option.mem_some] at hpart
    rw [← hpart, isOverlong, decide_eq_false_iff_not, not_lt, nameMax]
    omega
  have htemp : ∀ part ∈ (tempSibling (p ++ [name]) salt).getLast?, isOverlong part = false := by
    intro part hpart
    rw [tempSibling, List.getLast?_concat, List.getLast?_concat, Option.mem_some, Option.getD_some] at hpart
    rw [← hpart, isOverlong, decide_eq_false_iff_not, not_lt, nameMax]
    have h1 : ".".utf8ByteSize = 1 := rfl
    have h2 : ".tmp".utf8ByteSize = 4 := rfl
    simp only [String.utf8ByteSize_append]
    omega
  obtain ⟨t2, ht2⟩ : ∃ t2, perform TreeOp.run (atomicWrite (p ++ [name]) data salt) t = .ok t2 :=
    atomicWrite_ok (by simp) (by rwa [List.dropLast_concat]) hname htemp hfree hold
  obtain ⟨hshaped, -, -⟩ := atomicWrite_spec h (by simp) ht2
  obtain ⟨t3, ht3, -⟩ := @ring_pruneVersions t2 p retention hshaped
  simp only [captureVersion, attempt_of_ok TreeOp.run (mkdirParents_here hdir), attempt_of_ok TreeOp.run ht2,
    attempt_of_ok TreeOp.run ht3]

end McServerDashboard.Fs
