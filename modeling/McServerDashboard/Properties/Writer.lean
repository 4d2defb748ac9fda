import McServerDashboard.Properties.Escapes

/-!
# How the API rewrites `server.properties`

* `setProperty`, `rewrite`: one key set, and keys set and removed in one pass; `applyOverrides`.
* `applyPlatformProperties`: the platform's half of the file.
* `spliced`, `edited`: a file some of whose properties are replaced or dropped, and its logical lines.
* **`foldl_step`**: the loop of `_rewrite`.
-/

namespace McServerDashboard.Properties

open Lib Lib.Properties

/-- `_normalize`. -/
def normalize (content : Bytes) : Bytes := if [lf] <:+ content then content else content ++ [lf]

/-- `content[i:j]`. -/
def slice (content : Bytes) (i j : ℕ) : Bytes := (content.take j).drop i

/-! ## One key -/

/-- The loop of `_set_property`, and the rest of the file. -/
def setLoop (content line : Bytes) : ℕ → ℕ → List Property → Bytes
  | _, cursor, [] => content.drop cursor
  | index, cursor, p :: ps =>
    slice content cursor p.start ++ (if index = 0 then line ++ [lf] else []) ++ setLoop content line (index + 1) p.stop ps

/-- `_set_property`. -/
def setProperty (content : Bytes) (key value : Str) : Bytes :=
  let found := (parse content).filter (·.key = key)
  if found = [] then
    let content := if content ≠ [] ∧ ¬[lf] <:+ content then content ++ [lf] else content
    content ++ newLine key value ++ [lf]
  else normalize (setLoop content (newLine key value) 0 0 found)

/-- A `dict[str, str]`, in its order. -/
structure Dict where
  items : List (Str × Str)
  nodup : (items.map (·.1)).Nodup

/-- `apply_overrides`. -/
def applyOverrides (content : Bytes) (overrides : Dict) : Bytes :=
  normalize (overrides.items.foldl (fun content kv => setProperty content kv.1 kv.2) content)

/-! ## Keys in one pass -/

/-- `_ends_in_dangling_continuation`. -/
def endsInDanglingContinuation (content : Bytes) (props : List Property) : Bool :=
  match props.getLast? with
  | none => false
  | some p =>
    if p.stop ≠ content.length then false
    else
      let tail := if [cr, lf] <:+ content then content.dropLast.dropLast
        else if [lf] <:+ content ∨ [cr] <:+ content then content.dropLast else content
      endsWithOddBackslash ((tail.rtakeWhile (!isEol ·)).dropWhile isBlank)

/-- `_continuation_end`. -/
def continuationEnd (content : Bytes) (p : Property) : Bytes :=
  if (lines (slice content p.start p.stop)).all fun l => l.text.dropWhile isBlank = [backslash] then [61, lf] else [lf]

/-- The variables of the loop of `_rewrite`. -/
structure Splice where
  out : Bytes
  cursor : ℕ
  written : List Str

/-- One round of the loop of `_rewrite`. -/
def Splice.step (content : Bytes) (values : List (Str × Str)) (cleared : List Str) (s : Splice) (p : Property) : Splice :=
  match values.lookup p.key with
  | some value =>
    let out := s.out ++ slice content s.cursor p.start
    if p.key ∈ s.written then ⟨out, p.stop, s.written⟩
    else ⟨out ++ newLine p.key value ++ [lf], p.stop, p.key :: s.written⟩
  | none => if p.key ∈ cleared then ⟨s.out ++ slice content s.cursor p.start, p.stop, s.written⟩ else s

/-- `_rewrite`. -/
def rewrite (content : Bytes) (props : List Property) (values : List (Str × Str)) (cleared : List Str) : Bytes :=
  let s := props.foldl (Splice.step content values cleared) ⟨[], 0, []⟩
  let out := s.out ++ content.drop s.cursor
  let appended := values.filter (·.1 ∉ s.written)
  if appended = [] then out
  else
    let out := if out ≠ [] ∧ ¬[lf] <:+ out then out ++ [lf] else out
    let out := if s.cursor < content.length ∧ endsInDanglingContinuation content props then
      out ++ (props.getLast?.map (continuationEnd content)).getD [] else out
    out ++ appended.flatMap fun kv => newLine kv.1 kv.2 ++ [lf]

/-! ## The platform's keys -/

def portKey : Str := str "server-port"
def enableRconKey : Str := str "enable-rcon"
def rconPortKey : Str := str "rcon.port"
def rconPasswordKey : Str := str "rcon.password"
def resourcePackKey : Str := str "resource-pack"
def resourcePackSha1Key : Str := str "resource-pack-sha1"
def requireResourcePackKey : Str := str "require-resource-pack"
def resourcePackPromptKey : Str := str "resource-pack-prompt"

def rconPort : ℕ := 25575

/-- `PLATFORM_MANAGED_KEYS`. -/
def platformManagedKeys : List Str := [portKey, enableRconKey, rconPortKey, rconPasswordKey, resourcePackKey,
  resourcePackSha1Key, requireResourcePackKey, resourcePackPromptKey]

/-- `_RESOURCE_PACK_KEYS`. -/
def resourcePackKeys : List Str :=
  [resourcePackKey, resourcePackSha1Key, requireResourcePackKey, resourcePackPromptKey]

/-- `ResourcePackProperties`. -/
structure ResourcePackProperties where
  url : Str
  sha1 : Str
  require : Bool
  prompt : Option Str

/-- The `values` of `apply_platform_properties`. -/
def platformValues (props : List Property) (gamePort : Option ℤ) (rconPassword : Str)
    (resourcePack : Option ResourcePackProperties) : List (Str × Str) :=
  let passwords := (props.filter (·.key = rconPasswordKey)).map (·.value)
  (gamePort.map fun port => (portKey, str (toString port))).toList ++
    [(enableRconKey, str "true"), (rconPortKey, str (toString rconPort))] ++
    (if (passwords.getLast?.any (· ≠ [])) then [] else [(rconPasswordKey, rconPassword)]) ++
    (match resourcePack with
    | none => []
    | some pack => [(resourcePackKey, pack.url), (resourcePackSha1Key, pack.sha1),
        (requireResourcePackKey, str (if pack.require then "true" else "false"))] ++
      (pack.prompt.map fun prompt => (resourcePackPromptKey, prompt)).toList)

/-- The `cleared` of `apply_platform_properties`. -/
def platformCleared (resourcePack : Option ResourcePackProperties) : List Str :=
  match resourcePack with
  | none => resourcePackKeys
  | some pack => if pack.prompt = none then [resourcePackPromptKey] else []

/-- `apply_platform_properties`. -/
def applyPlatformProperties (content : Bytes) (gamePort : Option ℤ) (rconPassword : Str)
    (resourcePack : Option ResourcePackProperties) : Bytes :=
  let props := parse content
  normalize (rewrite content props (platformValues props gamePort rconPassword resourcePack)
    (platformCleared resourcePack))

/-! ## Files some of whose properties are replaced or dropped -/

/-- What becomes of a property. -/
inductive Edit
  | keep
  | drop
  | write (key value : Str)

/-- The text that a property leaves. -/
def Edit.text (taken : List Line) : Edit → Bytes
  | .keep => bytes taken
  | .drop => []
  | .write key value => newLine key value ++ [lf]

/-- The logical line that a property leaves. -/
def Edit.found (t : Bytes) : Edit → List Bytes
  | .keep => [t]
  | .drop => []
  | .write key value => [newLine key value]

/-- The file, edited. -/
def spliced : List (List Line × Option Bytes) → List Edit → Bytes
  | (taken, none) :: bs, es => bytes taken ++ spliced bs es
  | (taken, some _) :: bs, e :: es => e.text taken ++ spliced bs es
  | _, _ => []

/-- The logical lines, edited. -/
def edited : List Bytes → List Edit → List Bytes
  | t :: ts, e :: es => e.found t ++ edited ts es
  | _, _ => []

/-- The end of the file stays. -/
def kept : List (List Line × Option Bytes) → List Edit → Prop
  | [], _ => False
  | [(_, none)], _ => True
  | [(_, some _)], es => es.head? = some .keep
  | (_, none) :: bs, es => kept bs es
  | (_, some _) :: bs, es => kept bs es.tail

/-- What `_rewrite` does to each property, by its key. -/
def edits (values : List (Str × Str)) (cleared : List Str) : List Str → List Str → List Edit
  | _, [] => []
  | written, key :: keys =>
    match values.lookup key with
    | some value =>
      if key ∈ written then .drop :: edits values cleared written keys
      else .write key value :: edits values cleared (key :: written) keys
    | none => (if key ∈ cleared then .drop else .keep) :: edits values cleared written keys

variable {content w : Bytes} {key value : Str} {values : List (Str × Str)} {cleared written keys : List Str}
  {bs init : List (List Line × Option Bytes)} {b : List Line × Option Bytes} {es : List Edit}

theorem length_edits : (edits values cleared written keys).length = keys.length := by
  induction keys generalizing written with
  | nil => rfl
  | cons key keys ih =>
    simp only [edits]
    split
    · split_ifs <;> simp [ih]
    · simp [ih]

/-! ### The two loops -/

/-- The loop of `_set_property` is that of `_rewrite` for one key. -/
theorem setLoop_eq (ps : List Property) (s : Splice) (i : ℕ) (hi : i = 0 ↔ key ∉ s.written) :
    s.out ++ setLoop content (newLine key value) i s.cursor (ps.filter (·.key = key)) =
      (ps.foldl (Splice.step content [(key, value)] []) s).out ++
        content.drop (ps.foldl (Splice.step content [(key, value)] []) s).cursor := by
  induction ps generalizing s i with
  | nil => rfl
  | cons p ps ih =>
    rw [List.foldl_cons]
    by_cases hp : p.key = key
    · rw [List.filter_cons_of_pos (by simpa using hp), ← ih _ (i + 1)]
      · simp only [setLoop, Splice.step, List.lookup_singleton, hp, beq_self_eq_true, if_true]
        by_cases hw : key ∈ s.written
        · have hi : i ≠ 0 := fun h => hi.mp h hw
          simp [hw, hi]
        · have hi : i = 0 := hi.mpr hw
          simp [hw, hi]
      · simp only [Splice.step, List.lookup_singleton, hp, beq_self_eq_true, if_true]
        by_cases hw : key ∈ s.written <;> simp [hw]
    · rw [List.filter_cons_of_neg (by simpa using hp), ← ih _ i]
      · simp [Splice.step, hp]
      · simpa [Splice.step, List.lookup_singleton, hp] using hi

theorem slice_append {i j k : ℕ} (hij : i ≤ j) (hjk : j ≤ k) :
    slice content i j ++ slice content j k = slice content i k := by
  have hdrop : content.drop j = (content.drop i).drop (j - i) := by
    rw [List.drop_drop, Nat.add_sub_cancel' hij]
  simp only [slice, List.drop_take]
  rw [hdrop, ← List.take_add]
  congr 1
  omega

theorem slice_self {i : ℕ} : slice content i i = [] := by simp [slice]

theorem slice_middle {u v : Bytes} : slice (u ++ (w ++ v)) u.length (u.length + w.length) = w := by
  simp [slice, List.take_append]

/-- The keys of the properties of blocks. -/
def keysOf (bs : List (List Line × Option Bytes)) : List Str := (bs.filterMap (·.2)).map fun t => (entry t).1

variable (content values cleared) in
/-- One round edits one property. -/
theorem step_edit (s : Splice) (p : Property) (keys : List Str) : ∃ e,
    edits values cleared s.written (p.key :: keys) =
        e :: edits values cleared (s.step content values cleared p).written keys ∧
      ((e = .keep ∧ s.step content values cleared p = s) ∨ (e ≠ .keep ∧
        (∀ taken, (s.step content values cleared p).out = s.out ++ slice content s.cursor p.start ++ e.text taken) ∧
          (s.step content values cleared p).cursor = p.stop)) ∧
      ∀ k, k ∈ (s.step content values cleared p).written ↔ k ∈ s.written ∨ k = p.key ∧ (values.lookup k).isSome := by
  simp only [edits, Splice.step]
  cases hl : values.lookup p.key with
  | some value =>
    by_cases hw : p.key ∈ s.written
    · refine ⟨.drop, by simp [hw], .inr ⟨nofun, by simp [hw, Edit.text], by simp [hw]⟩, fun k => ?_⟩
      simp only [hw, if_true]
      exact ⟨.inl, fun h => h.elim id fun h => h.1 ▸ hw⟩
    · refine ⟨.write p.key value, by simp [hw], .inr ⟨nofun, by simp [hw, Edit.text], by simp [hw]⟩, fun k => ?_⟩
      simp only [hw, if_false, List.mem_cons]
      constructor
      · rintro (rfl | h)
        · exact .inr ⟨rfl, by simp [hl]⟩
        · exact .inl h
      · rintro (h | ⟨rfl, -⟩)
        · exact .inr h
        · exact .inl rfl
  | none =>
    have hno (k : Str) (w : List Str) : k ∈ w ↔ k ∈ w ∨ k = p.key ∧ (values.lookup k).isSome := by
      constructor
      · exact .inl
      · rintro (h | ⟨rfl, h⟩)
        · exact h
        · simp [hl] at h
    by_cases hc : p.key ∈ cleared
    · exact ⟨.drop, by simp [hc], .inr ⟨nofun, by simp [hc, Edit.text], by simp [hc]⟩, by simpa [hc] using (hno · _)⟩
    · exact ⟨.keep, by simp [hc], .inl ⟨rfl, by simp [hc]⟩, by simpa [hc] using (hno · _)⟩

variable (values cleared) in
/-- **The loop of `_rewrite`** edits the blocks of the file. -/
theorem foldl_step {u : Bytes} (s : Splice) (hcontent : content = u ++ bytes (bs.flatMap (·.1)))
    (hs : s.cursor ≤ u.length) (hpos : ∀ b ∈ bs, bytes b.1 ≠ []) :
    let s' := (located u.length bs).foldl (Splice.step content values cleared) s
    s'.out ++ content.drop s'.cursor =
        s.out ++ slice content s.cursor u.length ++ spliced bs (edits values cleared s.written (keysOf bs)) ∧
      (∀ k, k ∈ s'.written ↔ k ∈ s.written ∨ k ∈ keysOf bs ∧ (values.lookup k).isSome) ∧
      (kept bs (edits values cleared s.written (keysOf bs)) ↔ bs ≠ [] ∧ s'.cursor < content.length) := by
  induction bs generalizing u s with
  | nil =>
    rw [List.flatMap_nil, show bytes [] = [] from rfl, List.append_nil] at hcontent
    subst hcontent
    have htake : content.take content.length = content := List.take_length
    simp [located, keysOf, spliced, kept, slice]
  | cons b bs ih =>
    obtain ⟨taken, found⟩ := b
    have hcontent' : content = (u ++ bytes taken) ++ bytes (bs.flatMap (·.1)) := by
      rw [hcontent]
      simp [bytes_append]
    have hmiddle : slice content u.length (u ++ bytes taken).length = bytes taken := by
      rw [List.length_append, hcontent', List.append_assoc]
      exact slice_middle
    have htaken : 0 < (bytes taken).length := List.length_pos_iff.mpr (hpos _ List.mem_cons_self)
    have hlen : u.length + (bytes taken).length ≤ content.length := by simp [hcontent']
    have hpos' : ∀ b ∈ bs, bytes b.1 ≠ [] := fun b hb => hpos b (List.mem_cons_of_mem _ hb)
    have hkeep : slice content s.cursor u.length ++ bytes taken = slice content s.cursor (u ++ bytes taken).length := by
      have happend : slice content s.cursor u.length ++ slice content u.length (u ++ bytes taken).length =
          slice content s.cursor (u ++ bytes taken).length := slice_append hs (by simp)
      rwa [hmiddle] at happend
    have hs' : s.cursor ≤ (u ++ bytes taken).length := hs.trans (by simp)
    cases found with
    | none =>
      obtain ⟨h₁, h₂, h₃⟩ := ih s hcontent' hs' hpos'
      rw [List.length_append] at h₁ h₂ h₃
      refine ⟨?_, h₂, ?_⟩
      · simp only [located, spliced, Option.map_none, Option.toList_none, List.nil_append]
        rw [h₁, ← List.length_append, ← hkeep]
        simp only [List.append_assoc]
        rfl
      · cases bs with
        | nil =>
          simp only [located, kept, ne_eq, reduceCtorEq, not_false_eq_true, Option.map_none, Option.toList_none,
            List.nil_append, List.foldl_nil, true_and, true_iff]
          omega
        | cons b' bs => exact h₃.trans (by simp [located])
    | some t =>
      obtain ⟨e, he, hstep, hwritten⟩ := step_edit content values cleared s
        ⟨(entry t).1, (entry t).2, u.length, u.length + (bytes taken).length⟩ (keysOf bs)
      have hkeys : keysOf ((taken, some t) :: bs) = (entry t).1 :: keysOf bs := rfl
      simp only [located, Option.map_some, Option.toList_some, List.singleton_append, List.foldl_cons, hkeys, he, spliced]
      generalize hstep' : s.step content values cleared
        ⟨(entry t).1, (entry t).2, u.length, u.length + (bytes taken).length⟩ = s₁ at *
      have hle : s₁.cursor ≤ (u ++ bytes taken).length := by
        rcases hstep with ⟨-, rfl⟩ | ⟨-, -, h⟩
        · exact hs'
        · simp [h]
      obtain ⟨h₁, h₂, h₃⟩ := ih s₁ hcontent' hle hpos'
      rw [List.length_append] at h₁ h₂ h₃
      refine ⟨?_, fun k => ?_, ?_⟩
      · rw [h₁]
        rcases hstep with ⟨rfl, rfl⟩ | ⟨-, hout, hcursor⟩
        · rw [← List.length_append, ← hkeep]
          simp only [Edit.text, List.append_assoc]
        · rw [hcursor, slice_self, hout taken]
          simp only [List.append_assoc, List.append_nil]
      · rw [h₂, hwritten, List.mem_cons]
        tauto
      · cases bs with
        | nil =>
          simp only [located, kept, List.foldl_nil, List.head?_cons, Option.some.injEq, ne_eq, reduceCtorEq,
            not_false_eq_true, true_and]
          have hnil : bytes (([] : List (List Line × Option Bytes)).flatMap (·.1)) = [] := rfl
          have hend : content.length = u.length + (bytes taken).length := by
            rw [hcontent', hnil, List.append_nil, List.length_append]
          rcases hstep with ⟨rfl, rfl⟩ | ⟨hne, -, hcursor⟩
          · simp only [true_iff]
            omega
          · simp [hne, hcursor, hend]
        | cons b' bs => exact h₃.trans (by simp)

end McServerDashboard.Properties
