import Mathlib.Data.List.DropRight

/-!
# Slash-separated paths

* `splitSlash`: a text split at its slashes; `components`: without the empty and `.` pieces.
* `PurePath`: a path as it is written, absolute or not, with its components.
* **`components_slash`**: the components of two paths joined by a slash.
-/

namespace Lib.Posix

/-- `text.split("/")`. -/
def splitSlash : List Char → List (List Char)
  | [] => [[]]
  | c :: cs =>
    if c = '/' then [] :: splitSlash cs
    else match splitSlash cs with
      | [] => [[c]]
      | w :: ws => (c :: w) :: ws

/-- The pieces that name something. -/
def pieces (cs : List Char) : List (List Char) := (splitSlash cs).filter fun w => w ≠ [] ∧ w ≠ ['.']

/-- The components of a path. -/
def components (raw : String) : List String := (pieces raw.toList).map String.ofList

/-- `PurePosixPath(raw)`. -/
structure PurePath where
  absolute : Bool
  parts : List String
  deriving DecidableEq

def purePath (raw : String) : PurePath := ⟨raw.toList.head? = some '/', components raw⟩

/-- The parent; a path without components is its own. -/
def PurePath.parent (p : PurePath) : PurePath := { p with parts := p.parts.dropLast }

variable {a b w : List Char}

theorem splitSlash_cons (c : Char) (cs : List Char) : splitSlash (c :: cs) =
    if c = '/' then [] :: splitSlash cs
    else match splitSlash cs with
      | [] => [[c]]
      | w :: ws => (c :: w) :: ws := rfl

theorem splitSlash_ne_nil (a : List Char) : splitSlash a ≠ [] := by
  cases a with
  | nil => exact List.cons_ne_nil _ _
  | cons c cs =>
    rw [splitSlash_cons]
    split_ifs
    · exact List.cons_ne_nil _ _
    · split <;> exact List.cons_ne_nil _ _

theorem splitSlash_slash : splitSlash (a ++ '/' :: b) = splitSlash a ++ splitSlash b := by
  induction a with
  | nil => rfl
  | cons c cs ih =>
    rw [List.cons_append, splitSlash_cons, splitSlash_cons, ih]
    split_ifs with hc
    · rfl
    · cases h : splitSlash cs with
      | nil => exact absurd h (splitSlash_ne_nil cs)
      | cons u us => rfl

/-- A piece has no slash. -/
theorem slash_notMem (h : w ∈ splitSlash a) : '/' ∉ w := by
  induction a generalizing w with
  | nil =>
    rw [List.mem_singleton.mp h]
    exact List.not_mem_nil
  | cons c cs ih =>
    rw [splitSlash_cons] at h
    split_ifs at h with hc
    · rcases List.mem_cons.mp h with rfl | h
      · simp
      · exact ih h
    · cases hs : splitSlash cs with
      | nil => exact absurd hs (splitSlash_ne_nil cs)
      | cons u us =>
        rw [hs] at h ih
        rcases List.mem_cons.mp h with rfl | h
        · rw [List.mem_cons, not_or]
          exact ⟨Ne.symm hc, ih List.mem_cons_self⟩
        · exact ih (List.mem_cons_of_mem _ h)

theorem pieces_slash : pieces (a ++ '/' :: b) = pieces a ++ pieces b := by
  rw [pieces, splitSlash_slash, List.filter_append]
  rfl

/-- **The components of two paths joined by a slash.** -/
theorem components_slash (u v : String) : components (u ++ "/" ++ v) = components u ++ components v := by
  have h : (u ++ "/" ++ v).toList = u.toList ++ '/' :: v.toList := by simp
  rw [components, h, pieces_slash, List.map_append]
  rfl

/-- Slashes at the end name nothing. -/
theorem pieces_rdropWhile (a : List Char) : pieces (a.rdropWhile (· = '/')) = pieces a := by
  induction a using List.reverseRecOn with
  | nil => rfl
  | append_singleton a c ih =>
    have hnil : pieces [] = [] := by decide
    by_cases hc : c = '/'
    · subst hc
      rw [List.rdropWhile_concat_pos _ _ _ (by simp), ih, pieces_slash, hnil, List.append_nil]
    · rw [List.rdropWhile_concat_neg _ _ _ (by simpa using hc)]

theorem component_ok {raw part : String} (h : part ∈ components raw) : part ≠ "" ∧ part ≠ "." ∧ '/' ∉ part.toList := by
  obtain ⟨w, hw, rfl⟩ := List.mem_map.mp h
  rw [pieces, List.mem_filter] at hw
  have hne := of_decide_eq_true hw.2
  refine ⟨fun he => hne.1 ?_, fun he => hne.2 ?_, ?_⟩
  · simpa using congrArg String.toList he
  · simpa using congrArg String.toList he
  · simpa using slash_notMem hw.1

end Lib.Posix
