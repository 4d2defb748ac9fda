import McServerDashboard.Storage.RelPath

/-!
# The generation marker and the missing-region gate

What both storage backends share: the `(generation, publisher)` marker, the sentinel publishers,
and the comparison of region-file names that a snapshot commit must pass.
-/

namespace McServerDashboard

/-- The one marker file or object; an absent one reads as generation 0 without a publisher. -/
structure Marker where
  generation : ℕ
  publisher : Option String
  deriving DecidableEq, Repr

namespace Marker

/-- The marker of a store that never published. -/
def absent : Marker := ⟨0, none⟩

/-- The next generation, stamped with `publisher`. -/
def bump (m : Marker) (publisher : Option String) : Marker := ⟨m.generation + 1, publisher⟩

end Marker

/-- The publisher id recorded for a backup restore. -/
def restorePublisher : String := "api-restore"

/-- The publisher id recorded for an authoritative file edit. -/
def apiEditPublisher : String := "api-edit"

/-! ## The missing-region gate -/

/-- A region file's name. -/
def isRegionName (name : String) : Bool := ".mca".toList.isSuffixOf name.toList

/-- The `.mca` file names directly in `dir`, among the files of a working set. -/
def regionNames (files : List Path) (dir : Path) : List String :=
  (files.filter fun p => p.dropLast = dir && p ≠ []).filterMap fun p =>
    p.getLast?.filter isRegionName

/-- The directories that directly hold a region file. -/
def regionDirs (files : List Path) : List Path :=
  ((files.filter fun p => (p.getLast?.map isRegionName).getD false).map List.dropLast).dedup

/-- `compare_region_name_sets`: the regions each directory lost while it kept others. -/
def missingRegions (new reference : List Path) : List (Path × List String) :=
  (regionDirs reference).filterMap fun dir =>
    let names := regionNames new dir
    let lost := (regionNames reference dir).filter (· ∉ names)
    if names = [] ∨ lost = [] then none else some (dir, lost)

end McServerDashboard
