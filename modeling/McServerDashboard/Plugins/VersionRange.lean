import McServerDashboard.Lib.Characters
import McServerDashboard.Properties.Escapes

/-!
# Whether a version satisfies a range

Ranges are predicates, Maven intervals or a floor, as the loader has it. What does not parse is any version.

* `compareVersions`: component by component; `none` for the `ValueError` of a component that is all digits and no
  number.
* `versionSatisfies`: the three dialects.
-/

namespace McServerDashboard.Plugins

open Lib Lib.Properties Properties

/-! ## Comparison -/

inductive Component
  | number (n : ℤ)
  | text (s : Str)
  deriving DecidableEq

/-- A part that `str.isdigit` accepts is a number, or an error. -/
def component (raw : Str) : Option Component :=
  if raw.all isDigit then (int? raw).map .number else some (.text raw)

/-- The parts of a version, without its build metadata. -/
def parts (version : Str) : List Str :=
  ((version.takeWhile (· ≠ 43)).splitOnP fun c => c = 46 || c = 45).filter (· ≠ [])

/-- `_components`. -/
def components (version : Str) : Option (List Component) := (parts version).mapM component

def compareComponents : Component → Component → Ordering
  | .number x, .number y => compare x y
  | .number _, .text _ => .gt
  | .text _, .number _ => .lt
  | .text x, .text y => if x = y then .eq else if x < y then .lt else .gt

/-- A missing component is zero. -/
def compareLists : List Component → List Component → Ordering
  | [], ys => ys.foldr (fun y => (compareComponents (.number 0) y).then) .eq
  | x :: xs, ys => (compareComponents x (ys.head?.getD (.number 0))).then (compareLists xs ys.tail)

/-- `_compare`, and `compare_versions`. -/
def compareVersions (a b : Str) : Option Ordering := do
  let ac ← components a
  let bc ← components b
  return compareLists ac bc

/-! ## Predicates -/

def isWildcard (part : Str) : Bool := part = str "x" || part = str "X" || part = str "*"

/-- `_is_x_range`. -/
def isXRange (target : Str) : Bool := (target.splitOn 46).any isWildcard

/-- `_x_range`. -/
def xRange (version target : Str) : Bool :=
  let vt := version.splitOn 46
  (target.splitOn 46).zipIdx.all fun (part, i) => isWildcard part || vt[i]? == some part

/-- The version is at least `lower` and below `upper`. -/
def within (version lower upper : Str) : Option Bool := do
  if (← compareVersions version lower) = .lt then return false
  return (← compareVersions version upper) = .lt

/-- `_tilde`. -/
def tilde (version target : Str) : Option Bool := do
  match (target.splitOn 46).filter (· ≠ []) with
  | [] => none
  | [major] => within version target (← str? ((← int? major) + 1))
  | major :: minor :: _ => within version target (major ++ str "." ++ (← str? ((← int? minor) + 1)))

/-- The components up to the first that is not zero, or the last, which is raised. -/
def caretUpper : List ℤ → List ℤ
  | [] => []
  | n :: ns => if n ≠ 0 ∨ ns = [] then [n + 1] else n :: caretUpper ns

/-- `_caret`. -/
def caret (version target : Str) : Option Bool := do
  let parts ← ((target.splitOn 46).filter (· ≠ [])).mapM int?
  if parts = [] then none
  let upper ← (caretUpper parts).mapM str?
  within version target ((str ".").intercalate upper)

/-- `_semver_predicate`. -/
def semverPredicate (version predicate : Str) : Option Bool :=
  if predicate = str "*" ∨ predicate = [] then some true
  else if (str "<=").isPrefixOf predicate then
    (compareVersions version (strip (predicate.drop 2))).map (· ≠ .gt)
  else if (str ">=").isPrefixOf predicate then
    (compareVersions version (strip (predicate.drop 2))).map (· ≠ .lt)
  else if (str "<").isPrefixOf predicate then (compareVersions version (strip (predicate.drop 1))).map (· = .lt)
  else if (str ">").isPrefixOf predicate then (compareVersions version (strip (predicate.drop 1))).map (· = .gt)
  else if (str "~").isPrefixOf predicate then tilde version (strip (predicate.drop 1))
  else if (str "^").isPrefixOf predicate then caret version (strip (predicate.drop 1))
  else
    let target := if (str "=").isPrefixOf predicate then strip (predicate.drop 1) else predicate
    if isXRange target then some (xRange version target)
    else (compareVersions version target).map (· = .eq)

/-- `s.split("||")`. -/
def splitBars : Str → List Str
  | 124 :: 124 :: s => [] :: splitBars s
  | [] => [[]]
  | c :: s => (splitBars s).modifyHead (c :: ·)

/-- An alternative: all of its predicates, of which there may be none. -/
def alternative (version alt : Str) : Option Bool :=
  ((alt.splitOnP fun c => c = 44 || isSpace c).filter (· ≠ [])).allM (semverPredicate version)

/-- `_semver_satisfies`. -/
def semverSatisfies (version spec : Str) : Option Bool := (splitBars spec).anyM (alternative version)

/-! ## The floor of an API version -/

/-- `_major_minor`. -/
def majorMinor (version : Str) : Option (ℤ × ℤ) := do
  match ← components version with
  | .number major :: .number minor :: _ => return (major, minor)
  | .number major :: _ => return (major, 0)
  | .text _ :: .number minor :: _ => return (0, minor)
  | _ => return (0, 0)

/-- `_paper_satisfies`. -/
def paperSatisfies (version spec : Str) : Option Bool := do
  let v ← majorMinor version
  let s ← majorMinor spec
  return s.1 < v.1 || s.1 = v.1 && s.2 ≤ v.2

/-! ## Intervals -/

/-- `_split_maven_intervals`, at a depth of brackets: the commas that are in none separate. -/
def splitIntervals : ℤ → Str → List Str
  | _, [] => [[]]
  | depth, c :: s =>
    let depth := if c = 91 ∨ c = 40 then depth + 1 else if c = 93 ∨ c = 41 then depth - 1 else depth
    if c = 44 ∧ depth = 0 then [] :: splitIntervals depth s
    else (splitIntervals depth s).modifyHead (c :: ·)

/-- `_maven_interval`, of a token that is not empty. -/
def mavenInterval (version token : Str) : Option Bool := do
  let opens := token.head?.any fun c => c = 91 || c = 40
  let closes := token.getLast?.any fun c => c = 93 || c = 41
  if !opens && !closes then return (← compareVersions version token) = .eq
  if !(opens && closes) then none
  let inner := token.tail.dropLast
  if 44 ∉ inner then
    if strip inner = [] then return false
    return (← compareVersions version (strip inner)) = .eq
  let low := strip (inner.takeWhile (· ≠ 44))
  let high := strip ((inner.dropWhile (· ≠ 44)).tail)
  if low ≠ [] then
    let cmp ← compareVersions version low
    if cmp = .lt ∨ (cmp = .eq ∧ token.head? ≠ some 91) then return false
  if high ≠ [] then
    let cmp ← compareVersions version high
    if cmp = .gt ∨ (cmp = .eq ∧ token.getLast? ≠ some 93) then return false
  return true

/-- `_maven_satisfies`: intervals that do not parse are left out, unless none does. -/
def mavenSatisfies (version spec : Str) : Option Bool :=
  match ((splitIntervals 0 spec).map strip).filter (· ≠ []) with
  | [] => some true
  | tokens =>
    let results := tokens.filterMap (mavenInterval version)
    if results = [] then none else some (results.any fun b => b)

/-- `version_satisfies`. -/
def versionSatisfies (version range loader : Str) : Bool :=
  let spec := strip range
  if spec = [] ∨ spec = str "*" then true
  else
    let result :=
      if loader = str "paper" then paperSatisfies (strip version) spec
      else if loader = str "forge" ∨ loader = str "neoforge" then mavenSatisfies (strip version) spec
      else semverSatisfies (strip version) spec
    result.getD true

end McServerDashboard.Plugins
