import Mathlib.Data.List.Infix

/-!
# Paths below a server's root

A path is its list of components. `RelPath` is a path the API has validated: relative, without
`..`, `.` or empty components, and free of control characters. The root itself is the path with
no component.
-/

namespace McServerDashboard

/-- The clean POSIX components of a path below the server root. -/
abbrev Path := List String

/-- File bytes. -/
abbrev Bytes := List UInt8

/-- An ASCII control character: C0 or DEL. -/
def isControl (c : Char) : Bool := c.toNat < 0x20 || c.toNat = 0x7f

/-- A component that `RelPath` lets through. -/
def IsComponent (part : String) : Prop :=
  part ≠ "" ∧ part ≠ "." ∧ part ≠ ".." ∧ '/' ∉ part.toList ∧ part.toList.all (!isControl ·)

instance (part : String) : Decidable (IsComponent part) := by
  unfold IsComponent; infer_instance

/-- A caller-supplied path, validated as relative and contained at the string level. -/
structure RelPath where
  parts : Path
  clean : ∀ part ∈ parts, IsComponent part
  deriving DecidableEq

/-- The filesystem's longest name. -/
def nameMax : ℕ := 255

/-- A component past `nameMax`. -/
def isOverlong (part : String) : Bool := nameMax < part.utf8ByteSize

end McServerDashboard
