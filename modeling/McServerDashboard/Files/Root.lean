import McServerDashboard.Files.UseCases

/-!
# What a file store has at its root

What the port leaves to a store, said of the names of the root alone: what an operation that succeeds may add, take
away and leave. The guards of the use cases speak of the same names.

* `Entry`: what stands at a name; `Entry.Within`, what a part of it is.
* `Changed`: what an operation leaves at the root.
* **`RootLaw`**: a file store whose operations do no more than that.
-/

namespace McServerDashboard.Files

/-! ## Entries -/

/-- What stands at a name of the root. In a bucket a file and a directory may both. -/
structure Entry where
  file : Option Bytes
  dir : Bool
  link : Bool
  deriving DecidableEq

namespace Entry

/-- A file and nothing else. -/
def plain (data : Bytes) : Entry := ⟨some data, false, false⟩

/-- Nothing stands. -/
def free : Entry := ⟨none, false, false⟩

/-- Something stands. -/
def Stands (e : Entry) : Prop := e.file ≠ none ∨ e.dir = true ∨ e.link = true

/-- Nothing is at the name that was not there. -/
structure Within (e e' : Entry) : Prop where
  file : e.file = e'.file ∨ e.file = none
  dir : e.dir = true → e'.dir = true
  link : e.link = true → e'.link = true

variable {e e' : Entry}

theorem not_stands_free : ¬ free.Stands := by
  rintro (h | h | h) <;> exact absurd h (by decide)

theorem within_free : free.Within e := ⟨.inr rfl, nofun, nofun⟩

theorem Within.refl (e : Entry) : e.Within e := ⟨.inl rfl, id, id⟩

theorem Within.stands (h : e.Within e') (hs : e.Stands) : e'.Stands := by
  rcases hs with hfile | hdir | hlink
  · exact .inl ((h.file.resolve_right hfile) ▸ hfile)
  · exact .inr (.inl (h.dir hdir))
  · exact .inr (.inr (h.link hlink))

end Entry

/-! ## Operations -/

/-- An operation that adds below one name at most, and leaves the content of the root `server.properties` unless it
`touches` it. -/
structure Changed (root root' : String → Entry) (into : Path) (touches : Prop) : Prop where
  others : ∀ name, into.head? ≠ some name → (root' name).Within (root name)
  file : ¬ touches → (root' propertiesRelPath).file = (root propertiesRelPath).file

/-- A write of a path. Below a name that is free it may make a directory of it. -/
structure Wrote (root root' : String → Entry) (p : Path) (content : Bytes) : Prop where
  changed : Changed root root' p
    (p = [propertiesRelPath] ∨ p.head? = some propertiesRelPath ∧ (root propertiesRelPath).file = none)
  put : p = [propertiesRelPath] → root' propertiesRelPath = .plain content

theorem Changed.mono {root root' : String → Entry} {into : Path} {touches touches' : Prop}
    (h : Changed root root' into touches) (himp : touches → touches') : Changed root root' into touches' :=
  ⟨h.others, fun hno => h.file fun ht => hno (himp ht)⟩

/-- What the operations of a file store leave at the root. `Published` is what the first write of a server makes of its
store. -/
structure RootLaw {σ δ : Type} (fs : FileStore σ δ) where
  root : σ → String → Entry
  Published : σ → Prop
  published_of_stands : ∀ {s name}, (root s name).Stands → Published s
  /-- The baseline of the guards. -/
  baseline : ∀ {s content}, currentProperties fs s = .ok content →
    content = (root s propertiesRelPath).file.getD []
  /-- The write of the root file, also as the first. -/
  seeded : ∀ {s s' d content}, fs.writeFile d propertiesRelPath content s = .ok s' →
    Published s' ∧ (root s' propertiesRelPath).file = some content
  writeFile : ∀ {s s' d raw content}, Published s → fs.writeFile d raw content s = .ok s' →
    Published s' ∧ ∃ p, RelPath.ofRaw raw = some p ∧ Wrote (root s) (root s') p.parts content
  rollback : ∀ {s s' d raw versionId}, Published s → fs.rollback d raw versionId s = .ok s' →
    Published s' ∧ ∃ p content, RelPath.ofRaw raw = some p ∧ fs.readVersion raw versionId s = .ok content ∧
      Wrote (root s) (root s') p.parts content
  deleteFile : ∀ {s s' d raw}, Published s → fs.deleteFile d raw s = .ok s' →
    Published s' ∧ ∃ p, RelPath.ofRaw raw = some p ∧ Changed (root s) (root s') [] (p.parts = [propertiesRelPath])
  /-- The root alone takes other names with it. -/
  deleteDir : ∀ {s s' d raw}, Published s → fs.deleteDir d raw s = .ok s' →
    Published s' ∧ ∃ p, RelPath.ofRaw raw = some p ∧ Changed (root s) (root s') [] (p.parts = [])
  makeDir : ∀ {s s' d raw}, Published s → fs.makeDir d raw s = .ok s' →
    Published s' ∧ ∃ p, RelPath.ofRaw raw = some p ∧
      Changed (root s) (root s') p.parts (p.parts.head? = some propertiesRelPath)
  /-- To a name that is free. -/
  renameFile : ∀ {s s' d fromPath toPath src dst}, Published s →
    RelPath.ofRaw fromPath = some src → RelPath.ofRaw toPath = some dst →
    fs.pathExists toPath s = .ok false → fs.renameFile d fromPath toPath s = .ok s' →
    Published s' ∧ Changed (root s) (root s') dst.parts
      (src.parts = [propertiesRelPath] ∨ dst.parts.head? = some propertiesRelPath) ∧
      ∀ content, fs.readFile fromPath s = .ok content → dst.parts = [propertiesRelPath] →
        root s' propertiesRelPath = .plain content
  renameDir : ∀ {s s' d fromPath toPath src dst}, Published s →
    RelPath.ofRaw fromPath = some src → RelPath.ofRaw toPath = some dst →
    fs.pathExists toPath s = .ok false → fs.renameDir d fromPath toPath s = .ok s' →
    Published s' ∧ Changed (root s) (root s') dst.parts
      (src.parts = [] ∨ dst.parts.head? = some propertiesRelPath)

/-- The content of the root `server.properties`. -/
def RootLaw.properties {σ δ : Type} {fs : FileStore σ δ} (law : RootLaw fs) (s : σ) : Bytes :=
  (law.root s propertiesRelPath).file.getD []

end McServerDashboard.Files
