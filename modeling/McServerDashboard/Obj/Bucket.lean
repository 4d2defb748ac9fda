import Mathlib.Data.List.AList
import McServerDashboard.Lib.Writes
import McServerDashboard.Storage.Marker

/-!
# One server's objects in the bucket

The pointer object names one prefix of `snapshots/`; uploads and restores are staged under a prefix
of `incoming/` and copied. A `Request` is one atomic request to the store.

* `Bucket.published`: the objects below the prefix that the pointer names.
* `Request.run`: the effect of one request, or the miss of the object it reads.
* `Request.run_lookup_ne`: a request leaves every object but its target as it is.
-/

namespace McServerDashboard.Obj

/-- An object's name below its prefix, split at the slashes; the empty name is `[""]`. -/
abbrev Name := List String

/-- The id drawn for a transfer and for the snapshot that is made of it. -/
abbrev SnapshotId := ℕ

/-- A prefix below the server's. -/
inductive Prefix
  | incoming (d : SnapshotId)
  | snapshot (d : SnapshotId)
  deriving DecidableEq

structure Key where
  under : Prefix
  name : Name
  deriving DecidableEq

/-- The server's objects, its pointer object and its marker object. -/
structure Bucket where
  objs : AList fun _ : Key => Bytes
  pointer : Option SnapshotId
  marker : Marker

namespace Bucket

/-- A server that was never published. -/
def empty : Bucket := ⟨∅, none, .absent⟩

def generation (k : Bucket) : ℕ := k.marker.generation

/-- The object at a name below a prefix. -/
def get (k : Bucket) (p : Prefix) (n : Name) : Option Bytes := k.objs.lookup ⟨p, n⟩

/-- `list_objects` of a prefix: the names below it, the last written first. -/
def list (k : Bucket) (p : Prefix) : List Name :=
  (k.objs.keys.filter fun key => key.under = p).map Key.name

/-- `list_objects` of the directory `dir` below a prefix: the names that go on after its slash. -/
def listDir (k : Bucket) (p : Prefix) (dir : Path) : List Name :=
  (k.list p).filter fun n => dir.isPrefixOf n && n ≠ dir

/-- The published working set: the object at each name. -/
def published (k : Bucket) : Option (Name → Option Bytes) :=
  k.pointer.map fun d => k.get (.snapshot d)

end Bucket

/-- The store has no object at the key that was read. -/
inductive NotFound
  | mk (k : Key)

/-- One request that changes the store. -/
inductive Request
  | put (k : Key) (data : Bytes)
  /-- A server-side copy. -/
  | copy (src dst : Key)
  | delete (k : Key)
  /-- PUT of the pointer object. -/
  | point (d : SnapshotId)
  /-- DELETE of the pointer object. -/
  | unpoint
  /-- PUT of the marker object. -/
  | mark (m : Marker)
  deriving DecidableEq

namespace Request

/-- The effect of a request. -/
def run : Request → Bucket → Except NotFound Bucket
  | put key data, k => .ok { k with objs := k.objs.insert key data }
  | copy src dst, k =>
    match k.objs.lookup src with
    | none => .error ⟨src⟩
    | some data => .ok { k with objs := k.objs.insert dst data }
  | delete key, k => .ok { k with objs := k.objs.erase key }
  | point d, k => .ok { k with pointer := some d }
  | unpoint, k => .ok { k with pointer := none }
  | mark m, k => .ok { k with marker := m }

/-- The generation a request writes to the marker. -/
def marked : Request → Option ℕ
  | mark m => some m.generation
  | _ => none

/-- The object a request writes or deletes. -/
def target : Request → Option Key
  | put key _ => some key
  | copy _ dst => some dst
  | delete key => some key
  | _ => none

variable {r : Request} {k k' : Bucket}

/-- Only a PUT of the marker changes the generation. -/
theorem run_generation (h : r.run k = .ok k') (hm : r.marked = none) : k'.generation = k.generation := by
  cases r with
  | mark m => cases hm
  | copy src dst =>
    simp only [run] at h
    split at h <;> cases h
    rfl
  | _ => cases h; rfl

theorem run_marked {g : ℕ} (h : r.run k = .ok k') (hm : r.marked = some g) : k'.generation = g := by
  cases r with
  | mark m =>
    cases h
    exact Option.some.inj hm
  | _ => cases hm

/-- A request leaves every object but its target as it is. -/
theorem run_lookup_ne {key : Key} (h : r.run k = .ok k') (hk : r.target ≠ some key) :
    k'.objs.lookup key = k.objs.lookup key := by
  have hne : ∀ {x : Key}, r.target = some x → key ≠ x := fun hx he => hk (by rw [hx, he])
  cases r with
  | put x data =>
    cases h
    exact AList.lookup_insert_ne (hne rfl)
  | copy src dst =>
    simp only [run] at h
    split at h <;> cases h
    exact AList.lookup_insert_ne (hne rfl)
  | delete x =>
    cases h
    exact AList.lookup_erase_ne (hne rfl)
  | _ => cases h; rfl

theorem run_pointer (h : r.run k = .ok k') (hd : ∀ d, r ≠ .point d) (hu : r ≠ .unpoint) :
    k'.pointer = k.pointer := by
  cases r with
  | point d => exact absurd rfl (hd d)
  | unpoint => exact absurd rfl hu
  | copy src dst =>
    simp only [run] at h
    split at h <;> cases h
    rfl
  | _ => cases h; rfl

end Request

end McServerDashboard.Obj
