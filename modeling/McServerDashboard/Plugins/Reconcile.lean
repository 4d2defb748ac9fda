import Mathlib.Data.List.Dedup
import Mathlib.Logic.Equiv.List
import McServerDashboard.Lib.Writes
import McServerDashboard.Plugins.Rows

/-!
# Plugin rows after a restore

A restore replaces the working set of a server. Its plugin rows are then reconciled with the jars
that the content directory lists: orphans are dropped, ghosts are ingested, shifted rows are
updated. Any call may fail; some failures are swallowed.

* `reconcilePlugins`: the three passes; `rowsAfter`: what is left of them in the database.
* **`reconcilePlugins_eq`**: what they leave, row by row and jar by jar.
* `Reconciled`: rows, jars and hashes agree, and another reconciliation changes nothing.
* **`reconciled_iff`**: they do exactly where no listed jar is a client's, and no row whose jar has
  changed keeps the hash of another content for want of a cache.
-/

namespace McServerDashboard.Plugins

open Lib Properties

/-! ## The calls -/

structure FileEntry where
  name : Str
  isDirectory : Bool

/-- What `list_dir` answers; `missing` is `ServerFileNotFoundError`. -/
inductive Listing
  | missing
  | failed
  | entries (es : List FileEntry)

/-- What `read_file` answers; `gone` is `ServerFileNotFoundError`. -/
inductive Read
  | gone
  | failed
  | content (bytes : Bytes)

/-- How the calls of a reconciliation turn out, by the path of the jar that they are about. -/
structure Calls where
  listing : Listing
  read : Str → Read
  /-- The cache, if there is one: does it take the jar? -/
  put : Option (Str → Bool)
  /-- Does the database take the row of the jar? -/
  insert : Str → Bool
  clock : Option (Str → Schedules.Instant)
  utcNow : Str → Schedules.Instant
  newId : Str → ℕ

/-- `PluginReconcileIncompleteError`. -/
inductive PluginReconcileIncomplete
  | listing
  | jar (path : Str)
  deriving DecidableEq

variable (J : JarReader) (serverType : ServerType) (others : List PluginRow) (c : Calls)

/-! ## The three passes -/

/-- The jars on disk that a listing names. -/
def diskJars (es : List FileEntry) : List Str :=
  ((es.filter fun e => !e.isDirectory && isJar e.name).map fun e => inContentDir serverType e.name).dedup

/-- The listing; a directory that is not there is empty. -/
def scan : Except PluginReconcileIncomplete (List Str) :=
  match c.listing with
  | .missing => .ok []
  | .failed => .error .listing
  | .entries es => .ok (diskJars serverType es)

/-- `_read_listed_jar`. -/
def readListedJar (path : Str) : Except PluginReconcileIncomplete (Option Bytes) :=
  match c.read path with
  | .gone => .ok none
  | .failed => .error (.jar path)
  | .content bytes => .ok (some bytes)

/-- The first pass: rows whose file is gone are dropped, but for those of client-only plugins. -/
def dropOrphans (jars : List Str) (db : List PluginRow) : List PluginRow :=
  db.filter fun r => r.side = .client ∨ r.relPath ∈ jars

/-- The name of a jar below the content directory. -/
def rawName (path : Str) : Str := path.drop (inContentDir serverType []).length

/-- The row of a jar that had none. -/
def ghostRow (path : Str) (bytes : Bytes) (manifest : ParsedManifest) (provenance : Option CatalogProvenance) : PluginRow :=
  let disabled := lowerEndswith (rawName serverType path) jarDisabledSuffix
  let filename := if disabled then removesuffix (rawName serverType path) disabledSuffix else rawName serverType path
  let ts := (c.clock.getD c.utcNow) path
  { id := c.newId path
    relPath := path
    filename := filename
    displayName := if manifest.modIdentifier ≠ [] then manifest.modIdentifier else removesuffix filename jarSuffix
    description := none
    loaderType := loaderTypeForServerType serverType
    source := (provenance.map (·.source)).getD .unknown
    sourceProjectId := provenance.map (·.sourceProjectId)
    sourceVersionId := provenance.bind (·.sourceVersionId)
    versionNumber := provenance.bind (·.versionNumber)
    checksumSha512 := some (J.sha512 bytes)
    sha256 := c.put.map fun _ => J.sha256 bytes
    sizeBytes := some bytes.length
    enabled := !disabled
    installedBy := none
    createdAt := ts
    updatedAt := ts
    modIdentifier := if manifest.modIdentifier = [] then none else some manifest.modIdentifier
    provides := manifest.provides
    dependencies := manifest.dependencies
    mcVersions := manifest.mcVersions
    side := manifest.side
    catalogDependencies := [] }

/-- `_ingest_ghost` in its savepoint; `none` is any exception. -/
def ingestGhost (rows : List PluginRow) (path : Str) (bytes : Bytes) : Option PluginRow := do
  let manifest ← J.manifest serverType bytes
  guard (c.put.all (· path))
  let recovered := findCatalogProvenanceBySha512 (rows ++ others) (J.sha512 bytes)
  guard (c.insert path)
  return ghostRow J serverType c path bytes manifest recovered

/-- The second pass: one jar, if no row of `db` tracks it. -/
def ingestListed (db rows : List PluginRow) (path : Str) : Except PluginReconcileIncomplete (List PluginRow) :=
  if db.any (·.relPath = path) then .ok rows
  else
    match readListedJar c path with
    | .error e => .error e
    | .ok none => .ok rows
    | .ok (some bytes) => .ok (rows ++ (ingestGhost J serverType others c rows path bytes).toList)

/-- The row of a jar whose content has changed; what cannot be had of the new content stays. -/
def shifted (plugin : PluginRow) (bytes : Bytes) : PluginRow :=
  let plugin := { plugin with checksumSha512 := some (J.sha512 bytes), sizeBytes := some bytes.length }
  let plugin :=
    match c.put with
    | some put => if put plugin.relPath then { plugin with sha256 := some (J.sha256 bytes) } else plugin
    | none => plugin
  let plugin :=
    match J.manifest serverType bytes with
    | some manifest =>
      { plugin with
        modIdentifier := if manifest.modIdentifier = [] then none else some manifest.modIdentifier
        provides := manifest.provides
        dependencies := manifest.dependencies
        mcVersions := manifest.mcVersions
        side := manifest.side }
    | none => plugin
  match c.clock with
  | some now => { plugin with updatedAt := now plugin.relPath }
  | none => plugin

/-- The third pass: one tracked row. -/
def updateShifted (jars : List Str) (rows : List PluginRow) (plugin : PluginRow) :
    Except PluginReconcileIncomplete (List PluginRow) :=
  if plugin.relPath ∉ jars then .ok rows
  else
    match readListedJar c plugin.relPath with
    | .error e => .error e
    | .ok none => .ok rows
    | .ok (some bytes) =>
      if plugin.checksumSha512 = some (J.sha512 bytes) then .ok rows
      else .ok (update rows (shifted J serverType c plugin bytes))

/-- `_reconcile_plugins`, of a server type that has a content directory. -/
def reconcilePlugins (db : List PluginRow) : Except PluginReconcileIncomplete (List PluginRow) :=
  (scan serverType c).bind fun jars =>
    ((jars.insertionSort (· ≤ ·)).foldlM (ingestListed J serverType others c db) (dropOrphans jars db)).bind fun rows =>
      db.foldlM (updateShifted J serverType c jars) rows

/-- The rows afterwards: an error discards the transaction. -/
def rowsAfter (db : List PluginRow) : List PluginRow :=
  match reconcilePlugins J serverType others c db with
  | .ok rows => rows
  | .error _ => db

/-! ## What is claimed -/

/-- The two hashes of a row describe the same bytes. -/
def PluginRow.Consistent (r : PluginRow) : Prop :=
  ∀ bytes, r.checksumSha512 = some (J.sha512 bytes) → ∀ h ∈ r.sha256, h = J.sha256 bytes

/-- Does the ingest of a jar succeed? -/
def ingests (path : Str) (bytes : Bytes) : Bool :=
  (J.manifest serverType bytes).isSome && c.put.all (· path) && c.insert path

/-- A jar whose ingest failed, or that vanished between its listing and its read. -/
def Excepted (db : List PluginRow) (path : Str) : Prop :=
  c.read path = .gone ∨
    (∀ r ∈ db, r.relPath ≠ path) ∧ ∃ bytes, c.read path = .content bytes ∧ ingests J serverType c path bytes = false

/-- What a reconciliation that returns is to leave, of the rows `db` and the jars on disk. -/
structure Reconciled (jars : List Str) (db rows : List PluginRow) : Prop where
  /-- A row that is not of a client-only plugin has its jar on disk. -/
  listed : ∀ r ∈ rows, r.side ≠ .client → r.relPath ∈ jars
  /-- A jar on disk has such a row, unless it is excepted. -/
  tracked : ∀ path ∈ jars, ¬ Excepted J serverType c db path → ∃ r ∈ rows, r.side ≠ .client ∧ r.relPath = path
  /-- One that is excepted has no new row. -/
  untracked : ∀ r ∈ rows, Excepted J serverType c db r.relPath → r.relPath ∈ jars → r ∈ db
  /-- The hashes of the row are those of the bytes on disk. -/
  hashes : ∀ r ∈ rows, r.side ≠ .client → ∀ bytes, c.read r.relPath = .content bytes →
    r.checksumSha512 = some (J.sha512 bytes) ∧ ∀ h ∈ r.sha256, h = J.sha256 bytes
  /-- The same again changes nothing. -/
  again : reconcilePlugins J serverType others c rows = .ok rows

/-- `uuid4` draws ids that no row has. -/
structure Calls.Fresh (db : List PluginRow) : Prop where
  injective : Function.Injective c.newId
  unused : ∀ path, ∀ r ∈ db, r.id ≠ c.newId path

/-- The side of a tracked row afterwards: that of the manifest, if the content has changed and has one. -/
def sideAfter (r : PluginRow) (bytes : Bytes) : PluginSide :=
  if r.checksumSha512 = some (J.sha512 bytes) then r.side else ((J.manifest serverType bytes).map (·.side)).getD r.side

/-- No listed jar is that of a client-only plugin afterwards, and the cache takes each changed one whose
row has the hash of another content. -/
def Trackable (jars : List Str) (db : List PluginRow) : Prop :=
  ∀ path ∈ jars, ∀ bytes, c.read path = .content bytes →
    (∀ r ∈ db, r.relPath = path → sideAfter J serverType r bytes ≠ .client ∧
      (r.checksumSha512 ≠ some (J.sha512 bytes) → c.put.any (· path) = false → ∀ h ∈ r.sha256, h = J.sha256 bytes)) ∧
    ((∀ r ∈ db, r.relPath ≠ path) → ingests J serverType c path bytes → ∀ m ∈ J.manifest serverType bytes, m.side ≠ .client)

/-! ## What the passes leave -/

/-- A tracked row afterwards. -/
def settle (jars : List Str) (r : PluginRow) : PluginRow :=
  if r.relPath ∈ jars then
    match c.read r.relPath with
    | .content bytes => if r.checksumSha512 = some (J.sha512 bytes) then r else shifted J serverType c r bytes
    | _ => r
  else r

/-- The row of a jar that no row of `db` tracks, if it gets one. -/
def ghostAt (db : List PluginRow) (provenance : Option CatalogProvenance) (path : Str) : Option PluginRow :=
  if ∀ r ∈ db, r.relPath ≠ path then
    match c.read path with
    | .content bytes =>
      if ingests J serverType c path bytes then
        (J.manifest serverType bytes).map (ghostRow J serverType c path bytes · provenance)
      else none
    | _ => none
  else none

variable {J serverType others c} {db rows rows' : List PluginRow} {jars paths : List Str} {path : Str} {bytes : Bytes}
  {r r' : PluginRow} {provenance : Option CatalogProvenance}

/-- **What an update of a shifted row changes** of what the passes look at. -/
theorem shifted_spec : (shifted J serverType c r bytes).id = r.id ∧ (shifted J serverType c r bytes).relPath = r.relPath ∧
    (shifted J serverType c r bytes).createdAt = r.createdAt ∧
    (shifted J serverType c r bytes).checksumSha512 = some (J.sha512 bytes) ∧
    (shifted J serverType c r bytes).side = ((J.manifest serverType bytes).map (·.side)).getD r.side ∧
    (shifted J serverType c r bytes).sha256 = if c.put.any (· r.relPath) then some (J.sha256 bytes) else r.sha256 := by
  unfold shifted
  cases c.put with
  | none => cases J.manifest serverType bytes <;> cases c.clock <;> exact ⟨rfl, rfl, rfl, rfl, rfl, rfl⟩
  | some put =>
    cases hput : put r.relPath <;> cases J.manifest serverType bytes <;> cases c.clock <;>
      simp [hput]

theorem settle_id : (settle J serverType c jars r).id = r.id := by
  unfold settle
  split_ifs
  · split
    · split_ifs
      · rfl
      · exact shifted_spec.1
    · rfl
  · rfl

theorem settle_relPath : (settle J serverType c jars r).relPath = r.relPath := by
  unfold settle
  split_ifs
  · split
    · split_ifs
      · rfl
      · exact shifted_spec.2.1
    · rfl
  · rfl

/-- A row whose jar was not read stays. -/
theorem settle_of_not (h : r.relPath ∈ jars → ∀ bytes, c.read r.relPath ≠ .content bytes) : settle J serverType c jars r = r := by
  unfold settle
  split_ifs with hmem
  · split
    · next bytes hread => exact absurd hread (h hmem bytes)
    · rfl
  · rfl

/-- A row whose jar was read has its checksum. -/
theorem settle_checksum (hmem : r.relPath ∈ jars) (hread : c.read r.relPath = .content bytes) :
    (settle J serverType c jars r).checksumSha512 = some (J.sha512 bytes) := by
  rw [settle, if_pos hmem, hread]
  dsimp only
  split_ifs with heq
  · exact heq
  · exact shifted_spec.2.2.2.1

theorem settle_side (hmem : r.relPath ∈ jars) (hread : c.read r.relPath = .content bytes) :
    (settle J serverType c jars r).side = sideAfter J serverType r bytes := by
  rw [settle, if_pos hmem, hread, sideAfter]
  dsimp only
  split_ifs with heq
  · rfl
  · exact shifted_spec.2.2.2.2.1

/-- Once settled, a row stays. -/
theorem settle_settle : settle J serverType c jars (settle J serverType c jars r) = settle J serverType c jars r := by
  by_cases hread : r.relPath ∈ jars ∧ ∃ bytes, c.read r.relPath = .content bytes
  · obtain ⟨hmem, bytes, hread⟩ := hread
    have hchecksum : (settle J serverType c jars r).checksumSha512 = some (J.sha512 bytes) := settle_checksum hmem hread
    rw [settle, settle_relPath, if_pos hmem, hread]
    dsimp only
    rw [if_pos hchecksum]
  · rw [settle_of_not fun hmem bytes hbytes => ?_]
    rw [settle_relPath] at hmem hbytes
    exact hread ⟨hmem, bytes, hbytes⟩

/-! ### The second pass -/

theorem ingestGhost_eq : ingestGhost J serverType others c rows path bytes =
    if ingests J serverType c path bytes then
      (J.manifest serverType bytes).map
        (ghostRow J serverType c path bytes · (findCatalogProvenanceBySha512 (rows ++ others) (J.sha512 bytes)))
    else none := by
  unfold ingestGhost ingests
  cases J.manifest serverType bytes with
  | none => rfl
  | some m =>
    cases c.put.all (· path) <;> cases c.insert path <;> rfl

theorem ingestListed_eq (hread : (∀ r ∈ db, r.relPath ≠ path) → c.read path ≠ .failed) :
    ∃ provenance, ingestListed J serverType others c db rows path =
      .ok (rows ++ (ghostAt J serverType c db provenance path).toList) := by
  unfold ingestListed ghostAt
  by_cases hnew : ∀ r ∈ db, r.relPath ≠ path
  · have hany : ¬ db.any (·.relPath = path) = true := by simpa using hnew
    rw [if_neg hany]
    simp only [if_pos hnew]
    unfold readListedJar
    cases hjar : c.read path with
    | failed => exact absurd hjar (hread hnew)
    | gone => exact ⟨none, by rw [Option.toList_none, List.append_nil]⟩
    | content bytes =>
      refine ⟨findCatalogProvenanceBySha512 (rows ++ others) (J.sha512 bytes), ?_⟩
      dsimp only
      rw [ingestGhost_eq]
  · have hany : db.any (·.relPath = path) = true := by simpa using hnew
    rw [if_pos hany]
    simp only [if_neg hnew]
    exact ⟨none, by rw [Option.toList_none, List.append_nil]⟩

/-- **The second pass adds the ghosts**, each with the provenance that is found when its turn comes. -/
theorem foldlM_ingestListed (hnodup : paths.Nodup) (hread : ∀ path ∈ paths, (∀ r ∈ db, r.relPath ≠ path) → c.read path ≠ .failed) :
    ∃ provenance : Str → Option CatalogProvenance, paths.foldlM (ingestListed J serverType others c db) rows =
      .ok (rows ++ paths.filterMap fun path => ghostAt J serverType c db (provenance path) path) := by
  induction paths generalizing rows with
  | nil => exact ⟨fun _ => none, by rw [List.filterMap_nil, List.append_nil]; rfl⟩
  | cons path paths ih =>
    obtain ⟨hpath, hnodup⟩ := List.nodup_cons.mp hnodup
    obtain ⟨first, hfirst⟩ := @ingestListed_eq J serverType others c db rows path (hread path List.mem_cons_self)
    obtain ⟨provenance, hrest⟩ := @ih (rows ++ (ghostAt J serverType c db first path).toList) hnodup
      fun p hp => hread p (List.mem_cons_of_mem _ hp)
    refine ⟨Function.update provenance path first, ?_⟩
    have hsame : (paths.filterMap fun p => ghostAt J serverType c db (Function.update provenance path first p) p) =
        paths.filterMap fun p => ghostAt J serverType c db (provenance p) p := by
      refine List.filterMap_congr fun p hp => ?_
      rw [Function.update_of_ne]
      rintro rfl
      exact hpath hp
    rw [List.foldlM_cons, hfirst]
    refine hrest.trans ?_
    rw [List.filterMap_cons, Function.update_self, hsame]
    cases ghostAt J serverType c db first path with
    | none => rw [Option.toList_none, List.append_nil]
    | some r => rw [Option.toList_some, List.append_assoc, List.singleton_append]

/-- A jar that cannot be read ends the second pass, if no row tracks it. -/
theorem read_of_ingestListed (h : paths.foldlM (ingestListed J serverType others c db) rows = .ok rows') :
    ∀ path ∈ paths, (∀ r ∈ db, r.relPath ≠ path) → c.read path ≠ .failed := by
  induction paths generalizing rows with
  | nil => exact fun _ hp => absurd hp List.not_mem_nil
  | cons path paths ih =>
    rw [List.foldlM_cons] at h
    obtain ⟨rows1, h1, h⟩ := ok_of_bind h
    intro p hp hnew hfailed
    rcases List.mem_cons.mp hp with rfl | hp
    · have hany : ¬ db.any (·.relPath = p) = true := by simpa using hnew
      rw [ingestListed, if_neg hany, readListedJar, hfailed] at h1
      cases h1
    · exact ih h p hp hnew hfailed

/-! ### The third pass -/

theorem updateShifted_eq (hread : r.relPath ∈ jars → c.read r.relPath ≠ .failed)
    (hrows : ∀ x ∈ rows, x.id = r.id → x = r) : updateShifted J serverType c jars rows r =
      .ok (rows.map fun x => if x.id = r.id then settle J serverType c jars x else x) := by
  have hstay : settle J serverType c jars r = r →
      rows = rows.map fun x => if x.id = r.id then settle J serverType c jars x else x := by
    intro hsettle
    refine (List.map_id' rows).symm.trans (List.map_congr_left fun x hx => ?_)
    split_ifs with hid
    · rw [hrows x hx hid, hsettle]
    · rfl
  unfold updateShifted
  by_cases hmem : r.relPath ∈ jars
  · rw [if_neg (not_not_intro hmem)]
    unfold readListedJar
    cases hjar : c.read r.relPath with
    | failed => exact absurd hjar (hread hmem)
    | gone => exact congrArg _ (hstay (settle_of_not fun _ bytes => by rw [hjar]; nofun))
    | content bytes =>
      dsimp only
      split_ifs with heq
      · refine congrArg _ (hstay ?_)
        rw [settle, if_pos hmem, hjar]
        exact if_pos heq
      · refine congrArg _ (List.map_congr_left fun x hx => ?_)
        have hsame : (shifted J serverType c r bytes).id = r.id := shifted_spec.1
        by_cases hid : x.id = r.id
        · rw [if_pos (hid.trans hsame.symm), if_pos hid, hrows x hx hid, settle, if_pos hmem, hjar]
          dsimp only
          rw [if_neg heq, ← (@shifted_spec J serverType c bytes r).2.2.1]
        · rw [if_neg fun he => hid (he.trans hsame), if_neg hid]
  · rw [if_pos hmem]
    exact congrArg _ (hstay (settle_of_not fun h => absurd h hmem))

/-- **The third pass settles the tracked rows.** -/
theorem foldlM_updateShifted {plugins : List PluginRow} (hdb : Table db) (hsub : plugins.Sublist db)
    (hread : ∀ r ∈ plugins, r.relPath ∈ jars → c.read r.relPath ≠ .failed)
    (hrows : ∀ r ∈ plugins, ∀ x ∈ rows, x.id = r.id → x = r) : plugins.foldlM (updateShifted J serverType c jars) rows =
      .ok (rows.map fun x => if x.id ∈ plugins.map PluginRow.id then settle J serverType c jars x else x) := by
  induction plugins generalizing rows with
  | nil =>
    refine congrArg _ ((List.map_id' rows).symm.trans (List.map_congr_left fun x _ => ?_))
    exact (if_neg List.not_mem_nil).symm
  | cons r plugins ih =>
    have hids : ((r :: plugins).map PluginRow.id).Nodup := hdb.ids.sublist (hsub.map _)
    obtain ⟨hr, hids⟩ := List.nodup_cons.mp hids
    have hne : ∀ p ∈ plugins, p.id ≠ r.id := fun p hp he => hr (List.mem_map.mpr ⟨p, hp, he⟩)
    have hstep : updateShifted J serverType c jars rows r = _ :=
      updateShifted_eq (hread r List.mem_cons_self) (hrows r List.mem_cons_self)
    rw [List.foldlM_cons, hstep]
    refine (ih (List.sublist_of_cons_sublist hsub) (fun p hp => hread p (List.mem_cons_of_mem _ hp)) ?_).trans ?_
    · intro p hp x hx hid
      obtain ⟨y, hy, rfl⟩ := List.mem_map.mp hx
      split_ifs at hid ⊢ with hyr
      · rw [settle_id] at hid
        exact absurd (hid.symm.trans hyr) (hne p hp)
      · exact hrows p (List.mem_cons_of_mem _ hp) y hy hid
    · rw [List.map_map]
      refine congrArg _ (List.map_congr_left fun x _ => ?_)
      rw [Function.comp_apply]
      by_cases hid : x.id = r.id
      · have hout : x.id ∉ plugins.map PluginRow.id := hid ▸ hr
        have hin : x.id ∈ (r :: plugins).map PluginRow.id := List.mem_cons.mpr (.inl hid)
        rw [if_pos hid, if_pos hin, settle_id, if_neg hout]
      · rw [if_neg hid]
        exact if_congr ⟨List.mem_cons_of_mem _, fun h => (List.mem_cons.mp h).resolve_left hid⟩ rfl rfl

/-- A jar that cannot be read ends the third pass, if a row tracks it. -/
theorem read_of_updateShifted {plugins : List PluginRow} (h : plugins.foldlM (updateShifted J serverType c jars) rows = .ok rows') :
    ∀ r ∈ plugins, r.relPath ∈ jars → c.read r.relPath ≠ .failed := by
  induction plugins generalizing rows with
  | nil => exact fun _ hp => absurd hp List.not_mem_nil
  | cons p plugins ih =>
    rw [List.foldlM_cons] at h
    obtain ⟨rows1, h1, h⟩ := ok_of_bind h
    intro r hr hmem hfailed
    rcases List.mem_cons.mp hr with rfl | hr
    · rw [updateShifted, if_neg (not_not_intro hmem), readListedJar, hfailed] at h1
      cases h1
    · exact ih h r hr hmem hfailed

/-! ### The whole -/

theorem ghostAt_eq_some : ghostAt J serverType c db provenance path = some r ↔ (∀ x ∈ db, x.relPath ≠ path) ∧
    ∃ bytes m, c.read path = .content bytes ∧ ingests J serverType c path bytes = true ∧ J.manifest serverType bytes = some m ∧
      r = ghostRow J serverType c path bytes m provenance := by
  unfold ghostAt
  constructor
  · intro h
    split_ifs at h with hnew
    refine ⟨hnew, ?_⟩
    split at h
    · next bytes hread =>
      split_ifs at h with hingests
      obtain ⟨m, hm, rfl⟩ := Option.map_eq_some_iff.mp h
      exact ⟨bytes, m, hread, hingests, hm, rfl⟩
    · cases h
  · rintro ⟨hnew, bytes, m, hread, hingests, hm, rfl⟩
    rw [if_pos hnew, hread]
    dsimp only
    rw [if_pos hingests, hm, Option.map_some]

theorem scan_nodup (h : scan serverType c = .ok jars) : jars.Nodup := by
  unfold scan at h
  split at h <;> cases h
  · exact List.nodup_nil
  · exact List.nodup_dedup _

/-- The rows afterwards: the tracked ones that are kept, settled, and the ghosts. -/
def reconciledRows (J : JarReader) (serverType : ServerType) (c : Calls) (jars : List Str) (db : List PluginRow)
    (provenance : Str → Option CatalogProvenance) : List PluginRow :=
  (dropOrphans jars db).map (settle J serverType c jars) ++
    (jars.insertionSort (· ≤ ·)).filterMap fun path => ghostAt J serverType c db (provenance path) path

variable {prov : Str → Option CatalogProvenance}

theorem mem_reconciledRows : r ∈ reconciledRows J serverType c jars db prov ↔
    (∃ x ∈ db, (x.side = .client ∨ x.relPath ∈ jars) ∧ r = settle J serverType c jars x) ∨
      ∃ path ∈ jars, ghostAt J serverType c db (prov path) path = some r := by
  rw [reconciledRows, List.mem_append, List.mem_map, List.mem_filterMap]
  simp only [dropOrphans, List.mem_filter, decide_eq_true_eq, List.mem_insertionSort, and_assoc, @eq_comm _ _ r]

/-- **What the three passes leave**, if everything that they read can be read. -/
theorem reconcilePlugins_eq (hdb : Table db) (hscan : scan serverType c = .ok jars) (hread : ∀ path ∈ jars, c.read path ≠ .failed)
    (hfresh : ∀ path ∈ jars, ∀ p x, ghostAt J serverType c db p path = some x → ∀ r ∈ db, r.id ≠ c.newId path) :
    ∃ prov, reconcilePlugins J serverType others c db = .ok (reconciledRows J serverType c jars db prov) := by
  have hsorted : (jars.insertionSort (· ≤ ·)).Nodup := (List.perm_insertionSort _ _).nodup_iff.mpr (scan_nodup hscan)
  obtain ⟨prov, hghosts⟩ := @foldlM_ingestListed J serverType others c db (dropOrphans jars db) _ hsorted
    fun path hpath _ => hread path (by simpa using hpath)
  refine ⟨prov, ?_⟩
  have hid : ∀ r ∈ db, ∀ path ∈ jars, ∀ x, ghostAt J serverType c db (prov path) path = some x → x.id ≠ r.id := by
    intro r hr path hpath x hx he
    obtain ⟨-, bytes, m, -, -, -, rfl⟩ := ghostAt_eq_some.mp hx
    exact hfresh path hpath _ _ hx r hr he.symm
  have hrows : ∀ r ∈ db, ∀ x ∈ dropOrphans jars db ++ (jars.insertionSort (· ≤ ·)).filterMap
      (fun path => ghostAt J serverType c db (prov path) path), x.id = r.id → x = r := by
    intro r hr x hx he
    rcases List.mem_append.mp hx with hx | hx
    · exact hdb.eq_of_id (List.mem_of_mem_filter hx) hr he
    · obtain ⟨path, hpath, hx⟩ := List.mem_filterMap.mp hx
      exact absurd he (hid r hr path (by simpa using hpath) x hx)
  have hpass : db.foldlM (updateShifted J serverType c jars) _ = _ :=
    foldlM_updateShifted hdb (List.Sublist.refl db) (fun r _ hmem => hread _ hmem) hrows
  simp only [reconcilePlugins, hscan, hghosts, Except.bind]
  refine hpass.trans (congrArg _ ?_)
  rw [List.map_append, reconciledRows]
  refine congrArg₂ _ (List.map_congr_left fun x hx => if_pos ?_) ?_
  · exact List.mem_map_of_mem (List.mem_of_mem_filter hx)
  · refine (List.map_congr_left fun x hx => if_neg ?_).trans (List.map_id' _)
    intro hmem
    obtain ⟨r, hr, he⟩ := List.mem_map.mp hmem
    obtain ⟨path, hpath, hx⟩ := List.mem_filterMap.mp hx
    exact hid r hr path (by simpa using hpath) x hx he.symm

/-- What is not read ends the reconciliation. -/
theorem read_of_reconcilePlugins (h : reconcilePlugins J serverType others c db = .ok rows) :
    ∃ jars, scan serverType c = .ok jars ∧ ∀ path ∈ jars, c.read path ≠ .failed := by
  obtain ⟨jars, hscan, h⟩ := ok_of_bind h
  obtain ⟨rows2, h2, h3⟩ := ok_of_bind h
  refine ⟨jars, hscan, fun path hpath => ?_⟩
  by_cases hnew : ∀ r ∈ db, r.relPath ≠ path
  · exact read_of_ingestListed h2 path (by simpa using hpath) hnew
  · push Not at hnew
    obtain ⟨r, hr, rfl⟩ := hnew
    exact read_of_updateShifted h3 r hr hpath

/-! ## When rows and jars agree -/

/-- What tells the rows apart before tells them apart afterwards. -/
theorem nodup_reconciledRows {β : Type} {f : PluginRow → β} {g : Str → β} (hjars : jars.Nodup) (hdb : (db.map f).Nodup)
    (hsettle : ∀ x, f (settle J serverType c jars x) = f x) (hg : Function.Injective g)
    (hghost : ∀ path x, ghostAt J serverType c db (prov path) path = some x → f x = g path ∧ ∀ r ∈ db, f r ≠ g path) :
    ((reconciledRows J serverType c jars db prov).map f).Nodup := by
  have hsorted : (jars.insertionSort (· ≤ ·)).Nodup := (List.perm_insertionSort _ _).nodup_iff.mpr hjars
  have hmap : f ∘ settle J serverType c jars = f := funext hsettle
  rw [reconciledRows, List.map_append, List.map_map, hmap, List.nodup_append']
  refine ⟨hdb.sublist (List.filter_sublist.map f), ?_, ?_⟩
  · rw [List.map_filterMap]
    refine List.Nodup.filterMap (fun path path' b hb hb' => ?_) hsorted
    obtain ⟨x, hx, rfl⟩ := Option.map_eq_some_iff.mp hb
    obtain ⟨x', hx', he⟩ := Option.map_eq_some_iff.mp hb'
    exact hg ((hghost path x hx).1.symm.trans (he.symm.trans (hghost path' x' hx').1))
  · intro b hb hmem
    obtain ⟨r, hr, rfl⟩ := List.mem_map.mp hb
    obtain ⟨x, hx, he⟩ := List.mem_map.mp hmem
    obtain ⟨path, -, hx⟩ := List.mem_filterMap.mp hx
    obtain ⟨hpath, hapart⟩ := hghost path x hx
    exact hapart r (List.mem_of_mem_filter hr) (he.symm.trans hpath)

theorem table_reconciledRows (hdb : Table db) (hjars : jars.Nodup) (hfresh : c.Fresh db) :
    Table (reconciledRows J serverType c jars db prov) where
  ids := nodup_reconciledRows hjars hdb.ids (fun _ => settle_id) hfresh.injective fun path x hx => by
    obtain ⟨-, bytes, m, -, -, -, rfl⟩ := ghostAt_eq_some.mp hx
    exact ⟨rfl, hfresh.unused path⟩
  paths := nodup_reconciledRows hjars hdb.paths (fun _ => settle_relPath) Function.injective_id fun path x hx => by
    obtain ⟨hnew, bytes, m, -, -, -, rfl⟩ := ghostAt_eq_some.mp hx
    exact ⟨rfl, hnew⟩

/-- What is not of a client-only plugin is on disk. -/
theorem listed_reconciledRows (hr : r ∈ reconciledRows J serverType c jars db prov) : r.side = .client ∨ r.relPath ∈ jars := by
  rcases mem_reconciledRows.mp hr with ⟨x, hx, hor, rfl⟩ | ⟨path, hpath, hx⟩
  · by_cases hmem : x.relPath ∈ jars
    · refine .inr ?_
      rw [settle_relPath]
      exact hmem
    · rw [settle_of_not fun h => absurd h hmem]
      exact hor
  · obtain ⟨-, bytes, m, -, -, -, rfl⟩ := ghostAt_eq_some.mp hx
    exact .inr hpath

/-- Another reconciliation with the same outcomes changes nothing. -/
theorem reconcilePlugins_again (hdb : Table db) (hscan : scan serverType c = .ok jars)
    (hread : ∀ path ∈ jars, c.read path ≠ .failed) (hfresh : c.Fresh db) :
    reconcilePlugins J serverType others c (reconciledRows J serverType c jars db prov) =
      .ok (reconciledRows J serverType c jars db prov) := by
  set rows := reconciledRows J serverType c jars db prov with hrows
  have hkept : ∀ r ∈ rows, r.side = .client ∨ r.relPath ∈ jars := fun r hr => listed_reconciledRows hr
  have hsettled : ∀ r ∈ rows, settle J serverType c jars r = r := by
    intro r hr
    rcases mem_reconciledRows.mp hr with ⟨x, hx, hor, rfl⟩ | ⟨path, hpath, hx⟩
    · exact settle_settle
    · obtain ⟨-, bytes, m, hbytes, -, -, rfl⟩ := ghostAt_eq_some.mp hx
      have hpath' : (ghostRow J serverType c path bytes m (prov path)).relPath = path := rfl
      rw [settle, hpath', if_pos hpath, hbytes]
      exact if_pos rfl
  have hnone : ∀ path ∈ jars, ∀ p, ghostAt J serverType c rows p path = none := by
    intro path hpath p
    cases hghost : ghostAt J serverType c rows p path with
    | none => rfl
    | some x =>
      obtain ⟨hnew, bytes, m, hbytes, hingests, hm, -⟩ := ghostAt_eq_some.mp hghost
      by_cases hold : ∀ r ∈ db, r.relPath ≠ path
      · -- it would have been ingested before
        have hx : ghostAt J serverType c db (prov path) path = some _ :=
          ghostAt_eq_some.mpr ⟨hold, bytes, m, hbytes, hingests, hm, rfl⟩
        exact absurd rfl (hnew _ (mem_reconciledRows.mpr (.inr ⟨path, hpath, hx⟩)))
      · push Not at hold
        obtain ⟨r, hr, rfl⟩ := hold
        exact absurd settle_relPath (hnew _ (mem_reconciledRows.mpr (.inl ⟨r, hr, .inr hpath, rfl⟩)))
  obtain ⟨prov', heq⟩ : ∃ prov', reconcilePlugins J serverType others c rows = .ok (reconciledRows J serverType c jars rows prov') := by
    refine reconcilePlugins_eq (table_reconciledRows hdb (scan_nodup hscan) hfresh) hscan hread fun path hpath p x hx => ?_
    rw [hnone path hpath p] at hx
    cases hx
  rw [heq]
  have hdrop : dropOrphans jars rows = rows := List.filter_eq_self.mpr fun r hr => decide_eq_true (hkept r hr)
  have hghosts : (jars.insertionSort (· ≤ ·)).filterMap (fun path => ghostAt J serverType c rows (prov' path) path) = [] :=
    List.filterMap_eq_nil_iff.mpr fun path hpath => hnone path (by simpa using hpath) _
  rw [reconciledRows, hdrop, hghosts, List.append_nil]
  exact congrArg _ ((List.map_congr_left hsettled).trans (List.map_id' rows))

/-- The row of a tracked path afterwards. -/
theorem eq_settle (hdb : Table db) (hr : r ∈ db) (hx : r' ∈ reconciledRows J serverType c jars db prov)
    (hpath : r'.relPath = r.relPath) : r' = settle J serverType c jars r := by
  rcases mem_reconciledRows.mp hx with ⟨x, hdbx, -, rfl⟩ | ⟨path, -, hx⟩
  · rw [settle_relPath] at hpath
    rw [hdb.eq_of_path hdbx hr hpath]
  · obtain ⟨hnew, bytes, m, -, -, -, rfl⟩ := ghostAt_eq_some.mp hx
    exact absurd hpath.symm (hnew r hr)

/-- The hashes of a row whose jar was read. -/
theorem settle_sha256 (hcons : r.Consistent J) (hmem : r.relPath ∈ jars) (hread : c.read r.relPath = .content bytes)
    (hclean : r.checksumSha512 ≠ some (J.sha512 bytes) → c.put.any (· r.relPath) = false → ∀ h ∈ r.sha256, h = J.sha256 bytes) :
    ∀ h ∈ (settle J serverType c jars r).sha256, h = J.sha256 bytes := by
  rw [settle, if_pos hmem, hread]
  dsimp only
  split_ifs with heq
  · exact hcons bytes heq
  · rw [shifted_spec.2.2.2.2.2]
    cases hput : c.put.any (· r.relPath) with
    | true =>
      intro h hh
      exact (Option.some.inj hh).symm
    | false => exact hclean heq hput

/-- **If no listed jar is a client's afterwards and no stale hash stays, rows and jars agree.** -/
theorem reconciled_of_trackable (hdb : Table db) (hcons : ∀ r ∈ db, r.Consistent J) (hfresh : c.Fresh db)
    (hscan : scan serverType c = .ok jars) (hread : ∀ path ∈ jars, c.read path ≠ .failed)
    (h : Trackable J serverType c jars db) :
    Reconciled J serverType others c jars db (reconciledRows J serverType c jars db prov) where
  listed := fun r hr hside => (listed_reconciledRows hr).resolve_left hside
  tracked := by
    intro path hpath hnot
    have hcontent : ∃ bytes, c.read path = .content bytes := by
      cases hbytes : c.read path with
      | gone => exact absurd (.inl hbytes) hnot
      | failed => exact absurd hbytes (hread path hpath)
      | content bytes => exact ⟨bytes, rfl⟩
    obtain ⟨bytes, hbytes⟩ := hcontent
    obtain ⟨htracked, hghost⟩ := h path hpath bytes hbytes
    by_cases hnew : ∀ r ∈ db, r.relPath ≠ path
    · have hingests : ingests J serverType c path bytes = true := by
        by_contra hfails
        exact hnot (.inr ⟨hnew, bytes, hbytes, Bool.eq_false_iff.mpr hfails⟩)
      obtain ⟨m, hm⟩ : ∃ m, J.manifest serverType bytes = some m := by
        simp only [ingests, Bool.and_eq_true, Option.isSome_iff_exists] at hingests
        exact hingests.1.1
      refine ⟨ghostRow J serverType c path bytes m (prov path), mem_reconciledRows.mpr (.inr ⟨path, hpath, ?_⟩), ?_, rfl⟩
      · exact ghostAt_eq_some.mpr ⟨hnew, bytes, m, hbytes, hingests, hm, rfl⟩
      · exact hghost hnew hingests m hm
    · push Not at hnew
      obtain ⟨r, hr, rfl⟩ := hnew
      refine ⟨settle J serverType c jars r, mem_reconciledRows.mpr (.inl ⟨r, hr, .inr hpath, rfl⟩), ?_, settle_relPath⟩
      rw [settle_side hpath hbytes]
      exact (htracked r hr rfl).1
  untracked := by
    intro r hr hexcepted _
    rcases mem_reconciledRows.mp hr with ⟨x, hx, -, rfl⟩ | ⟨path, hpath, hx⟩
    · rw [settle_relPath] at hexcepted
      rcases hexcepted with hgone | ⟨hnew, -⟩
      · rw [settle_of_not fun _ bytes => by rw [hgone]; nofun]
        exact hx
      · exact absurd rfl (hnew x hx)
    · obtain ⟨-, bytes, m, hbytes, hingests, -, rfl⟩ := ghostAt_eq_some.mp hx
      rcases hexcepted with hgone | ⟨-, bytes', hbytes', hfails⟩
      · cases hbytes.symm.trans hgone
      · cases hbytes.symm.trans hbytes'
        exact Bool.noConfusion (hingests.symm.trans hfails)
  hashes := by
    intro r hr hside bytes hbytes
    have hmem := (listed_reconciledRows hr).resolve_left hside
    rcases mem_reconciledRows.mp hr with ⟨x, hx, -, rfl⟩ | ⟨path, hpath, hx⟩
    · rw [settle_relPath] at hmem hbytes
      have hclean := ((h _ hmem bytes hbytes).1 x hx rfl).2
      exact ⟨settle_checksum hmem hbytes, settle_sha256 (hcons x hx) hmem hbytes hclean⟩
    · obtain ⟨-, bytes', m, hbytes', -, -, rfl⟩ := ghostAt_eq_some.mp hx
      cases hbytes'.symm.trans hbytes
      refine ⟨rfl, fun h hh => ?_⟩
      obtain ⟨put, -, rfl⟩ := Option.map_eq_some_iff.mp hh
      rfl
  again := reconcilePlugins_again hdb hscan hread hfresh

/-- If rows and jars agree, no listed jar is a client's and no stale hash stays. -/
theorem trackable_of_reconciled (hdb : Table db)
    (h : Reconciled J serverType others c jars db (reconciledRows J serverType c jars db prov)) :
    Trackable J serverType c jars db := by
  intro path hpath bytes hbytes
  constructor
  · rintro r hr rfl
    have hnot : ¬ Excepted J serverType c db r.relPath := by
      rintro (hgone | ⟨hnew, -⟩)
      · cases hgone.symm.trans hbytes
      · exact hnew r hr rfl
    obtain ⟨x, hx, hside, hxpath⟩ := h.tracked _ hpath hnot
    obtain rfl := eq_settle hdb hr hx hxpath
    refine ⟨settle_side hpath hbytes ▸ hside, fun hne hput => ?_⟩
    rw [← hxpath] at hbytes
    have hhashes := (h.hashes _ hx hside bytes hbytes).2
    rw [hxpath] at hbytes
    rw [settle, if_pos hpath, hbytes] at hhashes
    dsimp only at hhashes
    rw [if_neg hne, shifted_spec.2.2.2.2.2, hput] at hhashes
    exact hhashes
  · intro hnew hingests m hm
    have hnot : ¬ Excepted J serverType c db path := by
      rintro (hgone | ⟨-, bytes', hbytes', hfails⟩)
      · cases hgone.symm.trans hbytes
      · cases hbytes.symm.trans hbytes'
        exact Bool.noConfusion (hingests.symm.trans hfails)
    obtain ⟨x, hx, hside, hxpath⟩ := h.tracked _ hpath hnot
    rcases mem_reconciledRows.mp hx with ⟨y, hy, -, rfl⟩ | ⟨path', -, hx⟩
    · rw [settle_relPath] at hxpath
      exact absurd hxpath (hnew y hy)
    · obtain ⟨-, bytes', m', hbytes', -, hm', rfl⟩ := ghostAt_eq_some.mp hx
      obtain rfl : path' = path := hxpath
      cases hbytes.symm.trans hbytes'
      cases hm.symm.trans hm'
      exact hside

/-- **When rows and jars agree after a reconciliation**: exactly where, unless the listing or the read of a listed
jar fails, no listed jar is a client's afterwards and no row of a changed jar keeps the hash of another content. -/
theorem reconciled_iff (hdb : Table db) (hcons : ∀ r ∈ db, r.Consistent J) (hfresh : c.Fresh db) :
    ((∀ jars rows, scan serverType c = .ok jars → reconcilePlugins J serverType others c db = .ok rows →
        Reconciled J serverType others c jars db rows) ∧
      (∀ e, scan serverType c = .error e → rowsAfter J serverType others c db = db) ∧
      ∀ jars, scan serverType c = .ok jars → (∃ path ∈ jars, c.read path = .failed) →
        rowsAfter J serverType others c db = db) ↔
    ∀ jars, scan serverType c = .ok jars → (∀ path ∈ jars, c.read path ≠ .failed) → Trackable J serverType c jars db := by
  have hunused : ∀ {jars : List Str}, ∀ path ∈ jars, ∀ p x, ghostAt J serverType c db p path = some x →
      ∀ r ∈ db, r.id ≠ c.newId path := fun path _ _ _ _ => hfresh.unused path
  constructor
  · rintro ⟨h, -, -⟩ jars hscan hread
    obtain ⟨prov, heq⟩ : ∃ prov, reconcilePlugins J serverType others c db = .ok (reconciledRows J serverType c jars db prov) :=
      reconcilePlugins_eq hdb hscan hread hunused
    exact trackable_of_reconciled hdb (h jars _ hscan heq)
  · intro h
    refine ⟨fun jars rows hscan hrows => ?_, fun e he => ?_, fun jars hscan hfails => ?_⟩
    · obtain ⟨jars', hscan', hread⟩ := read_of_reconcilePlugins hrows
      cases hscan.symm.trans hscan'
      obtain ⟨prov, heq⟩ : ∃ prov, reconcilePlugins J serverType others c db = .ok (reconciledRows J serverType c jars db prov) :=
        reconcilePlugins_eq hdb hscan hread hunused
      cases hrows.symm.trans heq
      exact reconciled_of_trackable hdb hcons hfresh hscan hread (h jars hscan hread)
    · rw [rowsAfter, reconcilePlugins, he]
      rfl
    · obtain ⟨path, hpath, hfailed⟩ := hfails
      unfold rowsAfter
      split
      · next rows hrows =>
        obtain ⟨jars', hscan', hread⟩ := read_of_reconcilePlugins hrows
        cases hscan.symm.trans hscan'
        exact absurd hfailed (hread path hpath)
      · rfl

/-! ## A jar that has changed -/

def oldJar : Bytes := [111, 108, 100]
def newJar : Bytes := [110, 101, 119]

/-- The digests of the two jars; neither is a zip file, so that their manifests are empty. -/
def reader : JarReader where
  sha512 bytes :=
    if bytes = oldJar then
      str "a6d96fa05fb243a13082a21195ebd126fc42f2f158cf5e0042e4f956b60d7edb4b363bcd41ce433b33b7024303d34f0ecaad5071841bd3ada3e99d68f00b89b2"
    else if bytes = newJar then
      str "aa54def9e0bb11c1ebbfc97a9ee63af9e95c4fdf1d032b1ddcc0f21661f748651d2b2b8fb94e9ae041780554db29815daa1c0fe991ddae54eff0c4c28cd9d20c"
    else []
  sha256 bytes :=
    if bytes = oldJar then str "cba06b5736faf67e54b07b561eae94395e774c517a7d910a54369e1263ccfbd4"
    else if bytes = newJar then str "11507a0e2f5e69d5dfa40a62a1bd7b6ee57e6bcd85c67c9b8431b36fff21c437"
    else []
  manifest _ _ := some ⟨[], [], [], [], .both⟩

/-- The row of the old jar. -/
def oldRow : PluginRow where
  id := 0
  relPath := str "mods/a.jar"
  filename := str "a.jar"
  displayName := str "a"
  description := none
  loaderType := .mod
  source := .loc
  sourceProjectId := none
  sourceVersionId := none
  versionNumber := none
  checksumSha512 := some (reader.sha512 oldJar)
  sha256 := some (reader.sha256 oldJar)
  sizeBytes := some 3
  enabled := true
  installedBy := none
  createdAt := 0
  updatedAt := 0
  modIdentifier := none
  provides := []
  dependencies := []
  mcVersions := []
  side := .both
  catalogDependencies := []

/-- The restore has put the new one in its place; the cache takes it, or does not. -/
def restored (put : Bool) : Calls where
  listing := .entries [⟨str "a.jar", false⟩]
  read path := if path = str "mods/a.jar" then .content newJar else .gone
  put := some fun _ => put
  insert _ := true
  clock := some fun _ => 1
  utcNow _ := 1
  newId path := Encodable.encode path + 1

theorem oldRow_table : Table [oldRow] := ⟨List.nodup_singleton _, List.nodup_singleton _⟩

theorem oldRow_consistent : ∀ r ∈ [oldRow], r.Consistent reader := by
  intro r hr bytes hbytes h hh
  obtain rfl := List.mem_singleton.mp hr
  have hold : bytes = oldJar := by
    by_contra hne
    have hsame : reader.sha512 oldJar = reader.sha512 bytes := Option.some.inj hbytes
    by_cases hnew : bytes = newJar
    · rw [hnew] at hsame
      simp only [reader, if_pos, if_neg (show newJar ≠ oldJar by decide)] at hsame
      exact absurd (str_injective hsame) (by simp)
    · simp only [reader, if_pos, if_neg hne, if_neg hnew] at hsame
      exact absurd hsame (str_ne_nil (by simp))
  rw [hold]
  exact (Option.some.inj hh).symm

theorem restored_fresh (put : Bool) : (restored put).Fresh [oldRow] where
  injective := fun path path' h => Encodable.encode_injective (Nat.succ.inj h)
  unused := fun path r hr => by
    rw [List.mem_singleton.mp hr]
    exact (Nat.succ_ne_zero _).symm

theorem restored_scan (put : Bool) : scan .fabric (restored put) = .ok [str "mods/a.jar"] := by
  have hjars : diskJars .fabric [⟨str "a.jar", false⟩] = [str "mods/a.jar"] := by decide +kernel
  exact congrArg _ hjars

theorem restored_rows (put : Bool) : ∃ prov, reconcilePlugins reader .fabric [] (restored put) [oldRow] =
    .ok (reconciledRows reader .fabric (restored put) [str "mods/a.jar"] [oldRow] prov) := by
  have hread : ∀ path ∈ [str "mods/a.jar"], (restored put).read path ≠ .failed := by
    intro path hpath
    rw [List.mem_singleton.mp hpath]
    exact nofun
  exact reconcilePlugins_eq oldRow_table (restored_scan put) hread fun path _ _ _ _ => (restored_fresh put).unused path

theorem reconciled_iff_restored : ∃ jars rows, scan .fabric (restored true) = .ok jars ∧
    reconcilePlugins reader .fabric [] (restored true) [oldRow] = .ok rows ∧
    Reconciled reader .fabric [] (restored true) jars [oldRow] rows := by
  obtain ⟨prov, heq⟩ := restored_rows true
  refine ⟨_, _, restored_scan true, heq, ?_⟩
  refine ((reconciled_iff oldRow_table oldRow_consistent (restored_fresh true)).mpr fun jars hscan hread => ?_).1 _ _
    (restored_scan true) heq
  cases (restored_scan true).symm.trans hscan
  intro path hpath bytes hbytes
  obtain rfl := List.mem_singleton.mp hpath
  refine ⟨fun r hr _ => ?_, fun hnew => ?_⟩
  · obtain rfl := List.mem_singleton.mp hr
    refine ⟨?_, fun _ hput => Bool.noConfusion hput⟩
    rw [sideAfter]
    split_ifs
    · decide
    · exact nofun
  · exact absurd rfl (hnew oldRow (List.mem_singleton.mpr rfl))

/-- **A cache that fails leaves the hash of the old jar**: the two hashes of the row describe different jars. -/
theorem not_reconciled : ∃ jars rows, scan .fabric (restored false) = .ok jars ∧
    reconcilePlugins reader .fabric [] (restored false) [oldRow] = .ok rows ∧
    ¬ Reconciled reader .fabric [] (restored false) jars [oldRow] rows := by
  obtain ⟨prov, heq⟩ := restored_rows false
  refine ⟨_, _, restored_scan false, heq, fun h => ?_⟩
  have htracked := trackable_of_reconciled oldRow_table h (str "mods/a.jar") (List.mem_singleton.mpr rfl) newJar rfl
  have hchanged : oldRow.checksumSha512 ≠ some (reader.sha512 newJar) := by decide +kernel
  have hstale := (htracked.1 oldRow (List.mem_singleton.mpr rfl) rfl).2 hchanged rfl (reader.sha256 oldJar) rfl
  exact absurd hstale (by decide +kernel)

end McServerDashboard.Plugins
