import McServerDashboard.Files.AtRest
import McServerDashboard.Files.Import
import McServerDashboard.Properties.Platform

/-!
# The root `server.properties` of an imported server

The import publishes into a file store that meets the law of its root. Each member is written where Storage normalises
its name to, and the platform's keys are applied to the member that is named `server.properties`.

* `rootMember`: the member that is written to the root file last.
* `publishEntries_holds`: what the root file holds after the members.
* **`imported_keys`**: when the root file has the platform's keys as they are required.
-/

namespace McServerDashboard.Files

open Lib Lib.Posix Lib.Properties Fs Properties

variable {σ δ : Type} {fs : FileStore σ δ} (law : RootLaw fs) {d : δ} {raw : String} {s s' : σ} {c data : Bytes}
  {env : ImportEnv δ} {gamePort : Option ℕ} {entries : List (String × Bytes)} {kvs : List (Str × Str)} {key value : Str}

/-! ## The seed -/

/-- Lines that properties are written in. -/
def writtenLines (kvs : List (Str × Str)) : Bytes := kvs.flatMap fun kv => newLine kv.1 kv.2 ++ [lf]

theorem writtenLines_ends (kvs : List (Str × Str)) : writtenLines kvs = [] ∨ [lf] <:+ writtenLines kvs := by
  rcases List.eq_nil_or_concat kvs with rfl | ⟨kvs, kv, rfl⟩
  · exact .inl rfl
  · refine .inr ⟨writtenLines kvs ++ newLine kv.1 kv.2, ?_⟩
    simp [writtenLines]

theorem parse_writtenLines (kvs : List (Str × Str)) :
    (parse (writtenLines kvs)).map (fun p => (p.key, p.value)) = kvs.map fun kv => (merged kv.1, merged kv.2) := by
  rw [parse_entries]
  exact entries_newLines kvs

variable (kvs key) in
theorem filter_writtenLines (h : ∀ k ∈ kvs.map (·.1), k ∈ platformManagedKeys ∧ k ≠ key) :
    (parse (writtenLines kvs)).filter (·.key = key) = [] := by
  rw [List.filter_eq_nil_iff]
  intro p hp
  have hmem : (p.key, p.value) ∈ (parse (writtenLines kvs)).map fun p => (p.key, p.value) := List.mem_map_of_mem hp
  rw [parse_writtenLines] at hmem
  obtain ⟨kv, hkv, heq⟩ := List.mem_map.mp hmem
  obtain ⟨hplatform, hne⟩ := h kv.1 (List.mem_map_of_mem hkv)
  have hkey : kv.1 = p.key := (merged_platform hplatform).symm.trans (congrArg Prod.fst heq)
  rw [decide_eq_true_eq, ← hkey]
  exact hne

variable (kvs key value) in
/-- A platform key that is not among the written ones is written below them. -/
theorem setProperty_writtenLines (h : ∀ k ∈ kvs.map (·.1), k ∈ platformManagedKeys ∧ k ≠ key) :
    setProperty (writtenLines kvs) key value = writtenLines (kvs ++ [(key, value)]) := by
  have hends : ¬ (writtenLines kvs ≠ [] ∧ ¬[lf] <:+ writtenLines kvs) := by
    rintro ⟨hne, hlf⟩
    rcases writtenLines_ends kvs with hnil | hends
    · exact hne hnil
    · exact hlf hends
  rw [setProperty, filter_writtenLines kvs key h]
  simp only [if_true, if_neg hends]
  simp [writtenLines]

/-- **The seed is the platform's half of an empty file.** -/
theorem seedProperties_eq (port : ℕ) (password : Str) :
    seedProperties port password = applyPlatformProperties [] (some port) password none := by
  have hkeys₂ : ∀ k ∈ [portKey], k ∈ platformManagedKeys ∧ k ≠ enableRconKey := by decide
  have hkeys₃ : ∀ k ∈ [portKey, enableRconKey], k ∈ platformManagedKeys ∧ k ≠ rconPortKey := by decide
  have hkeys₄ : ∀ k ∈ [portKey, enableRconKey, rconPortKey], k ∈ platformManagedKeys ∧ k ≠ rconPasswordKey := by decide
  have hvalues : platformValues [] (some (port : ℤ)) password none = [(portKey, str (toString (port : ℤ))),
    (enableRconKey, str "true"), (rconPortKey, str (toString rconPort)), (rconPasswordKey, password)] := rfl
  have h₁ := setProperty_writtenLines [] portKey (str (toString (port : ℤ))) nofun
  have h₂ := setProperty_writtenLines [(portKey, str (toString (port : ℤ)))] enableRconKey (str "true") hkeys₂
  have h₃ := setProperty_writtenLines [(portKey, str (toString (port : ℤ))), (enableRconKey, str "true")] rconPortKey
    (str (toString rconPort)) hkeys₃
  have h₄ := setProperty_writtenLines [(portKey, str (toString (port : ℤ))), (enableRconKey, str "true"),
    (rconPortKey, str (toString rconPort))] rconPasswordKey password hkeys₄
  have hnone := filter_writtenLines [(portKey, str (toString (port : ℤ))), (enableRconKey, str "true"),
    (rconPortKey, str (toString rconPort))] rconPasswordKey hkeys₄
  have hnil : writtenLines [] = [] := rfl
  have hparse : parse [] = [] := rfl
  rw [hnil] at h₁
  rw [seedProperties, h₁]
  simp only [List.nil_append, List.cons_append, h₂, h₃, hnone, List.map_nil, List.getLast?_nil, Option.any_none,
    Bool.false_eq_true, if_false, h₄]
  rw [applyPlatformProperties, hparse]
  simp only [hvalues]
  have hrewrite : ∀ vs : List (Str × Str), rewrite [] [] vs (platformCleared none) = writtenLines vs := by
    intro vs
    simp only [rewrite, List.foldl_nil, List.drop_nil, List.append_nil, List.not_mem_nil, not_false_eq_true,
      decide_true, List.filter_true]
    split
    next hvs => rw [hvs]; rfl
    next => simp [writtenLines]
  rw [hrewrite, Properties.normalize, if_pos ((writtenLines_ends _).resolve_left ?_)]
  simp [writtenLines]

/-! ## The root file -/

/-- The root file holds the data. -/
structure Holds (s : σ) (data : Bytes) : Prop where
  published : law.Published s
  file : (law.root s propertiesRelPath).file = some data

/-- A write of the root file, also as the first of a server. -/
theorem seed_holds (h : fs.writeFile d propertiesRelPath data s = .ok s') : Holds law s' data :=
  ⟨(law.seeded h).1, (law.seeded h).2⟩

variable {law}

/-- **A write leaves the root file alone** unless its name is normalised to it. -/
theorem Holds.write (hs : Holds law s c) (h : fs.writeFile d raw data s = .ok s') :
    Holds law s' (if components raw = [propertiesRelPath] then data else c) := by
  obtain ⟨hpub, p, hp, hwrote⟩ := law.writeFile hs.published h
  rw [← (RelPath.ofRaw_eq_some.mp hp).2.2]
  refine ⟨hpub, ?_⟩
  by_cases hroot : p.parts = [propertiesRelPath]
  · rw [if_pos hroot, hwrote.put hroot]
    rfl
  · rw [if_neg hroot, ← hs.file]
    refine hwrote.changed.file ?_
    rw [hs.file]
    exact fun ht => ht.elim hroot fun hnone => absurd hnone.2 (Option.some_ne_none c)

/-! ## The members -/

/-- What the root file holds after the entries. -/
def rootContent (env : ImportEnv δ) (gamePort : Option ℕ) : ℕ → List (String × Bytes) → Bytes → Bytes
  | _, [], c => c
  | i, (path, data) :: rest, c =>
    if path = exportMetadataFilename then rootContent env gamePort i rest c
    else
      let data := if path = propertiesRelPath then
        applyPlatformProperties data (gamePort.map (↑)) (env.tokens (i + 1)) none else data
      rootContent env gamePort (i + 1) rest (if components path = [propertiesRelPath] then data else c)

/-- **The members are published one after the other.** -/
theorem publishEntries_holds {i : ℕ} (hs : Holds law s c)
    (h : publishEntries fs env gamePort i entries s = (.ok (), s')) :
    Holds law s' (rootContent env gamePort i entries c) := by
  induction entries generalizing i s c with
  | nil =>
    cases h
    exact hs
  | cons entry rest ih =>
    obtain ⟨path, data⟩ := entry
    rw [publishEntries] at h
    rw [rootContent]
    split at h
    next hmeta =>
      rw [if_pos hmeta]
      exact ih hs h
    next hmeta =>
      rw [if_neg hmeta]
      dsimp only at h ⊢
      generalize (if path = propertiesRelPath then _ else data) = data' at h ⊢
      cases hw : fs.writeFile (env.draws (i + 1)) path data' s with
      | error e =>
        rw [hw] at h
        cases h
      | ok s₁ =>
        rw [hw] at h
        exact ih (hs.write hw) h

/-- The member that is written to the root file last. -/
def rootMember (entries : List (String × Bytes)) : Option (String × Bytes) :=
  (entries.filter fun entry => components entry.1 = [propertiesRelPath]).getLast?

theorem rootMember_cons {entry : String × Bytes} : rootMember (entry :: entries) =
    (rootMember entries).or (if components entry.1 = [propertiesRelPath] then some entry else none) := by
  by_cases h : components entry.1 = [propertiesRelPath]
  · simp only [rootMember, List.filter_cons, h, decide_true, if_true]
    cases hf : entries.filter (fun entry => components entry.1 = [propertiesRelPath]) with
    | nil => rfl
    | cons x xs =>
      rw [List.getLast?_cons_cons]
      obtain ⟨y, hy⟩ := Option.isSome_iff_exists.mp (show (x :: xs).getLast?.isSome = true by simp)
      rw [hy]
      rfl
  · simp [rootMember, h]

variable (env gamePort entries) in
/-- The root file holds the member that is written to it last, with the platform's keys if it is named so. -/
theorem rootContent_eq (i : ℕ) (c : Bytes) :
    (rootMember entries = none → rootContent env gamePort i entries c = c) ∧
      ∀ member, rootMember entries = some member →
        (member.1 = propertiesRelPath → ∃ n, rootContent env gamePort i entries c =
          applyPlatformProperties member.2 (gamePort.map (↑)) (env.tokens n) none) ∧
        (member.1 ≠ propertiesRelPath → rootContent env gamePort i entries c = member.2) := by
  induction entries generalizing i c with
  | nil => exact ⟨fun _ => rfl, nofun⟩
  | cons entry rest ih =>
    obtain ⟨path, data⟩ := entry
    rw [rootMember_cons, rootContent]
    by_cases hmeta : path = exportMetadataFilename
    · have hland : components path ≠ [propertiesRelPath] := by
        rw [hmeta]
        decide
      rw [if_pos hmeta, if_neg hland, Option.or_none]
      exact ih i c
    rw [if_neg hmeta]
    dsimp only
    by_cases hland : components path = [propertiesRelPath]
    · rw [if_pos hland, if_pos hland]
      obtain ⟨hnone, hsome⟩ := ih (i + 1) (if path = propertiesRelPath then
        applyPlatformProperties data (gamePort.map (↑)) (env.tokens (i + 1)) none else data)
      cases hrest : rootMember rest with
      | some member => exact ⟨nofun, fun m hm => hsome m (hrest.trans hm)⟩
      | none =>
        refine ⟨nofun, fun m hm => ?_⟩
        cases hm
        rw [hnone hrest]
        exact ⟨fun he => ⟨i + 1, if_pos he⟩, fun hne => if_neg hne⟩
    · rw [if_neg hland, if_neg hland, Option.or_none]
      exact ih (i + 1) c

/-! ## The import -/

variable {communityId : ℕ} {name : Str} {content : Content} {db db' : Db} {row : ServerRow} {metadata : Metadata}

/-- The port of the new row. -/
theorem createRow_gamePort (h : createRow env communityId name metadata db = .ok row) :
    ∃ port, pickLowestFreePort env.portRange db.gamePorts = some port ∧ row.gamePort = some port := by
  obtain ⟨-, -, h⟩ := ok_of_bind h
  obtain ⟨serverType, -, h⟩ := ok_of_bind h
  obtain ⟨-, -, h⟩ := ok_of_bind h
  obtain ⟨-, -, h⟩ := ok_of_bind h
  obtain ⟨port, hport, h⟩ := ok_of_bind h
  obtain ⟨slug, -, h⟩ := ok_of_bind h
  obtain ⟨name, -, h⟩ := ok_of_bind h
  obtain ⟨-, -, h⟩ := ok_of_bind h
  cases h
  exact ⟨port, of_orRaise hport, rfl⟩

variable (law) in
/-- **What an import that succeeds publishes at the root.** -/
theorem import_holds (h : importServer fs env communityId name content db s = (.ok row, db', s')) :
    ∃ port, pickLowestFreePort env.portRange db.gamePorts = some port ∧
      Holds law s' (rootContent env (some port) 0 (importEntries env.caps content).yielded
        (applyPlatformProperties [] (some port) (env.tokens 0) none)) := by
  unfold importServer at h
  split at h
  · cases h
  next metadata hcheck =>
  cases hrow : createRow env communityId name metadata db with
  | error e =>
    simp only [createServer, hrow] at h
    cases h
  | ok row₁ =>
    obtain ⟨port, hport, hgame⟩ := createRow_gamePort hrow
    simp only [createServer, hrow, hgame, Option.getD_some] at h
    cases hseed : fs.writeFile (env.draws 0) propertiesRelPath (seedProperties port (env.tokens 0)) s with
    | error e =>
      simp only [hseed] at h
      cases h
    | ok s₁ =>
      have hs₁ := seed_holds law hseed
      rw [seedProperties_eq] at hs₁
      have hpublish : publishWorkingSet fs env (some port) content s₁ =
          publishEntries fs env (some port) 0 (importEntries env.caps content).yielded s₁ := by
        rw [publishWorkingSet, checkImport_eq_ok hcheck]
      simp only [hseed, hgame, hpublish] at h
      cases hentries : publishEntries fs env (some port) 0 (importEntries env.caps content).yielded s₁ with
      | mk r s₂ =>
      rw [hentries] at h
      cases r with
      | error e => cases h
      | ok u =>
        obtain rfl : s₂ = s' := congrArg (fun x => x.2.2) h
        exact ⟨port, hport, publishEntries_holds hs₁ hentries⟩

/-- The platform's keys in a file are as they are required. -/
def AsRequired (env : ImportEnv δ) (port : ℕ) (data published : Bytes) : Prop :=
  ∃ n, ∀ key ∈ platformManagedKeys,
    values published key = values (applyPlatformProperties data (some port) (env.tokens n) none) key

/-- **The platform's keys of an imported server**: they are as `apply_platform_properties` gives them for the new server,
of the member that is written to the root file last, if and only if that member is named `server.properties`, or there
is none, or the member has them so already. -/
theorem imported_keys (law : RootLaw fs)
    (h : importServer fs env communityId name content db s = (.ok row, db', s')) :
    ∃ port, pickLowestFreePort env.portRange db.gamePorts = some port ∧
      (AsRequired env port (((rootMember (importEntries env.caps content).yielded).map (·.2)).getD [])
          (law.properties s') ↔
        ∀ member, rootMember (importEntries env.caps content).yielded = some member →
          member.1 = propertiesRelPath ∨ ∃ n, changedPlatformManagedKeys
            (applyPlatformProperties member.2 (some port) (env.tokens n) none) member.2 = []) := by
  obtain ⟨port, hport, hholds⟩ := import_holds law h
  refine ⟨port, hport, ?_⟩
  rw [RootLaw.properties, hholds.file, Option.getD_some]
  obtain ⟨hnone, hsome⟩ := rootContent_eq env (some port) (importEntries env.caps content).yielded 0
    (applyPlatformProperties [] (some port) (env.tokens 0) none)
  cases hmember : rootMember (importEntries env.caps content).yielded with
  | none =>
    rw [hnone hmember]
    refine ⟨fun _ _ hm => ?_, fun _ => ⟨0, fun _ _ => rfl⟩⟩
    cases hm
  | some member =>
    obtain ⟨hnamed, hother⟩ := hsome member hmember
    by_cases hname : member.1 = propertiesRelPath
    · obtain ⟨n, hn⟩ := hnamed hname
      rw [hn]
      refine ⟨fun _ m hm => .inl ?_, fun _ => ⟨n, fun _ _ => rfl⟩⟩
      cases hm
      exact hname
    · rw [hother hname]
      constructor
      · rintro ⟨n, hn⟩ m hm
        cases hm
        exact .inr ⟨n, changed_eq_nil.mpr hn⟩
      · intro hm
        obtain ⟨n, hn⟩ := (hm member rfl).resolve_left hname
        exact ⟨n, changed_eq_nil.mp hn⟩

/-! ### Two imports -/

/-- A deployment. -/
def newEnv {δ : Type} (draws : ℕ → δ) : ImportEnv δ where
  caps := ⟨1024, 16⟩
  portRange := ⟨25565, 25600, []⟩
  bedrockPortRange := none
  loads _ := .value (.obj [(str "format", .int 1), (str "mc_edition", .str (str "java")),
    (str "mc_version", .str (str "1.21")), (str "server_type", .str (str "vanilla"))])
  text _ := []
  configValid := true
  offers _ _ := true
  newId := 1
  slug := some "abcdef"
  tokens _ := str "secret"
  takes _ := true
  draws := draws

/-- A zip of a descriptor and of a file of properties. -/
def propertiesZip (name : String) (data : Bytes) : Content where
  bytes := []
  zip := some [⟨exportMetadataFilename, 0, [], .whole⟩, ⟨name, 0, [data], .whole⟩]
  tarGz := none

/-- The port of the source server. -/
def sourceProperties : Bytes := encode (str "server-port=1\n")

/-- The import of such a zip as the first server, on the filesystem. -/
def importToDisk (name : String) : Except ImportError ServerRow × Db × Store :=
  importServer (fsStore 1) (newEnv fun n => ⟨n, "s", "v"⟩) 1 (str "new") (propertiesZip name sourceProperties) ⟨[], []⟩
    ⟨Disk.empty, fun _ => []⟩

/-- The same on the object store. -/
def importToBucket (name : String) : Except ImportError ServerRow × Db × ObjStore :=
  importServer (objStore 1) (newEnv fun n => ⟨n, "v"⟩) 1 (str "new") (propertiesZip name sourceProperties) ⟨[], []⟩
    ⟨Obj.Bucket.empty, fun _ => []⟩

/-- A state whose root file has the port of the source server. -/
theorem not_asRequired {env : ImportEnv δ} {data published : Bytes} (h : values published portKey = [str "1"]) :
    ¬ AsRequired env 25565 data published := by
  rintro ⟨n, hn⟩
  have hkey := hn portKey (by decide)
  rw [h] at hkey
  have happlied : [str "1"] = [str "25565"] := hkey.trans (applied data _ (env.tokens n) none).port
  exact absurd happlied (by decide)

/-- Under another spelling, the port of the source server is published. -/
theorem spelled_member_published : (importToDisk "./server.properties").1.isOk = true ∧
    rootMember (importEntries smallCaps (propertiesZip "./server.properties" sourceProperties)).yielded =
      some ("./server.properties", sourceProperties) ∧
    ¬ AsRequired (newEnv fun n => (⟨n, "s", "v"⟩ : Draw)) 25565 sourceProperties
      ((fsRoot 1).properties (importToDisk "./server.properties").2.2) :=
  ⟨by decide +kernel, by decide +kernel, not_asRequired (by decide +kernel)⟩

theorem rootMember_named (draws : ℕ → δ) :
    rootMember (importEntries (newEnv draws).caps (propertiesZip "server.properties" sourceProperties)).yielded =
      some ("server.properties", sourceProperties) := by
  change rootMember (importEntries smallCaps _).yielded = _
  decide +kernel

theorem exists_of_isOk {ε α β γ : Type} {x : Except ε α × β × γ} (h : x.1.isOk = true) : ∃ a b c, x = (.ok a, b, c) := by
  obtain ⟨r, b, c⟩ := x
  cases r with
  | error e => cases h
  | ok a => exact ⟨a, b, c, rfl⟩

/-- A member that is named `server.properties` has the platform's keys applied to it, on both backends. -/
theorem imported_keys_named :
    (∃ row db' s', importToDisk "server.properties" = (.ok row, db', s') ∧ ∃ port,
      AsRequired (newEnv fun n => (⟨n, "s", "v"⟩ : Draw)) port sourceProperties ((fsRoot 1).properties s')) ∧
    ∃ row db' s', importToBucket "server.properties" = (.ok row, db', s') ∧ ∃ port,
      AsRequired (newEnv fun n => (⟨n, "v"⟩ : ObjDraw)) port sourceProperties ((objRoot 1).properties s') := by
  have hdisk : (importToDisk "server.properties").1.isOk = true := by decide +kernel
  have hbucket : (importToBucket "server.properties").1.isOk = true := by decide +kernel
  have hnamed : ∀ (P : String × Bytes → Prop) (member : String × Bytes),
      some ("server.properties", sourceProperties) = some member → member.1 = propertiesRelPath ∨ P member := by
    rintro P _ ⟨⟩
    exact .inl rfl
  obtain ⟨row, db', s', hrun⟩ := exists_of_isOk hdisk
  obtain ⟨row₂, db₂, s₂, hrun₂⟩ := exists_of_isOk hbucket
  obtain ⟨port, -, hiff⟩ := imported_keys (fsRoot 1) hrun
  obtain ⟨port₂, -, hiff₂⟩ := imported_keys (objRoot 1) hrun₂
  rw [rootMember_named] at hiff hiff₂
  exact ⟨⟨row, db', s', hrun, port, hiff.mpr (hnamed _)⟩, row₂, db₂, s₂, hrun₂, port₂, hiff₂.mpr (hnamed _)⟩

end McServerDashboard.Files
