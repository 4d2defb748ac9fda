import McServerDashboard.Files.Import
import McServerDashboard.Lib.Writes

/-!
# Rejected archives

* `Faithful`: the store refuses the paths that `RelPath` refuses, and writes the others.
* `isClean`: what the dry run does not look at.
* **`rejected_leaves_nothing`**: when an import or an upload that is rejected leaves nothing behind.
-/

namespace McServerDashboard.Files

open Lib Lib.Posix Properties

variable {σ δ : Type} {fs : FileStore σ δ} {files : σ → Path → Option Bytes} {env : ImportEnv δ} {caps : Caps}
  {content : Content} {db : Db} {s s' : σ} {entries : List (String × Bytes)} {metadata : Metadata} {row : ServerRow}

/-- **Storage rejects exactly the paths that `RelPath` rejects and otherwise succeeds.** -/
structure Faithful (fs : FileStore σ δ) (files : σ → Path → Option Bytes) : Prop where
  rejects : ∀ d raw data s, RelPath.ofRaw raw = none → fs.writeFile d raw data s = .error (.invalidFilePath raw .invalidPath)
  writes : ∀ d raw data s p, RelPath.ofRaw raw = some p →
    ∃ s', fs.writeFile d raw data s = .ok s' ∧ files s' = Function.update (files s) p.parts (some data)

/-- No component of the name has a control character. -/
def isClean (name : String) : Bool := (components name).all fun part => part.toList.all (!isControl ·)

/-- The files once entries are written over them. -/
def overwritten (dirPath : String) (entries : List (String × Bytes)) (files : Path → Option Bytes) : Path → Option Bytes :=
  entries.foldl (fun files entry => Function.update files (components (join dirPath entry.1)) (some entry.2)) files

/-! ## Writes -/

theorem ofRaw_clean {dirPath name : String} {d : RelPath} (hd : RelPath.ofRaw dirPath = some d)
    (hname : checkEntryPath name = .ok ()) : (RelPath.ofRaw (join dirPath name)).isSome ↔ isClean name = true := by
  rw [ofRaw_join hd hname, isClean, List.all_eq_true]

/-- A write of an entry: of a clean name it is performed, of another it is refused. -/
theorem Faithful.write (hfs : Faithful fs files) {dirPath name : String} {p : RelPath} (hd : RelPath.ofRaw dirPath = some p)
    (hname : checkEntryPath name = .ok ()) (d : δ) (data : Bytes) (s : σ) :
    (isClean name = true → ∃ s', fs.writeFile d (join dirPath name) data s = .ok s' ∧
        files s' = Function.update (files s) (components (join dirPath name)) (some data)) ∧
      (isClean name = false →
        fs.writeFile d (join dirPath name) data s = .error (.invalidFilePath (join dirPath name) .invalidPath)) := by
  constructor
  · intro hclean
    obtain ⟨q, hq⟩ := Option.isSome_iff_exists.mp ((ofRaw_clean hd hname).mpr hclean)
    obtain ⟨s', hs', hfiles⟩ := hfs.writes d _ data s q hq
    exact ⟨s', hs', by rw [hfiles, (RelPath.ofRaw_eq_some.mp hq).2.2]⟩
  · intro hclean
    refine hfs.rejects d _ data s (Option.not_isSome_iff_eq_none.mp fun hsome => ?_)
    rw [(ofRaw_clean hd hname).mp hsome] at hclean
    cases hclean

/-! ## `UploadFile` with `extract` -/

/-- **The write pass of an upload** stops at the first name that is not clean. -/
theorem writeEntries_spec (hfs : Faithful fs files) {dirPath : String} {p : RelPath} (hd : RelPath.ofRaw dirPath = some p)
    (draws : ℕ → δ) (i : ℕ) (hentries : ∀ entry ∈ entries, checkEntryPath entry.1 = .ok ()) (s : σ) :
    files (writeEntries fs draws dirPath i entries s).2 =
        overwritten dirPath (entries.takeWhile fun entry => isClean entry.1) (files s) ∧
      ((∀ entry ∈ entries, isClean entry.1 = true) → (writeEntries fs draws dirPath i entries s).1 = .ok ()) ∧
      (¬ (∀ entry ∈ entries, isClean entry.1 = true) →
        ∃ path, (writeEntries fs draws dirPath i entries s).1 = .error (.invalidFilePath path .invalidPath)) := by
  induction entries generalizing i s with
  | nil => exact ⟨rfl, fun _ => rfl, fun h => absurd nofun h⟩
  | cons entry rest ih =>
    obtain ⟨name, data⟩ := entry
    obtain ⟨hok, hbad⟩ := hfs.write hd (hentries _ List.mem_cons_self) (draws i) data s
    cases hclean : isClean name with
    | true =>
      obtain ⟨s', hs', hfiles⟩ := hok hclean
      obtain ⟨h₁, h₂, h₃⟩ := ih (i + 1) (fun entry he => hentries entry (List.mem_cons_of_mem _ he)) s'
      have hall : (∀ entry ∈ (name, data) :: rest, isClean entry.1 = true) ↔ ∀ entry ∈ rest, isClean entry.1 = true := by
        simp [hclean]
      have htake : ((name, data) :: rest).takeWhile (fun entry => isClean entry.1) =
          (name, data) :: rest.takeWhile fun entry => isClean entry.1 := List.takeWhile_cons_of_pos hclean
      rw [writeEntries, hs', htake, hall]
      refine ⟨?_, h₂, h₃⟩
      dsimp only
      rw [h₁, hfiles]
      rfl
    | false =>
      have htake : ((name, data) :: rest).takeWhile (fun entry => isClean entry.1) = [] :=
        List.takeWhile_cons_of_neg (by simp [hclean])
      rw [writeEntries, hbad hclean, htake]
      refine ⟨rfl, fun hall => ?_, fun _ => ⟨_, rfl⟩⟩
      have htrue : isClean name = true := hall _ List.mem_cons_self
      rw [htrue] at hclean
      cases hclean

theorem checkExtract_eq_ok {serverType : ServerType} {dirPath filename : String}
    (h : checkExtract fs serverType caps dirPath filename content s = .ok entries) :
    (∃ p, RelPath.ofRaw dirPath = some p) ∧ ∀ entry ∈ entries, checkEntryPath entry.1 = .ok () := by
  obtain ⟨⟨⟩, hupload, h⟩ := ok_of_bind h
  obtain ⟨es, hes, h⟩ := ok_of_bind h
  obtain ⟨-, -, h⟩ := ok_of_bind h
  obtain rfl : es = entries := Except.ok.inj h
  constructor
  · unfold checkUpload at hupload
    split at hupload
    · cases hupload
    · obtain ⟨⟨⟩, hdir, -⟩ := ok_of_bind hupload
      unfold validateRelPath at hdir
      split at hdir
      next hsome => exact Option.isSome_iff_exists.mp hsome
      · cases hdir
  · unfold Entries.all at hes
    split at hes
    · cases hes
    · cases hes
      exact checked_archiveEntries filename content

/-- What an upload that is rejected leaves. -/
theorem extract_leaves (hfs : Faithful fs files) (serverType : ServerType) (draws : ℕ → δ) (dirPath filename : String)
    (s : σ) : (∀ e, (extract fs serverType caps draws dirPath filename content s).1 = .error e → e.rejects = true →
        files (extract fs serverType caps draws dirPath filename content s).2 = files s) ↔
      ∀ entries, checkExtract fs serverType caps dirPath filename content s = .ok entries →
        (∀ entry ∈ entries, isClean entry.1 = true) ∨
          overwritten dirPath (entries.takeWhile fun entry => isClean entry.1) (files s) = files s := by
  cases hcheck : checkExtract fs serverType caps dirPath filename content s with
  | error e =>
    rw [extract, hcheck]
    exact ⟨fun _ => nofun, fun _ e _ _ => rfl⟩
  | ok entries =>
    obtain ⟨⟨p, hd⟩, hentries⟩ := checkExtract_eq_ok hcheck
    obtain ⟨hfiles, hok, hbad⟩ := writeEntries_spec hfs hd draws 0 hentries s
    rw [extract, hcheck]
    dsimp only
    rw [hfiles]
    constructor
    · intro h es hes
      cases hes
      by_cases hall : ∀ entry ∈ entries, isClean entry.1 = true
      · exact .inl hall
      · obtain ⟨path, hpath⟩ := hbad hall
        exact .inr (h _ hpath rfl)
    · intro h e he _
      rcases h entries rfl with hall | hsame
      · rw [hok hall] at he
        cases he
      · exact hsame

/-! ## `ImportServer` -/

variable (env) in
/-- **The write pass of an import** succeeds if the names are clean; otherwise the import is rejected. -/
theorem publishEntries_spec (hfs : Faithful fs files) (gamePort : Option ℕ) (i : ℕ)
    (hentries : ∀ entry ∈ entries, checkEntryPath entry.1 = .ok ()) (s : σ) :
    ((∀ entry ∈ entries, entry.1 ≠ exportMetadataFilename → isClean entry.1 = true) →
        (publishEntries fs env gamePort i entries s).1 = .ok ()) ∧
      (¬ (∀ entry ∈ entries, entry.1 ≠ exportMetadataFilename → isClean entry.1 = true) →
        ∃ path, (publishEntries fs env gamePort i entries s).1 = .error (.file (.invalidFilePath path .invalidPath))) := by
  induction entries generalizing i s with
  | nil => exact ⟨fun _ => rfl, fun h => absurd (fun _ he => absurd he List.not_mem_nil) h⟩
  | cons entry rest ih =>
    obtain ⟨name, data⟩ := entry
    have hrest := fun entry he => hentries entry (List.mem_cons_of_mem _ he)
    rw [publishEntries]
    split
    next hmeta =>
      rw [List.forall_mem_cons, show (name ≠ exportMetadataFilename → isClean name = true) ↔ True by simp [hmeta], true_and]
      exact ih i hrest s
    next hmeta =>
      have hjoin : join "" name = name := by simp [join]
      have hroot : RelPath.ofRaw "" = some ⟨[], fun _ h => absurd h List.not_mem_nil⟩ := by decide
      dsimp only
      generalize (if name = propertiesRelPath then _ else data) = data'
      obtain ⟨hok, hbad⟩ := hfs.write hroot (hentries _ List.mem_cons_self) (env.draws (i + 1)) data' s
      rw [hjoin] at hok hbad
      rw [List.forall_mem_cons]
      cases hclean : isClean name with
      | true =>
        obtain ⟨s', hs', -⟩ := hok hclean
        have htriv : (name ≠ exportMetadataFilename → true = true) ↔ True := by simp
        rw [hs']
        dsimp only
        rw [htriv, true_and]
        exact ih (i + 1) hrest s'
      | false =>
        rw [hbad hclean]
        exact ⟨fun h => absurd (h.1 hmeta) Bool.false_ne_true, fun _ => ⟨name, rfl⟩⟩

theorem importPlugin_not_rejects {rows : List Plugin} {raw : Json} {e : ImportError}
    (h : importPlugin env db row rows raw = .error e) : e.rejects = false := by
  rcases error_of_bind h with h | ⟨plugin, -, h⟩
  · rw [orRaise_error h]
    rfl
  rcases error_of_bind h with h | ⟨-, -, h⟩
  · rw [refuseIf_error h]
    rfl
  rcases error_of_bind h with hport | ⟨server, -, h⟩
  · unfold allocateBedrockPort at hport
    split at hport
    · split at hport
      · cases hport
        rfl
      · cases hport
      · split at hport <;> cases hport
        rfl
    · cases hport
  · cases h

/-- The plugin rows fail in other ways. -/
theorem importRows_not_rejects {rows : List Plugin} {plugins : List Json} {e : ImportError}
    (h : importRows env db row rows plugins = .error e) : e.rejects = false := by
  induction plugins generalizing row rows with
  | nil => cases h
  | cons raw rest ih =>
    rcases error_of_bind h with h | ⟨⟨server, rows⟩, -, h⟩
    · exact importPlugin_not_rejects h
    · exact ih h

/-- What an import that is rejected leaves. -/
theorem import_leaves (hfs : Faithful fs files) (communityId : ℕ) (name : Str) (s : σ) :
    (∀ e, (importServer fs env communityId name content db s).1 = .error e → e.rejects = true →
        (importServer fs env communityId name content db s).2.1 = db) ↔
      ∀ metadata row, checkImport env content = .ok metadata → createRow env communityId name metadata db = .ok row →
        ∀ entry ∈ (importEntries env.caps content).yielded, entry.1 ≠ exportMetadataFilename → isClean entry.1 = true := by
  cases hcheck : checkImport env content with
  | error e =>
    rw [importServer, hcheck]
    exact ⟨fun _ m row hm => (nomatch hm), fun _ e _ _ => rfl⟩
  | ok metadata =>
    cases hrow : createRow env communityId name metadata db with
    | error e =>
      rw [importServer, hcheck]
      simp only [createServer, hrow]
      refine ⟨fun _ m row hm hrow' => ?_, fun _ e _ _ => trivial⟩
      obtain rfl : metadata = m := Except.ok.inj hm
      rw [hrow] at hrow'
      cases hrow'
    | ok row =>
      have hroot : RelPath.ofRaw propertiesRelPath = some ⟨[propertiesRelPath], by decide⟩ := by decide
      obtain ⟨s₁, hseed, -⟩ := hfs.writes (env.draws 0) propertiesRelPath
        (seedProperties (row.gamePort.getD 0) (env.tokens 0)) s _ hroot
      have hchecked : (importEntries env.caps content).Checked := checked_archiveEntries _ _
      obtain ⟨hok, hbad⟩ := publishEntries_spec env hfs row.gamePort 0 hchecked s₁
      have hpublish : publishWorkingSet fs env row.gamePort content s₁ =
          publishEntries fs env row.gamePort 0 (importEntries env.caps content).yielded s₁ := by
        rw [publishWorkingSet, checkImport_eq_ok hcheck]
      have hdb : db ≠ ⟨db.servers ++ [row], db.plugins⟩ := fun h =>
        absurd (congrArg (fun db => db.servers.length) h) (by simp)
      rw [importServer, hcheck]
      simp only [createServer, hrow, hseed, hpublish]
      cases hpub : publishEntries fs env row.gamePort 0 (importEntries env.caps content).yielded s₁ with
      | mk r s₂ =>
      rw [hpub] at hok hbad
      constructor
      · intro h m r' hm hr'
        by_contra hall
        obtain ⟨path, hpath⟩ := hbad hall
        obtain rfl : r = .error (.file (.invalidFilePath path .invalidPath)) := hpath
        exact hdb (h _ rfl rfl).symm
      · intro h e he hrejects
        have hr : r = .ok () := hok (h metadata row rfl hrow)
        subst hr
        dsimp only at he
        unfold importPlugins at he
        split at he
        · cases he
        split at he
        next hrows =>
          rw [← Except.error.inj he, importRows_not_rejects hrows] at hrejects
          cases hrejects
        · cases he

/-- **When an archive that is rejected leaves nothing behind**: an import leaves no row unless an entry that is published
has a control character in its name, nor does an upload change a file, unless the entries before such a one do. -/
theorem rejected_leaves_nothing (hfs : Faithful fs files) (env : ImportEnv δ) (communityId : ℕ) (name : Str) (db : Db)
    (content : Content) (s : σ) (serverType : ServerType) (caps : Caps) (draws : ℕ → δ) (dirPath filename : String) :
    ((∀ e, (importServer fs env communityId name content db s).1 = .error e → e.rejects = true →
        (importServer fs env communityId name content db s).2.1 = db) ↔
      ∀ metadata row, checkImport env content = .ok metadata → createRow env communityId name metadata db = .ok row →
        ∀ entry ∈ (importEntries env.caps content).yielded, entry.1 ≠ exportMetadataFilename →
          isClean entry.1 = true) ∧
    ((∀ e, (extract fs serverType caps draws dirPath filename content s).1 = .error e → e.rejects = true →
        files (extract fs serverType caps draws dirPath filename content s).2 = files s) ↔
      ∀ entries, checkExtract fs serverType caps dirPath filename content s = .ok entries →
        (∀ entry ∈ entries, isClean entry.1 = true) ∨
          overwritten dirPath (entries.takeWhile fun entry => isClean entry.1) (files s) = files s) :=
  ⟨import_leaves hfs communityId name s, extract_leaves hfs serverType draws dirPath filename s⟩

/-! ### A store of files -/

/-- The files by their paths. -/
def plainStore : FileStore (Path → Option Bytes) Unit where
  readFile raw s := match (RelPath.ofRaw raw).bind fun p => s p.parts with
    | some data => .ok data
    | none => .error .serverFileNotFound
  listDir _ _ := .error .serverFileNotFound
  pathExists _ _ := .ok false
  writeFile _ raw data s := match RelPath.ofRaw raw with
    | some p => .ok (Function.update s p.parts (some data))
    | none => .error (.invalidFilePath raw .invalidPath)
  deleteFile _ _ _ := .error .serverFileNotFound
  deleteDir _ _ _ := .error .serverFileNotFound
  renameFile _ _ _ _ := .error .serverFileNotFound
  renameDir _ _ _ _ := .error .serverFileNotFound
  makeDir _ _ s := .ok s
  readVersion _ _ _ := .error .serverFileNotFound
  rollback _ _ _ _ := .error .serverFileNotFound

theorem faithful_plainStore : Faithful plainStore id where
  rejects d raw data s h := by simp only [plainStore, h]
  writes d raw data s p h := ⟨_, by simp only [plainStore, h]; rfl, rfl⟩

/-- A descriptor, read as the JSON value that it is. -/
def exportedAs (serverType : String) (plugins : List Json) : Json :=
  .obj [(str "format", .int 1), (str "mc_edition", .str (str "java")), (str "mc_version", .str (str "1.21")),
    (str "server_type", .str (str serverType)), (str "plugins", .arr plugins)]

/-- A deployment whose descriptors all read so. -/
def plainEnv (loads : Bytes → Loads) : ImportEnv Unit where
  caps := ⟨1024, 16⟩
  portRange := ⟨25565, 25600, []⟩
  bedrockPortRange := none
  loads
  text _ := []
  configValid := true
  offers _ _ := true
  newId := 1
  slug := some "abcdef"
  tokens _ := str "secret"
  takes _ := true
  draws _ := ()

/-- A zip of a descriptor and of files. -/
def zipOf (files : List (String × Bytes)) : Content where
  bytes := []
  zip := some ((exportMetadataFilename, []) :: files |>.map fun file => ⟨file.1, 0, [file.2], .whole⟩)
  tarGz := none

/-- The archive whose second file has a control character in its name. -/
def controlArchive : Content := zipOf [("a.txt", [1]), ("b\u0001.txt", [2])]

/-- Both operations reject the archive, after a row and a file. -/
theorem rejected_leaves_row_and_file :
    (∃ e, (importServer plainStore (plainEnv fun _ => .value (exportedAs "vanilla" [])) 1 (str "new") controlArchive
        ⟨[], []⟩ fun _ => none).1 = .error e ∧ e.rejects = true ∧
      (importServer plainStore (plainEnv fun _ => .value (exportedAs "vanilla" [])) 1 (str "new") controlArchive
        ⟨[], []⟩ fun _ => none).2.1.servers.length = 1) ∧
    ∃ e, (extract plainStore .vanilla ⟨1024, 16⟩ (fun _ => ()) "" "a.zip" controlArchive fun _ => none).1 = .error e ∧
      e.rejects = true ∧
      (extract plainStore .vanilla ⟨1024, 16⟩ (fun _ => ()) "" "a.zip" controlArchive fun _ => none).2 ["a.txt"] =
        some [1] := by
  refine ⟨⟨.file (.invalidFilePath "b\u0001.txt" .invalidPath), ?_, rfl, ?_⟩,
    ⟨.invalidFilePath "b\u0001.txt" .invalidPath, ?_, rfl, ?_⟩⟩
  · decide +kernel
  · decide +kernel
  · decide +kernel
  · decide +kernel

/-- An archive that passes both checks. -/
def plainArchive : Content := zipOf [("a.txt", [1]), ("world/level.dat", [2])]

theorem rejected_leaves_nothing_plain : Faithful plainStore id ∧
    (importServer plainStore (plainEnv fun _ => .value (exportedAs "vanilla" [])) 1 (str "new") plainArchive ⟨[], []⟩
      fun _ => none).2.1.servers.length = 1 ∧
    (∀ e, (importServer plainStore (plainEnv fun _ => .value (exportedAs "vanilla" [])) 1 (str "new") plainArchive
        ⟨[], []⟩ fun _ => none).1 = .error e → e.rejects = true →
      (importServer plainStore (plainEnv fun _ => .value (exportedAs "vanilla" [])) 1 (str "new") plainArchive
        ⟨[], []⟩ fun _ => none).2.1 = ⟨[], []⟩) ∧
    ∀ e, (extract plainStore .vanilla ⟨1024, 16⟩ (fun _ => ()) "" "a.zip" plainArchive fun _ => none).1 = .error e →
      e.rejects = true →
      (extract plainStore .vanilla ⟨1024, 16⟩ (fun _ => ()) "" "a.zip" plainArchive fun _ => none).2 = fun _ => none := by
  obtain ⟨himport, hextract⟩ := rejected_leaves_nothing faithful_plainStore
    (plainEnv fun _ => .value (exportedAs "vanilla" [])) 1 (str "new") ⟨[], []⟩ plainArchive (fun _ => none) .vanilla
    ⟨1024, 16⟩ (fun _ => ()) "" "a.zip"
  refine ⟨faithful_plainStore, by decide +kernel, himport.mpr fun _ _ _ _ => by decide +kernel,
    hextract.mpr fun entries h => .inl ?_⟩
  have hclean : ((checkExtract plainStore .vanilla ⟨1024, 16⟩ "" "a.zip" plainArchive fun _ => none).toOption.getD []).all
      (fun entry => isClean entry.1) = true := by decide +kernel
  rw [h] at hclean
  simpa [Except.toOption] using hclean

end McServerDashboard.Files
