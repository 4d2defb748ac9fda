import McServerDashboard.Files.ObjStore
import McServerDashboard.Lib.Run

/-!
# The root `server.properties` of a server at rest

The requests of the files API on a server at rest that succeed, one after the other, over a file store that meets the
law of its root.

* `Kept`: the platform's keys have the values they had, no directory stands at the name of the file, and no root entry
  with the Worker's marker name is new.
* `Sound`: what the requests must not do, because no guard keeps them from it.
* `kept_of_reach`: sound requests keep it, over any such store.
* **`platform_keys_kept`**: they do on the filesystem and on the object store; **`platform_keys_lost`**: others do not.
-/

namespace McServerDashboard.Files

open Lib Lib.Posix Fs Properties

/-! ## The machine -/

section

variable {σ δ : Type} (fs : FileStore σ δ) (serverType : ServerType) (caps : Caps)

/-- The successful requests. -/
def atRest : Machine σ (Request δ) where
  pre s r := (r.run fs serverType caps s).1 = .ok ()
  post s r := (r.run fs serverType caps s).2

instance (s : σ) (r : Request δ) : Decidable ((atRest fs serverType caps).pre s r) :=
  inferInstanceAs (Decidable (_ = _))

variable {fs} (law : RootLaw fs)

/-- What every door keeps. -/
structure Kept (s s' : σ) : Prop where
  keys : ∀ key ∈ platformManagedKeys, values (law.properties s') key = values (law.properties s) key
  noDir : (law.root s' propertiesRelPath).dir = false
  reserved : ∀ name, generationMarkerPrefix.toList <+: name.toList → (law.root s' name).Stands → (law.root s name).Stands

/-- The root file has none of the platform's keys. -/
def Keyless (s : σ) : Prop := ∀ key ∈ platformManagedKeys, values (law.properties s) key = []

/-- The root, under a name that `DeleteFile` does not know it by, is deleted, and the root is moved into a new directory,
only while the file has none of the platform's keys; and no version is rolled back below the name of the file. -/
def Sound (s : σ) : Request δ → Prop
  | .delete _ relPath => components relPath = [] → Keyless law s
  | .rename _ fromPath toPath => components fromPath = [] → fromPath ≠ toPath → Keyless law s
  | .rollback _ relPath _ => (components relPath).head? = some propertiesRelPath → components relPath = [propertiesRelPath]
  | _ => True

instance (s : σ) : Decidable (Keyless law s) := inferInstanceAs (Decidable (∀ _ ∈ _, _))

instance (s : σ) (r : Request δ) : Decidable (Sound law s r) := by
  induction r using Request.casesOn <;> (dsimp only [Sound]; infer_instance)

end

variable {σ δ : Type} {fs : FileStore σ δ} {law : RootLaw fs} {serverType : ServerType} {caps : Caps} {d : δ}
  {raw : String} {p src dst : RelPath} {s s' s0 : σ} {content : Bytes}

/-! ## The guards -/

theorem of_refusePlatformKeyChange {current incoming : Bytes} (h : refusePlatformKeyChange current incoming = .ok ()) :
    ∀ key ∈ platformManagedKeys, values incoming key = values current key := by
  unfold refusePlatformKeyChange at h
  split at h
  · cases h
  split at h
  · next hnil => exact changed_eq_nil.mp hnil
  · cases h

variable (law) in
/-- The guard lets through what gives every key the values it has. -/
theorem of_guardAtRestProperties (h : guardAtRestProperties fs raw content s = .ok ()) (hroot : isRootServerProperties raw) :
    ∀ key ∈ platformManagedKeys, values content key = values (law.properties s) key := by
  unfold guardAtRestProperties at h
  rw [if_pos hroot] at h
  obtain ⟨current, hcur, h⟩ := ok_of_bind h
  rw [RootLaw.properties, ← law.baseline hcur]
  exact of_refusePlatformKeyChange h

theorem values_nil (key : List (Fin 0x110000)) : values [] key = [] := rfl

/-! ## The doors -/

/-- A store that a door opens on: published, and no directory at the name of the file. -/
structure Ready (law : RootLaw fs) (s : σ) : Prop where
  published : law.Published s
  noDir : (law.root s propertiesRelPath).dir = false

/-- A door leaves the store published, and keeps what it must. -/
structure Passed (law : RootLaw fs) (s s' : σ) : Prop where
  published : law.Published s'
  kept : Kept law s s'

theorem Kept.trans (h1 : Kept law s0 s) (h2 : Kept law s s') : Kept law s0 s' where
  keys key hk := (h2.keys key hk).trans (h1.keys key hk)
  noDir := h2.noDir
  reserved name hname h := h1.reserved name hname (h2.reserved name hname h)

theorem Passed.ready (h : Passed law s s') : Ready law s' := ⟨h.published, h.kept.noDir⟩

theorem Passed.refl (hs : Ready law s) : Passed law s s := ⟨hs.published, ⟨fun _ _ => rfl, hs.noDir, fun _ _ h => h⟩⟩

theorem Passed.trans (h1 : Passed law s0 s) (h2 : Passed law s s') : Passed law s0 s' :=
  ⟨h2.published, h1.kept.trans h2.kept⟩

/-- **An operation that does not touch the file passes**, and one that takes it away where it has none of the keys. -/
theorem passed_of_changed {into : Path} {touches : Prop} (hs : Ready law s) (hpub : law.Published s')
    (h : Changed (law.root s) (law.root s') into touches) (hinto : into.head? ≠ some propertiesRelPath)
    (hname : ∀ name, into.head? = some name → ¬ generationMarkerPrefix.toList <+: name.toList)
    (htouch : touches → Keyless law s) : Passed law s s' := by
  have hwithin := h.others propertiesRelPath hinto
  refine ⟨hpub, fun key hk => ?_, ?_, fun name hres => ?_⟩
  · by_cases ht : touches
    · rcases hwithin.file with heq | hnone
      · rw [RootLaw.properties, heq, RootLaw.properties]
      · rw [htouch ht key hk, RootLaw.properties, hnone, Option.getD_none, values_nil]
    · rw [RootLaw.properties, h.file ht, RootLaw.properties]
  · by_contra hdir
    exact absurd (hwithin.dir (by simpa using hdir)) (by simp [hs.noDir])
  · exact (h.others name fun hhead => hname name hhead hres).stands

/-- **The file put in place passes with the keys it has.** -/
theorem passed_of_plain {touches : Prop} (hpub : law.Published s')
    (h : Changed (law.root s) (law.root s') [propertiesRelPath] touches)
    (hput : law.root s' propertiesRelPath = .plain content)
    (hkeys : ∀ key ∈ platformManagedKeys, values content key = values (law.properties s) key) : Passed law s s' := by
  refine ⟨hpub, fun key hk => ?_, ?_, fun name hres => ?_⟩
  · rw [← hkeys key hk, RootLaw.properties, hput]
    rfl
  · rw [hput]
    rfl
  · refine (h.others name fun hhead => ?_).stands
    cases hhead
    revert hres
    decide

/-! ### Writes -/

/-- **A write passes** that is not of a path below the file's name, or of a reserved name, and gives the keys the values
that they have. -/
theorem wrote_passed (hs : Ready law s) (hpub : law.Published s')
    (h : Wrote (law.root s) (law.root s') p.parts content)
    (hbelow : p.parts.head? = some propertiesRelPath → p.parts = [propertiesRelPath])
    (hname : ∀ name, p.parts.head? = some name → ¬ generationMarkerPrefix.toList <+: name.toList)
    (hkeys : p.parts = [propertiesRelPath] →
      ∀ key ∈ platformManagedKeys, values content key = values (law.properties s) key) : Passed law s s' := by
  by_cases hroot : p.parts = [propertiesRelPath]
  · exact passed_of_plain hpub (hroot ▸ h.changed) (h.put hroot) (hkeys hroot)
  · have hhead : p.parts.head? ≠ some propertiesRelPath := fun hhead => hroot (hbelow hhead)
    refine passed_of_changed hs hpub h.changed hhead hname fun ht => ?_
    exact absurd (ht.elim id fun ht => absurd ht.1 hhead) hroot

/-- The guards that every write door runs on its target. -/
structure WriteGuarded (law : RootLaw fs) (s : σ) (raw : String) (content : Bytes) : Prop where
  below : refuseDirAtRootPropertiesOfParent raw = .ok ()
  reserved : refuseReservedRootName raw = .ok ()
  keys : isRootServerProperties raw →
    ∀ key ∈ platformManagedKeys, values content key = values (law.properties s) key

/-- **A guarded write passes**, also after others that have passed. -/
theorem guarded_write_passed (hs : Ready law s) (hg : WriteGuarded law s0 raw content) (h0 : Kept law s0 s)
    (h : fs.writeFile d raw content s = .ok s') : Passed law s s' := by
  obtain ⟨hpub, p, hraw, hwrote⟩ := law.writeFile hs.published h
  refine wrote_passed hs hpub hwrote (of_refuseDirAtRootPropertiesOfParent hraw hg.below)
    (fun name => of_refuseReservedRootName hraw hg.reserved) fun hroot key hk => ?_
  rw [h0.keys key hk]
  exact hg.keys ((isRootServerProperties_iff hraw).mpr hroot) key hk

theorem writeFile_passed (hs : Ready law s) (h : Files.writeFile fs serverType d raw content s = .ok s') :
    Passed law s s' := by
  unfold Files.writeFile at h
  split at h
  · cases h
  obtain ⟨⟨⟩, hbelow, h⟩ := ok_of_bind h
  obtain ⟨⟨⟩, hreserved, h⟩ := ok_of_bind h
  obtain ⟨-, -, h⟩ := ok_of_bind h
  obtain ⟨⟨⟩, hkeys, h⟩ := ok_of_bind h
  exact guarded_write_passed hs ⟨hbelow, hreserved, of_guardAtRestProperties law hkeys⟩ (Passed.refl hs).kept h

theorem uploadFile_passed {dirPath filename : String} {body : Content} (hs : Ready law s)
    (h : uploadFile fs serverType caps d dirPath filename body s = .ok s') : Passed law s s' := by
  obtain ⟨-, -, h⟩ := ok_of_bind h
  obtain ⟨⟨⟩, hbelow, h⟩ := ok_of_bind h
  obtain ⟨⟨⟩, hreserved, h⟩ := ok_of_bind h
  obtain ⟨⟨⟩, hkeys, h⟩ := ok_of_bind h
  exact guarded_write_passed hs ⟨hbelow, hreserved, of_guardAtRestProperties law hkeys⟩ (Passed.refl hs).kept h

variable (law) in
/-- The guards on a member of an archive are those of a write. -/
theorem guardEntry_guarded {dirPath : String} {entry : String × Bytes}
    (h : guardEntry fs serverType dirPath s entry = .ok ()) : WriteGuarded law s (join dirPath entry.1) entry.2 := by
  obtain ⟨-, -, h⟩ := ok_of_bind h
  obtain ⟨⟨⟩, hbelow, h⟩ := ok_of_bind h
  obtain ⟨⟨⟩, hreserved, h⟩ := ok_of_bind h
  refine ⟨hbelow, hreserved, fun hroot => ?_⟩
  rw [if_pos hroot] at h
  obtain ⟨current, hcur, h⟩ := ok_of_bind h
  rw [RootLaw.properties, ← law.baseline hcur]
  exact of_refusePlatformKeyChange h

variable (law) in
theorem guardEntries_guarded {dirPath : String} {entries : List (String × Bytes)}
    (h : guardEntries fs serverType dirPath s entries = .ok ()) :
    ∀ entry ∈ entries, WriteGuarded law s (join dirPath entry.1) entry.2 := by
  induction entries with
  | nil => exact nofun
  | cons entry rest ih =>
    obtain ⟨⟨⟩, hentry, h⟩ := ok_of_bind h
    intro e he
    rcases List.mem_cons.mp he with rfl | he
    · exact guardEntry_guarded law hentry
    · exact ih h e he

/-- **The write pass of an archive passes**: each member was guarded against the store before the first write. -/
theorem writeEntries_passed {draws : ℕ → δ} {dirPath : String} {entries : List (String × Bytes)} {i : ℕ}
    (hs : Ready law s) (hg : ∀ entry ∈ entries, WriteGuarded law s0 (join dirPath entry.1) entry.2) (h0 : Kept law s0 s)
    (h : (writeEntries fs draws dirPath i entries s).1 = .ok ()) :
    Passed law s (writeEntries fs draws dirPath i entries s).2 := by
  induction entries generalizing i s with
  | nil => exact Passed.refl hs
  | cons entry rest ih =>
    rw [writeEntries] at h ⊢
    cases hw : fs.writeFile (draws i) (join dirPath entry.1) entry.2 s with
    | error e =>
      simp only [hw] at h
      cases h
    | ok s1 =>
      simp only [hw] at h ⊢
      have h1 := guarded_write_passed hs (hg entry List.mem_cons_self) h0 hw
      exact h1.trans (ih h1.ready (fun e he => hg e (List.mem_cons_of_mem _ he)) (h0.trans h1.kept) h)

theorem extract_passed {draws : ℕ → δ} {dirPath filename : String} {body : Content} (hs : Ready law s)
    (h : (extract fs serverType caps draws dirPath filename body s).1 = .ok ()) :
    Passed law s (extract fs serverType caps draws dirPath filename body s).2 := by
  unfold extract at h ⊢
  cases hc : checkExtract fs serverType caps dirPath filename body s with
  | error e =>
    simp only [hc] at h
    cases h
  | ok entries =>
    simp only [hc] at h ⊢
    obtain ⟨-, -, hc⟩ := ok_of_bind hc
    obtain ⟨all, -, hc⟩ := ok_of_bind hc
    obtain ⟨⟨⟩, hguard, hc⟩ := ok_of_bind hc
    cases hc
    exact writeEntries_passed hs (guardEntries_guarded law hguard) (Passed.refl hs).kept h

/-- A version that is rolled back is written. -/
theorem rollback_passed {versionId : String} (hs : Ready law s) (hsound : Sound law s (.rollback d raw versionId))
    (hreserved : refuseReservedRootName raw = .ok ())
    (hkeys : isRootServerProperties raw → ∀ data, fs.readVersion raw versionId s = .ok data →
      ∀ key ∈ platformManagedKeys, values data key = values (law.properties s) key)
    (h : fs.rollback d raw versionId s = .ok s') : Passed law s s' := by
  obtain ⟨hpub, p, data, hraw, hread, hwrote⟩ := law.rollback hs.published h
  have hparts := (RelPath.ofRaw_eq_some.mp hraw).2.2
  refine wrote_passed hs hpub hwrote (fun hhead => ?_) (fun name => of_refuseReservedRootName hraw hreserved)
    fun hroot => hkeys ((isRootServerProperties_iff hraw).mpr hroot) data hread
  rw [hparts] at hhead ⊢
  exact hsound hhead

theorem rollbackFile_passed {versionId : String} (hs : Ready law s) (hsound : Sound law s (.rollback d raw versionId))
    (h : rollbackFile fs d raw versionId s = .ok s') : Passed law s s' := by
  obtain ⟨⟨⟩, hreserved, h⟩ := ok_of_bind h
  split at h
  · obtain ⟨data, hdata, h⟩ := ok_of_bind h
    obtain ⟨current, hcur, h⟩ := ok_of_bind h
    obtain ⟨⟨⟩, hkeys, h⟩ := ok_of_bind h
    refine rollback_passed hs hsound hreserved (fun _ data' hdata' => ?_) h
    cases hdata.symm.trans hdata'
    rw [RootLaw.properties, ← law.baseline hcur]
    exact of_refusePlatformKeyChange hkeys
  · next hroot => exact rollback_passed hs hsound hreserved (fun hr => absurd hr hroot) h

/-! ### Removals, directories and renames -/

theorem deleteFile_passed (hs : Ready law s) (hsound : Sound law s (.delete d raw))
    (h : Files.deleteFile fs serverType d raw s = .ok s') : Passed law s s' := by
  unfold Files.deleteFile at h
  split at h
  · cases h
  obtain ⟨-, -, h⟩ := ok_of_bind h
  obtain ⟨isDir, -, h⟩ := ok_of_bind h
  split at h
  · obtain ⟨hpub, p, hraw, hchanged⟩ := law.deleteDir hs.published h
    have hparts := (RelPath.ofRaw_eq_some.mp hraw).2.2
    exact passed_of_changed hs hpub hchanged nofun nofun fun hroot => hsound (hparts.symm.trans hroot)
  · obtain ⟨⟨⟩, hguard, h⟩ := ok_of_bind h
    obtain ⟨hpub, p, hraw, hchanged⟩ := law.deleteFile hs.published h
    refine passed_of_changed hs hpub hchanged nofun nofun fun hroot key hkey => ?_
    rw [← of_guardAtRestProperties law hguard ((isRootServerProperties_iff hraw).mpr hroot) key hkey, values_nil]

theorem makeDir_passed (hs : Ready law s) (h : Files.makeDir fs d raw s = .ok s') : Passed law s s' := by
  obtain ⟨-, -, h⟩ := ok_of_bind h
  split at h
  · cases h
  obtain ⟨⟨⟩, hdir, h⟩ := ok_of_bind h
  obtain ⟨⟨⟩, hreserved, h⟩ := ok_of_bind h
  obtain ⟨hpub, p, hraw, hchanged⟩ := law.makeDir hs.published h
  have hhead := of_refuseDirAtRootProperties hraw hdir
  exact passed_of_changed hs hpub hchanged hhead (fun name => of_refuseReservedRootName hraw hreserved)
    fun ht => absurd ht hhead

theorem ofRaw_of_validateRelPath (h : validateRelPath raw = .ok ()) : ∃ p, RelPath.ofRaw raw = some p := by
  unfold validateRelPath at h
  split at h
  · next hsome => exact Option.isSome_iff_exists.mp hsome
  · cases h

section

variable {fromPath toPath : String}

theorem renameDir_passed (hs : Ready law s) (hfrom : RelPath.ofRaw fromPath = some src)
    (hto : RelPath.ofRaw toPath = some dst) (hkeyless : components fromPath = [] → Keyless law s)
    (hreserved : refuseReservedRootName toPath = .ok ()) (hfree : fs.pathExists toPath s = .ok false)
    (hdir : refuseDirAtRootProperties toPath (purePath toPath) = .ok ())
    (h : fs.renameDir d fromPath toPath s = .ok s') : Passed law s s' := by
  obtain ⟨hpub, hchanged⟩ := law.renameDir hs.published hfrom hto hfree h
  have hhead := of_refuseDirAtRootProperties hto hdir
  refine passed_of_changed hs hpub hchanged hhead (fun name => of_refuseReservedRootName hto hreserved) fun ht => ?_
  have hsrc := ht.resolve_right hhead
  exact hkeyless ((RelPath.ofRaw_eq_some.mp hfrom).2.2.symm.trans hsrc)

theorem renameFile_passed_file (hs : Ready law s) (hfrom : RelPath.ofRaw fromPath = some src)
    (hto : RelPath.ofRaw toPath = some dst) (hreserved : refuseReservedRootName toPath = .ok ())
    (hfree : fs.pathExists toPath s = .ok false) (hbelow : refuseDirAtRootPropertiesOfParent toPath = .ok ())
    (haway : guardAtRestProperties fs fromPath [] s = .ok ())
    (honto : isRootServerProperties toPath → ∃ data, fs.readFile fromPath s = .ok data ∧
      ∀ key ∈ platformManagedKeys, values data key = values (law.properties s) key)
    (h : fs.renameFile d fromPath toPath s = .ok s') : Passed law s s' := by
  obtain ⟨hpub, hchanged, hput⟩ := law.renameFile hs.published hfrom hto hfree h
  by_cases hroot : dst.parts = [propertiesRelPath]
  · -- the file is put in place: its keys are those of the baseline
    obtain ⟨data, hread, hkeys⟩ := honto ((isRootServerProperties_iff hto).mpr hroot)
    exact passed_of_plain hpub (hroot ▸ hchanged) (hput data hread hroot) hkeys
  · -- where the file is moved away, the guard has found none of the keys in it
    have hhead : dst.parts.head? ≠ some propertiesRelPath := fun hhead =>
      hroot (of_refuseDirAtRootPropertiesOfParent hto hbelow hhead)
    refine passed_of_changed hs hpub hchanged hhead (fun name => of_refuseReservedRootName hto hreserved) fun ht key hk => ?_
    have hsrc := (isRootServerProperties_iff hfrom).mpr (ht.resolve_right hhead)
    rw [← of_guardAtRestProperties law haway hsrc key hk, values_nil]

theorem renameFile_passed (hs : Ready law s) (hsound : Sound law s (.rename d fromPath toPath))
    (h : Files.renameFile fs serverType d fromPath toPath s = .ok s') : Passed law s s' := by
  obtain ⟨⟨⟩, hfrom, h⟩ := ok_of_bind h
  obtain ⟨⟨⟩, hto, h⟩ := ok_of_bind h
  obtain ⟨⟨⟩, hreserved, h⟩ := ok_of_bind h
  obtain ⟨-, -, h⟩ := ok_of_bind h
  obtain ⟨-, -, h⟩ := ok_of_bind h
  obtain ⟨isDir, -, h⟩ := ok_of_bind h
  obtain ⟨src, hfrom⟩ := ofRaw_of_validateRelPath hfrom
  obtain ⟨dst, hto⟩ := ofRaw_of_validateRelPath hto
  split at h
  · cases h
    exact Passed.refl hs
  next hne =>
  obtain ⟨occupied, hfree, h⟩ := ok_of_bind h
  cases occupied with
  | true => cases isDir <;> cases h
  | false =>
  rw [if_neg Bool.false_ne_true] at h
  split at h
  · obtain ⟨⟨⟩, hdir, h⟩ := ok_of_bind h
    exact renameDir_passed hs hfrom hto (fun hroot => hsound hroot hne) hreserved hfree hdir h
  obtain ⟨⟨⟩, hbelow, h⟩ := ok_of_bind h
  obtain ⟨⟨⟩, haway, h⟩ := ok_of_bind h
  split at h
  · obtain ⟨data, hdata, h⟩ := ok_of_bind h
    obtain ⟨⟨⟩, honto, h⟩ := ok_of_bind h
    exact renameFile_passed_file hs hfrom hto hreserved hfree hbelow haway
      (fun hroot => ⟨data, hdata, of_guardAtRestProperties law honto hroot⟩) h
  · next hroot =>
    exact renameFile_passed_file hs hfrom hto hreserved hfree hbelow haway (fun hr => absurd hr hroot) h

end

/-! ## The run -/

/-- **Every door passes** that is used soundly. -/
theorem run_passed {r : Request δ} (hs : Ready law s) (hsound : Sound law s r)
    (h : (r.run fs serverType caps s).1 = .ok ()) : Passed law s (r.run fs serverType caps s).2 := by
  have honce : ∀ x : Except FileError σ, (∀ s', x = .ok s' → Passed law s s') → (once s x).1 = .ok () →
      Passed law s (once s x).2 := by
    intro x hx hok
    cases x with
    | error e => cases hok
    | ok s' => exact hx s' rfl
  cases r with
  | writeFile d raw content => exact honce _ (fun _ => writeFile_passed hs) h
  | upload d dirPath filename body => exact honce _ (fun _ => uploadFile_passed hs) h
  | extract draws dirPath filename body => exact extract_passed hs h
  | rollback d raw versionId => exact honce _ (fun _ => rollbackFile_passed hs hsound) h
  | delete d raw => exact honce _ (fun _ => deleteFile_passed hs hsound) h
  | makeDir d raw => exact honce _ (fun _ => makeDir_passed hs) h
  | rename d fromPath toPath => exact honce _ (fun _ => renameFile_passed hs hsound) h

/-- A run from a working set whose root `server.properties` is a file. -/
theorem kept_of_reach (hfile : ∃ data, law.root s0 propertiesRelPath = .plain data)
    (h : (atRest fs serverType caps).Reach (Sound law) s0 s) : Kept law s0 s := by
  obtain ⟨data, hdata⟩ := hfile
  have hs : Ready law s0 := by
    constructor
    · exact law.published_of_stands (.inl (by rw [hdata]; exact Option.some_ne_none data))
    · rw [hdata]
      rfl
  have hpassed : Passed law s0 s :=
    h.invariant (Passed.refl hs) fun u r hu hok hsound => hu.trans (run_passed hu.ready hsound hok)
  exact hpassed.kept

/-! ## The two backends -/

variable {retention : ℕ}

/-- **The platform's keys are kept**, on the filesystem and on the object store: from a working set whose root
`server.properties` is a file, the successful requests that are sound leave the values of its platform keys, put no
directory at its name and make no root entry with the Worker's marker name. -/
theorem platform_keys_kept :
    (∀ s0 s : Store, (∃ data, (fsRoot retention).root s0 propertiesRelPath = .plain data) →
      (atRest (fsStore retention) serverType caps).Reach (Sound (fsRoot retention)) s0 s →
      Kept (fsRoot retention) s0 s) ∧
    ∀ s0 s : ObjStore, (∃ data, (objRoot retention).root s0 propertiesRelPath = .plain data) →
      (atRest (objStore retention) serverType caps).Reach (Sound (objRoot retention)) s0 s →
      Kept (objRoot retention) s0 s :=
  ⟨fun _ _ => kept_of_reach, fun _ _ => kept_of_reach⟩

/-- A published working set that is the one file. -/
def onlyProperties (content : Bytes) (versions : Path → List (String × Bytes)) : Store :=
  ⟨⟨some 0, AList.singleton 0 ⟨.snapshots, AList.singleton [propertiesRelPath] (.file content)⟩, .absent, none⟩, versions⟩

/-- The same in a bucket. -/
def onlyObject (content : Bytes) (versions : Path → List (String × Bytes)) : ObjStore :=
  ⟨⟨AList.singleton ⟨.snapshot 0, [propertiesRelPath]⟩ content, some 0, .absent⟩, versions⟩

/-- A file with an RCON password. -/
def keyed : Bytes := "rcon.password=s\n".toUTF8.toList

/-- The version of a file that once was below the name. -/
def oneVersion (p : Path) : List (String × Bytes) := if p = [propertiesRelPath, "x"] then [("v1", [])] else []

def smallCaps : Caps := ⟨1024, 16⟩

/-- Another line, and the line of the password respelled. -/
def respelled : Bytes := "motd=hi\nrcon.password: s\n".toUTF8.toList

/-- The write of another file, an edit that leaves the password, and a directory that is made and moved. -/
def edits {δ : Type} (d : δ) : List (Request δ) :=
  [.writeFile d "world/level.dat" [1], .writeFile d "./server.properties" respelled, .makeDir d "config",
    .rename d "config" "mods/config"]

theorem platform_keys_kept_edited :
    (∃ s, properties s.disk = respelled ∧ Kept (fsRoot 10) (onlyProperties keyed oneVersion) s) ∧
      ∃ s, (objRoot 10).properties s = respelled ∧ Kept (objRoot 10) (onlyObject keyed oneVersion) s := by
  obtain ⟨hfs, hobj⟩ := @platform_keys_kept .paper smallCaps 10
  have hrun : (((atRest (fsStore 10) .paper smallCaps).guard (Sound (fsRoot 10))).exec (edits ⟨1, "a", "v2"⟩)
      (onlyProperties keyed oneVersion)).map (fun s => properties s.disk) = some respelled := by decide +kernel
  have hrun' : (((atRest (objStore 10) .paper smallCaps).guard (Sound (objRoot 10))).exec (edits ⟨1, "v2"⟩)
      (onlyObject keyed oneVersion)).map (objRoot 10).properties = some respelled := by decide +kernel
  obtain ⟨s, hs, hkept⟩ := Machine.reach_of_exec_map hrun
  obtain ⟨s', hs', hkept'⟩ := Machine.reach_of_exec_map hrun'
  exact ⟨⟨s, hkept, hfs _ s ⟨keyed, rfl⟩ (Machine.reach_of_guard hs)⟩,
    s', hkept', hobj _ s' ⟨keyed, by decide +kernel⟩ (Machine.reach_of_guard hs')⟩

/-- A run that changes the values, and one that puts a directory at the name. -/
theorem not_kept_of_runs (rs rs' : List (Request δ)) {s1 : σ}
    (hkeys : ((atRest fs .paper smallCaps).exec rs s0).map (fun s => values (law.properties s) rconPasswordKey) = some [])
    (h0 : values (law.properties s0) rconPasswordKey ≠ [])
    (hdir : ((atRest fs .paper smallCaps).exec rs' s1).map (fun s => (law.root s propertiesRelPath).dir) = some true) :
    (¬ ∀ s, (atRest fs .paper smallCaps).Reach Machine.Any s0 s →
      ∀ key ∈ platformManagedKeys, values (law.properties s) key = values (law.properties s0) key) ∧
    ¬ ∀ s, (atRest fs .paper smallCaps).Reach Machine.Any s1 s → (law.root s propertiesRelPath).dir = false := by
  constructor
  · intro h
    obtain ⟨s, hs, hlost⟩ := Machine.reach_of_exec_map hkeys
    exact h0 ((h s hs rconPasswordKey (by decide)).symm.trans hlost)
  · intro h
    obtain ⟨s, hs, hthere⟩ := Machine.reach_of_exec_map hdir
    rw [h s hs] at hthere
    cases hthere

/-- On the filesystem the root deleted as `./`, and a version rolled back below the name of a file that is gone; on the
object store the root moved into a directory, and a version rolled back below the name beside the file. -/
theorem platform_keys_lost :
    ((¬ ∀ s, (atRest (fsStore 10) .paper smallCaps).Reach Machine.Any (onlyProperties keyed oneVersion) s →
        ∀ key ∈ platformManagedKeys, values ((fsRoot 10).properties s) key =
          values ((fsRoot 10).properties (onlyProperties keyed oneVersion)) key) ∧
      ¬ ∀ s, (atRest (fsStore 10) .paper smallCaps).Reach Machine.Any (onlyProperties [] oneVersion) s →
        ((fsRoot 10).root s propertiesRelPath).dir = false) ∧
    (¬ ∀ s, (atRest (objStore 10) .paper smallCaps).Reach Machine.Any (onlyObject keyed oneVersion) s →
        ∀ key ∈ platformManagedKeys, values ((objRoot 10).properties s) key =
          values ((objRoot 10).properties (onlyObject keyed oneVersion)) key) ∧
      ¬ ∀ s, (atRest (objStore 10) .paper smallCaps).Reach Machine.Any (onlyObject keyed oneVersion) s →
        ((objRoot 10).root s propertiesRelPath).dir = false := by
  constructor
  · refine not_kept_of_runs [.delete ⟨1, "a", "v2"⟩ "./"]
      [.delete ⟨1, "a", "v2"⟩ "server.properties", .rollback ⟨2, "b", "v3"⟩ "server.properties/x" "v1"]
      ?_ ?_ ?_ <;> decide +kernel
  · refine not_kept_of_runs [.rename ⟨1, "v2"⟩ "." "backup"]
      [.rollback ⟨1, "v2"⟩ "server.properties/x" "v1"] ?_ ?_ ?_ <;> decide +kernel

end McServerDashboard.Files
