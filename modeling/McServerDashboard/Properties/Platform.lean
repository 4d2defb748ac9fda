import McServerDashboard.Properties.Guard
import McServerDashboard.Properties.Rewritten

/-!
# The platform's half of `server.properties`

* **`values_rewrite`**: the values of a key after `_rewrite`.
* `Applied`: every platform key has the values that the platform requires, and no other key changes.
* **`platform_applied`**: `apply_platform_properties` leaves such a file, and then leaves it alone.
-/

namespace McServerDashboard.Properties

open Lib Lib.Properties

variable {content s : Bytes} {key value : Str} {vs : List (Str × Str)} {cleared written : List Str}
  {es : List (Str × Str)} {gamePort : Option ℤ} {rconPassword : Str} {resourcePack : Option ResourcePackProperties}

/-! ## The values of a key -/

theorem values_eq : values content key = ((entries content).filter (·.1 = key)).map (·.2) := by
  rw [values, entries, ← parse_entries, List.filter_map, List.map_map]
  rfl

theorem values_normalize (hkey : key ≠ []) : values (normalize s) key = values s key := by
  rw [values_eq, values_eq, filter_normalize hkey]

/-- A key that is written has its value once. -/
theorem filter_written (hvs : ∀ k v, vs.lookup k = some v → merged k = k) (hl : vs.lookup key = some value) :
    (rewriteEntries vs cleared written es).filter (·.1 = key) =
      if key ∉ written ∧ key ∈ es.map (·.1) then [(key, merged value)] else [] := by
  induction es generalizing written with
  | nil => simp [rewriteEntries]
  | cons kv es ih =>
    simp only [rewriteEntries]
    by_cases hk : kv.1 = key
    · rw [hk, hl]
      dsimp only
      by_cases hw : key ∈ written
      · simp [hw, ih]
      · simp [hw, ih, hk, hvs key value hl]
    · have hkeys : key ∈ (kv :: es).map (·.1) ↔ key ∈ es.map (·.1) := by simp [Ne.symm hk]
      simp only [hkeys]
      cases hl' : vs.lookup kv.1 with
      | some value' =>
        have hmerged : merged kv.1 = kv.1 := hvs kv.1 value' hl'
        dsimp only
        by_cases hw : kv.1 ∈ written
        · rw [if_pos hw, ih]
        · rw [if_neg hw, List.filter_cons_of_neg (by simpa [hmerged] using hk), ih]
          simp only [List.mem_cons, Ne.symm hk, false_or]
      | none =>
        dsimp only
        by_cases hc : kv.1 ∈ cleared
        · rw [if_pos hc, ih]
        · rw [if_neg hc, List.filter_cons_of_neg (by simpa using hk), ih]

/-- A key that is not written loses its values, or keeps them. -/
theorem filter_unwritten (hvs : ∀ k v, vs.lookup k = some v → merged k = k) (hl : vs.lookup key = none) :
    (rewriteEntries vs cleared written es).filter (·.1 = key) =
      if key ∈ cleared then [] else es.filter (·.1 = key) := by
  induction es generalizing written with
  | nil => simp [rewriteEntries]
  | cons kv es ih =>
    simp only [rewriteEntries]
    by_cases hk : kv.1 = key
    · rw [hk, hl]
      dsimp only
      by_cases hc : key ∈ cleared
      · simp [hc, ih]
      · simp [hc, ih, hk]
    · rw [List.filter_cons_of_neg (l := es) (by simpa using hk)]
      cases hl' : vs.lookup kv.1 with
      | some value' =>
        have hmerged : merged kv.1 = kv.1 := hvs kv.1 value' hl'
        dsimp only
        by_cases hw : kv.1 ∈ written
        · rw [if_pos hw, ih]
        · rw [if_neg hw, List.filter_cons_of_neg (by simpa [hmerged] using hk), ih]
      | none =>
        dsimp only
        by_cases hc : kv.1 ∈ cleared
        · rw [if_pos hc, ih]
        · rw [if_neg hc, List.filter_cons_of_neg (by simpa using hk), ih]

theorem filter_of_lookup (hnodup : (vs.map (·.1)).Nodup) :
    vs.filter (·.1 = key) = ((vs.lookup key).map fun value => (key, value)).toList := by
  induction vs with
  | nil => rfl
  | cons kv vs ih =>
    obtain ⟨k, v⟩ := kv
    obtain ⟨hk, hnodup⟩ := List.nodup_cons.mp hnodup
    by_cases h : k = key
    · subst h
      rw [List.filter_cons_of_pos (by simp), List.lookup_cons_self, ih hnodup,
        List.lookup_eq_none_iff.mpr fun p hp => ?_]
      · rfl
      · rw [bne_iff_ne]
        rintro rfl
        exact hk (List.mem_map.mpr ⟨p, hp, rfl⟩)
    · rw [List.filter_cons_of_neg (by simpa using h), ih hnodup, List.lookup_cons, beq_false_of_ne (Ne.symm h)]

/-- A key that is appended has its value once. -/
theorem filter_appended (hvs : ∀ k v, vs.lookup k = some v → merged k = k) (hnodup : (vs.map (·.1)).Nodup)
    (ks : List Str) : ((vs.filter (·.1 ∉ ks)).map fun kv => (merged kv.1, merged kv.2)).filter (·.1 = key) =
      if key ∈ ks then [] else ((vs.lookup key).map fun value => (key, merged value)).toList := by
  have hkeys : ∀ kv ∈ vs, merged kv.1 = kv.1 := fun kv hkv => by
    have hsome : (vs.lookup kv.1).isSome := List.lookup_isSome_iff.mpr ⟨kv, hkv, by simp⟩
    obtain ⟨v, hv⟩ := Option.isSome_iff_exists.mp hsome
    exact hvs _ _ hv
  have hfilter : (vs.filter (·.1 ∉ ks)).filter (fun kv => merged kv.1 = key) =
      (vs.filter (·.1 = key)).filter (·.1 ∉ ks) := by
    rw [List.filter_filter, List.filter_filter]
    refine List.filter_congr fun kv hkv => ?_
    rw [hkeys kv hkv, Bool.and_comm]
  rw [List.filter_map, Function.comp_def, hfilter, filter_of_lookup hnodup]
  cases hl : vs.lookup key with
  | none => simp
  | some value => by_cases hk : key ∈ ks <;> simp [hk, hvs key value hl]

/-- **The values of a key after `_rewrite`.** -/
theorem values_rewrite (hvs : ∀ k v, vs.lookup k = some v → merged k = k) (hnodup : (vs.map (·.1)).Nodup) :
    values (rewrite content (parse content) vs cleared) key =
      match vs.lookup key with
      | some value => [merged value]
      | none => if key ∈ cleared then [] else values content key := by
  rw [values_eq, entries_rewrite, List.filter_append, filter_appended hvs hnodup]
  cases hl : vs.lookup key with
  | some value =>
    rw [filter_written hvs hl]
    by_cases hk : key ∈ (entries content).map (·.1) <;> simp [hk]
  | none =>
    rw [filter_unwritten hvs hl, values_eq]
    by_cases hc : key ∈ cleared <;> simp [hc]

/-- `_rewrite` leaves a file alone that has every key as it is required. -/
theorem rewriteEntries_self (hvs : ∀ k v, vs.lookup k = some v → es.filter (·.1 = k) = [(k, merged v)])
    (hmerged : ∀ k v, vs.lookup k = some v → merged k = k)
    (hcleared : ∀ k ∈ cleared, vs.lookup k = none → es.filter (·.1 = k) = []) :
    rewriteEntries vs cleared [] es = es := by
  suffices h : ∀ written, (∀ k v, vs.lookup k = some v →
      (k ∈ written ∧ es.filter (·.1 = k) = []) ∨ (k ∉ written ∧ (es.filter (·.1 = k) = [(k, merged v)]))) →
        rewriteEntries vs cleared written es = es from
    h [] fun k v hl => .inr ⟨List.not_mem_nil, hvs k v hl⟩
  clear hvs
  induction es with
  | nil => exact fun _ _ => rfl
  | cons kv es ih =>
    intro written hvs
    obtain ⟨k, v⟩ := kv
    have htail : ∀ k' ∈ cleared, vs.lookup k' = none → es.filter (·.1 = k') = [] := fun k' hk' hl' => by
      have hnil := hcleared k' hk' hl'
      rw [List.filter_eq_nil_iff] at hnil ⊢
      exact fun kv hkv => hnil kv (List.mem_cons_of_mem _ hkv)
    have hother {k' : Str} (hk' : k ≠ k') : ((k, v) :: es).filter (·.1 = k') = es.filter (·.1 = k') :=
      List.filter_cons_of_neg (by simpa using hk')
    simp only [rewriteEntries]
    cases hl : vs.lookup k with
    | some value =>
      have hself : ((k, v) :: es).filter (·.1 = k) = (k, v) :: es.filter (·.1 = k) :=
        List.filter_cons_of_pos (by simp)
      obtain ⟨-, hnil⟩ | ⟨hw, hone⟩ := hvs k value hl
      · rw [hself] at hnil
        cases hnil
      · rw [hself, List.cons.injEq, Prod.mk.injEq] at hone
        obtain ⟨⟨-, hv⟩, hnil⟩ := hone
        dsimp only
        rw [if_neg hw, hmerged k value hl, ← hv, ih htail]
        intro k' v' hl'
        by_cases hk : k = k'
        · subst hk
          exact .inl ⟨List.mem_cons_self, hnil⟩
        · rcases hvs k' v' hl' with ⟨hmem, hnil'⟩ | ⟨hmem, hone'⟩
          · exact .inl ⟨List.mem_cons_of_mem _ hmem, hother hk ▸ hnil'⟩
          · exact .inr ⟨by simpa [Ne.symm hk] using hmem, hother hk ▸ hone'⟩
    | none =>
      have hc : k ∉ cleared := fun hmem => by
        have hnil := hcleared k hmem hl
        rw [List.filter_cons_of_pos (by simp)] at hnil
        cases hnil
      dsimp only
      rw [if_neg hc, ih htail]
      intro k' v' hl'
      have hk : k ≠ k' := by
        rintro rfl
        rw [hl] at hl'
        cases hl'
      rw [← hother hk]
      exact hvs k' v' hl'

/-! ## What the platform requires -/

/-- The file has a password that is not empty. -/
def hasPassword (content : Bytes) : Bool := (values content rconPasswordKey).getLast?.any (· ≠ [])

/-- **Every platform key has what the platform requires**, and the other keys what they had. -/
structure Applied (content out : Bytes) (gamePort : Option ℤ) (rconPassword : Str)
    (resourcePack : Option ResourcePackProperties) : Prop where
  port : values out portKey = (gamePort.map fun port => [str (toString port)]).getD (values content portKey)
  enableRcon : values out enableRconKey = [str "true"]
  rconPort : values out rconPortKey = [str "25575"]
  password : values out rconPasswordKey =
    if hasPassword content then values content rconPasswordKey else [merged rconPassword]
  pack : values out resourcePackKey = (resourcePack.map fun pack => merged pack.url).toList
  sha1 : values out resourcePackSha1Key = (resourcePack.map fun pack => merged pack.sha1).toList
  require : values out requireResourcePackKey =
    (resourcePack.map fun pack => str (if pack.require then "true" else "false")).toList
  prompt : values out resourcePackPromptKey = ((resourcePack.bind (·.prompt)).map merged).toList
  others : ∀ key, key ≠ [] → key ∉ platformManagedKeys → values out key = values content key

/-- A Lean character is no surrogate. -/
theorem isHigh_char (c : Char) : isHigh (chr c.toNat).val = false := by
  have hval : (chr c.toNat).val = c.toNat % 1114112 := rfl
  have hvalid : c.toNat < 0xD800 ∨ 0xDFFF < c.toNat ∧ c.toNat < 0x110000 := c.valid
  rw [hval, Nat.mod_eq_of_lt (by omega), isHigh, Bool.and_eq_false_iff, decide_eq_false_iff_not,
    decide_eq_false_iff_not]
  omega

theorem merged_str (s : String) : merged (str s) = str s := by
  refine merged_unpaired ((List.isChain_map _).mpr (List.Pairwise.isChain (List.pairwise_of_forall fun c d h => ?_)))
  rw [isHigh_char] at h
  exact Bool.false_ne_true h.1

theorem platformValues_keys :
    ((platformValues (parse content) gamePort rconPassword resourcePack).map (·.1)).Sublist platformManagedKeys := by
  simp only [platformValues, List.map_append]
  have hport : ((gamePort.map fun port => (portKey, str (toString port))).toList.map (·.1)).Sublist [portKey] := by
    cases gamePort <;> simp
  refine ((hport.append (List.Sublist.refl [enableRconKey, rconPortKey])).append
    (?_ : List.Sublist _ [rconPasswordKey])).append (?_ : List.Sublist _ resourcePackKeys)
  · split <;> simp
  · rcases resourcePack with - | ⟨url, sha1, require, - | prompt⟩ <;> simp [resourcePackKeys]

theorem platformValues_nodup :
    ((platformValues (parse content) gamePort rconPassword resourcePack).map (·.1)).Nodup :=
  platformValues_keys.nodup (by simp [platformManagedKeys, portKey, enableRconKey, rconPortKey, rconPasswordKey,
    resourcePackKey, resourcePackSha1Key, requireResourcePackKey, resourcePackPromptKey, str_injective.eq_iff])

/-- What is written to a key. -/
theorem platformValues_lookup : (platformValues (parse content) gamePort rconPassword resourcePack).lookup key =
    if key = portKey then gamePort.map fun port => str (toString port)
    else if key = enableRconKey then some (str "true")
    else if key = rconPortKey then some (str "25575")
    else if key = rconPasswordKey then if hasPassword content then none else some rconPassword
    else if key = resourcePackKey then resourcePack.map (·.url)
    else if key = resourcePackSha1Key then resourcePack.map (·.sha1)
    else if key = requireResourcePackKey then
      resourcePack.map fun pack => str (if pack.require then "true" else "false")
    else if key = resourcePackPromptKey then resourcePack.bind (·.prompt)
    else none := by
  by_cases hkey : key ∈ platformManagedKeys
  · have hpw : ((((parse content).filter (·.key = rconPasswordKey)).map (·.value)).getLast?.any (· ≠ [])) =
      hasPassword content := rfl
    have hport : str (toString rconPort) = str "25575" := rfl
    simp only [platformValues, hpw, hport]
    simp only [platformManagedKeys, List.mem_cons, List.not_mem_nil, or_false] at hkey
    rcases hkey with rfl | rfl | rfl | rfl | rfl | rfl | rfl | rfl <;> rcases gamePort with - | port <;>
      cases hasPassword content <;> rcases resourcePack with - | ⟨url, sha1, require, - | prompt⟩ <;> rfl
  · rw [List.lookup_eq_none_iff.mpr fun p hp => ?_]
    · simp only [platformManagedKeys, List.mem_cons, List.not_mem_nil, or_false, not_or] at hkey
      simp only [hkey, if_false]
    · rw [bne_iff_ne]
      rintro rfl
      exact hkey (platformValues_keys.subset (List.mem_map.mpr ⟨p, hp, rfl⟩))

theorem lookup_password : (platformValues (parse content) gamePort rconPassword resourcePack).lookup rconPasswordKey =
    if hasPassword content then none else some rconPassword := platformValues_lookup.trans rfl

theorem merged_platform (h : key ∈ platformManagedKeys) : merged key = key := by
  simp only [platformManagedKeys, List.mem_cons, List.not_mem_nil, or_false] at h
  rcases h with rfl | rfl | rfl | rfl | rfl | rfl | rfl | rfl <;> exact merged_str _

/-- What is written is a platform key. -/
theorem mem_of_lookup (h : (platformValues (parse content) gamePort rconPassword resourcePack).lookup key = some value) :
    key ∈ platformManagedKeys := by
  obtain ⟨l₁, l₂, hl, -⟩ := List.lookup_eq_some_iff.mp h
  have hmem : (key, value) ∈ platformValues (parse content) gamePort rconPassword resourcePack := by
    rw [hl]
    exact List.mem_append_right _ List.mem_cons_self
  exact platformValues_keys.subset (List.mem_map.mpr ⟨_, hmem, rfl⟩)

/-- The values of a key in the file that `apply_platform_properties` leaves. -/
theorem values_apply (hkey : key ≠ []) :
    values (applyPlatformProperties content gamePort rconPassword resourcePack) key =
      match (platformValues (parse content) gamePort rconPassword resourcePack).lookup key with
      | some value => [merged value]
      | none => if key ∈ platformCleared resourcePack then [] else values content key := by
  rw [applyPlatformProperties, values_normalize hkey]
  exact values_rewrite (fun k v hl => merged_platform (mem_of_lookup hl)) platformValues_nodup

theorem values_apply_some (hkey : key ≠ [])
    (hl : (platformValues (parse content) gamePort rconPassword resourcePack).lookup key = some value) :
    values (applyPlatformProperties content gamePort rconPassword resourcePack) key = [merged value] := by
  rw [values_apply hkey, hl]

theorem values_apply_none (hkey : key ≠ [])
    (hl : (platformValues (parse content) gamePort rconPassword resourcePack).lookup key = none) :
    values (applyPlatformProperties content gamePort rconPassword resourcePack) key =
      if key ∈ platformCleared resourcePack then [] else values content key := by
  rw [values_apply hkey, hl]

theorem platformCleared_subset : ∀ k ∈ platformCleared resourcePack, k ∈ resourcePackKeys := by
  rcases resourcePack with - | ⟨url, sha1, require, - | prompt⟩
  · exact fun k hk => hk
  · exact (by decide : ∀ k ∈ [resourcePackPromptKey], k ∈ resourcePackKeys)
  · exact nofun

/-- **The file has what the platform requires.** -/
theorem applied (content : Bytes) (gamePort : Option ℤ) (rconPassword : Str)
    (resourcePack : Option ResourcePackProperties) :
    Applied content (applyPlatformProperties content gamePort rconPassword resourcePack) gamePort rconPassword
      resourcePack where
  port := by
    cases gamePort with
    | some port =>
      rw [values_apply_some (by decide) (platformValues_lookup.trans (if_pos rfl)), merged_str]
      rfl
    | none =>
      rw [values_apply_none (by decide) (platformValues_lookup.trans (if_pos rfl)),
        if_neg fun hc => absurd (platformCleared_subset _ hc) (by decide)]
      rfl
  enableRcon := by rw [values_apply_some (by decide) (platformValues_lookup.trans rfl), merged_str]
  rconPort := by rw [values_apply_some (by decide) (platformValues_lookup.trans rfl), merged_str]
  password := by
    cases hpw : hasPassword content with
    | true =>
      rw [values_apply_none (by decide) (by rw [lookup_password, hpw]; rfl),
        if_neg fun hc => absurd (platformCleared_subset _ hc) (by decide)]
      rfl
    | false => exact values_apply_some (by decide) (by rw [lookup_password, hpw]; rfl)
  pack := by
    cases resourcePack with
    | none => exact values_apply_none (by decide) (platformValues_lookup.trans rfl)
    | some pack => exact values_apply_some (by decide) (platformValues_lookup.trans rfl)
  sha1 := by
    cases resourcePack with
    | none => exact values_apply_none (by decide) (platformValues_lookup.trans rfl)
    | some pack => exact values_apply_some (by decide) (platformValues_lookup.trans rfl)
  require := by
    cases resourcePack with
    | none => exact values_apply_none (by decide) (platformValues_lookup.trans rfl)
    | some pack =>
      rw [values_apply_some (by decide) (platformValues_lookup.trans rfl), merged_str]
      rfl
  prompt := by
    rcases resourcePack with - | ⟨url, sha1, require, - | prompt⟩
    · exact values_apply_none (by decide) (platformValues_lookup.trans rfl)
    · exact values_apply_none (by decide) (platformValues_lookup.trans rfl)
    · exact values_apply_some (by decide) (platformValues_lookup.trans rfl)
  others key hkey hmem := by
    have hl : (platformValues (parse content) gamePort rconPassword resourcePack).lookup key = none := by
      rw [List.lookup_eq_none_iff]
      intro p hp
      rw [bne_iff_ne]
      rintro rfl
      exact hmem (platformValues_keys.subset (List.mem_map.mpr ⟨p, hp, rfl⟩))
    have hsub : ∀ k ∈ resourcePackKeys, k ∈ platformManagedKeys := by decide
    rw [values_apply_none hkey hl, if_neg fun hc => hmem (hsub key (platformCleared_subset key hc))]

/-! ## Twice -/

theorem platform_key_ne (h : key ∈ platformManagedKeys) : key ≠ [] := by
  rintro rfl
  exact absurd h (by decide)

/-- What is written the second time was written the first time. -/
theorem lookup_again (hl : (platformValues (parse (applyPlatformProperties content gamePort rconPassword resourcePack))
      gamePort rconPassword resourcePack).lookup key = some value) :
    values (applyPlatformProperties content gamePort rconPassword resourcePack) key = [merged value] := by
  have happlied := (applied content gamePort rconPassword resourcePack).password
  by_cases hpw : key = rconPasswordKey
  · subst hpw
    rw [lookup_password] at hl
    split at hl
    · cases hl
    next hout =>
    cases hl
    rw [happlied, if_neg]
    intro hcontent
    rw [if_pos hcontent] at happlied
    rw [hasPassword, happlied] at hout
    exact hout hcontent
  · refine values_apply_some (platform_key_ne (mem_of_lookup hl)) ?_
    rw [platformValues_lookup] at hl ⊢
    simpa only [hpw, if_false] using hl

/-- What is cleared the second time was cleared the first time. -/
theorem cleared_again (hc : key ∈ platformCleared resourcePack) :
    values (applyPlatformProperties content gamePort rconPassword resourcePack) key = [] := by
  have hmem := platformCleared_subset key hc
  have hl : (platformValues (parse content) gamePort rconPassword resourcePack).lookup key = none := by
    rcases resourcePack with - | ⟨url, sha1, require, - | prompt⟩
    · simp only [resourcePackKeys, List.mem_cons, List.not_mem_nil, or_false] at hmem
      rcases hmem with rfl | rfl | rfl | rfl <;> exact platformValues_lookup.trans rfl
    · rw [show key = resourcePackPromptKey from List.mem_singleton.mp hc]
      exact platformValues_lookup.trans rfl
    · cases hc
  rw [values_apply_none ?_ hl, if_pos hc]
  rintro rfl
  exact absurd hmem (by decide)

/-- A file that ends in a line feed does not end in a carriage return once its properties are replaced, unless it is
closed. -/
theorem normalize_replaced (hlf : [lf] <:+ content) :
    entries (normalize (replaced content vs cleared)) = entries (replaced content vs cleared) := by
  refine entries_normalize fun hlone hcr => ?_
  rcases ending_replaced content vs cleared with hstart | ⟨-, u, v, w, hout, rfl, hw⟩
  · rw [hstart] at hlone
    cases hlone
  · rw [List.singleton_suffix_iff_getLast?_eq_some, List.getLast?_append_of_ne_nil _ hw] at hlf
    rw [hout, List.singleton_suffix_iff_getLast?_eq_some, List.getLast?_append_of_ne_nil _ hw, hlf] at hcr
    exact absurd hcr (by decide)

theorem ends_normalize (s : Bytes) : [lf] <:+ normalize s := by
  unfold normalize
  split
  · assumption
  · exact List.suffix_append _ _

/-- **The platform's half of the file is applied once.** -/
theorem entries_again :
    entries (applyPlatformProperties (applyPlatformProperties content gamePort rconPassword resourcePack) gamePort
      rconPassword resourcePack) = entries (applyPlatformProperties content gamePort rconPassword resourcePack) := by
  have hlf : [lf] <:+ applyPlatformProperties content gamePort rconPassword resourcePack := ends_normalize _
  obtain ⟨out, hout⟩ : ∃ out, applyPlatformProperties content gamePort rconPassword resourcePack = out := ⟨_, rfl⟩
  have hagain {k v : Str} (hl : (platformValues (parse out) gamePort rconPassword resourcePack).lookup k = some v) :
      values out k = [merged v] := by
    subst hout
    exact lookup_again hl
  have hcleared {k : Str} (hk : k ∈ platformCleared resourcePack) : values out k = [] := by
    subst hout
    exact cleared_again hk
  rw [hout] at hlf ⊢
  have hfilter {k : Str} {ws : List Str} (hk : values out k = ws) :
      (entries out).filter (·.1 = k) = ws.map fun v => (k, v) := by
    rw [← hk, values_eq, List.map_map]
    refine (List.map_id _).symm.trans (List.map_congr_left fun kv hkv => ?_)
    exact Prod.ext (of_decide_eq_true (List.mem_filter.mp hkv).2) rfl
  have happended : (platformValues (parse out) gamePort rconPassword resourcePack).filter
      (·.1 ∉ (entries out).map (·.1)) = [] := by
    rw [List.filter_eq_nil_iff]
    intro kv hkv
    have hsome : ((platformValues (parse out) gamePort rconPassword resourcePack).lookup kv.1).isSome :=
      List.lookup_isSome_iff.mpr ⟨kv, hkv, by simp⟩
    obtain ⟨v, hv⟩ := Option.isSome_iff_exists.mp hsome
    have hmem : (kv.1, merged v) ∈ (entries out).filter (·.1 = kv.1) := by
      rw [hfilter (hagain hv)]
      exact List.mem_singleton_self _
    rw [decide_eq_true_eq, not_not]
    exact List.mem_map.mpr ⟨_, (List.mem_filter.mp hmem).1, rfl⟩
  rw [applyPlatformProperties, rewrite_eq, happended, if_pos rfl, normalize_replaced hlf, entries_replaced]
  exact rewriteEntries_self (fun k v hl => hfilter (hagain hl)) (fun k v hl => merged_platform (mem_of_lookup hl)) fun k hk _ =>
    hfilter (hcleared hk)

/-- **`apply_platform_properties`** gives every platform key what the platform requires, whatever the file ends in, and
once it has, it changes nothing that the file reads. -/
theorem platform_applied (content : Bytes) (gamePort : Option ℤ) (rconPassword : Str)
    (resourcePack : Option ResourcePackProperties) :
    let out := applyPlatformProperties content gamePort rconPassword resourcePack
    Applied content out gamePort rconPassword resourcePack ∧
      (parse (applyPlatformProperties out gamePort rconPassword resourcePack)).map (fun p => (p.key, p.value)) =
        (parse out).map fun p => (p.key, p.value) := by
  refine ⟨applied content gamePort rconPassword resourcePack, ?_⟩
  rw [parse_entries, parse_entries]
  exact entries_again

/-- A password that the file has twice stays there twice. -/
theorem password_twice : (values (applyPlatformProperties (encode (str "rcon.password=a\nrcon.password=b\n"))
    (some 25565) (str "pw") none) rconPasswordKey).length = 2 := by
  decide +kernel

end McServerDashboard.Properties
