import McServerDashboard.Community.Commits

/-!
# The permission ceiling

What each statement of the repositories gives its transaction, and the transactions that confer permissions.

* `valid_lockActorCeiling`: each permission of the ceiling comes from rows that are locked.
* `valid_createRole`, `valid_updateRole`, `valid_assignRole`, `valid_createGrant`.
-/

namespace McServerDashboard.Community

open Lib

/-- Valid where the rows of `l` are locked and `C` is known. -/
abbrev Valid (p : Transaction) (l : Log Key.Row) (C : Database → Prop) : Prop := p.Valid spec l C

variable {cfg : Settings} {l : Log Key.Row} {C : Database → Prop} {tag : Tag} {ins : List Row} {k m r a u : ℕ}
  {resource roleToUpdate : Option ℕ} {d : Database}

/-! ## Tables -/

theorem membership?_eq {e : Row} {x : ℕ × Membership} : membership? e = some x ↔ e = ⟨.membership x.1, x.2⟩ := by
  constructor
  · fun_cases membership? e <;> simp +contextual [eq_comm]
  · rintro rfl
    rfl

theorem role?_eq {e : Row} {x : ℕ × Role} : role? e = some x ↔ e = ⟨.role x.1, x.2⟩ := by
  constructor
  · fun_cases role? e <;> simp +contextual [eq_comm]
  · rintro rfl
    rfl

theorem user?_eq {e : Row} {x : ℕ × User} : user? e = some x ↔ e = ⟨.user x.1, x.2⟩ := by
  constructor
  · fun_cases user? e <;> simp +contextual [eq_comm]
  · rintro rfl
    rfl

theorem assignment?_eq {e : Row} {x : ℕ × ℕ} : assignment? e = some x ↔ e = ⟨.assignment x.1 x.2, ()⟩ := by
  constructor
  · fun_cases assignment? e <;> simp +contextual [eq_comm]
  · rintro rfl
    rfl

theorem grant?_eq {e : Row} {x : ResourceGrant} : grant? e = some x ↔ ∃ g, e = ⟨.grant g, x⟩ := by
  constructor
  · fun_cases grant? e <;> simp +contextual [eq_comm]
  · rintro ⟨g, rfl⟩
    rfl

theorem on_eq {α : Type} {table : Row → Option α} {cond : α → Bool} {e : Row} :
    on table cond e = true ↔ ∃ x, table e = some x ∧ cond x = true := by
  simp [on, Option.any_eq_true]

theorem mem_permissionsOf {roles : List (ℕ × Role)} {held : List ℕ} {p : Permission} :
    p ∈ permissionsOf roles held ↔ ∃ x ∈ roles, x.1 ∈ held ∧ p ∈ x.2.permissions := by
  simp only [permissionsOf]
  induction roles with
  | nil => simp
  | cons x roles ih =>
    by_cases hx : x.1 ∈ held <;> simp [hx, ih]

/-! ## Statements -/

/-- What the locked rows of a table give. -/
theorem valid_lockOn {α : Type} {table : Row → Option α} {cond : α → Bool} {s : Strength}
    {next : List Row → Transaction} (hw : ∀ e x, table e = some x → (writes e.1).Conflicts s)
    (h : ∀ got l', l.Reads l' → got.keys.Nodup →
      (∀ x ∈ got.filterMap table, cond x = true ∧ ∃ e ∈ l'.held, table e = some x) → Valid (next got) l' C) :
    Valid (.lockWhere s (on table cond) next) l C := by
  refine Tx.Valid.lockWhere (fun e he => ?_) fun got hn hc => h got _ Log.reads_hold hn fun x hx => ?_
  · obtain ⟨x, hx, -⟩ := on_eq.mp he
    exact hw e x hx
  · obtain ⟨e, he, hex⟩ := List.mem_filterMap.mp hx
    obtain ⟨y, hy, hcond⟩ := on_eq.mp (hc e he)
    rw [hex, Option.some.injEq] at hy
    exact ⟨hy ▸ hcond, e, List.mem_append_right _ he, hex⟩

theorem valid_holdForUsers {us : List ℕ} {next : List (ℕ × Membership) → Transaction}
    (h : ∀ got l', l.Reads l' → (∀ x ∈ got, ⟨.membership x.1, x.2⟩ ∈ l'.held ∧ x.2.communityId = k ∧
      x.2.userId ∈ us) → Valid (next got) l' C) : Valid (holdForUsers k us next) l C := by
  refine valid_lockOn (fun e x hx => ?_) fun got l' hl _ hgot => h _ l' hl fun x hx => ?_
  · rw [membership?_eq.mp hx]
    exact Nat.le_add_right 3 _
  · obtain ⟨hc, e, he, hx⟩ := hgot x hx
    rw [membership?_eq] at hx
    exact ⟨hx ▸ he, by simpa using hc⟩

theorem valid_lockRoleIds {roleIds : List ℕ} {next : List ℕ → Transaction}
    (h : ∀ got l', l.Reads l' → (∀ r ∈ got, ⟨.assignment m r, ()⟩ ∈ l'.held) → Valid (next got) l' C) :
    Valid (lockRoleIds m roleIds next) l C := by
  unfold lockRoleIds
  split_ifs
  · exact h [] l .refl nofun
  · refine valid_lockOn (fun e x hx => ?_) fun got l' hl _ hgot => h _ l' hl fun r hr => ?_
    · rw [assignment?_eq.mp hx]
      exact Nat.le_add_right 3 _
    · obtain ⟨x, hx, rfl⟩ := List.mem_map.mp hr
      obtain ⟨hc, e, he, hx⟩ := hgot x hx
      rw [assignment?_eq] at hx
      obtain ⟨rfl, -⟩ : x.1 = m ∧ _ := by simpa using hc
      exact hx ▸ he

theorem valid_lockRole {s : Strength} {next : Option (ℕ × Role) → Transaction} (hs : 1 ≤ s.rank)
    (h : ∀ got l', l.Reads l' → (∀ x ∈ got, ⟨.role x.1, x.2⟩ ∈ l'.held ∧ x.1 = r) → Valid (next got) l' C) :
    Valid (lockRole r s next) l C := by
  refine valid_lockOn (fun e x hx => ?_) fun got l' hl _ hgot => h _ l' hl fun x hx => ?_
  · rw [role?_eq.mp hx]
    show 3 ≤ 2 + s.rank
    omega
  · obtain ⟨hc, e, he, hx⟩ := hgot x (List.mem_of_head? hx)
    rw [role?_eq] at hx
    exact ⟨hx ▸ he, by simpa using hc⟩

theorem valid_lockRoles {rs : List ℕ} {next : List (ℕ × Role) → Transaction}
    (h : ∀ got l', l.Reads l' → (∀ x ∈ got, ⟨.role x.1, x.2⟩ ∈ l'.held ∧ x.1 ∈ rs) → Valid (next got) l' C) :
    Valid (lockRoles roleToUpdate rs next) l C := by
  induction rs generalizing l next with
  | nil => exact h [] l .refl nofun
  | cons r rs ih =>
    refine valid_lockRole (by split_ifs <;> decide) fun found l₁ hl₁ hfound => ?_
    refine ih fun roles l₂ hl₂ hroles => h _ l₂ (hl₁.trans hl₂) fun x hx => ?_
    rcases List.mem_append.mp hx with hx | hx
    · obtain ⟨hx, hr⟩ := hfound x (Option.mem_toList.mp hx)
      exact ⟨hl₂.held _ hx, hr ▸ List.mem_cons_self⟩
    · obtain ⟨hx, hr⟩ := hroles x hx
      exact ⟨hx, List.mem_cons_of_mem _ hr⟩

theorem valid_lockByIds {rs : List ℕ} {next : List (ℕ × Role) → Transaction}
    (h : ∀ got l', l.Reads l' → (∀ x ∈ got, ⟨.role x.1, x.2⟩ ∈ l'.held ∧ x.1 ∈ rs ++ roleToUpdate.toList) →
      Valid (next got) l' C) : Valid (lockByIds rs roleToUpdate next) l C :=
  valid_lockRoles fun got l' hl hgot => h got l' hl fun x hx =>
    (hgot x hx).imp_right fun hr => List.mem_dedup.mp ((List.mem_insertionSort _).mp hr)

theorem valid_lockForUserResource {v : ℕ} {next : Option ResourceGrant → Transaction}
    (h : ∀ got l', l.Reads l' → (∀ x ∈ got, (∃ g, ⟨.grant g, x⟩ ∈ l'.held) ∧ x.userId = u ∧ x.communityId = k ∧
      x.resourceId = v) → Valid (next got) l' C) : Valid (lockForUserResource u k v next) l C := by
  refine valid_lockOn (fun e x hx => ?_) fun got l' hl _ hgot => h _ l' hl fun x hx => ?_
  · obtain ⟨g, rfl⟩ := grant?_eq.mp hx
    exact Nat.le_add_right 3 _
  · obtain ⟨hc, e, he, hx⟩ := hgot x (List.mem_of_head? hx)
    obtain ⟨g, rfl⟩ := grant?_eq.mp hx
    exact ⟨⟨g, he⟩, by simpa using hc⟩

theorem valid_resourceExists {v : ℕ} {next : Bool → Transaction}
    (h : ∀ found l', l.Reads l' → Valid (next found) l' C) : Valid (resourceExists k v next) l C := by
  refine Tx.Valid.lockWhere (fun e he => ?_) fun got _ _ => h _ _ Log.reads_hold
  split at he
  · exact Nat.le_add_right 3 _
  · cases he

/-! ## The ceiling -/

theorem valid_addActorGrant {ceiling : Finset Permission} {next : Finset Permission → Transaction}
    (hceiling : ∀ p ∈ ceiling, Holds (· ∈ l.held) a k resource p)
    (h : ∀ ceiling l', l.Reads l' → (∀ p ∈ ceiling, Holds (· ∈ l'.held) a k resource p) →
      Valid (next ceiling) l' C) : Valid (addActorGrant a k resource ceiling next) l C := by
  cases resource with
  | none => exact h ceiling l .refl hceiling
  | some v =>
    show Valid (lockForUserResource a k v fun g => next (ceiling ∪ g.elim ∅ (·.permissions))) l C
    refine valid_lockForUserResource fun g l' hl hg => h _ l' hl fun p hp => ?_
    rcases Finset.mem_union.mp hp with hp | hp
    · exact (hceiling p hp).mono hl.held
    · cases g with
      | none => simp at hp
      | some x =>
        obtain ⟨⟨g, hx⟩, hu, hk, rfl⟩ := hg x rfl
        exact .inr ⟨g, x, hx, hu, hk, rfl, hp⟩

/-- **Each permission of the ceiling comes from rows that are locked.** -/
theorem valid_lockActorCeiling {rolesToShare : List ℕ} {next : Finset Permission → Transaction}
    (h : ∀ ceiling l', l.Reads l' → (∀ p ∈ ceiling, Holds (· ∈ l'.held) a k resource p) →
      Valid (next ceiling) l' C) : Valid (lockActorCeiling a k resource roleToUpdate rolesToShare next) l C := by
  refine valid_holdForUsers fun memberships l₁ hl₁ hm => ?_
  split
  · refine valid_lockByIds fun _ l₂ hl₂ _ => valid_addActorGrant nofun fun ceiling l₃ hl₃ hceiling => ?_
    exact h ceiling l₃ ((hl₁.trans hl₂).trans hl₃) hceiling
  · rename_i m hhead
    obtain ⟨hmem, hk, hu⟩ := hm m (List.mem_of_head? hhead)
    rw [List.mem_singleton] at hu
    have hrow : (⟨a, k⟩ : Membership) = m.2 := by rw [← hu, ← hk]
    refine Tx.Valid.read fun d => ?_
    refine valid_lockByIds fun roles l₂ hl₂ hroles => valid_lockRoleIds fun held l₃ hl₃ hheld => ?_
    refine valid_addActorGrant (fun p hp => ?_) fun ceiling l₄ hl₄ hceiling =>
      h ceiling l₄ (((hl₁.trans hl₂).trans hl₃).trans hl₄) hceiling
    obtain ⟨x, hx, hxheld, hp⟩ := mem_permissionsOf.mp hp
    refine .inl ⟨m.1, x.1, x.2, ?_, hheld _ hxheld, hl₃.held _ (hroles x hx).1, hp⟩
    rw [hrow]
    exact hl₃.held _ (hl₂.held _ hmem)

theorem valid_checkPermissionCeiling {ceiling conferred : Finset Permission}
    {next : Finset Permission → Transaction} (h : conferred ⊆ ceiling → Valid (next conferred) l C) :
    Valid (checkPermissionCeiling ceiling conferred next) l C := by
  unfold checkPermissionCeiling
  split_ifs with hc
  · exact h (Finset.sdiff_eq_empty_iff_subset.mp hc)
  · trivial

theorem valid_enforcePermissionCeiling {conferred : Finset Permission} {next : Finset Permission → Transaction}
    (h : ∀ l', l.Reads l' → (∀ p ∈ conferred, Holds (· ∈ l'.held) a k resource p) →
      Valid (next conferred) l' C) : Valid (enforcePermissionCeiling a k conferred resource next) l C := by
  unfold enforcePermissionCeiling
  split_ifs with hc
  · subst hc
    exact h l .refl nofun
  · refine valid_lockActorCeiling fun ceiling l' hl hceiling => valid_checkPermissionCeiling fun hsub => ?_
    exact h l' hl fun p hp => hceiling p (hsub hp)

/-! ## Who confers -/

/-- A transaction that only inserts. -/
theorem Post.insert (hl : Log.empty.Reads l)
    (hp : ∀ r x, ⟨.role r, x⟩ ∈ ins → x.isPreset = true → .community x.communityId ∈ ins.keys)
    (hone : ∀ r r' x x', ⟨.role r, x⟩ ∈ ins → ⟨.role r', x'⟩ ∈ ins → x.isPreset = true → x'.isPreset = true →
      r = r') (hc : tag.Checked d l ins) : Post d l tag ins := by
  have hs : l.sets = [] := hl.sets
  have hg : l.gone = [] := hl.gone
  refine ⟨by simp [hs], by simp [hg], hp, hone, hc, fun k m x r ho => .inr ⟨m, x, r, ho, by simp [Spares, hg]⟩, ?_⟩
  rintro ⟨u, x, hx, hadmin⟩
  exact ⟨u, x, hx, hadmin, by simp [hg], by simp [hs]⟩

theorem valid_confers {e : Row} {checked : Finset Permission} (hl : Log.empty.Reads l)
    (hp : ∀ r x, e = ⟨.role r, x⟩ → x.isPreset = false)
    (hheld : ∀ p ∈ checked, Holds (· ∈ l.held) a k resource p)
    (hc : ∀ d, spec.Now l C d → confers d e = checked) :
    Valid (.commit (.confers a k resource checked) [e]) l C := by
  have hnone (r x) (hx : ⟨.role r, x⟩ ∈ [e]) (h : x.isPreset = true) : False := by
    rw [hp r x (List.mem_singleton.mp hx).symm] at h
    cases h
  refine fun d hd => Post.insert hl (fun r x hx h => (hnone r x hx h).elim)
    (fun r _ x _ hx _ h => (hnone r x hx h).elim) ⟨?_, fun p hp => ?_⟩
  · simp [conferred, hl.sets, Log.empty, hc d hd]
  · exact (hheld p hp).mono hd.agrees

theorem valid_createRole {id : ℕ} {name : String} {permissions : Finset Permission} :
    Valid (createRole cfg id k a name permissions) .empty C := by
  unfold createRole
  split_ifs
  · refine valid_enforcePermissionCeiling fun l hl hheld => valid_confers hl (fun r x hx => ?_) hheld fun _ _ => rfl
    simp only [Sigma.mk.injEq, Key.role.injEq] at hx
    obtain ⟨rfl, hx⟩ := hx
    rw [← eq_of_heq hx]
  · trivial

/-- The role that is written is not preset, and what it gains was checked. -/
theorem valid_writeRole {name : Option String} {permissions : Option (Finset Permission)}
    {checked : Finset Permission} (hl : Log.empty.Reads l)
    (hheld : ∀ p ∈ checked, Holds (· ∈ l.held) a k none p)
    (hrole : ∀ d, spec.Now l C d → ∀ x, d.rows (.role r) = some x →
      x.isPreset = false ∧ permissions.getD x.permissions \ x.permissions = checked) :
    Valid (writeRole k r a name permissions checked) l C := by
  refine ⟨Nat.le_refl _, fun _ => rfl, trivial, fun v d hd => ?_⟩
  have hread : l.Reads (l.hold .noKeyUpdate [⟨.role r, v⟩]) := Log.reads_hold
  have hv : d.rows (.role r) = some v := hd.agrees ⟨.role r, v⟩ (List.mem_append_right _ List.mem_cons_self)
  obtain ⟨hp, hc⟩ := hrole d (hd.mono hread.held id) v hv
  have hs : l.sets = [] := hl.sets
  have hg : l.gone = [] := hl.gone
  refine ⟨fun e he => ?_, ?_, nofun, nofun, ⟨?_, fun p hp => (hheld p hp).mono fun e he => ?_⟩,
    fun k m x r ho => .inr ⟨m, x, r, ho, ?_⟩, ?_⟩
  · simp only [Log.set, hs, List.mem_singleton] at he
    exact .inr ⟨r, v, _, he, hv, hp, hp, rfl⟩
  · simp [Log.set, Log.hold, hg]
  · simp [conferred, Log.set, hs, adds, rolePermissions, hv, hc]
  · exact hd.agrees e (hread.held e he)
  · simp [Spares, Log.set, Log.hold, hg]
  · rintro ⟨u, x, hx, hadmin⟩
    exact ⟨u, x, hx, hadmin, by simp [Log.set, Log.hold, hg], by simp [Log.set, hs]⟩

theorem valid_updateRole {name : Option String} {permissions : Option (Finset Permission)} :
    Valid (updateRole cfg k r a name permissions) .empty fun _ => True := by
  cases permissions with
  | none =>
    intro d hd
    dsimp only
    split
    · trivial
    · rename_i x hx
      split_ifs with hguard
      · trivial
      -- A role that was not preset when it was read is not preset now.
      refine valid_writeRole .refl nofun fun d' hd' y hy => ⟨?_, by simp⟩
      obtain ⟨w, hw, -, hp⟩ := hd'.cond.2.evolves.role r y hy (hd.wf.keys _ (hx ▸ Option.some_ne_none x))
      rw [hx, Option.some.injEq] at hw
      rw [← hp, ← hw]
      simp only [not_or, Bool.not_eq_true] at hguard
      exact hguard.2
  | some validated =>
    refine valid_lockActorCeiling fun ceiling l₁ hl₁ hceiling => ?_
    refine valid_lockRole (by decide) fun role l₂ hl₂ hrole => ?_
    split
    · trivial
    · rename_i x
      obtain ⟨id, x⟩ := x
      obtain ⟨hx, rfl⟩ := hrole ⟨id, x⟩ rfl
      split_ifs with hguard
      · trivial
      simp only [not_or, Bool.not_eq_true] at hguard
      refine valid_checkPermissionCeiling fun hsub => valid_writeRole (hl₁.trans hl₂)
        (fun p hp => (hceiling p (hsub hp)).mono hl₂.held) fun d hd y hy => ?_
      have hrow : d.rows (.role id) = some x := hd.agrees _ hx
      rw [hrow, Option.some.injEq] at hy
      rw [← hy]
      exact ⟨hguard.2.1, rfl⟩

theorem valid_assignRole : Valid (assignRole k u r a) .empty C := by
  refine valid_holdForUsers fun held l₁ hl₁ hheld => ?_
  split
  · trivial
  · rename_i m hm
    refine valid_lockActorCeiling fun ceiling l₂ hl₂ hceiling => ?_
    refine valid_lockByIds fun roles l₃ hl₃ hroles => ?_
    split
    · trivial
    · rename_i x hx
      obtain ⟨hmem, hr⟩ := hroles x (List.mem_of_head? hx)
      obtain rfl : x.1 = r := by simpa using hr
      split_ifs
      · trivial
      refine valid_checkPermissionCeiling fun hsub => Tx.Valid.read fun d => ?_
      dsimp only
      split_ifs
      · trivial
      refine valid_confers ((hl₁.trans hl₂).trans hl₃) nofun
        (fun p hp => (hceiling p (hsub hp)).mono hl₃.held) fun d hd => ?_
      have hrow : d.rows (.role x.1) = some x.2 := hd.agrees _ hmem
      simp [confers, rolePermissions, hrow]

theorem valid_createGrant {id v : ℕ} {permissions : Finset Permission} :
    Valid (createGrant cfg id k a u v permissions) .empty C := by
  unfold createGrant
  split_ifs
  · refine valid_holdForUsers fun held l₁ hl₁ hheld => ?_
    split
    · trivial
    · refine valid_resourceExists fun found l₂ hl₂ => ?_
      split_ifs
      · refine valid_enforcePermissionCeiling fun l₃ hl₃ hheld => ?_
        exact valid_confers ((hl₁.trans hl₂).trans hl₃) nofun hheld fun _ _ => rfl
      · trivial
  · trivial

end McServerDashboard.Community
