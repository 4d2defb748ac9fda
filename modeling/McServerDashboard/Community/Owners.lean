import Mathlib.Data.Finset.Lattice.Lemmas
import McServerDashboard.Community.Ceiling

/-!
# Who takes an Owner or an administrator away

The transactions that delete rows of communities, and those on users.

* `valid_guardLastOwner`: past its guard, a membership is not the only holder of Owner, unless nobody was
  found to hold it.
* `valid_guardLastAdmin`: past its guard, a user is not the only active administrator.
* **`valid_transaction`**: every request.
-/

namespace McServerDashboard.Community

open Lib

variable {cfg : Settings} {l : Log Key.Row} {C : Database → Prop} {tag : Tag} {ins more : List Row} {k m r a u : ℕ}
  {d : Database} {roots : List Key}

/-! ## Cascades -/

section Cascades

variable (h : schema.Cascade roots more) (hk : ∀ k, .community k ∉ roots)

include h

theorem cascade_leaf {e : Key} (he : ∀ v, parents ⟨e, v⟩ = []) (hm : e ∈ more.keys) : e ∈ roots := by
  obtain ⟨⟨e', v⟩, hmem, rfl⟩ := List.mem_map.mp hm
  rcases h _ hmem with hr | ⟨p, -, hp⟩
  · exact hr
  · rw [show schema.parents _ = [] from he v] at hp
    cases hp

include hk

theorem cascade_role (hm : .role r ∈ more.keys) : .role r ∈ roots := by
  obtain ⟨⟨e, x⟩, hmem, he⟩ := List.mem_map.mp hm
  obtain rfl : e = .role r := he
  rcases h _ hmem with hr | ⟨p, hpm, hp⟩
  · exact hr
  · have hmem := List.mem_map_of_mem (f := Sigma.fst) hpm
    have hp : p.1 = .community x.communityId := List.mem_singleton.mp hp
    exact absurd (cascade_leaf h (fun _ => rfl) (hp ▸ hmem)) (hk _)

theorem cascade_membership {x : Membership} (hm : ⟨.membership m, x⟩ ∈ more) :
    .membership m ∈ roots ∨ .user x.userId ∈ roots := by
  rcases h _ hm with hr | ⟨p, hpm, hp⟩
  · exact .inl hr
  · have hmem := List.mem_map_of_mem (f := Sigma.fst) hpm
    have hp : p.1 ∈ [.user x.userId, .community x.communityId] := hp
    simp only [List.mem_cons, List.not_mem_nil, or_false] at hp
    rcases hp with hp | hp
    · exact .inr (cascade_leaf h (fun _ => rfl) (hp ▸ hmem))
    · exact absurd (cascade_leaf h (fun _ => rfl) (hp ▸ hmem)) (hk _)

theorem cascade_assignment (hm : .assignment m r ∈ more.keys) :
    .assignment m r ∈ roots ∨ .role r ∈ roots ∨ .membership m ∈ more.keys := by
  obtain ⟨⟨e, v⟩, hmem, he⟩ := List.mem_map.mp hm
  obtain rfl : e = .assignment m r := he
  rcases h _ hmem with hr | ⟨p, hpm, hp⟩
  · exact .inl hr
  · have hmem := List.mem_map_of_mem (f := Sigma.fst) hpm
    have hp : p.1 ∈ [.membership m, .role r] := hp
    simp only [List.mem_cons, List.not_mem_nil, or_false] at hp
    rcases hp with hp | hp
    · exact .inr (.inr (hp ▸ hmem))
    · exact .inr (.inl (cascade_role h hk (hp ▸ hmem)))

end Cascades

/-- A deletion of rows that are no communities, and no preset roles. -/
theorem valid_delete (hl : Log.empty.Reads l) (ht : ∀ d l, conferred d l [] = ∅ → tag.Checked d l [])
    (hk : ∀ k, .community k ∉ roots)
    (hroles : ∀ d, spec.Now l C d → ∀ r x, .role r ∈ roots → d.rows (.role r) = some x → x.isPreset = false)
    (howners : ∀ d, spec.Now l C d → ∀ k m x r, Owner d k m x r → tag.Risks d m x r ∨
      ∃ m' x' r', Owner d k m' x' r' ∧ .assignment m' r' ∉ roots ∧ .membership m' ∉ roots ∧
        .user x'.userId ∉ roots)
    (hadmins : ∀ d, spec.Now l C d → HasAdmin d →
      ∃ u x, d.rows (.user u) = some x ∧ x.isActiveAdmin = true ∧ .user u ∉ roots) :
    Valid (.delete (fun _ => roots) (.commit tag [])) l C := by
  intro d₀ _ more hmore d hd
  have hread : l.Reads (l.hold .update more) := Log.reads_hold
  have hnow : spec.Now l C d := hd.mono hread.held fun h => h.1
  have hs : l.sets = [] := hl.sets
  have hg : l.gone = [] := hl.gone
  have hgone : (l.delete more).gone = more.keys := by simp [Log.delete, Log.hold, hg]
  refine ⟨by simp [Log.delete, Log.hold, hs], fun r x hr hx => ?_, (by simp), (by simp), ht _ _ ?_,
    fun k m x r ho => ?_, fun hadmin => ?_⟩
  · exact hroles d hnow r x (cascade_role hmore hk (hgone ▸ hr)) hx
  · simp [conferred, Log.delete, Log.hold, hs]
  · refine (howners d hnow k m x r ho).imp_right ?_
    rintro ⟨m', x', r', ho', ha, hm, hu⟩
    have hmem : .membership m' ∉ (l.delete more).gone := by
      rw [hgone]
      intro hin
      obtain ⟨⟨e, y⟩, hy, he⟩ := List.mem_map.mp hin
      obtain rfl : e = .membership m' := he
      have hrow : d.rows (.membership m') = some y := hd.agrees _ (List.mem_append_right _ hy)
      rw [ho'.membership, Option.some.injEq] at hrow
      subst hrow
      rcases cascade_membership hmore hk hy with h | h
      · exact hm h
      · exact hu h
    refine ⟨m', x', r', ho', hmem, fun hin => ?_⟩
    rcases cascade_assignment hmore hk (hgone ▸ hin) with h | h | h
    · exact ha h
    · obtain ⟨y, hy, -, hp⟩ := ho'.role
      have := hroles d hnow r' y h hy
      simp [Role.isPresetOwner, this] at hp
    · exact hmem (hgone ▸ h)
  · obtain ⟨u, x, hx, hactive, hu⟩ := hadmins d hnow hadmin
    exact ⟨u, x, hx, hactive, fun hin => hu (cascade_leaf hmore (fun _ => rfl) (hgone ▸ hin)),
      by simp [Log.delete, Log.hold, hs]⟩

/-! ## The last Owner -/

theorem mem_select {α : Type} {table : Row → Option α} {cond : α → Bool} {x : α} :
    x ∈ select d table cond ↔ ∃ e, e.1 ∈ d.keys ∧ Has d e ∧ table e = some x ∧ cond x = true := by
  simp only [select, List.mem_filterMap, Option.filter_eq_some_iff]
  constructor
  · rintro ⟨e, ⟨key, hkey, he⟩, hx, hc⟩
    obtain ⟨v, hv, rfl⟩ := Option.map_eq_some_iff.mp he
    exact ⟨⟨key, v⟩, hkey, hv, hx, hc⟩
  · rintro ⟨⟨key, v⟩, hkey, hv, hx, hc⟩
    exact ⟨⟨key, v⟩, ⟨key, hkey, Option.map_eq_some_iff.mpr ⟨v, hv, rfl⟩⟩, hx, hc⟩

/-- Of two rows with keys of their own one has another key than a given one. -/
theorem exists_other {α : Type} {table : Row → Option α} {got : List Row} (hn : got.keys.Nodup)
    (h : 1 < (got.filterMap table).length) (key : Key) :
    ∃ e ∈ got, e.1 ≠ key ∧ ∃ x, table e = some x := by
  by_contra hall
  simp only [not_exists, not_and] at hall
  have hkeys : ∀ k ∈ (got.filter (table · |>.isSome)).keys, k = key := by
    intro k hk
    obtain ⟨e, he, rfl⟩ := List.mem_map.mp hk
    obtain ⟨hmem, hsome⟩ := List.mem_filter.mp he
    obtain ⟨x, hx⟩ := Option.isSome_iff_exists.mp hsome
    by_contra hne
    exact hall e hmem hne x hx
  have hnodup : (got.filter (table · |>.isSome)).keys.Nodup := hn.sublist (List.filter_sublist.map _)
  rw [List.eq_replicate_of_mem hkeys, List.nodup_replicate] at hnodup
  have hlen : (got.filterMap table).length = (got.filter (table · |>.isSome)).keys.length := by
    rw [List.length_filterMap_eq_countP, List.countP_eq_length_filter]
    exact (List.length_map _).symm
  omega

theorem mem_holders {got : List Row} : m ∈ (got.filterMap assignment?).map (·.1) ↔
    ∃ r, ⟨.assignment m r, ()⟩ ∈ got := by
  simp only [List.mem_map, List.mem_filterMap]
  constructor
  · rintro ⟨x, ⟨e, he, hx⟩, rfl⟩
    exact ⟨x.2, assignment?_eq.mp hx ▸ he⟩
  · rintro ⟨r, he⟩
    exact ⟨(m, r), ⟨_, he, rfl⟩, rfl⟩

/-- The holders that are found stay holders; a member who holds the role and was not found did not hold it
when the statement looked. -/
theorem valid_lockOwnerRoleHolders {next : List ℕ → Transaction}
    (h : ∀ holders l' C', l.Reads l' → (∀ d, C' d → C d) →
      (∀ d, spec.Now l' C' d → ∀ m ∈ holders, d.rows (.assignment m r) = some () ∧
        ∃ x, d.rows (.membership m) = some x ∧ x.communityId = k) →
      (1 < holders.length → ∀ m, ∃ m' ∈ holders, m' ≠ m) →
      (∀ m ∉ holders, ∀ d, spec.Now l' C' d → ∀ x, d.rows (.membership m) = some x → x.communityId = k →
        ∃ d₀, C d₀ ∧ spec.Later l d₀ d ∧ d₀.rows (.assignment m r) = none) → Valid (next holders) l' C') :
    Valid (lockOwnerRoleHolders k r next) l C := by
  intro d₁ hd₁
  refine ⟨fun key _ => Nat.le_add_left 3 _, fun got hsub hgot => ?_⟩
  have hrow {m r'} (he : ⟨.assignment m r', ()⟩ ∈ got) : r' = r := by simpa [on, assignment?] using hgot _ he
  have hn : got.keys.Nodup := hsub.nodup ((hd₁.wf.nodup.filter _).filter _)
  refine h _ _ _ Log.reads_hold (fun d hd => hd.1.1) (fun d hd m hm => ?_) (fun hlen m => ?_)
    fun m hm d hd x hx hxk => ?_
  · obtain ⟨r', he⟩ := mem_holders.mp hm
    obtain rfl := hrow he
    have ha : d.rows (.assignment m r') = some () := hd.agrees _ (List.mem_append_right _ he)
    obtain ⟨x, hx⟩ := Option.ne_none_iff_exists'.mp (hd.wf.parents _ _ ha _ List.mem_cons_self)
    refine ⟨ha, x, hx, ?_⟩
    -- The membership was joined with the assignment when the statement started.
    obtain ⟨-, hjoin⟩ := List.mem_filter.mp (hsub.subset (List.mem_map_of_mem he))
    obtain ⟨y, hy, hyk⟩ := (Option.any_eq_true _ _).mp hjoin
    have hx₁ := hd.cond.1.2.evolves.membership m x hx (hd₁.wf.keys _ (hy ▸ Option.some_ne_none y))
    rw [hy, Option.some.injEq] at hx₁
    rw [← hx₁]
    exact of_decide_eq_true hyk
  · rw [List.length_map] at hlen
    obtain ⟨e, he, hne, x, hx⟩ := exists_other hn hlen (.assignment m r)
    rw [assignment?_eq] at hx
    subst hx
    refine ⟨x.1, mem_holders.mpr ⟨x.2, he⟩, fun hm => hne ?_⟩
    rw [hm, hrow he]
  · cases ha₁ : d₁.rows (.assignment m r) with
    | none => exact ⟨d₁, hd₁.cond, hd.cond.1.2, ha₁⟩
    | some _ => ?_
    -- It was there when the statement started, so it was looked at, and left out.
    have hk₁ := hd₁.wf.keys _ (hd₁.wf.parents _ _ ha₁ _ List.mem_cons_self)
    have hx₁ := hd.cond.1.2.evolves.membership m x hx hk₁
    have hmissed : Key.assignment m r ∉ got.keys := by
      intro hg
      obtain ⟨⟨key, v⟩, he, hek⟩ := List.mem_map.mp hg
      obtain rfl : key = .assignment m r := hek
      exact hm (mem_holders.mpr ⟨r, he⟩)
    have hfound : Key.assignment m r ∈ d₁.filter (on assignment? (·.2 = r)) :=
      hd₁.wf.mem_filter.mpr ⟨(), ha₁, by simp [on, assignment?]⟩
    obtain ⟨d₂, hC₂, hlater, hcond⟩ := hd.cond.2 _ (List.mem_filter.mpr ⟨hfound, by simp [hx₁, hxk]⟩) hmissed
    refine ⟨d₂, hC₂.1, hlater, ?_⟩
    cases ha₂ : d₂.rows (.assignment m r) with
    | none => rfl
    | some v =>
      have := hcond v ha₂
      simp [on, assignment?] at this

/-- The role Owner that a listing finds. -/
theorem row_of_find? {d : Database} {role : ℕ × Role}
    (h : (select d role? (·.2.communityId = k)).find? (·.2.isPresetOwner) = some role) :
    role.2.isPresetOwner = true ∧ d.rows (.role role.1) = some role.2 ∧ role.2.communityId = k := by
  obtain ⟨e, -, he, hrole, hyk⟩ := mem_select.mp (List.mem_of_find?_eq_some h)
  rw [role?_eq] at hrole
  subst hrole
  exact ⟨by simpa using List.find?_some h, he, by simpa using hyk⟩

/-- Where a listing finds none, none comes to the community that is there. -/
theorem not_owner_of_find? {d d₀ : Database} {x : Membership} (hwf : schema.Wf d₀) (he : Evolves d₀ d)
    (hk : .community k ∈ d₀.keys) (h : (select d₀ role? (·.2.communityId = k)).find? (·.2.isPresetOwner) = none) :
    ¬Owner d k m x r := by
  intro ho
  obtain ⟨y, hy, hyk, hp⟩ := ho.role
  have hy₀ := he.old r y hy (Bool.and_eq_true_iff.mp hp).1 (hyk ▸ hk)
  have hmem : (r, y) ∈ select d₀ role? (·.2.communityId = k) :=
    mem_select.mpr ⟨⟨.role r, y⟩, hwf.keys _ (hy₀ ▸ Option.some_ne_none y), hy₀, rfl, by simpa using hyk⟩
  exact absurd hp (List.find?_eq_none.mp h _ hmem)

/-- Past the guard, the membership is not the only holder, unless nobody was found to hold the role; then it did
not hold it when the guard looked. -/
theorem valid_guardLastOwner {next : Bool → Transaction} (hk : ∀ d, spec.Now l C d → .community k ∈ d.keys)
    (h : ∀ unheld l' C', l.Reads l' → (∀ d, C' d → C d) →
      (∀ d, spec.Now l' C' d → ∀ x r, Owner d k m x r → (∃ m' x' r', m' ≠ m ∧ Owner d k m' x' r') ∨
        unheld = true ∧ ∃ d₀, C d₀ ∧ spec.Later l d₀ d ∧ d₀.rows (.assignment m r) = none) →
      Valid (next unheld) l' C') :
    Valid (guardLastOwner k m next) l C := by
  intro d₀ hd₀
  dsimp only
  split
  · rename_i hnone
    exact h false l _ .refl (fun d hd => hd.1) fun d hd x r ho =>
      (not_owner_of_find? hd₀.wf hd.cond.2.evolves (hk d₀ hd₀) hnone ho).elim
  · rename_i role hsome
    obtain ⟨r₀, y₀⟩ := role
    obtain ⟨hp₀, hy₀, hyk₀⟩ := row_of_find? hsome
    refine valid_lockOwnerRoleHolders fun holders l' C' hl hC hheld hother hunheld => ?_
    have hrow {d} (hd : spec.Now l' C' d) : d.rows (.role r₀) = some y₀ :=
      (hC d hd.cond).2.evolves.preset r₀ y₀ hy₀ (Bool.and_eq_true_iff.mp hp₀).1
    have hone {d} (hd : spec.Now l' C' d) {x r} (ho : Owner d k m x r) : r = r₀ := by
      obtain ⟨y, hy, hyk, hp⟩ := ho.role
      exact hd.inv r r₀ y y₀ hy (hrow hd) (Bool.and_eq_true_iff.mp hp).1 (Bool.and_eq_true_iff.mp hp₀).1
        (hyk.trans hyk₀.symm)
    have owner {d} (hd : spec.Now l' C' d) {m'} (hm : m' ∈ holders) : ∃ x, Owner d k m' x r₀ := by
      obtain ⟨ha, x, hx, hxk⟩ := hheld d hd m' hm
      exact ⟨x, hx, hxk, ⟨y₀, hrow hd, hyk₀, hp₀⟩, ha⟩
    split_ifs with hm hlen
    · refine h false l' C' hl (fun d hd => (hC d hd).1) fun d hd x r ho => ?_
      obtain ⟨m', hm', hne⟩ := hother hlen m
      obtain ⟨x', ho'⟩ := owner hd hm'
      exact .inl ⟨m', x', r₀, hne, ho'⟩
    · trivial
    · refine h _ l' C' hl (fun d hd => (hC d hd).1) fun d hd x r ho => ?_
      by_cases hempty : holders = []
      · refine .inr ⟨decide_eq_true hempty, ?_⟩
        obtain rfl := hone hd ho
        obtain ⟨d₂, hC₂, hlater, hnone⟩ := hunheld m hm d hd x ho.membership ho.member
        exact ⟨d₂, hC₂.1, hlater, hnone⟩
      · obtain ⟨m', hm'⟩ := List.exists_mem_of_ne_nil _ hempty
        obtain ⟨x', ho'⟩ := owner hd hm'
        exact .inl ⟨m', x', r₀, fun heq => hm (heq ▸ hm'), ho'⟩

/-! ## Deletions -/

theorem valid_deleteRole : Valid (deleteRole k r) .empty C := by
  intro d₀ hd₀
  dsimp only
  split
  · trivial
  · rename_i x hx
    split_ifs with hguard
    · trivial
    refine valid_delete .refl (fun _ _ h => h) (by simp) (fun d hd r' y hr hy => ?_)
      (fun d hd k m x r ho => .inr ⟨m, x, r, ho, by simp⟩) fun d hd ⟨u, x, hx, ha⟩ => ⟨u, x, hx, ha, by simp⟩
    obtain rfl : r' = r := by simpa using hr
    obtain ⟨w, hw, -, hp⟩ := hd.cond.2.evolves.role r' y hy (hd₀.wf.keys _ (hx ▸ Option.some_ne_none x))
    rw [hx, Option.some.injEq] at hw
    simp only [not_or, Bool.not_eq_true] at hguard
    rw [← hp, ← hw]
    exact hguard.2

theorem valid_revokeGrant {g : ℕ} : Valid (revokeGrant k g) .empty C := by
  intro d₀ hd₀
  dsimp only
  split
  · trivial
  · split_ifs
    · trivial
    · exact valid_delete .refl (fun _ _ h => h) (by simp) (by simp)
        (fun d hd k m x r ho => .inr ⟨m, x, r, ho, by simp⟩) fun d hd ⟨u, x, hx, ha⟩ => ⟨u, x, hx, ha, by simp⟩

theorem valid_unassignRole : Valid (unassignRole k u r) .empty C := by
  intro d₁ hd₁
  dsimp only
  split
  · trivial
  · rename_i m hhead
    obtain ⟨m, x⟩ := m
    obtain ⟨e, -, he, hm, hx⟩ := mem_select.mp (List.mem_of_head? hhead)
    rw [membership?_eq] at hm
    subst hm
    have hrow : d₁.rows (.membership m) = some x := he
    have hk₁ : x.userId = u ∧ x.communityId = k := by simpa using hx
    intro d₂ hd₂
    dsimp only
    split
    · trivial
    rename_i y hy
    have hadmins (d : Database) : HasAdmin d →
        ∃ u x, d.rows (.user u) = some x ∧ x.isActiveAdmin = true ∧ .user u ∉ [Key.assignment m r] :=
      fun ⟨u, x, hx, ha⟩ => ⟨u, x, hx, ha, by simp⟩
    split_ifs with hyk hp
    · trivial
    · refine valid_guardLastOwner (fun d hd => ?_) fun unheld l' C' hl hC hguard => ?_
      · refine hd.cond.1.2.evolves.keys _ (hd₁.wf.keys _ (hd₁.wf.parents _ _ hrow _ ?_))
        rw [← hk₁.2]
        exact List.mem_cons_of_mem _ List.mem_cons_self
      · refine valid_delete hl (by split_ifs <;> exact fun _ _ h => h) (by simp) (by simp)
          (fun d hd k' m' x' r' ho => ?_) fun d _ => hadmins d
        by_cases heq : m' = m
        · subst heq
          have hx' := (hC d hd.cond).1.2.evolves.membership m' x' ho.membership
            (hd₁.wf.keys _ (hrow ▸ Option.some_ne_none x))
          rw [hrow, Option.some.injEq] at hx'
          obtain rfl : k' = k := by rw [← ho.member, ← hx', hk₁.2]
          rcases hguard d hd x' r' ho with ⟨m₂, x₂, r₂, hne, ho₂⟩ | ⟨hu, d₀, hd₀, hlater, hnone⟩
          · exact .inr ⟨m₂, x₂, r₂, ho₂, by simp [hne]⟩
          · rw [if_pos hu]
            exact .inl ⟨rfl, hlater.evolves.mem_since hd₀.1.2.evolves.inserted_le ho.assigned hnone⟩
        · exact .inr ⟨m', x', r', ho, by simp [heq]⟩
    · refine valid_delete .refl (fun _ _ h => h) (by simp) (by simp) (fun d hd k' m' x' r' ho => ?_)
        fun d _ => hadmins d
      refine .inr ⟨m', x', r', ho, ?_, by simp, by simp⟩
      simp only [List.mem_singleton, Key.assignment.injEq, not_and]
      rintro - rfl
      -- The role is Owner now, so it was when it was read.
      obtain ⟨z, hz, -, hpz⟩ := ho.role
      have hpreset := (Bool.and_eq_true_iff.mp hpz).1
      obtain ⟨w, hw, -, hwz⟩ := hd.cond.2.evolves.role r' z hz (hd₂.wf.keys _ (hy ▸ Option.some_ne_none y))
      have hzy := hd.cond.2.evolves.preset r' w hw (hwz.trans hpreset)
      rw [hy, Option.some.injEq] at hw
      rw [hz, Option.some.injEq] at hzy
      exact hp (hw ▸ hzy ▸ hpz)

/-- Nobody else locks the membership. -/
theorem valid_lockByUserAndCommunity {next : Option (ℕ × Membership) → Transaction}
    (h : ∀ got l', l.Reads l' → (∀ x ∈ got, ⟨.membership x.1, x.2⟩ ∈ l'.held ∧ .membership x.1 ∈ l'.firm ∧
      x.2.userId = u ∧ x.2.communityId = k) → Valid (next got) l' C) :
    Valid (lockByUserAndCommunity u k next) l C := by
  refine Tx.Valid.lockWhere (fun e he => Nat.le_add_left 3 _) fun got _ hgot => h _ _ Log.reads_hold fun x hx => ?_
  obtain ⟨e, he, hex⟩ := List.mem_filterMap.mp (List.mem_of_head? hx)
  obtain ⟨y, hy, hcond⟩ := on_eq.mp (hgot e he)
  rw [hex, Option.some.injEq] at hy
  subst hy
  rw [membership?_eq] at hex
  subst hex
  exact ⟨List.mem_append_right _ he, List.mem_append_right _ (List.mem_map_of_mem (f := Sigma.fst) he),
    by simpa using hcond⟩

theorem valid_removeMember : Valid (removeMember k u) .empty C := by
  refine valid_lockByUserAndCommunity fun membership l₁ hl₁ hm => ?_
  split
  · trivial
  · rename_i m
    obtain ⟨m, x⟩ := m
    obtain ⟨hheld, hfirm, -, hxk⟩ := hm (m, x) rfl
    refine valid_guardLastOwner (fun d hd => ?_) fun unheld l₂ C₂ hl₂ hC₂ hguard => ?_
    · refine hd.wf.keys _ (hd.wf.parents _ _ (hd.agrees _ hheld) _ ?_)
      rw [← hxk]
      exact List.mem_cons_of_mem _ List.mem_cons_self
    · refine valid_delete (hl₁.trans hl₂) (fun _ _ h => h) (by simp) (by simp) (fun d hd k' m' x' r' ho => .inr ?_)
        fun d _ ⟨u, x, hx, ha⟩ => ⟨u, x, hx, ha, by simp⟩
      by_cases heq : m' = m
      · subst heq
        have hx' : d.rows (.membership m') = some x := hd.agrees _ (hl₂.held _ hheld)
        rw [ho.membership, Option.some.injEq] at hx'
        obtain rfl : k' = k := by rw [← ho.member, hx', hxk]
        rcases hguard d hd x' r' ho with ⟨m₂, x₂, r₂, hne, ho₂⟩ | ⟨-, d₀, -, hlater, hnone⟩
        · exact ⟨m₂, x₂, r₂, ho₂, by simp [hne]⟩
        · -- What refers to the locked membership now referred to it all the time.
          obtain ⟨w, hw, -⟩ := hlater.firm _ hfirm (.assignment m' r') () ho.assigned List.mem_cons_self
          exact absurd (hw.symm.trans hnone) (Option.some_ne_none w)
      · exact ⟨m', x', r', ho, by simp [heq]⟩

/-! ## The last administrator -/

/-- Past the guard, a user is not the only active administrator. -/
theorem valid_guardLastAdmin {next : Transaction}
    (h : ∀ l', l.Reads l' → (∀ d, spec.Now l' C d → HasAdmin d →
      ∃ u' x, u' ≠ u ∧ d.rows (.user u') = some x ∧ x.isActiveAdmin = true) → Valid next l' C) :
    Valid (guardLastAdmin u next) l C := by
  refine Tx.Valid.lockWhere (fun e he => ?_) fun got hn hgot => ?_
  · obtain ⟨x, hx, -⟩ := on_eq.mp he
    rw [user?_eq.mp hx]
    exact Nat.le_add_left 3 1
  have hrow {d x} (hd : spec.Now (l.hold .noKeyUpdate got) C d) (hx : x ∈ got.filterMap user?) :
      d.rows (.user x.1) = some x.2 := by
    obtain ⟨e, he, hex⟩ := List.mem_filterMap.mp hx
    rw [user?_eq] at hex
    subst hex
    exact hd.agrees _ (List.mem_append_right _ he)
  dsimp only
  split
  · trivial
  · rename_i x hfind
    obtain ⟨y, hy, rfl⟩ := Option.map_eq_some_iff.mp hfind
    have hyu : y.1 = u := by simpa using List.find?_some hy
    split_ifs with hguard
    · trivial
    refine h _ Log.reads_hold fun d hd ⟨u₀, x₀, hx₀, ha₀⟩ => ?_
    by_cases hactive : y.2.isActiveAdmin = true
    · -- The user is one of them, so there is another.
      have hcount : 1 < ((got.filterMap user?).filter fun x => x.2.isPlatformAdmin ∧ x.2.active).length := by
        simp only [User.isActiveAdmin, Bool.and_eq_true] at hactive
        simp only [not_and, not_le] at hguard
        exact hguard hactive.1 hactive.2
      rw [List.filter_filterMap] at hcount
      obtain ⟨e, he, hne, z, hz⟩ := exists_other hn hcount (.user u)
      obtain ⟨hze, hadmin⟩ := Option.filter_eq_some_iff.mp hz
      have hzrow := hrow hd (List.mem_filterMap.mpr ⟨e, he, hze⟩)
      rw [user?_eq] at hze
      subst hze
      exact ⟨z.1, z.2, fun heq => hne (congrArg Key.user heq), hzrow, by simpa [User.isActiveAdmin] using hadmin⟩
    · refine ⟨u₀, x₀, fun heq => hactive ?_, hx₀, ha₀⟩
      have := hrow hd (List.mem_of_find?_eq_some hy)
      rw [hyu, ← heq, hx₀, Option.some.injEq] at this
      exact this ▸ ha₀

theorem valid_writeUser {set : User → User} (hl : Log.empty.Reads l)
    (h : ∀ d, spec.Now l C d → HasAdmin d → ∃ u' x, d.rows (.user u') = some x ∧ x.isActiveAdmin = true ∧
      (u' = u → (set x).isActiveAdmin = true)) : Valid (writeUser u set) l C := by
  refine ⟨Nat.le_refl _, fun _ => rfl, trivial, fun v d hd => ?_⟩
  have hread : l.Reads (l.hold .noKeyUpdate [⟨.user u, v⟩]) := Log.reads_hold
  have hv : d.rows (.user u) = some v := hd.agrees ⟨.user u, v⟩ (List.mem_append_right _ List.mem_cons_self)
  have hs : l.sets = [] := hl.sets
  have hg : l.gone = [] := hl.gone
  refine ⟨fun e he => ?_, by simp [Log.set, Log.hold, hg], nofun, nofun, ?_,
    fun k m x r ho => .inr ⟨m, x, r, ho, by simp [Spares, Log.set, Log.hold, hg]⟩, fun hadmin => ?_⟩
  · simp only [Log.set, hs, List.mem_singleton] at he
    exact .inl (he ▸ rfl)
  · simp [Tag.Checked, conferred, Log.set, hs, adds]
  · obtain ⟨u', x, hx, ha, hset⟩ := h d (hd.mono hread.held id) hadmin
    refine ⟨u', x, hx, ha, by simp [Log.set, Log.hold, hg], fun y hy => ?_⟩
    simp only [Log.set, hs, List.mem_singleton, Sigma.mk.injEq, Key.user.injEq] at hy
    obtain ⟨rfl, hy⟩ := hy
    rw [hv, Option.some.injEq] at hx
    rw [eq_of_heq hy, hx]
    exact hset rfl

theorem valid_setPlatformAdmin {grant : Bool} : Valid (setPlatformAdmin u grant) .empty C := by
  unfold setPlatformAdmin
  split_ifs
  · refine Tx.Valid.read fun d => ?_
    split_ifs
    · refine valid_writeUser .refl fun d hd ⟨u', x, hx, ha⟩ => ⟨u', x, hx, ha, fun _ => ?_⟩
      simp only [User.isActiveAdmin, Bool.and_eq_true] at ha ⊢
      exact ⟨trivial, ha.2⟩
    · trivial
  · refine valid_guardLastAdmin fun l hl hother => valid_writeUser hl fun d hd hadmin => ?_
    obtain ⟨u', x, hne, hx, ha⟩ := hother d hd hadmin
    exact ⟨u', x, hx, ha, fun heq => absurd heq hne⟩

theorem valid_setUserActive {active : Bool} : Valid (setUserActive a u active) .empty C := by
  unfold setUserActive
  split_ifs
  · refine Tx.Valid.read fun d => ?_
    split_ifs
    · refine valid_writeUser .refl fun d hd ⟨u', x, hx, ha⟩ => ⟨u', x, hx, ha, fun _ => ?_⟩
      simp only [User.isActiveAdmin, Bool.and_eq_true] at ha ⊢
      exact ⟨ha.1, trivial⟩
    · trivial
  · trivial
  · refine valid_guardLastAdmin fun l hl hother => valid_writeUser hl fun d hd hadmin => ?_
    obtain ⟨u', x, hne, hx, ha⟩ := hother d hd hadmin
    exact ⟨u', x, hx, ha, fun heq => absurd heq hne⟩

/-! ## Accounts -/

/-- An account is found to own nothing only if every role Owner that one of the memberships has by then was
assigned since: by induction on the memberships, each of which is read twice. -/
theorem valid_ownsAny {ms : List (ℕ × Membership)} {next : Bool → Transaction} {n : ℕ}
    (hn : ∀ d, C d → n ≤ d.inserted.length)
    (hms : ∀ d, spec.Now l C d → ∀ x ∈ ms, .community x.2.communityId ∈ d.keys)
    (h : ∀ b C', (∀ d, C' d → C d) → (b = false → ∀ d, spec.Now l C' d → ∀ x ∈ ms, ∀ k r, Owner d k x.1 x.2 r →
      .assignment x.1 r ∈ d.since n) → Valid (next b) l C') : Valid (ownsAny ms next) l C := by
  induction ms generalizing C with
  | nil => exact h false C (fun _ hd => hd) fun _ _ _ x hx => absurd hx List.not_mem_nil
  | cons m ms ih =>
    intro d₁ hd₁
    have hk₁ := hms d₁ hd₁ m List.mem_cons_self
    have tail {C' : Database → Prop} (hC : ∀ d, C' d → C d) (hd) (hnow : spec.Now l C' hd) (x) (hx : x ∈ ms) :
        .community x.2.communityId ∈ hd.keys := hms hd (hnow.mono (fun _ he => he) (hC hd)) x (List.mem_cons_of_mem _ hx)
    dsimp only
    split
    · rename_i hnone
      refine ih (fun d hd => hn d hd.1) (tail fun d hd => hd.1) fun b C' hC hsince =>
        h b C' (fun d hd => (hC d hd).1) fun hb d hd x hx k r ho => ?_
      rcases List.mem_cons.mp hx with rfl | hx
      · -- The community had no role Owner, and none comes to it.
        obtain rfl : x.2.communityId = k := ho.member
        exact (not_owner_of_find? hd₁.wf (hC d hd.cond).2.evolves hk₁ hnone ho).elim
      · exact hsince hb d hd x hx k r ho
    · rename_i role hsome
      obtain ⟨r₀, y₀⟩ := role
      obtain ⟨hp₀, he, hyk₀⟩ := row_of_find? hsome
      intro d₂ hd₂
      dsimp only
      split_ifs with hheld
      · exact h true _ (fun d hd => hd.1.1) fun hb => by cases hb
      · refine ih (fun d hd => hn d hd.1.1) (tail fun d hd => hd.1.1) fun b C' hC hsince =>
          h b C' (fun d hd => (hC d hd).1.1) fun hb d hd x hx k r ho => ?_
        rcases List.mem_cons.mp hx with rfl | hx
        · have hlater := (hC d hd.cond).2
          have hk : x.2.communityId = k := ho.member
          have hrow : d.rows (.role r₀) = some y₀ :=
            (hC d hd.cond).1.2.evolves.preset r₀ y₀ he (Bool.and_eq_true_iff.mp hp₀).1
          obtain ⟨y, hy, hyk, hp⟩ := ho.role
          obtain rfl : r = r₀ := hd.inv r r₀ y y₀ hy hrow (Bool.and_eq_true_iff.mp hp).1
            (Bool.and_eq_true_iff.mp hp₀).1 (by rw [hyk, hyk₀, hk])
          refine hlater.evolves.mem_since (hn d₂ hd₂.cond.1) ho.assigned ?_
          cases ha : d₂.rows (.assignment x.1 r) with
          | none => rfl
          | some _ =>
            have hmem : (x.1, r) ∈ select d₂ assignment? (·.1 = x.1) :=
              mem_select.mpr ⟨⟨.assignment x.1 r, ()⟩, hd₂.wf.keys _ (ha ▸ Option.some_ne_none _), ha, rfl, by simp⟩
            exact absurd (List.mem_map_of_mem (f := Prod.snd) hmem) hheld
        · exact hsince hb d hd x hx k r ho

theorem valid_deleteAccount : Valid (deleteAccount u) .empty C := by
  intro d₀ hd₀
  refine valid_ownsAny (n := d₀.inserted.length) (fun d hd => hd.2.evolves.inserted_le) (fun d hd x hx => ?_)
    fun owns C' hC hsince => ?_
  · obtain ⟨e, -, he, hm, -⟩ := mem_select.mp hx
    rw [membership?_eq] at hm
    subst hm
    refine hd.cond.2.evolves.keys _ (hd₀.wf.keys _ (hd₀.wf.parents _ _ he _ ?_))
    exact List.mem_cons_of_mem _ List.mem_cons_self
  dsimp only
  split_ifs with howns
  · trivial
  refine valid_guardLastAdmin fun l hl hother => ?_
  refine valid_delete hl (fun _ _ h => h) (by simp) (by simp) (fun d hd k m x r ho => ?_) fun d hd hadmin => ?_
  · by_cases hu : x.userId = u
    · refine .inl ⟨hu, ?_⟩
      have hnow : spec.Now .empty C' d := hd.mono hl.held id
      have hlater := (hC d hd.cond).2
      by_cases hm : .membership m ∈ d₀.keys
      · have hx := hlater.evolves.membership m x ho.membership hm
        exact hsince (by simpa using howns) d hnow (m, x)
          (mem_select.mpr ⟨⟨.membership m, x⟩, hm, hx, rfl, by simpa using hu⟩) k r ho
      · -- The account became a member since.
        refine hlater.evolves.mem_since le_rfl ho.assigned ?_
        cases ha : d₀.rows (.assignment m r) with
        | none => rfl
        | some _ => exact absurd (hd₀.wf.keys _ (hd₀.wf.parents _ _ ha _ List.mem_cons_self)) hm
    · exact .inr ⟨m, x, r, ho, by simp [hu]⟩
  · obtain ⟨u', x, hne, hx, ha⟩ := hother d hd hadmin
    exact ⟨u', x, hx, ha, by simp [hne]⟩

/-! ## Insertions -/

/-- Rows that confer nothing. -/
theorem valid_insert (hl : Log.empty.Reads l) (hr : ∀ e ∈ ins, ∀ d, (role? e).isNone ∧ confers d e = ∅) :
    Valid (.commit .other ins) l C := by
  have hnone (r x) (hx : ⟨.role r, x⟩ ∈ ins) : False := by
    have := (hr _ hx ⟨fun _ => none, [], []⟩).1
    simp [role?] at this
  refine fun d hd => Post.insert hl (fun r x hx _ => (hnone r x hx).elim)
    (fun r _ x _ hx => (hnone r x hx).elim) ?_
  simp only [Tag.Checked, conferred, hl.sets, Log.empty, List.map_nil, List.append_nil]
  clear hnone
  induction ins with
  | nil => rfl
  | cons e ins ih =>
    simp only [List.map_cons, List.foldr_cons, (hr e List.mem_cons_self d).2, Finset.empty_union]
    exact ih fun e he => hr e (List.mem_cons_of_mem _ he)

theorem valid_provisionCommunity {community role membership owner : ℕ} :
    Valid (provisionCommunity cfg community role membership owner) .empty C := by
  refine Tx.Valid.read fun d => ?_
  split_ifs
  · refine fun d hd => Post.insert .refl (fun r x hx _ => ?_) (fun r r' x x' hx hx' _ _ => ?_) trivial
    · simp only [List.mem_cons, Sigma.mk.injEq, reduceCtorEq, false_and, Key.role.injEq, List.not_mem_nil, or_false,
        false_or] at hx
      obtain ⟨rfl, hx⟩ := hx
      rw [eq_of_heq hx]
      exact List.mem_cons_self
    · simp only [List.mem_cons, Sigma.mk.injEq, reduceCtorEq, false_and, Key.role.injEq, List.not_mem_nil, or_false,
        false_or] at hx hx'
      exact hx.1.trans hx'.1.symm
  · trivial

theorem valid_persistNewUser {id : ℕ} {registrationOpen : Bool} :
    Valid (persistNewUser id registrationOpen) .empty C := by
  refine fun d _ => ⟨fun k _ => Nat.le_add_left 3 _, fun got _ _ => Tx.Valid.read fun d => ?_⟩
  dsimp only
  have hins (x : User) : ∀ e ∈ [(⟨.user id, x⟩ : Row)], ∀ d, (role? e).isNone ∧ confers d e = ∅ := by
    intro e he d
    obtain rfl := List.mem_singleton.mp he
    exact ⟨rfl, rfl⟩
  split_ifs
  · exact valid_insert Log.reads_hold (hins _)
  · exact valid_insert Log.reads_hold (hins _)
  · trivial

theorem valid_addMember {id : ℕ} : Valid (addMember id k u) .empty C := by
  refine Tx.Valid.read fun d => ?_
  split_ifs
  · refine valid_insert .refl fun e he d => ?_
    obtain rfl := List.mem_singleton.mp he
    exact ⟨rfl, rfl⟩
  · trivial

/-- **Every request.** -/
theorem valid_transaction (q : Request) : Valid (q.transaction cfg) .empty fun _ => True := by
  cases q with
  | createRole id k a name permissions => exact valid_createRole
  | updateRole k r a name permissions => exact valid_updateRole
  | deleteRole k r => exact valid_deleteRole
  | assignRole k u r a => exact valid_assignRole
  | unassignRole k u r => exact valid_unassignRole
  | createGrant id k a u v permissions => exact valid_createGrant
  | revokeGrant k g => exact valid_revokeGrant
  | addMember id k u => exact valid_addMember
  | removeMember k u => exact valid_removeMember
  | provisionCommunity community role membership owner => exact valid_provisionCommunity
  | createServer id k =>
    refine valid_insert .refl fun e he d => ?_
    obtain rfl := List.mem_singleton.mp he
    exact ⟨rfl, rfl⟩
  | registerUser id registrationOpen => exact valid_persistNewUser
  | setPlatformAdmin u grant => exact valid_setPlatformAdmin
  | setUserActive a u active => exact valid_setUserActive
  | deleteAccount u => exact valid_deleteAccount
  | adminDeleteUser a u =>
    show Valid (if u = a then .abort else deleteAccount u) _ _
    split_ifs
    · trivial
    · exact valid_deleteAccount

end McServerDashboard.Community
