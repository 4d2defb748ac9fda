import McServerDashboard.Lib.TransactionLogic
import McServerDashboard.Community.UseCases

/-!
# What the commits on communities keep

A preset role stays as it was made, with its community; a membership and a role stay what they are as long
as they are there. So what was read without a lock is still true of them at the commit.

* `Holds`: who holds a permission; `conferred`: what a commit confers.
* `Owner`, `HasAdmin`: the holders of the role Owner, and the active administrators.
* `spec`: what every commit is to meet.
-/

namespace McServerDashboard.Community

open Lib

/-! ## Permissions -/

/-- The actor has the permission by a role that is assigned to them, or by their own grant on the resource. -/
def Holds (has : Row → Prop) (a k : ℕ) (resource : Option ℕ) (p : Permission) : Prop :=
  (∃ m r x, has ⟨.membership m, ⟨a, k⟩⟩ ∧ has ⟨.assignment m r, ()⟩ ∧ has ⟨.role r, x⟩ ∧ p ∈ x.permissions) ∨
    ∃ g x, has ⟨.grant g, x⟩ ∧ x.userId = a ∧ x.communityId = k ∧ resource = some x.resourceId ∧
      p ∈ x.permissions

/-- A committed row. -/
def Has (d : Database) (e : Row) : Prop := d.rows e.1 = some e.2

/-- The permissions of a role, as it is committed. -/
def rolePermissions (d : Database) (r : ℕ) : Finset Permission := (d.rows (.role r)).elim ∅ (·.permissions)

/-- What an inserted row confers. -/
def confers (d : Database) : Row → Finset Permission
  | ⟨.role _, x⟩ => x.permissions
  | ⟨.assignment _ r, _⟩ => rolePermissions d r
  | ⟨.grant _, x⟩ => x.permissions
  | _ => ∅

/-- What a changed row confers: the codes that are added to a role. -/
def adds (d : Database) : Row → Finset Permission
  | ⟨.role r, x⟩ => x.permissions \ rolePermissions d r
  | _ => ∅

/-- The permissions that a commit confers. -/
def conferred (d : Database) (l : Log Key.Row) (ins : List Row) : Finset Permission :=
  (ins.map (confers d) ++ l.sets.map (adds d)).foldr (· ∪ ·) ∅

/-- What is committed is what was checked, and the actor has it. -/
def Tag.Checked (d : Database) (l : Log Key.Row) (ins : List Row) : Tag → Prop
  | .confers a k resource checked => conferred d l ins = checked ∧ ∀ p ∈ checked, Holds (Has d) a k resource p
  | .provision => True
  | _ => conferred d l ins = ∅

/-! ## Owners and administrators -/

/-- The membership `m` of the community `k` has its preset role Owner, `r`. -/
structure Owner (d : Database) (k m : ℕ) (x : Membership) (r : ℕ) : Prop where
  membership : d.rows (.membership m) = some x
  member : x.communityId = k
  role : ∃ y, d.rows (.role r) = some y ∧ y.communityId = k ∧ y.isPresetOwner = true
  assigned : d.rows (.assignment m r) = some ()

def HasOwner (d : Database) (k : ℕ) : Prop := ∃ m x r, Owner d k m x r

def User.isActiveAdmin (x : User) : Bool := x.isPlatformAdmin && x.active

def HasAdmin (d : Database) : Prop := ∃ u x, d.rows (.user u) = some x ∧ x.isActiveAdmin = true

/-- The role Owner `r` of the membership `m` that a commit may take without a guard: it was assigned since the
check. -/
def Tag.Risks (d : Database) (m : ℕ) (x : Membership) (r : ℕ) : Tag → Prop
  | .account u n => x.userId = u ∧ .assignment m r ∈ d.since n
  | .unheld m' n => m = m' ∧ .assignment m r ∈ d.since n
  | _ => False

/-- The commit does not take the role from the membership. -/
def Spares (l : Log Key.Row) (m r : ℕ) : Prop := .membership m ∉ l.gone ∧ .assignment m r ∉ l.gone

/-! ## What a commit keeps -/

/-- How the database evolves. -/
structure Evolves (d d' : Database) : Prop where
  keys : ∀ k ∈ d.keys, k ∈ d'.keys
  membership : ∀ m x, d'.rows (.membership m) = some x → .membership m ∈ d.keys →
    d.rows (.membership m) = some x
  role : ∀ r y, d'.rows (.role r) = some y → .role r ∈ d.keys →
    ∃ x, d.rows (.role r) = some x ∧ x.communityId = y.communityId ∧ x.isPreset = y.isPreset
  preset : ∀ r x, d.rows (.role r) = some x → x.isPreset = true → d'.rows (.role r) = some x
  old : ∀ r y, d'.rows (.role r) = some y → y.isPreset = true → .community y.communityId ∈ d.keys →
    d.rows (.role r) = some y
  /-- An assignment that was not there was inserted since. -/
  assigned : ∃ more, d'.inserted = d.inserted ++ more ∧
    ∀ m r, d'.rows (.assignment m r) = some () → d.rows (.assignment m r) = none → .assignment m r ∈ more

/-- A community has one preset role. -/
def OnePreset (d : Database) : Prop := ∀ r r' x x', d.rows (.role r) = some x → d.rows (.role r') = some x' →
  x.isPreset = true → x'.isPreset = true → x.communityId = x'.communityId → r = r'

/-- What a commit writes. -/
structure Post (d : Database) (l : Log Key.Row) (tag : Tag) (ins : List Row) : Prop where
  sets : ∀ e ∈ l.sets, (user? e).isSome ∨ ∃ r x y, e = ⟨.role r, y⟩ ∧ d.rows (.role r) = some x ∧
    x.isPreset = false ∧ y.isPreset = false ∧ y.communityId = x.communityId
  gone : ∀ r x, .role r ∈ l.gone → d.rows (.role r) = some x → x.isPreset = false
  preset : ∀ r x, ⟨.role r, x⟩ ∈ ins → x.isPreset = true → .community x.communityId ∈ ins.keys
  single : ∀ r r' x x', ⟨.role r, x⟩ ∈ ins → ⟨.role r', x'⟩ ∈ ins → x.isPreset = true → x'.isPreset = true →
    r = r'
  checked : tag.Checked d l ins
  owners : ∀ k m x r, Owner d k m x r → tag.Risks d m x r ∨ ∃ m' x' r', Owner d k m' x' r' ∧ Spares l m' r'
  admins : HasAdmin d → ∃ u x, d.rows (.user u) = some x ∧ x.isActiveAdmin = true ∧ .user u ∉ l.gone ∧
    ∀ y, ⟨.user u, y⟩ ∈ l.sets → y.isActiveAdmin = true

variable {d d' : Database} {l l' : Log Key.Row} {tag : Tag} {ins : List Row} {k m r a : ℕ} {p : Permission}
  {resource : Option ℕ} {has has' : Row → Prop}

theorem Holds.mono (h : Holds has a k resource p) (hh : ∀ e, has e → has' e) : Holds has' a k resource p := by
  rcases h with ⟨m, r, x, h1, h2, h3, hp⟩ | ⟨g, x, h1, hx⟩
  · exact .inl ⟨m, r, x, hh _ h1, hh _ h2, hh _ h3, hp⟩
  · exact .inr ⟨g, x, hh _ h1, hx⟩

theorem Evolves.refl : Evolves d d :=
  ⟨fun _ h => h, fun _ _ h _ => h, fun _ y h _ => ⟨y, h, rfl, rfl⟩, fun _ _ h _ => h, fun _ _ h _ _ => h,
    [], (List.append_nil _).symm, fun _ _ h hn => (by rw [hn] at h; cases h)⟩

theorem Evolves.trans {d'' : Database} (h : Evolves d d') (h' : Evolves d' d'') : Evolves d d'' := by
  refine ⟨fun k hk => h'.keys k (h.keys k hk), fun m x hx hk => ?_, fun r y hy hk => ?_,
    fun r x hx hp => h'.preset r x (h.preset r x hx hp) hp, fun r y hy hp hk => ?_, ?_⟩
  · exact h.membership m x (h'.membership m x hx (h.keys _ hk)) hk
  · obtain ⟨x, hx, hc, hp⟩ := h'.role r y hy (h.keys _ hk)
    obtain ⟨w, hw, hc', hp'⟩ := h.role r x hx hk
    exact ⟨w, hw, hc'.trans hc, hp'.trans hp⟩
  · exact h.old r y (h'.old r y hy hp (h.keys _ hk)) hp hk
  · obtain ⟨more, hmore, hin⟩ := h.assigned
    obtain ⟨more', hmore', hin'⟩ := h'.assigned
    refine ⟨more ++ more', by rw [hmore', hmore, List.append_assoc], fun m r ha hn => ?_⟩
    cases hm : d'.rows (.assignment m r) with
    | none => exact List.mem_append_right _ (hin' m r ha hm)
    | some _ => exact List.mem_append_left _ (hin m r hm hn)

/-- An assignment that was not there is among the insertions since. -/
theorem Evolves.mem_since (h : Evolves d d') {n : ℕ} (hn : n ≤ d.inserted.length)
    (ha : d'.rows (.assignment m r) = some ()) (hd : d.rows (.assignment m r) = none) :
    .assignment m r ∈ d'.since n := by
  obtain ⟨more, hmore, hin⟩ := h.assigned
  rw [Db.since, hmore, List.drop_append_of_le_length hn]
  exact List.mem_append_right _ (hin m r ha hd)

theorem Evolves.inserted_le (h : Evolves d d') : d.inserted.length ≤ d'.inserted.length := by
  obtain ⟨more, hmore, -⟩ := h.assigned
  rw [hmore, List.length_append]
  exact Nat.le_add_right _ _

/-! ## The commit -/

section Commit

variable (h : Post d l tag ins) (ha : schema.Accepts d l ins)

include ha in
/-- A key that is known, and never used again, is not inserted. -/
theorem not_inserted {e : Key} (hu : unique e = true) (he : e ∈ d.keys) : e ∉ ins.keys := by
  intro hi
  obtain ⟨e', he', rfl⟩ := List.mem_map.mp hi
  exact (ha.2 e' he').2.1 hu he

include ha in
theorem present_not_inserted {e : Key} (he : d.rows e ≠ none) : e ∉ ins.keys := by
  intro hi
  obtain ⟨e', he', rfl⟩ := List.mem_map.mp hi
  exact he (ha.2 e' he').1

include h ha

/-- Where a membership of the new database comes from. -/
theorem Post.membership_apply {x : Membership} (hx : (d.apply l ins).rows (.membership m) = some x)
    (hk : .membership m ∈ d.keys) : d.rows (.membership m) = some x := by
  rcases apply_rows hx with hi | ⟨-, hs | hd⟩
  · exact absurd (List.mem_map_of_mem hi) (not_inserted ha rfl hk)
  · rcases h.sets _ hs with hu | ⟨r, x, y, he, -⟩
    · simp [user?] at hu
    · simp at he
  · exact hd.2

omit ha in
/-- A preset role of the new database was there, or comes with its community. -/
theorem Post.preset_apply {y : Role} (hy : (d.apply l ins).rows (.role r) = some y) (hp : y.isPreset = true) :
    d.rows (.role r) = some y ∨ ⟨.role r, y⟩ ∈ ins := by
  rcases apply_rows hy with hi | ⟨-, hs | hd⟩
  · exact .inr hi
  · rcases h.sets _ hs with hu | ⟨r', x', y', he, -, -, hy', -⟩
    · simp [user?] at hu
    · simp only [Sigma.mk.injEq, Key.role.injEq] at he
      obtain ⟨rfl, he⟩ := he
      rw [eq_of_heq he, hy'] at hp
      cases hp
  · exact .inl hd.2

theorem Post.role_apply {y : Role} (hy : (d.apply l ins).rows (.role r) = some y) (hk : .role r ∈ d.keys) :
    ∃ x, d.rows (.role r) = some x ∧ x.communityId = y.communityId ∧ x.isPreset = y.isPreset := by
  rcases apply_rows hy with hi | ⟨-, hs | hd⟩
  · exact absurd (List.mem_map_of_mem hi) (not_inserted ha rfl hk)
  · rcases h.sets _ hs with hu | ⟨r', x', y', he, hx, hp, hp', hc⟩
    · simp [user?] at hu
    · simp only [Sigma.mk.injEq, Key.role.injEq] at he
      obtain ⟨rfl, he⟩ := he
      obtain rfl := eq_of_heq he
      exact ⟨x', hx, hc.symm, hp.trans hp'.symm⟩
  · exact ⟨y, hd.2, rfl, rfl⟩

theorem Post.preset_stays {x : Role} (hx : d.rows (.role r) = some x) (hp : x.isPreset = true) :
    (d.apply l ins).rows (.role r) = some x := by
  rw [← hx]
  refine apply_same (present_not_inserted ha (hx ▸ Option.some_ne_none x)) (fun hg => ?_) fun hs => ?_
  · rw [h.gone r x hg hx] at hp
    cases hp
  · obtain ⟨e, he, hk⟩ := List.mem_map.mp hs
    rcases h.sets e he with hu | ⟨r', x', y', rfl, hx', hp', -⟩
    · obtain ⟨k, v⟩ := e
      obtain rfl : k = .role r := hk
      simp [user?] at hu
    · simp only [Key.role.injEq] at hk
      rw [hk, hx, Option.some.injEq] at hx'
      rw [hx', hp'] at hp
      cases hp

theorem Post.evolves : Evolves d (d.apply l ins) := by
  refine ⟨fun k hk => mem_apply_keys.mpr (.inr hk), fun m x hx hk => h.membership_apply ha hx hk,
    fun r y hy hk => h.role_apply ha hy hk, fun r x hx hp => h.preset_stays ha hx hp, fun r y hy hp hk => ?_,
    ins.keys, rfl, fun m r hm hn => ?_⟩
  · rcases h.preset_apply hy hp with hd | hi
    · exact hd
    · exact absurd (h.preset r y hi hp) (not_inserted ha rfl hk)
  · rcases apply_rows hm with hi | ⟨-, hs | ⟨-, hd⟩⟩
    · exact List.mem_map_of_mem (f := Sigma.fst) hi
    · -- No assignment is updated.
      rcases h.sets _ hs with hu | ⟨r', x, y, he, -⟩
      · simp [user?] at hu
      · simp at he
    · rw [hd] at hn
      cases hn

theorem Post.onePreset (hwf : schema.Wf d) (hone : OnePreset d) : OnePreset (d.apply l ins) := by
  -- The community of an inserted preset role is new, that of a role that was there is not.
  have apart {r r' : ℕ} {x x' : Role} (hd : d.rows (.role r) = some x) (hi : ⟨.role r', x'⟩ ∈ ins)
      (hp' : x'.isPreset = true) (hc : x.communityId = x'.communityId) : False := by
    have hk := h.preset r' x' hi hp'
    rw [← hc] at hk
    exact present_not_inserted ha (hwf.parents _ _ hd _ List.mem_cons_self) hk
  intro r r' x x' hx hx' hp hp' hc
  rcases h.preset_apply hx hp with hd | hi <;> rcases h.preset_apply hx' hp' with hd' | hi'
  · exact hone r r' x x' hd hd' hp hp' hc
  · exact (apart hd hi' hp' hc).elim
  · exact (apart hd' hi hp hc.symm).elim
  · exact h.single r r' x x' hi hi' hp hp'

/-- A holder of Owner that is spared stays one. -/
theorem Post.owner_apply {x : Membership} (ho : Owner d k m x r) (hs : Spares l m r) :
    Owner (d.apply l ins) k m x r := by
  have unset {e : Key} (hu : ∀ v, (user? ⟨e, v⟩).isSome = false) (hr : ∀ r, e ≠ .role r) : e ∉ l.sets.keys := by
    intro hk
    obtain ⟨⟨e', v⟩, he, rfl⟩ := List.mem_map.mp hk
    rcases h.sets _ he with hu' | ⟨r', x', y', he', -⟩
    · rw [hu v] at hu'
      cases hu'
    · exact hr r' (congrArg Sigma.fst he')
  refine ⟨?_, ho.member, ?_, ?_⟩
  · rw [← ho.membership]
    exact apply_same (present_not_inserted ha (ho.membership ▸ Option.some_ne_none _)) hs.1
      (unset (fun _ => rfl) nofun)
  · obtain ⟨y, hy, hc, hp⟩ := ho.role
    exact ⟨y, h.preset_stays ha hy (Bool.and_eq_true_iff.mp hp).1, hc, hp⟩
  · rw [← ho.assigned]
    exact apply_same (present_not_inserted ha (ho.assigned ▸ Option.some_ne_none _)) hs.2
      (unset (fun _ => rfl) nofun)

theorem Post.hasOwner {x : Membership} (ho : Owner d k m x r) (hr : ¬tag.Risks d m x r) :
    HasOwner (d.apply l ins) k := by
  rcases h.owners k m x r ho with hr' | ⟨m', x', r', ho', hs⟩
  · exact absurd hr' hr
  · exact ⟨m', x', r', h.owner_apply ha ho' hs⟩

theorem Post.hasAdmin (hd : HasAdmin d) : HasAdmin (d.apply l ins) := by
  obtain ⟨u, x, hx, hadmin, hg, hs⟩ := h.admins hd
  have hi := present_not_inserted ha (hx ▸ Option.some_ne_none x)
  cases hl : l.sets.dlookup (.user u) with
  | none =>
    refine ⟨u, x, ?_, hadmin⟩
    rw [← hx]
    exact apply_same hi hg (List.dlookup_eq_none.mp hl)
  | some y =>
    refine ⟨u, y, ?_, hs y (List.of_mem_dlookup hl)⟩
    simp [Db.apply, List.dlookup_eq_none.mpr hi, hg, hl]

end Commit

/-- The specification of the transactions on communities. -/
def spec : Spec schema Tag where
  inv := OnePreset
  evolves := Evolves
  post := Post
  refl _ := .refl
  trans _ _ _ := Evolves.trans
  commit _ _ _ _ hone hwf _ ha h := ⟨h.onePreset ha hwf hone, h.evolves ha⟩

end McServerDashboard.Community
