import Mathlib.Data.Prod.Lex
import Mathlib.Data.List.Sort
import McServerDashboard.Lib.Calendar
import McServerDashboard.Lib.Selection

/-!
# The retention of scheduled backups

* `RetentionPolicy`, `backupsToPrune`: the policy and what it prunes.
* `policy.selection`: what a policy keeps, as a selection; `mem_prune`: it is what the code keeps.
* **`survivors_eq`**: what survives all prunes is what the last one keeps of the whole history.
-/

namespace McServerDashboard.Backups

open Lib Lib.Calendar Lib.Selection

/-! ## Backups and policies -/

inductive BackupSource
  | manual
  | scheduled
  | event
  | uploaded
  deriving DecidableEq

/-- A `Backup`: the UUID as a number, since their texts compare like it, and the microseconds of UTC since the year 1. -/
structure Backup where
  id : ℕ
  source : BackupSource
  createdAt : ℕ
  deriving DecidableEq

/-- `RetentionPolicy`, as `__post_init__` leaves it. -/
structure RetentionPolicy where
  keepLast : Option ℕ
  daily : ℕ
  weekly : ℕ
  monthly : ℕ
  valid : match keepLast with
    | some n => 1 ≤ n ∧ daily = 0 ∧ weekly = 0 ∧ monthly = 0
    | none => daily ≠ 0 ∨ weekly ≠ 0 ∨ monthly ≠ 0

/-- `RetentionPolicy.__post_init__`. -/
def RetentionPolicy.postInit (keepLast : Option ℤ) (daily weekly monthly : ℤ) : Except String RetentionPolicy :=
  if hd : daily < 0 then .error "daily must be >= 0"
  else if hw : weekly < 0 then .error "weekly must be >= 0"
  else if hm : monthly < 0 then .error "monthly must be >= 0"
  else match keepLast with
    | some n =>
      if hn : n < 1 then .error "keep_last must be >= 1"
      else if ht : daily ≠ 0 ∨ weekly ≠ 0 ∨ monthly ≠ 0 then .error "a policy is keep_last XOR tiered, not both"
      else .ok ⟨some n.toNat, 0, 0, 0, by omega, rfl, rfl, rfl⟩
    | none =>
      if ht : daily = 0 ∧ weekly = 0 ∧ monthly = 0 then .error "at least one tier must be > 0"
      else .ok ⟨none, daily.toNat, weekly.toNat, monthly.toNat, by simp only; omega⟩

/-- `RetentionPolicy.from_fields`. -/
def RetentionPolicy.fromFields (keepLast daily weekly monthly : Option ℤ) : Except String RetentionPolicy :=
  let tiersGiven := daily.isSome || weekly.isSome || monthly.isSome
  if keepLast.isSome && tiersGiven then .error "a policy is keep_last XOR tiered, not both"
  else if keepLast.isNone && !tiersGiven then .error "one of keep_last or a tier is required"
  else if keepLast.isSome then postInit keepLast 0 0 0
  else postInit none (daily.getD 0) (weekly.getD 0) (monthly.getD 0)

/-! ## What is pruned -/

/-- The UTC date of a moment. -/
def date (t : ℕ) : ℕ := t / 86400000000 + 1

/-- What backups are sorted by. -/
def rank (b : Backup) : ℕ ×ₗ ℕ := toLex (b.createdAt, b.id)

/-- `_newest_first`. -/
def newestFirst (backups : List Backup) : List Backup := backups.insertionSort fun b c => rank c ≤ rank b

/-- The days of `_window_days`. -/
def daysBack (nowDate days : ℕ) : List ℕ := (List.range days).map (nowDate - ·)

/-- `_window_days`: there is no date before the year 1. -/
def windowDays (nowDate days : ℕ) : Option (List ℕ) := if days ≤ nowDate then some (daysBack nowDate days) else none

/-- The weeks of `_window_weeks`. -/
def weeksBack (nowDate weeks : ℕ) : List (ℕ × ℕ) := (List.range weeks).map fun i => isoCalendar (monday nowDate - 7 * i)

/-- `_window_weeks`. -/
def windowWeeks (nowDate weeks : ℕ) : Option (List (ℕ × ℕ)) :=
  if weeks = 0 ∨ 7 * (weeks - 1) < monday nowDate then some (weeksBack nowDate weeks) else none

/-- The loop of `_window_months`. -/
def monthsBack (year : ℤ) (month : ℕ) : ℕ → List (ℤ × ℕ)
  | 0 => []
  | months + 1 => (year, month) :: if month - 1 = 0 then monthsBack (year - 1) 12 months else monthsBack year (month - 1) months

/-- `_window_months`. -/
def windowMonths (nowDate months : ℕ) : List (ℤ × ℕ) := monthsBack (year nowDate) (month nowDate) months

/-- The buckets that already have their newest backup. -/
structure Claimed where
  days : List ℕ
  weeks : List (ℕ × ℕ)
  months : List (ℤ × ℕ)

/-- The first backup of a bucket of the window claims it. -/
def claims {β : Type} [DecidableEq β] (window claimed : List β) (bucket : β) : Bool := bucket ∈ window && bucket ∉ claimed

def dayOf (b : Backup) : ℕ := date b.createdAt
def weekOf (b : Backup) : ℕ × ℕ := isoCalendar (date b.createdAt)
def monthOf (b : Backup) : ℤ × ℕ := (year (date b.createdAt), month (date b.createdAt))

/-- The loop of `backups_to_prune`. -/
def unclaimed (days : List ℕ) (weeks : List (ℕ × ℕ)) (months : List (ℤ × ℕ)) : Claimed → List Backup → List Backup
  | _, [] => []
  | claimed, b :: bs =>
    let day := claims days claimed.days (dayOf b)
    let week := claims weeks claimed.weeks (weekOf b)
    let month := claims months claimed.months (monthOf b)
    let rest := unclaimed days weeks months ⟨if day then dayOf b :: claimed.days else claimed.days,
      if week then weekOf b :: claimed.weeks else claimed.weeks,
      if month then monthOf b :: claimed.months else claimed.months⟩ bs
    if day || week || month then rest else b :: rest

/-- `backups_to_prune`; a window that starts before the year 1 raises. -/
def backupsToPrune (policy : RetentionPolicy) (backups : List Backup) (now : ℕ) : Option (List Backup) :=
  let scheduled := newestFirst (backups.filter (·.source = .scheduled))
  match policy.keepLast with
  | some n => some (scheduled.drop n)
  | none => do
    let days ← windowDays (date now) policy.daily
    let weeks ← windowWeeks (date now) policy.weekly
    some (unclaimed days weeks (windowMonths (date now) policy.monthly) ⟨[], [], []⟩ scheduled)

/-- The rows that `PruneScheduledBackups` leaves. -/
def prune (policy : RetentionPolicy) (rows : List Backup) (now : ℕ) : List Backup :=
  rows.filter (· ∉ (backupsToPrune policy rows now).getD [])

/-- A backup is taken, or the rows are pruned. -/
def apply (policy : RetentionPolicy) (rows : List Backup) : Event ℕ Backup → List Backup
  | .add b => rows ++ [b]
  | .sift now => prune policy rows now

variable {policy : RetentionPolicy} {rows l : List Backup} {b c : Backup} {t t' d n : ℕ}

/-! ## The windows slide -/

theorem date_mono (h : t ≤ t') : date t ≤ date t' := Nat.add_le_add_right (Nat.div_le_div_right h) 1

theorem date_pos : 0 < date t := Nat.succ_pos _

theorem monday_mono (h : d ≤ n) : monday d ≤ monday n := by
  simp only [monday]
  omega

theorem daysBack_slides (ht : t ≤ t') (hb : b.createdAt ≤ t) (h : dayOf b ∈ daysBack (date t') n) :
    dayOf b ∈ daysBack (date t) n := by
  have hdate : dayOf b ≤ date t := date_mono hb
  have hpos : 0 < dayOf b := date_pos
  have := date_mono ht
  simp only [daysBack, List.mem_map, List.mem_range] at h ⊢
  obtain ⟨i, hi, heq⟩ := h
  exact ⟨date t - dayOf b, by omega, by omega⟩

theorem weeksBack_slides (ht : t ≤ t') (hb : b.createdAt ≤ t) (h : weekOf b ∈ weeksBack (date t') n) :
    weekOf b ∈ weeksBack (date t) n := by
  have hdate : monday (date b.createdAt) ≤ monday (date t) := monday_mono (date_mono hb)
  have hmono : monday (date t) ≤ monday (date t') := monday_mono (date_mono ht)
  have hm := monday_mod (d := date b.createdAt) date_pos
  have hm₁ := monday_mod (d := date t) date_pos
  have hm₂ := monday_mod (d := date t') date_pos
  simp only [weeksBack, List.mem_map, List.mem_range] at h ⊢
  obtain ⟨i, hi, heq⟩ := h
  by_cases hpos : 7 * i < monday (date t')
  · have hmonday := (isoCalendar_eq_iff (by omega) date_pos).mp heq
    have hself : monday (monday (date t') - 7 * i) = monday (date t') - 7 * i := by
      simp only [monday] at hm₂ ⊢
      omega
    refine ⟨(monday (date t) - monday (date b.createdAt)) / 7, by omega, ?_⟩
    have hback : monday (date t) - 7 * ((monday (date t) - monday (date b.createdAt)) / 7) = monday (date b.createdAt) := by
      omega
    rw [hback]
    refine (isoCalendar_eq_iff (by omega) date_pos).mpr ?_
    rw [← hmonday, hself]
    exact hself
  · refine ⟨i, hi, ?_⟩
    rw [← heq]
    congr 1
    omega

/-- The months of the window, counted. -/
theorem mem_monthsBack {y y' : ℤ} {m m' : ℕ} (hm : 0 < m) (hm' : m ≤ 12) :
    (y', m') ∈ monthsBack y m n ↔ 0 < m' ∧ m' ≤ 12 ∧ 12 * y' + m' ≤ 12 * y + m ∧ 12 * y + m < 12 * y' + m' + n := by
  induction n generalizing y m with
  | zero =>
    simp only [monthsBack, List.not_mem_nil, false_iff]
    omega
  | succ n ih =>
    simp only [monthsBack, List.mem_cons, Prod.mk.injEq]
    split_ifs with h
    · rw [ih (by omega) (by omega)]
      omega
    · rw [ih (by omega) (by omega)]
      omega

theorem windowMonths_slides (ht : t ≤ t') (hb : b.createdAt ≤ t) (h : monthOf b ∈ windowMonths (date t') n) :
    monthOf b ∈ windowMonths (date t) n := by
  have h₁ := monthIndex_mono date_pos (date_mono hb)
  have h₂ := monthIndex_mono date_pos (date_mono ht)
  simp only [monthIndex] at h₁ h₂
  rw [windowMonths, monthOf, mem_monthsBack (month_pos date_pos) month_le] at h ⊢
  omega

/-! ## What a policy keeps -/

/-- No window of the policy starts before the year 1. -/
def InRange (policy : RetentionPolicy) (now : ℕ) : Prop :=
  policy.daily ≤ date now ∧ (policy.weekly = 0 ∨ 7 * (policy.weekly - 1) < monday (date now))

instance {now : ℕ} : Decidable (InRange policy now) := inferInstanceAs (Decidable (_ ∧ _))

theorem InRange.mono (h : t ≤ t') (ht : InRange policy t) : InRange policy t' := by
  have h₁ := date_mono h
  have h₂ : monday (date t) ≤ monday (date t') := monday_mono h₁
  simp only [InRange] at ht ⊢
  omega

/-- The newest backup of every bucket of the windows. -/
def tiers (policy : RetentionPolicy) : Selection ℕ Backup.createdAt :=
  both (both (perBucket rank dayOf (fun t d => d ∈ daysBack (date t) policy.daily) daysBack_slides)
    (perBucket rank weekOf (fun t w => w ∈ weeksBack (date t) policy.weekly) weeksBack_slides))
    (perBucket rank monthOf (fun t m => m ∈ windowMonths (date t) policy.monthly) windowMonths_slides)

/-- What the policy keeps of the scheduled backups. -/
def chosen (policy : RetentionPolicy) : Selection ℕ Backup.createdAt :=
  match policy.keepLast with
  | some n => newest Backup.createdAt rank n
  | none => once (InRange policy) InRange.mono (tiers policy)

/-- What the policy keeps. -/
def RetentionPolicy.selection (policy : RetentionPolicy) : Selection ℕ Backup.createdAt :=
  among (·.source = .scheduled) (chosen policy)

/-! ## The code keeps it -/

theorem mem_newestFirst : b ∈ newestFirst l ↔ b ∈ l := List.mem_insertionSort _

theorem rank_injOn (h : (rows.map (·.id)).Nodup) (hb : b ∈ rows) (hc : c ∈ rows) (heq : rank b = rank c) : b = c :=
  List.inj_on_of_nodup_map h hb hc (congrArg (fun k => (ofLex k).2) heq)

/-- Newest first, and no two alike. -/
theorem newestFirst_sorted (h : (l.map (·.id)).Nodup) : (newestFirst l).Pairwise fun b c => rank c < rank b := by
  have hsorted : (newestFirst l).Pairwise fun b c => rank c ≤ rank b := List.pairwise_insertionSort _ l
  have hnodup : (newestFirst l).Nodup := (List.perm_insertionSort _ l).nodup_iff.mpr (List.Nodup.of_map _ h)
  refine (hsorted.and hnodup).imp_of_mem fun hb hc hbc => lt_of_le_of_ne hbc.1 fun heq => hbc.2 ?_
  exact rank_injOn h (mem_newestFirst.mp hb) (mem_newestFirst.mp hc) heq.symm

/-- Past the newest `n`, there are `n` newer ones. -/
theorem mem_drop_newest (h : l.Pairwise fun b c => rank c < rank b) (hb : b ∈ l) :
    b ∈ l.drop n ↔ n ≤ (l.toFinset.filter (rank b < rank ·)).card := by
  obtain ⟨u, v, rfl⟩ := List.append_of_mem hb
  have hnodup : (u ++ b :: v).Nodup := h.imp fun hlt heq => hlt.ne (congrArg rank heq.symm)
  obtain ⟨-, hbv, huv⟩ := List.pairwise_append.mp h
  have hnewer : (u ++ b :: v).toFinset.filter (rank b < rank ·) = u.toFinset := by
    ext c
    simp only [Finset.mem_filter, List.mem_toFinset, List.mem_append, List.mem_cons]
    constructor
    · rintro ⟨hc | rfl | hc, hlt⟩
      · exact hc
      · exact absurd hlt (lt_irrefl _)
      · exact absurd hlt (List.rel_of_pairwise_cons hbv hc).not_gt
    · exact fun hc => ⟨.inl hc, huv c hc b List.mem_cons_self⟩
  rw [hnewer, List.toFinset_card_of_nodup hnodup.of_append_left]
  by_cases hn : n ≤ u.length
  · simp [List.drop_append_of_le_length hn, hn]
  · have hlt : u.length < n := by omega
    simp only [hn, iff_false]
    rw [List.drop_append, List.drop_eq_nil_of_le hlt.le, List.nil_append]
    obtain ⟨k, hk⟩ : ∃ k, n - u.length = k + 1 := ⟨n - u.length - 1, by omega⟩
    rw [hk, List.drop_succ_cons]
    intro hmem
    exact (List.nodup_cons.mp hnodup.of_append_right).1 (List.mem_of_mem_drop hmem)

/-- A backup has its bucket when no newer one has it. -/
def Has {β : Type} (window claimed : List β) (bucket : Backup → β) (l : List Backup) (b : Backup) : Prop :=
  bucket b ∈ window ∧ bucket b ∉ claimed ∧ ∀ c ∈ l, bucket c = bucket b → rank c ≤ rank b

theorem has_head {β : Type} [DecidableEq β] {window claimed : List β} {bucket : Backup → β}
    (h : (b :: l).Pairwise fun b c => rank c < rank b) :
    Has window claimed bucket (b :: l) b ↔ claims window claimed (bucket b) = true := by
  have hle : ∀ c ∈ b :: l, bucket c = bucket b → rank c ≤ rank b := by
    intro c hc _
    rcases List.mem_cons.mp hc with rfl | hc
    · exact le_rfl
    · exact (List.rel_of_pairwise_cons h hc).le
  simp only [Has, claims, Bool.and_eq_true, decide_eq_true_eq]
  exact ⟨fun h => ⟨h.1, h.2.1⟩, fun h => ⟨h.1, h.2, hle⟩⟩

theorem has_tail {β : Type} [DecidableEq β] {window claimed : List β} {bucket : Backup → β}
    (h : (c :: l).Pairwise fun b c => rank c < rank b) (hb : b ∈ l) :
    Has window (if claims window claimed (bucket c) then bucket c :: claimed else claimed) bucket l b ↔
      Has window claimed bucket (c :: l) b := by
  have hlt := List.rel_of_pairwise_cons h hb
  simp only [Has, List.forall_mem_cons, claims, Bool.and_eq_true, decide_eq_true_eq]
  constructor
  · rintro ⟨hw, hno, hmax⟩
    split_ifs at hno with hclaims
    · rw [List.mem_cons, not_or] at hno
      exact ⟨hw, hno.2, fun heq => absurd heq.symm hno.1, hmax⟩
    · exact ⟨hw, hno, fun heq => absurd ⟨heq ▸ hw, heq ▸ hno⟩ hclaims, hmax⟩
  · rintro ⟨hw, hno, hne, hmax⟩
    refine ⟨hw, ?_, hmax⟩
    split_ifs with hclaims
    · rw [List.mem_cons, not_or]
      exact ⟨fun heq => absurd (hne heq.symm) hlt.not_ge, hno⟩
    · exact hno

/-- **The loop of `backups_to_prune`** prunes what has no bucket. -/
theorem mem_unclaimed {days : List ℕ} {weeks : List (ℕ × ℕ)} {months : List (ℤ × ℕ)} {claimed : Claimed}
    (h : l.Pairwise fun b c => rank c < rank b) : b ∈ unclaimed days weeks months claimed l ↔ b ∈ l ∧
      ¬(Has days claimed.days dayOf l b ∨ Has weeks claimed.weeks weekOf l b ∨ Has months claimed.months monthOf l b) := by
  induction l generalizing claimed with
  | nil => simp [unclaimed]
  | cons c l ih =>
    have hl := (List.pairwise_cons.mp h).2
    have hc : c ∉ l := fun hc => absurd (List.rel_of_pairwise_cons h hc) (lt_irrefl _)
    simp only [unclaimed]
    by_cases hclaims : claims days claimed.days (dayOf c) || claims weeks claimed.weeks (weekOf c) ||
        claims months claimed.months (monthOf c)
    · rw [if_pos hclaims, ih hl]
      simp only [Bool.or_eq_true, ← has_head h, or_assoc] at hclaims
      by_cases hbc : b = c
      · subst hbc
        simp [hc, hclaims]
      · simp only [List.mem_cons, hbc, false_or]
        exact and_congr_right fun hb => by rw [has_tail h hb, has_tail h hb, has_tail h hb]
    · rw [if_neg hclaims, List.mem_cons, ih hl]
      simp only [Bool.or_eq_true, ← has_head h, or_assoc] at hclaims
      by_cases hbc : b = c
      · subst hbc
        simp [hclaims]
      · simp only [List.mem_cons, hbc, false_or]
        exact and_congr_right fun hb => by rw [has_tail h hb, has_tail h hb, has_tail h hb]

/-- The scheduled backups, newest first. -/
theorem mem_pruned {now : ℕ} (h : (rows.map (·.id)).Nodup) : b ∈ (backupsToPrune policy rows now).getD [] ↔
    b ∈ rows.toFinset.filter (·.source = .scheduled) ∧
      b ∉ (chosen policy).keep now (rows.toFinset.filter (·.source = .scheduled)) := by
  have hfinset : (newestFirst (rows.filter (·.source = .scheduled))).toFinset =
      rows.toFinset.filter (·.source = .scheduled) := by
    ext c
    simp [mem_newestFirst]
  have hsorted := newestFirst_sorted ((List.filter_sublist (p := (·.source = .scheduled)) (l := rows)).map (·.id) |>.nodup h)
  rw [← hfinset, List.mem_toFinset]
  unfold backupsToPrune chosen
  generalize newestFirst (rows.filter (·.source = .scheduled)) = l at hsorted
  cases policy.keepLast with
  | some n =>
    simp only [Option.getD_some, newest, Finset.mem_filter, List.mem_toFinset, not_and, not_lt]
    constructor
    · exact fun hb => ⟨List.mem_of_mem_drop hb, fun hbl => (mem_drop_newest hsorted hbl).mp hb⟩
    · rintro ⟨hbl, hcard⟩
      exact (mem_drop_newest hsorted hbl).mpr (hcard hbl)
  | none =>
    simp only [once, windowDays, windowWeeks]
    by_cases hrange : InRange policy now
    · obtain ⟨hd, hw⟩ := id hrange
      rw [if_pos hrange, if_pos hd, if_pos hw]
      simp only [Option.bind_eq_bind, Option.bind_some, Option.getD_some]
      rw [mem_unclaimed hsorted]
      refine and_congr_right fun hbl => not_congr ?_
      simp [tiers, both, perBucket, Has, hbl]
    · rw [if_neg hrange]
      rw [InRange, not_and_or] at hrange
      rcases hrange with h | h
      · rw [if_neg h]
        simp
      · rw [if_neg h]
        simp

/-- **`backups_to_prune`** prunes what the selection does not keep. -/
theorem mem_prune {now : ℕ} (h : (rows.map (·.id)).Nodup) :
    b ∈ prune policy rows now ↔ b ∈ policy.selection.keep now rows.toFinset := by
  have hsub := (chosen policy).sub now (rows.toFinset.filter (·.source = .scheduled))
  simp only [prune, List.mem_filter, decide_eq_true_eq, mem_pruned h, RetentionPolicy.selection, among, Finset.mem_union,
    Finset.mem_filter, List.mem_toFinset]
  constructor
  · rintro ⟨hb, hno⟩
    by_cases hs : b.source = .scheduled
    · exact .inr (by_contra fun hn => hno ⟨⟨hb, hs⟩, hn⟩)
    · exact .inl ⟨hb, hs⟩
  · rintro (⟨hb, hs⟩ | hkeep)
    · exact ⟨hb, fun h => hs h.1.2⟩
    · have hb : b ∈ rows := List.mem_toFinset.mp (Finset.mem_filter.mp (hsub hkeep)).1
      exact ⟨hb, fun h => h.2 hkeep⟩

theorem toFinset_prune {now : ℕ} (h : (rows.map (·.id)).Nodup) :
    (prune policy rows now).toFinset = policy.selection.keep now rows.toFinset := by
  ext b
  rw [List.mem_toFinset, mem_prune h]

/-! ## Runs -/

theorem prune_sublist {now : ℕ} : (prune policy rows now).Sublist rows := List.filter_sublist

/-- The rows are those of the abstract run, in the order in which they came. -/
theorem foldl_apply (policy : RetentionPolicy) {es : List (Event ℕ Backup)} (h : ((rows ++ added es).map (·.id)).Nodup) :
    (es.foldl (apply policy) rows).Sublist (rows ++ added es) ∧
      (es.foldl (apply policy) rows).toFinset = es.foldl policy.selection.apply rows.toFinset := by
  induction es generalizing rows with
  | nil => simp [added]
  | cons e es ih =>
    rw [List.foldl_cons, List.foldl_cons]
    cases e with
    | add b =>
      have hadded : rows ++ added (.add b :: es) = rows ++ [b] ++ added es := by
        rw [List.append_assoc]
        rfl
      have hinsert : (rows ++ [b]).toFinset = insert b rows.toFinset := by
        ext c
        simp
      rw [hadded] at h ⊢
      obtain ⟨h₁, h₂⟩ := ih h
      exact ⟨h₁, h₂.trans (by rw [hinsert]; rfl)⟩
    | sift now =>
      have hsub : (prune policy rows now ++ added es).Sublist (rows ++ added es) := prune_sublist.append_right _
      obtain ⟨h₁, h₂⟩ := ih ((hsub.map (·.id)).nodup h)
      refine ⟨h₁.trans hsub, h₂.trans ?_⟩
      rw [toFinset_prune ((List.sublist_append_left rows (added es)).map (·.id) |>.nodup h)]
      rfl

/-- A sublist is what is found of its elements. -/
theorem filter_mem_sublist {l' : List Backup} (h : l'.Sublist l) (hl : l.Nodup) : l.filter (· ∈ l') = l' := by
  induction h with
  | slnil => rfl
  | cons a h ih =>
    obtain ⟨ha, hl⟩ := List.nodup_cons.mp hl
    rw [List.filter_cons_of_neg (by simpa using fun hmem => ha (h.subset hmem)), ih hl]
  | @cons_cons l' l a h ih =>
    obtain ⟨ha, hl⟩ := List.nodup_cons.mp hl
    rw [List.filter_cons_of_pos (by simp)]
    refine congrArg (a :: ·) (Eq.trans (List.filter_congr fun b hb => ?_) (ih hl))
    have hne : b ≠ a := fun heq => ha (heq ▸ hb)
    simp [hne]

/-- **Pruning early** deletes no backup that the last prune would keep. -/
theorem survivors_eq (policy : RetentionPolicy) (es : List (Event ℕ Backup)) (now : ℕ)
    (htime : Timely Backup.createdAt (es ++ [.sift now])) (hids : ((added es).map (·.id)).Nodup) :
    List.foldl (apply policy) [] (es ++ [.sift now]) = prune policy (added es) now := by
  have hids₀ : (([] ++ added es : List Backup).map (·.id)).Nodup := hids
  obtain ⟨hsub, hrun⟩ := foldl_apply policy hids₀
  rw [List.foldl_append, List.foldl_cons, List.foldl_nil]
  rw [List.nil_append] at hsub
  have hrun' : (es.foldl (apply policy) []).toFinset = es.foldl policy.selection.apply ∅ := hrun
  have hids' := (hsub.map (·.id)).nodup hids
  have hnodup := List.Nodup.of_map _ hids
  have hsame : (prune policy (es.foldl (apply policy) []) now).toFinset = (prune policy (added es) now).toFinset := by
    rw [toFinset_prune hids, toFinset_prune hids', hrun', keep_run htime]
  show prune policy (es.foldl (apply policy) []) now = prune policy (added es) now
  rw [← filter_mem_sublist (prune_sublist.trans hsub) hnodup, ← filter_mem_sublist prune_sublist hnodup]
  refine List.filter_congr fun b _ => decide_eq_decide.mpr ?_
  rw [← List.mem_toFinset, ← List.mem_toFinset, hsame]

/-- A day of microseconds. -/
def days (n : ℕ) : ℕ := n * 86400000000

/-- Two days and two weeks are kept, and a backup of the first week is deleted early. -/
theorem survivors_eq_tiered :
    let policy : RetentionPolicy := ⟨none, 2, 2, 0, by decide⟩
    let es := [.add ⟨1, .scheduled, days 738150⟩, .add ⟨2, .scheduled, days 738151⟩, .add ⟨3, .manual, days 738151⟩,
      .sift (days 738153), .add ⟨4, .scheduled, days 738156⟩]
    Timely Backup.createdAt (es ++ [.sift (days 738157)]) ∧ ((added es).map (·.id)).Nodup ∧
      List.foldl (apply policy) [] (es ++ [.sift (days 738157)]) = prune policy (added es) (days 738157) := by
  intro policy es
  have htime : Timely Backup.createdAt (es ++ [.sift (days 738157)]) := by
    simp [Timely, es, days]
  exact ⟨htime, by decide, survivors_eq policy es _ htime (by decide)⟩

end McServerDashboard.Backups
