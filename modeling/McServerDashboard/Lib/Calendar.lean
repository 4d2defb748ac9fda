import Mathlib.Data.Nat.Find
import Mathlib.Data.Int.Notation
import Mathlib.Order.Basic
import Mathlib.Tactic.SplitIfs

/-!
# Gregorian dates by their ordinals

The day 1 is the first of January of the year 1.

* `year`, `month`: the calendar month of a day; `isoCalendar`: its ISO year and week.
* **`isoCalendar_eq_iff`**: two days are of one ISO week when they have the same Monday.
* **`monthIndex_mono`**: months are counted in the order of the days.
-/

namespace Lib.Calendar

def isLeap (y : ℕ) : Bool := y % 4 = 0 && (y % 100 != 0 || y % 400 = 0)

/-- The days before the first of January. -/
def daysBeforeYear (y : ℕ) : ℕ := (y - 1) * 365 + (y - 1) / 4 - (y - 1) / 100 + (y - 1) / 400

/-- The days of the year before the month. -/
def daysBeforeMonth (leap : Bool) (m : ℕ) : ℕ :=
  [0, 0, 31, 59, 90, 120, 151, 181, 212, 243, 273, 304, 334].getD m 365 + if 2 < m ∧ leap then 1 else 0

/-- The last year that starts by the day. -/
def year (d : ℕ) : ℕ := Nat.findGreatest (fun y => daysBeforeYear y < d) (d / 365 + 1)

/-- The last month of the year that starts by the day. -/
def month (d : ℕ) : ℕ :=
  Nat.findGreatest (fun m => daysBeforeMonth (isLeap (year d)) m < d - daysBeforeYear (year d)) 12

/-- The Monday of the week. -/
def monday (d : ℕ) : ℕ := d - (d + 6) % 7

/-- The Monday of the first ISO week: the one with the first Thursday. -/
def week1Monday (y : ℕ) : ℕ :=
  let firstDay := daysBeforeYear y + 1
  let firstWeekday := (firstDay + 6) % 7
  if 3 < firstWeekday then firstDay - firstWeekday + 7 else firstDay - firstWeekday

/-- The ISO year and week. -/
def isoCalendar (d : ℕ) : ℕ × ℕ :=
  let y := year d
  if d < week1Monday y then (y - 1, (d - week1Monday (y - 1)) / 7 + 1)
  else
    let week := (d - week1Monday y) / 7
    if 52 ≤ week ∧ week1Monday (y + 1) ≤ d then (y + 1, 1) else (y, week + 1)

/-- The months from the year 0 on. -/
def monthIndex (d : ℕ) : ℕ := 12 * year d + month d

example : (year 738156, month 738156, isoCalendar 738156) = (2022, 1, 2021, 52) := by decide

variable {d d' : ℕ} {y y' : ℕ}

/-! ## Years and months -/

theorem daysBeforeYear_succ (hy : 0 < y) : daysBeforeYear y + 365 ≤ daysBeforeYear (y + 1) := by
  simp only [daysBeforeYear]
  omega

theorem daysBeforeYear_ge (y : ℕ) : (y - 1) * 365 ≤ daysBeforeYear y := by
  simp only [daysBeforeYear]
  omega

theorem daysBeforeYear_mono (h : y ≤ y') : daysBeforeYear y ≤ daysBeforeYear y' := by
  induction h with
  | refl => exact le_rfl
  | step _ ih =>
    refine ih.trans ?_
    simp only [daysBeforeYear]
    omega

theorem year_pos (hd : 0 < d) : 0 < year d :=
  Nat.le_findGreatest (P := fun y => daysBeforeYear y < d) (by omega) (by simpa [daysBeforeYear] using hd)

theorem daysBeforeYear_year (hd : 0 < d) : daysBeforeYear (year d) < d :=
  Nat.findGreatest_spec (P := fun y => daysBeforeYear y < d) (m := 1) (by omega) (by simpa [daysBeforeYear] using hd)

theorem le_daysBeforeYear (d : ℕ) : d ≤ daysBeforeYear (year d + 1) := by
  by_contra h
  have hle : year d + 1 ≤ d / 365 + 1 := by
    have := daysBeforeYear_ge (year d + 1)
    omega
  have := Nat.le_findGreatest (P := fun y => daysBeforeYear y < d) hle (not_le.mp h)
  simp only [year] at this
  omega

theorem year_mono (hd : 0 < d) (h : d ≤ d') : year d ≤ year d' := by
  have h₁ := daysBeforeYear_year hd
  have h₂ := le_daysBeforeYear d'
  by_contra hlt
  have : daysBeforeYear (year d' + 1) ≤ daysBeforeYear (year d) := daysBeforeYear_mono (by omega)
  omega

theorem month_le : month d ≤ 12 := Nat.findGreatest_le 12

theorem month_pos (hd : 0 < d) : 0 < month d := by
  have := daysBeforeYear_year hd
  refine Nat.le_findGreatest (by omega) ?_
  show daysBeforeMonth _ 1 < _
  simp [daysBeforeMonth]
  omega

/-- **Months are counted in the order of the days.** -/
theorem monthIndex_mono (hd : 0 < d) (h : d ≤ d') : monthIndex d ≤ monthIndex d' := by
  have hy := year_mono hd h
  have := month_le (d := d)
  have := month_pos (d := d') (by omega)
  simp only [monthIndex]
  by_cases heq : year d = year d'
  · have hm : month d ≤ month d' := by
      unfold month
      rw [heq]
      exact Nat.findGreatest_mono_left (fun m hm => by omega) 12
    omega
  · omega

/-! ## ISO weeks -/

theorem week1Monday_mod (hy : 0 < y) : week1Monday y % 7 = 1 := by
  have : 6 ≤ daysBeforeYear y ∨ daysBeforeYear y = 0 := by
    simp only [daysBeforeYear]
    omega
  simp only [week1Monday]
  split_ifs with h <;> omega

theorem week1Monday_near (hy : 0 < y) : week1Monday y ≤ daysBeforeYear y + 4 ∧ daysBeforeYear y ≤ week1Monday y + 2 := by
  have : 0 < daysBeforeYear y ∨ y = 1 := by
    have := daysBeforeYear_ge y
    omega
  simp only [week1Monday]
  split_ifs <;> omega

theorem monday_mod (hd : 0 < d) : monday d % 7 = 1 ∧ monday d ≤ d ∧ d < monday d + 7 := by
  simp only [monday]
  omega

theorem week1Monday_mono (hy : 0 < y) (h : y ≤ y') : week1Monday y ≤ week1Monday y' := by
  induction h with
  | refl => exact le_rfl
  | @step n hn ih =>
    have hpos : 0 < n := hy.trans_le hn
    have := week1Monday_near hpos
    have := week1Monday_near (y := n + 1) (by omega)
    have := daysBeforeYear_succ hpos
    show week1Monday y ≤ week1Monday (n + 1)
    omega

/-- The ISO year and week give the Monday, and are those of the weeks of the year. -/
theorem isoCalendar_spec (hd : 0 < d) : ∃ y w, isoCalendar d = (y, w + 1) ∧ 0 < y ∧ week1Monday y ≤ d ∧
    d < week1Monday (y + 1) ∧ monday d = week1Monday y + 7 * w := by
  have hy := year_pos hd
  have h₁ := daysBeforeYear_year hd
  have h₂ := le_daysBeforeYear d
  have hnear := week1Monday_near hy
  have hnext := week1Monday_near (y := year d + 1) (by omega)
  have hlen := daysBeforeYear_succ hy
  have hmonday {y} (hpos : 0 < y) (h : week1Monday y ≤ d) : monday d = week1Monday y + 7 * ((d - week1Monday y) / 7) := by
    have := week1Monday_mod hpos
    simp only [monday]
    omega
  simp only [isoCalendar]
  split_ifs with hlt hlast
  · have hfirst : year d ≠ 1 := by
      intro h
      rw [h, show week1Monday 1 = 1 from rfl] at hlt
      omega
    have hpos : 0 < year d - 1 := by omega
    have hback : year d - 1 + 1 = year d := by omega
    have hprev := week1Monday_near hpos
    have hlen' := daysBeforeYear_succ hpos
    rw [hback] at hlen'
    have hle : week1Monday (year d - 1) ≤ d := by omega
    exact ⟨_, _, rfl, hpos, hle, by rwa [hback], hmonday hpos hle⟩
  · obtain ⟨-, hle⟩ := hlast
    have hnext' := week1Monday_near (y := year d + 1 + 1) (by omega)
    have hlen' := daysBeforeYear_succ (y := year d + 1) (by omega)
    refine ⟨_, 0, rfl, by omega, hle, by omega, ?_⟩
    rw [hmonday (by omega) hle]
    omega
  · have hle : week1Monday (year d) ≤ d := by omega
    refine ⟨_, _, rfl, hy, hle, ?_, hmonday hy hle⟩
    have := week1Monday_mod hy
    have := week1Monday_mod (y := year d + 1) (by omega)
    omega

/-- **Days are of one ISO week** when they have the same Monday. -/
theorem isoCalendar_eq_iff (hd : 0 < d) (hd' : 0 < d') : isoCalendar d = isoCalendar d' ↔ monday d = monday d' := by
  obtain ⟨y, w, h, hy, hle, hlt, hmonday⟩ := isoCalendar_spec hd
  obtain ⟨y', w', h', hy', hle', hlt', hmonday'⟩ := isoCalendar_spec hd'
  rw [h, h', Prod.mk.injEq]
  constructor
  · rintro ⟨rfl, hw⟩
    omega
  · intro heq
    have hd := monday_mod hd
    have hd' := monday_mod hd'
    obtain hlt | rfl | hlt := lt_trichotomy y y'
    · have := week1Monday_mono (y := y + 1) (by omega) hlt
      omega
    · exact ⟨rfl, by omega⟩
    · have : week1Monday (y' + 1) ≤ week1Monday y := week1Monday_mono (by omega) hlt
      omega

end Lib.Calendar
