import GameServer.Calendar

/-!
# Weekdays

`Time.getWeekDay_Zeller` takes the century before January and February are moved to the year before.
In a year of a new century these two months are then counted in a century that they are not in,
which shows in the sum unless the century is the fourth one.
-/

namespace GameServer.Calendar

/-- The weekday of a date, from 0 for Sunday. The quotients are of floats, which rounded down are
those of the integers as long as a year is one exactly, below `2 ^ 53`. -/
def getWeekDay_Zeller (y m d : ℤ) : ℤ :=
  let c := y / 100
  let y := y % 100
  let early : Bool := m = 1 ∨ m = 2
  let y := if early then y - 1 else y
  let m := if early then 12 + m else m
  let w := c / 4 - 2 * c + y + y / 4 + (m + 1) * 13 / 5 + d - 1
  w % 7

variable {d : Day}

theorem daysBeforeMonth_early (y : ℤ) {m : ℤ} (hm : 1 ≤ m) (hm' : m ≤ 2) :
    daysBeforeMonth y m = 31 * (m - 1) := by
  rw [daysBeforeMonth_eq y hm (by omega), if_pos hm']

theorem daysBeforeMonth_late (y : ℤ) {m : ℤ} (hm : 3 ≤ m) (hm' : m ≤ 12) :
    daysBeforeMonth y m = (if Leap y then 60 else 59) + (153 * (m - 3) + 2) / 5 := by
  rw [daysBeforeMonth_eq y (by omega) hm', if_neg (by omega), monthDays, if_pos rfl]
  split_ifs <;> rfl

/-- The days before March, from the year split into centuries. -/
theorem daysBeforeYear_march (c : ℤ) {r : ℤ} (hr : 0 ≤ r) (hr' : r < 100) :
    daysBeforeYear (100 * c + r) + (if Leap (100 * c + r) then 60 else 59) =
      36524 * c + c / 4 + 365 * r + r / 4 - 306 := by
  simp only [daysBeforeYear, Leap]
  split_ifs <;> omega

theorem daysBeforeYear_century (c : ℤ) :
    daysBeforeYear (100 * c) = 36524 * c + (c - 1) / 4 - 365 := by
  unfold daysBeforeYear
  omega

theorem daysBeforeYear_within (c : ℤ) {r : ℤ} (hr : 0 < r) (hr' : r < 100) :
    daysBeforeYear (100 * c + r) = 36524 * c + c / 4 + 365 * (r - 1) + (r - 1) / 4 := by
  unfold daysBeforeYear
  omega

theorem getWeekDay_Zeller_late (h : d.Valid) (hm : 3 ≤ d.month) :
    getWeekDay_Zeller d.year d.month d.day = (1 + d.number) % 7 := by
  have hnot : ¬ (d.month = 1 ∨ d.month = 2) := by omega
  have hyear := daysBeforeYear_march (d.year / 100) (Int.emod_nonneg d.year (by decide))
    (Int.emod_lt_of_pos d.year (by decide))
  rw [Int.mul_ediv_add_emod] at hyear
  rw [Day.number, daysBeforeMonth_late d.year hm h.month_le, ← add_assoc (daysBeforeYear d.year),
    hyear]
  simp only [getWeekDay_Zeller, hnot, decide_false, Bool.false_eq_true, if_false]
  have hmonth : (d.month + 1) * 13 / 5 = (153 * (d.month - 3) + 2) / 5 - 28 * d.month + 94 := by
    omega
  rw [hmonth, Int.emod_eq_emod_iff_emod_sub_eq_zero]
  omega

/-- In January and February it does so but for the first year of a century that is not the fourth
one. -/
theorem getWeekDay_Zeller_early (h : d.Valid) (hm : d.month ≤ 2) :
    getWeekDay_Zeller d.year d.month d.day = (1 + d.number) % 7 ↔
      ¬ (d.year % 100 = 0 ∧ d.year % 400 ≠ 0) := by
  have hearly : d.month = 1 ∨ d.month = 2 := by
    have := h.month_pos
    omega
  have hsplit := Int.mul_ediv_add_emod d.year 100
  have hpos := Int.emod_nonneg d.year (show (100 : ℤ) ≠ 0 by decide)
  have hlt := Int.emod_lt_of_pos d.year (show (0 : ℤ) < 100 by decide)
  rw [Day.number, daysBeforeMonth_early d.year h.month_pos hm]
  simp only [getWeekDay_Zeller, hearly, decide_true, if_true]
  rcases hpos.eq_or_lt with hzero | hr
  · rw [← hzero, add_zero] at hsplit
    have hyear := daysBeforeYear_century (d.year / 100)
    rw [hsplit] at hyear
    have hquarter : d.year % 400 = 100 * (d.year / 100 % 4) := by omega
    have hbefore : (d.year / 100 - 1) / 4 =
        d.year / 100 / 4 - if d.year / 100 % 4 = 0 then 1 else 0 := by
      split_ifs <;> omega
    rw [hyear, Int.emod_eq_emod_iff_emod_sub_eq_zero, hquarter, hbefore]
    rcases hearly with hm | hm <;> rw [hm] <;> split_ifs <;> omega
  · have hyear := daysBeforeYear_within (d.year / 100) hr hlt
    rw [hsplit] at hyear
    rw [hyear, Int.emod_eq_emod_iff_emod_sub_eq_zero]
    rcases hearly with hm | hm <;> rw [hm] <;> omega

/-- Counted from Monday, 1 January of the year 1, the weekday of a date is what the formula gives,
except in January and February of the first year of a century that is not the fourth one. -/
theorem getWeekDay_Zeller_iff (d : Day) (hvalid : d.Valid) (hyear : 1 ≤ d.year) :
    ∃ n : ℕ, Day.next^[n] Day.first = d ∧
      (getWeekDay_Zeller d.year d.month d.day = (1 + n) % 7 ↔
        ¬ (d.month ≤ 2 ∧ d.year % 100 = 0 ∧ d.year % 400 ≠ 0)) := by
  obtain ⟨n, rfl⟩ := Day.exists_iterate hvalid hyear
  have hnumber := Day.number_iterate Day.valid_first n
  rw [Day.number_first, zero_add] at hnumber
  refine ⟨n, rfl, ?_⟩
  rw [← hnumber]
  by_cases hm : (Day.next^[n] Day.first).month ≤ 2
  · rw [getWeekDay_Zeller_early hvalid hm]
    exact not_congr ⟨fun h => ⟨hm, h⟩, fun h => h.2⟩
  · exact iff_of_true (getWeekDay_Zeller_late hvalid (by omega)) fun h => hm h.1

theorem getWeekDay_Zeller_iff_2000 :
    ∃ n : ℕ, Day.next^[n] Day.first = ⟨2000, 2, 29⟩ ∧
      (getWeekDay_Zeller 2000 2 29 = (1 + n) % 7 ↔
        ¬ ((2 : ℤ) ≤ 2 ∧ (2000 : ℤ) % 100 = 0 ∧ (2000 : ℤ) % 400 ≠ 0)) :=
  getWeekDay_Zeller_iff ⟨2000, 2, 29⟩ ⟨by decide, by decide, by decide, by decide⟩ (by decide)

/-- 1 January 1900 was a Monday, and the formula gives Sunday. -/
theorem getWeekDay_Zeller_1900 :
    ¬ ∀ d : Day, d.Valid → 1 ≤ d.year → ∀ n : ℕ, Day.next^[n] Day.first = d →
      getWeekDay_Zeller d.year d.month d.day = (1 + n) % 7 := by
  intro hall
  have hvalid : (⟨1900, 1, 1⟩ : Day).Valid := ⟨by decide, by decide, by decide, by decide⟩
  obtain ⟨n, hn⟩ := Day.exists_iterate hvalid (by decide)
  have hnumber := Day.number_iterate Day.valid_first n
  rw [hn, Day.number_first, zero_add] at hnumber
  have hcount : (⟨1900, 1, 1⟩ : Day).number = 693595 := by decide
  have hformula := hall _ hvalid (by decide) n hn
  rw [← hnumber, hcount] at hformula
  exact absurd hformula (by decide)

end GameServer.Calendar
