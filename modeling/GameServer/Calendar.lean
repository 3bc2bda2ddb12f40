import Mathlib.Algebra.BigOperators.Intervals
import Mathlib.Algebra.Order.BigOperators.Group.Finset
import Mathlib.Algebra.Order.Group.Int
import Mathlib.Data.Set.Function
import Mathlib.Tactic.IntervalCases
import Mathlib.Tactic.Ring

/-!
# Days of the Gregorian calendar

The rules of the calendar hold for all years, also before its introduction. `next` is the day after
a day; `number` counts the days from 1 January of the year 1, and every number is that of one day.
-/

namespace GameServer.Calendar

def Leap (y : ℤ) : Prop := y % 4 = 0 ∧ (y % 100 ≠ 0 ∨ y % 400 = 0)

instance (y : ℤ) : Decidable (Leap y) := inferInstanceAs (Decidable (_ ∧ _))

def monthDays (y m : ℤ) : ℤ :=
  if m = 2 then if Leap y then 29 else 28
  else if m = 4 ∨ m = 6 ∨ m = 9 ∨ m = 11 then 30 else 31

def yearDays (y : ℤ) : ℤ := if Leap y then 366 else 365

@[ext] structure Day where
  year : ℤ
  month : ℤ
  day : ℤ
  deriving DecidableEq

namespace Day

structure Valid (d : Day) : Prop where
  month_pos : 1 ≤ d.month
  month_le : d.month ≤ 12
  day_pos : 1 ≤ d.day
  day_le : d.day ≤ monthDays d.year d.month

/-- The day after. -/
def next (d : Day) : Day :=
  if d.day < monthDays d.year d.month then { d with day := d.day + 1 }
  else if d.month < 12 then ⟨d.year, d.month + 1, 1⟩
  else ⟨d.year + 1, 1, 1⟩

/-- The first day. -/
def first : Day := ⟨1, 1, 1⟩

end Day

def daysBeforeYear (y : ℤ) : ℤ := 365 * (y - 1) + (y - 1) / 4 - (y - 1) / 100 + (y - 1) / 400

def daysBeforeMonth (y m : ℤ) : ℤ := ∑ k ∈ Finset.range (m - 1).toNat, monthDays y (k + 1)

/-- The number of days since 1 January of the year 1. -/
def Day.number (d : Day) : ℤ :=
  daysBeforeYear d.year + daysBeforeMonth d.year d.month + (d.day - 1)

variable {d : Day} {y m : ℤ}

/-! ## Months and years -/

theorem monthDays_bounds (y m : ℤ) : 28 ≤ monthDays y m ∧ monthDays y m ≤ 31 := by
  unfold monthDays
  split_ifs <;> omega

theorem monthDays_december (y : ℤ) : monthDays y 12 = 31 := rfl

theorem daysBeforeYear_succ (y : ℤ) : daysBeforeYear (y + 1) = daysBeforeYear y + yearDays y := by
  simp only [daysBeforeYear, yearDays, Leap]
  split_ifs <;> omega

theorem daysBeforeYear_mono {y y' : ℤ} (h : y ≤ y') : daysBeforeYear y ≤ daysBeforeYear y' := by
  unfold daysBeforeYear
  omega

theorem daysBeforeMonth_succ (y : ℤ) (hm : 1 ≤ m) :
    daysBeforeMonth y (m + 1) = daysBeforeMonth y m + monthDays y m := by
  have hsucc : (m + 1 - 1).toNat = (m - 1).toNat + 1 := by omega
  have hcast : ((m - 1).toNat : ℤ) + 1 = m := by omega
  rw [daysBeforeMonth, hsucc, Finset.sum_range_succ, hcast, daysBeforeMonth]

theorem daysBeforeMonth_one (y : ℤ) : daysBeforeMonth y 1 = 0 := rfl

/-- The days before a month, as a number that depends on the year only by its February. -/
theorem daysBeforeMonth_eq (y : ℤ) (hm : 1 ≤ m) (hm' : m ≤ 12) : daysBeforeMonth y m =
    if m ≤ 2 then 31 * (m - 1) else 31 + monthDays y 2 + (153 * (m - 3) + 2) / 5 := by
  interval_cases m <;>
    simp [daysBeforeMonth, Finset.sum_range_succ, monthDays] <;> ring

theorem daysBeforeMonth_year (y : ℤ) :
    daysBeforeMonth y 12 + monthDays y 12 = yearDays y := by
  rw [daysBeforeMonth_eq y (by decide) le_rfl]
  simp only [monthDays, yearDays]
  split_ifs <;> omega

namespace Day

/-! ## The day after -/

theorem Valid.next (h : d.Valid) : d.next.Valid := by
  obtain ⟨hm, hm', hd, hd'⟩ := h
  have hbounds := fun y m => (monthDays_bounds y m).1
  unfold Day.next
  split_ifs with hday hmonth
  · exact ⟨hm, hm', by dsimp only; omega, by dsimp only; omega⟩
  · have hnext := hbounds d.year (d.month + 1)
    exact ⟨by dsimp only; omega, by dsimp only; omega, le_rfl, by dsimp only; omega⟩
  · have hnext := hbounds (d.year + 1) 1
    exact ⟨le_rfl, by dsimp only; omega, le_rfl, by dsimp only; omega⟩

theorem number_next (h : d.Valid) : d.next.number = d.number + 1 := by
  obtain ⟨hm, hm', hd, hd'⟩ := h
  unfold Day.next
  split_ifs with hday hmonth
  · simp only [number]
    ring
  · simp only [number, daysBeforeMonth_succ d.year hm]
    omega
  · have hdecember : d.month = 12 := by omega
    have hyear := daysBeforeMonth_year d.year
    simp only [number, daysBeforeYear_succ, daysBeforeMonth_one]
    rw [hdecember] at hd' hday ⊢
    omega

theorem Valid.iterate (h : d.Valid) (n : ℕ) : (Day.next^[n] d).Valid := by
  induction n with
  | zero => exact h
  | succ n ih =>
      rw [Function.iterate_succ_apply']
      exact ih.next

theorem number_iterate (h : d.Valid) (n : ℕ) : (Day.next^[n] d).number = d.number + n := by
  induction n with
  | zero => simp
  | succ n ih =>
      rw [Function.iterate_succ_apply', number_next (h.iterate n), ih]
      push_cast
      ring

/-- Days are passed in the order of years and of months. -/
theorem iterate_le (d : Day) (n : ℕ) : d.year < (Day.next^[n] d).year ∨
    d.year = (Day.next^[n] d).year ∧ d.month ≤ (Day.next^[n] d).month := by
  induction n with
  | zero => exact Or.inr ⟨rfl, le_rfl⟩
  | succ n ih =>
      rw [Function.iterate_succ_apply']
      generalize Day.next^[n] d = e at ih ⊢
      have hnext : e.year < e.next.year ∨ e.year = e.next.year ∧ e.month ≤ e.next.month := by
        unfold Day.next
        split_ifs
        · exact Or.inr ⟨rfl, le_rfl⟩
        · exact Or.inr ⟨rfl, by dsimp only; omega⟩
        · exact Or.inl (by dsimp only; omega)
      omega

theorem iterate_within (y m : ℤ) (n : ℕ) (hn : (n : ℤ) < monthDays y m) :
    Day.next^[n] ⟨y, m, 1⟩ = ⟨y, m, n + 1⟩ := by
  induction n with
  | zero => rfl
  | succ n ih =>
      push_cast at hn ⊢
      rw [Function.iterate_succ_apply', ih (by omega), Day.next, if_pos (by omega)]

/-- The month after begins behind the last day of a month. -/
theorem iterate_month (y : ℤ) (hm : m < 12) :
    Day.next^[(monthDays y m).toNat] ⟨y, m, 1⟩ = ⟨y, m + 1, 1⟩ := by
  have hbounds := monthDays_bounds y m
  obtain ⟨n, hn⟩ : ∃ n : ℕ, monthDays y m = n + 1 := ⟨(monthDays y m - 1).toNat, by omega⟩
  have hsucc : (monthDays y m).toNat = n + 1 := by omega
  rw [hsucc, Function.iterate_succ_apply', iterate_within y m n (by omega), Day.next,
    if_neg (by dsimp only; omega), if_pos hm]

theorem iterate_december (y : ℤ) : Day.next^[31] ⟨y, 12, 1⟩ = ⟨y + 1, 1, 1⟩ := by
  have hlast := monthDays_december y
  rw [Function.iterate_succ_apply', iterate_within y 12 30 (by omega), Day.next,
    if_neg (by dsimp only; omega), if_neg (by dsimp only; omega)]

/-! ## Numbers of days -/

theorem valid_first : first.Valid := ⟨by decide, by decide, by decide, by decide⟩

theorem number_first : first.number = 0 := by decide

theorem daysBeforeMonth_nonneg (y m : ℤ) : 0 ≤ daysBeforeMonth y m :=
  Finset.sum_nonneg fun k _ => by have := (monthDays_bounds y (k + 1)).1; omega

theorem daysBeforeMonth_mono (y : ℤ) {m m' : ℤ} (h : m ≤ m') :
    daysBeforeMonth y m ≤ daysBeforeMonth y m' :=
  Finset.sum_le_sum_of_subset_of_nonneg (Finset.range_subset_range.mpr (by omega)) fun k _ _ => by
    have := (monthDays_bounds y (k + 1)).1
    omega

/-- A day lies between the begins of its month and of the next one. -/
theorem Valid.month_bounds (h : d.Valid) :
    daysBeforeMonth d.year d.month ≤ d.number - daysBeforeYear d.year ∧
      d.number - daysBeforeYear d.year < daysBeforeMonth d.year (d.month + 1) := by
  obtain ⟨hm, -, hd, hd'⟩ := h
  rw [daysBeforeMonth_succ d.year hm, number]
  omega

theorem Valid.year_bounds (h : d.Valid) :
    daysBeforeYear d.year ≤ d.number ∧ d.number < daysBeforeYear (d.year + 1) := by
  have hmonth := h.month_bounds
  have hpos := daysBeforeMonth_nonneg d.year d.month
  have hlast := daysBeforeMonth_mono d.year (show d.month + 1 ≤ 12 + 1 by have := h.month_le; omega)
  rw [daysBeforeMonth_succ d.year (show (1 : ℤ) ≤ 12 by decide), daysBeforeMonth_year] at hlast
  rw [daysBeforeYear_succ]
  omega

theorem number_injOn : Set.InjOn number {d | d.Valid} := by
  intro d h d' h' heq
  have hyears := h.year_bounds
  have hyears' := h'.year_bounds
  have hyear : d.year = d'.year := by
    rcases lt_trichotomy d.year d'.year with hlt | heq | hlt
    · have := daysBeforeYear_mono (show d.year + 1 ≤ d'.year by omega)
      omega
    · exact heq
    · have := daysBeforeYear_mono (show d'.year + 1 ≤ d.year by omega)
      omega
  have hmonths := h.month_bounds
  have hmonths' := h'.month_bounds
  rw [← hyear] at hmonths'
  have hmonth : d.month = d'.month := by
    rcases lt_trichotomy d.month d'.month with hlt | heq | hlt
    · have := daysBeforeMonth_mono d.year (show d.month + 1 ≤ d'.month by omega)
      omega
    · exact heq
    · have := daysBeforeMonth_mono d.year (show d'.month + 1 ≤ d.month by omega)
      omega
  refine Day.ext hyear hmonth ?_
  rw [number, number, hyear, hmonth] at heq
  omega

/-- The calendar repeats itself after 400 years. -/
def shift (d : Day) (k : ℤ) : Day := { d with year := d.year + 400 * k }

theorem monthDays_shift (y m k : ℤ) : monthDays (y + 400 * k) m = monthDays y m := by
  have hleap : Leap (y + 400 * k) ↔ Leap y := by
    unfold Leap
    omega
  simp only [monthDays, hleap]

theorem Valid.shift (h : d.Valid) (k : ℤ) : (d.shift k).Valid := by
  obtain ⟨hm, hm', hd, hd'⟩ := h
  refine ⟨hm, hm', hd, ?_⟩
  rw [Day.shift, monthDays_shift]
  exact hd'

theorem number_shift (d : Day) (k : ℤ) : (d.shift k).number = d.number + 146097 * k := by
  simp only [number, Day.shift, daysBeforeMonth, monthDays_shift]
  simp only [daysBeforeYear]
  omega

def ofNumber (n : ℤ) : Day := (Day.next^[(n % 146097).toNat] first).shift (n / 146097)

theorem valid_ofNumber (n : ℤ) : (ofNumber n).Valid := (valid_first.iterate _).shift _

@[simp] theorem number_ofNumber (n : ℤ) : (ofNumber n).number = n := by
  rw [ofNumber, number_shift, number_iterate valid_first, number_first]
  omega

@[simp] theorem ofNumber_number (h : d.Valid) : ofNumber d.number = d :=
  number_injOn (valid_ofNumber _) h (number_ofNumber _)

/-- Every day from the year 1 on is some number of days behind the first one. -/
theorem exists_iterate (h : d.Valid) (hyear : 1 ≤ d.year) : ∃ n : ℕ, Day.next^[n] first = d := by
  have hpos : 0 ≤ d.number := (daysBeforeYear_mono hyear).trans h.year_bounds.1
  refine ⟨d.number.toNat, number_injOn (valid_first.iterate _) h ?_⟩
  rw [number_iterate valid_first, number_first]
  omega

end Day

end GameServer.Calendar
