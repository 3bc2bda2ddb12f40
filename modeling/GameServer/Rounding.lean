import Mathlib.Data.Int.Log
import Mathlib.Data.Rat.Floor
import Mathlib.Tactic.Linarith
import Mathlib.Tactic.Positivity
import Mathlib.Tactic.Ring

/-!
# Rounding to binary digits

A number is rounded to the nearest one of `p` significant binary digits, and to the even one of two
that are as near. A rounding is monotone, leaves what has `p` digits and errs by a share of `2 ^ p`
at most. The arithmetic of doubles rounds every result to 53 digits; that exponents have bounds is
left out.
-/

namespace GameServer.Rounding

/-- The nearest whole number, and the even one of two. -/
def nearest (x : ℚ) : ℤ :=
  if Int.fract x < 1 / 2 ∨ Int.fract x = 1 / 2 ∧ Even ⌊x⌋ then ⌊x⌋ else ⌊x⌋ + 1

/-- The weight of the last of `p` digits. -/
def unit (p : ℕ) (x : ℚ) : ℚ := 2 ^ (Int.log 2 |x| + 1 - p)

def round (p : ℕ) (x : ℚ) : ℚ := nearest (x / unit p x) * unit p x

/-- The number has no more than `p` digits. -/
def Digits (p : ℕ) (x : ℚ) : Prop := ∃ k e : ℤ, |k| ≤ 2 ^ p ∧ x = k * 2 ^ e

variable {p : ℕ} {x y : ℚ}

/-! ## Whole numbers -/

theorem nearest_intCast (n : ℤ) : nearest n = n := by
  simp [nearest]

theorem nearest_bounds (x : ℚ) : x - 1 / 2 ≤ nearest x ∧ (nearest x : ℚ) ≤ x + 1 / 2 := by
  have hx := Int.floor_add_fract x
  have hlt := Int.fract_lt_one x
  have hnonneg := Int.fract_nonneg x
  unfold nearest
  split_ifs with h
  · constructor
    · rcases h with h | ⟨h, -⟩ <;> linarith
    · linarith
  · have hle : 1 / 2 ≤ Int.fract x := not_lt.mp fun hlow => h (.inl hlow)
    push_cast
    constructor <;> linarith

theorem nearest_mono (h : x ≤ y) : nearest x ≤ nearest y := by
  have hx := Int.floor_add_fract x
  have hy := Int.floor_add_fract y
  rcases (Int.floor_le_floor h).lt_or_eq with hlt | heq
  · have hle : nearest x ≤ ⌊x⌋ + 1 := by
      unfold nearest
      split_ifs <;> omega
    have hge : ⌊y⌋ ≤ nearest y := by
      unfold nearest
      split_ifs <;> omega
    omega
  · have hfract : Int.fract x ≤ Int.fract y := by
      rw [heq] at hx
      linarith
    unfold nearest
    rw [heq]
    split_ifs with hlow hlow' hlow'
    · exact le_rfl
    · omega
    · refine absurd ?_ hlow
      rcases hlow' with hlt | ⟨htie, heven⟩
      · exact .inl (hfract.trans_lt hlt)
      · exact (hfract.trans_eq htie).lt_or_eq.imp id fun h => ⟨h, heven⟩
    · exact le_rfl

theorem nearest_neg (x : ℚ) : nearest (-x) = -nearest x := by
  by_cases hzero : Int.fract x = 0
  · obtain ⟨n, rfl⟩ : ∃ n : ℤ, x = n := ⟨⌊x⌋, by rw [← Int.floor_add_fract x, hzero]; simp⟩
    rw [← Int.cast_neg, nearest_intCast, nearest_intCast]
  · have hfract : Int.fract (-x) = 1 - Int.fract x := Int.fract_neg hzero
    have hfloor : ⌊-x⌋ = -⌊x⌋ - 1 := by
      have hx := Int.floor_add_fract x
      have hneg := Int.floor_add_fract (-x)
      rw [hfract] at hneg
      have hsum : (⌊-x⌋ : ℚ) = ((-⌊x⌋ - 1 : ℤ) : ℚ) := by
        push_cast
        linarith
      exact_mod_cast hsum
    have heven : Even (-⌊x⌋ - 1) ↔ ¬ Even ⌊x⌋ := by
      rw [Int.even_sub_one, even_neg]
    unfold nearest
    simp only [hfract, hfloor, heven]
    split_ifs with h1 h2 h2
    · rcases h1 with h1 | ⟨h1, hodd⟩ <;> rcases h2 with h2 | ⟨h2, heven⟩
      · linarith
      · linarith
      · linarith
      · exact absurd heven hodd
    · omega
    · omega
    · rcases lt_trichotomy (Int.fract x) (1 / 2) with hlt | heq | hgt
      · exact absurd (.inl hlt) h2
      · refine absurd (.inr ⟨by linarith, fun heven => h2 (.inr ⟨heq, heven⟩)⟩) h1
      · exact absurd (.inl (by linarith)) h1

/-! ## Units -/

theorem unit_pos (p : ℕ) (x : ℚ) : 0 < unit p x := zpow_pos two_pos _

theorem unit_neg (p : ℕ) (x : ℚ) : unit p (-x) = unit p x := by
  rw [unit, unit, abs_neg]

theorem two_pow_mul_unit (p : ℕ) (x : ℚ) : 2 ^ p * unit p x = 2 ^ (Int.log 2 |x| + 1) := by
  rw [unit, ← zpow_natCast, ← zpow_add₀ two_ne_zero]
  congr 1
  ring

theorem abs_lt_unit (p : ℕ) (x : ℚ) : |x| < 2 ^ p * unit p x := by
  rw [two_pow_mul_unit]
  exact_mod_cast Int.lt_zpow_succ_log_self one_lt_two |x|

theorem unit_le_abs (p : ℕ) (hx : x ≠ 0) : 2 ^ p * unit p x ≤ 2 * |x| := by
  have hlog : ((2 : ℕ) : ℚ) ^ Int.log 2 |x| ≤ |x| :=
    Int.zpow_log_le_self (by norm_num) (abs_pos.mpr hx)
  rw [two_pow_mul_unit, zpow_add_one₀ two_ne_zero, mul_comm]
  push_cast at hlog
  linarith

/-- A number of `p` digits is whole in its unit. -/
theorem Digits.whole (hp : 0 < p) (h : Digits p x) : ∃ n : ℤ, x / unit p x = n := by
  obtain ⟨k, e, hk, hx⟩ := h
  by_cases hzero : x = 0
  · exact ⟨0, by simp [hzero]⟩
  have hpos : (0 : ℚ) < 2 ^ e := zpow_pos two_pos _
  have habs : |x| = |(k : ℚ)| * 2 ^ e := by rw [hx, abs_mul, abs_of_pos hpos]
  have hpow : (2 : ℚ) ^ p * 2 ^ e = ((2 : ℕ) : ℚ) ^ ((p : ℤ) + e) := by
    rw [Nat.cast_ofNat, zpow_add₀ two_ne_zero, zpow_natCast]
  rcases hk.lt_or_eq with hlt | htop
  · have hbelow : |x| < ((2 : ℕ) : ℚ) ^ ((p : ℤ) + e) := by
      rw [habs, ← hpow]
      exact mul_lt_mul_of_pos_right (by exact_mod_cast hlt) hpos
    have hlog := (Int.lt_zpow_iff_log_lt (by norm_num) (abs_pos.mpr hzero)).mp hbelow
    obtain ⟨i, hi⟩ := Int.le.dest (by omega : Int.log 2 |x| + 1 - p ≤ e)
    refine ⟨k * 2 ^ i, ?_⟩
    rw [div_eq_iff (unit_pos p x).ne', unit]
    nth_rewrite 1 [hx]
    rw [← hi, zpow_add₀ two_ne_zero, zpow_natCast]
    push_cast
    ring
  · -- the number is a power of 2
    have hcast : |(k : ℚ)| = 2 ^ p := by exact_mod_cast htop
    have hunit : unit p x = 2 ^ e * 2 := by
      rw [unit, habs, hcast, hpow, Int.log_zpow (by norm_num), ← zpow_add_one₀ two_ne_zero]
      congr 1
      ring
    obtain ⟨j, hj⟩ : (2 : ℤ) ∣ k := by
      rw [← dvd_abs, htop]
      exact dvd_pow_self 2 hp.ne'
    refine ⟨j, ?_⟩
    rw [div_eq_iff (unit_pos p x).ne', hunit, hx, hj]
    push_cast
    ring

/-- Between two numbers of `p` digits is a unit of the lower one. -/
theorem Digits.add_unit_le (hp : 0 < p) (hx : Digits p x) (hy : Digits p y) (hpos : 0 < x)
    (h : x < y) : x + unit p x ≤ y := by
  obtain ⟨n, hn⟩ := hx.whole hp
  have hunit := unit_pos p x
  have hxn : x = n * unit p x := (div_eq_iff hunit.ne').mp hn
  have hsum : x + unit p x = ((n + 1 : ℤ) : ℚ) * unit p x := by
    nth_rewrite 1 [hxn]
    push_cast
    ring
  rw [hsum]
  have habs : |x| = x := abs_of_pos hpos
  have habs' : |y| = y := abs_of_pos (hpos.trans h)
  have hlog : Int.log 2 x ≤ Int.log 2 y := Int.log_mono_right hpos h.le
  rcases hlog.lt_or_eq with hlt | heq
  · have hbelow : n < 2 ^ p := by
      have hlt := abs_lt_unit p x
      rw [habs] at hlt
      nth_rewrite 1 [hxn] at hlt
      exact_mod_cast lt_of_mul_lt_mul_right hlt hunit.le
    have htop : ((n + 1 : ℤ) : ℚ) ≤ 2 ^ p := by exact_mod_cast hbelow
    calc ((n + 1 : ℤ) : ℚ) * unit p x ≤ 2 ^ p * unit p x := by gcongr
      _ = 2 ^ (Int.log 2 x + 1) := by rw [two_pow_mul_unit, habs]
      _ ≤ 2 ^ Int.log 2 y := zpow_le_zpow_right₀ one_le_two hlt
      _ ≤ y := by exact_mod_cast Int.zpow_log_le_self one_lt_two (hpos.trans h)
  · obtain ⟨k, hk⟩ := hy.whole hp
    have hsame : unit p y = unit p x := by rw [unit, unit, habs, habs', heq]
    rw [hsame] at hk
    have hyk : y = k * unit p x := (div_eq_iff hunit.ne').mp hk
    have hless : n < k := by
      rw [hxn, hyk] at h
      exact_mod_cast lt_of_mul_lt_mul_right h hunit.le
    rw [hyk]
    gcongr
    exact hless

/-- The difference to a whole number needs no more digits where it is no greater. -/
theorem Digits.sub_intCast (hp : 0 < p) (hx : Digits p x) (hone : 1 ≤ x) (hfits : x < 2 ^ p) {n : ℤ}
    (hn : |x - n| ≤ ⌈x⌉) : Digits p (x - n) := by
  have hpos : 0 < x := one_pos.trans_le hone
  obtain ⟨k, hk⟩ := hx.whole hp
  have hxk : x = k * unit p x := (div_eq_iff (unit_pos p x).ne').mp hk
  have hlow : 0 ≤ Int.log 2 |x| := by
    rw [abs_of_pos hpos, ← Int.log_one_right (R := ℚ) 2]
    exact Int.log_mono_right one_pos hone
  have hhigh : Int.log 2 |x| < p := by
    rw [abs_of_pos hpos, ← Int.lt_zpow_iff_log_lt one_lt_two hpos, zpow_natCast]
    exact_mod_cast hfits
  obtain ⟨i, hi⟩ := Int.le.dest (by omega : Int.log 2 |x| + 1 - p ≤ 0)
  have hscale : (2 : ℚ) ^ i * unit p x = 1 := by
    rw [unit, ← zpow_natCast, ← zpow_add₀ two_ne_zero, add_comm, hi, zpow_zero]
  have hdiff : x - n = ((k - n * 2 ^ i : ℤ) : ℚ) * unit p x := by
    push_cast
    rw [sub_mul, mul_assoc, hscale, mul_one, ← hxk]
  refine ⟨k - n * 2 ^ i, Int.log 2 |x| + 1 - p, ?_, hdiff⟩
  obtain ⟨j, hj⟩ := Int.eq_ofNat_of_zero_le (by omega : 0 ≤ Int.log 2 |x| + 1)
  have htop : (⌈x⌉ : ℚ) ≤ 2 ^ p * unit p x := by
    have hx := (le_abs_self x).trans (abs_lt_unit p x).le
    rw [two_pow_mul_unit, hj, zpow_natCast] at hx ⊢
    have hceil : ⌈x⌉ ≤ 2 ^ j := Int.ceil_le.mpr (by exact_mod_cast hx)
    exact_mod_cast hceil
  have hle := hn.trans htop
  rw [hdiff, abs_mul, abs_of_pos (unit_pos p x), mul_le_mul_iff_left₀ (unit_pos p x)] at hle
  exact_mod_cast hle

/-! ## Rounding -/

theorem round_of_digits (hp : 0 < p) (h : Digits p x) : round p x = x := by
  obtain ⟨n, hn⟩ := h.whole hp
  rw [round, hn, nearest_intCast, ← hn, div_mul_cancel₀ x (unit_pos p x).ne']

theorem round_neg (p : ℕ) (x : ℚ) : round p (-x) = -round p x := by
  rw [round, round, unit_neg, neg_div, nearest_neg]
  push_cast
  ring

/-- The nearest multiple of the unit is within the digits. -/
theorem abs_nearest_le (p : ℕ) (x : ℚ) : |nearest (x / unit p x)| ≤ 2 ^ p := by
  have hlt : |x / unit p x| < 2 ^ p := by
    rw [abs_div, abs_of_pos (unit_pos p x), div_lt_iff₀ (unit_pos p x)]
    exact abs_lt_unit p x
  obtain ⟨hlow, hhigh⟩ := abs_lt.mp hlt
  refine abs_le.mpr ⟨?_, ?_⟩
  · rw [← nearest_intCast (-2 ^ p)]
    exact nearest_mono (by push_cast; exact hlow.le)
  · rw [← nearest_intCast (2 ^ p)]
    exact nearest_mono (by push_cast; exact hhigh.le)

theorem digits_round (p : ℕ) (x : ℚ) : Digits p (round p x) :=
  ⟨nearest (x / unit p x), Int.log 2 |x| + 1 - p, abs_nearest_le p x, rfl⟩

theorem abs_round_sub_le (p : ℕ) (x : ℚ) : |round p x - x| ≤ |x| / 2 ^ p := by
  have hunit := unit_pos p x
  obtain ⟨hlow, hhigh⟩ := nearest_bounds (x / unit p x)
  have hhalf : |round p x - x| ≤ unit p x / 2 := by
    have hx : x = x / unit p x * unit p x := (div_mul_cancel₀ x hunit.ne').symm
    have hdiff : round p x - x = (nearest (x / unit p x) - x / unit p x) * unit p x := by
      rw [sub_mul, ← hx, round]
    have hnear : |(nearest (x / unit p x) : ℚ) - x / unit p x| ≤ 1 / 2 :=
      abs_le.mpr ⟨by linarith, by linarith⟩
    calc |round p x - x| = |(nearest (x / unit p x) : ℚ) - x / unit p x| * unit p x := by
          rw [hdiff, abs_mul, abs_of_pos hunit]
      _ ≤ 1 / 2 * unit p x := mul_le_mul_of_nonneg_right hnear hunit.le
      _ = unit p x / 2 := by ring
  by_cases hzero : x = 0
  · simp [hzero, round, nearest]
  · rw [le_div_iff₀ (by positivity)]
    have hle := unit_le_abs p hzero
    have hpow : (0 : ℚ) < 2 ^ p := by positivity
    calc |round p x - x| * 2 ^ p ≤ unit p x / 2 * 2 ^ p := by gcongr
      _ = 2 ^ p * unit p x / 2 := by ring
      _ ≤ |x| := by linarith

/-- The power of 2 between two numbers stays between them. -/
theorem round_mono_of_pos (hp : 0 < p) (hx : 0 < x) (h : x ≤ y) : round p x ≤ round p y := by
  have hy : 0 < y := hx.trans_le h
  have hlog : Int.log 2 x ≤ Int.log 2 y := Int.log_mono_right hx h
  rcases hlog.lt_or_eq with hlt | heq
  · have hupper : round p x ≤ 2 ^ (Int.log 2 |x| + 1) := by
      rw [← two_pow_mul_unit p x]
      refine mul_le_mul_of_nonneg_right ?_ (unit_pos p x).le
      exact_mod_cast (abs_le.mp (abs_nearest_le p x)).2
    have hlower : (2 : ℚ) ^ Int.log 2 |y| ≤ round p y := by
      obtain ⟨q, rfl⟩ := Nat.exists_eq_add_of_le' hp
      have hunit := unit_pos (q + 1) y
      have hpow : (2 : ℚ) ^ Int.log 2 |y| = ((2 ^ q : ℤ) : ℚ) * unit (q + 1) y := by
        have htop := two_pow_mul_unit (q + 1) y
        rw [zpow_add_one₀ two_ne_zero, pow_succ] at htop
        push_cast
        linarith
      have hle : ((2 ^ q : ℤ) : ℚ) ≤ y / unit (q + 1) y := by
        have htwo := unit_le_abs (q + 1) hy.ne'
        rw [le_div_iff₀ hunit]
        rw [abs_of_pos hy, pow_succ] at htwo
        push_cast
        linarith
      have hnear := nearest_mono hle
      rw [nearest_intCast] at hnear
      rw [hpow]
      exact mul_le_mul_of_nonneg_right (by exact_mod_cast hnear) hunit.le
    rw [abs_of_pos hx] at hupper
    rw [abs_of_pos hy] at hlower
    exact hupper.trans ((zpow_le_zpow_right₀ one_le_two (by omega)).trans hlower)
  · have hunit : unit p x = unit p y := by
      rw [unit, unit, abs_of_pos hx, abs_of_pos hy, heq]
    have hpos := unit_pos p y
    rw [round, round, hunit]
    refine mul_le_mul_of_nonneg_right ?_ hpos.le
    exact_mod_cast nearest_mono (div_le_div_of_nonneg_right h hpos.le)

theorem round_zero (p : ℕ) : round p 0 = 0 := by
  simp [round, nearest]

theorem round_nonneg (p : ℕ) (hx : 0 ≤ x) : 0 ≤ round p x := by
  have hnear := nearest_mono (div_nonneg hx (unit_pos p x).le)
  rw [← Int.cast_zero, nearest_intCast] at hnear
  exact mul_nonneg (by exact_mod_cast hnear) (unit_pos p x).le

theorem round_mono (hp : 0 < p) (h : x ≤ y) : round p x ≤ round p y := by
  rcases lt_trichotomy x 0 with hx | rfl | hx
  · rcases le_or_gt 0 y with hy | hy
    · have hneg := round_nonneg p (neg_nonneg.mpr hx.le)
      rw [round_neg] at hneg
      linarith [round_nonneg p hy]
    · have hneg := round_mono_of_pos hp (neg_pos.mpr hy) (neg_le_neg h)
      rw [round_neg, round_neg] at hneg
      linarith
  · rw [round_zero]
    exact round_nonneg p h
  · exact round_mono_of_pos hp hx h

theorem round_pos (hp : 0 < p) (hx : 0 < x) : 0 < round p x := by
  have hlow : Digits p ((2 : ℚ) ^ Int.log 2 x) := ⟨1, Int.log 2 x, by simp [one_le_pow₀], by simp⟩
  have hle : (2 : ℚ) ^ Int.log 2 x ≤ x := by
    exact_mod_cast Int.zpow_log_le_self one_lt_two hx
  have hmono := round_mono hp hle
  rw [round_of_digits hp hlow] at hmono
  exact (zpow_pos two_pos _).trans_le hmono

theorem round_nonpos_iff (hp : 0 < p) : round p x ≤ 0 ↔ x ≤ 0 := by
  constructor
  · intro h
    by_contra hx
    exact absurd (round_pos hp (not_le.mp hx)) (not_lt.mpr h)
  · intro h
    rw [← round_zero p]
    exact round_mono hp h

theorem digits_intCast {n : ℤ} (hn : |n| ≤ 2 ^ p) : Digits p n := ⟨n, 0, hn, by simp⟩

end GameServer.Rounding

/-! ## Doubles -/

namespace GameServer.Double

open Rounding

def round (x : ℚ) : ℚ := Rounding.round 53 x

def add (x y : ℚ) : ℚ := round (x + y)

def sub (x y : ℚ) : ℚ := round (x - y)

def mul (x y : ℚ) : ℚ := round (x * y)

def div (x y : ℚ) : ℚ := round (x / y)

/-- A number that is a double. -/
def Is (x : ℚ) : Prop := round x = x

instance : DecidablePred Is := fun x => inferInstanceAs (Decidable (round x = x))

variable {x y : ℚ}

theorem is_iff_digits : Is x ↔ Digits 53 x :=
  ⟨fun h => h ▸ digits_round 53 x, round_of_digits (by norm_num)⟩

theorem is_intCast {n : ℤ} (hn : |n| ≤ 2 ^ 53) : Is n := is_iff_digits.mpr (digits_intCast hn)

theorem Is.neg (h : Is x) : Is (-x) := (round_neg 53 x).trans (congrArg _ h)

theorem round_pos (h : 0 < x) : 0 < round x := Rounding.round_pos (by norm_num) h

theorem round_nonpos_iff : round x ≤ 0 ↔ x ≤ 0 := Rounding.round_nonpos_iff (by norm_num)

theorem round_le (h : x ≤ y) (hy : Is y) : round x ≤ y :=
  (round_mono (by norm_num) h).trans_eq hy

theorem le_round (h : x ≤ y) (hx : Is x) : x ≤ round y :=
  hx.symm.trans_le (round_mono (by norm_num) h)

theorem round_le_mul (hx : 0 ≤ x) : round x ≤ x * (1 + 1 / 2 ^ 53) := by
  have herr := (abs_le.mp (abs_round_sub_le 53 x)).2
  rw [abs_of_nonneg hx] at herr
  unfold round
  linarith

theorem mul_le_round (hx : 0 ≤ x) : x * (1 - 1 / 2 ^ 53) ≤ round x := by
  have herr := (abs_le.mp (abs_round_sub_le 53 x)).1
  rw [abs_of_nonneg hx] at herr
  unfold round
  linarith

/-- The share by which the next double is greater. -/
theorem Is.mul_le (hx : Is x) (hy : Is y) (hpos : 0 < x) (h : x < y) :
    x * (1 + 1 / 2 ^ 53) ≤ y := by
  have hnext := (is_iff_digits.mp hx).add_unit_le (by norm_num) (is_iff_digits.mp hy) hpos h
  have hunit := abs_lt_unit 53 x
  rw [abs_of_pos hpos] at hunit
  linarith

/-! ## Sums under keys -/

variable {κ : Type*} [DecidableEq κ] {l l' : List (κ × ℚ)} {v : κ → ℚ} {k : κ}

/-- Amounts are added one after the other, each to the value under its key. -/
def addAll (l : List (κ × ℚ)) (v : κ → ℚ) : κ → ℚ :=
  l.foldl (fun v c => Function.update v c.1 (add (v c.1) c.2)) v

/-- No sum on the way is rounded. -/
def Exact : List (κ × ℚ) → (κ → ℚ) → Prop
  | [], _ => True
  | c :: rest, v => Is (v c.1 + c.2) ∧ Exact rest (Function.update v c.1 (v c.1 + c.2))

def decideExact : (l : List (κ × ℚ)) → (v : κ → ℚ) → Decidable (Exact l v)
  | [], _ => .isTrue trivial
  | _ :: rest, _ =>
    have := decideExact rest
    inferInstanceAs (Decidable (_ ∧ _))

instance (l : List (κ × ℚ)) (v : κ → ℚ) : Decidable (Exact l v) := decideExact l v

/-- What the amounts for one key come to. -/
def amount (l : List (κ × ℚ)) (k : κ) : ℚ := (l.map fun c => if c.1 = k then c.2 else 0).sum

def scale (a : ℚ) (l : List (κ × ℚ)) : List (κ × ℚ) := l.map fun c => (c.1, a * c.2)

omit [DecidableEq κ] in
theorem scale_fst (a : ℚ) (l : List (κ × ℚ)) : (scale a l).map Prod.fst = l.map Prod.fst := by
  simp [scale]

theorem addAll_append (l l' : List (κ × ℚ)) (v : κ → ℚ) :
    addAll (l ++ l') v = addAll l' (addAll l v) :=
  List.foldl_append

theorem addAll_of_not_mem (h : k ∉ l.map Prod.fst) : addAll l v k = v k := by
  induction l generalizing v with
  | nil => rfl
  | cons c rest ih =>
      rw [List.map_cons, List.mem_cons, not_or] at h
      exact (ih h.2).trans (Function.update_of_ne h.1 _ _)

@[simp] theorem amount_nil (k : κ) : amount [] k = 0 := rfl

theorem amount_cons (c : κ × ℚ) (l : List (κ × ℚ)) (k : κ) :
    amount (c :: l) k = (if c.1 = k then c.2 else 0) + amount l k := by
  simp [amount]

theorem amount_append (l l' : List (κ × ℚ)) (k : κ) :
    amount (l ++ l') k = amount l k + amount l' k := by
  simp [amount]

theorem amount_scale (a : ℚ) (l : List (κ × ℚ)) (k : κ) :
    amount (scale a l) k = a * amount l k := by
  induction l with
  | nil => simp [scale]
  | cons c rest ih =>
      rw [scale, List.map_cons, ← scale, amount_cons, amount_cons, ih, mul_add, mul_ite, mul_zero]

theorem amount_of_not_mem (h : k ∉ l.map Prod.fst) : amount l k = 0 := by
  apply List.sum_eq_zero
  intro v hv
  obtain ⟨c, hc, rfl⟩ := List.mem_map.mp hv
  exact if_neg fun hk : c.1 = k => h (hk ▸ List.mem_map_of_mem hc)

/-- Sums that are not rounded come to the sum. -/
theorem Exact.addAll (h : Exact l v) (k : κ) : addAll l v k = v k + amount l k := by
  induction l generalizing v with
  | nil => exact (add_zero _).symm
  | cons c rest ih =>
      obtain ⟨hsum, hrest⟩ := h
      have hadd : Double.add (v c.1) c.2 = v c.1 + c.2 := hsum
      have hfold : Double.addAll (c :: rest) v =
          Double.addAll rest (Function.update v c.1 (v c.1 + c.2)) := by
        rw [← hadd]
        rfl
      rw [hfold, ih hrest, amount_cons, ← add_assoc]
      congr 1
      by_cases hk : c.1 = k
      · subst hk
        simp
      · simp [hk, Function.update_of_ne (Ne.symm hk)]

end GameServer.Double
