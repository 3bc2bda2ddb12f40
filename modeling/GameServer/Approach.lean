import Mathlib.Algebra.Order.Floor.Ring
import Mathlib.Data.Sign.Basic
import Mathlib.Logic.Function.Iterate
import Mathlib.Tactic.Linarith
import Mathlib.Tactic.Ring

/-!
# Steps of one length towards zero

A point on a line that takes steps of a fixed length towards zero comes down by whole steps. Once it
has passed zero it goes back and forth over it for ever.
-/

namespace GameServer.Approach

variable {K : Type*} [Field K] [LinearOrder K] {L D s w : K} {n k : ℕ}

/-- One step of length `L`; zero stays. -/
def toward (L s : K) : K := s - SignType.sign s * L

theorem toward_of_neg (hs : s < 0) : toward L s = s + L := by
  rw [toward, sign_neg hs, SignType.coe_neg_one, neg_one_mul, sub_neg_eq_add]

theorem toward_of_pos (hs : 0 < s) : toward L s = s - L := by
  rw [toward, sign_pos hs, SignType.coe_one, one_mul]

theorem toward_zero : toward L (0 : K) = 0 := by
  rw [toward, sign_zero, SignType.coe_zero, zero_mul, sub_zero]

theorem iterate_toward_zero (n : ℕ) : (toward L)^[n] (0 : K) = 0 :=
  Function.iterate_fixed toward_zero n

theorem exists_iterate_toward (L D : K) (n : ℕ) : ∃ z : ℤ, (toward L)^[n] (-D) = z * L - D := by
  induction n with
  | zero => exact ⟨0, by simp⟩
  | succ n ih =>
      obtain ⟨z, hz⟩ := ih
      refine ⟨z - SignType.sign ((toward L)^[n] (-D)), ?_⟩
      rw [Function.iterate_succ_apply', toward]
      nth_rewrite 1 [hz]
      push_cast
      ring

variable [IsStrictOrderedRing K]

theorem iterate_toward_of_lt (h : ∀ j < n, j * L < D) : (toward L)^[n] (-D) = n * L - D := by
  induction n with
  | zero => rw [Function.iterate_zero_apply, Nat.cast_zero, zero_mul, zero_sub]
  | succ n ih =>
      have hlt := h n n.lt_succ_self
      rw [Function.iterate_succ_apply', ih fun j hj => h j (hj.trans n.lt_succ_self),
        toward_of_neg (by linarith)]
      push_cast
      ring

theorem iterate_toward_of_pos (hs : 0 < s) (hL : s < L) (n : ℕ) :
    (toward L)^[n] s = s ∨ (toward L)^[n] s = s - L := by
  induction n with
  | zero => exact .inl rfl
  | succ n ih =>
      rw [Function.iterate_succ_apply']
      rcases ih with heq | heq
      · exact .inr (by rw [heq, toward_of_pos hs])
      · exact .inl (by rw [heq, toward_of_neg (by linarith), sub_add_cancel])

/-- Once the whole steps have passed zero, the point is at one of the two places around it. -/
theorem iterate_toward_of_passed (hbelow : ∀ j < k + 1, j * L < D) (hover : D < (k + 1 : ℕ) * L)
    (hlt : k < n) :
    (toward L)^[n] (-D) = (k + 1 : ℕ) * L - D ∨ (toward L)^[n] (-D) = k * L - D := by
  have hsplit : (toward L)^[n] (-D) = (toward L)^[n - (k + 1)] ((k + 1 : ℕ) * L - D) := by
    rw [← iterate_toward_of_lt hbelow, ← Function.iterate_add_apply]
    congr 1
    omega
  have hprev : ((k + 1 : ℕ) : K) * L - D - L = k * L - D := by
    push_cast
    ring
  have hshort : ((k + 1 : ℕ) : K) * L - D < L := by
    have hlast := hbelow k k.lt_succ_self
    linarith
  rw [hsplit, ← hprev]
  exact iterate_toward_of_pos (sub_pos.mpr hover) hshort _

/-! ## Coming near -/

section Rest

variable [FloorRing K]

/-- What whole steps leave of the way. -/
def rest (L D : K) : K := D - ⌊D / L⌋ * L

theorem rest_nonneg (hL : 0 < L) (D : K) : 0 ≤ rest L D :=
  sub_nonneg.mpr ((le_div_iff₀ hL).mp (Int.floor_le _))

theorem rest_lt (hL : 0 < L) (D : K) : rest L D < L := by
  have hlt := (div_lt_iff₀ hL).mp (Int.lt_floor_add_one (D / L))
  rw [rest]
  linarith

/-- No place that the steps lead to is nearer to zero than the two around it. -/
theorem rest_le_abs (hL : 0 < L) (z : ℤ) : rest L D ≤ |z * L - D| ∨ L - rest L D ≤ |z * L - D| := by
  rw [rest]
  rcases le_or_gt z ⌊D / L⌋ with hz | hz
  · have hmul : (z : K) * L ≤ ⌊D / L⌋ * L :=
      mul_le_mul_of_nonneg_right (Int.cast_le.mpr hz) hL.le
    exact .inl (le_trans (by linarith) (neg_le_abs _))
  · have hmul : ((⌊D / L⌋ : K) + 1) * L ≤ z * L :=
      mul_le_mul_of_nonneg_right (by exact_mod_cast hz) hL.le
    exact .inr (le_trans (by linarith) (le_abs_self _))

theorem exists_steps (hL : 0 < L) (hD : 0 ≤ D) :
    ∃ N : ℕ, rest L D = D - N * L := by
  have hfloor : 0 ≤ ⌊D / L⌋ := Int.floor_nonneg.mpr (div_nonneg hD hL.le)
  obtain ⟨N, hN⟩ := Int.eq_ofNat_of_zero_le hfloor
  exact ⟨N, by rw [rest, hN, Int.cast_natCast]⟩

theorem mul_lt_of_lt (hL : 0 < L) (hrest : 0 ≤ D - n * L) (hk : k < n) : k * L < D := by
  have hmul : (k : K) * L < n * L := mul_lt_mul_of_pos_right (Nat.cast_lt.mpr hk) hL
  linarith

/-- Some step ends within `w` of zero exactly if one of the two places around zero lies there. -/
theorem exists_near_iff (hL : 0 < L) (hD : 0 ≤ D) (hw : 0 ≤ w) :
    (∃ n, |(toward L)^[n + 1] (-D)| ≤ w) ↔ rest L D ≤ w ∨ L - rest L D ≤ w := by
  constructor
  · rintro ⟨n, hn⟩
    obtain ⟨z, hz⟩ := exists_iterate_toward L D (n + 1)
    rw [hz] at hn
    exact (rest_le_abs hL z).imp hn.trans' hn.trans'
  · intro h
    obtain ⟨N, hN⟩ := exists_steps hL hD
    have hnonneg := rest_nonneg hL D
    have hlt := rest_lt hL D
    rw [hN] at h hnonneg hlt
    rcases hnonneg.eq_or_lt with hzero | hpos
    · refine ⟨N, ?_⟩
      have hsteps : (toward L)^[N] (-D) = N * L - D :=
        iterate_toward_of_lt fun j hj => mul_lt_of_lt hL hnonneg hj
      rw [Function.iterate_succ_apply', hsteps, ← neg_sub, ← hzero, neg_zero, toward_zero,
        abs_zero]
      exact hw
    · have hnext : (toward L)^[N + 1] (-D) = L - (D - N * L) := by
        rw [iterate_toward_of_lt fun j hj => ?_]
        · push_cast
          ring
        · have hle : (j : K) * L ≤ N * L :=
            mul_le_mul_of_nonneg_right (Nat.cast_le.mpr (Nat.lt_succ_iff.mp hj)) hL.le
          linarith
      rcases h with hr | hr
      · refine ⟨N + 1, ?_⟩
        rw [Function.iterate_succ_apply', hnext, toward_of_pos (by linarith), sub_sub_cancel_left,
          abs_neg, abs_of_pos hpos]
        exact hr
      · refine ⟨N, ?_⟩
        rw [hnext, abs_of_pos (by linarith)]
        exact hr

/-! ## The places on the way -/

/-- None of the first `n` whole steps ends within `w` of zero. -/
def Far (L D w : K) (n : ℕ) : Prop := ∀ j < n, w < |(j + 1 : ℕ) * L - D|

theorem Far.lt (hfar : Far L D w n) (hL : 0 < L) (hD : 0 < D) (hw : 0 ≤ w) (hn : n * L ≤ D) :
    ∀ j < n + 1, j * L < D := by
  intro j hj
  cases j with
  | zero => rwa [Nat.cast_zero, zero_mul]
  | succ j =>
      have hle : ((j + 1 : ℕ) : K) * L ≤ n * L :=
        mul_le_mul_of_nonneg_right (Nat.cast_le.mpr (Nat.lt_succ_iff.mp hj)) hL.le
      have hne := abs_pos.mp (hw.trans_lt (hfar j (Nat.succ_lt_succ_iff.mp hj)))
      exact lt_of_le_of_ne (hle.trans hn) (sub_ne_zero.mp hne)

/-- As long as zero is not passed, the point is where the whole steps lead. -/
theorem far_of_iterate (hL : 0 < L) (hD : 0 < D) (hw : 0 ≤ w) (hn : n * L ≤ D)
    (hfar : ∀ j < n, w < |(toward L)^[j + 1] (-D)|) : Far L D w n := by
  induction n with
  | zero => exact nofun
  | succ n ih =>
      have hle : (n : K) * L ≤ D := by
        push_cast at hn
        linarith
      have hbefore := ih hle fun j hj => hfar j (hj.trans n.lt_succ_self)
      intro j hj
      rcases (Nat.lt_succ_iff.mp hj).eq_or_lt with rfl | hlt
      · rw [← iterate_toward_of_lt (hbefore.lt hL hD hw hle)]
        exact hfar j hj
      · exact hbefore j hlt

/-- What holds of every place up to the first one within `w` of zero. Only the place before the
first step may come again. -/
theorem forall_iterate_iff (hL : 0 < L) (hD : 0 < D) (hw : 0 ≤ w) (P : K → Prop) :
    (∀ n, (∀ j < n, w < |(toward L)^[j + 1] (-D)|) → P ((toward L)^[n + 1] (-D))) ↔
      (∀ n : ℕ, n * L ≤ D → Far L D w n → P ((n + 1 : ℕ) * L - D)) ∧ (D + w < L → P (-D)) := by
  constructor
  · intro h
    constructor
    · intro n hn hfar
      have hlt := hfar.lt hL hD hw hn
      rw [← iterate_toward_of_lt hlt]
      refine h n fun j hj => ?_
      rw [iterate_toward_of_lt fun i hi => hlt i (hi.trans (Nat.succ_lt_succ hj))]
      exact hfar j hj
    · intro hlong
      have hfirst : (toward L)^[1] (-D) = L - D := by
        rw [Function.iterate_one, toward_of_neg (neg_neg_of_pos hD), neg_add_eq_sub]
      have hsecond : (toward L)^[2] (-D) = -D := by
        rw [Function.iterate_succ_apply', hfirst, toward_of_pos (by linarith), sub_sub_cancel_left]
      rw [← hsecond]
      refine h 1 fun j hj => ?_
      rw [Nat.lt_one_iff.mp hj, hfirst]
      exact lt_of_lt_of_le (by linarith) (le_abs_self _)
  · rintro ⟨hsteps, hback⟩ n hfar
    by_cases hn : n * L ≤ D
    · have hclosed := far_of_iterate hL hD hw hn hfar
      rw [iterate_toward_of_lt (hclosed.lt hL hD hw hn)]
      exact hsteps n hn hclosed
    · obtain ⟨N, hN⟩ := exists_steps hL hD.le
      have hle : (N : K) * L ≤ D := sub_nonneg.mp (hN ▸ rest_nonneg hL D)
      have hover : D < (N + 1 : ℕ) * L := by
        have hlt := hN ▸ rest_lt hL D
        push_cast
        linarith
      have hlt : N < n := by
        by_contra hge
        have hmul : (n : K) * L ≤ N * L :=
          mul_le_mul_of_nonneg_right (Nat.cast_le.mpr (not_lt.mp hge)) hL.le
        exact hn (hmul.trans hle)
      have hclosed := far_of_iterate hL hD hw hle fun j hj => hfar j (hj.trans hlt)
      have hbelow := hclosed.lt hL hD hw hle
      rcases iterate_toward_of_passed hbelow hover (hlt.trans n.lt_succ_self) with heq | heq
      · rw [heq]
        exact hsteps N hle hclosed
      · rw [heq]
        cases N with
        | zero =>
            -- The first step passes zero, and the second one leads back.
            have hnear := hfar 0 hlt
            rw [iterate_toward_of_lt hbelow, abs_of_pos (sub_pos.mpr hover), zero_add,
              Nat.cast_one, one_mul] at hnear
            rw [Nat.cast_zero, zero_mul, zero_sub]
            exact hback (by linarith)
        | succ M => exact hsteps M (hbelow M (by omega)).le fun j hj => hclosed j (by omega)

end Rest

end GameServer.Approach
