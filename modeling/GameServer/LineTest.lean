import GameServer.Plane

/-!
# The line test

`lineTest` moves `ep` towards `sp` until its cell is not blocked, in 20 rounds at most. Every round
moves `ep` itself, by one grid step more than the round before, so after `n` rounds it has gone
`n * (n + 1) / 2` grid steps.
-/

namespace GameServer.LineTest

open Plane
open Pathfinding (Map)

section Model

variable {K : Type*} [Field K] [LinearOrder K] [FloorRing K]
variable (root : Root K) (m : Map)

/-- The loop, with the rounds that are left. -/
def rounds (dir : Vector3 K) : ℕ → ℕ → Vector3 K → Vector3 K
  | 0, _, ep => ep
  | left + 1, set, ep =>
      let dst := (dir.mul_num (set * MAP_GRID_SIZE)).add ep
      if isBlock m dst.x dst.z = false then dst else rounds dir left (set + 1) dst

def heading (sp ep : Vector3 K) : Vector3 K := (sp.sub ep).normalize root

/-- The new `ep`. -/
def lineTest (sp ep : Vector3 K) : Vector3 K := rounds m (heading root sp ep) 20 1 ep

/-- The place `k` grid steps ahead. -/
def gridPlace (ep dir : Vector3 K) (k : ℕ) : Vector3 K := along ep dir (k * MAP_GRID_SIZE)

def Free (ep dir : Vector3 K) (k : ℕ) : Prop :=
  isBlock m (gridPlace ep dir k).x (gridPlace ep dir k).z = false

/-- The new `ep` is between `sp` and the old one, and in a free cell where grid steps on the way
lead to one. -/
structure Tests (sp ep : Vector3 K) : Prop where
  between : OnSegment sp ep (lineTest root m sp ep)
  free : (∃ k : ℕ, 0 < k ∧ k * MAP_GRID_SIZE ≤ sp.len root ep ∧ Free m ep (heading root sp ep) k) →
    isBlock m (lineTest root m sp ep).x (lineTest root m sp ep).z = false

end Model

/-- The grid steps of the first `n` rounds. -/
def total : ℕ → ℕ
  | 0 => 0
  | n + 1 => total n + (n + 1)

theorem total_mono : Monotone total := monotone_nat_of_le_succ fun n => Nat.le_add_right _ (n + 1)

/-! ## The rounds -/

section Rounds

theorem heading_self {K : Type*} [Field K] [LinearOrder K] (root : Root K) (ep : Vector3 K) :
    heading root ep ep = ⟨0, 0⟩ := by
  ext <;> simp [heading, Vector3.sub, Vector3.normalize]

theorem gridPlace_total_succ {K : Type*} [Field K] (ep dir : Vector3 K) (n : ℕ) :
    (dir.mul_num ((n + 1 : ℕ) * MAP_GRID_SIZE)).add (gridPlace ep dir (total n)) =
      gridPlace ep dir (total (n + 1)) := by
  ext <;> simp only [gridPlace, along, Vector3.add, Vector3.mul_num, total] <;> push_cast <;> ring

variable {K : Type*} [Field K] [LinearOrder K] [FloorRing K]

/-- The rounds behind round `n` end at the first free place, or run out. -/
theorem rounds_spec (m : Map) (ep dir : Vector3 K) (left n : ℕ) :
    (∃ k, n < k ∧ k ≤ n + left ∧ Free m ep dir (total k) ∧
        (∀ j, n < j → j < k → ¬ Free m ep dir (total j)) ∧
        rounds m dir left (n + 1) (gridPlace ep dir (total n)) = gridPlace ep dir (total k)) ∨
      (∀ j, n < j → j ≤ n + left → ¬ Free m ep dir (total j)) ∧
        rounds m dir left (n + 1) (gridPlace ep dir (total n)) =
          gridPlace ep dir (total (n + left)) := by
  induction left generalizing n with
  | zero => exact .inr ⟨fun j hj hle => absurd hj (not_lt.mpr hle), rfl⟩
  | succ left ih =>
      rw [rounds, gridPlace_total_succ]
      by_cases hfree : Free m ep dir (total (n + 1))
      · refine .inl ⟨n + 1, n.lt_succ_self, by omega, hfree, by omega, ?_⟩
        exact if_pos hfree
      · have hblocked : ∀ j, n < j → (n + 1 < j → ¬ Free m ep dir (total j)) →
            ¬ Free m ep dir (total j) := by
          intro j hj hlater
          rcases (Nat.succ_le_iff.mpr hj).eq_or_lt with rfl | hlt
          · exact hfree
          · exact hlater hlt
        rw [Free] at hfree
        rw [if_neg hfree]
        rcases ih (n + 1) with ⟨k, hk, hle, hkfree, hbefore, heq⟩ | ⟨hbefore, heq⟩
        · exact .inl ⟨k, by omega, by omega, hkfree,
            fun j hj hjk => hblocked j hj fun h => hbefore j h hjk, heq⟩
        · refine .inr ⟨fun j hj hjle => hblocked j hj fun h => hbefore j h (by omega), ?_⟩
          rw [heq, Nat.add_right_comm, Nat.add_assoc]

/-- The new `ep` is the first free one of the places of the 20 rounds, or the last place. -/
theorem lineTest_spec (root : Root K) (m : Map) (sp ep : Vector3 K) :
    (∃ n, 0 < n ∧ n ≤ 20 ∧ Free m ep (heading root sp ep) (total n) ∧
        (∀ j, 0 < j → j < n → ¬ Free m ep (heading root sp ep) (total j)) ∧
        lineTest root m sp ep = gridPlace ep (heading root sp ep) (total n)) ∨
      (∀ j, 0 < j → j ≤ 20 → ¬ Free m ep (heading root sp ep) (total j)) ∧
        lineTest root m sp ep = gridPlace ep (heading root sp ep) (total 20) := by
  have hspec := rounds_spec m ep (heading root sp ep) 20 0
  have hstart : gridPlace ep (heading root sp ep) (total 0) = ep := by
    rw [gridPlace, total, Nat.cast_zero, zero_mul, along_zero]
  rw [hstart, Nat.zero_add] at hspec
  exact hspec

theorem lineTest_self (root : Root K) (m : Map) (ep : Vector3 K) : lineTest root m ep ep = ep := by
  have hplace : ∀ k, gridPlace ep (heading root ep ep) k = ep := by
    intro k
    rw [heading_self]
    ext <;> simp [gridPlace, along, Vector3.add, Vector3.mul_num]
  rcases lineTest_spec root m ep ep with ⟨n, -, -, -, -, heq⟩ | ⟨-, heq⟩
  · rw [heq, hplace]
  · rw [heq, hplace]

end Rounds

/-! ## The segment -/

variable {K : Type*} [Field K] [LinearOrder K] [IsStrictOrderedRing K]
variable {root : Root K} {ep u : Vector3 K} {D : K}

theorem size_pos : 0 < (MAP_GRID_SIZE : K) := by norm_num [MAP_GRID_SIZE]

theorem heading_along (hu : u.length_square = 1) (hD : 0 < D) :
    heading root (along ep u D) ep = u := normalize_along hu hD

theorem between_iff (hu : u.length_square = 1) (hD : 0 ≤ D) (k : ℕ) :
    OnSegment (along ep u D) ep (gridPlace ep u k) ↔ k * MAP_GRID_SIZE ≤ D := by
  have hk : 0 ≤ (k : K) * MAP_GRID_SIZE := mul_nonneg k.cast_nonneg size_pos.le
  have hiff := onSegment_along (p := ep) (s := k * MAP_GRID_SIZE) hu hD
  exact ⟨fun h => (hiff.mp h.symm).2, fun h => (hiff.mpr ⟨hk, h⟩).symm⟩

variable [FloorRing K] {m : Map}

theorem total_mul_le {n k : ℕ} (hnk : n ≤ k) (hk : total k * MAP_GRID_SIZE ≤ D) :
    total n * MAP_GRID_SIZE ≤ D := by
  refine le_trans ?_ hk
  exact mul_le_mul_of_nonneg_right (Nat.cast_le.mpr (total_mono hnk)) size_pos.le

/-- The test over a way of length `D`. -/
theorem tests_along_iff (hu : u.length_square = 1) (hD : 0 < D) :
    Tests root m (along ep u D) ep ↔
      (∃ n, 0 < n ∧ n ≤ 20 ∧ total n * MAP_GRID_SIZE ≤ D ∧ Free m ep u (total n)) ∨
      21 ≤ D ∧ ∀ k : ℕ, 0 < k → k * MAP_GRID_SIZE ≤ D → ¬ Free m ep u k := by
  have hlast : ((total 20 : ℕ) : K) * MAP_GRID_SIZE = 21 := by
    norm_num [total, MAP_GRID_SIZE]
  have hlen : (along ep u D).len root ep = D := by
    rw [len_along_self hu, abs_of_pos hD]
  have hspec := lineTest_spec root m (along ep u D) ep
  rw [heading_along hu hD] at hspec
  rcases hspec with ⟨n, hn, hle, hfree, hbefore, heq⟩ | ⟨hbefore, heq⟩
  · constructor
    · rintro ⟨hbetween, -⟩
      rw [heq] at hbetween
      exact .inl ⟨n, hn, hle, (between_iff hu hD.le _).mp hbetween, hfree⟩
    · intro h
      have hreach : total n * MAP_GRID_SIZE ≤ D := by
        rcases h with ⟨n', hn', -, hreach', hfree'⟩ | ⟨hlong, -⟩
        · exact total_mul_le (not_lt.mp fun hlt => hbefore n' hn' hlt hfree') hreach'
        · exact total_mul_le hle (hlast.trans_le hlong)
      refine ⟨?_, fun _ => ?_⟩
      · rw [heq]
        exact (between_iff hu hD.le _).mpr hreach
      · rw [heq]
        exact hfree
  · constructor
    · rintro ⟨hbetween, hend⟩
      rw [heq] at hbetween hend
      rw [hlen, heading_along hu hD] at hend
      refine .inr ⟨hlast.symm.trans_le ((between_iff hu hD.le _).mp hbetween), ?_⟩
      intro k hk hkD hkfree
      exact hbefore 20 (by norm_num) le_rfl (hend ⟨k, hk, hkD, hkfree⟩)
    · rintro (⟨n, hn, hle, -, hfree⟩ | ⟨hlong, hblocked⟩)
      · exact absurd hfree (hbefore n hn hle)
      · refine ⟨?_, ?_⟩
        · rw [heq]
          exact (between_iff hu hD.le _).mpr (hlast.trans_le hlong)
        · rintro ⟨k, hk, hkD, hkfree⟩
          rw [hlen] at hkD
          rw [heading_along hu hD] at hkfree
          exact absurd hkfree (hblocked k hk hkD)

/-- The test does what it should if and only if `sp` is `ep`, or some of the 20 rounds ends in a
free place before `sp`, or the way is as long as all the rounds and no grid step on it is free. -/
theorem tests_iff (root : Root K) (m : Map) (sp ep : Vector3 K)
    (hroots : ∀ x : K, 0 ≤ x → IsSquare x) :
    Tests root m sp ep ↔ sp = ep ∨
      (∃ n, 0 < n ∧ n ≤ 20 ∧ total n * MAP_GRID_SIZE ≤ sp.len root ep ∧
        Free m ep (heading root sp ep) (total n)) ∨
      21 ≤ sp.len root ep ∧ ∀ k : ℕ, 0 < k → k * MAP_GRID_SIZE ≤ sp.len root ep →
        ¬ Free m ep (heading root sp ep) k := by
  obtain ⟨u, hu, D, hD, rfl⟩ := exists_direction ep sp
    (hroots _ (add_nonneg (mul_self_nonneg _) (mul_self_nonneg _)))
  rw [len_along_self hu, abs_of_nonneg hD]
  rcases hD.eq_or_lt with rfl | hpos
  · rw [along_zero]
    refine iff_of_true ⟨?_, ?_⟩ (.inl rfl)
    · rw [lineTest_self]
      exact ⟨0, le_rfl, zero_le_one, (along_zero _ _).symm⟩
    · rintro ⟨k, hk, hle, -⟩
      nth_rewrite 1 [← along_zero ep u] at hle
      rw [len_along_self hu, abs_zero] at hle
      exact absurd hle (mul_pos (Nat.cast_pos.mpr hk) size_pos).not_ge
  · have hne : along ep u D ≠ ep := by
      intro heq
      rw [← along_zero ep u, along_along, along_inj hu] at heq
      exact hpos.ne' (by rwa [zero_add] at heq)
    rw [or_iff_right hne, heading_along hu hpos]
    exact tests_along_iff hu hpos

theorem free_row {x : ℝ} (hx : 0 ≤ x - 1 / 10) (hx' : x - 1 / 10 < 3) :
    Free row ⟨x, 1 / 20⟩ ⟨-1, 0⟩ 1 := by
  have hplace : gridPlace ⟨x, 1 / 20⟩ ⟨-1, 0⟩ 1 = ⟨x - 1 / 10, 1 / 20⟩ := by
    ext
    · norm_num [gridPlace, along, Vector3.add, Vector3.mul_num, MAP_GRID_SIZE]
      ring
    · norm_num [gridPlace, along, Vector3.add, Vector3.mul_num, MAP_GRID_SIZE]
  rw [Free, hplace, isBlock, Terrain.block_eq_map_get, map_get_row hx hx'] <;> norm_num

/-- A way of 3 back into the row, from the cell behind its end. -/
theorem tests_iff_row : Tests reals row (along ⟨61 / 20, 1 / 20⟩ ⟨-1, 0⟩ 3) ⟨61 / 20, 1 / 20⟩ := by
  have hu : (⟨-1, 0⟩ : Vector3 ℝ).length_square = 1 := by norm_num [Vector3.length_square]
  refine (tests_iff reals row _ _ real_roots).mpr (.inr (.inl ⟨1, one_pos, by norm_num, ?_, ?_⟩))
  · rw [len_along_self hu]
    norm_num [total, MAP_GRID_SIZE]
  · rw [heading_along hu three_pos]
    exact free_row (by norm_num) (by norm_num)

/-- From the cell behind the end of the row, 0.04 away from `sp`, the first round leads past
`sp`. -/
theorem lineTest_passes :
    ¬ Tests reals row (along ⟨151 / 50, 1 / 20⟩ ⟨-1, 0⟩ (1 / 25)) ⟨151 / 50, 1 / 20⟩ := by
  have hu : (⟨-1, 0⟩ : Vector3 ℝ).length_square = 1 := by norm_num [Vector3.length_square]
  have hD : (0 : ℝ) < 1 / 25 := by norm_num
  have hfirst : Free row ⟨151 / 50, 1 / 20⟩ (⟨-1, 0⟩ : Vector3 ℝ) (total 1) :=
    free_row (by norm_num) (by norm_num)
  have hspec := lineTest_spec reals row (along ⟨151 / 50, 1 / 20⟩ ⟨-1, 0⟩ (1 / 25))
    ⟨151 / 50, 1 / 20⟩
  rw [heading_along hu hD] at hspec
  rintro ⟨hbetween, -⟩
  rcases hspec with ⟨n, hn, -, -, hbefore, heq⟩ | ⟨hbefore, -⟩
  · obtain rfl | hlater := (Nat.succ_le_iff.mpr hn).eq_or_lt
    · rw [heq, between_iff hu hD.le] at hbetween
      norm_num [total, MAP_GRID_SIZE] at hbetween
    · exact hbefore 1 one_pos hlater hfirst
  · exact hbefore 1 one_pos (by norm_num) hfirst

end GameServer.LineTest
