import GameServer.Terrain
import Mathlib.Algebra.Order.Floor.Defs
import Mathlib.Algebra.Order.Ring.Abs
import Mathlib.Analysis.Real.Sqrt
import Mathlib.Data.Rat.Sqrt
import Mathlib.Data.Sign.Basic
import Mathlib.Tactic.LinearCombination

/-!
# Places in exact arithmetic

Lengths need a root, so the coordinates are of an ordered field with an exact one: the reals, or the
rationals where the lengths are rational. Every entity and every target lies at `y = 0`, so that
coordinate is left out.
-/

namespace GameServer.Plane

open Pathfinding (Map map_get)

@[ext] structure Vector3 (K : Type*) where
  x : K
  z : K

namespace Vector3

variable {K : Type*} [Field K]

def add (self v : Vector3 K) : Vector3 K := ⟨self.x + v.x, self.z + v.z⟩

def sub (self v : Vector3 K) : Vector3 K := ⟨self.x - v.x, self.z - v.z⟩

def mul_num (self : Vector3 K) (num : K) : Vector3 K := ⟨self.x * num, self.z * num⟩

def length_square (self : Vector3 K) : K := self.x * self.x + self.z * self.z

end Vector3

/-- `math.sqrt`, which is exact on squares. -/
structure Root (K : Type*) [Field K] [LinearOrder K] where
  sqrt : K → K
  sqrt_mul_self : ∀ s, sqrt (s * s) = |s|

def rationals : Root ℚ := ⟨Rat.sqrt, Rat.sqrt_eq⟩

noncomputable def reals : Root ℝ := ⟨Real.sqrt, Real.sqrt_mul_self_eq_abs⟩

theorem real_roots (x : ℝ) (hx : 0 ≤ x) : IsSquare x := ⟨√x, (Real.mul_self_sqrt hx).symm⟩

namespace Vector3

variable {K : Type*} [Field K] [LinearOrder K] (root : Root K)

def length (self : Vector3 K) : K := root.sqrt (self.x * self.x + self.z * self.z)

def len (a b : Vector3 K) : K :=
  root.sqrt ((a.x - b.x) * (a.x - b.x) + (a.z - b.z) * (a.z - b.z))

/-- The vector of no length stays as it is. -/
def normalize (self : Vector3 K) : Vector3 K :=
  let len := self.length root
  let invLen := if len ≤ 0 then 0 else 1 / len
  ⟨self.x * invLen, self.z * invLen⟩

end Vector3

section Cells

variable {K : Type*} [Field K] [LinearOrder K] [FloorRing K]

local instance ten_atLeastTwo : Nat.AtLeastTwo 10 := inferInstance

def MAP_GRID_SIZE : K := 1 / 10

def POS_2_GRID (p : K) : ℤ := ⌊p / MAP_GRID_SIZE⌋

def GRID_2_POS (g : ℤ) : K := g * MAP_GRID_SIZE + MAP_GRID_SIZE / 2

def isWall (m : Map) (x z : K) : Bool :=
  let gx := POS_2_GRID x
  let gz := POS_2_GRID z
  if m.Inside gx gz then map_get m gx gz = 255 else true

def isBlock (m : Map) (x z : K) : Bool :=
  let gx := POS_2_GRID x
  let gz := POS_2_GRID z
  Terrain.block m gx gz > 0

def get (m : Map) (x z : K) : UInt8 :=
  let gx := POS_2_GRID x
  let gz := POS_2_GRID z
  if m.Inside gx gz then map_get m gx gz else 255

variable {m : Map} {x z : K}

theorem isWall_iff : isWall m x z = true ↔ map_get m (POS_2_GRID x) (POS_2_GRID z) = 255 := by
  unfold isWall
  dsimp only
  split_ifs with h
  · exact decide_eq_true_iff
  · exact iff_of_true rfl (Terrain.map_get_outside h)

theorem get_eq_map_get : get m x z = map_get m (POS_2_GRID x) (POS_2_GRID z) :=
  Terrain.block_eq_map_get

variable [IsStrictOrderedRing K]

theorem POS_2_GRID_GRID_2_POS (g : ℤ) : POS_2_GRID (GRID_2_POS g : K) = g := by
  have hcell : (GRID_2_POS g : K) / MAP_GRID_SIZE = g + 1 / 2 := by
    rw [GRID_2_POS, MAP_GRID_SIZE]
    ring
  rw [POS_2_GRID, hcell, Int.floor_intCast_add, add_eq_left, Int.floor_eq_zero_iff]
  exact ⟨by norm_num, by norm_num⟩

/-- A row of cells with no wall. -/
def row : Map := ⟨30, 1, Vector.replicate 30 0⟩

theorem map_get_row (hx : 0 ≤ x) (hx' : x < 3) (hz : 0 ≤ z) (hz' : z < 1 / 10) :
    map_get row (POS_2_GRID x) (POS_2_GRID z) = 0 := by
  have hgx : 0 ≤ POS_2_GRID x := Int.floor_nonneg.mpr (div_nonneg hx (by norm_num [MAP_GRID_SIZE]))
  have hgx' : POS_2_GRID x < 30 := by
    rw [POS_2_GRID, MAP_GRID_SIZE, Int.floor_lt, div_lt_iff₀ (by norm_num)]
    push_cast
    linarith
  have hgz : POS_2_GRID z = 0 := by
    rw [POS_2_GRID, MAP_GRID_SIZE, Int.floor_eq_zero_iff, Set.mem_Ico, div_lt_iff₀ (by norm_num)]
    exact ⟨div_nonneg hz (by norm_num), by linarith⟩
  have hin : row.Inside (POS_2_GRID x) (POS_2_GRID z) := by
    rw [hgz]
    exact ⟨hgx, hgx', le_rfl, by decide⟩
  rw [map_get, dif_pos hin]
  exact Vector.getElem_replicate _

end Cells

/-! ## Lines -/

section Lines

variable {K : Type*} [Field K]

/-- The place at `s` along a direction. -/
def along (p u : Vector3 K) (s : K) : Vector3 K := p.add (u.mul_num s)

theorem along_along (p u : Vector3 K) (s t : K) : along (along p u s) u t = along p u (s + t) := by
  ext <;> simp only [along, Vector3.add, Vector3.mul_num] <;> ring

theorem along_zero (p u : Vector3 K) : along p u 0 = p := by
  ext <;> simp only [along, Vector3.add, Vector3.mul_num] <;> ring

theorem along_mul_num (p u : Vector3 K) (s t : K) :
    along p (u.mul_num s) t = along p u (s * t) := by
  ext <;> simp only [along, Vector3.add, Vector3.mul_num] <;> ring

theorem along_sub_along (p u : Vector3 K) (s t : K) :
    (along p u s).sub (along p u t) = u.mul_num (s - t) := by
  ext <;> simp only [along, Vector3.add, Vector3.mul_num, Vector3.sub] <;> ring

theorem along_sub_self (p u : Vector3 K) (s : K) : (along p u s).sub p = u.mul_num s := by
  ext <;> simp only [along, Vector3.add, Vector3.mul_num, Vector3.sub] <;> ring

theorem length_square_mul_num (u : Vector3 K) (s : K) :
    (u.mul_num s).length_square = u.length_square * (s * s) := by
  simp only [Vector3.length_square, Vector3.mul_num]
  ring

theorem along_inj {p u : Vector3 K} {s t : K} (hu : u.length_square = 1) :
    along p u s = along p u t ↔ s = t := by
  refine ⟨fun h => ?_, fun h => by rw [h]⟩
  have hdiff : (u.mul_num (s - t)).length_square = 0 := by
    rw [← along_sub_along p, h, along_sub_along, sub_self, length_square_mul_num]
    ring
  rw [length_square_mul_num, hu, one_mul, mul_self_eq_zero] at hdiff
  exact sub_eq_zero.mp hdiff

end Lines

variable {K : Type*} [Field K] [LinearOrder K]
variable {root : Root K} {p u : Vector3 K} {s D : K}

theorem length_mul_num (hu : u.length_square = 1) (s : K) : (u.mul_num s).length root = |s| := by
  rw [← root.sqrt_mul_self, ← one_mul (s * s), ← hu, ← length_square_mul_num]
  rfl

theorem len_along (hu : u.length_square = 1) (s t : K) :
    (along p u s).len root (along p u t) = |s - t| := by
  rw [← length_mul_num hu, ← along_sub_along p]
  rfl

theorem len_along_self (hu : u.length_square = 1) (s : K) :
    (along p u s).len root p = |s| := by
  nth_rewrite 2 [← along_zero p u]
  rw [len_along hu, sub_zero]

theorem len_self_along (hu : u.length_square = 1) (s : K) :
    p.len root (along p u s) = |s| := by
  nth_rewrite 1 [← along_zero p u]
  rw [len_along hu, zero_sub, abs_neg]

/-- The place lies on the segment from `a` to `b`. -/
def OnSegment (a b p : Vector3 K) : Prop := ∃ t, 0 ≤ t ∧ t ≤ 1 ∧ p = along a (b.sub a) t

variable [IsStrictOrderedRing K]

theorem OnSegment.symm {a b p : Vector3 K} (h : OnSegment a b p) : OnSegment b a p := by
  obtain ⟨t, ht, ht1, rfl⟩ := h
  refine ⟨1 - t, sub_nonneg.mpr ht1, sub_le_self 1 ht, ?_⟩
  ext <;> simp only [along, Vector3.add, Vector3.mul_num, Vector3.sub] <;> ring

/-- The direction of a vector along a line is that of the line or the opposite one. -/
theorem normalize_mul_num (hu : u.length_square = 1) (s : K) :
    (u.mul_num s).normalize root = u.mul_num (SignType.sign s : K) := by
  have hsign : s * (if |s| ≤ 0 then 0 else 1 / |s|) = (SignType.sign s : K) := by
    split_ifs with hs
    · rw [abs_nonpos_iff.mp hs, zero_mul, sign_zero, SignType.coe_zero]
    · rw [mul_one_div, div_eq_iff fun h => hs h.le, sign_mul_abs]
  rw [Vector3.normalize, length_mul_num hu]
  simp only [Vector3.mul_num, mul_assoc, hsign]

theorem normalize_along (hu : u.length_square = 1) (hD : 0 < D) :
    ((along p u D).sub p).normalize root = u := by
  rw [along_sub_self, normalize_mul_num hu, sign_pos hD, SignType.coe_one]
  ext <;> simp only [Vector3.mul_num, mul_one]

/-- A place whose distance is exact lies along a direction. -/
theorem exists_direction (a b : Vector3 K) (h : IsSquare (b.sub a).length_square) :
    ∃ u : Vector3 K, u.length_square = 1 ∧ ∃ D, 0 ≤ D ∧ b = along a u D := by
  obtain ⟨r, hr⟩ := h
  by_cases hzero : r = 0
  · refine ⟨⟨1, 0⟩, by simp [Vector3.length_square], 0, le_rfl, ?_⟩
    rw [hzero, mul_zero] at hr
    obtain ⟨hx, hz⟩ := (add_eq_zero_iff_of_nonneg (mul_self_nonneg _) (mul_self_nonneg _)).mp hr
    rw [along_zero]
    ext
    · exact sub_eq_zero.mp (mul_self_eq_zero.mp hx)
    · exact sub_eq_zero.mp (mul_self_eq_zero.mp hz)
  · have hinv : |r|⁻¹ * |r| = 1 := inv_mul_cancel₀ (abs_ne_zero.mpr hzero)
    refine ⟨(b.sub a).mul_num |r|⁻¹, ?_, |r|, abs_nonneg r, ?_⟩
    · rw [length_square_mul_num, hr, ← abs_mul_abs_self r]
      linear_combination (|r|⁻¹ * |r| + 1) * hinv
    · rw [along_mul_num, hinv]
      ext <;> simp only [along, Vector3.add, Vector3.mul_num, Vector3.sub] <;> ring

theorem onSegment_along (hu : u.length_square = 1) (hD : 0 ≤ D) :
    OnSegment p (along p u D) (along p u s) ↔ 0 ≤ s ∧ s ≤ D := by
  constructor
  · rintro ⟨t, ht, ht1, heq⟩
    rw [along_sub_self, along_mul_num, along_inj hu] at heq
    rw [heq]
    exact ⟨mul_nonneg hD ht, mul_le_of_le_one_right hD ht1⟩
  · rintro ⟨hs, hsD⟩
    refine ⟨s / D, div_nonneg hs hD, div_le_one_of_le₀ hsD hD, ?_⟩
    rw [along_sub_self, along_mul_num, along_inj hu]
    rcases hD.eq_or_lt with rfl | hpos
    · rw [zero_mul, le_antisymm hsD hs]
    · rw [mul_div_cancel₀ s hpos.ne']

end GameServer.Plane
