import GameServer.Goods
import GameServer.Plane

/-!
# Blinking

`blinkAffect` hands a place to `onBlink`. Where the target is farther than the blink reaches, the
place is a vector of the right direction and length, to which the place of the owner has not been
added. `onBlink` leaves a blocked cell for one next to it that is drawn among those of the map,
walls included.
-/

namespace GameServer.Blink

open Goods Plane
open Pathfinding (Map map_get)

section Model

variable {K : Type} [Field K] [LinearOrder K] [FloorRing K]
variable (env : Env) (root : Root K) (m : Map)

/-- The table `t`. -/
def sides : List (ℤ × ℤ) := [(1, 0), (-1, 0), (0, 1), (0, -1)]

/-- The table `lt`. -/
def legalSides (gx gz : ℤ) : List (ℤ × ℤ) :=
  sides.filter fun v => m.Inside (gx + v.1) (gz + v.2)

/-- The place at which the entity is set. -/
def onBlink (des : Vector3 K) : Draw (Vector3 K) := do
  if get m des.x des.z ≠ 0 then
    let gx := POS_2_GRID des.x
    let gz := POS_2_GRID des.z
    let lt := legalSides m gx gz
    let i ← random env 1 lt.length
    match lt[(i - 1).toNat]? with
    | some v => return ⟨GRID_2_POS (v.1 + gx), GRID_2_POS (v.2 + gz)⟩
    | none => raise
  else return des

/-- The owner of the affect, the target of the skill and `data[2]`. -/
structure Blinker (K : Type) where
  pos : Vector3 K
  target : Vector3 K
  distance : K

variable (self : Blinker K)

/-- `self.owner:getDistance(self.target)` -/
def Blinker.dis : K := self.pos.len root self.target

/-- The place that the constructor hands to `onBlink`. -/
def Blinker.des : Vector3 K :=
  if self.dis root > self.distance then
    ((self.target.sub self.pos).normalize root).mul_num self.distance
  else self.target

/-- `blinkAffect:ctor`: the new place of the owner. -/
def ctor : Draw (Vector3 K) := onBlink env m (self.des root)

/-- A cell of the map beside that of `des`, and no wall. -/
def FreeBeside (des p : Vector3 K) : Prop :=
  (POS_2_GRID p.x - POS_2_GRID des.x, POS_2_GRID p.z - POS_2_GRID des.z) ∈ sides ∧
    m.Inside (POS_2_GRID p.x) (POS_2_GRID p.z) ∧ isWall m p.x p.z = false

/-- What a blink does, for the draws from `i` on. -/
structure Blinks (i : ℕ) : Prop where
  reaches : get m (self.des root).x (self.des root).z = 0 →
    ∃ p i', ctor env root m self i = some (p, i') ∧ OnSegment self.pos self.target p ∧
      self.pos.len root p = min self.distance (self.dis root)
  leaves : get m (self.des root).x (self.des root).z ≠ 0 →
    ∃ p i', ctor env root m self i = some (p, i') ∧ FreeBeside m (self.des root) p

/-- The side that the draw `i` gives. -/
def drawnSide (i : ℕ) (des : Vector3 K) : Option (ℤ × ℤ) :=
  let lt := legalSides m (POS_2_GRID des.x) (POS_2_GRID des.z)
  lt[env.rand i % lt.length]?

end Model

/-! ## The place -/

section Place

variable {K : Type} [Field K] [LinearOrder K] [IsStrictOrderedRing K]
variable {root : Root K} {self : Blinker K}

theorem reaches_iff (root : Root K) (hroots : ∀ x : K, 0 ≤ x → IsSquare x)
    (hd : 0 ≤ self.distance) :
    OnSegment self.pos self.target (self.des root) ∧
        self.pos.len root (self.des root) = min self.distance (self.dis root) ↔
      self.dis root ≤ self.distance ∨ self.pos = ⟨0, 0⟩ := by
  obtain ⟨u, hu, D, hD, htarget⟩ := exists_direction self.pos self.target
    (hroots _ (add_nonneg (mul_self_nonneg _) (mul_self_nonneg _)))
  have hdis : self.dis root = D := by
    rw [Blinker.dis, htarget, len_self_along hu, abs_of_nonneg hD]
  rw [hdis]
  by_cases hfar : D > self.distance
  · have hdes : self.des root = u.mul_num self.distance := by
      rw [Blinker.des, hdis, if_pos hfar, htarget, normalize_along hu (hd.trans_lt hfar)]
    rw [hdes, htarget, min_eq_left hfar.le, or_iff_right hfar.not_ge]
    constructor
    · rintro ⟨⟨t, ht, -, heq⟩, hreach⟩
      rw [along_sub_self, along_mul_num] at heq
      rw [heq, len_self_along hu, abs_of_nonneg (mul_nonneg hD ht)] at hreach
      rw [hreach] at heq
      ext
      · exact left_eq_add.mp ((congrArg Vector3.x heq).trans (add_comm _ _))
      · exact left_eq_add.mp ((congrArg Vector3.z heq).trans (add_comm _ _))
    · intro hpos
      have heq : u.mul_num self.distance = along self.pos u self.distance := by
        rw [hpos]
        ext <;> simp only [along, Vector3.add, Vector3.mul_num, zero_add]
      rw [heq, onSegment_along hu hD, len_self_along hu, abs_of_nonneg hd]
      exact ⟨⟨hd, hfar.le⟩, rfl⟩
  · have hdes : self.des root = self.target := by rw [Blinker.des, hdis, if_neg hfar]
    rw [hdes, min_eq_right (not_lt.mp hfar), htarget, onSegment_along hu hD,
      len_self_along hu, abs_of_nonneg hD]
    exact iff_of_true ⟨⟨hD, le_rfl⟩, rfl⟩ (.inl (not_lt.mp hfar))

end Place

/-! ## The draw -/

variable {K : Type} [Field K] [LinearOrder K] [FloorRing K]
variable {env : Env} {m : Map} {des : Vector3 K} {i : ℕ}

theorem onBlink_of_free (h : get m des.x des.z = 0) :
    onBlink env m des i = some (des, i) := by
  rw [onBlink, if_neg (not_not.mpr h)]
  rfl

theorem random_length {α : Type} {lt : List α} (h : 0 < lt.length) (i : ℕ) :
    random env 1 lt.length i = some (1 + ((env.rand i % lt.length : ℕ) : ℤ), i + 1) := by
  rw [random, if_pos (by omega), sub_add_cancel, Int.natCast_mod]

theorem onBlink_of_blocked (h : get m des.x des.z ≠ 0) :
    onBlink env m des i = (drawnSide env m i des).map fun v =>
      (⟨GRID_2_POS (v.1 + POS_2_GRID des.x), GRID_2_POS (v.2 + POS_2_GRID des.z)⟩, i + 1) := by
  rw [onBlink, if_pos h, drawnSide]
  generalize legalSides m (POS_2_GRID des.x) (POS_2_GRID des.z) = lt
  by_cases hlt : 0 < lt.length
  · simp only [bind, StateT.bind, random_length hlt, Option.bind_some, add_sub_cancel_left,
      Int.toNat_natCast, List.getElem?_eq_getElem (Nat.mod_lt (env.rand i) hlt)]
    rfl
  · obtain rfl : lt = [] := List.length_eq_zero_iff.mp (by omega)
    rfl

theorem mem_of_drawnSide {v : ℤ × ℤ} (h : drawnSide env m i des = some v) :
    v ∈ sides ∧ m.Inside (POS_2_GRID des.x + v.1) (POS_2_GRID des.z + v.2) := by
  have hmem := List.mem_of_getElem? h
  rw [legalSides, List.mem_filter, decide_eq_true_eq] at hmem
  exact hmem

variable [IsStrictOrderedRing K]

theorem freeBeside_iff {v : ℤ × ℤ} (h : drawnSide env m i des = some v) :
    FreeBeside m des
        ⟨GRID_2_POS (v.1 + POS_2_GRID des.x), GRID_2_POS (v.2 + POS_2_GRID des.z)⟩ ↔
      map_get m (POS_2_GRID des.x + v.1) (POS_2_GRID des.z + v.2) ≠ 255 := by
  obtain ⟨hside, hin⟩ := mem_of_drawnSide h
  rw [FreeBeside, ← Bool.not_eq_true, isWall_iff]
  dsimp only
  rw [POS_2_GRID_GRID_2_POS, POS_2_GRID_GRID_2_POS, add_sub_cancel_right, add_sub_cancel_right,
    add_comm v.1, add_comm v.2]
  exact ⟨fun hfree => hfree.2.2, fun hwall => ⟨hside, hin, hwall⟩⟩

/-- A blink does what it should if and only if, in a free cell, the target is within reach or the
owner at the origin, and in a blocked cell the side that is drawn is no wall. -/
theorem blinks_iff (env : Env) (root : Root K) (m : Map) (self : Blinker K) (i : ℕ)
    (hroots : ∀ x : K, 0 ≤ x → IsSquare x) (hd : 0 ≤ self.distance) :
    Blinks env root m self i ↔
      (get m (self.des root).x (self.des root).z = 0 →
        self.dis root ≤ self.distance ∨ self.pos = ⟨0, 0⟩) ∧
      (get m (self.des root).x (self.des root).z ≠ 0 →
        ∃ v, drawnSide env m i (self.des root) = some v ∧
          map_get m (POS_2_GRID (self.des root).x + v.1) (POS_2_GRID (self.des root).z + v.2) ≠
            255) := by
  have hplace := reaches_iff root hroots hd
  constructor
  · rintro ⟨hreaches, hleaves⟩
    constructor
    · intro hfree
      obtain ⟨p, i', hp, hok⟩ := hreaches hfree
      rw [ctor, onBlink_of_free hfree] at hp
      cases hp
      exact hplace.mp hok
    · intro hblocked
      obtain ⟨p, i', hp, hbeside⟩ := hleaves hblocked
      rw [ctor, onBlink_of_blocked hblocked, Option.map_eq_some_iff] at hp
      obtain ⟨v, hv, hp⟩ := hp
      cases hp
      exact ⟨v, hv, (freeBeside_iff hv).mp hbeside⟩
  · rintro ⟨hreaches, hleaves⟩
    constructor
    · intro hfree
      exact ⟨_, _, onBlink_of_free hfree, hplace.mpr (hreaches hfree)⟩
    · intro hblocked
      obtain ⟨v, hv, hwall⟩ := hleaves hblocked
      refine ⟨_, i + 1, ?_, (freeBeside_iff hv).mpr hwall⟩
      rw [ctor, onBlink_of_blocked hblocked, hv, Option.map_some]

/-- A blink of 1 from a place in the row. -/
noncomputable def blinker (x : ℝ) : Blinker ℝ := ⟨⟨1 / 20, 1 / 20⟩, ⟨x, 1 / 20⟩, 1⟩

theorem blinker_dis (x : ℝ) : (blinker x).dis reals = |x - 1 / 20| := by
  rw [← Real.sqrt_mul_self_eq_abs, Blinker.dis, Vector3.len, reals, blinker]
  ring_nf

theorem blinks_iff_near : Blinks quiet reals row (blinker (21 / 20)) 0 := by
  have hdis : (blinker (21 / 20)).dis reals = 1 := by
    rw [blinker_dis]
    norm_num
  have hdes : (blinker (21 / 20)).des reals = ⟨21 / 20, 1 / 20⟩ := by
    rw [Blinker.des, hdis, if_neg (by norm_num [blinker])]
    rfl
  refine (blinks_iff quiet reals row (blinker (21 / 20)) 0 real_roots
    (by norm_num [blinker])).mpr ⟨fun _ => .inl ?_, fun h => absurd ?_ h⟩
  · rw [hdis]
    exact le_rfl
  · rw [hdes, get_eq_map_get, map_get_row] <;> norm_num

/-- The target is at a distance of 2 along the row; the blink leads to the place `(1, 0)`. -/
theorem blinker_strays : ¬ Blinks quiet reals row (blinker (41 / 20)) 0 := by
  have hdis : (blinker (41 / 20)).dis reals = 2 := by
    rw [blinker_dis]
    norm_num
  have hsub : (blinker (41 / 20)).target.sub (blinker (41 / 20)).pos =
      Vector3.mul_num ⟨1, 0⟩ 2 := by
    ext <;> norm_num [blinker, Vector3.sub, Vector3.mul_num]
  have hdes : (blinker (41 / 20)).des reals = ⟨1, 0⟩ := by
    rw [Blinker.des, hdis, if_pos (by norm_num [blinker]), hsub,
      normalize_mul_num (by norm_num [Vector3.length_square]), sign_pos two_pos]
    ext <;> norm_num [blinker, Vector3.mul_num]
  have hfree : get row ((blinker (41 / 20)).des reals).x ((blinker (41 / 20)).des reals).z = 0 := by
    rw [hdes, get_eq_map_get, map_get_row] <;> norm_num
  rintro ⟨hreaches, -⟩
  obtain ⟨p, i', hp, hok⟩ := hreaches hfree
  rw [ctor, onBlink_of_free hfree] at hp
  cases hp
  have hnear := (reaches_iff reals real_roots (by norm_num [blinker])).mp hok
  rw [hdis] at hnear
  norm_num [blinker] at hnear

end GameServer.Blink
