import GameServer.Pathfinding

/-!
# Weights on the map

The module `Map` over the weights of the C map: marking the cells of a body around a place, and the
tests for walls and for other bodies. Coordinates are rational, so the cell of a place is exact.
-/

namespace GameServer.Terrain

open Pathfinding (Map map_get span Cell lpath SEARCH_DEPTH)

structure Vector3 where
  x : ℚ
  y : ℚ
  z : ℚ
  deriving DecidableEq

namespace Vector3

def add (self v : Vector3) : Vector3 := ⟨self.x + v.x, self.y + v.y, self.z + v.z⟩

def sub (self v : Vector3) : Vector3 := ⟨self.x - v.x, self.y - v.y, self.z - v.z⟩

def mul_num (self : Vector3) (num : ℚ) : Vector3 := ⟨self.x * num, self.y * num, self.z * num⟩

end Vector3

def MAP_GRID_SIZE : ℚ := 1 / 10

def POS_2_GRID (p : ℚ) : ℤ := ⌊p / MAP_GRID_SIZE⌋

def GRID_2_POS (g : ℤ) : ℚ := g * MAP_GRID_SIZE + MAP_GRID_SIZE / 2

/-- `pf.add`, which the map calls for its cells only; a wall stays. -/
def ladd_weight (m : Map) (x y : ℤ) (w : UInt8) : Map :=
  if h : m.Inside x y then
    if map_get m x y ≠ 255 then { m with m := m.m.set (y * m.width + x).toNat w h.lt } else m
  else m

def block (m : Map) (gx gz : ℤ) : UInt8 := if m.Inside gx gz then map_get m gx gz else 255

def isWall (m : Map) (x z : ℚ) : Bool :=
  let gx := POS_2_GRID x
  let gz := POS_2_GRID z
  if m.Inside gx gz then map_get m gx gz = 255 else true

/-- The pairs `i, j` of both loops. -/
def offsets (s : ℕ) : List (ℤ × ℤ) := (span s).flatMap fun i => (span s).map fun j => (i, j)

def add (m : Map) (x z : ℚ) (v : UInt8) (s : ℕ) : Map :=
  let gx := POS_2_GRID x
  let gz := POS_2_GRID z
  if m.Inside gx gz then
    let m := ladd_weight m gx gz v
    if s ≤ 1 then m
    else (offsets (s / 2)).foldl (fun m o =>
      if (o.1 ≠ 0 ∨ o.2 ≠ 0) ∧ m.Inside (gx + o.1) (gz + o.2) then
        ladd_weight m (gx + o.1) (gz + o.2) v else m) m
  else m

/-- The cells of a path, as coordinates in a row; `none` where the search does not return. -/
def find (m : Map) (s_px s_pz e_px e_pz : ℚ) (bsize : ℕ) : Option (List ℤ) :=
  let gsx := POS_2_GRID s_px
  let gsz := POS_2_GRID s_pz
  let gex := POS_2_GRID e_px
  let gez := POS_2_GRID e_pz
  if ¬ m.Inside gsx gsz then some []
  else if ¬ m.Inside gex gez then some []
  else
    match lpath m gsx gsz gex gez (bsize / 2 : ℕ) SEARCH_DEPTH with
    | .ok (some cells) => some (cells.flatMap fun c => [c.1, c.2])
    | _ => none

/-! ## Bodies -/

structure Body where
  pos : Vector3
  n32BSize : ℕ
  deriving DecidableEq

/-- What an entity may aim at: a place, a `transform`, or a body. -/
inductive Target
  | transform (pos : Vector3)
  | object (body : Body)
  deriving DecidableEq

def Target.pos : Target → Vector3
  | .transform pos => pos
  | .object body => body.pos

namespace Body

/-- `Map:add` at the place of the body. -/
def mark (self : Body) (m : Map) (v : UInt8) : Map :=
  Terrain.add m self.pos.x self.pos.z v self.n32BSize

def isLegalGrid (self : Body) (m : Map) (useAStar : Bool) (pos : Vector3) : Bool × Map :=
  let m := self.mark m 0
  let gx := POS_2_GRID pos.x
  let gz := POS_2_GRID pos.z
  let legal := (offsets (self.n32BSize / 2)).all fun o =>
    let w := block m (gx + o.1) (gz + o.2)
    if w = 255 then useAStar else !(w > 0)
  (legal, self.mark m 1)

/-- The map and the path behind `pathFind`. -/
def pathFind (self : Body) (m : Map) (target : Target) (dx dz : ℚ) : Option (Map × List ℤ) :=
  let mark (m : Map) (v : UInt8) : Map :=
    match target with
    | .transform _ => m
    | .object body => Terrain.add m dx dz v body.n32BSize
  let cleared := mark (self.mark m 0) 0
  (find cleared self.pos.x self.pos.z dx dz self.n32BSize).map fun pathMove =>
    (mark (self.mark cleared 1) 1, pathMove)

end Body

/-! ## Weights behind a mark -/

variable {m : Map} {x y a b : ℤ} {w v : UInt8}

theorem index_inj (h : m.Inside x y) (h' : m.Inside a b) :
    (y * m.width + x).toNat = (b * m.width + a).toNat ↔ (a, b) = (x, y) := by
  obtain ⟨hx, hxw, hy, -⟩ := h
  obtain ⟨ha, haw, hb, -⟩ := h'
  have hpos : 0 ≤ y * m.width + x := by positivity
  have hpos' : 0 ≤ b * m.width + a := by positivity
  rw [← Int.ofNat_inj, Int.toNat_of_nonneg hpos, Int.toNat_of_nonneg hpos', Prod.mk.injEq]
  constructor
  · intro heq
    have hmod := congrArg (· % (m.width : ℤ)) heq
    simp only [Int.mul_add_emod_self_right, Int.emod_eq_of_lt hx hxw,
      Int.emod_eq_of_lt ha haw] at hmod
    subst hmod
    have hwidth : (m.width : ℤ) ≠ 0 := by omega
    exact ⟨rfl, (mul_right_cancel₀ hwidth (add_right_cancel heq)).symm⟩
  · rintro ⟨rfl, rfl⟩
    rfl

theorem inside_ladd_weight : (ladd_weight m x y w).Inside a b ↔ m.Inside a b := by
  unfold ladd_weight
  split_ifs <;> rfl

theorem map_get_outside (h : ¬ m.Inside a b) : map_get m a b = 255 := dif_neg h

theorem map_get_ladd_weight : map_get (ladd_weight m x y w) a b =
    if (a, b) = (x, y) ∧ map_get m x y ≠ 255 then w else map_get m a b := by
  by_cases hcell : m.Inside x y
  · by_cases hwall : map_get m x y ≠ 255
    · simp only [ladd_weight, dif_pos hcell, if_pos hwall]
      by_cases hin : m.Inside a b
      · have hset : map_get { m with m := m.m.set (y * m.width + x).toNat w hcell.lt } a b =
            (m.m.set (y * m.width + x).toNat w hcell.lt).get ⟨_, hin.lt⟩ := dif_pos hin
        have hold : map_get m a b = m.m.get ⟨_, hin.lt⟩ := dif_pos hin
        rw [hset, hold]
        refine (Vector.getElem_set hcell.lt hin.lt).trans ?_
        simp only [index_inj hcell hin, hwall, ne_eq, not_false_eq_true, and_true]
        rfl
      · have hne : (a, b) ≠ (x, y) := by
          rintro heq
          cases heq
          exact hin hcell
        rw [if_neg (fun h => hne h.1), map_get_outside hin]
        exact map_get_outside hin
    · rw [ladd_weight, dif_pos hcell, if_neg hwall, if_neg (fun h => hwall h.2)]
  · rw [ladd_weight, dif_neg hcell, if_neg]
    rintro ⟨-, hwall⟩
    exact hwall (map_get_outside hcell)

/-! ## The footprint of a body -/

/-- The cell belongs to a body of size `s` at this place, which is on the map. -/
def Covers (m : Map) (x z : ℚ) (s : ℕ) (c : Cell) : Prop :=
  m.Inside (POS_2_GRID x) (POS_2_GRID z) ∧ |c.1 - POS_2_GRID x| ≤ (s / 2 : ℕ) ∧
    |c.2 - POS_2_GRID z| ≤ (s / 2 : ℕ)

instance (m : Map) (x z : ℚ) (s : ℕ) (c : Cell) : Decidable (Covers m x z s c) :=
  inferInstanceAs (Decidable (_ ∧ _))

theorem mem_span {s : ℕ} {i : ℤ} : i ∈ span s ↔ |i| ≤ s := by
  rw [span, List.mem_map, abs_le]
  constructor
  · rintro ⟨k, hk, rfl⟩
    rw [List.mem_range] at hk
    omega
  · intro h
    refine ⟨(i + s).toNat, List.mem_range.mpr ?_, ?_⟩ <;> omega

theorem mem_offsets {s : ℕ} {o : ℤ × ℤ} : o ∈ offsets s ↔ |o.1| ≤ s ∧ |o.2| ≤ s := by
  simp only [offsets, List.mem_flatMap, List.mem_map, mem_span]
  constructor
  · rintro ⟨i, hi, j, hj, rfl⟩
    exact ⟨hi, hj⟩
  · rintro ⟨hi, hj⟩
    exact ⟨o.1, hi, o.2, hj, rfl⟩

theorem inside_of_ne (h : map_get m a b ≠ 255) : m.Inside a b :=
  not_not.mp fun hout => h (map_get_outside hout)

theorem map_get_marks (f : ℤ × ℤ → Cell) (p : ℤ × ℤ → Prop) [DecidablePred p]
    (os : List (ℤ × ℤ)) (m : Map) :
    map_get (os.foldl (fun m o => if p o ∧ m.Inside (f o).1 (f o).2 then
      ladd_weight m (f o).1 (f o).2 v else m) m) a b =
      if (∃ o ∈ os, p o ∧ f o = (a, b)) ∧ map_get m a b ≠ 255 then v else map_get m a b := by
  induction os generalizing m with
  | nil => simp
  | cons o os ih =>
      rw [List.foldl_cons, ih]
      by_cases hmark : p o ∧ m.Inside (f o).1 (f o).2
      · rw [if_pos hmark, map_get_ladd_weight]
        by_cases hcell : f o = (a, b)
        · by_cases hwall : map_get m a b = 255
          · simp [hcell, hwall]
          · simp [hcell, hwall, hmark.1]
        · have hne : (a, b) ≠ f o := Ne.symm hcell
          simp only [Prod.mk.eta, hne, false_and, if_false, List.mem_cons, exists_eq_or_imp, hcell,
            and_false, false_or]
      · rw [if_neg hmark]
        have hmiss : map_get m a b ≠ 255 → ¬ (p o ∧ f o = (a, b)) := by
          rintro hne ⟨hp, hcell⟩
          exact hmark ⟨hp, by rw [hcell]; exact inside_of_ne hne⟩
        by_cases hwall : map_get m a b = 255
        · simp [hwall]
        · simp only [List.mem_cons, exists_eq_or_imp, hmiss hwall, false_or]

/-- A mark is set on the cells of the body that are no walls. -/
theorem map_get_add {x z : ℚ} {s : ℕ} : map_get (add m x z v s) a b =
    if Covers m x z s (a, b) ∧ map_get m a b ≠ 255 then v else map_get m a b := by
  by_cases hin : m.Inside (POS_2_GRID x) (POS_2_GRID z)
  · simp only [add, if_pos hin]
    by_cases hs : s ≤ 1
    · have hhalf : s / 2 = 0 := by omega
      rw [if_pos hs, map_get_ladd_weight]
      simp only [Covers, hin, hhalf, Nat.cast_zero, abs_nonpos_iff, sub_eq_zero, true_and,
        Prod.mk.injEq]
      refine if_congr (and_congr_right fun hcell => ?_) rfl rfl
      rw [hcell.1, hcell.2]
    · rw [if_neg hs, map_get_marks (fun o => (POS_2_GRID x + o.1, POS_2_GRID z + o.2))
        (fun o => o.1 ≠ 0 ∨ o.2 ≠ 0), map_get_ladd_weight]
      by_cases hcenter : (a, b) = (POS_2_GRID x, POS_2_GRID z)
      · cases hcenter
        have hself : Covers m x z s (POS_2_GRID x, POS_2_GRID z) := by
          simp only [Covers, hin, sub_self, abs_zero, Nat.cast_nonneg, and_self]
        have hothers : ¬ ∃ o ∈ offsets (s / 2), (o.1 ≠ 0 ∨ o.2 ≠ 0) ∧
            (POS_2_GRID x + o.1, POS_2_GRID z + o.2) = (POS_2_GRID x, POS_2_GRID z) := by
          rintro ⟨o, -, hne, heq⟩
          rw [Prod.mk.injEq] at heq
          omega
        simp only [hothers, hself, false_and, true_and, if_false]
      · have hothers : (∃ o ∈ offsets (s / 2), (o.1 ≠ 0 ∨ o.2 ≠ 0) ∧
            (POS_2_GRID x + o.1, POS_2_GRID z + o.2) = (a, b)) ↔ Covers m x z s (a, b) := by
          constructor
          · rintro ⟨o, ho, -, heq⟩
            cases heq
            simpa [Covers, hin] using mem_offsets.mp ho
          · rintro ⟨-, ha, hb⟩
            refine ⟨(a - POS_2_GRID x, b - POS_2_GRID z), mem_offsets.mpr ⟨ha, hb⟩, ?_, by simp⟩
            rw [Prod.mk.injEq] at hcenter
            dsimp only
            omega
        simp only [hothers, hcenter, false_and, if_false]
  · rw [add, if_neg hin, if_neg (fun h => hin h.1.1)]

theorem inside_add {x z : ℚ} {s : ℕ} : (add m x z v s).Inside a b ↔ m.Inside a b := by
  have hmarks : ∀ (os : List (ℤ × ℤ)) (m : Map), (os.foldl (fun m o =>
      if (o.1 ≠ 0 ∨ o.2 ≠ 0) ∧ m.Inside (POS_2_GRID x + o.1) (POS_2_GRID z + o.2) then
        ladd_weight m (POS_2_GRID x + o.1) (POS_2_GRID z + o.2) v else m) m).Inside a b ↔
      m.Inside a b := by
    intro os
    induction os with
    | nil => exact fun m => Iff.rfl
    | cons o os ih =>
        intro m
        rw [List.foldl_cons, ih]
        split_ifs
        · exact inside_ladd_weight
        · rfl
  unfold add
  dsimp only
  split_ifs
  · exact inside_ladd_weight
  · exact (hmarks _ _).trans inside_ladd_weight
  · rfl

theorem covers_add {x z x' z' : ℚ} {s s' : ℕ} {c : Cell} :
    Covers (add m x z v s) x' z' s' c ↔ Covers m x' z' s' c := by
  rw [Covers, Covers, inside_add]

theorem map_get_add_eq_wall {x z : ℚ} {s : ℕ} (hv : v ≠ 255) :
    map_get (add m x z v s) a b = 255 ↔ map_get m a b = 255 := by
  rw [map_get_add]
  split_ifs with h
  · exact ⟨fun heq => absurd heq hv, fun heq => absurd heq h.2⟩
  · rfl

theorem block_eq_map_get : block m a b = map_get m a b := by
  unfold block
  split_ifs with h
  · rfl
  · exact (map_get_outside h).symm

theorem isWall_iff {x z : ℚ} :
    isWall m x z = true ↔ map_get m (POS_2_GRID x) (POS_2_GRID z) = 255 := by
  unfold isWall
  dsimp only
  split_ifs with h
  · exact decide_eq_true_iff
  · exact iff_of_true rfl (map_get_outside h)

end GameServer.Terrain
