import GameServer.Movement

/-!
# Ticks that end in walls

Without a path `isLegalGrid` refuses walls, so the places that a tick gets to are none. On a path it
lets them pass, since the cells of the path are none; the place ahead need not be one of these
cells.
-/

namespace GameServer.Movement

open Pathfinding (Map map_get)
open Terrain

variable {geo : Geometry} {m : Map} {s t : Scene} {a b : ℤ} {dt : ℚ} {pos dst : Vector3}
  {target : Target} {self : Body} {v : UInt8}

/-- The place lies in a wall or outside the map. -/
def InWall (m : Map) (pos : Vector3) : Prop := isWall m pos.x pos.z = true

instance (m : Map) (pos : Vector3) : Decidable (InWall m pos) := inferInstanceAs (Decidable (_ = _))

/-- The tick follows a path, the place ahead lies in a wall, and no body is in the way there. -/
def Cuts (geo : Geometry) (s : Scene) (dt : ℚ) : Prop :=
  0 < s.self.moveSpeed ∧ s.self.useAStar ∧ ∃ target aim, s.self.target = some target ∧
    s.self.aim target = some aim ∧
    let dst := s.self.ahead (geo.normalize (aim.sub s.self.pos)) (dt / 1000)
    InWall s.map dst ∧ (s.isLegalGrid dst).1

/-! ## What stays -/

/-- The walls of two maps are the same. -/
def SameWalls (m m' : Map) : Prop := ∀ a b, map_get m' a b = 255 ↔ map_get m a b = 255

theorem SameWalls.trans {m' m'' : Map} (h : SameWalls m m') (h' : SameWalls m' m'') :
    SameWalls m m'' := fun a b => (h' a b).trans (h a b)

theorem SameWalls.inWall_iff {m' : Map} (h : SameWalls m m') : InWall m' pos ↔ InWall m pos := by
  rw [InWall, InWall, isWall_iff, isWall_iff, h]

theorem sameWalls_add (x z : ℚ) (n : ℕ) (hv : v ≠ 255) : SameWalls m (Terrain.add m x z v n) :=
  fun _ _ => map_get_add_eq_wall hv

theorem sameWalls_pathFind {dx dz : ℚ} {r : Map × List ℤ}
    (h : self.pathFind m target dx dz = some r) : SameWalls m r.1 := by
  obtain ⟨path, -, rfl⟩ := Option.map_eq_some_iff.mp h
  cases target with
  | transform _ => exact (sameWalls_add _ _ _ (by decide)).trans (sameWalls_add _ _ _ (by decide))
  | object body =>
      exact (((sameWalls_add _ _ _ (by decide)).trans (sameWalls_add _ _ _ (by decide))).trans
        (sameWalls_add _ _ _ (by decide))).trans (sameWalls_add _ _ _ (by decide))

/-- The walls and the place of the entity stay. -/
structure Stays (s t : Scene) : Prop where
  walls : SameWalls s.map t.map
  pos : t.self.pos = s.self.pos

theorem Stays.trans {u : Scene} (h : Stays s t) (h' : Stays t u) : Stays s u :=
  ⟨h.walls.trans h'.walls, h'.pos.trans h.pos⟩

theorem stays_isLegalGrid (s : Scene) (pos : Vector3) : Stays s (s.isLegalGrid pos).2 :=
  ⟨(sameWalls_add _ _ _ (by decide)).trans (sameWalls_add _ _ _ (by decide)), rfl⟩

theorem stays_pathFind {r : Scene × Bool} (h : s.pathFind target = some r) : Stays s r.1 := by
  obtain ⟨r', hr, rfl⟩ := Option.map_eq_some_iff.mp h
  exact ⟨sameWalls_pathFind hr, rfl⟩

theorem pos_stand (self : Mover) : self.stand.pos = self.pos := by
  unfold Mover.stand
  split_ifs <;> rfl

theorem pos_clearTarget (self : Mover) : self.clearTarget.pos = self.pos := by
  unfold Mover.clearTarget
  split
  · exact pos_stand self
  · rfl

theorem stays_stand (s : Scene) : Stays s s.stand := ⟨fun _ _ => Iff.rfl, pos_stand s.self⟩

theorem setPos_spec (s : Scene) (dst : Vector3) :
    SameWalls s.map (s.setPos dst).map ∧ (s.setPos dst).self.pos = dst := by
  refine ⟨?_, rfl⟩
  unfold Scene.setPos
  dsimp only
  split_ifs with hdead
  · exact fun _ _ => Iff.rfl
  all_goals
    exact (sameWalls_add _ _ _ (by decide)).trans (sameWalls_add _ _ _ (by decide))

/-- The end of a tick gets to the place where that is legal. -/
theorem arrive_spec (s : Scene) (dst : Vector3) (legal_pos : Bool) :
    SameWalls s.map (s.arrive dst legal_pos).map ∧
      (s.arrive dst legal_pos).self.pos = if legal_pos then dst else s.self.pos := by
  cases legal_pos with
  | true => exact setPos_spec _ dst
  | false =>
      refine ⟨fun _ _ => Iff.rfl, ?_⟩
      simp only [Scene.arrive, Bool.false_eq_true, if_false]
      split_ifs
      · rw [pos_clearTarget, pos_stand]
      · rfl
      · rw [pos_clearTarget, pos_stand]
      · rfl
      · split
        · split_ifs
          · rw [pos_clearTarget, pos_stand]
          · rfl
        · rfl

/-! ## Places that are legal -/

theorem not_inWall_of_legal (hstraight : s.self.useAStar = false)
    (hlegal : (s.isLegalGrid pos).1 = true) : ¬ InWall s.map pos := by
  have hzero : ((0, 0) : ℤ × ℤ) ∈ offsets (s.self.n32BSize / 2) := by
    simp only [mem_offsets, abs_zero, Nat.cast_nonneg, and_self]
  have hcell := List.all_eq_true.mp hlegal (0, 0) hzero
  simp only [hstraight, add_zero, block_eq_map_get] at hcell
  split_ifs at hcell with hwall
  rw [InWall, isWall_iff]
  exact fun h => hwall ((map_get_add_eq_wall (by decide)).mpr h)

theorem isLegalGrid_again (s : Scene) (pos dst : Vector3) :
    ((s.isLegalGrid pos).2.isLegalGrid dst).1 = (s.isLegalGrid dst).1 := by
  have hcleared : ∀ a b, map_get (s.self.mark (s.isLegalGrid pos).2.map 0) a b =
      map_get (s.self.mark s.map 0) a b := by
    intro a b
    simp only [Scene.isLegalGrid, Body.isLegalGrid, Body.mark, map_get_add, covers_add]
    split_ifs <;> simp_all
  unfold Scene.isLegalGrid Body.isLegalGrid
  simp only [block_eq_map_get]
  congr 1
  funext o
  rw [← hcleared]
  rfl

/-- A turn aside that is taken leads to a legal place. -/
theorem slide_spec (geo : Geometry) (dt : ℚ) (hstraight : s.self.useAStar = false) (angles : List ℚ)
    (dst : Vector3) :
    Stays s (Scene.slide geo dt angles s dst).1 ∧
      (Scene.slide geo dt angles s dst).1.self.useAStar = false ∧
      ((Scene.slide geo dt angles s dst).2.2 = true →
        ¬ InWall s.map (Scene.slide geo dt angles s dst).2.1) := by
  induction angles generalizing s dst with
  | nil => exact ⟨⟨fun _ _ => Iff.rfl, rfl⟩, hstraight, nofun⟩
  | cons angle rest ih =>
      have hfirst := stays_isLegalGrid s (s.self.ahead (geo.rot angle s.self.dir) dt)
      unfold Scene.slide
      dsimp only
      split_ifs with hlegal
      · exact ⟨⟨hfirst.walls, rfl⟩, hstraight, fun _ => not_inWall_of_legal hstraight hlegal⟩
      · obtain ⟨hstays, hmode, hplace⟩ := ih (s := (s.isLegalGrid _).2) hstraight _
        refine ⟨hfirst.trans hstays, hmode, fun hfound => ?_⟩
        rw [← hfirst.walls.inWall_iff]
        exact hplace hfound

theorem turnAside_spec (hstraight : s.self.useAStar = false) (hpos : ¬ InWall s.map s.self.pos)
    (h : s.turnAside geo target dst dt = some t) : ¬ InWall t.map t.self.pos := by
  unfold Scene.turnAside at h
  dsimp only at h
  obtain ⟨hstays, -, hplace⟩ := slide_spec geo dt hstraight
    (if isWall s.map dst.x dst.z then [] else [60, 90, 120]) dst
  by_cases hfound : (Scene.slide geo dt
      (if isWall s.map dst.x dst.z then [] else [60, 90, 120]) s dst).2.2
  · rw [if_pos hfound, Option.some.injEq] at h
    subst h
    obtain ⟨hwalls, hthere⟩ := arrive_spec (Scene.slide geo dt _ s dst).1 _ true
    rw [hthere, if_pos rfl, hwalls.inWall_iff, hstays.walls.inWall_iff]
    exact hplace hfound
  · rw [if_neg hfound, Option.bind_eq_bind, Option.bind_eq_some_iff] at h
    obtain ⟨r, hfind, h⟩ := h
    have hkeep := hstays.trans (stays_pathFind hfind)
    by_cases hpath : r.2 = true
    · rw [if_pos hpath, Option.pure_def, Option.some.injEq] at h
      subst h
      obtain ⟨hwalls, hthere⟩ := arrive_spec r.1 (Scene.slide geo dt _ s dst).2.1 false
      rw [hthere, if_neg Bool.false_ne_true, hwalls.inWall_iff, hkeep.walls.inWall_iff, hkeep.pos]
      exact hpos
    · rw [if_neg hpath, Option.pure_def, Option.some.injEq] at h
      subst h
      have hstand := hkeep.trans (stays_stand r.1)
      rw [hstand.walls.inWall_iff, hstand.pos]
      exact hpos

/-- The entity with the direction of the tick. -/
def turned (geo : Geometry) (s : Scene) (aim : Vector3) : Scene :=
  { s with self := { s.self with dir := geo.normalize (aim.sub s.self.pos) } }

theorem stays_turned (geo : Geometry) (s : Scene) (aim : Vector3) : Stays s (turned geo s aim) :=
  ⟨fun _ _ => Iff.rfl, rfl⟩

theorem onMove3_eq (geo : Geometry) (dt : ℚ) {aim : Vector3} (hspeed : 0 < s.self.moveSpeed)
    (htarget : s.self.target = some target) (haim : s.self.aim target = some aim)
    (hdst : dst = s.self.ahead (geo.normalize (aim.sub s.self.pos)) (dt / 1000)) :
    s.onMove3 geo dt =
      let first := (turned geo s aim).isLegalGrid dst
      if s.self.useAStar ∧ first.1 = false then
        (first.2.pathFind target).bind fun r => if r.2 then some r.1 else some r.1.stand
      else
        let r := if s.self.useAStar then first.2.isLegalGrid dst else first
        if r.1 then some (r.2.arrive dst true) else r.2.turnAside geo target dst (dt / 1000) := by
  subst hdst
  unfold Scene.onMove3
  dsimp only
  rw [if_neg (not_le.mpr hspeed)]
  split
  · next hnone => cases hnone.symm.trans htarget
  · next target' hsome =>
      cases Option.some.inj (hsome.symm.trans htarget)
      rw [haim]
      rfl

theorem onMove3_safe_of_aim {aim : Vector3} (hpos : ¬ InWall s.map s.self.pos)
    (hspeed : 0 < s.self.moveSpeed) (htarget : s.self.target = some target)
    (haim : s.self.aim target = some aim)
    (hcuts : ¬ (s.self.useAStar = true ∧
      InWall s.map (s.self.ahead (geo.normalize (aim.sub s.self.pos)) (dt / 1000)) ∧
      (s.isLegalGrid (s.self.ahead (geo.normalize (aim.sub s.self.pos)) (dt / 1000))).1 = true))
    (ht : s.onMove3 geo dt = some t) : ¬ InWall t.map t.self.pos := by
  obtain ⟨dst, hdst⟩ : ∃ dst, dst = s.self.ahead (geo.normalize (aim.sub s.self.pos)) (dt / 1000) :=
    ⟨_, rfl⟩
  rw [← hdst] at hcuts
  rw [onMove3_eq geo dt hspeed htarget haim hdst] at ht
  have hkeep := (stays_turned geo s aim).trans (stays_isLegalGrid _ dst)
  dsimp only at ht
  by_cases hmode : s.self.useAStar = true
  · by_cases hlegal : ((turned geo s aim).isLegalGrid dst).1 = true
    · -- the place ahead is legal, and no wall
      have hagain := (isLegalGrid_again (turned geo s aim) dst dst).trans hlegal
      simp only [hmode, hlegal, hagain, Bool.true_eq_false, and_false, if_false, if_true,
        Option.some.injEq] at ht
      subst ht
      obtain ⟨hwalls, hthere⟩ :=
        arrive_spec (((turned geo s aim).isLegalGrid dst).2.isLegalGrid dst).2 dst true
      rw [hthere, if_pos rfl, hwalls.inWall_iff,
        (hkeep.trans (stays_isLegalGrid _ dst)).walls.inWall_iff]
      exact fun hwall => hcuts ⟨hmode, hwall, hlegal⟩
    · -- another path
      rw [if_pos ⟨hmode, Bool.eq_false_of_not_eq_true hlegal⟩, Option.bind_eq_some_iff] at ht
      obtain ⟨r, hfind, ht⟩ := ht
      have hkeep := hkeep.trans (stays_pathFind hfind)
      split_ifs at ht <;> cases ht
      · rw [hkeep.walls.inWall_iff, hkeep.pos]
        exact hpos
      · have hstand := hkeep.trans (stays_stand r.1)
        rw [hstand.walls.inWall_iff, hstand.pos]
        exact hpos
  · rw [if_neg (fun h => hmode h.1), if_neg hmode] at ht
    have hstraight : (turned geo s aim).self.useAStar = false := Bool.eq_false_of_not_eq_true hmode
    split_ifs at ht with hlegal
    · cases ht
      obtain ⟨hwalls, hthere⟩ := arrive_spec ((turned geo s aim).isLegalGrid dst).2 dst true
      rw [hthere, if_pos rfl, hwalls.inWall_iff, hkeep.walls.inWall_iff]
      exact not_inWall_of_legal hstraight hlegal
    · refine turnAside_spec (s := ((turned geo s aim).isLegalGrid dst).2) hstraight ?_ ht
      rw [hkeep.walls.inWall_iff, hkeep.pos]
      exact hpos

/-- A tick of an entity that is in no wall ends in one only where it cuts one on its path. -/
theorem onMove3_safe_iff (geo : Geometry) (s : Scene) (dt : ℚ) (hpos : ¬ InWall s.map s.self.pos) :
    (∀ t, s.onMove3 geo dt = some t → ¬ InWall t.map t.self.pos) ↔ ¬ Cuts geo s dt := by
  constructor
  · rintro hsafe ⟨hspeed, hmode, target, aim, htarget, haim, hwall, hlegal⟩
    obtain ⟨dst, hdst⟩ : ∃ dst, dst = s.self.ahead (geo.normalize (aim.sub s.self.pos))
        (dt / 1000) :=
      ⟨_, rfl⟩
    rw [← hdst] at hwall hlegal
    have hrun := onMove3_eq geo dt hspeed htarget haim hdst
    have hfirst : ((turned geo s aim).isLegalGrid dst).1 = true := hlegal
    have hagain := (isLegalGrid_again (turned geo s aim) dst dst).trans hfirst
    simp only [hmode, hfirst, hagain, Bool.true_eq_false, and_false, if_false, if_true] at hrun
    apply hsafe _ hrun
    obtain ⟨hwalls, hthere⟩ :=
      arrive_spec (((turned geo s aim).isLegalGrid dst).2.isLegalGrid dst).2 dst true
    have hkeep := ((stays_turned geo s aim).trans (stays_isLegalGrid _ dst)).trans
      (stays_isLegalGrid _ dst)
    rw [hthere, if_pos rfl, hwalls.inWall_iff, hkeep.walls.inWall_iff]
    exact hwall
  · intro hcuts t ht
    by_cases hspeed : 0 < s.self.moveSpeed
    swap
    · rw [Scene.onMove3, if_pos (not_lt.mp hspeed)] at ht
      cases ht
      exact hpos
    cases htarget : s.self.target with
    | none =>
        simp only [Scene.onMove3, if_neg (not_le.mpr hspeed), htarget, Option.some.injEq] at ht
        subst ht
        rw [(stays_stand s).walls.inWall_iff, (stays_stand s).pos]
        exact hpos
    | some target =>
        cases haim : s.self.aim target with
        | none =>
            unfold Scene.onMove3 at ht
            dsimp only at ht
            rw [if_neg (not_le.mpr hspeed)] at ht
            split at ht
            · next hnone => cases hnone.symm.trans htarget
            · next target' hsome =>
                cases Option.some.inj (hsome.symm.trans htarget)
                rw [haim] at ht
                cases ht
        | some aim =>
            exact onMove3_safe_of_aim hpos hspeed htarget haim
              (fun h => hcuts ⟨hspeed, h.1, target, aim, htarget, haim, h.2⟩) ht

/-- The lengths of vectors along the axes, and quarter turns. -/
def axes : Geometry where
  normalize v := if v.z = 0 then ⟨SignType.sign v.x, 0, 0⟩ else ⟨0, 0, SignType.sign v.z⟩
  rot angle v := if angle = 90 then ⟨-v.z, v.y, v.x⟩ else v

/-- A row of three cells, the last one a wall, with an entity in the first one. -/
def row : Map := ⟨3, 1, #v[1, 0, 255]⟩

/-- The entity heads for the second cell at two cells for each tenth of a second. -/
def walker (useAStar : Bool) : Mover where
  pos := ⟨1 / 20, 0, 1 / 20⟩
  n32BSize := 1
  dir := ⟨1, 0, 0⟩
  target := some (.transform ⟨3 / 20, 0, 1 / 20⟩)
  moveNode1 := ⟨0, 0, 0⟩
  moveNode2 := ⟨0, 0, 0⟩
  moveSpeed := 2
  hp := 100
  useAStar := useAStar
  pathMove := if useAStar then [0, 0, 1, 0] else []
  pathNodeIndex := if useAStar then 3 else -1

theorem onMove3_safe_walker : ¬ InWall row (walker true).pos ∧
    ∀ t, (⟨row, walker true⟩ : Scene).onMove3 axes 50 = some t → ¬ InWall t.map t.self.pos := by
  have hpos : ¬ InWall row (walker true).pos := by decide +kernel
  refine ⟨hpos, ?_⟩
  apply (onMove3_safe_iff axes ⟨row, walker true⟩ 50 hpos).mpr
  rintro ⟨-, -, target, aim, htarget, haim, hwall, -⟩
  cases htarget
  cases haim
  revert hwall
  decide +kernel

/-- A path to the second cell, a tick of two cells, and the entity stands in the wall. -/
theorem walker_in_wall : find row (1 / 20) (1 / 20) (3 / 20) (1 / 20) 1 = some [0, 0, 1, 0] ∧
    ¬ InWall row (walker true).pos ∧
    ((⟨row, walker true⟩ : Scene).onMove3 axes 100).any (fun t => InWall t.map t.self.pos) := by
  decide +kernel

end GameServer.Movement
