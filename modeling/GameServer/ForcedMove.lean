import GameServer.Approach
import GameServer.Plane

/-!
# Forced movement

A tick of `onForceMove` takes the entity one step of a fixed length towards the target, and the
movement ends where a tick ends within 0.1 of it. At a wall the code calls `onStand`, and the method
is named `OnStand`. The marks that `setPos` leaves on the map make no wall and take none away, so
the map is the same in every tick.
-/

namespace GameServer.ForcedMove

open Approach Plane
open Pathfinding (Map)

structure Mover (K : Type*) where
  pos : Vector3 K
  /-- `self.targetPos.pos` -/
  targetPos : Vector3 K
  dir : Vector3 K
  moveSpeed : K
  hp : K

/-- The end of a tick: the entity goes on, `OnStand` has been called, or an error. -/
inductive Tick (K : Type*)
  | moves (self : Mover K)
  | stands (self : Mover K)
  | fails

namespace Mover

variable {K : Type*} [Field K] [LinearOrder K] (root : Root K) (dt : K) (self : Mover K)

def heading : Vector3 K := (self.targetPos.sub self.pos).normalize root

/-- What the entity goes in a tick of `dt` milliseconds. -/
def step : K := self.moveSpeed * (dt / 1000)

def mv_dst : Vector3 K := ((self.heading root).mul_num (self.step dt)).add self.pos

/-- The distance to the target. -/
def dist : K := self.pos.len root self.targetPos

/-- The place `n` steps ahead. -/
def ahead (n : ℕ) : Vector3 K := along self.pos (self.heading root) (n * self.step dt)

end Mover

section Ticks

variable {K : Type*} [Field K] [LinearOrder K] [FloorRing K]
variable (root : Root K) (m : Map) (dt : K)

def onForceMove (self : Mover K) : Tick K :=
  if self.hp ≤ 0 then .moves self
  else
    let dir := self.heading root
    let mv_dst := self.mv_dst root dt
    -- `self:onStand()` is a call of a nil value
    if isWall m mv_dst.x mv_dst.z then .fails
    else
      let self := { self with dir, pos := mv_dst }
      if self.pos.len root self.targetPos ≤ 1 / 10 then .stands self else .moves self

def ticks (self : Mover K) : ℕ → Tick K
  | 0 => .moves self
  | n + 1 =>
      match ticks self n with
      | .moves self => onForceMove root m dt self
      | tick => tick

/-! ## The end of the movement -/

/-- No wall lies on the way. -/
def Clear (self : Mover K) : Prop :=
  ∀ p, OnSegment self.pos self.targetPos p → isWall m p.x p.z = false

/-- The next tick reaches a wall. -/
def AtWall (self : Mover K) : Prop :=
  0 < self.hp ∧ isWall m (self.mv_dst root dt).x (self.mv_dst root dt).z = true

/-- On a clear way the ticks bring the entity to its target, and at a wall it stands. -/
structure Ends (self : Mover K) : Prop where
  arrives : Clear m self → ∃ n s, ticks root m dt self n = .stands s ∧
    s.pos.len root self.targetPos ≤ 1 / 10
  wall : ∀ n s, ticks root m dt self n = .moves s → AtWall root m dt s →
    ∃ s', onForceMove root m dt s = .stands s'

/-- No whole number of steps leads into a wall, up to the first one that ends within 0.1 of the
target or behind it. An entity that goes back from there does not stand in a wall. -/
def StepsFree (self : Mover K) : Prop :=
  (∀ n : ℕ, n * self.step dt ≤ self.dist root → Far (self.step dt) (self.dist root) (1 / 10) n →
    isWall m (self.ahead root dt (n + 1)).x (self.ahead root dt (n + 1)).z = false) ∧
  (self.dist root + 1 / 10 < self.step dt → isWall m self.pos.x self.pos.z = false)

end Ticks

/-! ## One tick on the line -/

section Line

variable {K : Type*} [Field K] [LinearOrder K]

/-- The entity is on the line through the target. -/
structure At (start : Mover K) (u : Vector3 K) (s : K) (mv : Mover K) : Prop where
  pos : mv.pos = along start.targetPos u s
  targetPos : mv.targetPos = start.targetPos
  moveSpeed : mv.moveSpeed = start.moveSpeed
  hp : mv.hp = start.hp

variable {root : Root K} {dt : K} {start mv : Mover K} {u : Vector3 K} {s : K}

theorem At.len (root : Root K) (hat : At start u s mv) (hu : u.length_square = 1) :
    mv.pos.len root start.targetPos = |s| := by
  rw [hat.pos, len_along_self hu]

variable [IsStrictOrderedRing K]

theorem At.heading (hat : At start u s mv) (hu : u.length_square = 1) :
    mv.heading root = u.mul_num (-(SignType.sign s : K)) := by
  have hsub : start.targetPos.sub (along start.targetPos u s) = u.mul_num (-s) := by
    ext <;> simp only [along, Vector3.add, Vector3.mul_num, Vector3.sub] <;> ring
  rw [Mover.heading, hat.pos, hat.targetPos, hsub, normalize_mul_num hu, Left.sign_neg,
    SignType.coe_neg]

theorem At.mv_dst (root : Root K) (hat : At start u s mv) (hu : u.length_square = 1) :
    mv.mv_dst root dt = along start.targetPos u (toward (start.step dt) s) := by
  rw [Mover.mv_dst, hat.heading hu, hat.pos, Mover.step, Mover.step, hat.moveSpeed, toward]
  ext <;> simp only [along, Vector3.add, Vector3.mul_num] <;> ring

theorem At.ahead (hat : At start u s start) (hu : u.length_square = 1) (n : ℕ) :
    start.ahead root dt n =
      along start.targetPos u (s + -(SignType.sign s : K) * (n * start.step dt)) := by
  rw [Mover.ahead, hat.heading hu, hat.pos, along_mul_num, along_along]

end Line

/-! ## Runs -/

variable {K : Type*} [Field K] [LinearOrder K] [FloorRing K]
variable {root : Root K} {m : Map} {dt : K} {start mv mv' : Mover K} {u : Vector3 K}
variable {s D : K} {n : ℕ}

/-- The place at an offset from the target is a wall. -/
def WallAt (m : Map) (start : Mover K) (u : Vector3 K) (s : K) : Prop :=
  isWall m (along start.targetPos u s).x (along start.targetPos u s).z = true

/-- A tick that ends at the offset is not the last one. -/
def Open (m : Map) (start : Mover K) (u : Vector3 K) (s : K) : Prop :=
  ¬ WallAt m start u s ∧ 1 / 10 < |s|

/-- No tick leads into a wall before one ends within 0.1 of the target. -/
def Free (m : Map) (dt : K) (start : Mover K) (u : Vector3 K) (s : K) : Prop :=
  ∀ n, (∀ j < n, 1 / 10 < |(toward (start.step dt))^[j + 1] s|) →
    ¬ WallAt m start u ((toward (start.step dt))^[n + 1] s)

theorem ticks_succ_of_moves {mv : Mover K} (h : ticks root m dt start n = .moves mv) :
    ticks root m dt start (n + 1) = onForceMove root m dt mv := by
  rw [ticks, h]

/-- The last tick of a run, if the run still goes on before it. -/
theorem ticks_succ_cases {tick : Tick K} (h : ticks root m dt start (n + 1) = tick) :
    (∃ mv, ticks root m dt start n = .moves mv ∧ onForceMove root m dt mv = tick) ∨
      ticks root m dt start n = tick ∧ ∀ mv, tick ≠ .moves mv := by
  rw [ticks] at h
  cases hprev : ticks root m dt start n with
  | moves mv =>
      rw [hprev] at h
      exact .inl ⟨mv, rfl, h⟩
  | stands mv =>
      rw [hprev] at h
      exact .inr ⟨h, fun _ heq => nomatch h.trans heq⟩
  | fails =>
      rw [hprev] at h
      exact .inr ⟨h, fun _ heq => nomatch h.trans heq⟩

theorem ticks_of_dead (root : Root K) (m : Map) (dt : K) (hhp : start.hp ≤ 0) (n : ℕ) :
    ticks root m dt start n = .moves start := by
  induction n with
  | zero => rfl
  | succ n ih => rw [ticks_succ_of_moves ih, onForceMove, if_pos hhp]

variable [IsStrictOrderedRing K]

theorem onForceMove_spec (root : Root K) (hat : At start u s mv) (hu : u.length_square = 1)
    (hhp : 0 < start.hp) :
    WallAt m start u (toward (start.step dt) s) ∧ onForceMove root m dt mv = .fails ∨
      ¬ WallAt m start u (toward (start.step dt) s) ∧
        ∃ mv', At start u (toward (start.step dt) s) mv' ∧
          onForceMove root m dt mv =
            if |toward (start.step dt) s| ≤ 1 / 10 then .stands mv' else .moves mv' := by
  have hmoved : At start u (toward (start.step dt) s)
      { mv with dir := mv.heading root, pos := mv.mv_dst root dt } :=
    ⟨hat.mv_dst root hu, hat.targetPos, hat.moveSpeed, hat.hp⟩
  have hlen := hmoved.len root hu
  by_cases hwall : WallAt m start u (toward (start.step dt) s)
  · refine .inl ⟨hwall, ?_⟩
    rw [WallAt, ← hat.mv_dst root hu] at hwall
    rw [onForceMove, if_neg (hat.hp ▸ hhp.not_ge)]
    exact if_pos hwall
  · refine .inr ⟨hwall, _, hmoved, ?_⟩
    rw [WallAt, ← hat.mv_dst root hu] at hwall
    rw [onForceMove, if_neg (hat.hp ▸ hhp.not_ge), ← hlen, ← hat.targetPos]
    exact if_neg hwall

theorem ticks_of_open (root : Root K) (hat : At start u s start) (hu : u.length_square = 1)
    (hhp : 0 < start.hp)
    (hopen : ∀ j < n, Open m start u ((toward (start.step dt))^[j + 1] s)) :
    ∃ mv, ticks root m dt start n = .moves mv ∧ At start u ((toward (start.step dt))^[n] s) mv := by
  induction n with
  | zero => exact ⟨start, rfl, hat⟩
  | succ n ih =>
      obtain ⟨mv, hmv, hmvat⟩ := ih fun j hj => hopen j (hj.trans n.lt_succ_self)
      have hlast := hopen n n.lt_succ_self
      rw [Function.iterate_succ_apply'] at hlast ⊢
      rw [ticks_succ_of_moves hmv]
      rcases onForceMove_spec root hmvat hu hhp with ⟨hwall, -⟩ | ⟨-, mv', hat', heq⟩
      · exact absurd hwall hlast.1
      · exact ⟨mv', heq.trans (if_neg hlast.2.not_ge), hat'⟩

theorem onForceMove_moves (hat : At start u s mv) (hu : u.length_square = 1) (hhp : 0 < start.hp)
    (h : onForceMove root m dt mv = .moves mv') :
    At start u (toward (start.step dt) s) mv' ∧ Open m start u (toward (start.step dt) s) := by
  rcases onForceMove_spec root hat hu hhp with ⟨-, heq⟩ | ⟨hwall, mv₁, hat₁, heq⟩
  · cases heq.symm.trans h
  · rw [heq] at h
    split_ifs at h with hnear
    cases h
    exact ⟨hat₁, hwall, not_le.mp hnear⟩

theorem onForceMove_stands (hat : At start u s mv) (hu : u.length_square = 1) (hhp : 0 < start.hp)
    (h : onForceMove root m dt mv = .stands mv') :
    ¬ WallAt m start u (toward (start.step dt) s) ∧ |toward (start.step dt) s| ≤ 1 / 10 := by
  rcases onForceMove_spec root hat hu hhp with ⟨-, heq⟩ | ⟨hwall, mv₁, -, heq⟩
  · cases heq.symm.trans h
  · rw [heq] at h
    split_ifs at h with hnear
    exact ⟨hwall, hnear⟩

theorem open_of_ticks (hat : At start u s start) (hu : u.length_square = 1) (hhp : 0 < start.hp)
    (h : ticks root m dt start n = .moves mv) :
    At start u ((toward (start.step dt))^[n] s) mv ∧
      ∀ j < n, Open m start u ((toward (start.step dt))^[j + 1] s) := by
  induction n generalizing mv with
  | zero =>
      cases h
      exact ⟨hat, nofun⟩
  | succ n ih =>
      rcases ticks_succ_cases h with ⟨mv₀, hprev, hlast⟩ | ⟨-, hne⟩
      · obtain ⟨hat₀, hopen⟩ := ih hprev
        have hnew := onForceMove_moves hat₀ hu hhp hlast
        rw [← Function.iterate_succ_apply' (toward (start.step dt))] at hnew
        refine ⟨hnew.1, fun j hj => ?_⟩
        rcases (Nat.lt_succ_iff.mp hj).eq_or_lt with rfl | hlt
        · exact hnew.2
        · exact hopen j hlt
      · exact absurd rfl (hne mv)

theorem near_of_ticks (hat : At start u s start) (hu : u.length_square = 1) (hhp : 0 < start.hp)
    (h : ticks root m dt start n = .stands mv) :
    ∃ k, |(toward (start.step dt))^[k + 1] s| ≤ 1 / 10 := by
  induction n generalizing mv with
  | zero => cases h
  | succ n ih =>
      rcases ticks_succ_cases h with ⟨mv₀, hprev, hlast⟩ | ⟨hprev, -⟩
      · refine ⟨n, ?_⟩
        rw [Function.iterate_succ_apply']
        exact (onForceMove_stands (open_of_ticks hat hu hhp hprev).1 hu hhp hlast).2
      · exact ih hprev

/-- A wall ends the movement with an error, so it has to be out of reach. -/
theorem wall_iff (root : Root K) (m : Map) (dt : K) (hat : At start u s start)
    (hu : u.length_square = 1) (hhp : 0 < start.hp) :
    (∀ n mv, ticks root m dt start n = .moves mv → AtWall root m dt mv →
      ∃ mv', onForceMove root m dt mv = .stands mv') ↔ Free m dt start u s := by
  constructor
  · intro h n
    induction n using Nat.strong_induction_on with
    | _ n ih =>
        intro hfar hwall
        obtain ⟨mv, hmv, hmvat⟩ := ticks_of_open root hat hu hhp fun j hj =>
          ⟨ih j hj fun i hi => hfar i (hi.trans hj), hfar j hj⟩
        rw [Function.iterate_succ_apply'] at hwall
        have hreach : AtWall root m dt mv := by
          refine ⟨hmvat.hp ▸ hhp, ?_⟩
          rw [hmvat.mv_dst root hu]
          exact hwall
        obtain ⟨mv', heq⟩ := h n mv hmv hreach
        exact (onForceMove_stands hmvat hu hhp heq).1 hwall
  · rintro hfree n mv hmv ⟨-, hwall⟩
    obtain ⟨hmvat, hopen⟩ := open_of_ticks hat hu hhp hmv
    refine absurd ?_ (hfree n fun j hj => (hopen j hj).2)
    rw [Function.iterate_succ_apply', WallAt, ← hmvat.mv_dst root hu]
    exact hwall

theorem arrives_iff (hat : At start u s start) (hu : u.length_square = 1) (hhp : 0 < start.hp)
    (hfree : Free m dt start u s) :
    (∃ n mv, ticks root m dt start n = .stands mv ∧ mv.pos.len root start.targetPos ≤ 1 / 10) ↔
      ∃ n, |(toward (start.step dt))^[n + 1] s| ≤ 1 / 10 := by
  constructor
  · rintro ⟨n, mv, hmv, -⟩
    exact near_of_ticks hat hu hhp hmv
  · intro h
    classical
    have hfar : ∀ j < Nat.find h, 1 / 10 < |(toward (start.step dt))^[j + 1] s| :=
      fun j hj => not_le.mp (Nat.find_min h hj)
    have hnear := Nat.find_spec h
    obtain ⟨mv, hmv, hmvat⟩ := ticks_of_open root hat hu hhp fun j hj =>
      ⟨hfree j fun i hi => hfar i (hi.trans hj), hfar j hj⟩
    have hno := hfree _ hfar
    rw [Function.iterate_succ_apply'] at hnear hno
    rcases onForceMove_spec root hmvat hu hhp with ⟨hwall, -⟩ | ⟨-, mv', hat', heq⟩
    · exact absurd hwall hno
    · refine ⟨Nat.find h + 1, mv', ?_, ?_⟩
      · rw [ticks_succ_of_moves hmv, heq, if_pos hnear]
      · rw [hat'.len root hu]
        exact hnear

/-! ## The places on the way -/

theorem stepsFree_iff (root : Root K) (m : Map) (hat : At start u (-D) start)
    (hu : u.length_square = 1) (hD : 0 ≤ D) (hstep : 0 < start.step dt) :
    StepsFree root m dt start ↔ Free m dt start u (-D) := by
  have hdist : start.dist root = D := by
    rw [Mover.dist, hat.len root hu, abs_neg, abs_of_nonneg hD]
  have hahead : ∀ n, start.ahead root dt n =
      along start.targetPos u (-D + SignType.sign D * (n * start.step dt)) := by
    intro n
    rw [hat.ahead hu, Left.sign_neg, SignType.coe_neg, neg_neg]
  rw [StepsFree, hdist]
  simp only [hahead, hat.pos]
  rcases hD.eq_or_lt with rfl | hpos
  · simp only [neg_zero, sign_zero, SignType.coe_zero, zero_mul, add_zero, Free,
      iterate_toward_zero]
    constructor
    · rintro ⟨hsteps, -⟩ n -
      rw [WallAt, hsteps 0 (by simp) nofun]
      exact Bool.false_ne_true
    · intro h
      have hno := eq_false_of_ne_true (h 0 nofun)
      exact ⟨fun _ _ _ => hno, fun _ => hno⟩
  · rw [Free, forall_iterate_iff hstep hpos (by norm_num) fun s => ¬ WallAt m start u s]
    simp only [sign_pos hpos, SignType.coe_one, one_mul, neg_add_eq_sub, WallAt, Bool.not_eq_true]

/-- The movement ends as it should if and only if no step of a living entity leads into a wall and,
where the way is clear, what whole steps leave of it is at most 0.1, or at least a step less 0.1. -/
theorem ends_iff (root : Root K) (m : Map) (dt : K) (start : Mover K)
    (hspeed : 0 < start.moveSpeed) (hdt : 0 < dt)
    (hdist : IsSquare (start.targetPos.sub start.pos).length_square) :
    Ends root m dt start ↔
      (0 < start.hp → StepsFree root m dt start) ∧
      (Clear m start → 0 < start.hp ∧
        (rest (start.step dt) (start.dist root) ≤ 1 / 10 ∨
          start.step dt - rest (start.step dt) (start.dist root) ≤ 1 / 10)) := by
  have hstep : 0 < start.step dt := mul_pos hspeed (div_pos hdt (by norm_num))
  obtain ⟨u, hu, D, hD, htarget⟩ := exists_direction start.pos start.targetPos hdist
  have hat : At start u (-D) start := by
    refine ⟨?_, rfl, rfl, rfl⟩
    rw [htarget, along_along, add_neg_cancel, along_zero]
  have hlen : start.dist root = D := by
    rw [Mover.dist, hat.len root hu, abs_neg, abs_of_nonneg hD]
  rw [hlen]
  by_cases hhp : 0 < start.hp
  · have hfree := stepsFree_iff root m hat hu hD hstep
    have hwall := wall_iff root m dt hat hu hhp
    have hnear := exists_near_iff hstep hD (w := 1 / 10) (by norm_num)
    constructor
    · rintro ⟨harrives, hends⟩
      have hno := hwall.mp hends
      exact ⟨fun _ => hfree.mpr hno, fun hclear =>
        ⟨hhp, hnear.mp ((arrives_iff hat hu hhp hno).mp (harrives hclear))⟩⟩
    · rintro ⟨hsteps, hclose⟩
      have hno := hfree.mp (hsteps hhp)
      exact ⟨fun hclear => (arrives_iff hat hu hhp hno).mpr (hnear.mpr (hclose hclear).2),
        hwall.mpr hno⟩
  · have hdead := ticks_of_dead root m dt (not_lt.mp hhp)
    constructor
    · rintro ⟨harrives, -⟩
      refine ⟨fun h => absurd h hhp, fun hclear => ?_⟩
      obtain ⟨n, mv, hmv, -⟩ := harrives hclear
      rw [hdead] at hmv
      cases hmv
    · rintro ⟨-, hclose⟩
      refine ⟨fun hclear => absurd (hclose hclear).1 hhp, fun n mv hmv hreach => ?_⟩
      rw [hdead] at hmv
      cases hmv
      exact absurd hreach.1 hhp

/-- A charge to a place in the row, with a speed of 6. -/
def charger (x : ℚ) : Mover ℚ :=
  { pos := ⟨1 / 20, 1 / 20⟩, targetPos := ⟨x, 1 / 20⟩, dir := ⟨0, 0⟩, moveSpeed := 6, hp := 100 }

theorem charger_step (x : ℚ) : (charger x).step 100 = 3 / 5 := by
  norm_num [Mover.step, charger]

/-- One step leads to the target. -/
theorem ends_iff_charge : Ends rationals row 100 (charger (13 / 20)) := by
  have hiff := ends_iff rationals row 100 (charger (13 / 20)) (by norm_num [charger]) (by norm_num)
    ⟨3 / 5, by norm_num [charger, Vector3.sub, Vector3.length_square]⟩
  have hdist : (charger (13 / 20)).dist rationals = 3 / 5 := by decide +kernel
  rw [charger_step, hdist] at hiff
  refine hiff.mpr ⟨fun _ => ⟨fun n _ hfar => ?_, fun h => ?_⟩, fun _ => ⟨?_, .inl ?_⟩⟩
  · cases n with
    | zero => decide +kernel
    | succ n =>
        have hfirst := hfar 0 n.succ_pos
        rw [charger_step, hdist] at hfirst
        norm_num at hfirst
  · rw [charger_step, hdist] at h
    norm_num at h
  · norm_num [charger]
  · norm_num [rest]

theorem clear_charger : Clear row (charger (21 / 20)) := by
  rintro p ⟨t, ht, ht1, rfl⟩
  rw [← Bool.not_eq_true, isWall_iff, map_get_row]
  · decide
  all_goals norm_num [charger, along, Vector3.add, Vector3.sub, Vector3.mul_num] <;> linarith

/-- Steps of 0.6 over a way of 1 never end within 0.1 of the target. -/
theorem charger_passes (n : ℕ) (s : Mover ℚ) :
    ticks rationals row 100 (charger (21 / 20)) n ≠ .stands s := by
  intro h
  have hat : At (charger (21 / 20)) ⟨1, 0⟩ (-1) (charger (21 / 20)) := by
    refine ⟨?_, rfl, rfl, rfl⟩
    norm_num [charger, along, Vector3.add, Vector3.mul_num]
  have hnear := near_of_ticks hat (by norm_num [Vector3.length_square])
    (by norm_num [charger]) h
  rw [charger_step, exists_near_iff (by norm_num) (by norm_num) (by norm_num)] at hnear
  norm_num [rest] at hnear

theorem charger_never_ends : ¬ Ends rationals row 100 (charger (21 / 20)) := by
  rintro ⟨harrives, -⟩
  obtain ⟨n, s, hstands, -⟩ := harrives clear_charger
  exact charger_passes n s hstands

end GameServer.ForcedMove
