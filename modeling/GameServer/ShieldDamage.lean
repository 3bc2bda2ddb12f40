import GameServer.StatsRoundTrip

/-!
# Damage and the shield

The damage is worked out from the source and the owner, goes to the shield first and then to the
health. Both ways past the shield end in the same `addHp`; only one of them has taken off what the
shield holds. What the shield and the health lose is not rounded.
-/

namespace GameServer.Stats

open Affects Transition

variable {lzm : LzmRepository}

namespace Entity

variable (self : Entity)

def addMidShield (v : ℚ) : Entity :=
  { self with mid := Function.update self.mid .Shield (self.mid .Shield + v) }

/-- What a pet of type 3 makes of damage to it and of its own. -/
def hurtPc : ℚ :=
  match self.body with
  | .IPet n32Type HurtPc _ => if n32Type = 3 then HurtPc else 1
  | _ => 1

def damagePc : ℚ :=
  match self.body with
  | .IPet n32Type _ DamagePc => if n32Type = 3 then DamagePc else 1
  | _ => 1

/-- The owner behind the shield, and the damage that goes to `addHp`. -/
def absorb (demage : ℚ) : Entity × ℚ :=
  let shieldValue := self.stat .Shield
  if demage < shieldValue then ((self.addMidShield (-demage)).calShield, demage)
  else ((self.addMidShield (-shieldValue)).calShield, demage - shieldValue)

end Entity

namespace World

variable (w : World)

/-- The damage behind the defence, `n32SkillType` being that of the skill and `random` up to 100. -/
def demage (owner source : ℕ) (d : Data) (n32SkillType random : ℤ) : Option ℚ := do
  let r ← (w.entities source).getAttributeValue d
  let demage := Double.sub r ((w.entities owner).stat .Defence)
  let demage :=
    if n32SkillType = 0 ∧ random < Double.mul 100 ((w.entities source).stat .BaojiRate) then
      Double.mul demage ((w.entities source).stat .BaojiTimes)
    else demage
  let demage := Double.mul ((w.entities owner).stat .Updamage) demage
  some (Double.mul (Double.mul demage (w.entities owner).hurtPc) (w.entities source).damagePc)

/-- `calAffect` of damage up to `calShield`, with what is left for `addHp`. -/
def hit (owner source : ℕ) (d : Data) (n32SkillType random : ℤ) : Option (World × ℚ) := do
  let demage ← w.demage owner source d n32SkillType random
  let w := if n32SkillType = 0 then w.put source (w.entities source).resetBaoji else w
  let (self, demage) := (w.entities owner).absorb demage
  some (w.put owner self, demage)

/-- What the passive skills for a deadly hit make of the room, where they are triggered. -/
def revive (owner : ℕ) (demage : ℚ) (passtives : World → World) : World :=
  if (w.entities owner).Hp ≤ demage ∧ (w.entities owner).body = .IMapPlayer then passtives w else w

/-- The rest of `calAffect`. -/
def lose (owner : ℕ) (demage : ℚ) : World := w.put owner ((w.entities owner).addHp (-demage))

/-- `calAffect` of damage -/
def calAffect (owner source : ℕ) (d : Data) (n32SkillType random : ℤ) (passtives : World → World) :
    Option World := do
  let (w, demage) ← w.hit owner source d n32SkillType random
  some ((w.revive owner demage passtives).lose owner demage)

end World

/-! ## Shields -/

def Shielded (e : Entity) : Prop := e.stat .Shield = e.mid .Shield

theorem resetBaoji_shield (e : Entity) :
    e.resetBaoji.stat .Shield = e.stat .Shield ∧ e.resetBaoji.mid = e.mid := by
  simp [Entity.resetBaoji, Entity.set]

theorem absorb_shield (e : Entity) (demage : ℚ) :
    (e.absorb demage).1.mid .Shield = e.mid .Shield - min demage (e.stat .Shield) ∧
      (e.absorb demage).1.stat .Shield = (e.absorb demage).1.mid .Shield := by
  unfold Entity.absorb
  dsimp only
  split_ifs with hlt
  · rw [min_eq_left hlt.le]
    simp [Entity.calShield, Entity.set, Entity.addMidShield, sub_eq_add_neg]
  · rw [min_eq_right (not_lt.mp hlt)]
    simp [Entity.calShield, Entity.set, Entity.addMidShield, sub_eq_add_neg]

/-- What is left is all of the damage unless it breaks the shield. -/
theorem absorb_left (e : Entity) (demage : ℚ) :
    (e.absorb demage).2 = if demage < e.stat .Shield then demage else demage - e.stat .Shield := by
  unfold Entity.absorb
  dsimp only
  split_ifs <;> rfl

namespace World

variable {w w' w₀ : World} {owner source e : ℕ} {d : Data} {n32SkillType random : ℤ}

inductive Move
  | step (l : Label)
  | hit (owner source : ℕ) (d : Data) (n32SkillType random : ℤ)

/-- Rooms where there is damage; the health changes by `other`. -/
def fight (lzm : LzmRepository) (w₀ : World) : System World Move where
  init := w₀
  step w
    | .step l => w.step lzm l
    | .hit owner source d n32SkillType random =>
      (w.hit owner source d n32SkillType random).map Prod.fst

theorem additions_shield (w : World) (e : ℕ) (l : Label) :
    MidStat.Shield ∉ (w.additions e l).map Prod.fst := by
  cases l with
  | trigger h owner source d =>
      simp only [additions]
      split_ifs
      · rw [Double.scale_fst]
        cases hl : (w.entities owner).amounts (w.entities source) d with
        | none => exact List.not_mem_nil
        | some l =>
            rw [Option.getD_some, complete_fst hl]
            exact changes_shield d _ _
      · exact List.not_mem_nil
  | _ => exact List.not_mem_nil

theorem shielded_put {f : ℕ} {v : Entity} (h : Shielded (w.entities e)) (hv : f = e → Shielded v) :
    Shielded ((w.put f v).entities e) := by
  by_cases hfe : e = f
  · subst hfe
    rw [put_self]
    exact hv rfl
  · rw [put_other _ hfe]
    exact h

/-- Every calculation leaves the shield or sets it to its middle value. -/
theorem shielded_run (c : Calc) {v : Entity} (h : Shielded v) : Shielded (c.run lzm v) := by
  obtain ⟨hinputs, hstat⟩ := @run_recomputes lzm c v
  unfold Shielded
  rw [hstat, hinputs.mid]
  unfold Recompute.Rules.recompute
  split_ifs
  · rfl
  · exact h

theorem shielded_step {l : Label} (h : Shielded (w.entities e)) (hs : w.step lzm l = some w') :
    Shielded (w'.entities e) := by
  cases l with
  | trigger hook owner source d =>
      have hmid : (w'.entities e).mid .Shield = (w.entities e).mid .Shield := by
        rw [mid_step hs, Double.addAll_of_not_mem (additions_shield w e _)]
      obtain ⟨l, hl, hs⟩ := Option.bind_eq_some_iff.mp hs
      cases hs
      unfold Shielded
      rw [hmid, ← h]
      by_cases hoe : e = owner
      · subst hoe
        simp [put, Entity.addMid]
      · simp [put, hoe]
  | go k =>
      simp only [World.step] at hs
      split at hs <;> cases hs
      refine shielded_put h ?_
      rintro rfl
      exact shielded_run _ h
  | levelUp f level =>
      cases hs
      exact shielded_put h fun hfe => hfe ▸ h
  | other f Hp Mp kept =>
      cases hs
      exact shielded_put h fun hfe => hfe ▸ h

/-- The owner is hit behind the reset of `Baoji`, which leaves the shield. -/
theorem hit_eq_some {left : ℚ} (hh : w.hit owner source d n32SkillType random = some (w', left)) :
    ∃ (demage : ℚ) (self : Entity), w.demage owner source d n32SkillType random = some demage ∧
      self.stat .Shield = (w.entities owner).stat .Shield ∧ self.mid = (w.entities owner).mid ∧
      left = (self.absorb demage).2 ∧ w'.entities owner = (self.absorb demage).1 ∧
      ∀ e, e ≠ owner → Shielded (w.entities e) → Shielded (w'.entities e) := by
  obtain ⟨demage, hdemage, hh⟩ := Option.bind_eq_some_iff.mp hh
  have hreset : ∀ e, (w.put source (w.entities source).resetBaoji).entities e =
      if e = source then (w.entities source).resetBaoji else w.entities e := by
    intro e
    by_cases he : e = source
    · rw [if_pos he, he, put_self]
    · rw [if_neg he, put_other _ he]
  by_cases htype : n32SkillType = 0
  · simp only [if_pos htype] at hh
    cases hh
    refine ⟨demage, _, hdemage, ?_, ?_, rfl, put_self _ _ _, fun e he h => ?_⟩
    · rw [hreset]
      split_ifs with ho
      · rw [(resetBaoji_shield _).1, ho]
      · rfl
    · rw [hreset]
      split_ifs with ho
      · rw [(resetBaoji_shield _).2, ho]
      · rfl
    · rw [put_other _ he, hreset]
      split_ifs with hs
      · unfold Shielded
        rw [(resetBaoji_shield _).1, (resetBaoji_shield _).2, ← hs]
        exact h
      · exact h
  · simp only [if_neg htype] at hh
    cases hh
    refine ⟨demage, _, hdemage, rfl, rfl, rfl, put_self _ _ _, fun e he h => ?_⟩
    rwa [put_other _ he]

/-- In every room that is reached, the shields stand at their middle values. -/
theorem shielded_reachable (hinit : ∀ e, Shielded (w₀.entities e)) (hw : (fight lzm w₀).Reachable w)
    (e : ℕ) : Shielded (w.entities e) := by
  refine hw.invariant (P := fun w => ∀ e, Shielded (w.entities e)) hinit ?_ e
  intro w m w' h _ hs e
  cases m with
  | step l => exact shielded_step (h e) hs
  | hit owner source d n32SkillType random =>
      obtain ⟨⟨_, left⟩, hh, rfl⟩ := Option.map_eq_some_iff.mp hs
      obtain ⟨demage, self, -, -, -, -, hself, hother⟩ := hit_eq_some hh
      by_cases he : e = owner
      · subst he
        unfold Shielded
        rw [hself]
        exact (absorb_shield self demage).2
      · exact hother e he (h e)

/-! ## The damage -/

/-- A health that loses `x`, rounded up, down to nothing. -/
def lost (hp hpMax x : ℚ) : ℚ := if ⌈x⌉ = 0 then hp else Battle.mClamp (hp - ⌈x⌉) 0 hpMax

theorem lost_lt {hp hpMax x : ℚ} (halive : 0 < hp) (hx : 0 < x) : lost hp hpMax x < hp := by
  have hceil : 0 < ⌈x⌉ := Int.ceil_pos.mpr hx
  have hceil' : (0 : ℚ) < ⌈x⌉ := by exact_mod_cast hceil
  unfold lost Battle.mClamp
  rw [if_neg hceil.ne']
  split_ifs <;> linarith

theorem lose_hp {x : ℚ} (halive : 0 < (w.entities owner).Hp)
    (hkept : (w.entities owner).kept = false) :
    ((w.lose owner x).entities owner).Hp =
      lost (w.entities owner).Hp ((w.entities owner).stat .HpMax) x := by
  have hdead : ¬ (w.entities owner).Hp ≤ 0 := not_le.mpr halive
  have hfloor : ⌊-x⌋ = -⌈x⌉ := Int.floor_neg
  unfold lose lost
  rw [put_self]
  unfold Entity.addHp
  by_cases hzero : ⌈x⌉ = 0
  · simp [hfloor, hzero]
  · simp [hfloor, hzero, hdead, hkept, sub_eq_add_neg]

/-- A hero with a defence of 20. -/
def guardedHero : Entity :=
  { plainHero with
    attDat := { plainHero.attDat with n32Defence := 20 }
    stat := Function.update plainHero.stat .Defence 20
    Hp := 50 }

def guardedWorld : World :=
  { plainWorld with entities := Function.update plainWorld.entities 0 guardedHero }

theorem revive_id (w : World) (owner : ℕ) (demage : ℚ) : w.revive owner demage id = w := by
  unfold revive
  split_ifs <;> rfl

end World

end GameServer.Stats
