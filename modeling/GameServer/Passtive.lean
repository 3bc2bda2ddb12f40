import GameServer.Affect
import GameServer.Cooldown

/-!
# Passive skills

A passive skill stands in the list of its source's spell. Events are handed to every skill of the
list, each of which looks for its own condition; conditions 7 and 8 are never handed on, since
`update` looks for targets instead.
-/

namespace GameServer.Passtives

open Affects

/-- What a passive skill reads of its row. -/
structure SkillData where
  id : ℤ
  n32TriggerCondition : ℤ
  n32TriggerInfo : ℤ
  n32CD : ℚ
  n32SkillType : ℤ
  szSelectTargetAffect : List Data
  szAffectTargetAffect : List Data
  deriving DecidableEq

def maxinteger : ℤ := 2 ^ 63 - 1

/-- Entities are known by numbers. -/
structure PasstiveSpell where
  skilldata : SkillData
  source : ℕ
  isDead : Bool
  lifeTime : ℚ
  attackTicks : ℤ
  bAttackTicks : ℤ
  targets : List ℕ
  deriving DecidableEq

namespace PasstiveSpell

/-- The fields that `passtiveSpell:ctor` sets. -/
def ctor (src : ℕ) (skilldata : SkillData) (time : ℚ) : PasstiveSpell where
  skilldata := skilldata
  source := src
  isDead := false
  lifeTime := if time = -1 then maxinteger else time
  attackTicks := 0
  bAttackTicks := 0
  targets := []

/-- The first part of `trigger`: what is counted, and `isTrigger`. -/
def isTrigger (self : PasstiveSpell) (cond random : ℤ) : PasstiveSpell × Bool :=
  let n32TriggerInfo := self.skilldata.n32TriggerInfo
  if self.skilldata.n32TriggerCondition = 1 ∧ cond = 1 then (self, random ≤ n32TriggerInfo)
  else if self.skilldata.n32TriggerCondition = 2 ∧ cond = 2 then
    let self := { self with attackTicks := self.attackTicks + 1 }
    if self.attackTicks ≥ n32TriggerInfo then ({ self with attackTicks := 0 }, true)
    else (self, false)
  else if self.skilldata.n32TriggerCondition = 3 ∧ cond = 3 then (self, random ≤ n32TriggerInfo)
  else if self.skilldata.n32TriggerCondition = 4 ∧ cond = 4 then
    let self := { self with bAttackTicks := self.bAttackTicks + 1 }
    if self.attackTicks ≥ n32TriggerInfo then ({ self with bAttackTicks := 0 }, true)
    else (self, false)
  else
    (self, 5 ≤ self.skilldata.n32TriggerCondition ∧ self.skilldata.n32TriggerCondition ≤ 9 ∧
      cond = self.skilldata.n32TriggerCondition)

end PasstiveSpell

end GameServer.Passtives

namespace GameServer.Casting.Cooldown

/-- `resetCd` -/
def resetCd (self : Cooldown) (id : ℤ) (time : ℚ) : Cooldown := self.put (base id) time

end GameServer.Casting.Cooldown
