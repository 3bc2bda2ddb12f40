import GameServer.HeroAffects

/-!
# The stats of an entity

Every stat has a middle value, which affects change, and a value, which a calculation sets from the
middle values, the level, the row of the entity and for the attack from three other values. What
`StatsAffect.onTrigger` adds is read off the owner and the source before it changes anything; then
it runs the calculations of its branch. A calculation of the health may kill, and what dies gives
back what its affects gave, so that other calls of `onTrigger` come between two calculations. A
quotient by 0, which is no number in Lua, is 0 here, apart from `getBaseAttributeValue`, where it
counts as an error. Stats are doubles; the health and the mana that `addHp` and `addMp` leave are
not rounded.
-/

namespace GameServer.Stats

open Affects
open Double (add sub mul div addAll scale)

/-- What the calculations read of the row of the entity. -/
structure AttDat where
  n32Strength : ℚ
  n32LStrength : ℚ
  n32Agility : ℚ
  n32LAgility : ℚ
  n32Intelligence : ℚ
  n32LIntelligence : ℚ
  n32MainAtt : ℤ
  n32Hp : ℚ
  n32Mp : ℚ
  n32Attack : ℚ
  n32Defence : ℚ
  n32ASpeed : ℚ
  n32MSpeed : ℚ
  n32RecvHp : ℚ
  n32RecvMp : ℚ

/-- A row of `lzmRepository`: what a point of an attribute is worth. -/
structure Lzm where
  n32Hp : ℚ
  n32Mp : ℚ
  n32Attack : ℚ
  n32Defence : ℚ
  n32ASpeed : ℚ
  n32RecvHp : ℚ
  n32RecvMp : ℚ

/-- The rows 1 to 3: strength, agility and intelligence. -/
structure LzmRepository where
  strength : Lzm
  agility : Lzm
  intelligence : Lzm

inductive Body
  | IMapPlayer
  | IMonster
  | IBuilding
  | IPet (n32Type : ℤ) (HurtPc DamagePc : ℚ)
  deriving DecidableEq

/-- `mid` and `stat` are the `s_mid_` and `s_` fields; nothing adds to the middle share of the
maximal health. `kept` says whether the entity has `NoDead` or `Invincible`. -/
structure Entity where
  body : Body
  attDat : AttDat
  Level : ℤ
  mid : MidStat → ℚ
  midHpMaxPc : ℚ
  stat : MidStat → ℚ
  Hp : ℚ
  Mp : ℚ
  moveSpeed : ℚ
  kept : Bool

namespace Entity

variable (lzm : LzmRepository) (self : Entity)

def set (X : MidStat) (v : ℚ) : Entity := { self with stat := Function.update self.stat X v }

/-- `IMapPlayer.addHp` and `IMonster.addHp` leave the dead as they are. -/
def addHp (hp : ℚ) : Entity :=
  if (self.body = .IMapPlayer ∨ self.body = .IMonster) ∧ self.Hp ≤ 0 ∧ hp ≤ 0 ∨ ⌊hp⌋ = 0 then self
  else
    let Hp := Battle.mClamp (self.Hp + ⌊hp⌋) 0 (self.stat .HpMax)
    { self with Hp := if self.kept ∧ Hp ≤ 0 then 1 else Hp }

def addMp (mp : ℚ) : Entity :=
  if ⌊mp⌋ = 0 then self
  else { self with Mp := Battle.mClamp (self.Mp + ⌊mp⌋) 0 (self.stat .MpMax) }

/-! ## Calculations -/

def ownStrength : ℚ := add self.attDat.n32Strength (mul self.attDat.n32LStrength (self.Level - 1))

def ownAgility : ℚ := add self.attDat.n32Agility (mul self.attDat.n32LAgility (self.Level - 1))

def ownIntelligence : ℚ :=
  add self.attDat.n32Intelligence (mul self.attDat.n32LIntelligence (self.Level - 1))

/-- A stat and what the three attributes add to it. -/
def withWorth (f : Lzm → ℚ) (v : ℚ) : ℚ :=
  add (add (add v ⌊mul self.ownStrength (f lzm.strength)⌋)
    ⌊mul self.ownAgility (f lzm.agility)⌋) ⌊mul self.ownIntelligence (f lzm.intelligence)⌋

/-- `math.floor(own * (1.0 + pc))` and then the middle value -/
def raised (own : ℚ) (pc : ℚ) (X : MidStat) : ℚ := add ⌊mul own (add 1 pc)⌋ (self.mid X)

def strength : ℚ := ⌊self.raised self.ownStrength (self.mid .StrengthPc) .Strength⌋

def agility : ℚ := ⌊self.raised self.ownAgility (self.mid .AgilityPc) .Agility⌋

def intelligence : ℚ :=
  ⌊self.raised self.ownIntelligence (self.mid .IntelligencePc) .Intelligence⌋

def hpMax : ℚ :=
  self.withWorth lzm Lzm.n32Hp (self.raised self.attDat.n32Hp self.midHpMaxPc .HpMax)

def mpMax : ℚ :=
  self.withWorth lzm Lzm.n32Mp (self.raised self.attDat.n32Mp (self.mid .MpMaxPc) .MpMax)

/-- What the main attribute adds to the attack. -/
def addVal : ℚ :=
  if self.attDat.n32MainAtt = 1 then ⌊mul self.ownStrength lzm.strength.n32Attack⌋
  else if self.attDat.n32MainAtt = 2 then ⌊mul self.ownAgility lzm.agility.n32Attack⌋
  else if self.attDat.n32MainAtt = 3 then ⌊mul self.ownIntelligence lzm.intelligence.n32Attack⌋
  else 0

def attack : ℚ :=
  let extra := add (add (mul (self.mid .AttackStrengthPc) (self.stat .Strength))
    (mul (self.mid .AttackAgilityPc) (self.stat .Agility)))
    (mul (self.mid .AttackIntelligencePc) (self.stat .Intelligence))
  add (self.raised (add self.attDat.n32Attack (self.addVal lzm)) (self.mid .AttackPc) .Attack) extra

def defence : ℚ :=
  ⌊self.withWorth lzm Lzm.n32Defence
    (self.raised self.attDat.n32Defence (self.mid .DefencePc) .Defence)⌋

def aSpeed : ℚ :=
  div self.attDat.n32ASpeed (add (add (add (add 1 (self.mid .ASpeed))
    (mul self.ownStrength lzm.strength.n32ASpeed)) (mul self.ownAgility lzm.agility.n32ASpeed))
    (mul self.ownIntelligence lzm.intelligence.n32ASpeed))

def mSpeed : ℚ := add (mul self.attDat.n32MSpeed (add 1 (self.mid .MSpeedPc))) (self.mid .MSpeed)

def recvHp : ℚ :=
  self.withWorth lzm Lzm.n32RecvHp
    (self.raised self.attDat.n32RecvHp (self.mid .RecvHpPc) .RecvHp)

def recvMp : ℚ :=
  self.withWorth lzm Lzm.n32RecvMp
    (self.raised self.attDat.n32RecvMp (self.mid .RecvMpPc) .RecvMp)

def calcStrength : Entity := self.set .Strength self.strength

def calcAgility : Entity := self.set .Agility self.agility

def calcIntelligence : Entity := self.set .Intelligence self.intelligence

def calcHpMax : Entity :=
  let hpMax := self.hpMax lzm
  (self.set .HpMax hpMax).addHp (Battle.recalc self.Hp (self.stat .HpMax) hpMax)

def calcMpMax : Entity :=
  let mpMax := self.mpMax lzm
  (self.set .MpMax mpMax).addMp (Battle.recalc self.Mp (self.stat .MpMax) mpMax)

def calcAttack : Entity := self.set .Attack (self.attack lzm)

def calcDefence : Entity := self.set .Defence (self.defence lzm)

def calcASpeed : Entity := self.set .ASpeed (self.aSpeed lzm)

def calcMSpeed : Entity :=
  { self.set .MSpeed self.mSpeed with moveSpeed := max self.mSpeed 0 }

def calcRecvHp : Entity := self.set .RecvHp (self.recvHp lzm)

def calcRecvMp : Entity := self.set .RecvMp (self.recvMp lzm)

/-- The body of the function is commented out. -/
def calcAttackRange : Entity := self

def calcBaoji : Entity :=
  (self.set .BaojiRate (self.mid .BaojiRate)).set .BaojiTimes (self.mid .BaojiTimes)

def resetBaoji : Entity := (self.set .BaojiRate 0).set .BaojiTimes 1

def calcHit : Entity := self.set .Hit (self.mid .Hit)

def calcMiss : Entity := self.set .Miss (self.mid .Miss)

def calUpdamage : Entity := self.set .Updamage (self.mid .Updamage)

def calShield : Entity := self.set .Shield (self.mid .Shield)

end Entity

inductive Calc
  | calcStrength | calcAgility | calcIntelligence | calcHpMax | calcMpMax | calcAttack | calcDefence
  | calcASpeed | calcMSpeed | calcRecvHp | calcRecvMp | calcAttackRange | calcBaoji | calcHit
  | calcMiss | calUpdamage | calShield
  deriving DecidableEq

def Calc.run (lzm : LzmRepository) (self : Entity) : Calc → Entity
  | .calcStrength => self.calcStrength
  | .calcAgility => self.calcAgility
  | .calcIntelligence => self.calcIntelligence
  | .calcHpMax => self.calcHpMax lzm
  | .calcMpMax => self.calcMpMax lzm
  | .calcAttack => self.calcAttack lzm
  | .calcDefence => self.calcDefence lzm
  | .calcASpeed => self.calcASpeed lzm
  | .calcMSpeed => self.calcMSpeed
  | .calcRecvHp => self.calcRecvHp lzm
  | .calcRecvMp => self.calcRecvMp lzm
  | .calcAttackRange => self.calcAttackRange
  | .calcBaoji => self.calcBaoji
  | .calcHit => self.calcHit
  | .calcMiss => self.calcMiss
  | .calUpdamage => self.calUpdamage
  | .calShield => self.calShield

/-- `IMapPlayer.calcStats` -/
def calcStats : List Calc :=
  [.calcStrength, .calcIntelligence, .calcAgility, .calcHpMax, .calcMpMax, .calcAttack,
    .calcDefence, .calcASpeed, .calcMSpeed, .calcRecvHp, .calcRecvMp, .calcAttackRange, .calcBaoji,
    .calcHit, .calcMiss, .calUpdamage, .calShield]

def Entity.calcStats (lzm : LzmRepository) (self : Entity) : Entity :=
  Stats.calcStats.foldl (Calc.run lzm) self

/-! ## What an affect reads of its source -/

/-- The middle value behind `getMid<X>Pc`; there is none for the health and the mana. -/
def Entity.midPercent (self : Entity) : MidStat → Option ℚ
  | .Attack => some (self.mid .AttackPc)
  | .Strength => some (self.mid .StrengthPc)
  | .Agility => some (self.mid .AgilityPc)
  | .Intelligence => some (self.mid .IntelligencePc)
  | .Defence => some (self.mid .DefencePc)
  | .HpMax => some self.midHpMaxPc
  | .MpMax => some (self.mid .MpMaxPc)
  | _ => none

/-- The stats 1 to 7 of `attIdToFuns`; 8 and 9 are the health and the mana. -/
def attIdToFuns (attId : ℚ) : Option MidStat :=
  if attId = 1 then some .Attack else if attId = 2 then some .Strength
  else if attId = 3 then some .Agility else if attId = 4 then some .Intelligence
  else if attId = 5 then some .Defence else if attId = 6 then some .HpMax
  else if attId = 7 then some .MpMax else none

/-- What `getAttributeValue` multiplies by the rate. -/
def Entity.attribut (self : Entity) (attId : ℚ) : Option ℚ :=
  if attId = 8 then some self.Hp else if attId = 9 then some self.Mp
  else if attId = 10 then some (sub (self.stat .HpMax) self.Hp)
  else if attId = 11 then some (sub (self.stat .MpMax) self.Mp)
  else (attIdToFuns attId).map self.stat

/-- `getAttributeValue`. A number that is no `attId` at all gives 0, since `assert(0, …)` holds. -/
def Entity.getAttributeValue (source : Entity) (d : Data) : Option ℚ := do
  let attId ← d.get 2
  if attId = 0 then
    let value ← d.get 4
    some ⌊value⌋
  else if 0 < attId ∧ attId ≤ 9 ∨ attId = 10 ∨ attId = 11 then
    let v ← source.attribut attId
    let rate ← d.get 3
    let value ← d.get 4
    some ⌊add (mul v rate) value⌋
  else some 0

/-- A share of what the source has of the stat `X` without the middle values. -/
def Entity.originValue (self : Entity) (rate : ℚ) (X : MidStat) (midPecent : ℚ) : ℚ :=
  mul (mul rate (sub ⌊self.stat X⌋ (self.mid X))) (div 1 (add 1 midPecent))

/-- `getBaseAttributeValue`, or an error. -/
def Entity.getBaseAttributeValue (source : Entity) (d : Data) : Option ℚ := do
  let attId ← d.get 2
  let X ← attIdToFuns attId
  let midPecent ← source.midPercent X
  let rate ← d.get 3
  if add 1 midPecent = 0 then none else some ⌊source.originValue rate X midPecent⌋

/-! ## The hooks -/

inductive Hook
  | onEnter
  | onExit
  deriving DecidableEq

/-- The argument of `onTrigger` -/
def Hook.add : Hook → ℚ
  | .onEnter => 1
  | .onExit => -1

/-- Every amount is a number. -/
def complete (l : List (MidStat × Option ℚ)) : Option (List (MidStat × ℚ)) :=
  l.mapM fun c => c.2.map fun v => (c.1, v)

/-- The amounts of one `onTrigger` of `owner`, or an error. -/
def Entity.amounts (owner source : Entity) (d : Data) : Option (List (MidStat × ℚ)) :=
  complete (d.changes (owner.stat .HpMax) (source.getBaseAttributeValue d))

/-- The calculations of the branch. -/
def Hook.calcs (h : Hook) : Kind → List Calc
  | .upstr => .calcStrength :: lzm
  | .updex => .calcAgility :: lzm
  | .upinte => .calcIntelligence :: lzm
  | .hp => [.calcHpMax]
  | .mp => [.calcMpMax]
  | .atk => [.calcAttack]
  | .«def» => [.calcDefence]
  | .wsp => [.calcASpeed]
  | .mov => [.calcMSpeed]
  | .rehp => [.calcRecvHp]
  | .remp => [.calcRecvMp]
  | .critrate => if h = .onEnter then [.calcBaoji] else []
  | .hitrate => [.calcHit]
  | .dodrate => [.calcMiss]
  | _ => []
where
  /-- What comes of the three attributes. -/
  lzm : List Calc :=
    [.calcHpMax, .calcMpMax, .calcAttack, .calcDefence, .calcASpeed, .calcMSpeed, .calcRecvHp,
      .calcRecvMp]

def Entity.addMid (self : Entity) (h : Hook) (l : List (MidStat × ℚ)) : Entity :=
  { self with mid := addAll (scale h.add l) self.mid }

end GameServer.Stats
