import GameServer.Passtive
import GameServer.Transition

/-!
# Auras

A passive skill of condition 7 or 8 looks for targets in every update of its source and compares
them with those of the last update: who comes is given its affects, and from who goes all affects of
that skill are taken. An affect is added by its kind, source and skill. Where somebody stands is the
answer of the query, which comes with the step. What the affects lead to are steps of their own.
-/

namespace GameServer.Passtives

open Affects Casting Transition

/-- The rows of the skills; there is no skill 0. -/
structure SkillRepository where
  rows : ℤ → Option SkillData
  row_id : ∀ id skilldata, rows id = some skilldata → skilldata.id = id
  row_zero : rows 0 = none

def SkillData.isAura (skilldata : SkillData) : Bool :=
  skilldata.n32TriggerCondition = 7 ∨ skilldata.n32TriggerCondition = 8

def SkillRepository.isAura (skills : SkillRepository) (id : ℤ) : Bool :=
  (skills.rows id).any SkillData.isAura

/-! ## Tables -/

/-- `origin` and `aimed` are history: the skill that the affect comes from, and whether it was given
to somebody in reach, and not to the source for having learned the skill. -/
structure Entry where
  affect : Affect
  origin : ℤ
  aimed : Bool

abbrev Table := List Entry

def Entry.replacedBy (old aff : Entry) : Bool :=
  old.affect.data.kind = aff.affect.data.kind ∧ old.affect.source = aff.affect.source ∧
    old.affect.skillId = aff.affect.skillId ∧ 0 < aff.affect.clock.effectTime

def replaceAdd (l : Table) (aff : Entry) : Table :=
  l.filter (fun old => !old.replacedBy aff) ++ [aff]

/-- `noskill` raises an error. -/
def addAffect (owner : ℕ) (l : Table) (source : ℕ) (skillId : ℤ) (aimed : Bool)
    (birth : Data → Birth) (d : Data) : Option Table :=
  match d.kind.cls with
  | some c =>
    (Affect.new owner (some source) d c skillId (birth d)).map fun aff =>
      replaceAdd l ⟨aff, skillId, aimed⟩
  | none => if d.kind = .noskill then none else some l

def buildAffects (owner : ℕ) (l : Table) (source : ℕ) (datas : List Data) (skillId : ℤ)
    (aimed : Bool) (birth : Data → Birth) : Option Table :=
  datas.foldlM (fun l d => addAffect owner l source skillId aimed birth d) l

def removeBySkillId (l : Table) (skillId : ℤ) : Table :=
  l.filter fun aff => aff.affect.skillId ≠ skillId

/-! ## The room -/

/-- `passtiveSpells` holds those of all entities, as far as they are auras. -/
structure World where
  passtiveSpells : List PasstiveSpell
  affects : ℕ → Table
  cooldown : ℕ → Cooldown
  alive : ℕ → Bool
  invincible : ℕ → Bool
  outSkill : ℕ → Bool

/-- What is drawn for a skill of type 0: whether it hits, and who dodges. -/
structure Luck where
  hit : Bool
  miss : ℕ → Bool

inductive World.Label
  /-- The `i`-th skill in `updatePasstiveSpells` of its source. -/
  | update (i : ℕ) (dt : ℚ) (targets : List ℕ) (luck : Luck) (birth : Data → Birth)
  | add (src : ℕ) (id : ℤ) (time : ℚ) (isPlayer : Bool) (luck : Luck) (birth : Data → Birth)
  /-- `removeSkill` marks the `i`-th skill. -/
  | removeSkill (i : ℕ)
  | onDead (e : ℕ) (isPet : Bool)
  | onRaise (e : ℕ)
  /-- Whatever else happens to the cooldowns of an entity. -/
  | cooldown (e : ℕ) (cooldown : Cooldown)
  /-- The `j`-th affect of the table has come to its end. -/
  | leave (t j : ℕ)
  /-- Another skill gives an affect. -/
  | give (t source : ℕ) (id : ℤ) (d : Data) (birth : Data → Birth)
  | states (e : ℕ) (invincible outSkill : Bool)

namespace World

variable (skills : SkillRepository) (w : World)

/-- A target that `trgggerAffect` passes over. -/
def skips (source t : ℕ) (skilldata : SkillData) (luck : Luck) : Bool :=
  w.invincible t ∧ source ≠ t ∨ w.outSkill t ∧ skilldata.n32SkillType = 0 ∨
    skilldata.n32SkillType = 0 ∧ luck.miss t

def trgggerAffect (source : ℕ) (datas : List Data) (targets : List ℕ) (skilldata : SkillData)
    (aimed : Bool) (luck : Luck) (birth : Data → Birth) : Option World :=
  if skilldata.n32SkillType = 0 ∧ luck.hit = false then some w
  else
    targets.foldlM (fun w t =>
      if w.skips source t skilldata luck then some w
      else (buildAffects t (w.affects t) source datas skilldata.id aimed birth).map fun l =>
        { w with affects := Function.update w.affects t l }) w

def removeFrom (targets : List ℕ) (skillId : ℤ) : World :=
  { w with affects := fun t =>
      if t ∈ targets then removeBySkillId (w.affects t) skillId else w.affects t }

/-- `passtiveSpell:onDead` -/
def passtiveDead (self : PasstiveSpell) : World :=
  let w := w.removeFrom (self.targets ++ [self.source]) self.skilldata.id
  { w with
    cooldown := Function.update w.cooldown self.source
      ((w.cooldown self.source).resetCd self.skilldata.id 0) }

def setPasstive (i : ℕ) (self : PasstiveSpell) : World :=
  { w with passtiveSpells := w.passtiveSpells.set i self }

/-- The part of `passtiveSpell:update` behind the tests. -/
def look (i : ℕ) (self : PasstiveSpell) (targets : List ℕ) (luck : Luck) (birth : Data → Birth) :
    Option World :=
  let adds := targets.filter (· ∉ self.targets)
  let dels := self.targets.filter (· ∉ targets)
  (w.trgggerAffect self.source self.skilldata.szAffectTargetAffect adds self.skilldata true luck
      birth).map
    fun w => (w.removeFrom dels self.skilldata.id).setPasstive i { self with targets }

def update (i : ℕ) (dt : ℚ) (targets : List ℕ) (luck : Luck) (birth : Data → Birth) :
    Option World := do
  let self ← w.passtiveSpells[i]?
  if w.alive self.source = false then none
  else if self.isDead then
    some { w.passtiveDead self with passtiveSpells := w.passtiveSpells.eraseIdx i }
  else
    let self := { self with lifeTime := self.lifeTime - dt }
    if self.lifeTime < 0 then some (w.setPasstive i { self with isDead := true })
    else if (w.cooldown self.source).getCdTime self.skilldata.id > 0 then
      some (w.setPasstive i self)
    else w.look i self targets luck birth

/-- `passtiveSpell.new`, for the list of its source. -/
def add (src : ℕ) (id : ℤ) (time : ℚ) (isPlayer : Bool) (luck : Luck) (birth : Data → Birth) :
    Option World := do
  let skilldata ← skills.rows id
  let w ← w.trgggerAffect src skilldata.szSelectTargetAffect [src] skilldata false luck birth
  some { w with
    passtiveSpells := w.passtiveSpells ++ [.ctor src skilldata time]
    cooldown :=
      if isPlayer then w.cooldown
      else Function.update w.cooldown src ((w.cooldown src).resetCd id skilldata.n32CD) }

/-- `Ientity:onDead`; `IPet:onDead` ends the skills of the pet one by one. -/
def onDead (e : ℕ) (isPet : Bool) : World :=
  let own := w.passtiveSpells.filter (·.source = e)
  let w := if isPet then own.foldl passtiveDead w else w
  { w with
    passtiveSpells := w.passtiveSpells.filter (·.source ≠ e)
    affects := Function.update w.affects e []
    alive := Function.update w.alive e false }

def step : Label → Option World
  | .update i dt targets luck birth => w.update i dt targets luck birth
  | .add src id time isPlayer luck birth => w.add skills src id time isPlayer luck birth
  | .removeSkill i =>
    (w.passtiveSpells[i]?).map fun self => w.setPasstive i { self with isDead := true }
  | .onDead e isPet => some (w.onDead e isPet)
  | .onRaise e => some { w with alive := Function.update w.alive e true }
  | .cooldown e cooldown => some { w with cooldown := Function.update w.cooldown e cooldown }
  | .leave t j => some { w with affects := Function.update w.affects t ((w.affects t).eraseIdx j) }
  | .give t source id d birth =>
    (addAffect t (w.affects t) source id true birth d).map fun l =>
      { w with affects := Function.update w.affects t l }
  | .states e invincible outSkill =>
    some { w with
      invincible := Function.update w.invincible e invincible
      outSkill := Function.update w.outSkill e outSkill }

def empty : World where
  passtiveSpells := []
  affects _ := []
  cooldown _ := ⟨fun _ => none, [], fun _ => none, fun _ => none⟩
  alive _ := false
  invincible _ := false
  outSkill _ := false

def system : System World Label where
  init := empty
  step := step skills

/-! ## Independence -/

/-- The entity stands where an aura of the source has reached it. -/
def InRange (source t : ℕ) (skilldata : SkillData) : Prop :=
  w.alive source = true ∧ (w.cooldown source).getCdTime skilldata.id ≤ 0 ∧
    ∃ self ∈ w.passtiveSpells, self.source = source ∧ self.skilldata = skilldata ∧ t ∈ self.targets

/-- Whoever is alive holds the affects of an aura from exactly the sources that reach it. Data
without a class makes no affect. -/
def Independent : Prop :=
  ∀ t, w.alive t = true → ∀ id skilldata, skills.rows id = some skilldata →
    skilldata.isAura = true → ∀ source,
      (w.InRange source t skilldata → ∀ d ∈ skilldata.szAffectTargetAffect, d.kind.cls ≠ none →
        ∃ aff ∈ w.affects t, aff.affect.source = some source ∧ aff.origin = id ∧ aff.aimed = true ∧
          aff.affect.data.kind = d.kind) ∧
      ((∃ aff ∈ w.affects t, aff.affect.source = some source ∧ aff.origin = id ∧ aff.aimed = true) →
        w.InRange source t skilldata)

end World

end GameServer.Passtives
