import Mathlib.Tactic

/-!
# Affects

One affect is one effect on an entity: damage, a stun, an aura, a charge. `AffectTable.addAffect`
chooses a class by the first entry of the effect's data; the constructors set how long it lasts, and
four classes hold states of the entity (`control`) between `onEnter` and `onExit`. The table that
owns the affects and runs their hooks is in `AffectTable`.
-/

namespace GameServer.Affects

/-- The values of `data[1]` that `addAffect` knows. -/
inductive Kind
  | curehp | curemp | damage | shield | burnmp
  | blink | invincible | outskill | noskill | repel | charge | love | getblood | changeMod
  | «show» | nodead
  | ctrl | upstr | updex | upinte | hp | mp | atk | «def» | wsp | mov | rng | rehp | remp
  | critrate | hitrate | dodrate | updamage
  | getnew | summon | addskill | changeatk | suicide | other
  deriving DecidableEq

/-- The classes `addAffect` makes affects of. -/
inductive Class
  | skillAffect | blinkAffect | invincibleAffect | outskillAffect | repelAffect | chargeAffect
  | loveAffect | getbloodAffect | changeModAffect | showAffect | nodeadAffect | statsAffect
  | getnewAffect | summonAffect | addskillAffect | changeatkAffect
  deriving DecidableEq

/-- The class of a kind. `noskill` names a class its module never loads, `suicide` acts at once. -/
def Kind.cls : Kind → Option Class
  | .curehp | .curemp | .damage | .shield | .burnmp => some .skillAffect
  | .blink => some .blinkAffect
  | .invincible => some .invincibleAffect
  | .outskill => some .outskillAffect
  | .repel => some .repelAffect
  | .charge => some .chargeAffect
  | .love => some .loveAffect
  | .getblood => some .getbloodAffect
  | .changeMod => some .changeModAffect
  | .«show» => some .showAffect
  | .nodead => some .nodeadAffect
  | .ctrl | .upstr | .updex | .upinte | .hp | .mp | .atk | .«def» | .wsp | .mov | .rng
  | .rehp | .remp | .critrate | .hitrate | .dodrate | .updamage => some .statsAffect
  | .getnew => some .getnewAffect
  | .summon => some .summonAffect
  | .addskill => some .addskillAffect
  | .changeatk => some .changeatkAffect
  | .noskill | .suicide | .other => none

structure Data where
  kind : Kind
  args : List ℚ
  deriving DecidableEq

/-- `data[n]` for `n` from 2 on. -/
def Data.get (d : Data) (n : ℕ) : Option ℚ := d.args[n - 2]?

/-- `data[n] or 0`. -/
def Data.getOr (d : Data) (n : ℕ) : ℚ := (d.get n).getD 0

/-! ## Affect states -/

inductive AffectState
  | noMove | noAttack | noSpell | invincible | outSkill | noDead | goldBody | loved | crit
  deriving DecidableEq

def AffectState.value : AffectState → ℕ
  | .noMove => 1 <<< 0
  | .noAttack => 1 <<< 1
  | .noSpell => 1 <<< 2
  | .invincible => 1 <<< 3
  | .outSkill => 1 <<< 4
  | .noDead => 1 <<< 5
  | .goldBody => 1 <<< 6
  | .loved => 1 <<< 7
  | .crit => 1 <<< 8

/-- `a & b` on 64-bit integers. -/
def bit_and (a : ℤ) (b : ℕ) : BitVec 64 := BitVec.ofInt 64 a &&& BitVec.ofNat 64 b

/-- The states that a mask names, as `addAffectState` reads it. -/
def Names (argState : ℤ) (s : AffectState) : Prop := bit_and argState s.value ≠ 0

instance (argState : ℤ) (s : AffectState) : Decidable (Names argState s) :=
  inferInstanceAs (Decidable (_ ≠ _))

/-- The mask a new affect hands to `addAffectState`: `self.control` of three classes, `data[2]` of
a `ctrl` affect, where a missing or fractional mask is a Lua error (`none`). -/
def Data.control (d : Data) : Option (Option ℤ) :=
  match d.kind with
  | .invincible => some (some (AffectState.value .invincible))
  | .outskill => some (some (AffectState.value .outSkill))
  | .nodead => some (some (AffectState.value .noDead))
  | .ctrl =>
    match d.get 2 with
    | some mask => if mask.den = 1 then some (some mask.num) else none
    | none => none
  | _ => some none

/-! ## Construction -/

inductive Status
  | enter | exec | exit
  deriving DecidableEq

/-- What one `new` reads of the world: the id `uuid.gen` returns, the length that `charge` and
`repel` compute from positions and `getblood` and `getnew` take from the effect tables, and
whether the owner is dead when `repelAffect.onEnter` asks. -/
structure Birth where
  projectId : ℕ
  time : ℚ
  ownerDead : Bool

structure Clock where
  effectTime : ℚ
  leftTime : ℚ
  triggerTime : ℚ

/-- `entered`, `exited` and `listed` are history: how often `onEnter` and `onExit` were called and
whether the affect was ever put into the table. No function reads them. -/
structure Affect where
  data : Data
  cls : Class
  source : Option ℕ
  skillId : ℤ
  projectId : ℕ
  control : Option ℤ
  status : Status
  clock : Clock
  entered : ℕ
  exited : ℕ
  listed : Bool

def seconds (x : ℚ) : ℚ := x * 1000

/-- `effectTime` as the constructor of the class leaves it; `none` is a Lua error. -/
def Class.effectTime (c : Class) (d : Data) (time : ℚ) : Option ℚ :=
  match c with
  | .skillAffect => some (seconds (d.getOr 6))
  | .blinkAffect => some 1
  | .invincibleAffect | .loveAffect => some (seconds (d.getOr 2))
  | .outskillAffect | .nodeadAffect | .changeModAffect | .showAffect => some (d.getOr 2)
  | .repelAffect | .chargeAffect | .getbloodAffect | .getnewAffect => some time
  | .statsAffect =>
    let effectTime := if d.kind = .ctrl then d.getOr 5 else d.getOr 6
    some (seconds (if effectTime = -1 then 99999 else effectTime))
  | .summonAffect => some 0
  | .addskillAffect => (d.get 3).map fun t => if t = -1 then 99999999 else seconds t
  | .changeatkAffect => (d.get 3).map seconds

/-- Whether the constructor hands its `skillId` on to `Affect.ctor`; the others leave 0. -/
def Class.passesSkillId : Class → Bool
  | .skillAffect | .blinkAffect | .loveAffect | .statsAffect | .summonAffect | .addskillAffect
  | .changeatkAffect => true
  | _ => false

def Affect.new (owner : ℕ) (source : Option ℕ) (d : Data) (c : Class) (skillId : ℤ) (b : Birth) :
    Option Affect :=
  match c.effectTime d b.time, d.control with
  | some effectTime, some control =>
    some
      { data := d
        cls := c
        source := if c = .repelAffect ∧ source = none then some owner else source
        skillId := if c.passesSkillId then skillId else 0
        projectId := b.projectId
        control := control
        status := .enter
        clock := ⟨effectTime, effectTime, if d.getOr 5 ≠ 0 then -1 else 0⟩
        entered := 0
        exited := 0
        listed := false }
  | _, _ => none

/-! ## Time -/

/-- The time an `onExec(dt)` counts down. -/
def Affect.elapse (aff : Affect) (dt : ℚ) : Clock :=
  match aff.cls with
  | .skillAffect | .getnewAffect | .showAffect =>
    { aff.clock with leftTime := aff.clock.leftTime - dt }
  | _ => { aff.clock with effectTime := aff.clock.effectTime - dt }

/-- The test on which `onExec` calls `onExit`. -/
def Class.expired (c : Class) (k : Clock) : Prop :=
  match c with
  | .skillAffect | .getnewAffect | .showAffect => k.leftTime ≤ 0
  | .statsAffect | .summonAffect => k.effectTime ≤ 0
  | _ => k.effectTime < 0

instance (c : Class) (k : Clock) : Decidable (c.expired k) := by
  unfold Class.expired
  cases c <;> infer_instance

/-! ## Where the hooks leave the table -/

/-- When a hook runs code of the owner, its spell or the entity manager: not at all, before it sets
the status or after. Inside that code anything may come back to the table. -/
inductive Leave
  | never | before | after
  deriving DecidableEq

/-- `onEnter` sets the status first in every class. -/
def Class.onEnterLeaves : Class → Bool
  | .statsAffect | .getbloodAffect | .summonAffect | .addskillAffect | .getnewAffect
  | .chargeAffect | .loveAffect | .repelAffect | .changeatkAffect => true
  | _ => false

def Class.onExitLeaves : Class → Leave
  | .statsAffect | .chargeAffect | .blinkAffect | .loveAffect | .changeatkAffect => .before
  | .addskillAffect => .after
  | _ => .never

/-- The kinds whose affects hold states of their owner. -/
def Kind.Holding (k : Kind) : Prop :=
  k = .invincible ∨ k = .outskill ∨ k = .nodead ∨ k = .ctrl

theorem Data.control_isSome {d : Data} {control : Option ℤ} (h : d.control = some control) :
    control.isSome ↔ d.kind.Holding := by
  cases hk : d.kind with
  | ctrl =>
      cases hm : d.get 2 with
      | none => simp [Data.control, hk, hm] at h
      | some mask =>
          by_cases hden : mask.den = 1
          · simp only [Data.control, hk, hm, if_pos hden, Option.some.injEq] at h
            subst h
            simp [Kind.Holding]
          · simp [Data.control, hk, hm, hden] at h
  | _ =>
      simp only [Data.control, hk, Option.some.injEq] at h
      subst h
      simp [Kind.Holding]

theorem Affect.new_eq {owner : ℕ} {source : Option ℕ} {d : Data} {c : Class} {skillId : ℤ}
    {b : Birth} {aff : Affect} (h : Affect.new owner source d c skillId b = some aff) :
    aff.data = d ∧ aff.cls = c ∧ aff.exited = 0 ∧ aff.entered = 0 ∧ aff.listed = false ∧
      d.control = some aff.control := by
  unfold Affect.new at h
  cases ht : c.effectTime d b.time with
  | none => simp [ht] at h
  | some effectTime =>
      cases hc : d.control with
      | none => simp [ht, hc] at h
      | some control =>
          simp only [ht, hc, Option.some.injEq] at h
          subst h
          exact ⟨rfl, rfl, rfl, rfl, rfl, rfl⟩

end GameServer.Affects
