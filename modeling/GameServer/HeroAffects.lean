import GameServer.AffectInvariant
import GameServer.Battle

/-!
# A hero under its affects

The table of affects beside what a hero has of it: the middle stats, which affects of the stats
change when they enter and give back when they exit, and the health, whose loss runs `onDead` and so
`clear`. Damage, healing and new maxima come from outside the table, between two calls or where a
hook has left. What a stat of the source or the owner is when an affect reads it comes with the
step. An error in the middle of `onTrigger` leaves what was added before it. Health and stats are
doubles.
-/

namespace GameServer.Affects

open Transition
open Double (addAll Exact amount scale)

inductive MidStat
  | Strength | StrengthPc | Agility | AgilityPc | Intelligence | IntelligencePc
  | HpMax | MpMax | MpMaxPc | Attack | AttackPc | AttackStrengthPc | AttackAgilityPc
  | AttackIntelligencePc | Defence | DefencePc | ASpeed | MSpeed | MSpeedPc
  | RecvHp | RecvHpPc | RecvMp | RecvMpPc | BaojiRate | BaojiTimes | Hit | Miss | Shield | Updamage
  deriving DecidableEq

/-- The values before any affect. -/
def MidStat.default : MidStat → ℚ
  | .BaojiTimes | .Hit | .Updamage => 1
  | _ => 0

/-- A share and an amount of a stat for `data[2] == 0`, else the amount `value`. -/
def Data.shareAnd (d : Data) (share stat : MidStat) (value : Option ℚ) :
    List (MidStat × Option ℚ) :=
  if d.get 2 = some 0 then [(share, d.get 3), (stat, d.get 4)] else [(stat, value)]

/-- The middle stats that `StatsAffect.onTrigger(1)` adds to, each with its amount where that is a
number. `value` is what `getBaseAttributeValue` returns. -/
def Data.changes (d : Data) (hpMax : ℚ) (value : Option ℚ) : List (MidStat × Option ℚ) :=
  match d.kind with
  | .upstr => d.shareAnd .StrengthPc .Strength value
  | .updex => d.shareAnd .AgilityPc .Agility value
  | .upinte => d.shareAnd .IntelligencePc .Intelligence value
  | .hp =>
    if d.get 2 = some 0 then
      [(.HpMax, (d.get 3).bind fun share =>
        (d.get 4).map fun v => Double.add (Double.mul share hpMax) v)]
    else [(.HpMax, value)]
  | .mp => d.shareAnd .MpMaxPc .MpMax value
  | .atk =>
    if d.get 2 = some 2 then [(.AttackStrengthPc, d.get 3), (.Attack, d.get 4)]
    else if d.get 2 = some 3 then [(.AttackAgilityPc, d.get 3), (.Attack, d.get 4)]
    else if d.get 2 = some 4 then [(.AttackIntelligencePc, d.get 3), (.Attack, d.get 4)]
    else d.shareAnd .AttackPc .Attack value
  | .«def» => d.shareAnd .DefencePc .Defence value
  | .wsp => if d.get 2 = some 0 then [(.ASpeed, d.get 4)] else [(.ASpeed, value)]
  | .mov => d.shareAnd .MSpeedPc .MSpeed value
  | .rehp => d.shareAnd .RecvHpPc .RecvHp value
  | .remp => d.shareAnd .RecvMpPc .RecvMp value
  | .critrate => [(.BaojiRate, d.get 3), (.BaojiTimes, d.get 4)]
  | .hitrate => [(.Hit, d.get 3)]
  | .dodrate => [(.Miss, d.get 3)]
  | .updamage => [(.Updamage, d.get 3)]
  | _ => []

def touches : Kind → List MidStat
  | .upstr => [.StrengthPc, .Strength]
  | .updex => [.AgilityPc, .Agility]
  | .upinte => [.IntelligencePc, .Intelligence]
  | .hp => [.HpMax]
  | .mp => [.MpMaxPc, .MpMax]
  | .atk => [.AttackStrengthPc, .AttackAgilityPc, .AttackIntelligencePc, .AttackPc, .Attack]
  | .«def» => [.DefencePc, .Defence]
  | .wsp => [.ASpeed]
  | .mov => [.MSpeedPc, .MSpeed]
  | .rehp => [.RecvHpPc, .RecvHp]
  | .remp => [.RecvMpPc, .RecvMp]
  | .critrate => [.BaojiRate, .BaojiTimes]
  | .hitrate => [.Hit]
  | .dodrate => [.Miss]
  | .updamage => [.Updamage]
  | _ => []

theorem mem_shareAnd {d : Data} {share X : MidStat} {value : Option ℚ} {c : MidStat × Option ℚ}
    (hc : c ∈ d.shareAnd share X value) : c.1 = share ∨ c.1 = X := by
  unfold Data.shareAnd at hc
  split_ifs at hc
  · rcases List.mem_cons.mp hc with rfl | hc
    · exact .inl rfl
    · exact .inr (congrArg Prod.fst (List.mem_singleton.mp hc))
  · exact .inr (congrArg Prod.fst (List.mem_singleton.mp hc))

theorem changes_touch {d : Data} {hpMax : ℚ} {value : Option ℚ} {c : MidStat × Option ℚ}
    (hc : c ∈ d.changes hpMax value) : c.1 ∈ touches d.kind := by
  cases hk : d.kind <;> simp only [Data.changes, hk, List.not_mem_nil] at hc
  case upstr | updex | upinte | mp | «def» | mov | rehp | remp =>
    rcases mem_shareAnd hc with h | h <;> simp [touches, h]
  case atk =>
    split_ifs at hc
    all_goals try rcases List.mem_cons.mp hc with rfl | hc
    all_goals try rw [List.mem_singleton.mp hc]
    all_goals try simp [touches]
    rcases mem_shareAnd hc with h | h <;> simp [h]
  case hp | wsp => split_ifs at hc <;> simp [touches, List.mem_singleton.mp hc]
  case critrate =>
    rcases List.mem_cons.mp hc with rfl | hc
    · simp [touches]
    · simp [touches, List.mem_singleton.mp hc]
  case hitrate | dodrate | updamage => simp [touches, List.mem_singleton.mp hc]

/-- A list of changes, up to the first that reads a missing number. -/
def upTo : List (MidStat × Option ℚ) → List (MidStat × ℚ)
  | (stat, some v) :: rest => (stat, v) :: upTo rest
  | _ => []

def Data.onTrigger (d : Data) (hpMax value : ℚ) : List (MidStat × ℚ) :=
  upTo (d.changes hpMax (some value))

theorem upTo_fst {stat : MidStat} {changes : List (MidStat × Option ℚ)}
    (h : stat ∉ changes.map Prod.fst) : stat ∉ (upTo changes).map Prod.fst := by
  induction changes with
  | nil => exact h
  | cons c rest ih =>
      obtain ⟨other, v⟩ := c
      rw [List.map_cons, List.mem_cons, not_or] at h
      cases v with
      | none => exact List.not_mem_nil
      | some v => exact List.not_mem_cons_of_ne_of_not_mem h.1 (ih h.2)

theorem changes_shield (d : Data) (hpMax : ℚ) (value : Option ℚ) :
    MidStat.Shield ∉ (d.changes hpMax value).map Prod.fst := by
  intro hmem
  obtain ⟨c, hc, hshield⟩ := List.mem_map.mp hmem
  have htouch := changes_touch hc
  rw [hshield] at htouch
  cases hk : d.kind <;> simp [hk, touches] at htouch

namespace AffectTable

/-- The affect that the step of this frame enters, with its data. -/
def enters (t : AffectTable) (b : Birth) : Frame → Option (ℕ × Data)
  | .buildAffects source (d :: _) skillId _ =>
    (d.kind.cls.bind fun c => Affect.new t.owner source d c skillId b).map fun _ => (t.next, d)
  | .update _ (i + 1) =>
    (t.affects[i]?.filter fun a => (t.heap a).status = .enter).map fun a => (a, (t.heap a).data)
  | _ => none

instance (t : AffectTable) : Decidable t.Outside := inferInstanceAs (Decidable (_ ∨ _))

end AffectTable

structure Hero where
  table : AffectTable
  hp : ℚ
  hpMax : ℚ
  mid : MidStat → ℚ
  /-- History: whether `onDead` ran after the last `onRaise`. -/
  fallen : Bool
  /-- History: what an affect added when it entered. -/
  given : ℕ → List (MidStat × ℚ)

namespace Hero

inductive Label
  | table (l : Affects.Label) (value : ℚ)
  | addHp (hp : ℚ) (hasSource : Bool)
  /-- `calAffect` of a damage. -/
  | damage (demage : ℚ)
  | calcHpMax (hpMax : ℚ)
  | onRaise

variable (self : Hero)

def kept : Bool :=
  0 < self.table.affectStateRefs .noDead || 0 < self.table.affectStateRefs .invincible

def onDead : Hero :=
  { self with
    fallen := true
    table := self.table.push [Op.clear.frame self.table.affects.length] }

def addHp (hp : ℚ) (hasSource : Bool) : Option Hero :=
  if self.hp ≤ 0 ∧ hp ≤ 0 ∨ ⌊hp⌋ = 0 then some self
  else if ⌊hp⌋ > 0 ∨ hasSource then
    let lastHp := self.hp
    let self := { self with hp := Battle.newHp lastHp ⌊hp⌋ self.hpMax self.kept }
    some (if lastHp > 0 ∧ self.hp ≤ 0 then self.onDead else self)
  else none

def addMid (changes : List (MidStat × ℚ)) : Hero := { self with mid := addAll changes self.mid }

/-- The shield takes its part, `addHp` takes the rest. -/
def damage (demage : ℚ) : Option Hero :=
  let shieldValue := self.mid .Shield
  if shieldValue > demage then (self.addMid [(.Shield, -demage)]).addHp (-demage) true
  else
    (self.addMid [(.Shield, -shieldValue)]).addHp (-Double.sub demage shieldValue) true

def calcHpMax (hpMax : ℚ) : Option Hero :=
  if self.hpMax = 0 then none
  else { self with hpMax }.addHp (Battle.recalc self.hp self.hpMax hpMax) true

def onRaise : Option Hero := { self with fallen := false }.addHp self.hpMax false

def takes (a : ℕ) (value : ℚ) : Hero :=
  self.addMid (scale (-1) ((self.table.heap a).data.onTrigger self.hpMax value))

def gives (a : ℕ) (d : Data) (value : ℚ) : Hero :=
  let changes := d.onTrigger self.hpMax value
  { self.addMid (scale 1 changes) with given := Function.update self.given a changes }

/-- What the step of the topmost frame does to the stats. -/
def hooks (l : Affects.Label) (value : ℚ) : Hero :=
  match l, self.table.stack with
  | .go b, f :: _ =>
    match self.table.exits f, self.table.enters b f with
    | some a, _ => self.takes a value
    | none, some (a, d) => self.gives a d value
    | none, none => self
  | _, _ => self

/-- Nothing but `onDead` clears the table. -/
def step : Label → Option Hero
  | .table (.invoke .clear) _ => none
  | .table l value => (self.table.step l).map fun table => { self.hooks l value with table }
  | .addHp hp hasSource => if self.table.Outside then self.addHp hp hasSource else none
  | .damage demage => if self.table.Outside then self.damage demage else none
  | .calcHpMax hpMax => if self.table.Outside then self.calcHpMax hpMax else none
  | .onRaise => if self.table.Outside then self.onRaise else none

def system (owner : ℕ) (hp hpMax : ℚ) : System Hero Label where
  init := ⟨.new owner, hp, hpMax, MidStat.default, false, fun _ => []⟩
  step := step

end Hero

end GameServer.Affects
