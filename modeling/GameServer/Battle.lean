import GameServer.Rounding
import GameServer.Transition

/-!
# Health, deaths and raises of the heroes of a battle

`addHp` of a hero runs `onDead` when the health falls to 0, and counts the death behind it, where it
looks at the health once more. What `onDead` calls (affects that end, experience for the others) may
call `addHp` again: `stack` holds the calls that wait for their `onDead`. An error is `none`.
Health is a double; a share of a maximum of 0 is not a number, and such a call is left out.
-/

namespace GameServer.Battle

open Transition

/-- What `source` may be: a hero, or a building, a monster or a pet. -/
inductive Source (ι : Type*)
  | none
  | hero (i : ι)
  | other
  deriving DecidableEq

structure Hero where
  hp : ℚ
  hpMax : ℚ
  /-- The counts of the states. -/
  noDead : ℤ
  invincible : ℤ
  level : ℤ
  raiseTime : ℚ
  /-- `HonorData[4]` and `HonorData[5]` -/
  kills : ℕ
  deaths : ℕ
  /-- History: how often `onDead` ran, and whether it did after the last `onRaise`. -/
  onDeads : ℕ
  fallen : Bool
  /-- History: the time that the last `onDead` gave, the time since then, and both at each
  `onRaise`. -/
  given : ℚ
  waited : ℚ
  raises : List (ℚ × ℚ)

structure Rules (ι : Type*) where
  RaiseTime : ℚ
  isRed : ι → Bool

structure State (ι : Type*) where
  heroes : ι → Hero
  RedKillNum : ℕ
  BlueKillNum : ℕ
  stack : List (ι × Source ι)

def mClamp (a min max : ℚ) : ℚ := if a < min then min else if a > max then max else a

/-- The health that `Ientity.addHp` leaves. `kept` says whether the entity has `NoDead` or
`Invincible`. -/
def newHp (lastHp : ℚ) (hp : ℤ) (hpMax : ℚ) (kept : Bool) : ℚ :=
  let hp := mClamp (Double.add lastHp hp) 0 hpMax
  if kept = true ∧ hp ≤ 0 then 1 else hp

/-- `pc * self:getHpMax()` in `calcHpMax` -/
def portion (hp hpMax hpMax' : ℚ) : ℚ := Double.mul (Double.div hp hpMax) hpMax'

/-- What `calcHpMax` adds to the health when the maximum changes. -/
def recalc (hp hpMax hpMax' : ℚ) : ℚ := Double.sub ⌊portion hp hpMax hpMax'⌋ hp

namespace Hero

def isDead (self : Hero) : Bool := self.hp ≤ 0

/-- The states in which health stays above 0. -/
def kept (self : Hero) : Bool := 0 < self.noDead || 0 < self.invincible

def healthAfter (self : Hero) (hp : ℤ) : ℚ := newHp self.hp hp self.hpMax self.kept

/-- `Ientity.addHp`, with whether it runs `onDead`. -/
def addHp (self : Hero) (hp : ℚ) (hasSource : Bool) : Option (Hero × Bool) :=
  if ⌊hp⌋ = 0 then some (self, false)
  else if ⌊hp⌋ > 0 ∨ hasSource then
    let lastHp := self.hp
    let self := { self with hp := self.healthAfter ⌊hp⌋ }
    some (self, lastHp > 0 ∧ self.hp ≤ 0)
  else none

/-- What `onDead` does to the hero itself. -/
def onDead (self : Hero) (time : ℚ) : Hero :=
  { self with
    raiseTime := self.level * time
    onDeads := self.onDeads + 1
    fallen := true
    given := self.level * time
    waited := 0 }

/-- The new health that goes with a new maximum. -/
def share (self : Hero) (hpMax : ℚ) : ℚ := recalc self.hp self.hpMax hpMax

end Hero

variable {ι : Type*} [DecidableEq ι] (rules : Rules ι)

namespace State

def setHero (s : State ι) (h : ι) (hero : Hero) : State ι :=
  { s with heroes := Function.update s.heroes h hero }

/-- The end of `IMapPlayer.addHp`. -/
def count (s : State ι) (h : ι) (source : Source ι) : State ι :=
  if (s.heroes h).hp ≤ 0 then
    let s := s.setHero h { s.heroes h with deaths := (s.heroes h).deaths + 1 }
    match source with
    | .hero i => s.setHero i { s.heroes i with kills := (s.heroes i).kills + 1 }
    | _ => s
  else s

/-- `IMapPlayer.addHp`, up to the calls of `onDead` where it runs. -/
def addHp (s : State ι) (h : ι) (hp : ℚ) (source : Source ι) : Option (State ι) :=
  let self := s.heroes h
  if self.hp ≤ 0 ∧ hp ≤ 0 then some s
  else
    match self.addHp hp (source ≠ .none) with
    | none => none
    | some (self, true) =>
        some { s.setHero h (self.onDead rules.RaiseTime) with stack := (h, source) :: s.stack }
    | some (self, false) => some ((s.setHero h self).count h source)

/-- The end of `onDead`, and of the call that ran it. -/
def ret (s : State ι) : Option (State ι) :=
  match s.stack with
  | [] => none
  | (h, source) :: stack =>
      let s := { s with stack }
      let s :=
        if rules.isRed h then { s with BlueKillNum := s.BlueKillNum + 1 }
        else { s with RedKillNum := s.RedKillNum + 1 }
      some (s.count h source)

/-- `calcHpMax` at a level, with the maximum that its formula gives. -/
def calcHpMax (s : State ι) (h : ι) (level : ℤ) (hpMax : ℚ) : Option (State ι) :=
  let self := s.heroes h
  if self.hpMax = 0 then none
  else (s.setHero h { self with level, hpMax }).addHp rules h (self.share hpMax) (.hero h)

def recvHpMp (s : State ι) (h : ι) (recvHp : ℚ) : Option (State ι) :=
  if (s.heroes h).hp ≤ 0 then some s else s.addHp rules h recvHp (.hero h)

def onRaise (s : State ι) (h : ι) : Option (State ι) :=
  let self := s.heroes h
  let s := s.setHero h { self with
    fallen := false, raises := self.raises ++ [(self.given, self.waited)] }
  s.addHp rules h self.hpMax .none

/-- The part of `IMapPlayer.update` that counts down. -/
def update (s : State ι) (h : ι) (dt : ℚ) : Option (State ι) :=
  let self := { s.heroes h with waited := (s.heroes h).waited + dt }
  if self.raiseTime > 0 then
    let self := { self with raiseTime := self.raiseTime - dt }
    if self.raiseTime ≤ 0 then (s.setHero h self).onRaise rules h else some (s.setHero h self)
  else some (s.setHero h self)

end State

inductive Label (ι : Type*)
  | addHp (h : ι) (hp : ℚ) (source : Source ι)
  | ret
  | calcHpMax (h : ι) (level : ℤ) (hpMax : ℚ)
  | recvHpMp (h : ι) (recvHp : ℚ)
  /-- The states change. -/
  | affect (h : ι) (noDead invincible : ℤ)
  /-- A tick of the room, outside of any other call. -/
  | update (h : ι) (dt : ℚ)

def step (s : State ι) : Label ι → Option (State ι)
  | .addHp h hp source => s.addHp rules h hp source
  | .ret => s.ret rules
  | .calcHpMax h level hpMax => s.calcHpMax rules h level hpMax
  | .recvHpMp h recvHp => s.recvHpMp rules h recvHp
  | .affect h noDead invincible => some (s.setHero h { s.heroes h with noDead, invincible })
  | .update h dt => if s.stack = [] then s.update rules h dt else none

/-- The heroes start with all their health, at level 1. -/
def system (hpMax : ι → ℚ) : System (State ι) (Label ι) where
  init := ⟨fun i => ⟨hpMax i, hpMax i, 0, 0, 1, 0, 0, 0, 0, false, 0, 0, []⟩, 0, 0, []⟩
  step := step rules

/-- Two heroes of different sides. -/
def duel : Rules Bool := ⟨3000, id⟩

/-! ## Health -/

section NewHp

variable {lastHp hpMax : ℚ} {hp : ℤ} {kept : Bool}

theorem newHp_nonneg (hmax : 0 ≤ hpMax) : 0 ≤ newHp lastHp hp hpMax kept := by
  unfold newHp mClamp
  dsimp only
  split_ifs <;> linarith

theorem newHp_pos (hmax : 0 < hpMax) (hsum : 0 < lastHp + hp) : 0 < newHp lastHp hp hpMax kept := by
  have hround : 0 < Double.add lastHp hp := Rounding.round_pos (by norm_num) hsum
  unfold newHp mClamp
  dsimp only
  split_ifs <;> linarith

theorem newHp_of_nonpos (hmax : 0 ≤ hpMax) (hsum : lastHp + hp ≤ 0) :
    newHp lastHp hp hpMax kept = if kept = true then 1 else 0 := by
  have hround : Double.add lastHp hp ≤ 0 := Double.round_nonpos_iff.mpr hsum
  have hclamp : mClamp (Double.add lastHp hp) 0 hpMax = 0 := by
    unfold mClamp
    split_ifs <;> linarith
  simp [newHp, hclamp]

theorem newHp_le {bound : ℚ} (hone : 1 ≤ bound) (hdouble : Double.Is bound)
    (hsum : lastHp + hp ≤ bound) : newHp lastHp hp hpMax kept ≤ bound := by
  have hround : Double.add lastHp hp ≤ bound := Double.round_le hsum hdouble
  unfold newHp mClamp
  dsimp only
  split_ifs <;> linarith

theorem newHp_le_max (hmax : 1 ≤ hpMax) : newHp lastHp hp hpMax kept ≤ hpMax := by
  unfold newHp mClamp
  dsimp only
  split_ifs <;> linarith

theorem newHp_eq (hpos : 0 < lastHp + hp) (hle : lastHp + hp ≤ hpMax)
    (hdouble : Double.Is (lastHp + hp)) : newHp lastHp hp hpMax kept = lastHp + hp := by
  have hadd : Double.add lastHp hp = lastHp + hp := hdouble
  unfold newHp mClamp
  dsimp only
  rw [hadd]
  split_ifs <;> linarith

theorem newHp_kept (hkept : kept = true) : 0 < newHp lastHp hp hpMax kept := by
  unfold newHp
  dsimp only
  split_ifs with h
  · exact one_pos
  · rw [not_and, not_le] at h
    exact h hkept

theorem newHp_eq_zero (hmax : 0 ≤ hpMax) (hdead : newHp lastHp hp hpMax kept ≤ 0) :
    newHp lastHp hp hpMax kept = 0 :=
  le_antisymm hdead (newHp_nonneg hmax)

theorem recalc_zero (hpMax hpMax' : ℚ) : recalc 0 hpMax hpMax' = 0 := by
  simp [recalc, portion, Double.div, Double.mul, Double.sub, Double.round, Rounding.round_zero]

end NewHp

/-! ## What a call does -/

section AddHp

variable {rules} {s s' : State ι} {h : ι} {hp : ℚ} {source : Source ι}

/-- The health behind a call that is not ignored. -/
def Hero.after (self : Hero) (hp : ℚ) : ℚ := if ⌊hp⌋ = 0 then self.hp else self.healthAfter ⌊hp⌋

inductive AddHp (rules : Rules ι) (s : State ι) (h : ι) (hp : ℚ) (source : Source ι) :
    State ι → Prop
  | ignored (hdead : (s.heroes h).hp ≤ 0) (hle : hp ≤ 0) : AddHp rules s h hp source s
  | died (halive : 0 < (s.heroes h).hp) (hdead : (s.heroes h).after hp ≤ 0) :
      AddHp rules s h hp source
        { s.setHero h ({ s.heroes h with hp := (s.heroes h).after hp }.onDead rules.RaiseTime) with
          stack := (h, source) :: s.stack }
  | counted (hcall : 0 < (s.heroes h).hp ∨ 0 < hp)
      (halive : 0 < (s.heroes h).hp → 0 < (s.heroes h).after hp) :
      AddHp rules s h hp source
        ((s.setHero h { s.heroes h with hp := (s.heroes h).after hp }).count h source)

theorem Hero.addHp_eq_some {self self' : Hero} {dead hasSource : Bool}
    (hcall : self.addHp hp hasSource = some (self', dead)) :
    self' = { self with hp := self.after hp } ∧ (dead ↔ 0 < self.hp ∧ self.after hp ≤ 0) := by
  unfold Hero.addHp at hcall
  unfold Hero.after
  split_ifs at hcall with hzero hsource
  · cases hcall
    rw [if_pos hzero]
    exact ⟨rfl, by simp⟩
  · cases hcall
    rw [if_neg hzero]
    exact ⟨rfl, by simp⟩

theorem addHp_cases (hcall : s.addHp rules h hp source = some s') :
    AddHp rules s h hp source s' := by
  unfold State.addHp at hcall
  dsimp only at hcall
  split_ifs at hcall with hignored
  · cases hcall
    exact .ignored hignored.1 hignored.2
  · rw [not_and_or, not_le, not_le] at hignored
    split at hcall
    · cases hcall
    · next self hself =>
        cases hcall
        obtain ⟨rfl, hdead⟩ := Hero.addHp_eq_some hself
        obtain ⟨halive, hdead⟩ := hdead.mp rfl
        exact .died halive hdead
    · next self hself =>
        cases hcall
        obtain ⟨rfl, hdead⟩ := Hero.addHp_eq_some hself
        refine .counted hignored fun halive => not_le.mp fun hle => ?_
        exact absurd (hdead.mpr ⟨halive, hle⟩) Bool.false_ne_true

/-- Behind a call for a living hero with a maximum of at least 0, a dead one has no health. -/
theorem Hero.after_eq_zero {self : Hero} (hmax : 0 ≤ self.hpMax) (halive : 0 < self.hp)
    (hdead : self.after hp ≤ 0) : self.after hp = 0 := by
  unfold Hero.after at hdead ⊢
  split_ifs at hdead ⊢ with hzero
  · exact absurd halive (not_lt.mpr hdead)
  · exact newHp_eq_zero hmax hdead

end AddHp

/-! ## One count -/

section Count

variable {s : State ι} {h : ι} {source : Source ι}

theorem heroes_setHero (s : State ι) (h : ι) (hero : Hero) (i : ι) :
    (s.setHero h hero).heroes i = if i = h then hero else s.heroes i :=
  Function.update_apply _ _ _ _

theorem setHero_setHero (s : State ι) (h : ι) (hero hero' : Hero) :
    (s.setHero h hero).setHero h hero' = s.setHero h hero' := by
  rw [State.setHero, State.setHero, State.setHero, Function.update_idem]

theorem count_of_alive (halive : 0 < (s.heroes h).hp) : s.count h source = s := by
  rw [State.count, if_neg (not_le.mpr halive)]

/-- What a count changes. -/
structure Count (s : State ι) (h : ι) (source : Source ι) (s' : State ι) : Prop where
  deaths : ∀ i, (s'.heroes i).deaths = (s.heroes i).deaths + if i = h then 1 else 0
  kills : ∀ i, (s'.heroes i).kills = (s.heroes i).kills + if source = .hero i then 1 else 0
  hp : ∀ i, (s'.heroes i).hp = (s.heroes i).hp
  onDeads : ∀ i, (s'.heroes i).onDeads = (s.heroes i).onDeads
  red : s'.RedKillNum = s.RedKillNum
  blue : s'.BlueKillNum = s.BlueKillNum
  stack : s'.stack = s.stack

theorem count_of_dead (hdead : (s.heroes h).hp ≤ 0) : Count s h source (s.count h source) := by
  rw [State.count, if_pos hdead]
  cases source with
  | hero j =>
      refine ⟨fun i => ?_, fun i => ?_, fun i => ?_, fun i => ?_, rfl, rfl, rfl⟩ <;>
        simp only [heroes_setHero, Source.hero.injEq] <;> grind
  | none =>
      refine ⟨fun i => ?_, fun i => ?_, fun i => ?_, fun i => ?_, rfl, rfl, rfl⟩ <;>
        simp only [heroes_setHero] <;> grind
  | other =>
      refine ⟨fun i => ?_, fun i => ?_, fun i => ?_, fun i => ?_, rfl, rfl, rfl⟩ <;>
        simp only [heroes_setHero] <;> grind

end Count

end GameServer.Battle
