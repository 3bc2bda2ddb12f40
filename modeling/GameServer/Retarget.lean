import Mathlib.Algebra.BigOperators.Group.List.Basic
import Mathlib.Algebra.Order.Ring.Int
import Mathlib.Tactic

/-!
# The target of a monster

The state machine of `NpcAI` and its countdown. The countdown is read as `refreshTarget`; what sets
it again writes `refreashTarget`. What the functions read of the monster and its room comes with the
tick. What they set or call comes out in order.
-/

namespace GameServer.Retarget

inductive AIState
  | Idle
  | Chase
  | Battle
  | GoHome
  | waitFBack
  deriving DecidableEq

structure SkillData (K : Type) where
  id : ℤ
  n32Range : K
  deriving DecidableEq

/-- `PreSkillData` is the monster's. -/
structure NpcAI (K : Type) where
  refreshTarget : ℤ
  refreashTarget : Option ℤ
  fightBackHate : K
  followLen : K
  mCurrentAIState : AIState
  mNextAIState : AIState
  PreSkillData : Option (SkillData K)
  deriving DecidableEq

/-- What an update reads. `hatedTop` is the top hate after a call of `addHate`, `closest` the
distance of the closest player, `preCast` the skill that `preCastSkill` sets. -/
structure View (E K : Type) where
  getTopHate : ℤ
  hatedTop : ℤ
  getTotalHate : K
  getEntity : ℤ → Option E
  getTarget : Option E
  closest : Option K
  n32VisionRange : K
  n32HateRange : K
  moveSpeed : K
  isInBornPlace : Bool
  atBornX : Bool
  bornOccupied : Bool
  bornDistance : K
  getDistance : K
  isSpellRunning : Bool
  preCast : SkillData K

inductive Call (E : Type)
  | stand
  | setTarget (target : Option E)
  | setTargetPos
  | addHate
  | clearHate
  | setCastSkillId (id : ℤ)
  deriving DecidableEq

variable {E K : Type}

/-! ## The states -/

def updatePreCast (view : View E K) (self : NpcAI K) : NpcAI K :=
  { self with PreSkillData := some view.preCast, followLen := view.preCast.n32Range }

def onEnter_Chase (view : View E K) (self : NpcAI K) : NpcAI K × List (Call E) :=
  (updatePreCast view self, [.setTarget view.getTarget])

def onEnter (view : View E K) (self : NpcAI K) : AIState → NpcAI K × List (Call E)
  | .Idle => (self, [.stand])
  | .Chase => onEnter_Chase view self
  | .Battle => (self, [.stand])
  | .GoHome => ({ self with PreSkillData := none }, [.setTargetPos])
  | .waitFBack => ({ self with fightBackHate := view.getTotalHate }, [.stand])

theorem onEnter_refreshTarget (view : View E K) (ai : NpcAI K) (state : AIState) :
    (onEnter view ai state).1.refreshTarget = ai.refreshTarget := by
  cases state with
  | Idle => rfl
  | Chase => rfl
  | Battle => rfl
  | GoHome => rfl
  | waitFBack => rfl

variable [LinearOrder K] [Zero K]

def onExec_Idle (view : View E K) (self : NpcAI K) : NpcAI K × List (Call E) :=
  let tId := view.getTopHate
  if tId > 0 then
    ({ self with mNextAIState := .Chase, refreashTarget := some 2000 },
      [.setTarget (view.getEntity tId)])
  else if view.n32VisionRange > 0 then
    match view.closest with
    | some len => (self, if len < view.n32VisionRange then [.addHate] else [])
    | none => (self, [])
  else if view.isInBornPlace = false then ({ self with mNextAIState := .GoHome }, [])
  else (self, [])

def onExec_Chase (view : View E K) (self : NpcAI K) : NpcAI K × List (Call E) :=
  if view.getTarget = none then ({ self with mNextAIState := .GoHome }, [])
  else if view.n32HateRange > 0 ∧ view.bornDistance > view.n32HateRange then
    ({ self with mNextAIState := .GoHome }, [])
  else
    let calls := if view.moveSpeed = 0 then [.setTarget view.getTarget] else []
    if view.getDistance ≤ self.followLen then ({ self with mNextAIState := .Battle }, calls)
    else (self, calls)

def onExec_Battle (view : View E K) (self : NpcAI K) : NpcAI K × List (Call E) :=
  if view.isSpellRunning = true then (self, [])
  else
    let pre := self.PreSkillData.getD view.preCast
    let self := if self.PreSkillData = none then updatePreCast view self else self
    if view.getTarget = none then ({ self with mNextAIState := .Idle }, [])
    else if view.getDistance ≤ self.followLen then
      ({ self with PreSkillData := none }, [.setCastSkillId pre.id])
    else ({ self with mNextAIState := .Chase }, [])

def onExec_GoHome (view : View E K) (self : NpcAI K) : NpcAI K × List (Call E) :=
  let calls := if view.moveSpeed = 0 then [.setTargetPos] else []
  if view.isInBornPlace = true then
    if view.atBornX = true then ({ self with mNextAIState := .waitFBack }, calls ++ [.clearHate])
    else if view.bornOccupied = true then
      ({ self with mNextAIState := .waitFBack }, calls ++ [.clearHate])
    else (self, calls ++ [.clearHate])
  else (self, calls)

def onExec_FightBack (view : View E K) (self : NpcAI K) : NpcAI K × List (Call E) :=
  if self.fightBackHate ≠ view.getTotalHate then ({ self with mNextAIState := .Idle }, [])
  else (self, [])

def onExec (view : View E K) (self : NpcAI K) : AIState → NpcAI K × List (Call E)
  | .Idle => onExec_Idle view self
  | .Chase => onExec_Chase view self
  | .Battle => onExec_Battle view self
  | .GoHome => onExec_GoHome view self
  | .waitFBack => onExec_FightBack view self

/-- `AIFsm:update`. No state does anything on its exit. -/
def fsm (view : View E K) (self : NpcAI K) : NpcAI K × List (Call E) :=
  if self.mCurrentAIState ≠ self.mNextAIState then
    onEnter view { self with mCurrentAIState := self.mNextAIState } self.mNextAIState
  else onExec view self self.mCurrentAIState

theorem onExec_refreshTarget (view : View E K) (ai : NpcAI K) (state : AIState) :
    (onExec view ai state).1.refreshTarget = ai.refreshTarget := by
  cases state with
  | Idle =>
      unfold onExec onExec_Idle
      dsimp only
      split_ifs
      · rfl
      · split
        · rfl
        · rfl
      · rfl
      · rfl
  | Chase =>
      unfold onExec onExec_Chase
      dsimp only
      split_ifs
      all_goals rfl
  | Battle =>
      unfold onExec onExec_Battle
      dsimp only
      split_ifs
      all_goals rfl
  | GoHome =>
      unfold onExec onExec_GoHome
      dsimp only
      split_ifs
      all_goals rfl
  | waitFBack =>
      unfold onExec onExec_FightBack
      dsimp only
      split_ifs
      all_goals rfl

theorem fsm_refreshTarget (view : View E K) (ai : NpcAI K) :
    (fsm view ai).1.refreshTarget = ai.refreshTarget := by
  unfold fsm
  split_ifs
  · exact onEnter_refreshTarget view _ _
  · exact onExec_refreshTarget view ai _

def InFight (ai : NpcAI K) : Prop := ai.mCurrentAIState = .Chase ∨ ai.mCurrentAIState = .Battle

instance (ai : NpcAI K) : Decidable (InFight ai) := inferInstanceAs (Decidable (_ ∨ _))

/-- In a fight the target is only set to what it is. -/
theorem mem_fsm {ai : NpcAI K} {view : View E K} (h : InFight ai) (target : Option E) :
    .setTarget target ∈ (fsm view ai).2 ↔
      ai.mNextAIState = .Chase ∧ view.getTarget = target ∧
        (ai.mCurrentAIState = .Chase → view.getTarget ≠ none ∧ view.moveSpeed = 0 ∧
          ¬ (view.n32HateRange > 0 ∧ view.bornDistance > view.n32HateRange)) := by
  unfold fsm
  by_cases hsame : ai.mCurrentAIState = ai.mNextAIState
  · rw [if_neg (not_not.mpr hsame), ← hsame]
    obtain hcur | hcur := h
    · rw [hcur, onExec, onExec_Chase]
      by_cases htarget : view.getTarget = none
      · simp [htarget]
      · by_cases hfar : view.n32HateRange > 0 ∧ view.bornDistance > view.n32HateRange
        · simp [htarget, hfar]
        · rw [if_neg htarget, if_neg hfar, apply_ite Prod.snd, ite_self]
          by_cases hspeed : view.moveSpeed = 0
          · rw [if_pos hspeed, List.mem_singleton]
            simp [htarget, hfar, hspeed, eq_comm]
          · simp [hspeed]
    · have hbattle : ∀ view : View E K, .setTarget target ∉ (onExec_Battle view ai).2 := by
        intro view
        unfold onExec_Battle
        dsimp only
        split_ifs
        all_goals simp
      rw [hcur]
      exact iff_of_false (hbattle view) fun h => by cases h.1
  · rw [if_pos hsame]
    cases hnext : ai.mNextAIState with
    | Idle => simp [onEnter]
    | Chase =>
        have hcur : ai.mCurrentAIState ≠ .Chase := fun hcur => hsame (hcur.trans hnext.symm)
        simp [onEnter, onEnter_Chase, hcur, eq_comm]
    | Battle => simp [onEnter]
    | GoHome => simp [onEnter]
    | waitFBack => simp [onEnter]

/-! ## The update -/

structure Tick (E K : Type) where
  dt : ℤ
  view : View E K

variable [DecidableEq E]

def update (t : Tick E K) (ai : NpcAI K) : NpcAI K × List (Call E) :=
  let (self, calls) := fsm t.view ai
  if self.refreshTarget ≥ 0 then
    let left := self.refreshTarget - t.dt
    if left < 0 then
      let tId := if .addHate ∈ calls then t.view.hatedTop else t.view.getTopHate
      ({ self with refreshTarget := left, refreashTarget := some 2000 },
        if tId > 0 then calls ++ [.setTarget (t.view.getEntity tId)] else calls)
    else ({ self with refreshTarget := left }, calls)
  else (self, calls)

/-- `NpcAI:ctor` -/
def ctor : NpcAI K := ⟨0, none, 0, 0, .Idle, .Idle, none⟩

def run (ai : NpcAI K) (ticks : List (Tick E K)) : NpcAI K :=
  ticks.foldl (fun ai t => (update t ai).1) ai

/-! ## Windows -/

/-- The monster is in the fight before and after each tick. -/
def Fights (ai : NpcAI K) : List (Tick E K) → Prop
  | [] => InFight ai
  | t :: rest => InFight ai ∧ Fights (update t ai).1 rest

instance decidableFights : (ai : NpcAI K) → (window : List (Tick E K)) →
    Decidable (Fights ai window)
  | ai, [] => inferInstanceAs (Decidable (InFight ai))
  | ai, t :: rest =>
      have := decidableFights (update t ai).1 rest
      inferInstanceAs (Decidable (InFight ai ∧ Fights (update t ai).1 rest))

/-- The entity with the current top hate. -/
def topEntity (view : View E K) : Option E :=
  if view.getTopHate > 0 then view.getEntity view.getTopHate else none

/-- The call that sets the target to the top hate. -/
def SetsTop (t : Tick E K) (ai : NpcAI K) : Prop :=
  ∃ e, topEntity t.view = some e ∧ .setTarget (some e) ∈ (update t ai).2

/-- A tick that sets the target to what it is, the top hate: one that enters the chase, or one of a
chase within the hate range by a monster of no speed. -/
def RenewsTop (t : Tick E K) (ai : NpcAI K) : Prop :=
  (∃ e, topEntity t.view = some e ∧ t.view.getTarget = some e) ∧ ai.mNextAIState = .Chase ∧
    (ai.mCurrentAIState = .Chase → t.view.moveSpeed = 0 ∧
      ¬ (t.view.n32HateRange > 0 ∧ t.view.bornDistance > t.view.n32HateRange))

/-- Some tick of the window meets a condition on it and on the state before it. -/
def Meets (P : Tick E K → NpcAI K → Prop) (ai : NpcAI K) : List (Tick E K) → Prop
  | [] => False
  | t :: rest => P t ai ∨ Meets P (update t ai).1 rest

/-- Every window of 2000 ms and one tick more in which the monster fights has a tick that meets the
condition. -/
def Always (P : Tick E K → NpcAI K → Prop) (ticks : List (Tick E K)) : Prop :=
  ∀ before window after, ticks = before ++ window ++ after → Fights (run ctor before) window →
    2000 ≤ (window.dropLast.map Tick.dt).sum → Meets P (run ctor before) window

/-! ## The countdown -/

section Countdown

variable {ai : NpcAI K}

/-- Once it is over, the countdown does nothing any more. -/
theorem update_of_over (t : Tick E K) (h : ai.refreshTarget < 0) :
    update t ai = fsm t.view ai := by
  unfold update
  dsimp only
  rw [if_neg (by rw [fsm_refreshTarget]; exact not_le.mpr h)]

theorem update_over {t : Tick E K} (h : ai.refreshTarget < 0) :
    (update t ai).1.refreshTarget < 0 := by
  rw [update_of_over t h, fsm_refreshTarget]
  exact h

theorem run_over {ticks : List (Tick E K)} (h : ai.refreshTarget < 0) :
    (run ai ticks).refreshTarget < 0 := by
  induction ticks generalizing ai with
  | nil => exact h
  | cons t rest ih => exact ih (update_over h)

/-- The first tick ends the countdown of the start. -/
theorem ctor_over {t : Tick E K} (h : 0 < t.dt) :
    (update t (ctor : NpcAI K)).1.refreshTarget < 0 := by
  have hstart : (fsm t.view (ctor : NpcAI K)).1.refreshTarget = 0 := fsm_refreshTarget _ _
  unfold update
  dsimp only
  rw [if_pos hstart.ge, hstart, zero_sub, if_pos (neg_lt_zero.mpr h)]
  exact neg_lt_zero.mpr h

end Countdown

/-! ## The fight -/

section Fight

variable {ai : NpcAI K} {t : Tick E K}

theorem setsTop_iff (h : InFight ai) (hover : ai.refreshTarget < 0) :
    SetsTop t ai ↔ RenewsTop t ai := by
  unfold SetsTop RenewsTop
  rw [update_of_over t hover]
  constructor
  · rintro ⟨e, htop, hcall⟩
    obtain ⟨hnext, htarget, hchase⟩ := (mem_fsm h _).mp hcall
    exact ⟨⟨e, htop, htarget⟩, hnext, fun hcur => (hchase hcur).2⟩
  · rintro ⟨⟨e, htop, htarget⟩, hnext, hchase⟩
    refine ⟨e, htop, (mem_fsm h _).mpr ⟨hnext, htarget, fun hcur => ⟨?_, hchase hcur⟩⟩⟩
    rw [htarget]
    exact Option.some_ne_none e

theorem meets_iff {window : List (Tick E K)} (hfights : Fights ai window)
    (hover : ai.refreshTarget < 0) : Meets SetsTop ai window ↔ Meets RenewsTop ai window := by
  induction window generalizing ai with
  | nil => exact Iff.rfl
  | cons t rest ih =>
      exact or_congr (setsTop_iff hfights.1 hover) (ih hfights.2 (update_over hover))

/-- A monster in a fight has been updated before. -/
theorem over_of_fights {before window : List (Tick E K)} (hdt : ∀ t ∈ before, 0 < t.dt)
    (hfights : Fights (run (ctor : NpcAI K) before) window) :
    (run (ctor : NpcAI K) before).refreshTarget < 0 := by
  cases before with
  | nil =>
      have hidle : InFight (ctor : NpcAI K) := by
        cases window with
        | nil => exact hfights
        | cons t rest => exact hfights.1
      rcases hidle with hcur | hcur
      · cases hcur
      · cases hcur
  | cons t rest =>
      have hrest : (run (update t (ctor : NpcAI K)).1 rest).refreshTarget < 0 :=
        run_over (ctor_over (hdt t List.mem_cons_self))
      exact hrest

/-- A run keeps retargeting if and only if every such window has a tick at which the target already
is the top hate and is set to what it is. -/
theorem always_setsTop_iff (ticks : List (Tick E K)) (hdt : ∀ t ∈ ticks, 0 < t.dt) :
    Always SetsTop ticks ↔ Always RenewsTop ticks := by
  have hwindow : ∀ {before window after : List (Tick E K)}, ticks = before ++ window ++ after →
      Fights (run ctor before) window →
      (Meets SetsTop (run ctor before) window ↔ Meets RenewsTop (run ctor before) window) := by
    intro before window after hticks hfights
    refine meets_iff hfights (over_of_fights (fun t ht => hdt t ?_) hfights)
    rw [hticks]
    exact List.mem_append_left _ (List.mem_append_left _ ht)
  constructor
  · intro h before window after hticks hfights hlong
    exact (hwindow hticks hfights).mp (h before window after hticks hfights hlong)
  · intro h before window after hticks hfights hlong
    exact (hwindow hticks hfights).mpr (h before window after hticks hfights hlong)

end Fight

/-! ## A change of the top hate -/

/-- Two players; the monster stands beside its target. -/
def arena (top : ℤ) (target : Option ℕ) : View ℕ ℤ where
  getTopHate := top
  hatedTop := 1
  getTotalHate := 1
  getEntity := fun id => if id = 1 then some 1 else if id = 2 then some 2 else none
  getTarget := target
  closest := some 3
  n32VisionRange := 5
  n32HateRange := 20
  moveSpeed := 0
  isInBornPlace := true
  atBornX := true
  bornOccupied := true
  bornDistance := 0
  getDistance := 1
  isSpellRunning := false
  preCast := ⟨7, 2⟩

/-- The monster sees the first player, chases it and comes to the battle. -/
def opening : List (Tick ℕ ℤ) :=
  [⟨100, arena 0 none⟩, ⟨100, arena 1 (some 1)⟩, ⟨100, arena 1 (some 1)⟩, ⟨100, arena 1 (some 1)⟩,
    ⟨100, arena 1 (some 1)⟩]

/-- Then it hates the second one more. -/
def changed : Tick ℕ ℤ := ⟨100, arena 2 (some 1)⟩

theorem not_meets_changed (n : ℕ) (ai : NpcAI ℤ) :
    ¬ Meets RenewsTop ai (List.replicate n changed) := by
  induction n generalizing ai with
  | zero => exact id
  | succ n ih =>
      rintro (⟨⟨e, htop, htarget⟩, -⟩ | hrest)
      · exact absurd (htop.trans htarget.symm) (by decide)
      · exact ih _ hrest

/-- Its target stays the first one. -/
theorem not_always_changed : ¬ Always SetsTop (opening ++ List.replicate 21 changed) := by
  intro h
  have hfights : Fights (run ctor opening) (List.replicate 21 changed) := by decide
  have hmeets := h opening (List.replicate 21 changed) [] (List.append_nil _).symm hfights
    (by decide)
  exact not_meets_changed 21 _ ((meets_iff hfights (by decide)).mp hmeets)

theorem always_setsTop_iff_changed :
    Always SetsTop (opening ++ List.replicate 21 changed) ↔
      Always RenewsTop (opening ++ List.replicate 21 changed) :=
  always_setsTop_iff _ (by decide)

end GameServer.Retarget
