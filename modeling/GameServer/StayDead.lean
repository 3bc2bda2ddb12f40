import GameServer.Battle

/-!
# Heroes that stay dead

Recovery looks whether a hero lives, and a new maximum leaves no share of no health; `addHp` itself
gives a dead hero what the caller says. Where no caller gives a dead one anything, its health is 0
from `onDead` to `onRaise`.
-/

namespace GameServer.Battle

open Transition

variable {ι : Type*} [DecidableEq ι] {rules : Rules ι} {s s' : State ι} {h i : ι} {hp : ℚ}
  {source : Source ι}

/-- A hero that fell has no health until `onRaise`, which ran only when the time that `onDead` gave
had passed. -/
structure Resting (hero : Hero) : Prop where
  hp : hero.fallen → hero.hp = 0
  raises : ∀ e ∈ hero.raises, e.1 ≤ e.2

/-- A dead hero is not given a point of health, and no maximum is negative. -/
def RestOK (s : State ι) : Label ι → Prop
  | .addHp h hp _ => 0 ≤ (s.heroes h).hpMax ∧ ((s.heroes h).hp ≤ 0 → hp < 1)
  | .calcHpMax _ _ hpMax => 0 ≤ hpMax
  | .recvHpMp h _ => 0 ≤ (s.heroes h).hpMax
  | .update h _ => 0 ≤ (s.heroes h).hpMax
  | _ => True

instance (s : State ι) (l : Label ι) : Decidable (RestOK s l) :=
  match l with
  | .addHp _ _ _ => inferInstanceAs (Decidable (_ ∧ _))
  | .calcHpMax _ _ _ | .recvHpMp _ _ | .update _ _ => inferInstanceAs (Decidable (_ ≤ _))
  | .ret | .affect _ _ _ => .isTrue trivial

/-- `Resting`, with what is left of the time. -/
structure RestInvariant (hero : Hero) : Prop extends Resting hero where
  left : 0 < hero.raiseTime → hero.given = hero.raiseTime + hero.waited

theorem RestInvariant.setHero (hinv : ∀ i, RestInvariant (s.heroes i)) {hero : Hero}
    (hhero : RestInvariant hero) (i : ι) : RestInvariant ((s.setHero h hero).heroes i) := by
  rw [heroes_setHero]
  split_ifs
  · exact hhero
  · exact hinv i

theorem RestInvariant.count (hinv : ∀ i, RestInvariant (s.heroes i)) (h : ι) (source : Source ι)
    (i : ι) : RestInvariant ((s.count h source).heroes i) := by
  have hdeath : RestInvariant { s.heroes h with deaths := (s.heroes h).deaths + 1 } :=
    ⟨⟨(hinv h).hp, (hinv h).raises⟩, (hinv h).left⟩
  have hdeaths := RestInvariant.setHero (h := h) hinv hdeath
  unfold State.count
  dsimp only
  split_ifs
  · cases source with
    | none => exact hdeaths i
    | other => exact hdeaths i
    | hero j =>
        refine RestInvariant.setHero hdeaths ?_ i
        exact ⟨⟨(hdeaths j).hp, (hdeaths j).raises⟩, (hdeaths j).left⟩
  · exact hinv i

theorem restInvariant_addHp (hinv : ∀ i, RestInvariant (s.heroes i))
    (hmax : 0 ≤ (s.heroes h).hpMax) (hless : (s.heroes h).fallen → hp < 1)
    (happlied : s.addHp rules h hp source = some s') (i : ι) : RestInvariant (s'.heroes i) := by
  cases addHp_cases happlied with
  | ignored => exact hinv i
  | died halive hdead =>
      have hfell : RestInvariant
          ({ s.heroes h with hp := (s.heroes h).after hp }.onDead rules.RaiseTime) := by
        refine ⟨⟨fun _ => ?_, (hinv h).raises⟩, fun _ => (add_zero _).symm⟩
        exact Hero.after_eq_zero hmax halive hdead
      exact RestInvariant.setHero (h := h) hinv hfell i
  | counted hcall halive =>
      refine RestInvariant.count (RestInvariant.setHero hinv ?_) h source i
      refine ⟨⟨fun hfallen => ?_, (hinv h).raises⟩, (hinv h).left⟩
      have hzero := (hinv h).hp hfallen
      have hpos : 0 < hp := hcall.resolve_left (by rw [hzero]; exact lt_irrefl 0)
      have hfloor : ⌊hp⌋ = 0 := Int.floor_eq_zero_iff.mpr ⟨hpos.le, hless hfallen⟩
      simp only [Hero.after, hfloor, if_true]
      exact hzero

theorem Hero.share_eq_zero {self : Hero} (hzero : self.hp = 0) (hpMax : ℚ) :
    self.share hpMax = 0 := by
  rw [Hero.share, hzero, recalc_zero]

theorem restInvariant_step {l : Label ι} (hinv : ∀ i, RestInvariant (s.heroes i))
    (hok : RestOK s l) (hstep : step rules s l = some s') (i : ι) :
    RestInvariant (s'.heroes i) := by
  cases l with
  | addHp h hp source =>
      refine restInvariant_addHp hinv hok.1 (fun hfallen => hok.2 ?_) hstep i
      exact ((hinv h).hp hfallen).le
  | ret =>
      simp only [step, State.ret] at hstep
      split at hstep
      · cases hstep
      · next h source stack _ =>
          cases hstep
          refine RestInvariant.count (fun i => ?_) h source i
          split_ifs
          · exact hinv i
          · exact hinv i
  | calcHpMax h level hpMax =>
      simp only [step, State.calcHpMax] at hstep
      split_ifs at hstep
      have hhero : RestInvariant { s.heroes h with level, hpMax } :=
        ⟨⟨(hinv h).hp, (hinv h).raises⟩, (hinv h).left⟩
      refine restInvariant_addHp (RestInvariant.setHero hinv hhero) ?_ (fun hfallen => ?_) hstep i
      · rw [heroes_setHero, if_pos rfl]
        exact hok
      · -- a share of no health is nothing
        rw [heroes_setHero, if_pos rfl] at hfallen
        rw [Hero.share_eq_zero ((hinv h).hp hfallen)]
        exact one_pos
  | recvHpMp h recvHp =>
      simp only [step, State.recvHpMp] at hstep
      split_ifs at hstep with hdead
      · cases hstep
        exact hinv i
      · refine restInvariant_addHp hinv hok (fun hfallen => ?_) hstep i
        exact absurd ((hinv h).hp hfallen).le hdead
  | affect h noDead invincible =>
      cases hstep
      refine RestInvariant.setHero hinv ?_ i
      exact ⟨⟨(hinv h).hp, (hinv h).raises⟩, (hinv h).left⟩
  | update h dt =>
      simp only [step, State.update] at hstep
      split_ifs at hstep with hstack htime hraise
      · simp only [State.onRaise, heroes_setHero, if_true, setHero_setHero] at hstep
        have hleft := (hinv h).left htime
        refine restInvariant_addHp (RestInvariant.setHero hinv ?_) ?_ ?_ hstep i
        · refine ⟨⟨nofun, fun e he => ?_⟩, fun htime => absurd hraise (not_le.mpr htime)⟩
          rcases List.mem_append.mp he with he | he
          · exact (hinv h).raises e he
          · rw [List.mem_singleton.mp he]
            dsimp only
            linarith
        · rw [heroes_setHero, if_pos rfl]
          exact hok
        · rw [heroes_setHero, if_pos rfl]
          exact nofun
      · cases hstep
        refine RestInvariant.setHero hinv ?_ i
        refine ⟨⟨(hinv h).hp, (hinv h).raises⟩, fun _ => ?_⟩
        have hleft := (hinv h).left htime
        dsimp only
        linarith
      · cases hstep
        refine RestInvariant.setHero hinv ?_ i
        refine ⟨⟨(hinv h).hp, (hinv h).raises⟩, fun hpos => ?_⟩
        exact absurd hpos htime

end GameServer.Battle
