import GameServer.Battle

/-!
# Deaths that are counted once

`onDead` runs when the health of a hero falls to 0; the death is counted where the health is at 0
behind a call. Both are the same for a living hero. A dead one that is given something and stays
dead is counted again, and one that is healed by its own `onDead` is not counted.
-/

namespace GameServer.Battle

open Transition

variable {ι : Type*} [DecidableEq ι] {rules : Rules ι} {s s' : State ι} {h i : ι} {hp : ℚ}
  {source : Source ι}

/-- Each death is counted, for the hero and for its side, and there are not more kills than
deaths. -/
structure Accounted [Fintype ι] (rules : Rules ι) (s : State ι) : Prop where
  deaths : ∀ i, (s.heroes i).deaths = (s.heroes i).onDeads
  blue : ∑ i with ¬ rules.isRed i, (s.heroes i).deaths = s.RedKillNum
  red : ∑ i with rules.isRed i, (s.heroes i).deaths = s.BlueKillNum
  kills : ∑ i, (s.heroes i).kills ≤ ∑ i, (s.heroes i).deaths

/-- What is given to a dead hero raises its health above 0. -/
def Revives (self : Hero) (hp : ℚ) : Prop :=
  1 ≤ hp ∧ (self.kept ∨ 0 < self.hpMax ∧ 0 < self.hp + ⌊hp⌋)

instance (self : Hero) (hp : ℚ) : Decidable (Revives self hp) :=
  inferInstanceAs (Decidable (_ ∧ _))

/-- A dead hero is given enough to live, or nothing, and nothing while its `onDead` runs. -/
def Clear (s : State ι) (h : ι) (hp : ℚ) : Prop :=
  (s.heroes h).hp ≤ 0 → 0 < hp → Revives (s.heroes h) hp ∧ ∀ f ∈ s.stack, f.1 ≠ h

instance (s : State ι) (h : ι) (hp : ℚ) : Decidable (Clear s h hp) :=
  inferInstanceAs (Decidable (_ → _ → _))

def CountOK (s : State ι) : Label ι → Prop
  | .addHp h hp _ => Clear s h hp
  | .calcHpMax h level hpMax =>
      Clear (s.setHero h { s.heroes h with level, hpMax }) h ((s.heroes h).share hpMax)
  | .update h dt => 0 < (s.heroes h).raiseTime → (s.heroes h).raiseTime ≤ dt →
      Clear s h (s.heroes h).hpMax
  | _ => True

instance (s : State ι) (l : Label ι) : Decidable (CountOK s l) := by
  unfold CountOK
  split <;> infer_instance

/-! ## The invariant -/

variable [Fintype ι]

/-- A death whose `onDead` still runs is not counted yet, and its hero is dead. -/
structure CountInvariant (rules : Rules ι) (s : State ι) : Prop where
  counted : ∀ i, (s.heroes i).deaths + (s.stack.map Prod.fst).count i = (s.heroes i).onDeads
  waiting : ∀ f ∈ s.stack, (s.heroes f.1).hp ≤ 0
  blue : ∑ i with ¬ rules.isRed i, (s.heroes i).deaths = s.RedKillNum
  red : ∑ i with rules.isRed i, (s.heroes i).deaths = s.BlueKillNum
  kills : ∑ i, (s.heroes i).kills ≤ ∑ i, (s.heroes i).deaths

/-- A change of one hero that has nothing to do with deaths. -/
theorem CountInvariant.setHero (hinv : CountInvariant rules s) {hero : Hero}
    (hdeaths : hero.deaths = (s.heroes h).deaths) (hkills : hero.kills = (s.heroes h).kills)
    (honDeads : hero.onDeads = (s.heroes h).onDeads)
    (hhp : (∃ f ∈ s.stack, f.1 = h) → hero.hp ≤ 0) : CountInvariant rules (s.setHero h hero) := by
  have hd : ∀ i, ((s.setHero h hero).heroes i).deaths = (s.heroes i).deaths := by
    intro i
    rw [heroes_setHero]
    split_ifs with hi
    · rw [hdeaths, hi]
    · rfl
  have hk : ∀ i, ((s.setHero h hero).heroes i).kills = (s.heroes i).kills := by
    intro i
    rw [heroes_setHero]
    split_ifs with hi
    · rw [hkills, hi]
    · rfl
  refine ⟨fun i => ?_, fun f hf => ?_, ?_, ?_, ?_⟩
  · rw [hd, heroes_setHero]
    split_ifs with hi
    · rw [honDeads, ← hi]
      exact hinv.counted i
    · exact hinv.counted i
  · rw [heroes_setHero]
    split_ifs with hi
    · exact hhp ⟨f, hf, hi⟩
    · exact hinv.waiting f hf
  · simp only [hd]
    exact hinv.blue
  · simp only [hd]
    exact hinv.red
  · simp only [hd, hk]
    exact hinv.kills

omit [DecidableEq ι] [Fintype ι] in
/-- A call that is clear leaves no dead hero but where `onDead` runs. -/
theorem after_pos (hclear : Clear s h hp) (hcall : 0 < (s.heroes h).hp ∨ 0 < hp)
    (halive : 0 < (s.heroes h).hp → 0 < (s.heroes h).after hp) : 0 < (s.heroes h).after hp := by
  by_cases hpos : 0 < (s.heroes h).hp
  · exact halive hpos
  · obtain ⟨⟨hone, hlife⟩, -⟩ := hclear (not_lt.mp hpos) (hcall.resolve_left hpos)
    have hfloor : 1 ≤ ⌊hp⌋ := Int.le_floor.mpr (by exact_mod_cast hone)
    rw [Hero.after, if_neg (by omega), Hero.healthAfter]
    rcases hlife with hkept | ⟨hmax, hsum⟩
    · exact newHp_kept hkept
    · exact newHp_pos hmax hsum

theorem countInvariant_addHp (hinv : CountInvariant rules s) (hclear : Clear s h hp)
    (happlied : s.addHp rules h hp source = some s') : CountInvariant rules s' := by
  cases addHp_cases happlied with
  | ignored => exact hinv
  | counted hcall halive =>
      have hpos := after_pos hclear hcall halive
      rw [count_of_alive (by rwa [heroes_setHero, if_pos rfl])]
      refine hinv.setHero rfl rfl rfl fun ⟨f, hf, hfh⟩ => ?_
      -- its `onDead` does not run
      have hdead : (s.heroes h).hp ≤ 0 := hfh ▸ hinv.waiting f hf
      have hgiven := hcall.resolve_left (not_lt.mpr hdead)
      exact absurd hfh ((hclear hdead hgiven).2 f hf)
  | died halive hdead =>
      have hd : ∀ i, ((s.setHero h ({ s.heroes h with hp := (s.heroes h).after hp }.onDead
          rules.RaiseTime)).heroes i).deaths = (s.heroes i).deaths := by
        intro i
        rw [heroes_setHero]
        split_ifs with hi
        · rw [hi]
          rfl
        · rfl
      refine ⟨fun i => ?_, fun f hf => ?_, ?_, ?_, ?_⟩
      · have hold := hinv.counted i
        rw [hd, List.map_cons, List.count_cons, heroes_setHero]
        by_cases hi : i = h
        · subst hi
          simp only [beq_self_eq_true, if_true, Hero.onDead]
          omega
        · simp only [if_neg hi, beq_iff_eq, if_neg (Ne.symm hi)]
          exact hold
      · rw [heroes_setHero]
        split_ifs with hi
        · exact hdead
        · exact hinv.waiting f ((List.mem_cons.mp hf).resolve_left fun heq => hi (heq ▸ rfl))
      · simp only [hd]
        exact hinv.blue
      · simp only [hd]
        exact hinv.red
      · simp only [hd]
        refine (Finset.sum_le_sum fun i _ => ?_).trans hinv.kills
        rw [heroes_setHero]
        split_ifs with hi
        · rw [hi]
          exact le_rfl
        · exact le_rfl

theorem sum_count (p : ι → Prop) [DecidablePred p] {f f' : ι → ℕ}
    (hf : ∀ i, f' i = f i + if i = h then 1 else 0) :
    ∑ i with p i, f' i = ∑ i with p i, f i + if p h then 1 else 0 := by
  simp only [hf, Finset.sum_add_distrib, Finset.sum_ite_eq', Finset.mem_filter, Finset.mem_univ,
    true_and]

omit [DecidableEq ι] in
theorem sum_source_le [DecidableEq ι] (source : Source ι) :
    ∑ i, (if source = .hero i then 1 else 0) ≤ 1 := by
  cases source with
  | hero j => simp
  | none => simp
  | other => simp

omit [Fintype ι] in
/-- The end of an `onDead` counts for the hero and for the other side. -/
theorem ret_cases (hwaiting : ∀ f ∈ s.stack, (s.heroes f.1).hp ≤ 0)
    (hret : s.ret rules = some s') : ∃ h source stack, s.stack = (h, source) :: stack ∧
      Count ⟨s.heroes, s.RedKillNum + (if rules.isRed h then 0 else 1),
        s.BlueKillNum + (if rules.isRed h then 1 else 0), stack⟩ h source s' := by
  unfold State.ret at hret
  split at hret
  · cases hret
  · next h source stack hstack =>
      cases hret
      have hdead := hwaiting (h, source) (hstack ▸ List.mem_cons_self)
      refine ⟨h, source, stack, hstack, ?_⟩
      cases rules.isRed h with
      | true => exact count_of_dead hdead
      | false => exact count_of_dead hdead

theorem countInvariant_ret (hinv : CountInvariant rules s) (hret : s.ret rules = some s') :
    CountInvariant rules s' := by
  obtain ⟨h, source, stack, hstack, hcount⟩ := ret_cases hinv.waiting hret
  refine ⟨fun i => ?_, fun f hf => ?_, ?_, ?_, ?_⟩
  · have hold := hinv.counted i
    rw [hstack, List.map_cons, List.count_cons] at hold
    rw [hcount.stack, hcount.deaths, hcount.onDeads, ← hold]
    by_cases hi : i = h
    · subst hi
      simp only [beq_self_eq_true, if_true]
      omega
    · simp only [if_neg hi, beq_iff_eq, if_neg (Ne.symm hi)]
      omega
  · rw [hcount.stack] at hf
    rw [hcount.hp]
    exact hinv.waiting f (hstack ▸ List.mem_cons_of_mem _ hf)
  · rw [sum_count _ hcount.deaths, hinv.blue, hcount.red]
    cases rules.isRed h <;> rfl
  · rw [sum_count _ hcount.deaths, hinv.red, hcount.blue]
  · have hdeaths : ∑ i, (s'.heroes i).deaths = ∑ i, (s.heroes i).deaths + 1 := by
      simp only [hcount.deaths, Finset.sum_add_distrib, Finset.sum_ite_eq', Finset.mem_univ,
        if_true]
    have hkills : ∑ i, (s'.heroes i).kills ≤ ∑ i, (s.heroes i).kills + 1 := by
      simp only [hcount.kills, Finset.sum_add_distrib]
      exact Nat.add_le_add_left (sum_source_le source) _
    rw [hdeaths]
    exact hkills.trans (Nat.succ_le_succ hinv.kills)

omit [Fintype ι] in
/-- What else changes of a hero does not matter for a call. -/
theorem Clear.setHero (hclear : Clear s h hp) {hero : Hero} (hhp : hero.hp = (s.heroes h).hp)
    (hmax : hero.hpMax = (s.heroes h).hpMax) (hkept : hero.kept = (s.heroes h).kept) :
    Clear (s.setHero h hero) h hp := by
  unfold Clear Revives at *
  rw [heroes_setHero, if_pos rfl, hhp, hmax, hkept]
  exact hclear

theorem countInvariant_step {l : Label ι} (hinv : CountInvariant rules s) (hok : CountOK s l)
    (hstep : step rules s l = some s') : CountInvariant rules s' := by
  have hstays : ∀ h, (∃ f ∈ s.stack, f.1 = h) → (s.heroes h).hp ≤ 0 := fun h ⟨f, hf, heq⟩ =>
    heq ▸ hinv.waiting f hf
  cases l with
  | addHp h hp source => exact countInvariant_addHp hinv hok hstep
  | ret => exact countInvariant_ret hinv hstep
  | calcHpMax h level hpMax =>
      simp only [step, State.calcHpMax] at hstep
      split_ifs at hstep
      refine countInvariant_addHp ?_ hok hstep
      exact hinv.setHero rfl rfl rfl (hstays h)
  | recvHpMp h recvHp =>
      simp only [step, State.recvHpMp] at hstep
      split_ifs at hstep with hdead
      · cases hstep
        exact hinv
      · exact countInvariant_addHp hinv (fun hd => absurd hd hdead) hstep
  | affect h noDead invincible =>
      cases hstep
      exact hinv.setHero rfl rfl rfl (hstays h)
  | update h dt =>
      simp only [step, State.update] at hstep
      split_ifs at hstep with hstack htime hraise
      · simp only [State.onRaise, heroes_setHero, if_true, setHero_setHero] at hstep
        refine countInvariant_addHp ?_ ?_ hstep
        · exact hinv.setHero rfl rfl rfl (hstays h)
        · exact Clear.setHero (hok htime (sub_nonpos.mp hraise)) rfl rfl rfl
      · cases hstep
        exact hinv.setHero rfl rfl rfl (hstays h)
      · cases hstep
        exact hinv.setHero rfl rfl rfl (hstays h)

theorem countInvariant_init (rules : Rules ι) (hpMax : ι → ℚ) :
    CountInvariant rules (system rules hpMax).init := by
  refine ⟨fun _ => rfl, nofun, ?_, ?_, ?_⟩ <;> simp [system]

/-- Where no dead hero is given something that does not raise it, and none is given something by its
own `onDead`, the deaths are accounted for between the calls. -/
theorem deaths_accounted (rules : Rules ι) (hpMax : ι → ℚ)
    (h : (system rules hpMax).Runs CountOK s) (hidle : s.stack = []) : Accounted rules s := by
  have hinv : CountInvariant rules s := h.invariant (countInvariant_init rules hpMax)
    fun _ _ _ hinv hok hstep => countInvariant_step hinv hok hstep
  refine ⟨fun i => ?_, hinv.blue, hinv.red, hinv.kills⟩
  have hcounted := hinv.counted i
  rwa [hidle] at hcounted

theorem deaths_accounted_duel : ∃ s, (system duel fun _ => 100).Runs CountOK s ∧
    (s.heroes false).deaths = 1 ∧ s.RedKillNum = 1 ∧ Accounted duel s := by
  have hrun : (((system duel fun _ => 100).guarded CountOK).run (system duel fun _ => 100).init
      [.addHp false (-120) (.hero true), .ret, .addHp false (-1 / 2) .other]).map
        (fun s => ((s.heroes false).deaths, s.RedKillNum, s.stack)) = some (1, 1, []) := by
    decide +kernel
  obtain ⟨s, hs, hread⟩ := Option.map_eq_some_iff.mp hrun
  simp only [Prod.mk.injEq] at hread
  have hruns := System.Runs.of_guarded_run _ .init hs
  exact ⟨s, hruns, hread.1, hread.2.1, deaths_accounted duel (fun _ => 100) hruns hread.2.2⟩

/-- Half a point of health for a dead hero is nothing, and counts its death again. -/
theorem death_counted_twice : ∃ s, (system duel fun _ => 100).Reachable s ∧ s.stack = [] ∧
    (s.heroes false).deaths = 2 ∧ (s.heroes false).onDeads = 1 ∧ ¬ Accounted duel s := by
  have hrun : ((system duel fun _ => 100).run (system duel fun _ => 100).init
      [.addHp false (-120) (.hero true), .ret, .addHp false (1 / 2) (.hero false)]).map
        (fun s => (s.stack, (s.heroes false).deaths, (s.heroes false).onDeads)) =
      some ([], 2, 1) := by decide +kernel
  obtain ⟨s, hs, hread⟩ := Option.map_eq_some_iff.mp hrun
  simp only [Prod.mk.injEq] at hread
  obtain ⟨hidle, hdeaths, honDeads⟩ := hread
  refine ⟨s, System.reachable_of_run _ hs, hidle, hdeaths, honDeads, fun h => ?_⟩
  have := h.deaths false
  omega

end GameServer.Battle
