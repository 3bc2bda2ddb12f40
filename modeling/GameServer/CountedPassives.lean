import GameServer.Passtive

/-!
# Passive skills that count

A skill of condition 2 is to fire at every `n`-th attack of its source, one of condition 4 at every
`n`-th hit. The events of a skill come one by one, in whatever order the lists are gone through and
whatever is triggered from within: it counts before anything else happens. The hits are counted in
`bAttackTicks`, and `attackTicks` is what `n` is compared with.
-/

namespace GameServer.Passtives

open Transition Casting

/-- A passive skill with its history: how many events it was handed that its condition asks for, and
at which of them it fired. -/
structure Counted where
  passtive : PasstiveSpell
  events : ℕ
  fired : List ℕ

structure Spell where
  passtiveSpells : List Counted
  cooldown : Cooldown

namespace Counted

/-- `trigger`, up to what the skill does. -/
def trigger (self : Counted) (cooldown : Cooldown) (cond random : ℤ) : Counted × Cooldown :=
  let skilldata := self.passtive.skilldata
  let events := if cond = skilldata.n32TriggerCondition then self.events + 1 else self.events
  let (passtive, isTrigger) := self.passtive.isTrigger cond random
  if cooldown.getCdTime skilldata.id ≤ 0 ∧ isTrigger = true then
    (⟨passtive, events, self.fired ++ [events]⟩,
      cooldown.resetCd skilldata.id (if cond = 9 then maxinteger else skilldata.n32CD))
  else (⟨passtive, events, self.fired⟩, cooldown)

end Counted

inductive Label
  /-- The `k`-th skill is handed an event. -/
  | trigger (k : ℕ) (cond random : ℤ)
  | insert (src : ℕ) (skilldata : SkillData) (time : ℚ)
  | remove (k : ℕ)
  /-- Whatever else happens to the cooldowns. -/
  | cooldown (cooldown : Cooldown)

namespace Spell

def step (s : Spell) : Label → Option Spell
  | .trigger k cond random => do
    let self ← s.passtiveSpells[k]?
    let (self, cooldown) := self.trigger s.cooldown cond random
    some ⟨s.passtiveSpells.set k self, cooldown⟩
  | .insert src skilldata time =>
    some { s with passtiveSpells := s.passtiveSpells ++ [⟨.ctor src skilldata time, 0, []⟩] }
  | .remove k => some { s with passtiveSpells := s.passtiveSpells.eraseIdx k }
  | .cooldown cooldown => some { s with cooldown }

/-- A spell without passive skills. -/
def system (cooldown : Cooldown) : System Spell Label where
  init := ⟨[], cooldown⟩
  step := step

/-- A skill without a cooldown of its own has none when it is handed an event. -/
def Ready (s : Spell) : Label → Prop
  | .trigger k _ _ => ∀ self ∈ s.passtiveSpells[k]?, self.passtive.skilldata.n32CD = 0 →
      s.cooldown.getCdTime self.passtive.skilldata.id ≤ 0
  | _ => True

end Spell

/-! ## What is counted -/

/-- The multiples of `n` up to `events`. -/
def multiples (n : ℤ) (events : ℕ) : List ℕ :=
  (List.range' 1 events).filter fun m => n ∣ m

theorem multiples_succ (n : ℤ) (events : ℕ) :
    multiples n (events + 1) =
      if n ∣ events + 1 then multiples n events ++ [events + 1] else multiples n events := by
  have hlast : (1 + 1 * events : ℕ) = events + 1 := by omega
  unfold multiples
  rw [List.range'_concat, List.filter_append, hlast]
  split_ifs with hdvd
  · simp [hdvd]
  · simp [hdvd]

theorem multiples_eq_nil {n : ℤ} (hn : 1 ≤ n) (events : ℕ) :
    multiples n events = [] ↔ (events : ℤ) < n := by
  unfold multiples
  rw [List.filter_eq_nil_iff]
  constructor
  · intro hnone
    by_contra hle
    obtain ⟨m, rfl⟩ := Int.eq_ofNat_of_zero_le (by omega : 0 ≤ n)
    refine hnone m (List.mem_range'_1.mpr (by omega)) (by simp)
  · intro hlt m hm hdvd
    obtain ⟨hpos, hle⟩ := List.mem_range'_1.mp hm
    have hdvd' : n ∣ (m : ℤ) := by simpa using hdvd
    have := Int.le_of_dvd (by omega) hdvd'
    omega

/-- A counter of remainders goes back at the multiples. -/
theorem emod_succ {n : ℤ} (hn : 1 ≤ n) (a : ℤ) :
    (a % n + 1 ≥ n → n ∣ a + 1 ∧ (a + 1) % n = 0) ∧
      (¬ a % n + 1 ≥ n → ¬ n ∣ a + 1 ∧ (a + 1) % n = a % n + 1) := by
  have hlt : a % n < n := Int.emod_lt_of_pos a (by omega)
  have hnonneg : 0 ≤ a % n := Int.emod_nonneg a (by omega)
  constructor
  · intro hge
    have hdvd : n ∣ a + 1 := by
      have hsplit := Int.emod_add_mul_ediv a n
      exact ⟨a / n + 1, by rw [mul_add, mul_one]; omega⟩
    exact ⟨hdvd, Int.emod_eq_zero_of_dvd hdvd⟩
  · intro hless
    have hmod : (a + 1) % n = a % n + 1 := by
      rw [← Int.emod_add_emod, Int.emod_eq_of_lt (by omega) (by omega)]
    refine ⟨fun hdvd => ?_, hmod⟩
    rw [Int.emod_eq_zero_of_dvd hdvd] at hmod
    omega

/-! ## One event -/

namespace PasstiveSpell

variable (self : PasstiveSpell) (cond random : ℤ)

theorem isTrigger_skilldata : (self.isTrigger cond random).1.skilldata = self.skilldata := by
  unfold isTrigger
  dsimp only
  split_ifs <;> rfl

theorem isTrigger_other (h : cond ≠ self.skilldata.n32TriggerCondition) :
    self.isTrigger cond random = (self, false) := by
  unfold isTrigger
  have hne : ∀ c, ¬ (self.skilldata.n32TriggerCondition = c ∧ cond = c) :=
    fun c hc => h (hc.2.trans hc.1.symm)
  simp only [hne, if_false, h, and_false, decide_false]

theorem isTrigger_attack (h : self.skilldata.n32TriggerCondition = 2) :
    self.isTrigger 2 random =
      if self.attackTicks + 1 ≥ self.skilldata.n32TriggerInfo then
        ({ self with attackTicks := 0 }, true)
      else ({ self with attackTicks := self.attackTicks + 1 }, false) := by
  simp [isTrigger, h]

theorem isTrigger_hit (h : self.skilldata.n32TriggerCondition = 4) :
    self.isTrigger 4 random =
      if self.attackTicks ≥ self.skilldata.n32TriggerInfo then
        ({ self with bAttackTicks := 0 }, true)
      else ({ self with bAttackTicks := self.bAttackTicks + 1 }, false) := by
  simp [isTrigger, h]

end PasstiveSpell

/-- What the counters of a skill hold. -/
structure Counted.Counts (c : Counted) : Prop where
  attacks : c.passtive.skilldata.n32TriggerCondition = 2 →
    1 ≤ c.passtive.skilldata.n32TriggerInfo → c.passtive.skilldata.n32CD = 0 →
    c.passtive.attackTicks = c.events % c.passtive.skilldata.n32TriggerInfo ∧
      c.fired = multiples c.passtive.skilldata.n32TriggerInfo c.events
  hits : c.passtive.skilldata.n32TriggerCondition = 4 → 1 ≤ c.passtive.skilldata.n32TriggerInfo →
    c.passtive.attackTicks = 0 ∧ c.fired = []

theorem Counted.Counts.ctor (src : ℕ) (skilldata : SkillData) (time : ℚ) :
    Counted.Counts ⟨.ctor src skilldata time, 0, []⟩ where
  attacks _ _ _ := ⟨rfl, rfl⟩
  hits _ _ := ⟨rfl, rfl⟩

theorem Counted.trigger_fst (self : Counted) (cooldown : Cooldown) (cond random : ℤ) :
    (self.trigger cooldown cond random).1 =
      let events := if cond = self.passtive.skilldata.n32TriggerCondition then self.events + 1
        else self.events
      ⟨(self.passtive.isTrigger cond random).1, events,
        if cooldown.getCdTime self.passtive.skilldata.id ≤ 0 ∧
            (self.passtive.isTrigger cond random).2 = true then self.fired ++ [events]
        else self.fired⟩ := by
  unfold Counted.trigger
  dsimp only
  split_ifs <;> rfl

theorem Counted.trigger_own {self : Counted} {cond : ℤ} (cooldown : Cooldown) (random : ℤ)
    (hcond : self.passtive.skilldata.n32TriggerCondition = cond)
    (hready : cooldown.getCdTime self.passtive.skilldata.id ≤ 0) :
    (self.trigger cooldown cond random).1 =
      ⟨(self.passtive.isTrigger cond random).1, self.events + 1,
        if (self.passtive.isTrigger cond random).2 = true then self.fired ++ [self.events + 1]
        else self.fired⟩ := by
  rw [Counted.trigger_fst]
  simp [hcond, hready]

/-- An event that a skill does not look for passes it. -/
theorem Counted.trigger_other {self : Counted} {cond : ℤ} (cooldown : Cooldown) (random : ℤ)
    (hcond : cond ≠ self.passtive.skilldata.n32TriggerCondition) :
    (self.trigger cooldown cond random).1 = self := by
  rw [Counted.trigger_fst, PasstiveSpell.isTrigger_other _ _ _ hcond]
  simp [hcond]

theorem Counted.Counts.trigger {self : Counted} (h : self.Counts) {cooldown : Cooldown}
    (cond random : ℤ) (hready : self.passtive.skilldata.n32CD = 0 →
      cooldown.getCdTime self.passtive.skilldata.id ≤ 0) :
    (self.trigger cooldown cond random).1.Counts := by
  have hdata : (self.trigger cooldown cond random).1.passtive.skilldata =
      self.passtive.skilldata := by
    rw [Counted.trigger_fst]
    exact self.passtive.isTrigger_skilldata cond random
  by_cases hother : cond = self.passtive.skilldata.n32TriggerCondition
  · constructor <;> rw [hdata]
    · intro h2 hn hcd
      obtain ⟨hticks, hfired⟩ := h.attacks h2 hn hcd
      rw [h2] at hother
      subst hother
      obtain ⟨hmult, hbetween⟩ := emod_succ hn self.events
      rw [Counted.trigger_own cooldown random h2 (hready hcd),
        PasstiveSpell.isTrigger_attack _ _ h2, hticks]
      dsimp only
      rw [multiples_succ, ← hfired]
      push_cast
      by_cases hge : (self.events : ℤ) % self.passtive.skilldata.n32TriggerInfo + 1 ≥
          self.passtive.skilldata.n32TriggerInfo
      · simp only [if_pos hge, if_true, if_pos (hmult hge).1, (hmult hge).2, and_self]
      · simp only [if_neg hge, if_neg (hbetween hge).1, (hbetween hge).2, Bool.false_eq_true,
          if_false, and_self]
    · intro h4 hn
      obtain ⟨hticks, hfired⟩ := h.hits h4 hn
      rw [h4] at hother
      subst hother
      have hnot : ¬ self.passtive.attackTicks ≥ self.passtive.skilldata.n32TriggerInfo := by omega
      rw [Counted.trigger_fst, PasstiveSpell.isTrigger_hit _ _ h4, if_neg hnot]
      simp [hticks, hfired]
  · rwa [Counted.trigger_other cooldown random hother]

/-! ## Runs -/

namespace Spell

theorem counts_run {cooldown : Cooldown} {s : Spell} (hs : (system cooldown).Runs Ready s) :
    ∀ self ∈ s.passtiveSpells, self.Counts := by
  refine hs.invariant (P := fun s => ∀ self ∈ s.passtiveSpells, self.Counts) (by simp [system]) ?_
  intro s l s' h hready hstep
  cases l with
  | trigger k cond random =>
      obtain ⟨self, hself, hstep⟩ := Option.bind_eq_some_iff.mp hstep
      cases hstep
      intro c hc
      rcases List.mem_or_eq_of_mem_set hc with hc | rfl
      · exact h c hc
      · exact (h self (List.mem_of_getElem? hself)).trigger cond random (hready self hself)
  | insert src skilldata time =>
      cases hstep
      intro c hc
      rcases List.mem_append.mp hc with hc | hc
      · exact h c hc
      · rw [List.mem_singleton.mp hc]
        exact .ctor src skilldata time
  | remove k =>
      cases hstep
      exact fun c hc => h c (List.mem_of_mem_eraseIdx hc)
  | cooldown cooldown =>
      cases hstep
      exact h

/-- A skill that counts has fired at the multiples of `n` exactly if it counts attacks or has not
been handed `n` hits yet. -/
theorem counted_iff {cooldown : Cooldown} {s : Spell} (hs : (system cooldown).Runs Ready s)
    {self : Counted} (hself : self ∈ s.passtiveSpells)
    (hcond : self.passtive.skilldata.n32TriggerCondition = 2 ∨
      self.passtive.skilldata.n32TriggerCondition = 4)
    (hn : 1 ≤ self.passtive.skilldata.n32TriggerInfo) (hcd : self.passtive.skilldata.n32CD = 0) :
    self.fired = multiples self.passtive.skilldata.n32TriggerInfo self.events ↔
      self.passtive.skilldata.n32TriggerCondition = 2 ∨
        self.events < self.passtive.skilldata.n32TriggerInfo := by
  have hcounts := counts_run hs self hself
  rcases hcond with h2 | h4
  · exact iff_of_true (hcounts.attacks h2 hn hcd).2 (.inl h2)
  · rw [(hcounts.hits h4 hn).2, eq_comm, multiples_eq_nil hn, h4]
    simp

instance (s : Spell) (l : Label) : Decidable (Ready s l) := by
  cases l <;> unfold Ready <;> infer_instance

/-- A skill that fires at every second event of its condition. -/
def everySecond (n32TriggerCondition : ℤ) : SkillData where
  id := 10 * n32TriggerCondition + 1
  n32TriggerCondition := n32TriggerCondition
  n32TriggerInfo := 2
  n32CD := 0
  n32SkillType := 1
  szSelectTargetAffect := []
  szAffectTargetAffect := []

def idle : Cooldown := ⟨fun _ => none, [], fun _ => none, fun _ => none⟩

/-- Attacks and hits by turns, handed to both skills. -/
def brawl : List Label :=
  [.insert 1 (everySecond 2) (-1), .insert 1 (everySecond 4) (-1)] ++
    (List.replicate 4 [.trigger 0 2 0, .trigger 1 2 0, .trigger 0 4 0, .trigger 1 4 0]).flatten

/-- Four attacks, of which the second and the fourth fire. -/
theorem counted_attacks :
    ∃ s, (system idle).Runs Ready s ∧ ∃ c ∈ s.passtiveSpells,
      c.passtive.skilldata = everySecond 2 ∧ c.events = 4 ∧ c.fired = [2, 4] := by
  have hrun : (((system idle).guarded Ready).run ⟨[], idle⟩ brawl).map
      (fun s => (s.passtiveSpells[0]?).map fun c => (c.passtive.skilldata, c.events)) =
      some (some (everySecond 2, 4)) := by
    decide +kernel
  obtain ⟨s, hs, hfirst⟩ := Option.map_eq_some_iff.mp hrun
  obtain ⟨c, hc, hpair⟩ := Option.map_eq_some_iff.mp hfirst
  obtain ⟨hdata, hevents⟩ := Prod.mk.inj hpair
  have hruns : (system idle).Runs Ready s := System.Runs.of_guarded_run brawl .init hs
  have hmem : c ∈ s.passtiveSpells := List.mem_of_getElem? hc
  have hiff := counted_iff hruns hmem (by rw [hdata]; decide) (by rw [hdata]; decide)
    (by rw [hdata]; decide)
  refine ⟨s, hruns, c, hmem, hdata, hevents, ?_⟩
  rw [hiff.mpr (.inl (by rw [hdata]; rfl)), hdata, hevents]
  decide

/-- Four hits, at none of which the skill fires. -/
theorem counted_hits_none :
    ∃ s, (system idle).Runs Ready s ∧ ∃ c ∈ s.passtiveSpells,
      c.passtive.skilldata = everySecond 4 ∧ c.events = 4 ∧ c.fired = [] ∧
      multiples 2 4 = [2, 4] := by
  have hrun : (((system idle).guarded Ready).run ⟨[], idle⟩ brawl).map
      (fun s => (s.passtiveSpells[1]?).map fun c => (c.passtive.skilldata, c.events, c.fired)) =
      some (some (everySecond 4, 4, [])) := by
    decide +kernel
  obtain ⟨s, hs, hsecond⟩ := Option.map_eq_some_iff.mp hrun
  obtain ⟨c, hc, hdata⟩ := Option.map_eq_some_iff.mp hsecond
  simp only [Prod.mk.injEq] at hdata
  exact ⟨s, System.Runs.of_guarded_run brawl .init hs, c, List.mem_of_getElem? hc, hdata.1,
    hdata.2.1, hdata.2.2, by decide⟩

end Spell

end GameServer.Passtives
