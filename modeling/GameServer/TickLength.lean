import GameServer.AffectTable

/-!
# The length of the ticks

An affect that acts again and again counts down its duration and its period by the length of every
tick. The duration is tested first. The first tick that does not end it acts, and every action
starts a new period at the end of its tick, so that the rest of the tick is lost: how often the
affect acts depends on the ticks.
-/

namespace GameServer.Affects

variable {aff : Affect} {period left trigger dt : ℚ} {ticks : List ℚ}

/-- One `onExec` of a skill affect: its clock and whether it acts, unless it exits. -/
def Affect.exec (aff : Affect) (dt : ℚ) : Option (Clock × Bool) :=
  let clock := aff.elapse dt
  if aff.cls.expired clock then none
  else
    let triggerTime := clock.triggerTime - dt
    if triggerTime ≤ 0 then
      some ({ clock with triggerTime := seconds (aff.data.getOr 5) }, true)
    else some ({ clock with triggerTime := triggerTime }, false)

/-- `onExec` in the table, `.call` being `calAffect`. -/
theorem onExec_exec {t : AffectTable} {a : ℕ} (hcls : (t.heap a).cls = .skillAffect) (dt : ℚ) :
    t.onExec a dt =
      match (t.heap a).exec dt with
      | none => (t.setClock a ((t.heap a).elapse dt)).onExit a
      | some (clock, acts) => if acts then (t.setClock a clock).push [.call]
        else t.setClock a clock := by
  unfold AffectTable.onExec Affect.exec
  simp only [hcls]
  split_ifs <;> first | contradiction | rfl

/-- How often a skill affect acts in ticks of these lengths until it exits. -/
def Affect.calls (aff : Affect) : List ℚ → ℕ
  | [] => 0
  | dt :: ticks =>
    match aff.exec dt with
    | none => 0
    | some (clock, acts) => { aff with clock := clock }.calls ticks + if acts then 1 else 0

/-! ## Two countdowns -/

/-- The same for the two countdowns alone. -/
def fires (period : ℚ) : ℚ → ℚ → List ℚ → ℕ
  | _, _, [] => 0
  | left, trigger, dt :: ticks =>
    if left - dt ≤ 0 then 0
    else if trigger - dt ≤ 0 then fires period (left - dt) period ticks + 1
    else fires period (left - dt) (trigger - dt) ticks

theorem calls_eq_fires (hcls : aff.cls = .skillAffect) (ticks : List ℚ) :
    aff.calls ticks =
      fires (seconds (aff.data.getOr 5)) aff.clock.leftTime aff.clock.triggerTime ticks := by
  induction ticks generalizing aff with
  | nil => rfl
  | cons dt ticks ih =>
      have helapse : aff.elapse dt = { aff.clock with leftTime := aff.clock.leftTime - dt } := by
        unfold Affect.elapse
        rw [hcls]
      have hexpired : ∀ clock, aff.cls.expired clock ↔ clock.leftTime ≤ 0 := by
        intro clock
        rw [hcls]
        rfl
      unfold Affect.calls Affect.exec fires
      simp only [helapse, hexpired]
      split_ifs with hend hact
      · rfl
      · exact congrArg (· + 1) (ih hcls)
      · exact ih hcls

/-- Ticks no longer than the period. -/
def Ticks (period : ℚ) (ticks : List ℚ) : Prop := ∀ dt ∈ ticks, 0 < dt ∧ dt ≤ period

theorem fires_of_end (hend : left - dt ≤ 0) : fires period left trigger (dt :: ticks) = 0 := by
  rw [fires, if_pos hend]

theorem fires_of_act (hend : ¬ left - dt ≤ 0) (hact : trigger - dt ≤ 0) :
    fires period left trigger (dt :: ticks) = fires period (left - dt) period ticks + 1 := by
  rw [fires, if_neg hend, if_pos hact]

theorem fires_of_wait (hend : ¬ left - dt ≤ 0) (hact : ¬ trigger - dt ≤ 0) :
    fires period left trigger (dt :: ticks) = fires period (left - dt) (trigger - dt) ticks := by
  rw [fires, if_neg hend, if_neg hact]

/-- In ticks of the period every tick acts until the duration is over. -/
theorem fires_replicate {k m : ℕ} (hpos : 0 < period) (htrigger : trigger ≤ period)
    (hlow : k * period < left) (hhigh : left ≤ (k + 1) * period) (hm : k + 1 ≤ m) :
    fires period left trigger (List.replicate m period ++ ticks) = k := by
  induction k generalizing left trigger m with
  | zero =>
      obtain ⟨m, rfl⟩ : ∃ n, m = n + 1 := ⟨m - 1, by omega⟩
      exact fires_of_end (by push_cast at hhigh; linarith)
  | succ k ih =>
      obtain ⟨m, rfl⟩ : ∃ n, m = n + 1 := ⟨m - 1, by omega⟩
      push_cast at hlow hhigh
      have hk : 0 ≤ k * period := by positivity
      have hmore : ¬ left - period ≤ 0 := by linarith
      rw [List.replicate_succ, List.cons_append, fires_of_act hmore (by linarith),
        ih le_rfl (by linarith) (by linarith) (by omega)]

/-- An action takes at least a period after the one before. -/
theorem fires_upper (hticks : Ticks period ticks)
    (hfires : fires period left trigger ticks ≠ 0) :
    trigger + (fires period left trigger ticks - 1) * period < left := by
  induction ticks generalizing left trigger with
  | nil => exact absurd rfl hfires
  | cons dt ticks ih =>
      obtain ⟨hdt, hle⟩ := hticks dt List.mem_cons_self
      have hrest : Ticks period ticks := fun x hx => hticks x (List.mem_cons_of_mem _ hx)
      by_cases hend : left - dt ≤ 0
      · rw [fires_of_end hend] at hfires
        exact absurd rfl hfires
      · by_cases hact : trigger - dt ≤ 0
        · rw [fires_of_act hend hact]
          push_cast
          by_cases hnone : fires period (left - dt) period ticks = 0
          · rw [hnone]
            push_cast
            linarith
          · linarith [ih hrest hnone]
        · rw [fires_of_wait hend hact] at hfires ⊢
          linarith [ih hrest hfires]

/-- An action comes less than two periods after the one before. -/
theorem fires_lower (hpos : 0 < period) (hticks : Ticks period ticks) (htrigger : trigger ≤ period)
    (hall : left ≤ ticks.sum) :
    left ≤ max trigger 0 + period + fires period left trigger ticks * (2 * period) := by
  induction ticks generalizing left trigger with
  | nil =>
      have hmax : 0 ≤ max trigger 0 := le_max_right _ _
      rw [List.sum_nil] at hall
      simp only [fires, Nat.cast_zero, zero_mul]
      linarith
  | cons dt ticks ih =>
      obtain ⟨hdt, hle⟩ := hticks dt List.mem_cons_self
      have hrest : Ticks period ticks := fun x hx => hticks x (List.mem_cons_of_mem _ hx)
      have hmax : trigger ≤ max trigger 0 ∧ 0 ≤ max trigger 0 := ⟨le_max_left _ _, le_max_right _ _⟩
      rw [List.sum_cons] at hall
      by_cases hend : left - dt ≤ 0
      · rw [fires_of_end hend]
        push_cast
        linarith
      · by_cases hact : trigger - dt ≤ 0
        · have hnext := @ih (left - dt) period hrest le_rfl (by linarith)
          rw [max_eq_left hpos.le] at hnext
          rw [fires_of_act hend hact]
          push_cast
          linarith
        · have hnext := @ih (left - dt) (trigger - dt) hrest (by linarith) (by linarith)
          rw [max_eq_left (by linarith : 0 ≤ trigger - dt)] at hnext
          rw [fires_of_wait hend hact]
          linarith

/-! ## The affect -/

/-- The clock of a new skill affect with a period. -/
theorem new_clock {owner : ℕ} {source : Option ℕ} {d : Data} {skillId : ℤ} {b : Birth}
    (hnew : Affect.new owner source d .skillAffect skillId b = some aff)
    (hperiod : 0 < seconds (d.getOr 5)) :
    aff.cls = .skillAffect ∧ aff.data = d ∧ aff.clock.leftTime = seconds (d.getOr 6) ∧
      aff.clock.triggerTime = -1 := by
  have hne : d.getOr 5 ≠ 0 := by
    intro hzero
    rw [hzero] at hperiod
    simp [seconds] at hperiod
  unfold Affect.new at hnew
  simp only [Class.effectTime] at hnew
  split at hnew
  · next effectTime control ht hc =>
      cases ht
      cases hnew
      exact ⟨rfl, rfl, rfl, if_pos hne⟩
  · cases hnew

/-- The ticks decide between about `L / 2 P` and `L / P` actions. -/
theorem calls_bounds {owner : ℕ} {source : Option ℕ} {d : Data} {skillId : ℤ} {b : Birth}
    (hnew : Affect.new owner source d .skillAffect skillId b = some aff)
    (hperiod : 0 < seconds (d.getOr 5)) (hticks : Ticks (seconds (d.getOr 5)) ticks)
    (hall : seconds (d.getOr 6) ≤ ticks.sum) :
    (aff.calls ticks ≠ 0 → (aff.calls ticks - 1) * seconds (d.getOr 5) < seconds (d.getOr 6)) ∧
      seconds (d.getOr 6) ≤ (2 * aff.calls ticks + 1) * seconds (d.getOr 5) := by
  obtain ⟨hcls, hdata, hleft, htrigger⟩ := new_clock hnew hperiod
  rw [calls_eq_fires hcls, hdata, hleft, htrigger]
  constructor
  · intro hfires
    cases ticks with
    | nil => exact absurd rfl hfires
    | cons dt ticks =>
        have hdt := (hticks dt List.mem_cons_self).1
        by_cases hend : seconds (d.getOr 6) - dt ≤ 0
        · exact absurd (fires_of_end hend) hfires
        · rw [fires_of_act hend (by linarith)]
          push_cast
          by_cases hnone : fires (seconds (d.getOr 5)) (seconds (d.getOr 6) - dt)
            (seconds (d.getOr 5))
              ticks = 0
          · rw [hnone]
            push_cast
            linarith
          · linarith [fires_upper (fun x hx => hticks x (List.mem_cons_of_mem _ hx)) hnone]
  · have hlow := @fires_lower _ _ (-1) _ hperiod hticks (by linarith) hall
    rw [max_eq_right (by norm_num)] at hlow
    linarith

theorem exists_periods {P L : ℚ} (hP : 0 < P) (hL : 0 < L) :
    ∃ k : ℕ, k * P < L ∧ L ≤ (k + 1) * P := by
  obtain ⟨k, hk⟩ : ∃ k, ⌈L / P⌉₊ = k + 1 :=
    Nat.exists_eq_succ_of_ne_zero (Nat.ceil_pos.mpr (div_pos hL hP)).ne'
  have hlow : (k : ℚ) < L / P := Nat.lt_ceil.mp (by omega)
  have hhigh : L / P ≤ (k + 1 : ℕ) := hk ▸ Nat.le_ceil (L / P)
  push_cast at hhigh
  exact ⟨k, (lt_div_iff₀ hP).mp hlow, (div_le_iff₀ hP).mp hhigh⟩

/-- An affect acts the same number of times in all ticks of one total exactly if it has no
duration. -/
theorem calls_tick_free_iff {owner : ℕ} {source : Option ℕ} {d : Data} {skillId : ℤ} {b : Birth}
    (hnew : Affect.new owner source d .skillAffect skillId b = some aff)
    (hperiod : 0 < seconds (d.getOr 5)) :
    (∀ p q, Ticks (seconds (d.getOr 5)) p → Ticks (seconds (d.getOr 5)) q → p.sum = q.sum →
      aff.calls p = aff.calls q) ↔ seconds (d.getOr 6) ≤ 0 := by
  obtain ⟨hcls, hdata, hleft, htrigger⟩ := new_clock hnew hperiod
  simp only [calls_eq_fires hcls, hdata, hleft, htrigger]
  generalize seconds (d.getOr 5) = P at *
  generalize seconds (d.getOr 6) = L at *
  constructor
  · intro hall
    by_contra hL
    rw [not_le] at hL
    obtain ⟨k, hlow, hhigh⟩ := exists_periods hperiod hL
    have hP : Ticks P (List.replicate (k + 2) P) := by
      intro dt hdt
      rw [List.eq_of_mem_replicate hdt]
      exact ⟨hperiod, le_rfl⟩
    -- a first tick that the last period has room for
    have hshort : Ticks P ((L - k * P) / 2 :: (List.replicate (k + 1) P ++
        [P - (L - k * P) / 2])) := by
      intro dt hdt
      rcases List.mem_cons.mp hdt with rfl | hdt
      · constructor <;> linarith
      · rcases List.mem_append.mp hdt with hdt | hdt
        · rw [List.eq_of_mem_replicate hdt]
          exact ⟨hperiod, le_rfl⟩
        · rw [List.mem_singleton.mp hdt]
          constructor <;> linarith
    have hlong : fires P L (-1) (List.replicate (k + 2) P) = k := by
      rw [← List.append_nil (List.replicate (k + 2) P)]
      exact fires_replicate hperiod (by linarith) hlow hhigh (by omega)
    have hmore : fires P L (-1)
        ((L - k * P) / 2 :: (List.replicate (k + 1) P ++ [P - (L - k * P) / 2])) = k + 1 := by
      have hk : 0 ≤ k * P := by positivity
      rw [fires_of_act (by linarith) (by linarith),
        fires_replicate hperiod le_rfl (by linarith) (by linarith) le_rfl]
    have hsame := hall _ _ hP hshort (by simp; ring)
    omega
  · intro hL p q hp hq _
    have hzero : ∀ ticks, Ticks P ticks → fires P L (-1) ticks = 0 := by
      intro ticks hticks
      cases ticks with
      | nil => rfl
      | cons dt ticks => exact fires_of_end (by linarith [(hticks dt List.mem_cons_self).1])
    rw [hzero p hp, hzero q hq]

/-- A burn of three seconds, every second. -/
def burn : Data := ⟨.damage, [1, 1, 0, 1, 3]⟩

/-- An affect without a duration acts in no ticks. -/
theorem calls_tick_free_none :
    ∃ aff, Affect.new 0 none ⟨.damage, [1, 1, 0, 1, 0]⟩ .skillAffect 7 ⟨1, 0, false⟩ = some aff ∧
      aff.calls [1000, 500] = aff.calls [500, 500, 500] := by
  refine ⟨_, rfl, ?_⟩
  have hperiod : 0 < seconds (Data.getOr ⟨.damage, [1, 1, 0, 1, 0]⟩ 5) := by decide +kernel
  have hleft : seconds (Data.getOr ⟨.damage, [1, 1, 0, 1, 0]⟩ 6) ≤ 0 := by decide +kernel
  exact (calls_tick_free_iff rfl hperiod).mpr hleft [1000, 500] [500, 500, 500]
    (by unfold Ticks; decide +kernel) (by unfold Ticks; decide +kernel) (by norm_num)

/-- The burn acts twice in ticks of a second and three times if the first tick is half a second. -/
theorem calls_not_tick_free :
    ∃ aff, Affect.new 0 none burn .skillAffect 7 ⟨1, 0, false⟩ = some aff ∧
      aff.calls [1000, 1000, 1000] = 2 ∧ aff.calls [500, 1000, 1000, 500] = 3 := by
  refine ⟨_, rfl, ?_⟩
  decide +kernel

end GameServer.Affects
