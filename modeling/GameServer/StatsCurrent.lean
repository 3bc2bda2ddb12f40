import GameServer.StatsWorld

/-!
# Derived stats are current

A middle value feeds one derived stat, and the attack reads three others. Every branch of
`onTrigger` runs the calculations of what its middle values feed and runs the attack behind the
attributes, except for two: `critrate` when it exits and `updamage`.
-/

/-!
## Values that are recomputed piece by piece

Values stand under keys, and a formula says what each is to be, from inputs and from other values. A
change of the inputs makes some values old; recomputing some keys makes others old that read them.
As long as every old value is still to be recomputed, the values are current when nothing is left to
do.
-/

namespace GameServer.Recompute

variable {σ κ V : Type*}

/-- `reads k j` says that the formula of `k` looks at the value of `j`. -/
structure Rules (σ κ V : Type*) where
  formula : σ → (κ → V) → κ → V
  reads : κ → κ → Prop
  congr : ∀ s v v' k, (∀ j, reads k j → v j = v' j) → formula s v k = formula s v' k

namespace Rules

variable (R : Rules σ κ V)

def Current (s : σ) (v : κ → V) (k : κ) : Prop := v k = R.formula s v k

/-- Every value is current or to be recomputed. -/
def Settled (s : σ) (v : κ → V) (pending : κ → Prop) : Prop := ∀ k, R.Current s v k ∨ pending k

/-- The keys of `c` are recomputed, all from the old values. -/
def recompute [DecidableEq κ] (s : σ) (v : κ → V) (c : List κ) : κ → V :=
  fun k => if k ∈ c then R.formula s v k else v k

variable {R} {s s' : σ} {v : κ → V} {pending pending' : κ → Prop}

theorem Settled.current (h : R.Settled s v pending) (hnone : ∀ k, ¬ pending k) (k : κ) :
    R.Current s v k := (h k).resolve_right (hnone k)

theorem Settled.change (h : R.Settled s v pending) (hp : ∀ k, pending k → pending' k)
    (hs : ∀ k, R.formula s' v k = R.formula s v k ∨ pending' k) : R.Settled s' v pending' := by
  intro k
  rcases hs k with hk | hk
  · exact (h k).imp (fun hc => hc.trans hk.symm) (hp k)
  · exact .inr hk

variable [DecidableEq κ] {c : List κ}

/-- Some keys that do not read each other are recomputed. -/
theorem Settled.recompute (h : R.Settled s v pending)
    (hc : ∀ k ∈ c, ∀ j ∈ c, ¬ R.reads k j) (hp : ∀ k, pending k → k ∈ c ∨ pending' k)
    (hr : ∀ k, k ∉ c → ∀ j ∈ c, R.reads k j → pending' k) :
    R.Settled s (R.recompute s v c) pending' := by
  have hother : ∀ j, j ∉ c → R.recompute s v c j = v j := fun j hj => if_neg hj
  intro k
  by_cases hk : k ∈ c
  · left
    calc R.recompute s v c k = R.formula s v k := if_pos hk
      _ = R.formula s (R.recompute s v c) k :=
        R.congr s _ _ k fun j hj => (hother j fun hjc => hc k hk j hjc hj).symm
  · by_cases hj : ∃ j ∈ c, R.reads k j
    · obtain ⟨j, hjc, hjr⟩ := hj
      exact .inr (hr k hk j hjc hjr)
    · refine (h k).imp (fun hcur => ?_) (fun hpk => (hp k hpk).resolve_left hk)
      calc R.recompute s v c k = v k := hother k hk
        _ = R.formula s v k := hcur
        _ = R.formula s (R.recompute s v c) k :=
          R.congr s _ _ k fun j hjr => (hother j fun hjc => hj ⟨j, hjc, hjr⟩).symm

end Rules

end GameServer.Recompute

namespace GameServer.Stats

open Affects Transition Recompute Entries
open Double (addAll amount scale)

variable {lzm : LzmRepository}

/-! ## What the calculations set and read -/

/-- The stats that `calcStats` sets, strength through shield. -/
def derived : List MidStat :=
  [.Strength, .Intelligence, .Agility, .HpMax, .MpMax, .Attack, .Defence, .ASpeed, .MSpeed, .RecvHp,
    .RecvMp, .BaojiRate, .BaojiTimes, .Hit, .Miss, .Updamage, .Shield]

def Calc.keys : Calc → List MidStat
  | .calcStrength => [.Strength]
  | .calcAgility => [.Agility]
  | .calcIntelligence => [.Intelligence]
  | .calcHpMax => [.HpMax]
  | .calcMpMax => [.MpMax]
  | .calcAttack => [.Attack]
  | .calcDefence => [.Defence]
  | .calcASpeed => [.ASpeed]
  | .calcMSpeed => [.MSpeed]
  | .calcRecvHp => [.RecvHp]
  | .calcRecvMp => [.RecvMp]
  | .calcAttackRange => []
  | .calcBaoji => [.BaojiRate, .BaojiTimes]
  | .calcHit => [.Hit]
  | .calcMiss => [.Miss]
  | .calUpdamage => [.Updamage]
  | .calShield => [.Shield]

/-- What the calculation of a stat sets it to; the other stats are never set. -/
def Entity.formula (lzm : LzmRepository) (e : Entity) : MidStat → ℚ
  | .Strength => e.strength
  | .Agility => e.agility
  | .Intelligence => e.intelligence
  | .HpMax => e.hpMax lzm
  | .MpMax => e.mpMax lzm
  | .Attack => e.attack lzm
  | .Defence => e.defence lzm
  | .ASpeed => e.aSpeed lzm
  | .MSpeed => e.mSpeed
  | .RecvHp => e.recvHp lzm
  | .RecvMp => e.recvMp lzm
  | .BaojiRate => e.mid .BaojiRate
  | .BaojiTimes => e.mid .BaojiTimes
  | .Hit => e.mid .Hit
  | .Miss => e.mid .Miss
  | .Updamage => e.mid .Updamage
  | .Shield => e.mid .Shield
  | X => e.stat X

/-- The attack reads the attributes; a stat that is never set stays what it is. -/
def Reads (X Y : MidStat) : Prop :=
  if X ∈ derived then X = .Attack ∧ (Y = .Strength ∨ Y = .Agility ∨ Y = .Intelligence) else X = Y

/-- Entities of the same middle values, level and row. -/
structure SameInputs (e e' : Entity) : Prop where
  attDat : e'.attDat = e.attDat
  Level : e'.Level = e.Level
  mid : e'.mid = e.mid
  midHpMaxPc : e'.midHpMaxPc = e.midHpMaxPc

theorem formula_congr {e e' : Entity} (h : SameInputs e e') (X : MidStat)
    (hread : ∀ Y, Reads X Y → e.stat Y = e'.stat Y) : e.formula lzm X = e'.formula lzm X := by
  obtain ⟨h1, h2, h3, h4⟩ := h
  have hown : e'.ownStrength = e.ownStrength ∧ e'.ownAgility = e.ownAgility ∧
      e'.ownIntelligence = e.ownIntelligence := by
    simp [Entity.ownStrength, Entity.ownAgility, Entity.ownIntelligence, h1, h2]
  obtain ⟨hs, ha, hi⟩ := hown
  cases X <;> simp only [Entity.formula, Entity.strength, Entity.agility, Entity.intelligence,
    Entity.raised, Entity.hpMax, Entity.mpMax, Entity.withWorth, Entity.defence, Entity.aSpeed,
    Entity.mSpeed, Entity.recvHp, Entity.recvMp, h1, h3, h4, hs, ha, hi]
  case Attack =>
    have hst := hread .Strength (by simp [Reads, derived])
    have hag := hread .Agility (by simp [Reads, derived])
    have hin := hread .Intelligence (by simp [Reads, derived])
    simp only [Entity.attack, Entity.raised, Entity.addVal, h1, h3, hs, ha, hi, hst, hag, hin]
  all_goals exact hread _ (by simp [Reads, derived])

/-- The stats as values that are recomputed. -/
def rules (lzm : LzmRepository) : Rules Entity MidStat ℚ where
  formula e v X := { e with stat := v }.formula lzm X
  reads := Reads
  congr e v v' X h :=
    @formula_congr lzm { e with stat := v } { e with stat := v' } ⟨rfl, rfl, rfl, rfl⟩ X h

theorem addHp_inputs (e : Entity) (hp : ℚ) :
    SameInputs e (e.addHp hp) ∧ (e.addHp hp).stat = e.stat := by
  unfold Entity.addHp
  split_ifs <;> exact ⟨⟨rfl, rfl, rfl, rfl⟩, rfl⟩

theorem addMp_inputs (e : Entity) (mp : ℚ) :
    SameInputs e (e.addMp mp) ∧ (e.addMp mp).stat = e.stat := by
  unfold Entity.addMp
  split_ifs <;> exact ⟨⟨rfl, rfl, rfl, rfl⟩, rfl⟩

theorem set_stat (e : Entity) (X : MidStat) :
    (e.set X (e.formula lzm X)).stat = (rules lzm).recompute e e.stat [X] := by
  funext Y
  by_cases hY : Y = X
  · subst hY
    simp [Entity.set, Rules.recompute, rules]
  · simp [Entity.set, Rules.recompute, hY]

/-- A calculation recomputes its keys and leaves the inputs. -/
theorem run_recomputes (c : Calc) (e : Entity) :
    SameInputs e (c.run lzm e) ∧ (c.run lzm e).stat = (rules lzm).recompute e e.stat c.keys := by
  have hsame : ∀ X v, SameInputs e (e.set X v) := fun X v => ⟨rfl, rfl, rfl, rfl⟩
  cases c with
  | calcHpMax =>
      obtain ⟨hi, hstat⟩ := addHp_inputs (e.set .HpMax (e.hpMax lzm))
        (Battle.recalc e.Hp (e.stat .HpMax) (e.hpMax lzm))
      exact ⟨⟨hi.attDat, hi.Level, hi.mid, hi.midHpMaxPc⟩, hstat.trans (set_stat e .HpMax)⟩
  | calcMpMax =>
      obtain ⟨hi, hstat⟩ := addMp_inputs (e.set .MpMax (e.mpMax lzm))
        (Battle.recalc e.Mp (e.stat .MpMax) (e.mpMax lzm))
      exact ⟨⟨hi.attDat, hi.Level, hi.mid, hi.midHpMaxPc⟩, hstat.trans (set_stat e .MpMax)⟩
  | calcAttackRange =>
      refine ⟨⟨rfl, rfl, rfl, rfl⟩, ?_⟩
      funext Y
      simp [Calc.run, Entity.calcAttackRange, Rules.recompute, Calc.keys]
  | calcBaoji =>
      refine ⟨⟨rfl, rfl, rfl, rfl⟩, ?_⟩
      funext Y
      by_cases hr : Y = .BaojiRate
      · subst hr
        simp [Calc.run, Entity.calcBaoji, Entity.set, Rules.recompute, Calc.keys, rules,
          Entity.formula]
      · by_cases ht : Y = .BaojiTimes
        · subst ht
          simp [Calc.run, Entity.calcBaoji, Entity.set, Rules.recompute, Calc.keys, rules,
            Entity.formula]
        · simp [Calc.run, Entity.calcBaoji, Entity.set, Rules.recompute, Calc.keys, hr, ht]
  | calcStrength => exact ⟨hsame _ _, set_stat e .Strength⟩
  | calcAgility => exact ⟨hsame _ _, set_stat e .Agility⟩
  | calcIntelligence => exact ⟨hsame _ _, set_stat e .Intelligence⟩
  | calcAttack => exact ⟨hsame _ _, set_stat e .Attack⟩
  | calcDefence => exact ⟨hsame _ _, set_stat e .Defence⟩
  | calcASpeed => exact ⟨hsame _ _, set_stat e .ASpeed⟩
  | calcMSpeed => exact ⟨⟨rfl, rfl, rfl, rfl⟩, set_stat e .MSpeed⟩
  | calcRecvHp => exact ⟨hsame _ _, set_stat e .RecvHp⟩
  | calcRecvMp => exact ⟨hsame _ _, set_stat e .RecvMp⟩
  | calcHit => exact ⟨hsame _ _, set_stat e .Hit⟩
  | calcMiss => exact ⟨hsame _ _, set_stat e .Miss⟩
  | calUpdamage => exact ⟨hsame _ _, set_stat e .Updamage⟩
  | calShield => exact ⟨hsame _ _, set_stat e .Shield⟩

/-! ## What a middle value feeds -/

/-- The stat whose formula reads the middle value. -/
def MidStat.feeds : MidStat → MidStat
  | .StrengthPc => .Strength
  | .AgilityPc => .Agility
  | .IntelligencePc => .Intelligence
  | .MpMaxPc => .MpMax
  | .AttackPc | .AttackStrengthPc | .AttackAgilityPc | .AttackIntelligencePc => .Attack
  | .DefencePc => .Defence
  | .MSpeedPc => .MSpeed
  | .RecvHpPc => .RecvHp
  | .RecvMpPc => .RecvMp
  | X => X

/-- A stat is as it was where nothing that feeds it has changed. -/
theorem formula_mid (e : Entity) (mid : MidStat → ℚ) (X : MidStat)
    (h : ∀ Y, MidStat.feeds Y = X → mid Y = e.mid Y) :
    { e with mid := mid }.formula lzm X = e.formula lzm X := by
  have hown : { e with mid := mid }.ownStrength = e.ownStrength ∧
      { e with mid := mid }.ownAgility = e.ownAgility ∧
      { e with mid := mid }.ownIntelligence = e.ownIntelligence := ⟨rfl, rfl, rfl⟩
  obtain ⟨hs, ha, hi⟩ := hown
  cases X with
  | Strength =>
      simp only [Entity.formula, Entity.strength, Entity.raised, hs, h .StrengthPc rfl,
        h .Strength rfl]
  | Agility =>
      simp only [Entity.formula, Entity.agility, Entity.raised, ha, h .AgilityPc rfl,
        h .Agility rfl]
  | Intelligence =>
      simp only [Entity.formula, Entity.intelligence, Entity.raised, hi, h .IntelligencePc rfl,
        h .Intelligence rfl]
  | HpMax =>
      simp only [Entity.formula, Entity.hpMax, Entity.withWorth, Entity.raised, hs, ha, hi,
        h .HpMax rfl]
  | MpMax =>
      simp only [Entity.formula, Entity.mpMax, Entity.withWorth, Entity.raised, hs, ha, hi,
        h .MpMax rfl, h .MpMaxPc rfl]
  | Attack =>
      simp only [Entity.formula, Entity.attack, Entity.raised, Entity.addVal, hs, ha, hi,
        h .Attack rfl, h .AttackPc rfl, h .AttackStrengthPc rfl, h .AttackAgilityPc rfl,
        h .AttackIntelligencePc rfl]
  | Defence =>
      simp only [Entity.formula, Entity.defence, Entity.withWorth, Entity.raised, hs, ha, hi,
        h .Defence rfl, h .DefencePc rfl]
  | ASpeed => simp only [Entity.formula, Entity.aSpeed, hs, ha, hi, h .ASpeed rfl]
  | MSpeed => simp only [Entity.formula, Entity.mSpeed, h .MSpeed rfl, h .MSpeedPc rfl]
  | RecvHp =>
      simp only [Entity.formula, Entity.recvHp, Entity.withWorth, Entity.raised, hs, ha, hi,
        h .RecvHp rfl, h .RecvHpPc rfl]
  | RecvMp =>
      simp only [Entity.formula, Entity.recvMp, Entity.withWorth, Entity.raised, hs, ha, hi,
        h .RecvMp rfl, h .RecvMpPc rfl]
  | BaojiRate => exact h .BaojiRate rfl
  | BaojiTimes => exact h .BaojiTimes rfl
  | Hit => exact h .Hit rfl
  | Miss => exact h .Miss rfl
  | Updamage => exact h .Updamage rfl
  | Shield => exact h .Shield rfl
  | _ => rfl

theorem complete_cons {X : MidStat} {v : Option ℚ} {l : List (MidStat × Option ℚ)}
    {l' : List (MidStat × ℚ)} (h : complete ((X, v) :: l) = some l') :
    ∃ r rest, v = some r ∧ complete l = some rest ∧ l' = (X, r) :: rest := by
  unfold complete at h ⊢
  rw [List.mapM_cons] at h
  obtain ⟨c, hc, h⟩ := Option.bind_eq_some_iff.mp h
  obtain ⟨r, hr, rfl⟩ := Option.map_eq_some_iff.mp hc
  obtain ⟨rest, hrest, h⟩ := Option.bind_eq_some_iff.mp h
  exact ⟨r, rest, hr, hrest, (Option.some.inj h).symm⟩

/-- The amounts are for the stats of the changes. -/
theorem complete_fst {l : List (MidStat × Option ℚ)} {l' : List (MidStat × ℚ)}
    (h : complete l = some l') : l'.map Prod.fst = l.map Prod.fst := by
  induction l generalizing l' with
  | nil =>
      cases h
      rfl
  | cons c l ih =>
      obtain ⟨r, rest, -, hrest, rfl⟩ := complete_cons h
      simp [ih hrest]

def keys (cs : List Calc) : List MidStat := cs.flatMap Calc.keys

/-- Every branch runs the calculation of what it feeds, apart from `updamage` and `critrate`. -/
theorem touches_fed (h : Hook) (k : Kind) (hu : k ≠ .updamage) (hc : k ≠ .critrate) :
    ∀ Y ∈ touches k, MidStat.feeds Y ∈ keys (h.calcs k) := by
  cases h <;> cases k <;> first | decide | exact absurd rfl hu | exact absurd rfl hc

/-! ## Calculations that are left -/

/-- Behind the calculation of an attribute comes that of the attack. -/
def Sound : List Calc → Prop
  | [] => True
  | c :: rest =>
    (c ∈ [Calc.calcStrength, .calcAgility, .calcIntelligence] → Calc.calcAttack ∈ rest) ∧ Sound rest

instance : DecidablePred Sound
  | [] => .isTrue trivial
  | _ :: rest =>
    have := instDecidablePredListCalcSound rest
    inferInstanceAs (Decidable (_ ∧ _))

theorem sound_calcs (h : Hook) (k : Kind) : Sound (h.calcs k) := by
  cases h <;> cases k <;> decide

/-- One calculation of a list, when other keys wait as well. -/
theorem settled_run {e : Entity} {c : Calc} {rest : List Calc} {pending pending' : MidStat → Prop}
    (h : (rules lzm).Settled e e.stat pending) (hsound : Sound (c :: rest))
    (hp : ∀ X, pending X → X ∈ c.keys ∨ pending' X) (hrest : ∀ X ∈ keys rest, pending' X) :
    (rules lzm).Settled (c.run lzm e) (c.run lzm e).stat pending' := by
  obtain ⟨hinputs, hstat⟩ := @run_recomputes lzm c e
  have hformula : ∀ v X, (rules lzm).formula (c.run lzm e) v X = (rules lzm).formula e v X :=
    fun v X => (@formula_congr lzm { e with stat := v } { c.run lzm e with stat := v }
      ⟨hinputs.attDat, hinputs.Level, hinputs.mid, hinputs.midHpMaxPc⟩ X fun _ _ => rfl).symm
  have hderived : ∀ X ∈ c.keys, X ∈ derived := by cases c <;> decide
  have hrun : (rules lzm).Settled e ((rules lzm).recompute e e.stat c.keys) pending' := by
    refine h.recompute ?_ hp ?_
    · intro X hX Y hY hread
      have hXd := hderived X hX
      simp only [rules, Reads, if_pos hXd] at hread
      obtain ⟨rfl, hread⟩ := hread
      cases c <;> simp [Calc.keys] at hX hY
      subst hY
      simp at hread
    · intro X hX Y hY hread
      simp only [rules, Reads] at hread
      split_ifs at hread with hXd
      · obtain ⟨rfl, hread⟩ := hread
        apply hrest
        refine List.mem_flatMap.mpr ⟨.calcAttack, hsound.1 ?_, by simp [Calc.keys]⟩
        rcases hread with rfl | rfl | rfl <;> cases c <;> simp [Calc.keys] at hY ⊢
      · exact absurd (hread ▸ hY) hX
  rw [hstat]
  intro X
  exact (hrun X).imp (fun hcur => hcur.trans (hformula _ X).symm) id

/-! ## Current entities -/

/-- The derived stats are what `calcStats` makes of the entity. -/
def Entity.Current (lzm : LzmRepository) (e : Entity) : Prop :=
  ∀ X ∈ derived, e.stat X = (e.calcStats lzm).stat X

theorem foldl_settled {e : Entity} {cs : List Calc} (hsound : Sound cs)
    (h : (rules lzm).Settled e e.stat (· ∈ keys cs)) :
    (rules lzm).Settled (cs.foldl (Calc.run lzm) e) (cs.foldl (Calc.run lzm) e).stat
      fun _ => False := by
  induction cs generalizing e with
  | nil => exact fun X => (h X).imp id (by simp [keys])
  | cons c rest ih =>
      refine ih hsound.2 (settled_run h hsound (fun X hX => ?_) fun _ => id)
      simpa [keys] using hX

theorem foldl_inputs (e : Entity) (cs : List Calc) :
    SameInputs e (cs.foldl (Calc.run lzm) e) ∧
      ∀ X ∉ derived, (cs.foldl (Calc.run lzm) e).stat X = e.stat X := by
  induction cs generalizing e with
  | nil => exact ⟨⟨rfl, rfl, rfl, rfl⟩, fun _ _ => rfl⟩
  | cons c rest ih =>
      obtain ⟨h1, h2⟩ := @run_recomputes lzm c e
      obtain ⟨h3, h4⟩ := ih (c.run lzm e)
      refine ⟨⟨h3.attDat.trans h1.attDat, h3.Level.trans h1.Level, h3.mid.trans h1.mid,
        h3.midHpMaxPc.trans h1.midHpMaxPc⟩, fun X hX => (h4 X hX).trans ?_⟩
      have hkeys : ∀ X ∈ c.keys, X ∈ derived := by cases c <;> decide
      rw [h2, Rules.recompute, if_neg fun hk => hX (hkeys X hk)]

theorem foldl_stat {e : Entity} (h : ∀ X, e.formula lzm X = e.stat X) (cs : List Calc) :
    (cs.foldl (Calc.run lzm) e).stat = e.stat := by
  induction cs generalizing e with
  | nil => rfl
  | cons c rest ih =>
      obtain ⟨h1, h2⟩ := @run_recomputes lzm c e
      have hsame : (c.run lzm e).stat = e.stat := by
        rw [h2]
        funext X
        unfold Rules.recompute
        split_ifs
        · exact h X
        · rfl
      refine (ih fun X => ?_).trans hsame
      rw [← formula_congr h1 X fun Y _ => by rw [hsame], h X, hsame]

/-- Calculations of every derived stat leave a current entity. -/
theorem foldl_current {cs : List Calc} (hsound : Sound cs) (hall : ∀ X ∈ derived, X ∈ keys cs)
    (e : Entity) (X : MidStat) :
    (cs.foldl (Calc.run lzm) e).stat X = (cs.foldl (Calc.run lzm) e).formula lzm X := by
  have hsettled : (rules lzm).Settled e e.stat (· ∈ keys cs) := by
    intro X
    by_cases hX : X ∈ derived
    · exact .inr (hall X hX)
    · left
      cases X <;> first | exact absurd (by decide) hX | rfl
  exact (foldl_settled hsound hsettled).current (fun _ => id) X

theorem current_iff {e : Entity} : e.Current lzm ↔ ∀ X, e.stat X = e.formula lzm X := by
  unfold Entity.Current Entity.calcStats
  have hinputs := (@foldl_inputs lzm e calcStats).1
  have hunset := (@foldl_inputs lzm e calcStats).2
  have hcur := @foldl_current lzm calcStats (by decide)
    (show ∀ X ∈ derived, X ∈ keys calcStats by decide) e
  generalize hcs : calcStats = cs at *
  constructor
  · intro h
    have hstat : e.stat = (cs.foldl (Calc.run lzm) e).stat := by
      funext X
      by_cases hX : X ∈ derived
      · exact h X hX
      · exact (hunset X hX).symm
    intro X
    calc e.stat X = (cs.foldl (Calc.run lzm) e).stat X := congrFun hstat X
      _ = (cs.foldl (Calc.run lzm) e).formula lzm X := hcur X
      _ = e.formula lzm X := (formula_congr hinputs X fun Y _ => congrFun hstat Y).symm
  · intro h X _
    exact (congrFun (foldl_stat (fun X => (h X).symm) cs) X).symm

/-! ## Runs -/

/-- The middle value that an `updamage` of `v` leaves. -/
def Entity.updamageAfter (self : Entity) (h : Hook) (v : ℚ) : ℚ :=
  Double.add (self.mid .Updamage) (h.add * v)

theorem addMid_updamage (e : Entity) (h : Hook) (v : ℚ) :
    (e.addMid h [(.Updamage, v)]).mid .Updamage = e.updamageAfter h v := by
  simp [Entity.addMid, Entity.updamageAfter, addAll, scale]

namespace World

variable {w w' w₀ : World} {e : ℕ}

/-- A stat of the entity is still to be calculated. -/
def Pending (w : World) (e : ℕ) (X : MidStat) : Prop := ∃ p ∈ w.running, p.1 = e ∧ X ∈ keys p.2

structure Inv (lzm : LzmRepository) (e : ℕ) (w : World) : Prop where
  settled : (rules lzm).Settled (w.entities e) (w.entities e).stat (w.Pending e)
  sound : ∀ p ∈ w.running, Sound p.2

/-- An affect of the hero is no `critrate`, and an `updamage` that leaves the middle value. -/
def Recomputed (e : ℕ) (w : World) : Label → Prop
  | .trigger h owner _ d =>
    owner = e → d.kind ≠ .critrate ∧
      (d.kind = .updamage → ∀ v ∈ d.get 3, (w.entities e).updamageAfter h v =
        (w.entities e).mid .Updamage)
  | _ => True

/-- A call begins, and with it the calculations that its changes ask for. -/
theorem Inv.begin (h : Inv lzm e w) {f : ℕ} {v : Entity} {cs : List Calc}
    (hstat : v.stat = (w.entities f).stat) (hsound : Sound cs)
    (hformula : f = e → ∀ X, v.formula lzm X = (w.entities f).formula lzm X ∨ X ∈ keys cs) :
    Inv lzm e { w.put f v with running := w.running ++ [(f, cs)] } where
  settled := by
    have hp : ∀ X, w.Pending e X →
        Pending { w.put f v with running := w.running ++ [(f, cs)] } e X := by
      rintro X ⟨p, hmem, hpe, hX⟩
      exact ⟨p, List.mem_append_left _ hmem, hpe, hX⟩
    by_cases hfe : f = e
    · subst hfe
      have hv : (w.put f v).entities f = v := w.put_self f v
      change (rules lzm).Settled ((w.put f v).entities f) ((w.put f v).entities f).stat _
      rw [hv, hstat]
      refine h.settled.change hp fun X => ?_
      refine (hformula rfl X).imp (fun hX => ?_) fun hX => ?_
      · calc (rules lzm).formula v (w.entities f).stat X
            = (rules lzm).formula v v.stat X := by rw [hstat]
          _ = (rules lzm).formula (w.entities f) (w.entities f).stat X := hX
      · exact ⟨(f, cs), List.mem_append_right _ (List.mem_singleton_self _), rfl, hX⟩
    · have hv : (w.put f v).entities e = w.entities e := w.put_other (Ne.symm hfe) v
      change (rules lzm).Settled ((w.put f v).entities e) ((w.put f v).entities e).stat _
      rw [hv]
      exact h.settled.change hp fun _ => .inl rfl
  sound p hmem := by
    rcases List.mem_append.mp hmem with hmem | hmem
    · exact h.sound p hmem
    · rw [List.mem_singleton.mp hmem]
      exact hsound

theorem amounts_updamage {a src : Entity} {d : Data} {l : List (MidStat × ℚ)}
    (hl : a.amounts src d = some l) (hkind : d.kind = .updamage) :
    ∃ v ∈ d.get 3, l = [(.Updamage, v)] := by
  simp only [Entity.amounts, Data.changes, hkind] at hl
  obtain ⟨v, rest, hv, hrest, rfl⟩ := complete_cons hl
  obtain rfl : [] = rest := Option.some.inj hrest
  exact ⟨v, hv, rfl⟩

/-- The changes of an affect that leave everything current but what its branch calculates. -/
theorem formula_addMid {a src : Entity} {h : Hook} {d : Data} {l : List (MidStat × ℚ)}
    (hl : a.amounts src d = some l) (hc : d.kind ≠ .critrate)
    (hu : d.kind = .updamage → ∀ v ∈ d.get 3, a.updamageAfter h v = a.mid .Updamage)
    (X : MidStat) :
    (a.addMid h l).formula lzm X = a.formula lzm X ∨ X ∈ keys (h.calcs d.kind) := by
  have hother : ∀ Y ∉ l.map Prod.fst, (a.addMid h l).mid Y = a.mid Y := fun Y hY =>
    Double.addAll_of_not_mem (by rwa [Double.scale_fst])
  by_cases hkind : d.kind = .updamage
  · obtain ⟨v, hv, rfl⟩ := amounts_updamage hl hkind
    refine .inl (formula_mid a _ X fun Y _ => ?_)
    by_cases hY : Y = .Updamage
    · subst hY
      exact (addMid_updamage a h v).trans (hu hkind v hv)
    · exact hother Y (by simpa using hY)
  · by_cases hX : X ∈ keys (h.calcs d.kind)
    · exact .inr hX
    · left
      refine formula_mid a _ X fun Y hY => hother Y ?_
      rw [complete_fst hl]
      intro hmem
      obtain ⟨c, hcm, rfl⟩ := List.mem_map.mp hmem
      exact hX (hY ▸ touches_fed h d.kind hkind hc c.1 (changes_touch hcm))

theorem Inv.go (h : Inv lzm e w) {k f : ℕ} {c : Calc} {rest : List Calc}
    (hk : w.running[k]? = some (f, c :: rest)) :
    Inv lzm e { w.put f (c.run lzm (w.entities f)) with running := w.running.set k (f, rest) } where
  settled := by
    have hsound : Sound (c :: rest) := h.sound _ (List.mem_of_getElem? hk)
    by_cases hfe : f = e
    · subst hfe
      have hv : (w.put f (c.run lzm (w.entities f))).entities f = c.run lzm (w.entities f) :=
        w.put_self f _
      change (rules lzm).Settled ((w.put f _).entities f) ((w.put f _).entities f).stat _
      rw [hv]
      refine settled_run h.settled hsound ?_ ?_
      · rintro X ⟨p, hmem, hpe, hX⟩
        rcases eq_or_mem_set hk hmem with rfl | hp
        · rw [keys, List.flatMap_cons, List.mem_append] at hX
          exact hX.imp id fun hX => ⟨(f, rest), mem_set_self hk, rfl, hX⟩
        · exact .inr ⟨p, hp, hpe, hX⟩
      · exact fun X hX => ⟨(f, rest), mem_set_self hk, rfl, hX⟩
    · have hv : (w.put f (c.run lzm (w.entities f))).entities e = w.entities e :=
        w.put_other (Ne.symm hfe) _
      change (rules lzm).Settled ((w.put f _).entities e) ((w.put f _).entities e).stat _
      rw [hv]
      refine h.settled.change ?_ fun _ => .inl rfl
      rintro X ⟨p, hmem, hpe, hX⟩
      rcases eq_or_mem_set hk hmem with rfl | hp
      · exact absurd hpe hfe
      · exact ⟨p, hp, hpe, hX⟩
  sound p hmem := by
    rcases List.mem_or_eq_of_mem_set hmem with hmem | rfl
    · exact h.sound p hmem
    · exact (h.sound _ (List.mem_of_getElem? hk)).2

theorem Inv.other (h : Inv lzm e w) (f : ℕ) (Hp Mp : ℚ) (kept : Bool) :
    Inv lzm e (w.put f { w.entities f with Hp := Hp, Mp := Mp, kept := kept }) where
  settled := by
    by_cases hfe : f = e
    · subst hfe
      rw [w.put_self]
      exact h.settled
    · rw [w.put_other (Ne.symm hfe)]
      exact h.settled
  sound := h.sound

theorem Inv.step (h : Inv lzm e w) {l : Label} (hok : Recomputed e w l)
    (hs : w.step lzm l = some w') : Inv lzm e w' := by
  cases l with
  | trigger hook owner source d =>
      obtain ⟨l, hl, hs⟩ := Option.bind_eq_some_iff.mp hs
      cases hs
      refine h.begin rfl (sound_calcs hook d.kind) fun hoe X => ?_
      obtain ⟨hc, hu⟩ := hok hoe
      exact formula_addMid hl hc (hoe ▸ hu) X
  | go k =>
      simp only [World.step] at hs
      split at hs <;> cases hs
      exact h.go ‹_›
  | levelUp f level =>
      cases hs
      refine h.begin rfl (by decide) fun _ X => ?_
      by_cases hX : X ∈ derived
      · exact .inr ((show ∀ X ∈ derived, X ∈ keys calcStats by decide) X hX)
      · left
        cases X <;> first | exact absurd (by decide) hX | rfl
  | other f Hp Mp kept =>
      cases hs
      exact h.other f Hp Mp kept

theorem Inv.current (h : Inv lzm e w) (hq : w.Quiet e) : (w.entities e).Current lzm := by
  refine current_iff.mpr fun X => (h.settled.current ?_ X)
  rintro Y ⟨p, hmem, hpe, hY⟩
  rw [hq p hmem hpe] at hY
  cases hY

/-- The stats of a hero are current after every affect that enters or exits, as long as no
`updamage` changes its middle value; one that does leaves a stat that is not current and nothing to
calculate. -/
theorem onTrigger_current (hquiet : w₀.running = []) (hcur : (w₀.entities e).Current lzm) :
    (∀ w, (system lzm w₀).Runs (Recomputed e) w → w.Quiet e → (w.entities e).Current lzm) ∧
    (∀ (w w' : World) (h : Hook) (source : ℕ) (d : Data), (w.entities e).Current lzm → w.Quiet e →
      d.kind = .updamage → ¬ Recomputed e w (.trigger h e source d) →
      w.step lzm (.trigger h e source d) = some w' →
      w'.Quiet e ∧ ¬ (w'.entities e).Current lzm) := by
  constructor
  · intro w hw hq
    have hinit : Inv lzm e (system lzm w₀).init :=
      ⟨fun X => .inl (current_iff.mp hcur X), by simp [system, hquiet]⟩
    have hinv : Inv lzm e w := hw.invariant hinit fun _ _ _ hi hok hs => hi.step hok hs
    exact hinv.current hq
  · intro w w' h source d hc hq hkind hne hs
    obtain ⟨l, hl, hs⟩ := Option.bind_eq_some_iff.mp hs
    cases hs
    constructor
    · intro p hmem hpe
      rcases List.mem_append.mp hmem with hmem | hmem
      · exact hq p hmem hpe
      · rw [List.mem_singleton.mp hmem, hkind]
        rfl
    · intro hc'
      obtain ⟨v, hv, rfl⟩ := amounts_updamage hl hkind
      have hold : (w.entities e).stat .Updamage = (w.entities e).mid .Updamage :=
        current_iff.mp hc .Updamage
      have hput : (w.put e ((w.entities e).addMid h [(.Updamage, v)])).entities e =
          (w.entities e).addMid h [(.Updamage, v)] := w.put_self e _
      have hnew := current_iff.mp hc' .Updamage
      change ((w.put e _).entities e).stat .Updamage =
        ((w.put e _).entities e).mid .Updamage at hnew
      rw [hput, addMid_updamage] at hnew
      have hkept : (w.entities e).updamageAfter h v = (w.entities e).mid .Updamage :=
        hnew.symm.trans hold
      refine hne fun _ => ⟨by simp [hkind], fun _ v' hv' => ?_⟩
      obtain rfl : v = v' := Option.some.inj (hv.symm.trans hv')
      exact hkept

instance (w : World) (l : Label) : Decidable (Recomputed e w l) := by
  cases l <;> unfold Recomputed <;> infer_instance

theorem plainHero_current : plainHero.Current plainLzm := by
  unfold Entity.Current
  decide +kernel

/-- A hero gets five points of strength and ten of the maximal mana. -/
theorem onTrigger_current_strength :
    ∃ w, (system plainLzm plainWorld).Runs (Recomputed 0) w ∧ (w.entities 0).stat .Strength = 5 ∧
      (w.entities 0).stat .MpMax = 110 ∧ (w.entities 0).Current plainLzm := by
  have hrun : (((system plainLzm plainWorld).guarded (Recomputed 0)).run plainWorld
      ([.trigger .onEnter 0 1 ⟨.upstr, [0, 0, 5]⟩, .trigger .onEnter 0 0 ⟨.mp, [0, 0, 10]⟩] ++
        List.replicate 9 (.go 0) ++ [.go 1])).map
      (fun w => (w.running, (w.entities 0).stat .Strength, (w.entities 0).stat .MpMax)) =
        some ([(0, []), (0, [])], 5, 110) := by
    decide +kernel
  obtain ⟨w, hw, hstat⟩ := Option.map_eq_some_iff.mp hrun
  obtain ⟨hrunning, hs, hm⟩ : w.running = [(0, []), (0, [])] ∧ (w.entities 0).stat .Strength = 5 ∧
      (w.entities 0).stat .MpMax = 110 := by simpa using hstat
  have hruns : (system plainLzm plainWorld).Runs (Recomputed 0) w :=
    System.Runs.of_guarded_run _ .init hw
  have hq : w.Quiet 0 := by simp [Quiet, hrunning]
  have hquiet : plainWorld.running = [] := rfl
  exact ⟨w, hruns, hs, hm, (onTrigger_current hquiet plainHero_current).1 w hruns hq⟩

/-- The damage of a hero is to grow by half and does not. -/
theorem onTrigger_not_current :
    plainHero.Current plainLzm ∧
    ∃ w, plainWorld.step plainLzm (.trigger .onEnter 0 0 ⟨.updamage, [0, 1 / 2]⟩) = some w ∧
      w.Quiet 0 ∧ (w.entities 0).stat .Updamage = 1 ∧
      ((w.entities 0).calcStats plainLzm).stat .Updamage = 3 / 2 := by
  refine ⟨plainHero_current, ?_⟩
  have hstep : (plainWorld.step plainLzm (.trigger .onEnter 0 0 ⟨.updamage, [0, 1 / 2]⟩)).map
      (fun w => (w.running, (w.entities 0).stat .Updamage,
        ((w.entities 0).calcStats plainLzm).stat .Updamage)) = some ([(0, [])], 1, 3 / 2) := by
    decide +kernel
  obtain ⟨w, hw, hstat⟩ := Option.map_eq_some_iff.mp hstep
  obtain ⟨hrunning, hs, hc⟩ : w.running = [(0, [])] ∧ (w.entities 0).stat .Updamage = 1 ∧
      ((w.entities 0).calcStats plainLzm).stat .Updamage = 3 / 2 := by simpa using hstat
  exact ⟨w, hw, by simp [Quiet, hrunning], hs, hc⟩

end World

end GameServer.Stats
