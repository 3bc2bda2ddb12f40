import GameServer.StatsCurrent

/-!
# What an affect takes back

`onExit` works its amounts out again. Those of the data are the same as at `onEnter`; the others are
read off the owner or the source, who may have changed since then. The middle values come back where
no sum is rounded.
-/

namespace GameServer.Stats

open Affects Transition
open Double (add mul addAll amount scale Exact)

variable {lzm : LzmRepository}

/-! ## Where an amount comes from -/

inductive Basis
  | data
  /-- the maximal health of the owner -/
  | owner
  /-- a stat of the source without its middle values -/
  | source
  deriving DecidableEq

def basis (d : Data) : Basis :=
  match d.kind with
  | .upstr | .updex | .upinte | .mp | .«def» | .wsp | .mov | .rehp | .remp =>
    if d.get 2 = some 0 then .data else .source
  | .hp => if d.get 2 = some 0 then .owner else .source
  | .atk =>
    if d.get 2 = some 0 ∨ d.get 2 = some 2 ∨ d.get 2 = some 3 ∨ d.get 2 = some 4 then .data
    else .source
  | _ => .data

/-- What was read at `onEnter` comes to the same at `onExit`. -/
def Remembered (d : Data) (owner source owner' source' : Entity) : Prop :=
  match basis d with
  | .data => True
  | .owner => ∀ share v, d.get 3 = some share → d.get 4 = some v →
      add (mul share (owner.stat .HpMax)) v = add (mul share (owner'.stat .HpMax)) v
  | .source => ∀ X rate pc pc', (d.get 2).bind attIdToFuns = some X → d.get 3 = some rate →
      source.midPercent X = some pc → source'.midPercent X = some pc' →
      ⌊source.originValue rate X pc⌋ = ⌊source'.originValue rate X pc'⌋

theorem shareAnd_basis {d : Data} {share X : MidStat} :
    (d.get 2 = some 0 → ∀ v v', d.shareAnd share X v = d.shareAnd share X v') ∧
      (d.get 2 ≠ some 0 → ∀ v, d.shareAnd share X v = [(X, v)]) :=
  ⟨fun h v v' => by simp [Data.shareAnd, h], fun h v => by simp [Data.shareAnd, h]⟩

theorem changes_data {d : Data} (h : basis d = .data) (m m' : ℚ) (v v' : Option ℚ) :
    d.changes m v = d.changes m' v' := by
  cases hk : d.kind <;> simp only [basis, hk] at h <;> simp only [Data.changes, hk]
  case upstr | updex | upinte | mp | «def» | mov | rehp | remp =>
    split_ifs at h with h2
    exact shareAnd_basis.1 h2 v v'
  case hp => split_ifs at h
  case wsp =>
    split_ifs at h with h2
    simp only [h2, if_true]
  case atk =>
    split_ifs at h with h2
    rcases h2 with h2 | h2 | h2 | h2 <;> simp [h2, Data.shareAnd]

theorem changes_owner {d : Data} (h : basis d = .owner) (m : ℚ) (v : Option ℚ) :
    d.changes m v =
      [(.HpMax, (d.get 3).bind fun share => (d.get 4).map fun v => add (mul share m) v)] := by
  cases hk : d.kind <;> simp only [basis, hk] at h
  case upstr | updex | upinte | mp | «def» | mov | rehp | remp | wsp | atk => split_ifs at h
  case hp =>
    split_ifs at h with h2
    simp only [Data.changes, hk, h2, if_true]
  all_goals cases h

theorem changes_source {d : Data} (h : basis d = .source) :
    ∃ X, ∀ m v, d.changes m v = [(X, v)] := by
  cases hk : d.kind <;> simp only [basis, hk] at h
  case upstr | updex | upinte | mp | «def» | mov | rehp | remp =>
    split_ifs at h with h2
    apply Exists.intro
    intro m v
    simp only [Data.changes, hk]
    exact shareAnd_basis.2 h2 v
  case hp | wsp =>
    split_ifs at h with h2
    apply Exists.intro
    intro m v
    simp only [Data.changes, hk, h2, if_false]
    rfl
  case atk =>
    split_ifs at h with h2
    simp only [not_or] at h2
    obtain ⟨h0, h2, h3, h4⟩ := h2
    refine ⟨.Attack, fun m v => ?_⟩
    simp only [Data.changes, hk, h2, h3, h4, if_false]
    exact shareAnd_basis.2 h0 v
  all_goals cases h

/-! ## Two calls of `onTrigger` -/

theorem complete_singleton {X : MidStat} {v : Option ℚ} {l : List (MidStat × ℚ)}
    (h : complete [(X, v)] = some l) : ∃ r, v = some r ∧ l = [(X, r)] := by
  obtain ⟨r, rest, hr, hrest, rfl⟩ := complete_cons h
  obtain rfl : [] = rest := Option.some.inj hrest
  exact ⟨r, hr, rfl⟩

theorem amount_singleton_inj {X : MidStat} {r r' : ℚ} :
    (∀ Y, amount [(X, r)] Y = amount [(X, r')] Y) ↔ r = r' := by
  constructor
  · intro h
    simpa [amount] using h X
  · rintro rfl Y
    rfl

theorem getBaseAttributeValue_some {source : Entity} {d : Data} {r : ℚ}
    (h : source.getBaseAttributeValue d = some r) :
    ∃ X rate pc, (d.get 2).bind attIdToFuns = some X ∧ d.get 3 = some rate ∧
      source.midPercent X = some pc ∧ r = ⌊source.originValue rate X pc⌋ := by
  obtain ⟨attId, hid, h⟩ := Option.bind_eq_some_iff.mp h
  obtain ⟨X, hX, h⟩ := Option.bind_eq_some_iff.mp h
  obtain ⟨pc, hpc, h⟩ := Option.bind_eq_some_iff.mp h
  obtain ⟨rate, hrate, h⟩ := Option.bind_eq_some_iff.mp h
  split_ifs at h
  exact ⟨X, rate, pc, by rw [hid, Option.bind_some, hX], hrate, hpc, (Option.some.inj h).symm⟩

/-- Two calls for the same affect change every middle value by the same amount exactly if what they
read comes to the same. -/
theorem amounts_eq_iff {owner source owner' source' : Entity} {d : Data} {l l' : List (MidStat × ℚ)}
    (h : owner.amounts source d = some l) (h' : owner'.amounts source' d = some l') :
    (∀ X, amount l X = amount l' X) ↔ Remembered d owner source owner' source' := by
  unfold Entity.amounts at h h'
  unfold Remembered
  cases hb : basis d with
  | data =>
      rw [changes_data hb _ (owner'.stat .HpMax) _ (source'.getBaseAttributeValue d), h'] at h
      cases h
      exact iff_of_true (fun _ => rfl) trivial
  | owner =>
      rw [changes_owner hb] at h h'
      obtain ⟨r, hr, rfl⟩ := complete_singleton h
      obtain ⟨r', hr', rfl⟩ := complete_singleton h'
      obtain ⟨share, hshare, hr⟩ := Option.bind_eq_some_iff.mp hr
      obtain ⟨v, hv, rfl⟩ := Option.map_eq_some_iff.mp hr
      rw [hshare, hv] at hr'
      obtain rfl : add (mul share (owner'.stat .HpMax)) v = r' := Option.some.inj hr'
      rw [amount_singleton_inj, hshare, hv]
      constructor
      · rintro heq share' v' hshare' hv'
        obtain rfl := Option.some.inj hshare'
        obtain rfl := Option.some.inj hv'
        exact heq
      · exact fun hall => hall share v rfl rfl
  | source =>
      obtain ⟨X, hX⟩ := changes_source hb
      rw [hX] at h h'
      obtain ⟨r, hr, rfl⟩ := complete_singleton h
      obtain ⟨r', hr', rfl⟩ := complete_singleton h'
      obtain ⟨Y, rate, pc, hY, hrate, hpc, rfl⟩ := getBaseAttributeValue_some hr
      obtain ⟨Y', rate', pc', hY', hrate', hpc', rfl⟩ := getBaseAttributeValue_some hr'
      obtain rfl : Y = Y' := Option.some.inj (hY.symm.trans hY')
      obtain rfl : rate = rate' := Option.some.inj (hrate.symm.trans hrate')
      rw [amount_singleton_inj, Int.cast_inj]
      constructor
      · rintro heq Z rate' q q' hZ hrate' hq hq'
        obtain rfl : Y = Z := Option.some.inj (hY.symm.trans hZ)
        obtain rfl : rate = rate' := Option.some.inj (hrate.symm.trans hrate')
        obtain rfl : pc = q := Option.some.inj (hpc.symm.trans hq)
        obtain rfl : pc' = q' := Option.some.inj (hpc'.symm.trans hq')
        exact heq
      · exact fun hall => hall Y rate pc pc' hY hrate hpc hpc'

/-! ## Runs -/

namespace World

/-- What a step adds to the middle values of the entity. -/
def additions (w : World) (e : ℕ) : Label → List (MidStat × ℚ)
  | .trigger h owner source d =>
    if owner = e then
      scale h.add (((w.entities owner).amounts (w.entities source) d).getD [])
    else []
  | _ => []

/-- What a run adds to them. -/
def gained (lzm : LzmRepository) (e : ℕ) : World → List Label → List (MidStat × ℚ)
  | _, [] => []
  | w, l :: labels => w.additions e l ++ (w.step lzm l).elim [] fun w' => gained lzm e w' labels

variable {w w' : World} {e : ℕ}

theorem mid_step {l : Label} (hs : w.step lzm l = some w') :
    (w'.entities e).mid = addAll (w.additions e l) (w.entities e).mid := by
  have hput : ∀ f v, v.mid = (w.entities f).mid →
      ((w.put f v).entities e).mid = addAll [] (w.entities e).mid := by
    intro f v hv
    by_cases hfe : e = f
    · subst hfe
      rw [put_self, hv]
      rfl
    · rw [put_other _ hfe]
      rfl
  cases l with
  | trigger h owner source d =>
      obtain ⟨l, hl, hs⟩ := Option.bind_eq_some_iff.mp hs
      cases hs
      by_cases hoe : owner = e
      · subst hoe
        simp [put, Entity.addMid, additions, hl]
      · have hnone : w.additions e (.trigger h owner source d) = [] := if_neg hoe
        rw [hnone]
        change ((w.put owner _).entities e).mid = _
        rw [put_other _ (Ne.symm hoe)]
        rfl
  | go k =>
      simp only [World.step] at hs
      split at hs <;> cases hs
      exact hput _ _ (run_recomputes _ _).1.mid
  | levelUp f level =>
      cases hs
      exact hput _ _ rfl
  | other f Hp Mp kept =>
      cases hs
      exact hput _ _ rfl

theorem mid_run {w₀ : World} {labels : List Label} (hr : (system lzm w₀).run w labels = some w') :
    (w'.entities e).mid = addAll (gained lzm e w labels) (w.entities e).mid := by
  induction labels generalizing w with
  | nil =>
      cases hr
      rfl
  | cons l labels ih =>
      obtain ⟨u, hu, hr⟩ := Option.bind_eq_some_iff.mp hr
      have hu : w.step lzm l = some u := hu
      rw [gained, hu, Option.elim_some, Double.addAll_append, ← mid_step hu]
      exact ih hr

variable {w₁ w₂ w₃ : World} {o s : ℕ} {d : Data}

theorem additions_trigger {h : Hook} (hs : w.step lzm (.trigger h o s d) = some w') :
    ∃ l, (w.entities o).amounts (w.entities s) d = some l ∧
      w.additions o (.trigger h o s d) = scale h.add l := by
  obtain ⟨l, hl, -⟩ := Option.bind_eq_some_iff.mp hs
  exact ⟨l, hl, by rw [additions, if_pos rfl, hl, Option.getD_some]⟩

/-- An affect takes exactly what it gave, whatever happens between `onEnter` and `onExit`, exactly
if what it reads at `onExit` comes to what it came to at `onEnter`. Where no sum is rounded, exactly
then the middle values are what the other affects make of them alone. -/
theorem onExit_subtracts {labels : List Label}
    (henter : w.step lzm (.trigger .onEnter o s d) = some w₁)
    (hrun : (system lzm w₁).run w₁ labels = some w₂)
    (hexit : w₂.step lzm (.trigger .onExit o s d) = some w₃) :
    let mid := (w.entities o).mid
    let given := w.additions o (.trigger .onEnter o s d)
    let others := gained lzm o w₁ labels
    let taken := w₂.additions o (.trigger .onExit o s d)
    let remembered := Remembered d (w.entities o) (w.entities s) (w₂.entities o) (w₂.entities s)
    ((∀ X, amount taken X = -amount given X) ↔ remembered) ∧
      (Exact (given ++ others ++ taken) mid → Exact others mid →
        ((w₃.entities o).mid = addAll others mid ↔ remembered)) := by
  intro mid given others taken remembered
  obtain ⟨l, hl, hgiven⟩ := additions_trigger henter
  obtain ⟨l', hl', htaken⟩ := additions_trigger hexit
  have hamounts : (∀ X, amount taken X = -amount given X) ↔ remembered := by
    refine Iff.trans (forall_congr' fun X => ?_) (amounts_eq_iff hl hl')
    change amount (w₂.additions o _) X = -amount (w.additions o _) X ↔ _
    rw [hgiven, htaken, Double.amount_scale, Double.amount_scale, Hook.add, Hook.add, one_mul,
      neg_one_mul, neg_inj, eq_comm]
  refine ⟨hamounts, fun hexact hothers => ?_⟩
  have hmid : (w₃.entities o).mid = addAll (given ++ others ++ taken) mid := by
    rw [mid_step hexit, mid_run hrun, mid_step henter, Double.addAll_append, Double.addAll_append]
  rw [← hamounts, hmid, funext_iff]
  refine forall_congr' fun X => ?_
  rw [hexact.addAll, hothers.addAll, Double.amount_append, Double.amount_append]
  constructor <;> intro h <;> linarith

/-- A sum that is rounded does not come back: 0.3, 0.4 more and 0.4 less. -/
example :
    let v := Double.div 3 10
    let r := Double.div 4 10
    addAll [(MidStat.Strength, r), (.Strength, -r)] (fun _ => v) .Strength < v := by
  decide +kernel

/-- The mana of a hero grows by half of the attack of the source. In between the attack grows, which
is left out, and another affect of the hero comes. -/
theorem onExit_subtracts_mana :
    let d : Data := ⟨.mp, [1, 1 / 2, 0]⟩
    let labels : List Label := [.go 0, .trigger .onEnter 1 1 ⟨.atk, [0, 0, 4]⟩, .go 1,
      .trigger .onEnter 0 0 ⟨.mp, [0, 0, 7]⟩, .go 2]
    ∃ w₁ w₂ w₃, plainWorld.step plainLzm (.trigger .onEnter 0 1 d) = some w₁ ∧
      (system plainLzm plainWorld).run w₁ labels = some w₂ ∧
      w₂.step plainLzm (.trigger .onExit 0 1 d) = some w₃ ∧ (w₂.entities 0).stat .MpMax = 112 ∧
      (w₃.entities 0).mid = addAll (gained plainLzm 0 w₁ labels) MidStat.default := by
  intro d labels
  have hruns : ((plainWorld.step plainLzm (.trigger .onEnter 0 1 d)).bind fun w₁ =>
      ((system plainLzm plainWorld).run w₁ labels).bind fun w₂ =>
        (w₂.step plainLzm (.trigger .onExit 0 1 d)).map fun _ =>
          ((w₂.entities 0).stat .MpMax, (w₂.entities 1).stat .Attack, (w₂.entities 1).mid .Attack,
            (w₂.entities 1).mid .AttackPc,
            decide (Exact (plainWorld.additions 0 (.trigger .onEnter 0 1 d) ++
              gained plainLzm 0 w₁ labels ++ w₂.additions 0 (.trigger .onExit 0 1 d))
              MidStat.default ∧ Exact (gained plainLzm 0 w₁ labels) MidStat.default))) =
      some (112, 14, 4, 0, true) := by
    decide +kernel
  obtain ⟨w₁, henter, hruns⟩ := Option.bind_eq_some_iff.mp hruns
  obtain ⟨w₂, hrun, hruns⟩ := Option.bind_eq_some_iff.mp hruns
  obtain ⟨w₃, hexit, hstats⟩ := Option.map_eq_some_iff.mp hruns
  simp only [Prod.mk.injEq, decide_eq_true_eq] at hstats
  obtain ⟨hmp, hstat, hmid, hpc, hexact, hothers⟩ := hstats
  have hold : plainHero.stat .Attack = 10 ∧ plainHero.mid .Attack = 0 ∧
      plainHero.mid .AttackPc = 0 := ⟨rfl, rfl, rfl⟩
  have hremembered : Remembered d plainHero plainHero (w₂.entities 0) (w₂.entities 1) := by
    intro X rate pc pc' hX hrate hpc₀ hpc₂
    obtain rfl : MidStat.Attack = X := by simpa [d, Data.get, attIdToFuns] using hX
    simp only [Entity.midPercent, Option.some.injEq] at hpc₀ hpc₂
    rw [← hpc₀, ← hpc₂]
    unfold Entity.originValue
    rw [hstat, hmid, hpc, hold.1, hold.2.1, hold.2.2]
    norm_num [Double.sub]
  exact ⟨w₁, w₂, w₃, henter, hrun, hexit, hmp,
    ((onExit_subtracts henter hrun hexit).2 hexact hothers).mpr hremembered⟩

/-- Half of the maximal health of 100 is given, and three quarters are taken back. -/
theorem onExit_not_subtracts :
    ∃ w, (system plainLzm plainWorld).run plainWorld
      [.trigger .onEnter 0 0 ⟨.hp, [0, 1 / 2, 0]⟩, .go 0,
        .trigger .onExit 0 0 ⟨.hp, [0, 1 / 2, 0]⟩, .go 1] = some w ∧
      (plainWorld.entities 0).mid .HpMax = 0 ∧ (w.entities 0).mid .HpMax = -25 ∧
      (w.entities 0).stat .HpMax = 75 := by
  have hrun : ((system plainLzm plainWorld).run plainWorld
      [.trigger .onEnter 0 0 ⟨.hp, [0, 1 / 2, 0]⟩, .go 0, .trigger .onExit 0 0 ⟨.hp, [0, 1 / 2, 0]⟩,
        .go 1]).map (fun w => ((w.entities 0).mid .HpMax, (w.entities 0).stat .HpMax)) =
          some (-25, 75) := by
    decide +kernel
  obtain ⟨w, hw, hstat⟩ := Option.map_eq_some_iff.mp hrun
  obtain ⟨hm, hs⟩ := Prod.mk.inj hstat
  exact ⟨w, hw, rfl, hm, hs⟩

end World

end GameServer.Stats
