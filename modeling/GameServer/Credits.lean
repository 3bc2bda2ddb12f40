import GameServer.Bill
import GameServer.OnePerSeries
import GameServer.Tally

/-!
# What a bill adds up to

Gold, diamonds, cards and skills are tallies, and crediting a bill is a run of grants on each of
them. Units are compared without their identifiers.
-/

namespace GameServer.Credits

open Goods Agent OnePerSeries Upsert

/-! ## The four tallies -/

/-- What is added, under the clamp. -/
def accrue (top x a : ℤ) : ℤ := mClamp (wrap (x + a)) 0 top

theorem accrue_eq (top x a : ℤ) (hx : 0 ≤ x) (ha : 0 ≤ a) (hlt : x + a < 2 ^ 63) :
    accrue top x a = min (x + a) top := by
  rw [accrue, wrap_of_range (by omega) hlt, mClamp_of_nonneg (by omega)]

/-- An amount of gold or of diamonds; it is its own count. -/
def purse : Tally ℤ Unit ℤ where
  key _ := ()
  count v := v
  put _ n := n
  of _ := ()
  gain n := n
  less _ := 0
  fresh _ := 0
  top := maxint32
  add := accrue maxint32
  bound := 2 ^ 63
  key_put _ _ := rfl
  key_fresh _ := rfl
  count_put _ _ := rfl
  put_put _ _ _ := rfl
  put_count _ := rfl
  top_nonneg := by decide
  add_eq := accrue_eq maxint32

def nameless (v : Card) : Card := { v with uuid := "" }

def namelessSkill (v : Skill) : Skill := { v with uuid := "" }

section Cards

variable (env : Env)

def heroOf (dataId : ℤ) : HeroRow := (env.data.heroRepository dataId).getD ⟨0, 0⟩

/-- The skills of a new card. -/
def firstSkills (dataId : ℤ) : List ℤ :=
  (autoSkills env (some (heroOf env dataId)) env.data.autoGainSkills).getD []

/-- Grants of cards are pairs of a data id and a number. -/
def cardTally : Tally Card ℤ (ℤ × ℤ) where
  key := cardSeries
  count := Card.count
  put v n := { v with count := n }
  of e := Macro_GetCardSerialId e.1
  gain e := (heroOf env e.1).n32CCardNum * e.2
  less e := if Macro_GetCardColor e.1 = 0 then 0 else (heroOf env e.1).n32CCardNum
  fresh e := nameless (newCard env e.1 0 (heroOf env e.1) (firstSkills env e.1) 0)
  top := maxint32
  add := accrue maxint32
  bound := 2 ^ 63
  key_put _ _ := rfl
  key_fresh _ := rfl
  count_put _ _ := rfl
  put_put _ _ _ := rfl
  put_count _ := rfl
  top_nonneg := by decide
  add_eq := accrue_eq maxint32

def skillTally : Tally Skill ℤ (ℤ × ℤ) where
  key := skillSeries
  count := Skill.count
  put v n := { v with count := n }
  of e := Macro_GetSkillSerialId e.1
  gain e := e.2
  less _ := 0
  fresh e := namelessSkill (newSkill env e.1 0 0)
  top := maxinteger
  add := accrue maxinteger
  bound := 2 ^ 63
  key_put _ _ := rfl
  key_fresh _ := rfl
  count_put _ _ := rfl
  put_put _ _ _ := rfl
  put_count _ := rfl
  top_nonneg := by decide
  add_eq := accrue_eq maxinteger

end Cards

/-! ## The grants of a bill -/

def goldGrant : Good × ℤ → Option ℤ
  | (.gold, n) => some n
  | _ => none

def moneyGrant : Good × ℤ → Option ℤ
  | (.money, n) => some n
  | _ => none

def cardGrant : Good × ℤ → Option (ℤ × ℤ)
  | (.card dataId, n) => some (dataId, n)
  | _ => none

def skillGrant : Good × ℤ → Option (ℤ × ℤ)
  | (.skill dataId, n) => some (dataId, n)
  | _ => none

theorem goldGrant_eq_some (e : Good × ℤ) (n : ℤ) : goldGrant e = some n ↔ e = (.gold, n) := by
  obtain ⟨good, m⟩ := e
  cases good <;> simp [goldGrant]

theorem moneyGrant_eq_some (e : Good × ℤ) (n : ℤ) : moneyGrant e = some n ↔ e = (.money, n) := by
  obtain ⟨good, m⟩ := e
  cases good <;> simp [moneyGrant]

theorem cardGrant_eq_some (e : Good × ℤ) (x : ℤ × ℤ) :
    cardGrant e = some x ↔ e = (.card x.1, x.2) := by
  obtain ⟨good, m⟩ := e
  obtain ⟨dataId, n⟩ := x
  cases good <;> simp [cardGrant]

theorem skillGrant_eq_some (e : Good × ℤ) (x : ℤ × ℤ) :
    skillGrant e = some x ↔ e = (.skill x.1, x.2) := by
  obtain ⟨good, m⟩ := e
  obtain ⟨dataId, n⟩ := x
  cases good <;> simp [skillGrant]

variable (env : Env)

/-- The second user has what the first one had and what a bill adds to it. -/
structure Credited (bill : Bill) (u u' : User) : Prop where
  gold : [(u'.account.gold : ℤ)] =
    purse.grants (bill.filterMap goldGrant) [(u.account.gold : ℤ)]
  money : [(u'.account.money : ℤ)] =
    purse.grants (bill.filterMap moneyGrant) [(u.account.money : ℤ)]
  cards : u'.cards.map nameless =
    (cardTally env).grants (bill.filterMap cardGrant) (u.cards.map nameless)
  skills : u'.skills.map namelessSkill =
    (skillTally env).grants (bill.filterMap skillGrant) (u.skills.map namelessSkill)

/-- The tables have the rows that a bill needs. -/
structure HasRows (bill : Bill) : Prop where
  hero : ∀ e ∈ bill.filterMap cardGrant, (env.data.heroRepository e.1).isSome
  autoSkill : ∀ v ∈ env.data.autoGainSkills, (env.data.skillRepository v).isSome

variable {env} {bill bill' : Bill} {u u₁ u₂ : User} {e : Good × ℤ} {dataId n : ℤ}

theorem Credited.append (h : Credited env bill u u₁) (h' : Credited env bill' u₁ u₂) :
    Credited env (bill ++ bill') u u₂ where
  gold := by rw [h'.gold, h.gold, List.filterMap_append, Tally.grants_append]
  money := by rw [h'.money, h.money, List.filterMap_append, Tally.grants_append]
  cards := by rw [h'.cards, h.cards, List.filterMap_append, Tally.grants_append]
  skills := by rw [h'.skills, h.skills, List.filterMap_append, Tally.grants_append]

/-- A first grant of a card, up to the identifier. -/
theorem nameless_newCard (dataId n : ℤ) (made : ℕ) :
    nameless (newCard env dataId n (heroOf env dataId) (firstSkills env dataId) made) =
      (cardTally env).first (dataId, n) := by
  have hcount : (if Macro_GetCardColor dataId = 0 then n else n - 1) *
      (heroOf env dataId).n32CCardNum = 0 + ((heroOf env dataId).n32CCardNum * n -
        if Macro_GetCardColor dataId = 0 then 0 else (heroOf env dataId).n32CCardNum) := by
    split_ifs <;> ring
  change ({ uuid := "", dataId, count := mClamp (wrap (_ * _)) 0 maxint32, skills := _ } : Card) = _
  rw [hcount]
  rfl

theorem credited_card (hrow : (env.data.heroRepository dataId).isSome)
    (hauto : ∀ v ∈ env.data.autoGainSkills, (env.data.skillRepository v).isSome) (hn : 0 < n)
    (u : User) : ∃ u', Agent.addCard env dataId n u = some ((), u') ∧
      Credited env [(.card dataId, n)] u u' := by
  obtain ⟨hero, hhero⟩ := Option.isSome_iff_exists.mp hrow
  have hof : heroOf env dataId = hero := by rw [heroOf, hhero, Option.getD_some]
  obtain ⟨skills, hskills⟩ := Option.isSome_iff_exists.mp (AgentService.autoSkills_isSome hauto)
  have hfirst : firstSkills env dataId = skills := by
    rw [firstSkills, hof, hskills, Option.getD_some]
  rw [addCard_eq env dataId hn, hhero, Option.bind_some]
  have hkey : ∀ v, cardSeries (nameless v) = cardSeries v := fun _ => rfl
  have hmore : ∀ v, nameless (moreCard n hero v) = moreCard n hero (nameless v) := fun _ => rfl
  by_cases hmem : Macro_GetCardSerialId dataId ∈ u.cards.map cardSeries
  · rw [gainedSkills, if_pos hmem, Option.map_some]
    refine ⟨_, rfl, rfl, rfl, ?_, rfl⟩
    have hmem' : Macro_GetCardSerialId dataId ∈ (u.cards.map nameless).map cardSeries := by
      rwa [List.map_map]
    dsimp only [withCard]
    rw [map_upsert hkey hmore, upsert_new_congr hmem' _ ((cardTally env).first (dataId, n)),
      ← hof]
    rfl
  · rw [gainedSkills, if_neg hmem, hskills, Option.map_some]
    refine ⟨_, rfl, rfl, rfl, ?_, rfl⟩
    dsimp only [withCard]
    rw [map_upsert hkey hmore, ← hof, ← hfirst, nameless_newCard]
    rfl

theorem credited_skill (hn : 0 < n) (hlt : n < 2 ^ 63) (u : User) :
    ∃ u', Agent.addSkill env dataId n u = some ((), u') ∧
      Credited env [(.skill dataId, n)] u u' := by
  have hkey : ∀ v, skillSeries (namelessSkill v) = skillSeries v := fun _ => rfl
  have hmore : ∀ v, namelessSkill (moreSkill n v) = moreSkill n (namelessSkill v) := fun _ => rfl
  have hcount : accrue maxinteger 0 (n - 0) = n := by
    rw [accrue_eq _ _ _ le_rfl (by omega) (by omega), maxinteger]
    omega
  have hnew : namelessSkill (newSkill env dataId n u.made) =
      (skillTally env).first (dataId, n) := by
    change _ = ({ uuid := "", dataId, count := accrue maxinteger 0 (n - 0) } : Skill)
    rw [hcount]
    rfl
  refine ⟨_, addSkill_eq env dataId hn u, rfl, rfl, rfl, ?_⟩
  dsimp only [withSkill]
  rw [map_upsert hkey hmore, hnew]
  rfl

theorem credited_good (h : HasRows env [e]) (hnum : 0 < e.2 ∧ e.2 < 2 ^ 63) (u : User) :
    ∃ u', creditGood env e u = some ((), u') ∧ Credited env [e] u u' := by
  obtain ⟨good, n⟩ := e
  obtain ⟨hn, hlt⟩ := hnum
  dsimp only at hn hlt
  cases good with
  | gold =>
      have hgold : ¬ n = 0 := by omega
      refine ⟨_, rfl, ?_, ?_, rfl, rfl⟩
      · dsimp only [Account.addGold]
        rw [if_neg hgold]
        rfl
      · dsimp only [Account.addGold]
        rw [if_neg hgold]
        rfl
  | money =>
      have hmoney : ¬ n = 0 := by omega
      refine ⟨_, rfl, ?_, ?_, rfl, rfl⟩
      · dsimp only [Account.addMoney]
        rw [if_neg hmoney]
        rfl
      · dsimp only [Account.addMoney]
        rw [if_neg hmoney]
        rfl
  | card dataId => exact credited_card (h.hero (dataId, n) List.mem_cons_self) h.autoSkill hn u
  | skill dataId => exact credited_skill hn hlt u
  | opening itemId => exact ⟨u, rfl, rfl, rfl, rfl, rfl⟩

theorem HasRows.mono (h : HasRows env bill) (hsub : bill' ⊆ bill) : HasRows env bill' where
  hero e he := by
    obtain ⟨g, hg, hgrant⟩ := List.mem_filterMap.mp he
    exact h.hero e (List.mem_filterMap.mpr ⟨g, hsub hg, hgrant⟩)
  autoSkill := h.autoSkill

/-- A bill with its rows is credited without an error. -/
theorem credited (h : HasRows env bill) (hnum : ∀ e ∈ bill, 0 < e.2 ∧ e.2 < 2 ^ 63) (u : User) :
    ∃ u', credit env bill u = some ((), u') ∧ Credited env bill u u' := by
  induction bill generalizing u with
  | nil => exact ⟨u, rfl, rfl, rfl, rfl, rfl⟩
  | cons e bill ih =>
      obtain ⟨u₁, hgood, hfirst⟩ := credited_good
        (h.mono (List.cons_subset.mpr ⟨List.mem_cons_self, List.nil_subset _⟩))
        (hnum e List.mem_cons_self) u
      obtain ⟨u₂, hrest, hlater⟩ := ih (h.mono (List.subset_cons_self e bill))
        (fun e he => hnum e (List.mem_cons_of_mem _ he)) u₁
      refine ⟨u₂, ?_, hfirst.append hlater⟩
      change (creditGood env e u).bind (fun r => credit env bill r.2) = _
      rw [hgood, Option.bind_some, hrest]

/-! ## Users up to identifiers -/

structure Same (u u' : User) : Prop where
  gold : (u.account.gold : ℤ) = u'.account.gold
  money : (u.account.money : ℤ) = u'.account.money
  cards : (u.cards.map nameless).Perm (u'.cards.map nameless)
  skills : (u.skills.map namelessSkill).Perm (u'.skills.map namelessSkill)

theorem Same.symm (h : Same u₁ u₂) : Same u₂ u₁ :=
  ⟨h.gold.symm, h.money.symm, h.cards.symm, h.skills.symm⟩

theorem Same.trans (h : Same u u₁) (h' : Same u₁ u₂) : Same u u₂ :=
  ⟨h.gold.trans h'.gold, h.money.trans h'.money, h.cards.trans h'.cards, h.skills.trans h'.skills⟩

variable (env) in
/-- Counts are in range, and no sum leaves the Lua integers. -/
structure Fits (bill : Bill) (u : User) : Prop where
  gold : purse.Bounded (bill.filterMap goldGrant) [(u.account.gold : ℤ)]
  money : purse.Bounded (bill.filterMap moneyGrant) [(u.account.money : ℤ)]
  cards : (cardTally env).Bounded (bill.filterMap cardGrant) (u.cards.map nameless)
  skills : (skillTally env).Bounded (bill.filterMap skillGrant) (u.skills.map namelessSkill)

theorem filterMap_subperm {β : Type} (f : Good × ℤ → Option β) (h : bill'.Subperm bill) :
    (bill'.filterMap f).Subperm (bill.filterMap f) := by
  obtain ⟨l, hperm, hsub⟩ := h
  exact (hperm.filterMap f).symm.subperm.trans (hsub.filterMap f).subperm

theorem Fits.mono (h : Fits env bill u) (hsub : bill'.Subperm bill) : Fits env bill' u where
  gold := h.gold.mono (filterMap_subperm goldGrant hsub)
  money := h.money.mono (filterMap_subperm moneyGrant hsub)
  cards := h.cards.mono (filterMap_subperm cardGrant hsub)
  skills := h.skills.mono (filterMap_subperm skillGrant hsub)

/-- Two orders of a bill leave the same user, if the first grants of every new series make the same
unit. -/
theorem same_of_perm (hfits : Fits env bill u) (hperm : bill.Perm bill')
    (h₁ : Credited env bill u u₁) (h₂ : Credited env bill' u u₂)
    (hcards : ∀ s ∉ u.cards.map cardSeries,
      ∀ e ∈ ((cardTally env).ofKey s (bill.filterMap cardGrant)).head?,
      ∀ e' ∈ ((cardTally env).ofKey s (bill'.filterMap cardGrant)).head?, e.1 = e'.1)
    (hskills : ∀ s ∉ u.skills.map skillSeries,
      ∀ e ∈ ((skillTally env).ofKey s (bill.filterMap skillGrant)).head?,
      ∀ e' ∈ ((skillTally env).ofKey s (bill'.filterMap skillGrant)).head?, e.1 = e'.1) :
    Same u₁ u₂ := by
  have hpurse : ∀ (f : Good × ℤ → Option ℤ) (x : ℤ), purse.Bounded (bill.filterMap f) [x] →
      (purse.grants (bill.filterMap f) [x]).Perm (purse.grants (bill'.filterMap f) [x]) :=
    fun f x h => Tally.grants_perm h (hperm.filterMap f) fun _ hk =>
      absurd (List.mem_singleton_self _) hk
  constructor
  · have hgold := hpurse goldGrant _ hfits.gold
    rw [← h₁.gold, ← h₂.gold] at hgold
    exact List.singleton_perm_singleton.mp hgold
  · have hmoney := hpurse moneyGrant _ hfits.money
    rw [← h₁.money, ← h₂.money] at hmoney
    exact List.singleton_perm_singleton.mp hmoney
  · rw [h₁.cards, h₂.cards]
    refine Tally.grants_perm hfits.cards (hperm.filterMap cardGrant) fun s hs e he e' he' => ?_
    obtain ⟨d, n⟩ := e
    obtain ⟨d', n'⟩ := e'
    have hs' : s ∉ u.cards.map cardSeries := by rwa [List.map_map] at hs
    obtain rfl : d = d' := hcards s hs' _ he _ he'
    exact ⟨rfl, fun _ => rfl⟩
  · rw [h₁.skills, h₂.skills]
    refine Tally.grants_perm hfits.skills (hperm.filterMap skillGrant) fun s hs e he e' he' => ?_
    obtain ⟨d, n⟩ := e
    obtain ⟨d', n'⟩ := e'
    have hs' : s ∉ u.skills.map skillSeries := by rwa [List.map_map] at hs
    obtain rfl : d = d' := hskills s hs' _ he _ he'
    exact ⟨rfl, fun _ => rfl⟩

/-- More of a good changes nothing: the amount is full, or the card is of nothing. -/
def Full (env : Env) (u : User) : Good → Prop
  | .gold => (u.account.gold : ℤ) = maxint32
  | .money => (u.account.money : ℤ) = maxint32
  | .card dataId => ∃ v, lookup cardSeries (Macro_GetCardSerialId dataId) u.cards = some v ∧
      (v.count = maxint32 ∨ (heroOf env dataId).n32CCardNum = 0)
  | .skill dataId => ∃ v, lookup skillSeries (Macro_GetSkillSerialId dataId) u.skills = some v ∧
      v.count = maxinteger
  | .opening _ => True

theorem idle_purse {x : ℤ} (hn : 0 < n) : purse.Idle [x] n ↔ x = maxint32 := by
  constructor
  · rintro ⟨v, hv, hfull | hzero⟩
    · exact (Option.some.inj hv).trans hfull
    · exact absurd hzero (ne_of_gt hn)
  · exact fun h => ⟨x, rfl, .inl h⟩

theorem idle_card (hn : 0 < n) :
    (cardTally env).Idle (u.cards.map nameless) (dataId, n) ↔ Full env u (.card dataId) := by
  have hkey : ∀ v, cardSeries (nameless v) = cardSeries v := fun _ => rfl
  have hgain : (heroOf env dataId).n32CCardNum * n = 0 ↔ (heroOf env dataId).n32CCardNum = 0 :=
    (mul_eq_zero).trans (or_iff_left (ne_of_gt hn))
  constructor
  · rintro ⟨v, hv, h⟩
    obtain ⟨v', hv', rfl⟩ := Option.map_eq_some_iff.mp ((lookup_map hkey u.cards).symm.trans hv)
    exact ⟨v', hv', h.imp_right hgain.mp⟩
  · rintro ⟨v, hv, h⟩
    refine ⟨nameless v, (lookup_map hkey u.cards).trans ?_, h.imp_right hgain.mpr⟩
    change (lookup cardSeries (Macro_GetCardSerialId dataId) u.cards).map nameless = _
    rw [hv, Option.map_some]

theorem idle_skill (hn : 0 < n) :
    (skillTally env).Idle (u.skills.map namelessSkill) (dataId, n) ↔
      Full env u (.skill dataId) := by
  have hkey : ∀ v, skillSeries (namelessSkill v) = skillSeries v := fun _ => rfl
  constructor
  · rintro ⟨v, hv, h⟩
    obtain ⟨v', hv', rfl⟩ := Option.map_eq_some_iff.mp ((lookup_map hkey u.skills).symm.trans hv)
    exact ⟨v', hv', h.resolve_right (ne_of_gt hn)⟩
  · rintro ⟨v, hv, h⟩
    refine ⟨namelessSkill v, (lookup_map hkey u.skills).trans ?_, .inl h⟩
    change (lookup skillSeries (Macro_GetSkillSerialId dataId) u.skills).map namelessSkill = _
    rw [hv, Option.map_some]

/-- A bill changes nothing exactly when all that it lists is full. -/
theorem same_self_iff (hfits : Fits env bill u) (hnum : ∀ e ∈ bill, 0 < e.2)
    (h : Credited env bill u u₁) : Same u₁ u ↔ ∀ e ∈ bill, Full env u e.1 := by
  have hgold := Tally.grants_perm_self_iff hfits.gold
  have hmoney := Tally.grants_perm_self_iff hfits.money
  have hcards := Tally.grants_perm_self_iff hfits.cards
  have hskills := Tally.grants_perm_self_iff hfits.skills
  rw [← h.gold, List.singleton_perm_singleton] at hgold
  rw [← h.money, List.singleton_perm_singleton] at hmoney
  rw [← h.cards] at hcards
  rw [← h.skills] at hskills
  rw [List.forall_mem_filterMap] at hgold hmoney hcards hskills
  constructor
  · rintro hsame ⟨good, n⟩ he
    have hn : 0 < n := hnum _ he
    cases good with
    | gold => exact (idle_purse hn).mp (hgold.mp hsame.gold _ he n rfl)
    | money => exact (idle_purse hn).mp (hmoney.mp hsame.money _ he n rfl)
    | card dataId => exact (idle_card hn).mp (hcards.mp hsame.cards _ he _ rfl)
    | skill dataId => exact (idle_skill hn).mp (hskills.mp hsame.skills _ he _ rfl)
    | opening itemId => trivial
  · intro hfull
    refine ⟨hgold.mpr fun e he n hn => ?_, hmoney.mpr fun e he n hn => ?_,
      hcards.mpr fun e he x hx => ?_, hskills.mpr fun e he x hx => ?_⟩
    · obtain rfl := (goldGrant_eq_some e n).mp hn
      exact (idle_purse (hnum _ he)).mpr (hfull _ he)
    · obtain rfl := (moneyGrant_eq_some e n).mp hn
      exact (idle_purse (hnum _ he)).mpr (hfull _ he)
    · obtain rfl := (cardGrant_eq_some e x).mp hx
      exact (idle_card (hnum _ he)).mpr (hfull _ he)
    · obtain rfl := (skillGrant_eq_some e x).mp hx
      exact (idle_skill (hnum _ he)).mpr (hfull _ he)

end GameServer.Credits
