import GameServer.SortedSet
import GameServer.Transition

/-!
# The rank lists

A list is a sorted set of redis. `add` packs a score with the number of members that have it
already, so that the earlier of two equal scores stands higher, and keeps some more than `MAX_NUM`
members. Each call runs alone. `number` is what redis makes of a number of Lua, a double. The latest
score of each member and when it came are history.
-/

namespace GameServer.RankList

open Transition

structure Redis where
  number : ℤ → ℤ
  exact : ∀ n, 0 ≤ n → n ≤ 2 ^ 53 → number n = n

def MAX_NUM : ℕ := 200

structure Group (α : Type*) [LinearOrder α] where
  set : SortedSet α
  olddata : Bool
  latest : α → Option (ℤ × ℕ)
  adds : ℕ

variable {α κ : Type*} [LinearOrder α] [DecidableEq κ]

def add (redis : Redis) (group : Group α) (score : ℕ) (member : α) : Group α :=
  let packed : ℤ := score * 1000 + 999 -
    group.set.zcount (redis.number (score * 1000)) (redis.number (score * 1000 + 999))
  let noted : Group α := { group with
    latest := Function.update group.latest member (some (score, group.adds))
    adds := group.adds + 1 }
  match group.set.zrevrange MAX_NUM MAX_NUM with
  | last :: _ =>
      if (ofLex last).1 < packed then
        { noted with
          set := (group.set.zrem (ofLex last).2).zadd (redis.number packed) member
          olddata := true }
      else noted
  | [] => { noted with set := group.set.zadd (redis.number packed) member, olddata := true }

structure Label (α κ : Type*) where
  atype : κ
  score : ℕ
  member : α

def step (redis : Redis) (s : κ → Group α) (l : Label α κ) : Option (κ → Group α) :=
  some (Function.update s l.atype (add redis (s l.atype) l.score l.member))

def system (α κ : Type*) [LinearOrder α] [DecidableEq κ] (redis : Redis) :
    System (κ → Group α) (Label α κ) where
  init _ := ⟨.empty, true, fun _ => none, 0⟩
  step := step redis

/-! ## What a list should hold -/

/-- A higher score, or the same one earlier. -/
def Before (p q : ℤ × ℕ) : Prop := q.1 < p.1 ∨ p.1 = q.1 ∧ p.2 < q.2

instance (p q : ℤ × ℕ) : Decidable (Before p q) := inferInstanceAs (Decidable (_ ∨ _))

/-- The members that are listed have their latest scores, each one another number; a member that is
not listed has `MAX_NUM` that are before it. -/
structure Ranked (group : Group α) : Prop where
  scored : ∀ m e, group.set.zscore m = some e → ∃ t, group.latest m = some (e / 1000, t)
  distinct : ∀ a b e, group.set.zscore a = some e → group.set.zscore b = some e → a = b
  kept : ∀ m p, group.latest m = some p → group.set.zscore m = none → ∃ T : Finset α,
    MAX_NUM ≤ T.card ∧ ∀ a ∈ T, (group.set.zscore a).isSome ∧ ∃ q, group.latest a = some q ∧
      Before q p

/-! ## When it does -/

/-- The members with a score have the places 0, 1, … among it: none has left that was not the
last. -/
def Dense (set : SortedSet α) (score : ℕ) : Prop :=
  ∀ e ∈ set.entries, (ofLex e).1 / 1000 = score →
    score * 1000 + 999 - (ofLex e).1 < set.zcount (score * 1000) (score * 1000 + 999)

instance (set : SortedSet α) (score : ℕ) : Decidable (Dense set score) :=
  inferInstanceAs (Decidable (∀ e ∈ set.entries, _ → _))

/-- A member that is listed rises, or keeps above all that are not listed; where the list is full,
there is one with a lower score than its new one. -/
structure Stays (group : Group α) (score : ℕ) (member : α) : Prop where
  above : ∀ e, group.set.zscore member = some e → e / 1000 < score ∨
    ∀ m p, group.set.zscore m = none → group.latest m = some p → p.1 < score
  notLast : (group.set.zscore member).isSome → group.set.entries.length = MAX_NUM + 1 →
    ∃ a e, group.set.zscore a = some e ∧ e / 1000 < score

/-- The number is exact, no place at the score is free, and the member stays where it is listed. -/
structure OK (s : κ → Group α) (l : Label α κ) : Prop where
  exact : l.score * 1000 + 999 ≤ 2 ^ 53
  dense : Dense (s l.atype).set l.score
  stays : Stays (s l.atype) l.score l.member

/-! ## Runs -/

/-- `Ranked`, with the order of the list, its length and the times so far. -/
structure Invariant (group : Group α) : Prop extends Ranked group where
  ordered : ∀ a b e e' p q, group.set.zscore a = some e → group.set.zscore b = some e' →
    group.latest a = some p → group.latest b = some q → e' < e → Before p q
  old : ∀ m p, group.latest m = some p → p.2 < group.adds
  length : group.set.entries.length ≤ MAX_NUM + 1

variable {redis : Redis} {group : Group α} {score : ℕ} {member m a : α} {e : ℤ} {p q : ℤ × ℕ}

theorem Before.trans {r : ℤ × ℕ} (h : Before p q) (h' : Before q r) : Before p r := by
  unfold Before at *
  omega

/-- The packed score is that of its score, below all that are listed with it. -/
structure Packed (group : Group α) (score : ℕ) (packed : ℤ) : Prop where
  div : packed / 1000 = score
  nonneg : 0 ≤ packed
  le : packed ≤ 2 ^ 53
  below : ∀ a e, group.set.zscore a = some e → e / 1000 = score → packed < e

theorem packed_of_dense (redis : Redis) (hinv : Invariant group)
    (hexact : score * 1000 + 999 ≤ 2 ^ 53) (hdense : Dense group.set score) :
    Packed group score (score * 1000 + 999 -
      group.set.zcount (redis.number (score * 1000)) (redis.number (score * 1000 + 999))) := by
  have hlo : redis.number (score * 1000) = score * 1000 := redis.exact _ (by omega) (by omega)
  have hhi : redis.number (score * 1000 + 999) = score * 1000 + 999 :=
    redis.exact _ (by omega) (by omega)
  rw [hlo, hhi]
  have hcount : group.set.zcount (score * 1000) (score * 1000 + 999) ≤ 201 :=
    (group.set.zcount_le _ _).trans hinv.length
  refine ⟨by omega, by omega, by omega, fun a e ha hscore => ?_⟩
  have := hdense _ (SortedSet.zscore_eq_some_iff.mp ha) hscore
  simp only [ofLex_toLex] at this
  omega

/-- Against every other that is listed, the packed score says which one is before the other. -/
theorem Packed.before {packed : ℤ} (h : Packed group score packed) (hinv : Invariant group)
    (ha : group.set.zscore a = some e) (hp : group.latest a = some p) :
    packed ≠ e ∧ (packed < e → Before p (score, group.adds)) ∧
      (e < packed → Before (score, group.adds) p) := by
  obtain ⟨t, ht⟩ := hinv.scored a e ha
  have hold := hinv.old a _ ht
  cases hp.symm.trans ht
  have hbelow := h.below a e ha
  have hdiv := h.div
  unfold Before
  dsimp only at hold ⊢
  refine ⟨fun heq => ?_, fun hlt => ?_, fun hlt => ?_⟩
  · subst heq
    exact lt_irrefl _ (hbelow hdiv)
  · by_cases hscore : e / 1000 = score
    · exact .inr ⟨hscore, hold⟩
    · exact .inl (by omega)
  · by_cases hscore : e / 1000 = score
    · exact absurd (hbelow hscore) (by omega)
    · exact .inl (by omega)

/-- The place behind the kept ones is free, or the last member leaves it for the new one, or the new
one is not listed. -/
inductive Placed (group group' : Group α) (member : α) (packed : ℤ) : Prop
  | free (hset : group'.set.zscore = Function.update group.set.zscore member (some packed))
  | replaced (last : α) (least : ℤ) (hlast : group.set.zscore last = some least)
      (hleast : ∀ a e, group.set.zscore a = some e → least ≤ e) (hlt : least < packed)
      (hfull : group.set.entries.length = MAX_NUM + 1)
      (hset : group'.set.zscore =
        Function.update (Function.update group.set.zscore last none) member (some packed))
  | refused (hle : ∀ a e, group.set.zscore a = some e → packed ≤ e)
      (hfull : group.set.entries.length = MAX_NUM + 1) (hset : group'.set = group.set)

structure Added (group group' : Group α) (score : ℕ) (member : α) (packed : ℤ) : Prop where
  latest : group'.latest = Function.update group.latest member (some (score, group.adds))
  adds : group'.adds = group.adds + 1
  length : group'.set.entries.length ≤ MAX_NUM + 1
  placed : Placed group group' member packed

theorem added_of_add (redis : Redis) (hinv : Invariant group) (hexact : score * 1000 + 999 ≤ 2 ^ 53)
    (hdense : Dense group.set score) : ∃ packed, Packed group score packed ∧
      Added group (add redis group score member) score member packed := by
  have hpacked := packed_of_dense redis hinv hexact hdense
  refine ⟨_, hpacked, ?_⟩
  have hnumber := redis.exact _ hpacked.nonneg hpacked.le
  by_cases hfull : group.set.entries.length = MAX_NUM + 1
  · obtain ⟨least, last, hrange, hlast, hleast⟩ := SortedSet.zrevrange_last hfull
    simp only [add, hrange]
    split_ifs with hlt
    · refine ⟨rfl, rfl, ?_, .replaced last least hlast hleast hlt hfull ?_⟩
      · have hrem := SortedSet.length_zrem (Option.isSome_iff_exists.mpr ⟨_, hlast⟩)
        exact (SortedSet.length_zadd_le _ _ _).trans_eq (hrem.trans hfull)
      · rw [hnumber, SortedSet.zscore_zadd, SortedSet.zscore_zrem, ofLex_toLex]
    · refine ⟨rfl, rfl, hinv.length, .refused (fun a e ha => ?_) hfull rfl⟩
      exact (not_lt.mp hlt).trans (hleast a e ha)
  · have hlen : group.set.entries.length ≤ MAX_NUM := by have := hinv.length; omega
    simp only [add, SortedSet.zrevrange_eq_nil hlen, hnumber]
    refine ⟨rfl, rfl, ?_, .free (SortedSet.zscore_zadd _ _ _)⟩
    exact (SortedSet.length_zadd_le _ _ _).trans (Nat.succ_le_succ hlen)

/-! ### One call -/

variable {group' : Group α} {packed : ℤ}

/-- Who is listed now is the new member with its packed score, or was listed. -/
def Listed (group group' : Group α) (member : α) (packed : ℤ) : Prop :=
  ∀ a e, group'.set.zscore a = some e →
    a = member ∧ e = packed ∨ a ≠ member ∧ group.set.zscore a = some e

theorem listed_of_placed (hadd : Placed group group' member packed) (hp : Packed group score packed)
    (hstays : Stays group score member) : Listed group group' member packed := by
  intro a e ha
  cases hadd with
  | free hset =>
      rw [hset] at ha
      by_cases h : a = member
      · subst h
        rw [Function.update_self, Option.some.injEq] at ha
        exact .inl ⟨rfl, ha.symm⟩
      · rw [Function.update_of_ne h] at ha
        exact .inr ⟨h, ha⟩
  | replaced last least _ _ _ _ hset =>
      rw [hset] at ha
      by_cases h : a = member
      · subst h
        rw [Function.update_self, Option.some.injEq] at ha
        exact .inl ⟨rfl, ha.symm⟩
      · rw [Function.update_of_ne h] at ha
        by_cases hl : a = last
        · subst hl
          simp at ha
        · rw [Function.update_of_ne hl] at ha
          exact .inr ⟨h, ha⟩
  | refused hle hfull hset =>
      rw [hset] at ha
      refine .inr ⟨?_, ha⟩
      rintro rfl
      -- a member with a lower score would be the last one
      obtain ⟨b, e', hb, hlow⟩ := hstays.notLast (Option.isSome_iff_exists.mpr ⟨e, ha⟩) hfull
      have := hle b e' hb
      have := hp.div
      omega

theorem Listed.scored (h : Listed group group' member packed) (hinv : Invariant group)
    (hp : Packed group score packed)
    (hlatest : group'.latest = Function.update group.latest member (some (↑score, group.adds)))
    (ha : group'.set.zscore a = some e) : ∃ t, group'.latest a = some (e / 1000, t) := by
  rw [hlatest]
  obtain ⟨rfl, rfl⟩ | ⟨hne, hold⟩ := h a e ha
  · exact ⟨group.adds, by rw [Function.update_self, hp.div]⟩
  · rw [Function.update_of_ne hne]
    exact hinv.scored a e hold

theorem Listed.distinct {b : α} (h : Listed group group' member packed) (hinv : Invariant group)
    (hp : Packed group score packed) (ha : group'.set.zscore a = some e)
    (hb : group'.set.zscore b = some e) : a = b := by
  have hnew : ∀ c, group.set.zscore c = some e → packed ≠ e := fun c hc =>
    have ⟨_, hlatest⟩ := hinv.scored c e hc
    (hp.before hinv hc hlatest).1
  obtain ⟨rfl, rfl⟩ | ⟨-, ha⟩ := h a e ha <;> obtain ⟨rfl, hpe⟩ | ⟨-, hb⟩ := h b e hb
  · rfl
  · exact absurd rfl (hnew b hb)
  · exact absurd hpe.symm (hnew a ha)
  · exact hinv.distinct a b e ha hb

theorem Listed.ordered {b : α} {e' : ℤ} (h : Listed group group' member packed)
    (hinv : Invariant group) (hp : Packed group score packed)
    (hlatest : group'.latest = Function.update group.latest member (some (↑score, group.adds)))
    (ha : group'.set.zscore a = some e) (hb : group'.set.zscore b = some e')
    (hpa : group'.latest a = some p) (hqb : group'.latest b = some q) (hlt : e' < e) :
    Before p q := by
  rw [hlatest] at hpa hqb
  obtain ⟨rfl, rfl⟩ | ⟨hna, ha⟩ := h a e ha <;> obtain ⟨rfl, rfl⟩ | ⟨hnb, hb⟩ := h b e' hb
  · exact absurd hlt (lt_irrefl _)
  · rw [Function.update_self, Option.some.injEq] at hpa
    rw [Function.update_of_ne hnb] at hqb
    exact hpa ▸ (hp.before hinv hb hqb).2.2 hlt
  · rw [Function.update_self, Option.some.injEq] at hqb
    rw [Function.update_of_ne hna] at hpa
    exact hqb ▸ (hp.before hinv ha hpa).2.1 hlt
  · rw [Function.update_of_ne hna] at hpa
    rw [Function.update_of_ne hnb] at hqb
    exact hinv.ordered a b e e' p q ha hb hpa hqb hlt

/-- A member that is listed stays before those that are not. -/
theorem Stays.before (hstays : Stays group score member) (hinv : Invariant group)
    (hmember : (group.set.zscore member).isSome) (hq : group.latest member = some q)
    (hqp : Before q p) (hm : group.set.zscore m = none) (hlatest : group.latest m = some p) :
    Before (score, group.adds) p := by
  obtain ⟨e, he⟩ := Option.isSome_iff_exists.mp hmember
  obtain hrises | habove := hstays.above e he
  · obtain ⟨t, ht⟩ := hinv.scored member e he
    cases hq.symm.trans ht
    unfold Before at hqp ⊢
    omega
  · exact .inl (habove m p hm hlatest)

/-- All that are listed but the last one are before it. -/
theorem before_last {last : α} {least : ℤ} (hinv : Invariant group)
    (hlast : group.set.zscore last = some least)
    (hleast : ∀ a e, group.set.zscore a = some e → least ≤ e) (ha : (group.set.zscore a).isSome)
    (hne : a ≠ last) (hq : group.latest last = some q) : ∃ p, group.latest a = some p ∧
    Before p q := by
  obtain ⟨e, ha⟩ := Option.isSome_iff_exists.mp ha
  obtain ⟨t, ht⟩ := hinv.scored a e ha
  refine ⟨_, ht, hinv.ordered a last e least _ q ha hlast ht hq ?_⟩
  refine lt_of_le_of_ne (hleast a e ha) fun heq => hne ?_
  exact hinv.distinct a last e ha (heq ▸ hlast)

/-- Where the last member is not before another one, those before it are. -/
theorem kept_of_last {last : α} {least : ℤ} {r : ℤ × ℕ} (hinv : Invariant group)
    (hp : Packed group score packed)
    (hlatest : group'.latest = Function.update group.latest member (some (↑score, group.adds)))
    (hlast : group.set.zscore last = some least)
    (hleast : ∀ a e, group.set.zscore a = some e → least ≤ e) (hlt : least < packed)
    (hfull : group.set.entries.length = MAX_NUM + 1)
    (hset : group'.set.zscore =
      Function.update (Function.update group.set.zscore last none) member (some packed))
    (hq : group.latest last = some q) (hqr : q = r ∨ Before q r) :
    ∃ T : Finset α, MAX_NUM ≤ T.card ∧ ∀ a ∈ T, (group'.set.zscore a).isSome ∧
      ∃ p, group'.latest a = some p ∧ Before p r := by
  have hmem : last ∈ group.set.members :=
    SortedSet.mem_members_iff.mpr (Option.isSome_iff_exists.mpr ⟨_, hlast⟩)
  have hbehind : ∀ p, Before p q → Before p r := fun p hpq => hqr.elim (· ▸ hpq) hpq.trans
  refine ⟨group.set.members.erase last, ?_, fun a ha => ?_⟩
  · rw [Finset.card_erase_of_mem hmem, SortedSet.card_members, hfull]
    exact le_rfl
  · obtain ⟨hne, ha⟩ := Finset.mem_erase.mp ha
    have ha := SortedSet.mem_members_iff.mp ha
    rw [hset, hlatest]
    by_cases h : a = member
    · subst h
      rw [Function.update_self, Function.update_self]
      exact ⟨rfl, _, rfl, hbehind _ ((hp.before hinv hlast hq).2.2 hlt)⟩
    · rw [Function.update_of_ne h, Function.update_of_ne h, Function.update_of_ne hne]
      obtain ⟨p, hlatest, hpq⟩ := before_last hinv hlast hleast ha hne hq
      exact ⟨ha, p, hlatest, hbehind p hpq⟩

/-- Those that were before a member without a place are so, when they are still listed. -/
theorem kept_of_kept (hinv : Invariant group) (hstays : Stays group score member)
    (hlatest : group'.latest = Function.update group.latest member (some (↑score, group.adds)))
    (hm : group.set.zscore m = none) (hp : group.latest m = some p) {T : Finset α}
    (hcard : MAX_NUM ≤ T.card)
    (hT : ∀ a ∈ T, (group.set.zscore a).isSome ∧ ∃ q, group.latest a = some q ∧ Before q p)
    (hstill : ∀ a ∈ T, (group'.set.zscore a).isSome) :
    ∃ T : Finset α, MAX_NUM ≤ T.card ∧ ∀ a ∈ T, (group'.set.zscore a).isSome ∧
      ∃ q, group'.latest a = some q ∧ Before q p := by
  refine ⟨T, hcard, fun a ha => ⟨hstill a ha, ?_⟩⟩
  obtain ⟨hlisted, q, hq, hqp⟩ := hT a ha
  rw [hlatest]
  by_cases h : a = member
  · subst h
    rw [Function.update_self]
    exact ⟨_, rfl, hstays.before hinv hlisted hq hqp hm hp⟩
  · rw [Function.update_of_ne h]
    exact ⟨q, hq, hqp⟩

theorem kept_add (hinv : Invariant group) (hstays : Stays group score member)
    (hp : Packed group score packed) (hadd : Added group group' score member packed)
    (hm : group'.set.zscore m = none) (hlatest : group'.latest m = some p) :
    ∃ T : Finset α, MAX_NUM ≤ T.card ∧ ∀ a ∈ T, (group'.set.zscore a).isSome ∧
      ∃ q, group'.latest a = some q ∧ Before q p := by
  cases hadd.placed with
  | free hset =>
      have hne : m ≠ member := by
        rintro rfl
        simp [hset] at hm
      rw [hset, Function.update_of_ne hne] at hm
      rw [hadd.latest, Function.update_of_ne hne] at hlatest
      obtain ⟨T, hcard, hT⟩ := hinv.kept m p hlatest hm
      refine kept_of_kept hinv hstays hadd.latest hm hlatest hcard hT fun a ha => ?_
      rw [hset]
      by_cases h : a = member
      · simp [h]
      · rw [Function.update_of_ne h]
        exact (hT a ha).1
  | replaced last least hlast hleast hlt hfull hset =>
      have hne : m ≠ member := by
        rintro rfl
        simp [hset] at hm
      rw [hadd.latest, Function.update_of_ne hne] at hlatest
      obtain ⟨t, ht⟩ := hinv.scored last least hlast
      by_cases hml : m = last
      · subst hml
        exact kept_of_last hinv hp hadd.latest hlast hleast hlt hfull hset ht
          (.inl (Option.some.inj (ht.symm.trans hlatest)))
      · rw [hset, Function.update_of_ne hne, Function.update_of_ne hml] at hm
        obtain ⟨T, hcard, hT⟩ := hinv.kept m p hlatest hm
        by_cases hin : last ∈ T
        · obtain ⟨-, q, hq, hqp⟩ := hT last hin
          exact kept_of_last hinv hp hadd.latest hlast hleast hlt hfull hset hq (.inr hqp)
        · refine kept_of_kept hinv hstays hadd.latest hm hlatest hcard hT fun a ha => ?_
          rw [hset]
          by_cases h : a = member
          · simp [h]
          · rw [Function.update_of_ne h, Function.update_of_ne (ne_of_mem_of_not_mem ha hin)]
            exact (hT a ha).1
  | refused hle hfull hset =>
      rw [hset] at hm ⊢
      by_cases hne : m = member
      · subst hne
        rw [hadd.latest, Function.update_self, Option.some.injEq] at hlatest
        subst hlatest
        refine ⟨group.set.members, ?_, fun a ha => ?_⟩
        · rw [SortedSet.card_members, hfull]
          exact Nat.le_succ _
        · have ha := SortedSet.mem_members_iff.mp ha
          have hne : a ≠ m := by
            rintro rfl
            simp [hm] at ha
          obtain ⟨e, he⟩ := Option.isSome_iff_exists.mp ha
          obtain ⟨t, ht⟩ := hinv.scored a e he
          obtain ⟨hpe, hbefore, -⟩ := hp.before hinv he ht
          rw [hadd.latest, Function.update_of_ne hne]
          exact ⟨ha, _, ht, hbefore (lt_of_le_of_ne (hle a e he) hpe)⟩
      · rw [hadd.latest, Function.update_of_ne hne] at hlatest
        obtain ⟨T, hcard, hT⟩ := hinv.kept m p hlatest hm
        rw [← hset]
        refine kept_of_kept hinv hstays hadd.latest hm hlatest hcard hT fun a ha => ?_
        rw [hset]
        exact (hT a ha).1

theorem invariant_add (hinv : Invariant group) (hexact : score * 1000 + 999 ≤ 2 ^ 53)
    (hdense : Dense group.set score) (hstays : Stays group score member) :
    Invariant (add redis group score member) := by
  obtain ⟨packed, hp, hadd⟩ := added_of_add redis hinv hexact hdense
  have hlisted := listed_of_placed hadd.placed hp hstays
  exact {
    scored := fun m e he => hlisted.scored hinv hp hadd.latest he
    distinct := fun a b e ha hb => hlisted.distinct hinv hp ha hb
    kept := fun m p hlatest hm => kept_add hinv hstays hp hadd hm hlatest
    ordered := fun a b e e' p q ha hb hpa hqb hlt =>
      hlisted.ordered hinv hp hadd.latest ha hb hpa hqb hlt
    old := fun m p hlatest => by
      rw [hadd.adds]
      rw [hadd.latest] at hlatest
      by_cases h : m = member
      · rw [h, Function.update_self, Option.some.injEq] at hlatest
        exact hlatest ▸ Nat.lt_succ_self _
      · rw [Function.update_of_ne h] at hlatest
        exact (hinv.old m p hlatest).trans (Nat.lt_succ_self _)
    length := hadd.length }

theorem invariant_empty : Invariant (⟨.empty, true, fun _ => none, 0⟩ : Group α) where
  scored := nofun
  distinct := nofun
  kept := nofun
  ordered := nofun
  old := nofun
  length := Nat.zero_le _

/-- Where members leave only the last places of their scores, rise, and fall above all that are not
listed, every list is ranked. -/
theorem rank_lists_ranked (redis : Redis) {s : κ → Group α}
    (h : (system α κ redis).Runs OK s) (atype : κ) : Ranked (s atype) := by
  have hinv : ∀ atype, Invariant (s atype) := by
    refine h.invariant (P := fun s => ∀ atype, Invariant (s atype)) (fun _ => invariant_empty) ?_
    intro s l s' hinv hok hstep atype
    cases hstep
    by_cases hkey : atype = l.atype
    · subst hkey
      rw [Function.update_self]
      exact invariant_add (hinv _) hok.exact hok.dense hok.stays
    · rw [Function.update_of_ne hkey]
      exact hinv atype
  exact (hinv atype).toRanked

theorem Stays.of_new (h : group.set.zscore member = none) : Stays group score member :=
  ⟨fun e he => by simp [h] at he, fun hsome => by simp [h] at hsome⟩

theorem Stays.of_rise (h : group.set.zscore member = some e) (hrise : e / 1000 < score) :
    Stays group score member := by
  refine ⟨fun e' he' => .inl ?_, fun _ _ => ⟨member, e, h, hrise⟩⟩
  rwa [← Option.some.inj (h.symm.trans he')]

/-- Numbers that need no rounding. -/
def small : Redis := ⟨id, fun _ _ _ => rfl⟩

/-- Two members with one score; the second one rises. -/
theorem rank_lists_ranked_rise : ∃ s, (system ℕ Unit small).Runs OK s ∧
    (s ()).set.zscore 1 = some 5999 ∧ (s ()).set.zscore 2 = some 7999 ∧ Ranked (s ()) := by
  have hfirst := System.Runs.step (i := ⟨(), 5, 1⟩) (System.Runs.init (S := system ℕ Unit small))
    (⟨by decide, by decide, .of_new rfl⟩ : OK _ _) rfl
  have hsecond := System.Runs.step (i := ⟨(), 5, 2⟩) hfirst
    (⟨by decide, by decide, .of_new rfl⟩ : OK _ _) rfl
  have hthird := System.Runs.step (i := ⟨(), 7, 2⟩) hsecond
    (⟨by decide, by decide, .of_rise (e := 5998) rfl (by decide)⟩ : OK _ _) rfl
  exact ⟨_, hthird, by decide, by decide, rank_lists_ranked small hthird ()⟩

/-- The member that rises was not the last one of its score: the next one with this score gets the
number that the second one has. -/
theorem rank_lists_collide : ∃ s, (system ℕ Unit small).Reachable s ∧
    (s ()).set.zscore 2 = some 5998 ∧ (s ()).set.zscore 3 = some 5998 ∧ ¬ Ranked (s ()) := by
  have hreach := System.reachable_of_run (S := system ℕ Unit small)
    [⟨(), 5, 1⟩, ⟨(), 5, 2⟩, ⟨(), 6, 1⟩, ⟨(), 5, 3⟩] rfl
  refine ⟨_, hreach, by decide, by decide, fun h => ?_⟩
  exact absurd (h.distinct 2 3 5998 (by decide) (by decide)) (by decide)

end GameServer.RankList
