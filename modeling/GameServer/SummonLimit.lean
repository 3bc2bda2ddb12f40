import GameServer.EntityTick

/-!
# The summon limit

`master.pets` keeps every pet that was ever summoned, the oldest first, the dead ones too. A summon
counts the pets of its series from the newest back and ends the lifetime of those beyond the limit,
which their next update acts on.
-/

namespace GameServer.SummonLimit

open Sweep (Loop)

/-- The row of the repository. -/
structure PetRow where
  Serid : ℤ
  n32SummonLimit : ℤ
  n32LifeTime : ℤ
  n32Type : ℤ
  deriving DecidableEq

structure Pet where
  serverId : ℕ
  pt : PetRow
  lifeTime : ℤ
  hp : ℤ
  deriving DecidableEq

/-- The pets of a master, and those of them that are in the list of the entity manager, each by its
place among the pets. -/
structure Master where
  pets : List Pet
  entityList : List ℕ
  deriving DecidableEq

/-- The walk from the newest pet back to the oldest, with the limit that is left after it. -/
def marked (Serid limitNum : ℤ) : List Pet → List Pet × ℤ
  | [] => ([], limitNum)
  | v :: newer =>
      let r := marked Serid limitNum newer
      if v.pt.Serid = Serid then
        let left := r.2 - 1
        if left ≤ 0 then ({ v with lifeTime := -1 } :: r.1, left) else (v :: r.1, left)
      else (v :: r.1, r.2)

/-- The new pet has the life that its `init` gives it, for a double of the master a share of its
own. -/
def createPet (pt : PetRow) (serverId : ℕ) (hp : ℤ) (master : Master) : Master where
  pets := (marked pt.Serid pt.n32SummonLimit master.pets).1 ++
    [⟨serverId, pt, pt.n32LifeTime * 1000, hp⟩]
  entityList := master.entityList ++ [master.pets.length]

/-- `IPet:update` -/
def Pet.update (dt : ℕ) (self : Pet) : Pet :=
  if self.hp ≤ 0 then self
  else
    let lifeTime := self.lifeTime - dt
    if lifeTime ≤ 0 then { self with lifeTime := lifeTime, hp := -1 }
    else { self with lifeTime := lifeTime }

/-- The loop of the entity manager over the pets. -/
def manager (dt : ℕ) : Loop ℕ (List Pet) where
  body i pets _ := (pets.modify i (Pet.update dt), [])
  removed i pets :=
    match pets[i]? with
    | none => false
    | some v => EntityTick.petType v.pt.n32Type = .pet ∧ v.hp ≤ 0

def tick (dt : ℕ) (master : Master) : Master :=
  let ran := (manager dt).sweep master.entityList.length master.pets master.entityList
  ⟨ran.state, ran.list⟩

inductive Event
  | createPet (pt : PetRow) (serverId : ℕ) (hp : ℤ)
  | dead (i : ℕ)
  | tick (dt : ℕ)

def step (master : Master) : Event → Master
  | .createPet pt serverId hp => createPet pt serverId hp master
  | .dead i => { master with pets := master.pets.modify i fun v => { v with hp := 0 } }
  | .tick dt => tick dt master

def run (history : List Event) : Master := history.foldl step ⟨[], []⟩

/-! ## The pets of a series -/

section Series

variable (Serid : ℤ)

def ofSeries (v : Pet) : Bool := v.pt.Serid = Serid

def isLiving (v : Pet) : Bool := ofSeries Serid v ∧ 0 < v.hp

/-- The living pets of the series, the oldest first. -/
def living (pets : List Pet) : List Pet := pets.filter (isLiving Serid)

/-- Each pet with the number of pets of the series from it on, living or dead. -/
def ranked : List Pet → List (Pet × ℕ)
  | [] => []
  | v :: newer => (v, (v :: newer).countP (ofSeries Serid)) :: ranked newer

def livingRanked (pets : List Pet) : List (Pet × ℕ) :=
  (ranked Serid pets).filter fun r => isLiving Serid r.1

variable {Serid}

theorem map_livingRanked (pets : List Pet) :
    (livingRanked Serid pets).map Prod.fst = living Serid pets := by
  induction pets with
  | nil => rfl
  | cons v newer ih =>
      unfold livingRanked living at ih ⊢
      rw [ranked, List.filter_cons, List.filter_cons]
      split_ifs
      · rw [List.map_cons, ih]
      · exact ih

theorem mem_ranked_pos {r : Pet × ℕ} {pets : List Pet} (h : r ∈ livingRanked Serid pets) :
    0 < r.2 := by
  induction pets with
  | nil => exact absurd h List.not_mem_nil
  | cons v newer ih =>
      unfold livingRanked at ih h
      rw [ranked, List.filter_cons] at h
      split_ifs at h with hv
      · obtain rfl | h := List.mem_cons.mp h
        · rw [isLiving, decide_eq_true_eq] at hv
          dsimp only
          rw [List.countP_cons_of_pos hv.1]
          exact Nat.succ_pos _
        · exact ih h
      · exact ih h

theorem rank_le {r : Pet × ℕ} {pets : List Pet} (h : r ∈ ranked Serid pets) :
    r.2 ≤ pets.countP (ofSeries Serid) := by
  induction pets with
  | nil => exact absurd h List.not_mem_nil
  | cons v newer ih =>
      rw [ranked] at h
      obtain rfl | h := List.mem_cons.mp h
      · exact le_rfl
      · exact (ih h).trans (List.Sublist.countP_le (List.sublist_cons_self v newer))

variable (Serid) in
/-- Every living pet of the series counts for those in front of it. -/
theorem livingRanked_sorted (pets : List Pet) :
    (livingRanked Serid pets).Pairwise fun a b => b.2 < a.2 := by
  induction pets with
  | nil => exact List.Pairwise.nil
  | cons v newer ih =>
      unfold livingRanked at ih ⊢
      rw [ranked, List.filter_cons]
      split_ifs with hv
      · refine List.pairwise_cons.mpr ⟨fun r hr => ?_, ih⟩
        rw [isLiving, decide_eq_true_eq] at hv
        dsimp only
        rw [List.countP_cons_of_pos hv.1]
        exact Nat.lt_succ_of_le (rank_le (List.mem_filter.mp hr).1)
      · exact ih

/-- With `k` pets behind it, a pet has a rank above `k`. -/
theorem length_lt_rank {l : List (Pet × ℕ)} {r : Pet × ℕ}
    (hsorted : (r :: l).Pairwise fun a b => b.2 < a.2) (hpos : ∀ b ∈ r :: l, 0 < b.2) :
    l.length < r.2 := by
  induction l generalizing r with
  | nil => exact hpos r List.mem_cons_self
  | cons b rest ih =>
      have hrest := ih (List.pairwise_cons.mp hsorted).2
        fun c hc => hpos c (List.mem_cons_of_mem r hc)
      have hlt := (List.pairwise_cons.mp hsorted).1 b List.mem_cons_self
      rw [List.length_cons]
      omega

end Series

/-! ## The walk and the update -/

section Walk

variable {Serid limitNum : ℤ} {dt : ℕ}

variable (Serid limitNum) in
theorem marked_left (pets : List Pet) :
    (marked Serid limitNum pets).2 = limitNum - pets.countP (ofSeries Serid) := by
  induction pets with
  | nil => exact (sub_zero _).symm
  | cons v newer ih =>
      rw [marked, List.countP_cons]
      by_cases hv : v.pt.Serid = Serid
      · have hof : ofSeries Serid v = true := decide_eq_true hv
        rw [if_pos hv, if_pos hof, apply_ite Prod.snd, ite_self, ih]
        push_cast
        omega
      · have hof : ¬ ofSeries Serid v = true := fun h => hv (of_decide_eq_true h)
        rw [if_neg hv, if_neg hof]
        exact ih

theorem length_marked (pets : List Pet) : (marked Serid limitNum pets).1.length = pets.length := by
  induction pets with
  | nil => rfl
  | cons v newer ih =>
      rw [marked]
      dsimp only
      split_ifs
      · exact congrArg (· + 1) ih
      · exact congrArg (· + 1) ih
      · exact congrArg (· + 1) ih

theorem update_serverId (v : Pet) : (v.update dt).serverId = v.serverId := by
  unfold Pet.update
  dsimp only
  split_ifs
  · rfl
  · rfl
  · rfl

/-- A pet lives on if its lifetime is longer than the tick. -/
theorem isLiving_update (v : Pet) :
    isLiving Serid (v.update dt) = (isLiving Serid v && decide ((dt : ℤ) < v.lifeTime)) := by
  unfold isLiving ofSeries Pet.update
  dsimp only
  split_ifs with hhp hlife
  · simp [not_lt.mpr hhp]
  · have hover : ¬ (dt : ℤ) < v.lifeTime := by omega
    simp [hover]
  · have hlonger : (dt : ℤ) < v.lifeTime := by omega
    simp [hlonger]

theorem not_isLiving_marked (v : Pet) :
    isLiving Serid (Pet.update dt { v with lifeTime := -1 }) = false := by
  have hover : ¬ (dt : ℤ) < -1 := by omega
  rw [isLiving_update]
  simp [hover]

/-- Who is still living after the walk and a tick. -/
def outlasts (limitNum : ℤ) (dt : ℕ) (r : Pet × ℕ) : Bool :=
  (r.2 : ℤ) < limitNum ∧ (dt : ℤ) < r.1.lifeTime

theorem living_marked (pets : List Pet) :
    (living Serid ((marked Serid limitNum pets).1.map (Pet.update dt))).map Pet.serverId =
      ((livingRanked Serid pets).filter (outlasts limitNum dt)).map fun r => r.1.serverId := by
  induction pets with
  | nil => rfl
  | cons v newer ih =>
      have hleft := marked_left Serid limitNum newer
      unfold living livingRanked at ih ⊢
      rw [marked, ranked]
      by_cases hv : v.pt.Serid = Serid
      · have hof : ofSeries Serid v = true := decide_eq_true hv
        have hrank : outlasts limitNum dt (v, (v :: newer).countP (ofSeries Serid)) =
            (decide (0 < (marked Serid limitNum newer).2 - 1) &&
              decide ((dt : ℤ) < v.lifeTime)) := by
          rw [outlasts, List.countP_cons_of_pos hof, hleft, Bool.decide_and]
          congr 1
          exact decide_eq_decide.mpr (by push_cast; omega)
        rw [if_pos hv]
        by_cases hpast : (marked Serid limitNum newer).2 - 1 ≤ 0
        · rw [if_pos hpast]
          have hgone : outlasts limitNum dt (v, (v :: newer).countP (ofSeries Serid)) = false := by
            rw [hrank, decide_eq_false (not_lt.mpr hpast), Bool.false_and]
          rw [List.map_cons, List.filter_cons_of_neg (by rw [not_isLiving_marked]; decide), ih,
            List.filter_cons]
          split_ifs
          · rw [List.filter_cons_of_neg (by rw [hgone]; decide)]
          · rfl
        · rw [if_neg hpast]
          have hstays : outlasts limitNum dt (v, (v :: newer).countP (ofSeries Serid)) =
              decide ((dt : ℤ) < v.lifeTime) := by
            rw [hrank, decide_eq_true (not_le.mp hpast), Bool.true_and]
          rw [List.map_cons, List.filter_cons, List.filter_cons, isLiving_update]
          cases hlive : isLiving Serid v
          · exact ih
          · rw [Bool.true_and, if_pos rfl, List.filter_cons, hstays]
            split_ifs
            · rw [List.map_cons, List.map_cons, ih, update_serverId]
            · exact ih
      · have hother : isLiving Serid v = false := by
          rw [isLiving, ofSeries, decide_eq_false hv]
          simp
        rw [if_neg hv, List.map_cons, List.filter_cons_of_neg (by
          rw [isLiving_update, hother, Bool.false_and]; decide), ih, List.filter_cons_of_neg (by
          rw [hother]; decide)]

end Walk

/-! ## The tick -/

/-- Every living pet is in the list of the entity manager, and only pets are, each of them once. -/
structure Listed (master : Master) : Prop where
  nodup : master.entityList.Nodup
  lt_length : ∀ i ∈ master.entityList, i < master.pets.length
  mem : ∀ i v, master.pets[i]? = some v → 0 < v.hp → i ∈ master.entityList

section Tick

variable {dt : ℕ} {master : Master}

theorem update_of_dead {v : Pet} (h : v.hp ≤ 0) : v.update dt = v := if_pos h

theorem hp_of_update {v : Pet} (h : 0 < (v.update dt).hp) : 0 < v.hp := by
  by_contra hdead
  rw [update_of_dead (not_lt.mp hdead)] at h
  exact hdead h

theorem foldr_modify {f : Pet → Pet} {places : List ℕ} (hnodup : places.Nodup) (pets : List Pet)
    (j : ℕ) : (places.foldr (fun i l => l.modify i f) pets)[j]? =
      (pets[j]?).map fun v => if j ∈ places then f v else v := by
  induction places with
  | nil => simp
  | cons i rest ih =>
      obtain ⟨hi, hrest⟩ := List.nodup_cons.mp hnodup
      rw [List.foldr_cons, List.getElem?_modify, ih hrest]
      by_cases hij : i = j
      · subst hij
        simp [hi]
      · simp [hij, Ne.symm hij]

theorem tick_pets (h : Listed master) :
    (tick dt master).pets = master.pets.map (Pet.update dt) := by
  have hstate : (tick dt master).pets =
      master.entityList.foldr (fun i l => l.modify i (Pet.update dt)) master.pets := by
    have hquiet := Loop.quiet_state (L := manager dt) (f := fun i l => l.modify i (Pet.update dt))
      (fun _ _ _ => rfl) master.entityList [] master.pets
    rwa [List.append_nil] at hquiet
  refine List.ext_getElem? fun j => ?_
  rw [hstate, foldr_modify h.nodup, List.getElem?_map]
  cases hj : master.pets[j]? with
  | none => rfl
  | some v =>
      by_cases hmem : j ∈ master.entityList
      · rw [Option.map_some, Option.map_some, if_pos hmem]
      · have hdead : v.hp ≤ 0 := not_lt.mp fun hlive => hmem (h.mem j v hj hlive)
        rw [Option.map_some, Option.map_some, if_neg hmem, update_of_dead hdead]

theorem tick_listed (h : Listed master) : Listed (tick dt master) := by
  have hround : ∀ i v (pets : List Pet) entityList, entityList[i]? = some v →
      Listed ⟨pets, entityList⟩ →
      Listed ⟨((manager dt).body v pets entityList).1, (manager dt).next i v pets entityList⟩ := by
    intro i v pets entityList hv hlisted
    have hsub : ((manager dt).next i v pets entityList).Sublist entityList :=
      Loop.quiet_next_sublist (f := fun i l => l.modify i (Pet.update dt)) fun _ _ _ => rfl
    refine ⟨hlisted.nodup.sublist hsub, fun j hj => ?_, fun j p hp hlive => ?_⟩
    · exact (hlisted.lt_length j (hsub.mem hj)).trans_eq (List.length_modify _ _ _).symm
    · have hmodify := hp
      change (pets.modify v (Pet.update dt))[j]? = some p at hmodify
      rw [List.getElem?_modify] at hmodify
      obtain ⟨q, hq, rfl⟩ := Option.map_eq_some_iff.mp hmodify
      have hqlive : 0 < q.hp := by
        split_ifs at hlive
        · exact hp_of_update hlive
        · exact hlive
      refine Loop.quiet_mem_next (f := fun i l => l.modify i (Pet.update dt)) (fun _ _ _ => rfl) hv
        (hlisted.mem j q hq hqlive) fun hjv => ?_
      subst hjv
      have hkept : (manager dt).removed j (pets.modify j (Pet.update dt)) = false := by
        change (match (pets.modify j (Pet.update dt))[j]? with
          | none => false
          | some v => decide (EntityTick.petType v.pt.n32Type = .pet ∧ v.hp ≤ 0)) = false
        rw [show (pets.modify j (Pet.update dt))[j]? = _ from hp]
        exact decide_eq_false fun hgone => hgone.2.not_gt hlive
      exact hkept
  exact Loop.sweep_induct (fun _ pets entityList => Listed ⟨pets, entityList⟩) hround
    master.entityList.length le_rfl h

end Tick

/-! ## The histories -/

theorem map_hp_marked (Serid limitNum : ℤ) (pets : List Pet) :
    (marked Serid limitNum pets).1.map Pet.hp = pets.map Pet.hp := by
  induction pets with
  | nil => rfl
  | cons v newer ih =>
      rw [marked]
      dsimp only
      split_ifs
      · exact congrArg (v.hp :: ·) ih
      · exact congrArg (v.hp :: ·) ih
      · exact congrArg (v.hp :: ·) ih

theorem createPet_listed {pt : PetRow} {serverId : ℕ} {hp : ℤ} {master : Master}
    (h : Listed master) : Listed (createPet pt serverId hp master) := by
  have hlen : (createPet pt serverId hp master).pets.length = master.pets.length + 1 := by
    rw [createPet, List.length_append, length_marked, List.length_singleton]
  refine ⟨?_, fun i hi => ?_, fun i v hv hlive => ?_⟩
  · refine List.nodup_append.mpr ⟨h.nodup, List.nodup_singleton _, fun i hi j hj => ?_⟩
    rw [List.mem_singleton.mp hj]
    exact (h.lt_length i hi).ne
  · rw [hlen]
    obtain hi | hi := List.mem_append.mp hi
    · exact (h.lt_length i hi).trans (Nat.lt_succ_self _)
    · rw [List.mem_singleton.mp hi]
      exact Nat.lt_succ_self _
  · by_cases hi : i < master.pets.length
    · have hmarked : (marked pt.Serid pt.n32SummonLimit master.pets).1[i]? = some v := by
        rwa [createPet, List.getElem?_append_left (by rwa [length_marked])] at hv
      have hhp := congrArg (·[i]?) (map_hp_marked pt.Serid
        pt.n32SummonLimit master.pets)
      rw [List.getElem?_map, List.getElem?_map, hmarked] at hhp
      obtain ⟨q, hq, hqv⟩ := Option.map_eq_some_iff.mp hhp.symm
      exact List.mem_append_left _ (h.mem i q hq (hlive.trans_eq hqv.symm))
    · have hlt : i < (createPet pt serverId hp master).pets.length :=
        (List.getElem?_eq_some_iff.mp hv).1
      have heq : i = master.pets.length := by omega
      exact List.mem_append_right _ (List.mem_singleton.mpr heq)

theorem step_listed {master : Master} (h : Listed master) (event : Event) :
    Listed (step master event) := by
  cases event with
  | createPet pt serverId hp => exact createPet_listed h
  | tick dt => exact tick_listed h
  | dead i =>
      refine ⟨h.nodup, fun j hj => ?_, fun j v hv hlive => ?_⟩
      · exact (h.lt_length j hj).trans_eq (List.length_modify _ _ _).symm
      · change (master.pets.modify i _)[j]? = some v at hv
        rw [List.getElem?_modify] at hv
        obtain ⟨q, hq, rfl⟩ := Option.map_eq_some_iff.mp hv
        split_ifs at hlive
        · exact absurd hlive (lt_irrefl 0)
        · exact h.mem j q hq hlive

theorem run_listed (history : List Event) : Listed (run history) := by
  induction history using List.reverseRecOn with
  | nil => exact ⟨List.nodup_nil, fun i hi => absurd hi List.not_mem_nil, fun i v hv => by cases hv⟩
  | append_singleton history event ih =>
      rw [run, List.foldl_append]
      exact step_listed ih event

/-- After the summon and the tick as many are living as the limit allows, and those that are not
are the oldest. -/
structure LimitKept (pt : PetRow) (serverId : ℕ) (before after : Master) : Prop where
  count : ((living pt.Serid after.pets).length : ℤ) =
    min (((living pt.Serid before.pets).length : ℤ) + 1) pt.n32SummonLimit
  oldest : (living pt.Serid after.pets).map Pet.serverId <:+
    (living pt.Serid before.pets).map Pet.serverId ++ [serverId]

/-- The living pets of the series that the limit leaves beside the new one. -/
def newest (pt : PetRow) (pets : List Pet) : List (Pet × ℕ) :=
  (livingRanked pt.Serid pets).drop
    ((livingRanked pt.Serid pets).length + 1 - pt.n32SummonLimit.toNat)

/-- The new pet outlasts the tick; and so does each of the newest living ones, with the limit above
the number of pets, living or dead, from it on. -/
def Room (pt : PetRow) (hp : ℤ) (dt : ℕ) (pets : List Pet) : Prop :=
  (0 < hp ∧ (dt : ℤ) < pt.n32LifeTime * 1000) ∧
    ∀ r ∈ newest pt pets, outlasts pt.n32SummonLimit dt r = true

section Limit

variable {pt : PetRow} {dt : ℕ}

/-- The walk reaches the oldest ones beyond the limit. -/
theorem filter_outlasts (hlimit : 1 ≤ pt.n32SummonLimit) (pets : List Pet) :
    (livingRanked pt.Serid pets).filter (outlasts pt.n32SummonLimit dt) =
      (newest pt pets).filter (outlasts pt.n32SummonLimit dt) := by
  unfold newest
  set l := livingRanked pt.Serid pets with hl
  set k := l.length + 1 - pt.n32SummonLimit.toNat with hk
  have holdest : (l.take k).filter (outlasts pt.n32SummonLimit dt) = [] := by
    refine List.filter_eq_nil_iff.mpr fun r hr => ?_
    obtain ⟨older, behind, hsplit⟩ := List.append_of_mem hr
    have hall : l = older ++ (r :: (behind ++ l.drop k)) := by
      conv_lhs => rw [← List.take_append_drop k l, hsplit]
      rw [List.append_assoc, List.cons_append]
    have hsorted := livingRanked_sorted pt.Serid pets
    rw [← hl, hall] at hsorted
    have hrank := length_lt_rank (List.pairwise_append.mp hsorted).2.1 fun b hb =>
      mem_ranked_pos (by rw [← hl, hall]; exact List.mem_append_right _ hb)
    have hkpos : 0 < k := by
      by_contra hzero
      rw [Nat.eq_zero_of_not_pos hzero, List.take_zero] at hr
      exact List.not_mem_nil hr
    rw [List.length_append, List.length_drop] at hrank
    rw [outlasts, decide_eq_true_eq]
    intro hlasts
    have hlt := hlasts.1
    omega
  conv_lhs => rw [← List.take_append_drop k l, List.filter_append, holdest]
  exact List.nil_append _

theorem length_newest (hlimit : 1 ≤ pt.n32SummonLimit) (pets : List Pet) :
    ((newest pt pets).length : ℤ) + 1 =
      min (((living pt.Serid pets).length : ℤ) + 1) pt.n32SummonLimit := by
  rw [newest, List.length_drop, ← map_livingRanked, List.length_map]
  omega

variable (dt) in
/-- The living ones after the summon and the tick. -/
theorem living_after (serverId : ℕ) (hp : ℤ) {master : Master} (h : Listed master)
    (hlimit : 1 ≤ pt.n32SummonLimit) :
    (living pt.Serid (tick dt (createPet pt serverId hp master)).pets).map Pet.serverId =
      ((newest pt master.pets).filter (outlasts pt.n32SummonLimit dt)).map
          (fun r => r.1.serverId) ++
        if 0 < hp ∧ (dt : ℤ) < pt.n32LifeTime * 1000 then [serverId] else [] := by
  rw [tick_pets (createPet_listed h), createPet, List.map_append, living, List.filter_append,
    List.map_append, ← living, living_marked, filter_outlasts hlimit]
  congr 1
  have hlives : isLiving pt.Serid (Pet.update dt ⟨serverId, pt, pt.n32LifeTime * 1000, hp⟩) =
      decide (0 < hp ∧ (dt : ℤ) < pt.n32LifeTime * 1000) := by
    rw [isLiving_update]
    simp [isLiving, ofSeries]
  rw [List.map_singleton, List.filter_singleton, hlives]
  by_cases hnew : 0 < hp ∧ (dt : ℤ) < pt.n32LifeTime * 1000
  · rw [decide_eq_true hnew, if_pos hnew]
    exact congrArg (fun i => [i]) (update_serverId _)
  · rw [decide_eq_false hnew, if_neg hnew]
    rfl

/-- The limit is kept if and only if the new pet and the newest of the living ones that the limit
leaves beside it outlast the tick, and the walk reaches none of these: from each of them on there
are fewer pets than the limit, dead ones counted. -/
theorem limitKept_iff (history : List Event) (pt : PetRow) (serverId : ℕ) (hp : ℤ) (dt : ℕ)
    (hlimit : 1 ≤ pt.n32SummonLimit) :
    LimitKept pt serverId (run history)
        (run (history ++ [.createPet pt serverId hp, .tick dt])) ↔
      Room pt hp dt (run history).pets := by
  have hrun : run (history ++ [.createPet pt serverId hp, .tick dt]) =
      tick dt (createPet pt serverId hp (run history)) := List.foldl_append
  have hafter := living_after dt serverId hp (run_listed history)
    hlimit
  have hroom := length_newest hlimit (run history).pets
  rw [← hrun] at hafter
  have hlength := congrArg List.length hafter
  rw [List.length_map, List.length_append, List.length_map] at hlength
  constructor
  · rintro ⟨hcount, -⟩
    have hle := List.length_filter_le (outlasts pt.n32SummonLimit dt)
      (newest pt (run history).pets)
    rw [hlength, ← hroom] at hcount
    by_cases hnew : 0 < hp ∧ (dt : ℤ) < pt.n32LifeTime * 1000
    · rw [if_pos hnew, List.length_singleton] at hcount
      refine ⟨hnew, List.length_filter_eq_length_iff.mp ?_⟩
      omega
    · rw [if_neg hnew, List.length_nil] at hcount
      omega
  · rintro ⟨hnew, hold⟩
    rw [List.filter_eq_self.mpr hold, if_pos hnew] at hafter hlength
    constructor
    · rw [hlength, ← hroom]
      rfl
    · rw [hafter, ← map_livingRanked, List.map_map]
      have hsuffix : newest pt (run history).pets <:+ livingRanked pt.Serid (run history).pets :=
        List.drop_suffix _ _
      obtain ⟨older, holder⟩ := hsuffix.map fun r => r.1.serverId
      refine ⟨older, ?_⟩
      rw [← List.append_assoc, holder]
      rfl

end Limit

/-! ## A dead pet that counts -/

/-- Two at a time. -/
def wolf : PetRow := ⟨1, 2, 60, 1⟩

/-- Of two wolves the younger dies. -/
def bereft : List Event := [.createPet wolf 1 10, .createPet wolf 2 10, .dead 1]

/-- The next one ends the life of the other, although one of two is living. -/
theorem not_limitKept_bereft :
    ¬ LimitKept wolf 3 (run bereft) (run (bereft ++ [.createPet wolf 3 10, .tick 100])) := by
  intro h
  exact absurd h.count (by decide)

theorem limitKept_iff_bereft :
    LimitKept wolf 3 (run bereft) (run (bereft ++ [.createPet wolf 3 10, .tick 100])) ↔
      Room wolf 10 100 (run bereft).pets :=
  limitKept_iff bereft wolf 3 10 100 (by decide)

end GameServer.SummonLimit
