import GameServer.CooldownEnforced
import GameServer.Passtive

/-!
# Charges of a skill

A charge comes back where the cell of the first id of a series passes 0 in `update`. Other
operations set the cell to 0 as well, and then no charge comes back until the skill is cast again.
-/

namespace GameServer.Casting

open Cooldown Transition

namespace Cooldown

variable (w : World)

/-- The part of `Ientity.addSkill` for the charges; the levels are those behind it. -/
def addSkill (self : Cooldown) (skillTable : SkillTable) (skillId : ℤ) : Option Cooldown := do
  let skilldata ← w.skillRepository skillId
  if skilldata.n32ChargeCount > 0 then do
    let self ← self.addItem w skillId none
    self.addChargeCount w skillTable skillId false
  else return self

def resetAll (self : Cooldown) (except : ℤ) : Cooldown :=
  { self with
    coolDownTable := fun k => if k ≠ except then (self.coolDownTable k).map fun _ => 0
      else self.coolDownTable k }

end Cooldown

namespace Charges

inductive Label
  | cast (l : Casting.Label)
  | addSkill (id : ℤ) (skillTable : SkillTable)
  /-- `breakSpell` in `Ready`, before the costs or for want of them. -/
  | breakSpell
  | resetCd (id : ℤ) (time : ℚ)
  | resetAll (except : ℤ)

variable (w : World)

def step (s : State) : Label → Option State
  | .cast l => Casting.step w s l
  | .addSkill id skillTable =>
      (s.cooldown.addSkill w skillTable id).map fun cooldown => { s with cooldown }
  | .breakSpell =>
      match s.phase with
      | .ready id => some { s with cooldown := s.cooldown.resetCd id 0, phase := .none }
      | _ => none
  | .resetCd id time => some { s with cooldown := s.cooldown.resetCd id time }
  | .resetAll except => some { s with cooldown := s.cooldown.resetAll except }

/-- An entity without cooldowns. -/
def system : System State Label where
  init := ⟨noTables.toCooldown, .none, fun _ => none⟩
  step := step w

/-- Once the skill has a count, it is within its bounds, and below the upper one the cell of the
first id is positive. -/
def Recharging (id cap : ℤ) (c : Cooldown) : Prop :=
  ∀ count ∈ c.chargeCountTable id, 0 ≤ count ∧ count ≤ cap ∧ (count < cap → 0 < c.getCdTime id)

/-! ## The condition -/

/-- The rows that `addChargeCount` reads for an id, at this level, have the count of charges. -/
def Capped (cap : ℤ) (skillTable : SkillTable) (j : ℤ) : Prop :=
  ∀ r ∈ w.skillRepository j, ∀ row ∈ chargeRow w skillTable r (base j), row.n32ChargeCount = cap

/-- All charges are there. -/
def Full (id cap : ℤ) (c : Cooldown) : Prop := ∀ count ∈ c.chargeCountTable id, cap ≤ count

/-- What a tick must meet where a charge is missing: the skill of a player takes longer than the
tick to recharge, or lacks one charge and gets it in the tick, or the tick does not end the
countdown. -/
@[mk_iff]
structure Ticks (row : SkillData) (c : Cooldown) (dt : ℚ) (order : List ℤ)
    (skillTable : SkillTable) : Prop where
  capped : ∀ j ∈ order, base j = row.id → Capped w row.n32ChargeCount skillTable j
  goesOn : Full row.id row.n32ChargeCount c ∨ (w.isPlayer ∧ dt < row.n32CD) ∨
    (w.isPlayer ∧ c.getCdTime row.id ≤ dt ∧
      ∀ count ∈ c.chargeCountTable row.id, row.n32ChargeCount ≤ count + 1) ∨
    (dt < c.getCdTime row.id ∧ (w.isPlayer → ∀ j ∈ order, base j = row.id → j = row.id))

/-- The cast that passes `onReady` starts a countdown where it takes a charge. -/
def Readies (row : SkillData) (s : State) (time : ℚ) (j : ℤ) : Prop :=
  (j = row.id → base row.id = row.id ∧
    if row.n32SkillType = 0 then 0 < time ∨ s.cooldown.getChargeCount row.id = row.n32ChargeCount
    else 0 < row.n32CD) ∧
  (j ≠ row.id → base j = row.id → 0 < s.cooldown.getChargeCount j → 0 < row.n32CD)

instance (cap : ℤ) (skillTable : SkillTable) (j : ℤ) : Decidable (Capped w cap skillTable j) :=
  inferInstanceAs (Decidable (∀ _ ∈ _, ∀ _ ∈ _, _))

instance (id cap : ℤ) (c : Cooldown) : Decidable (Full id cap c) :=
  inferInstanceAs (Decidable (∀ _ ∈ _, _))

instance (row : SkillData) (c : Cooldown) (dt : ℚ) (order : List ℤ) (skillTable : SkillTable) :
    Decidable (Ticks w row c dt order skillTable) :=
  decidable_of_iff _ (ticks_iff w row c dt order skillTable).symm

instance (row : SkillData) (s : State) (time : ℚ) (j : ℤ) : Decidable (Readies row s time j) :=
  inferInstanceAs (Decidable (_ ∧ _))

/-- What the steps must meet for the skill of a row. -/
def OK (row : SkillData) (s : State) : Label → Prop
  | .cast (.tick dt order skillTable) => Ticks w row s.cooldown dt order skillTable
  | .cast (.ready time _) =>
      match s.phase with
      | .ready j => Readies row s time j
      | _ => True
  | .cast _ => True
  | .addSkill j skillTable =>
      (j = row.id → base row.id = row.id) ∧
        (base j = row.id → Capped w row.n32ChargeCount skillTable j ∧ (0 < row.n32CD ∨
          row.n32ChargeCount ≤ s.cooldown.getChargeCount row.id + 1))
  | .breakSpell =>
      match s.phase with
      | .ready j => base j = row.id → Full row.id row.n32ChargeCount s.cooldown
      | _ => True
  | .resetCd j time => base j = row.id → 0 < time ∨ Full row.id row.n32ChargeCount s.cooldown
  | .resetAll except => except = row.id ∨ Full row.id row.n32ChargeCount s.cooldown

instance (row : SkillData) (s : State) (l : Label) : Decidable (OK w row s l) := by
  unfold OK
  split
  · infer_instance
  · split <;> infer_instance
  · infer_instance
  · infer_instance
  · split <;> infer_instance
  · infer_instance
  · infer_instance

variable {w : World} {row : SkillData} {c c' c₁ : Cooldown} {s s' : State} {id cap j k : ℤ}
  {dt time cd : ℚ} {skillTable : SkillTable} {order : List ℤ}

/-! ## The operations on one skill -/

theorem base_base (j : ℤ) : base (base j) = base j := by
  simp only [base, Int.fdiv_eq_ediv_of_nonneg _ (by norm_num : (0 : ℤ) ≤ 10)]
  omega

theorem getCdTime_eq (hbase : base id = id) (c : Cooldown) :
    c.getCdTime id = (c.coolDownTable id).getD 0 := by
  rw [getCdTime, hbase]

theorem Recharging.of_same (h : Recharging id cap c) (hbase : base id = id)
    (hsame : Same c c' id) : Recharging id cap c' := by
  intro count hcount
  rw [hsame.charges] at hcount
  obtain ⟨hnonneg, hle, hpos⟩ := h count hcount
  refine ⟨hnonneg, hle, fun hlt => ?_⟩
  have hcell := hpos hlt
  rw [getCdTime_eq hbase] at hcell ⊢
  rwa [hsame.table]

theorem addItem_self {time? : Option ℚ} (hrow : w.skillRepository id = some row)
    (h : c.addItem w id time? = some c') :
    c'.coolDownTable id = some (time?.getD row.n32CD) ∧
      c'.chargeCountTable id = some (c.getChargeCount id) := by
  obtain ⟨skilldata, hskill, hstart, -⟩ := started_of_addItem h
  obtain rfl := Option.some.inj (hskill.symm.trans hrow)
  refine ⟨hstart.table, ?_⟩
  simp only [addItem, hrow, Option.bind_eq_bind, Option.bind_some, Option.pure_def,
    Option.some.injEq] at h
  subst h
  cases hcount : c.chargeCountTable id with
  | none => simp [put, getChargeCount, hcount]
  | some count => simp [put, getChargeCount, hcount]

/-- The count changes, and the countdown starts. -/
structure Counted (c c' : Cooldown) (id count : ℤ) (cd : ℚ) : Prop where
  grown : Grown c c'
  count : c'.chargeCountTable id = some count
  table : c'.coolDownTable id = some cd
  same : ∀ k, k ≠ id → Same c c' k

theorem counted_of_addItem {count : ℤ} (hrow : w.skillRepository id = some row)
    (h : addItem w { c with
      chargeCountTable := Function.update c.chargeCountTable id (some count) } id none = some c') :
    Counted c c' id count row.n32CD := by
  obtain ⟨htable, hcount⟩ := addItem_self hrow h
  obtain ⟨_, _, hstart, -⟩ := started_of_addItem h
  refine ⟨⟨hstart.grown.keys, hstart.grown.nodup⟩, ?_, htable, fun k hk => ?_⟩
  · rw [hcount]
    simp [getChargeCount]
  · have hsame := hstart.same k hk
    exact ⟨hsame.table, hsame.charges.trans (Function.update_of_ne hk _ _), hsame.added⟩

/-- A charge comes back, or there is no room for it. -/
theorem refill_cases (cap : ℤ) (hrow : w.skillRepository (base j) = some row)
    (h : c.addChargeCount w skillTable j false = some c') :
    (c' = c ∧ (Capped w cap skillTable j → Full (base j) cap c)) ∨
      ∃ count, c.chargeCountTable (base j) = some count ∧
        (Capped w cap skillTable j → count < cap) ∧
        Counted c c' (base j) (count + 1) row.n32CD := by
  simp only [addChargeCount, Option.bind_eq_bind, Option.bind_eq_some_iff, if_neg,
    Bool.false_eq_true, not_false_eq_true] at h
  obtain ⟨r, hr, r', hr', h⟩ := h
  cases hcount : c.chargeCountTable (base j) with
  | none =>
      simp only [hcount, Option.pure_def, Option.some.injEq] at h
      exact .inl ⟨h.symm, fun _ count hmem => by rw [hcount] at hmem; cases hmem⟩
  | some count =>
      simp only [hcount] at h
      split_ifs at h with hlt
      · exact .inr ⟨count, rfl, fun hcap => hcap r hr r' hr' ▸ hlt, counted_of_addItem hrow h⟩
      · rw [Option.pure_def, Option.some.injEq] at h
        refine .inl ⟨h.symm, fun hcap n hn => ?_⟩
        rw [hcount] at hn
        obtain rfl := Option.some.inj hn
        exact hcap r hr r' hr' ▸ not_lt.mp hlt

theorem spend_cases (hrow : w.skillRepository (base j) = some row)
    (h : c.addChargeCount w skillTable j true = some c') :
    (c' = c ∧ c.getChargeCount (base j) ≤ 0) ∨
      ∃ count, c.chargeCountTable (base j) = some count ∧ 0 < count ∧
        Counted c c' (base j) (count - 1) row.n32CD := by
  simp only [addChargeCount, Option.bind_eq_bind, Option.bind_eq_some_iff, if_true] at h
  obtain ⟨r, hr, r', hr', count, hcount, h⟩ := h
  split_ifs at h with hpos
  · exact .inr ⟨count, hcount, hpos, counted_of_addItem hrow h⟩
  · rw [Option.pure_def, Option.some.injEq] at h
    refine .inl ⟨h.symm, ?_⟩
    rw [getChargeCount, hcount]
    exact not_lt.mp hpos

theorem addItem_of_addChargeCount {isReduce : Bool}
    (h : c.addChargeCount w skillTable j isReduce = some c') :
    c' = c ∨ ∃ count, addItem w { c with
      chargeCountTable := Function.update c.chargeCountTable (base j) (some count) } (base j) none =
        some c' := by
  simp only [addChargeCount, Option.bind_eq_bind, Option.bind_eq_some_iff] at h
  obtain ⟨_, -, _, -, h⟩ := h
  cases isReduce with
  | true =>
      simp only [reduceIte, Option.bind_eq_some_iff] at h
      obtain ⟨count, -, h⟩ := h
      split_ifs at h
      · exact .inr ⟨_, h⟩
      · rw [Option.pure_def, Option.some.injEq] at h
        exact .inl h.symm
  | false =>
      rw [if_neg Bool.false_ne_true] at h
      split at h
      · rw [Option.pure_def, Option.some.injEq] at h
        exact .inl h.symm
      · split_ifs at h
        · exact .inr ⟨_, h⟩
        · rw [Option.pure_def, Option.some.injEq] at h
          exact .inl h.symm

/-- Charges that an operation takes or brings are those of the series. -/
theorem same_of_addChargeCount {isReduce : Bool} (hj : base j ≠ id)
    (h : c.addChargeCount w skillTable j isReduce = some c') : Same c c' id := by
  obtain rfl | ⟨count, h⟩ := addItem_of_addChargeCount h
  · exact ⟨rfl, rfl, rfl⟩
  · obtain ⟨skilldata, hrow, -⟩ := started_of_addItem h
    exact (counted_of_addItem hrow h).same id hj.symm

/-! ## Keys -/

/-- Every cell has its key, once. -/
structure Indexed (c : Cooldown) : Prop where
  nodup : c.keys.Nodup
  mem : ∀ k, (c.coolDownTable k).isSome → k ∈ c.keys

theorem Indexed.put (h : Indexed c) (k : ℤ) (time : ℚ) : Indexed (c.put k time) := by
  refine ⟨(grown_put c k time).nodup h.nodup, fun j hj => ?_⟩
  by_cases hjk : j = k
  · exact hjk ▸ mem_keys_put c k time
  · rw [(same_put time hjk).table] at hj
    exact (grown_put c k time).keys j (h.mem j hj)

theorem Indexed.addItem {time? : Option ℚ} (h : Indexed c)
    (hadd : c.addItem w k time? = some c') : Indexed c' := by
  simp only [Cooldown.addItem, Option.bind_eq_bind, Option.bind_eq_some_iff, Option.pure_def,
    Option.some.injEq] at hadd
  obtain ⟨skilldata, -, rfl⟩ := hadd
  have hput := h.put k (time?.getD skilldata.n32CD)
  exact ⟨hput.nodup, hput.mem⟩

theorem Indexed.addChargeCount {isReduce : Bool} (h : Indexed c)
    (hadd : c.addChargeCount w skillTable j isReduce = some c') : Indexed c' := by
  obtain rfl | ⟨count, hadd⟩ := addItem_of_addChargeCount hadd
  · exact h
  · have hcount : Indexed { c with
        chargeCountTable := Function.update c.chargeCountTable (base j) (some count) } :=
      ⟨h.nodup, h.mem⟩
    exact hcount.addItem hadd

/-- The turn of a key: the countdown is over and a charge may come back, or time passes, or
nothing does. -/
theorem updateKey_cases (h : c.updateKey w skillTable dt k = some c') :
    ∃ time f, c.coolDownTable k = some time ∧
      ((∃ c₀ c₁, w.isPlayer ∧ time - dt ≤ 0 ∧
          c.addChargeCount w skillTable k false = some c₀ ∧ c₀.elapse k dt = some c₁ ∧
          c' = { c₁ with added := f }) ∨
        (∃ c₁, ¬ (w.isPlayer ∧ time > 0 ∧ time - dt ≤ 0) ∧ c.elapse k dt = some c₁ ∧
          c' = { c₁ with added := f }) ∨
        (time = 0 ∧ c' = { c with added := f })) := by
  simp only [updateKey, Option.bind_eq_bind, Option.bind_eq_some_iff, Option.pure_def] at h
  obtain ⟨time, htime, h⟩ := h
  split_ifs at h with hzero hfill
  · simp only [Option.bind_eq_some_iff, Option.some.injEq] at h
    obtain ⟨c₀, h₀, c₁, h₁, rfl⟩ := h
    exact ⟨time, _, htime, .inl ⟨c₀, c₁, hfill.1, hfill.2.2, h₀, h₁, rfl⟩⟩
  · simp only [Option.bind_some, Option.bind_eq_some_iff, Option.some.injEq] at h
    obtain ⟨c₁, h₁, rfl⟩ := h
    exact ⟨time, _, htime, .inr (.inl ⟨c₁, hfill, h₁, rfl⟩)⟩
  · rw [Option.bind_some, Option.some.injEq] at h
    exact ⟨time, _, htime, .inr (.inr ⟨not_not.mp hzero, h.symm⟩)⟩

theorem Indexed.elapse (h : Indexed c) (helapse : c.elapse k dt = some c') : Indexed c' := by
  simp only [Cooldown.elapse, Option.bind_eq_bind, Option.bind_eq_some_iff, Option.pure_def,
    Option.some.injEq] at helapse
  obtain ⟨time, -, rfl⟩ := helapse
  exact h.put k _

theorem Indexed.updateKey (h : Indexed c) (hkey : c.updateKey w skillTable dt k = some c') :
    Indexed c' := by
  obtain ⟨_, f, -, ⟨c₀, c₁, -, -, h₀, h₁, rfl⟩ | ⟨c₁, -, h₁, rfl⟩ | ⟨-, rfl⟩⟩ :=
    updateKey_cases hkey
  · have hc₁ := (h.addChargeCount h₀).elapse h₁
    exact ⟨hc₁.nodup, hc₁.mem⟩
  · have hc₁ := h.elapse h₁
    exact ⟨hc₁.nodup, hc₁.mem⟩
  · exact ⟨h.nodup, h.mem⟩

/-! ## One key of a tick -/

/-- The time left on the cell of the skill behind the turn of a key. -/
def left (id k : ℤ) (dt time : ℚ) : ℚ := if k = id then max (time - dt) 0 else time

/-- What the turn of a key does to the skill: its time passes, or a charge comes back as well. -/
inductive Turned (w : World) (row : SkillData) (dt : ℚ) (k : ℤ) (c c' : Cooldown) : Prop
  | kept (hcount : c'.chargeCountTable row.id = c.chargeCountTable row.id)
      (htable : c'.coolDownTable row.id = (c.coolDownTable row.id).map (left row.id k dt))
      (hfull : k = row.id → w.isPlayer → 0 < c.getCdTime row.id → c.getCdTime row.id ≤ dt →
        Full row.id row.n32ChargeCount c)
  | refilled (count : ℤ) (hplayer : w.isPlayer) (hbase : base k = row.id)
      (hover : k = row.id → c.getCdTime row.id ≤ dt)
      (hcount : c.chargeCountTable row.id = some count) (hlt : count < row.n32ChargeCount)
      (hcount' : c'.chargeCountTable row.id = some (count + 1))
      (htable : c'.coolDownTable row.id = some (left row.id k dt row.n32CD))

theorem map_left_of_ne (hk : k ≠ id) (time? : Option ℚ) : time?.map (left id k dt) = time? := by
  have hid : left id k dt = fun time => time := by
    funext time
    rw [left, if_neg hk]
  rw [hid, Option.map_id']

theorem table_of_elapse (helapse : c.elapse k dt = some c') (id : ℤ) :
    c'.coolDownTable id = (c.coolDownTable id).map (left id k dt) ∧
      c'.chargeCountTable = c.chargeCountTable := by
  cases htime : c.coolDownTable k with
  | none => simp [elapse, htime] at helapse
  | some time =>
      rw [elapse_eq htime, Option.some.injEq] at helapse
      subst helapse
      refine ⟨?_, rfl⟩
      by_cases hk : k = id
      · subst hk
        rw [htime]
        simp [Cooldown.put, left]
      · rw [(same_put _ (Ne.symm hk)).table, map_left_of_ne hk]

theorem turned_of_updateKey (hbase : base row.id = row.id)
    (hrow : w.skillRepository row.id = some row) (hdt : 0 ≤ dt)
    (hcap : base k = row.id → Capped w row.n32ChargeCount skillTable k)
    (h : c.updateKey w skillTable dt k = some c') : Turned w row dt k c c' := by
  obtain ⟨time, f, htime, h⟩ := updateKey_cases h
  have hcell : k = row.id → c.getCdTime row.id = time := by
    rintro rfl
    rw [getCdTime_eq hbase, htime, Option.getD_some]
  obtain ⟨c₀, c₁, hplayer, hover, h₀, helapse, rfl⟩ | ⟨c₁, hidle, helapse, rfl⟩ | ⟨hzero, rfl⟩ := h
  · obtain ⟨htable, hcounts⟩ := table_of_elapse helapse row.id
    by_cases hk : base k = row.id
    · rw [← hk] at hrow
      obtain ⟨rfl, hfull⟩ | ⟨count, hcount, hlt, hcounted⟩ :=
        refill_cases row.n32ChargeCount hrow h₀
      · rw [hk] at hfull
        exact .kept (congrFun hcounts row.id) htable fun _ _ _ _ => hfull (hcap hk)
      · rw [hk] at hcount hcounted
        refine .refilled count hplayer hk (fun hid => ?_) hcount (hlt (hcap hk)) ?_ ?_
        · rw [hcell hid]
          exact sub_nonpos.mp hover
        · exact (congrFun hcounts row.id).trans hcounted.count
        · exact htable.trans (by rw [hcounted.table, Option.map_some])
    · have hsame := same_of_addChargeCount hk h₀
      refine .kept ((congrFun hcounts row.id).trans hsame.charges) ?_ ?_
      · exact htable.trans (by rw [hsame.table])
      · rintro rfl
        exact absurd hbase hk
  · obtain ⟨htable, hcounts⟩ := table_of_elapse helapse row.id
    refine .kept (congrFun hcounts row.id) htable fun hk hplayer hpos hle => ?_
    rw [hcell hk] at hpos hle
    exact absurd ⟨hplayer, hpos, sub_nonpos.mpr hle⟩ hidle
  · refine .kept rfl ?_ fun hk _ hpos _ => ?_
    · by_cases hk : k = row.id
      · change c.coolDownTable row.id = _
        rw [← hk, htime, Option.map_some, left, if_pos rfl, hzero, zero_sub,
          max_eq_right (neg_nonpos.mpr hdt)]
      · exact (map_left_of_ne hk _).symm
    · rw [hcell hk, hzero] at hpos
      exact absurd hpos (lt_irrefl 0)

/-! ## A tick -/

/-- What holds of the cooldown and the keys still to come holds behind the last one. -/
theorem update_induct {P : Cooldown → List ℤ → Prop} (hnodup : order.Nodup)
    (hstep : ∀ c c' k rest, k ∈ order → k ∉ rest → P c (k :: rest) →
      c.updateKey w skillTable dt k = some c' → P c' rest)
    (hP : P c order) (h : c.update w skillTable dt order = some c') : P c' [] := by
  have hrest : ∀ rest c, rest ⊆ order → rest.Nodup → P c rest →
      c.update w skillTable dt rest = some c' → P c' [] := by
    intro rest
    induction rest with
    | nil =>
        intro c _ _ hP h
        rw [update, List.foldlM_nil, Option.pure_def, Option.some.injEq] at h
        exact h ▸ hP
    | cons k rest ih =>
        intro c hsub hnodup hP h
        rw [update, List.foldlM_cons, Option.bind_eq_bind, Option.bind_eq_some_iff] at h
        obtain ⟨c₁, hkey, h⟩ := h
        obtain ⟨hk, hnodup⟩ := List.nodup_cons.mp hnodup
        exact ih c₁ (fun j hj => hsub (List.mem_cons_of_mem _ hj)) hnodup
          (hstep c c₁ k rest (hsub List.mem_cons_self) hk hP hkey) h
  exact hrest order c (List.Subset.refl _) hnodup hP h

theorem Indexed.update (h : Indexed c) (hnodup : order.Nodup)
    (hupdate : c.update w skillTable dt order = some c') : Indexed c' :=
  update_induct (P := fun c _ => Indexed c) hnodup (fun _ _ _ _ _ _ h hkey => h.updateKey hkey) h
    hupdate

theorem Turned.kept_charges (h : Turned w row dt k c c')
    (hfull : Full row.id row.n32ChargeCount c) :
    c'.chargeCountTable row.id = c.chargeCountTable row.id := by
  cases h with
  | kept hcount _ _ => exact hcount
  | refilled count _ _ _ hcount hlt _ _ => exact absurd hlt (not_lt.mpr (hfull count hcount))

theorem Recharging.of_full (h : Recharging id cap c) (hfull : Full id cap c)
    (hcount : c'.chargeCountTable id = c.chargeCountTable id) : Recharging id cap c' := by
  intro count hmem
  rw [hcount] at hmem
  obtain ⟨hnonneg, hle, -⟩ := h count hmem
  exact ⟨hnonneg, hle, fun hlt => absurd hlt (not_lt.mpr (hfull count hmem))⟩

theorem Full.of_eq (h : Full id cap c) (hcount : c'.chargeCountTable id = c.chargeCountTable id) :
    Full id cap c' := fun count hmem => h count (hcount ▸ hmem)

section Tick

variable (hbase : base row.id = row.id) (hrow : w.skillRepository row.id = some row) (hdt : 0 ≤ dt)
  (hnodup : order.Nodup)
  (hcap : ∀ j ∈ order, base j = row.id → Capped w row.n32ChargeCount skillTable j)
  (h : c.update w skillTable dt order = some c') (hc : Recharging row.id row.n32ChargeCount c)

include hbase hrow hdt hnodup hcap h hc

theorem recharging_update_full (hfull : Full row.id row.n32ChargeCount c) :
    Recharging row.id row.n32ChargeCount c' := by
  refine (update_induct (P := fun c _ => Recharging row.id row.n32ChargeCount c ∧
    Full row.id row.n32ChargeCount c) hnodup ?_ ⟨hc, hfull⟩ h).1
  intro c c' k rest hk _ hP hkey
  have hcount := (turned_of_updateKey hbase hrow hdt (hcap k hk) hkey).kept_charges hP.2
  exact ⟨hP.1.of_full hP.2 hcount, hP.2.of_eq hcount⟩

/-- The countdown of a player takes longer than the tick. -/
theorem recharging_update_lt (hplayer : w.isPlayer) (hlt : dt < row.n32CD) :
    Recharging row.id row.n32ChargeCount c' := by
  refine update_induct (P := fun c _ => Recharging row.id row.n32ChargeCount c) hnodup ?_ hc h
  intro c c' k rest hk _ hP hkey
  have hleft : 0 < left row.id k dt row.n32CD := by
    rw [left]
    split_ifs
    · exact lt_max_of_lt_left (sub_pos.mpr hlt)
    · exact hdt.trans_lt hlt
  cases turned_of_updateKey hbase hrow hdt (hcap k hk) hkey with
  | kept hcount htable hfull =>
      intro count hmem
      rw [hcount] at hmem
      obtain ⟨hnonneg, hle, hpos⟩ := hP count hmem
      refine ⟨hnonneg, hle, fun hcount => ?_⟩
      have hcell := hpos hcount
      rw [getCdTime_eq hbase, htable]
      by_cases hid : k = row.id
      · -- the countdown is not over, or all charges were there
        have hdt' : dt < c.getCdTime row.id := by
          by_contra hge
          exact absurd hcount (not_lt.mpr (hfull hid hplayer hcell (not_lt.mp hge) count hmem))
        rw [getCdTime_eq hbase] at hdt' hcell
        cases htime : c.coolDownTable row.id with
        | none =>
            rw [htime] at hcell
            exact absurd hcell (lt_irrefl 0)
        | some time =>
            rw [htime, Option.getD_some] at hdt'
            rw [Option.map_some, Option.getD_some, left, if_pos hid]
            exact lt_max_of_lt_left (sub_pos.mpr hdt')
      · rw [map_left_of_ne hid, ← getCdTime_eq hbase]
        exact hcell
  | refilled count _ _ _ hcount hroom hcount' htable =>
      intro n hmem
      rw [hcount', Option.mem_some_iff] at hmem
      obtain ⟨hnonneg, -, -⟩ := hP count hcount
      refine ⟨by omega, by omega, fun _ => ?_⟩
      rw [getCdTime_eq hbase, htable]
      exact hleft

theorem recharging_update_last (hindexed : Indexed c) (hperm : order.Perm c.keys)
    (hplayer : w.isPlayer) (hle : c.getCdTime row.id ≤ dt)
    (hlast : ∀ count ∈ c.chargeCountTable row.id, row.n32ChargeCount ≤ count + 1) :
    Recharging row.id row.n32ChargeCount c' := by
  by_cases hfull : Full row.id row.n32ChargeCount c
  · exact recharging_update_full hbase hrow hdt hnodup hcap h hc hfull
  have hmem : row.id ∈ order := by
    simp only [Full, not_forall, not_le] at hfull
    obtain ⟨count, hcount, hlt⟩ := hfull
    have hpos := (hc count hcount).2.2 hlt
    refine hperm.mem_iff.mpr (hindexed.mem _ ?_)
    rw [getCdTime_eq hbase] at hpos
    cases htime : c.coolDownTable row.id with
    | none =>
        rw [htime] at hpos
        exact absurd hpos (lt_irrefl 0)
    | some time => rfl
  have hP := update_induct (P := fun c rest => Recharging row.id row.n32ChargeCount c ∧
    (Full row.id row.n32ChargeCount c ∨ row.id ∈ rest ∧ c.getCdTime row.id ≤ dt ∧
      ∀ count ∈ c.chargeCountTable row.id, row.n32ChargeCount ≤ count + 1)) hnodup ?_
    ⟨hc, .inr ⟨hmem, hle, hlast⟩⟩ h
  · exact hP.1
  intro c c' k rest hk _ hP hkey
  obtain ⟨hc, hfull | ⟨hmem, hle, hlast⟩⟩ := hP
  · have hcount := (turned_of_updateKey hbase hrow hdt (hcap k hk) hkey).kept_charges hfull
    exact ⟨hc.of_full hfull hcount, .inl (hfull.of_eq hcount)⟩
  cases turned_of_updateKey hbase hrow hdt (hcap k hk) hkey with
  | kept hcount htable hfull =>
      by_cases hid : k = row.id
      · have hfull : Full row.id row.n32ChargeCount c := by
          intro count hmem
          by_contra hlt
          have hpos := (hc count hmem).2.2 (not_le.mp hlt)
          exact hlt (hfull hid hplayer hpos hle count hmem)
        exact ⟨hc.of_full hfull hcount, .inl (hfull.of_eq hcount)⟩
      · rw [map_left_of_ne hid] at htable
        have hcell : c'.getCdTime row.id = c.getCdTime row.id := by
          rw [getCdTime_eq hbase, getCdTime_eq hbase, htable]
        refine ⟨fun count hmem => ?_, .inr ⟨?_, hcell ▸ hle, hcount ▸ hlast⟩⟩
        · rw [hcell]
          exact hc count (hcount ▸ hmem)
        · exact (List.mem_cons.mp hmem).resolve_left (Ne.symm hid)
  | refilled count _ _ _ hcount hroom hcount' htable =>
      have hnonneg := (hc count hcount).1
      have hall := hlast count hcount
      refine ⟨fun n hmem => ?_, .inl fun n hmem => ?_⟩
      · rw [hcount', Option.mem_some_iff] at hmem
        exact ⟨by omega, by omega, fun _ => by omega⟩
      · rw [hcount', Option.mem_some_iff] at hmem
        omega

theorem recharging_update_gt (hgt : dt < c.getCdTime row.id)
    (hown : w.isPlayer → ∀ j ∈ order, base j = row.id → j = row.id) :
    Recharging row.id row.n32ChargeCount c' := by
  refine (update_induct (P := fun c rest => Recharging row.id row.n32ChargeCount c ∧
    (row.id ∈ rest → dt < c.getCdTime row.id)) hnodup ?_ ⟨hc, fun _ => hgt⟩ h).1
  intro c c' k rest hk hrest hP hkey
  obtain ⟨hc, hgt⟩ := hP
  by_cases hid : k = row.id
  · have hgt := hgt (hid ▸ List.mem_cons_self)
    have hnot : row.id ∈ rest → dt < c'.getCdTime row.id := fun hmem => absurd (hid ▸ hmem) hrest
    cases turned_of_updateKey hbase hrow hdt (hcap k hk) hkey with
    | kept hcount htable _ =>
        refine ⟨fun count hmem => ?_, hnot⟩
        obtain ⟨hnonneg, hle, -⟩ := hc count (hcount ▸ hmem)
        refine ⟨hnonneg, hle, fun _ => ?_⟩
        rw [getCdTime_eq hbase] at hgt ⊢
        rw [htable]
        cases htime : c.coolDownTable row.id with
        | none =>
            rw [htime] at hgt
            exact absurd hgt (not_lt.mpr hdt)
        | some time =>
            rw [htime, Option.getD_some] at hgt
            rw [Option.map_some, Option.getD_some, left, if_pos hid]
            exact lt_max_of_lt_left (sub_pos.mpr hgt)
    | refilled _ _ _ hover _ _ _ _ => exact absurd (hover hid) (not_le.mpr hgt)
  · cases turned_of_updateKey hbase hrow hdt (hcap k hk) hkey with
    | kept hcount htable _ =>
        rw [map_left_of_ne hid] at htable
        have hcell : c'.getCdTime row.id = c.getCdTime row.id := by
          rw [getCdTime_eq hbase, getCdTime_eq hbase, htable]
        refine ⟨fun count hmem => ?_, fun hmem => ?_⟩
        · rw [hcell]
          exact hc count (hcount ▸ hmem)
        · rw [hcell]
          exact hgt (List.mem_cons_of_mem _ hmem)
    | refilled _ hplayer hseries _ _ _ _ _ => exact absurd (hown hplayer k hk hseries) hid

end Tick

/-! ## Steps -/

theorem base_ne (hbase : base id ≠ id) (j : ℤ) : base j ≠ id := fun h => hbase (h ▸ base_base j)

theorem same_of_addItem {time? : Option ℚ} (hj : j ≠ id) (h : c.addItem w j time? = some c') :
    Same c c' id := by
  obtain ⟨_, -, hstart, -⟩ := started_of_addItem h
  exact hstart.same id hj.symm

theorem addSkill_cases (h : c.addSkill w skillTable j = some c') :
    c' = c ∨ ∃ c₁, c.addItem w j none = some c₁ ∧
      c₁.addChargeCount w skillTable j false = some c' := by
  simp only [addSkill, Option.bind_eq_bind, Option.bind_eq_some_iff] at h
  obtain ⟨skilldata, -, h⟩ := h
  split_ifs at h
  · exact .inr (Option.bind_eq_some_iff.mp h)
  · rw [Option.pure_def, Option.some.injEq] at h
    exact .inl h.symm

theorem onReady_cases {skilldata : SkillData}
    (h : c.onReady w skillTable skilldata time = some c') :
    (skilldata.n32SkillType = 0 ∧ c.addItem w skilldata.id (some time) = some c') ∨
      (skilldata.n32SkillType ≠ 0 ∧ 0 < c.getChargeCount skilldata.id ∧
        c.addChargeCount w skillTable skilldata.id true = some c') ∨
      (skilldata.n32SkillType ≠ 0 ∧ c.addItem w skilldata.id none = some c') := by
  unfold onReady at h
  split_ifs at h with htype hcount
  · exact .inl ⟨htype, h⟩
  · exact .inr (.inl ⟨htype, hcount, h⟩)
  · exact .inr (.inr ⟨htype, h⟩)

/-- A step of a cast changes the cooldown in a tick and where it passes `onReady`. -/
theorem cast_cases {l : Casting.Label} (h : Casting.step w s l = some s') :
    s'.cooldown = s.cooldown ∨
      (∃ dt order skillTable, l = .tick dt order skillTable ∧ 0 ≤ dt ∧
        order.Perm s.cooldown.keys ∧
        s.cooldown.update w skillTable dt order = some s'.cooldown) ∨
      ∃ time skillTable j skilldata, l = .ready time skillTable ∧ s.phase = .ready j ∧
        w.skillRepository j = some skilldata ∧
        s.cooldown.onReady w skillTable skilldata time = some s'.cooldown := by
  cases l with
  | tick dt order skillTable =>
      simp only [Casting.step, Option.ite_none_right_eq_some, Option.bind_eq_bind,
        Option.bind_eq_some_iff, Option.pure_def, Option.some.injEq] at h
      obtain ⟨⟨hdt, hperm⟩, c', hupdate, rfl⟩ := h
      exact .inr (.inl ⟨dt, order, skillTable, rfl, hdt, hperm, hupdate⟩)
  | cast id scene =>
      simp only [Casting.step, Option.ite_none_right_eq_some, Option.some.injEq] at h
      exact .inl (h.2 ▸ rfl)
  | ready time skillTable =>
      cases hphase : s.phase with
      | none => simp [Casting.step, hphase] at h
      | cast => simp [Casting.step, hphase] at h
      | ready j =>
          simp only [Casting.step, hphase, Option.bind_eq_bind, Option.bind_eq_some_iff,
            Option.pure_def, Option.some.injEq] at h
          obtain ⟨skilldata, hrow, c', hready, rfl⟩ := h
          exact .inr (.inr ⟨time, skillTable, j, skilldata, rfl, rfl, hrow, hready⟩)
  | finish =>
      simp only [Casting.step, Option.ite_none_right_eq_some, Option.some.injEq] at h
      exact .inl (h.2 ▸ rfl)

theorem Indexed.resetAll (h : Indexed c) (except : ℤ) : Indexed (c.resetAll except) := by
  refine ⟨h.nodup, fun k hk => h.mem k ?_⟩
  dsimp only [Cooldown.resetAll] at hk
  split_ifs at hk
  · rwa [Option.isSome_map] at hk
  · exact hk

theorem indexed_step {l : Label} (h : Indexed s.cooldown) (hstep : step w s l = some s') :
    Indexed s'.cooldown := by
  cases l with
  | cast l =>
      obtain heq | ⟨_, _, _, -, -, hperm, hupdate⟩ | ⟨_, _, _, _, -, -, -, hready⟩ :=
        cast_cases hstep
      · exact heq ▸ h
      · exact h.update (hperm.nodup_iff.mpr h.nodup) hupdate
      · obtain ⟨-, hadd⟩ | ⟨-, -, hadd⟩ | ⟨-, hadd⟩ := onReady_cases hready
        · exact h.addItem hadd
        · exact h.addChargeCount hadd
        · exact h.addItem hadd
  | addSkill j skillTable =>
      obtain ⟨c', hadd, rfl⟩ := Option.map_eq_some_iff.mp hstep
      obtain rfl | ⟨c₁, hitem, hcount⟩ := addSkill_cases hadd
      · exact h
      · exact (h.addItem hitem).addChargeCount hcount
  | breakSpell =>
      simp only [step] at hstep
      split at hstep
      · rw [Option.some.injEq] at hstep
        exact hstep ▸ h.put _ _
      · cases hstep
  | resetCd j time =>
      obtain rfl := Option.some.inj hstep
      exact h.put _ _
  | resetAll except =>
      obtain rfl := Option.some.inj hstep
      exact h.resetAll except

theorem charges_of_update (hbase : base id ≠ id) (hnodup : order.Nodup)
    (h : c.update w skillTable dt order = some c') :
    c'.chargeCountTable id = c.chargeCountTable id := by
  refine update_induct (P := fun c₁ _ => c₁.chargeCountTable id = c.chargeCountTable id) hnodup ?_
    rfl h
  intro c₁ c₂ k rest _ _ hcount hkey
  obtain ⟨_, f, -, ⟨c₃, c₄, -, -, h₀, h₁, rfl⟩ | ⟨c₃, -, h₁, rfl⟩ | ⟨-, rfl⟩⟩ :=
    updateKey_cases hkey
  · have hsame := same_of_addChargeCount (base_ne hbase k) h₀
    exact ((congrFun (table_of_elapse h₁ id).2 id).trans hsame.charges).trans hcount
  · exact (congrFun (table_of_elapse h₁ id).2 id).trans hcount
  · exact hcount

/-- An id that is no first one has charges of its own only where it is added or cast itself. -/
theorem charges_of_step {l : Label} (hbase : base row.id ≠ row.id) (hnodup : s.cooldown.keys.Nodup)
    (hok : OK w row s l) (hstep : step w s l = some s') :
    s'.cooldown.chargeCountTable row.id = s.cooldown.chargeCountTable row.id := by
  cases l with
  | cast l =>
      obtain heq | ⟨_, _, _, -, -, hperm, hupdate⟩ |
        ⟨time, skillTable, j, skilldata, rfl, hphase, hrow, hready⟩ := cast_cases hstep
      · rw [heq]
      · exact charges_of_update hbase (hperm.nodup_iff.mpr hnodup) hupdate
      · simp only [OK, hphase] at hok
        have hj : skilldata.id ≠ row.id := fun heq =>
          hbase (hok.1 ((w.row_id j skilldata hrow).symm.trans heq)).1
        obtain ⟨-, hadd⟩ | ⟨-, -, hadd⟩ | ⟨-, hadd⟩ := onReady_cases hready
        · exact (same_of_addItem hj hadd).charges
        · exact (same_of_addChargeCount (base_ne hbase _) hadd).charges
        · exact (same_of_addItem hj hadd).charges
  | addSkill j skillTable =>
      obtain ⟨c', hadd, rfl⟩ := Option.map_eq_some_iff.mp hstep
      obtain rfl | ⟨c₁, hitem, hcount⟩ := addSkill_cases hadd
      · rfl
      · have hj : j ≠ row.id := fun heq => hbase (hok.1 heq)
        exact ((same_of_addItem hj hitem).trans
          (same_of_addChargeCount (base_ne hbase j) hcount)).charges
  | breakSpell =>
      simp only [step] at hstep
      split at hstep
      · rw [Option.some.injEq] at hstep
        exact hstep ▸ rfl
      · cases hstep
  | resetCd j time => exact Option.some.inj hstep ▸ rfl
  | resetAll except => exact Option.some.inj hstep ▸ rfl

/-- The count of the skill is within its bounds. -/
def Bounded (id cap : ℤ) (c : Cooldown) : Prop :=
  ∀ count ∈ c.chargeCountTable id, 0 ≤ count ∧ count ≤ cap

theorem Recharging.bounded (h : Recharging id cap c) : Bounded id cap c := fun count hcount =>
  ⟨(h count hcount).1, (h count hcount).2.1⟩

theorem Bounded.getChargeCount (h : Bounded id cap c) (hcap : 0 ≤ cap) :
    0 ≤ c.getChargeCount id ∧ c.getChargeCount id ≤ cap := by
  rw [Cooldown.getChargeCount]
  cases hcount : c.chargeCountTable id with
  | none => exact ⟨le_refl 0, hcap⟩
  | some count => exact h count hcount

section Base

variable (hbase : base row.id = row.id)

include hbase

theorem Counted.recharging {count : ℤ} (h : Counted c c' row.id count row.n32CD)
    (hnonneg : 0 ≤ count) (hle : count ≤ row.n32ChargeCount)
    (hcd : 0 < row.n32CD ∨ row.n32ChargeCount ≤ count) :
    Recharging row.id row.n32ChargeCount c' := by
  intro n hn
  rw [h.count, Option.mem_some_iff] at hn
  subst hn
  refine ⟨hnonneg, hle, fun hlt => ?_⟩
  rw [getCdTime_eq hbase, h.table]
  exact hcd.resolve_right (not_le.mpr hlt)

variable (hrow : w.skillRepository row.id = some row)

include hrow

theorem recharging_of_refill (hc : Bounded row.id row.n32ChargeCount c) (hj : base j = row.id)
    (hcap : Capped w row.n32ChargeCount skillTable j)
    (hroom : 0 < row.n32CD ∨ ∀ count ∈ c.chargeCountTable row.id, row.n32ChargeCount ≤ count + 1)
    (h : c.addChargeCount w skillTable j false = some c') :
    Recharging row.id row.n32ChargeCount c' := by
  obtain ⟨rfl, hfull⟩ | ⟨count, hcount, hlt, hcounted⟩ :=
    refill_cases row.n32ChargeCount (hj.symm ▸ hrow) h
  · have hfull := hj ▸ hfull hcap
    exact fun count hcount => ⟨(hc count hcount).1, (hc count hcount).2, fun hlt =>
      absurd hlt (not_lt.mpr (hfull count hcount))⟩
  · rw [hj] at hcount hcounted
    have hnonneg := (hc count hcount).1
    have hlt := hlt hcap
    exact hcounted.recharging hbase (by omega) (by omega) (hroom.imp_right fun h => h count hcount)

theorem recharging_of_spend (hc : Recharging row.id row.n32ChargeCount c) (hj : base j = row.id)
    (hcd : 0 < row.n32CD) (h : c.addChargeCount w skillTable j true = some c') :
    Recharging row.id row.n32ChargeCount c' := by
  obtain ⟨rfl, -⟩ | ⟨count, hcount, hpos, hcounted⟩ := spend_cases (hj.symm ▸ hrow) h
  · exact hc
  · rw [hj] at hcount hcounted
    have hle := (hc count hcount).2.1
    exact hcounted.recharging hbase (by omega) (by omega) (.inl hcd)

theorem recharging_of_addItem {time? : Option ℚ} (hc : Bounded row.id row.n32ChargeCount c)
    (hcap : 0 < row.n32ChargeCount)
    (hcd : 0 < time?.getD row.n32CD ∨ c.getChargeCount row.id = row.n32ChargeCount)
    (h : c.addItem w row.id time? = some c') : Recharging row.id row.n32ChargeCount c' := by
  obtain ⟨htable, hcount⟩ := addItem_self hrow h
  obtain ⟨hnonneg, hle⟩ := hc.getChargeCount hcap.le
  intro n hn
  rw [hcount, Option.mem_some_iff] at hn
  subst hn
  refine ⟨hnonneg, hle, fun hlt => ?_⟩
  rw [getCdTime_eq hbase, htable]
  exact hcd.resolve_right hlt.ne

theorem recharging_addSkill (hc : Recharging row.id row.n32ChargeCount s.cooldown)
    (hcap : 0 < row.n32ChargeCount) (hok : OK w row s (.addSkill j skillTable))
    (h : s.cooldown.addSkill w skillTable j = some c') :
    Recharging row.id row.n32ChargeCount c' := by
  obtain rfl | ⟨c₁, hitem, hcount⟩ := addSkill_cases h
  · exact hc
  obtain ⟨-, hok⟩ := hok
  by_cases hj : base j = row.id
  · obtain ⟨hcapped, hroom⟩ := hok hj
    by_cases hid : j = row.id
    · subst hid
      obtain ⟨-, hitem⟩ := addItem_self hrow hitem
      refine recharging_of_refill hbase hrow (fun count hmem => ?_) hj hcapped
        (hroom.imp_right fun hroom count hmem => ?_) hcount
      · rw [hitem, Option.mem_some_iff] at hmem
        exact hmem ▸ hc.bounded.getChargeCount hcap.le
      · rw [hitem, Option.mem_some_iff] at hmem
        exact hmem ▸ hroom
    · have hsame := same_of_addItem hid hitem
      refine recharging_of_refill hbase hrow (hc.of_same hbase hsame).bounded hj hcapped ?_ hcount
      refine hroom.imp_right fun hroom count hmem => ?_
      rw [hsame.charges] at hmem
      rwa [getChargeCount, hmem] at hroom
  · have hid : j ≠ row.id := fun heq => hj (heq ▸ hbase)
    exact hc.of_same hbase ((same_of_addItem hid hitem).trans (same_of_addChargeCount hj hcount))

theorem recharging_onReady {skilldata : SkillData}
    (hc : Recharging row.id row.n32ChargeCount s.cooldown) (hcap : 0 < row.n32ChargeCount)
    (hskill : w.skillRepository j = some skilldata) (hok : Readies row s time j)
    (h : s.cooldown.onReady w skillTable skilldata time = some c') :
    Recharging row.id row.n32ChargeCount c' := by
  obtain ⟨hown, hother⟩ := hok
  have hcases := onReady_cases h
  rw [w.row_id j skilldata hskill] at hcases
  by_cases hj : j = row.id
  · obtain ⟨-, hcd⟩ := hown hj
    subst hj
    obtain rfl := Option.some.inj (hskill.symm.trans hrow)
    obtain ⟨htype, hadd⟩ | ⟨htype, -, hadd⟩ | ⟨htype, hadd⟩ := hcases
    · rw [if_pos htype] at hcd
      refine recharging_of_addItem hbase hrow hc.bounded hcap ?_ hadd
      exact hcd
    · rw [if_neg htype] at hcd
      exact recharging_of_spend hbase hrow hc hbase hcd hadd
    · rw [if_neg htype] at hcd
      refine recharging_of_addItem hbase hrow hc.bounded hcap ?_ hadd
      exact .inl hcd
  · obtain ⟨-, hadd⟩ | ⟨-, hpos, hadd⟩ | ⟨-, hadd⟩ := hcases
    · exact hc.of_same hbase (same_of_addItem hj hadd)
    · by_cases hseries : base j = row.id
      · exact recharging_of_spend hbase hrow hc hseries (hother hj hseries hpos) hadd
      · exact hc.of_same hbase (same_of_addChargeCount hseries hadd)
    · exact hc.of_same hbase (same_of_addItem hj hadd)

theorem recharging_update (hindexed : Indexed c) (hdt : 0 ≤ dt) (hperm : order.Perm c.keys)
    (hok : Ticks w row c dt order skillTable) (hc : Recharging row.id row.n32ChargeCount c)
    (h : c.update w skillTable dt order = some c') :
    Recharging row.id row.n32ChargeCount c' := by
  have hnodup := hperm.nodup_iff.mpr hindexed.nodup
  obtain hfull | ⟨hplayer, hlt⟩ | ⟨hplayer, hle, hlast⟩ | ⟨hgt, hown⟩ := hok.goesOn
  · exact recharging_update_full hbase hrow hdt hnodup hok.capped h hc hfull
  · exact recharging_update_lt hbase hrow hdt hnodup hok.capped h hc hplayer hlt
  · exact recharging_update_last hbase hrow hdt hnodup hok.capped h hc hindexed hperm hplayer hle
      hlast
  · exact recharging_update_gt hbase hrow hdt hnodup hok.capped h hc hgt hown

omit hrow in
theorem recharging_resetCd (hc : Recharging row.id row.n32ChargeCount c)
    (hok : base j = row.id → 0 < time ∨ Full row.id row.n32ChargeCount c) :
    Recharging row.id row.n32ChargeCount (c.resetCd j time) := by
  by_cases hj : base j = row.id
  · obtain hpos | hfull := hok hj
    · refine fun count hcount => ⟨(hc count hcount).1, (hc count hcount).2.1, fun _ => ?_⟩
      rw [getCdTime_eq hbase, resetCd, hj]
      simpa [put] using hpos
    · exact hc.of_full hfull rfl
  · exact hc.of_same hbase (same_put _ (Ne.symm hj))

omit hrow in
theorem recharging_resetAll {except : ℤ} (hc : Recharging row.id row.n32ChargeCount c)
    (hok : except = row.id ∨ Full row.id row.n32ChargeCount c) :
    Recharging row.id row.n32ChargeCount (c.resetAll except) := by
  obtain rfl | hfull := hok
  · refine hc.of_same hbase ⟨?_, rfl, rfl⟩
    simp [resetAll]
  · exact hc.of_full hfull rfl

theorem recharging_step {l : Label} (hindexed : Indexed s.cooldown) (hcap : 0 < row.n32ChargeCount)
    (hc : Recharging row.id row.n32ChargeCount s.cooldown) (hok : OK w row s l)
    (h : step w s l = some s') : Recharging row.id row.n32ChargeCount s'.cooldown := by
  cases l with
  | cast l =>
      obtain heq | ⟨dt, order, skillTable, rfl, hdt, hperm, hupdate⟩ |
        ⟨time, skillTable, j, skilldata, rfl, hphase, hskill, hready⟩ := cast_cases h
      · exact heq ▸ hc
      · exact recharging_update hbase hrow hindexed hdt hperm hok hc hupdate
      · simp only [OK, hphase] at hok
        exact recharging_onReady hbase hrow hc hcap hskill hok hready
  | addSkill j skillTable =>
      obtain ⟨c', hadd, rfl⟩ := Option.map_eq_some_iff.mp h
      exact recharging_addSkill hbase hrow hc hcap hok hadd
  | breakSpell =>
      simp only [step] at h
      cases hphase : s.phase with
      | none => simp [hphase] at h
      | cast => simp [hphase] at h
      | ready j =>
          simp only [OK, hphase] at hok
          simp only [hphase, Option.some.injEq] at h
          exact h ▸ recharging_resetCd hbase hc fun hj => .inr (hok hj)
  | resetCd j time => exact Option.some.inj h ▸ recharging_resetCd hbase hc hok
  | resetAll except => exact Option.some.inj h ▸ recharging_resetAll hbase hc hok

end Base

structure Invariant (row : SkillData) (c : Cooldown) : Prop where
  indexed : Indexed c
  recharging : base row.id = row.id → Recharging row.id row.n32ChargeCount c
  unused : base row.id ≠ row.id → c.chargeCountTable row.id = none

theorem invariant_step {l : Label} (hrow : w.skillRepository row.id = some row)
    (hcap : 0 < row.n32ChargeCount) (hinv : Invariant row s.cooldown) (hok : OK w row s l)
    (h : step w s l = some s') : Invariant row s'.cooldown where
  indexed := indexed_step hinv.indexed h
  recharging hbase :=
    recharging_step hbase hrow hinv.indexed hcap (hinv.recharging hbase) hok h
  unused hbase := (charges_of_step hbase hinv.indexed.nodup hok h).trans (hinv.unused hbase)

/-- Charge skills keep recharging in the runs that meet the condition. -/
theorem charges_recharge (w : World) (row : SkillData) (hrow : w.skillRepository row.id = some row)
    (hcap : 0 < row.n32ChargeCount) {s : State} (h : (system w).Runs (OK w row) s) :
    Recharging row.id row.n32ChargeCount s.cooldown := by
  have hinv : Invariant row s.cooldown := by
    refine h.invariant (P := fun s => Invariant row s.cooldown) ?_
      (fun _ _ _ hinv hok hstep => invariant_step hrow hcap hinv hok hstep)
    exact ⟨⟨.nil, nofun⟩, fun _ => nofun, fun _ => rfl⟩
  by_cases hbase : base row.id = row.id
  · exact hinv.recharging hbase
  · intro count hcount
    rw [hinv.unused hbase] at hcount
    cases hcount

/-- A skill of two charges that takes a second. -/
def volley : SkillData := ⟨10001001, 1, 1000, 2, 0, 0, 0, 0, 0, 0⟩

def archers : World where
  skillRepository id := if id = volley.id then some volley else none
  row_id id skilldata h := by
    split_ifs at h with hid
    rw [hid, ← Option.some.inj h]
  isPlayer := true

/-- The skill is added, takes its charge and gets one back in the second tick. -/
def volleyed : List Label :=
  [.addSkill volley.id fun _ => none, .cast (.cast volley.id ⟨none, 0, 0, false, 100, 100⟩),
    .cast (.ready 0 fun _ => none), .cast .finish,
    .cast (.tick 600 [volley.id] fun _ => none), .cast (.tick 600 [volley.id] fun _ => none)]

theorem charges_recharge_volley : ∃ s, (system archers).Runs (OK archers volley) s ∧
    s.cooldown.getChargeCount volley.id = 1 ∧ s.cooldown.getCdTime volley.id = 400 ∧
    Recharging volley.id volley.n32ChargeCount s.cooldown := by
  have hrun : (((system archers).guarded (OK archers volley)).run (system archers).init
      volleyed).map (fun s => (s.cooldown.getChargeCount volley.id,
        s.cooldown.getCdTime volley.id)) = some (1, 400) := by decide +kernel
  obtain ⟨s, hs, hread⟩ := Option.map_eq_some_iff.mp hrun
  rw [Prod.mk.injEq] at hread
  have hruns := System.Runs.of_guarded_run volleyed .init hs
  exact ⟨s, hruns, hread.1, hread.2, charges_recharge archers volley rfl (by decide) hruns⟩

/-- The cast is broken in `Ready`: the countdown for the second charge is gone. -/
theorem charges_lost : ∃ s, (system archers).Reachable s ∧
    s.cooldown.chargeCountTable volley.id = some 1 ∧ s.cooldown.getCdTime volley.id = 0 ∧
    ¬ Recharging volley.id volley.n32ChargeCount s.cooldown := by
  have hrun : ((system archers).run (system archers).init
      [.addSkill volley.id fun _ => none, .cast (.cast volley.id ⟨none, 0, 0, false, 100, 100⟩),
        .breakSpell]).map (fun s => (s.cooldown.chargeCountTable volley.id,
          s.cooldown.getCdTime volley.id)) = some (some 1, 0) := by decide +kernel
  obtain ⟨s, hs, hread⟩ := Option.map_eq_some_iff.mp hrun
  rw [Prod.mk.injEq] at hread
  obtain ⟨hcount, htime⟩ := hread
  refine ⟨s, System.reachable_of_run _ hs, hcount, htime, fun h => ?_⟩
  have hpos := (h 1 hcount).2.2 (by decide)
  rw [htime] at hpos
  exact absurd hpos (lt_irrefl 0)

end Charges

end GameServer.Casting
