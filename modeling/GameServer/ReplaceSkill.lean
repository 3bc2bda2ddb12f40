import GameServer.ChargeSkills
import Mathlib.Data.List.AList

/-!
# The replacement of a skill

What raises an error is `none`, with the hero as it is then. `passtiveSpells` has the ids of the
passive skills and whether they are dead; what the affects of a new one do is left out. The agent
that sent the request answers the calls. Where the charges raise an error the cooldown stays as it
was before them.
-/

namespace GameServer.ReplaceSkill

open Casting Casting.Cooldown

/-- The rows with the column that `addSkill` reads besides. -/
structure Rows extends World where
  n32Active : ℤ → ℤ

structure Hero where
  skillTable : AList fun _ : ℤ => ℤ
  bindSkills : List ℤ
  passtiveSpells : List (ℤ × Bool)
  cooldown : Cooldown

variable (w : Rows)

/-! ## The code -/

/-- The bound skills without an entry of a level from 0 on. -/
def randSkills (hero : Hero) : List ℤ :=
  hero.bindSkills.filter fun bSkillId =>
    match hero.skillTable.lookup bSkillId with
    | some v => v < 0
    | none => true

/-- `math.random(1, #randSkills)` stands for one of the places. -/
def pick (random : ℕ) (skills : List ℤ) : Option ℤ := skills[random % skills.length]?

/-- The error code, the new skill and its level. -/
def replaceSkill (random : ℕ) (id : ℤ) (hero : Hero) : Option (ℤ × ℤ × ℤ) × Hero :=
  match w.skillRepository id with
  | none => (none, hero)
  | some skilldata =>
      match hero.skillTable.lookup id with
      | none => (some (0, 0, 0), hero)
      | some level =>
          if skilldata.n32SkillType = 1 then
            let num := level - 1
            let taken := { hero with skillTable := hero.skillTable.erase id }
            match pick random (randSkills hero) with
            | none => (none, taken)
            | some nSkillId => (some (0, nSkillId, num), taken)
          else (some (0, 0, 0), hero)

/-- Of the passive skills with this id the last one is marked. -/
def removeSkill (skillId : ℤ) (hero : Hero) : Option Unit × Hero :=
  match w.skillRepository skillId with
  | none => (none, hero)
  | some _ =>
      if w.n32Active skillId = 1 then
        (some (), { hero with
          passtiveSpells := (hero.passtiveSpells.reverse.replaceF fun ps =>
            if ps.1 = skillId then some (ps.1, true) else none).reverse })
      else (some (), { hero with skillTable := hero.skillTable.erase skillId })

/-- `passtiveSpell.new`, which reads the row, and the insertion. -/
def insertPasstive (skillId : ℤ) (hero : Hero) : Option Unit × Hero :=
  match w.skillRepository skillId with
  | none => (none, hero)
  | some _ =>
      (some (), { hero with passtiveSpells := hero.passtiveSpells ++ [(skillId, false)] })

/-- The entry of the table after `extra` more. -/
def raiseLevel (skillId extra : ℤ) (hero : Hero) : Hero :=
  { hero with
    skillTable := hero.skillTable.insert skillId
      ((hero.skillTable.lookup skillId).getD 0 + extra) }

/-- The part of `addSkill` for the table and the passive skills. -/
def addEntry (skilldata : SkillData) (skillId extra : ℤ) (hero : Hero) : Option Unit × Hero :=
  if skilldata.n32SkillType = 2 then
    let level := (hero.skillTable.lookup skillId).getD 0 + extra
    let hero := raiseLevel skillId extra hero
    if w.n32Active skillId = 1 then
      let removed :=
        if level ≥ 2 then removeSkill w (skillId + level - 2) hero else (some (), hero)
      match removed with
      | (none, hero) => (none, hero)
      | (some _, hero) => insertPasstive w (skillId + level - 1) hero
    else (some (), hero)
  else if w.n32Active skillId = 1 then insertPasstive w skillId hero
  else (some (), raiseLevel skillId extra hero)

def addSkill (skillId extra : ℤ) (hero : Hero) : Option Unit × Hero :=
  match w.skillRepository skillId with
  | none => (none, hero)
  | some skilldata =>
      match addEntry w skilldata skillId extra hero with
      | (none, hero) => (none, hero)
      | (some _, hero) =>
          match hero.cooldown.addSkill w.toWorld (fun k => hero.skillTable.lookup k) skillId with
          | none => (none, hero)
          | some cooldown => (some (), { hero with cooldown })

/-- The answer, if one was sent, whether an error was raised, and the hero at the end. -/
structure Outcome where
  answer : Option (ℤ × ℤ)
  raised : Bool
  hero : Hero

/-- `CMD.replaceSkill` -/
def request (random : ℕ) (id : ℤ) (hero : Hero) : Outcome :=
  match replaceSkill w random id hero with
  | (none, hero) => ⟨none, true, hero⟩
  | (some (errorCode, skillId, num), hero) =>
      let added := addSkill w skillId num hero
      ⟨some (errorCode, skillId), added.1.isNone, added.2⟩

/-! ## What a request should do -/

def isRegular (id : ℤ) : Bool := (w.skillRepository id).any fun skilldata =>
  skilldata.n32SkillType = 1

/-- `#self:getRegularSkills()` -/
def regularCount (hero : Hero) : ℕ := hero.skillTable.keys.countP (isRegular w)

/-- The skill `id` was replaced by the bound skill `b`. -/
structure Replaced (before after : Hero) (id b : ℤ) : Prop where
  regular : isRegular w id = true
  owned : id ∈ before.skillTable
  gone : id ∉ after.skillTable
  bound : b ∈ before.bindSkills
  fresh : b ∉ before.skillTable
  there : b ∈ after.skillTable
  levels : ∀ k, k ≠ id → k ≠ b → after.skillTable.lookup k = before.skillTable.lookup k
  charges : ∀ k ∈ before.skillTable, isRegular w k = true → k ≠ id →
    after.cooldown.getChargeCount k = before.cooldown.getChargeCount k
  count : regularCount w after = regularCount w before

/-- No error is raised after a change of the table; and the request fails with an error code and
changes nothing, or a skill is replaced. -/
structure Fulfilled (id : ℤ) (before : Hero) (o : Outcome) : Prop where
  unchanged_of_raised : o.raised = true → o.hero.skillTable = before.skillTable
  outcome : (∃ errorCode skillId, o.answer = some (errorCode, skillId) ∧ errorCode ≠ 0 ∧
      o.hero.skillTable = before.skillTable) ∨ ∃ b, Replaced w before o.hero id b

/-- The cell of the charges of a new skill, after its own has been made. -/
def chargeCell (cooldown : Cooldown) (b : ℤ) : Option ℤ :=
  if base b = b then some (cooldown.getChargeCount b) else cooldown.chargeCountTable (base b)

/-- If the new skill gets a charge, the first id of its series has a row and is no other regular
skill of the hero. -/
def ChargeApart (hero : Hero) (id b : ℤ) (row : SkillData) : Prop :=
  0 < row.n32ChargeCount → ∀ count, chargeCell hero.cooldown b = some count →
    count < row.n32ChargeCount → (w.skillRepository (base b)).isSome = true ∧
      (base b ∈ hero.skillTable → isRegular w (base b) = true → base b = id)

/-- The skill is a regular one of the hero, there is a bound skill to draw, and the one that is
drawn has no entry at all and is a regular skill that is not passive. -/
def Replaceable (random : ℕ) (id : ℤ) (hero : Hero) : Prop :=
  isRegular w id = true ∧ id ∈ hero.skillTable ∧
    ∃ b row, pick random (randSkills hero) = some b ∧ b ∉ hero.skillTable ∧
      w.skillRepository b = some row ∧ row.n32SkillType = 1 ∧ w.n32Active b ≠ 1 ∧
      ChargeApart w hero id b row

/-! ## The charges -/

section Charges

variable {w : World} {c : Cooldown} {skillTable : SkillTable} {b : ℤ} {row : SkillData}

theorem addItem_eq (hrow : w.skillRepository b = some row) :
    ∃ c', c.addItem w b none = some c' ∧
      c'.chargeCountTable = Function.update c.chargeCountTable b (some (c.getChargeCount b)) := by
  unfold addItem
  rw [hrow]
  refine ⟨_, rfl, ?_⟩
  unfold getChargeCount
  cases hcell : c.chargeCountTable b with
  | none => simp [put, hcell]
  | some count =>
      have hself := Function.update_eq_self b c.chargeCountTable
      rw [hcell] at hself
      simp [put, hcell, hself]

theorem getChargeCount_update {table : Cooldown} {count : ℤ}
    (h : table.chargeCountTable = Function.update c.chargeCountTable b (some count)) (k : ℤ) :
    table.getChargeCount k = if k = b then count else c.getChargeCount k := by
  unfold getChargeCount
  rw [h, Function.update_apply]
  split_ifs
  · rfl
  · rfl

/-- The cell that `addChargeCount` finds after `addItem`. -/
theorem chargeCell_eq {c' : Cooldown}
    (h : c'.chargeCountTable = Function.update c.chargeCountTable b (some (c.getChargeCount b))) :
    c'.chargeCountTable (base b) = chargeCell c b := by
  rw [h, Function.update_apply, chargeCell]

theorem chargeRow_eq (htype : row.n32SkillType ≠ 2) (id : ℤ) :
    chargeRow w skillTable row id = some row := if_neg htype

/-- `addChargeCount` for a row that holds its charges itself. -/
theorem addChargeCount_eq (hrow : w.skillRepository b = some row) (htype : row.n32SkillType ≠ 2) :
    c.addChargeCount w skillTable b false =
      match c.chargeCountTable (base b) with
      | none => some c
      | some count =>
          if count < row.n32ChargeCount then
            addItem w { c with
              chargeCountTable := Function.update c.chargeCountTable (base b) (some (count + 1)) }
              (base b) none
          else some c := by
  unfold addChargeCount
  rw [hrow, Option.bind_eq_bind, Option.bind_some]
  dsimp only
  rw [chargeRow_eq htype, Option.bind_eq_bind, Option.bind_some]
  exact if_neg Bool.false_ne_true

/-- The new skill gets a charge. -/
def Gains (c : Cooldown) (b : ℤ) (row : SkillData) (count : ℤ) : Prop :=
  0 < row.n32ChargeCount ∧ chargeCell c b = some count ∧ count < row.n32ChargeCount

variable (skillTable) in
theorem addSkill_of_not_gains (hrow : w.skillRepository b = some row)
    (htype : row.n32SkillType ≠ 2) (h : ∀ count, ¬ Gains c b row count) :
    ∃ c', c.addSkill w skillTable b = some c' ∧ ∀ k, c'.getChargeCount k = c.getChargeCount k := by
  unfold Cooldown.addSkill
  rw [hrow, Option.bind_eq_bind, Option.bind_some]
  by_cases hcharges : row.n32ChargeCount > 0
  · obtain ⟨c₁, hitem, htable⟩ := addItem_eq (c := c) hrow
    have hcounts : ∀ k, c₁.getChargeCount k = c.getChargeCount k := by
      intro k
      rw [getChargeCount_update htable]
      split_ifs with hk
      · rw [hk]
      · rfl
    refine ⟨c₁, ?_, hcounts⟩
    rw [if_pos hcharges, hitem, Option.bind_eq_bind, Option.bind_some,
      addChargeCount_eq hrow htype, chargeCell_eq htable]
    cases hcell : chargeCell c b with
    | none => rfl
    | some count => exact if_neg fun hlt => h count ⟨hcharges, hcell, hlt⟩
  · exact ⟨c, if_neg hcharges, fun _ => rfl⟩

variable (skillTable) in
theorem addSkill_of_gains {count : ℤ} (hrow : w.skillRepository b = some row)
    (htype : row.n32SkillType ≠ 2) (h : Gains c b row count) :
    ∃ c₁ : Cooldown,
      (∀ k, c₁.getChargeCount k = if k = base b then count + 1 else c.getChargeCount k) ∧
      c.addSkill w skillTable b = c₁.addItem w (base b) none := by
  obtain ⟨hcharges, hcell, hlt⟩ := h
  obtain ⟨c₁, hitem, htable⟩ := addItem_eq (c := c) hrow
  refine ⟨{ c₁ with
    chargeCountTable := Function.update c₁.chargeCountTable (base b) (some (count + 1)) }, ?_, ?_⟩
  · intro k
    rw [getChargeCount_update (c := c₁) rfl, getChargeCount_update htable]
    split_ifs with hbase hk
    · rfl
    · rw [hk]
    · rfl
  · unfold Cooldown.addSkill
    rw [hrow, Option.bind_eq_bind, Option.bind_some, if_pos hcharges, hitem, Option.bind_eq_bind,
      Option.bind_some, addChargeCount_eq hrow htype, chargeCell_eq htable, hcell]
    exact if_pos hlt

end Charges

/-! ## The table -/

section Table

variable {w : Rows} {hero : Hero} {id b extra : ℤ} {skilldata row : SkillData}

theorem mem_of_lookup_eq {t t' : AList fun _ : ℤ => ℤ} {k : ℤ} (h : t'.lookup k = t.lookup k) :
    k ∈ t' ↔ k ∈ t := by
  rw [← AList.lookup_isSome, h, AList.lookup_isSome]

/-- A table in which one key stands for another has as many marked keys, but for these two. -/
theorem countP_replaced {t t' : AList fun _ : ℤ => ℤ} (p : ℤ → Bool) (hid : id ∈ t)
    (hgone : id ∉ t') (hfresh : b ∉ t) (hthere : b ∈ t')
    (hothers : ∀ k, k ≠ id → k ≠ b → t'.lookup k = t.lookup k) :
    t'.keys.countP p + (if p id = true then 1 else 0) =
      t.keys.countP p + if p b = true then 1 else 0 := by
  have hperm : t'.keys.Perm (b :: t.keys.erase id) := by
    have hb : b ∉ t.keys.erase id := fun hmem => hfresh (List.mem_of_mem_erase hmem)
    refine (List.perm_ext_iff_of_nodup t'.keys_nodup
      (List.nodup_cons.mpr ⟨hb, t.keys_nodup.erase id⟩)).mpr fun k => ?_
    rw [List.mem_cons, t.keys_nodup.mem_erase_iff]
    by_cases hkb : k = b
    · simp only [hkb, true_or, iff_true]
      exact hthere
    · by_cases hkid : k = id
      · simp only [hkid, ne_eq, not_true_eq_false, false_and, or_false]
        exact iff_of_false hgone fun h => hfresh (h ▸ hid)
      · simp only [hkb, false_or, ne_eq, hkid, not_false_eq_true, true_and]
        exact mem_of_lookup_eq (hothers k hkid hkb)
  rw [hperm.countP_eq, (List.perm_cons_erase (a := id) hid).countP_eq, List.countP_cons,
    List.countP_cons]
  omega

/-- An entry other than that of the skill stays or is lost. -/
def Kept (skillId : ℤ) (before after : Hero) : Prop :=
  ∀ k, k ≠ skillId → after.skillTable.lookup k = before.skillTable.lookup k ∨
    after.skillTable.lookup k = none

theorem removeSkill_kept (skillId oldSkillId : ℤ) (hero : Hero) :
    Kept skillId hero (removeSkill w oldSkillId hero).2 := by
  intro k _
  unfold removeSkill
  split
  · exact .inl rfl
  · split_ifs
    · exact .inl rfl
    · by_cases hk : k = oldSkillId
      · rw [hk]
        exact .inr (AList.lookup_erase _ _)
      · exact .inl (AList.lookup_erase_ne hk)

theorem insertPasstive_table (skillId : ℤ) (hero : Hero) :
    (insertPasstive w skillId hero).2.skillTable = hero.skillTable := by
  unfold insertPasstive
  split
  · rfl
  · rfl

theorem raiseLevel_kept (skillId extra : ℤ) (hero : Hero) :
    Kept skillId hero (raiseLevel skillId extra hero) :=
  fun _ hk => .inl (AList.lookup_insert_ne hk)

theorem Kept.trans {skillId : ℤ} {h₁ h₂ h₃ : Hero} (h : Kept skillId h₁ h₂)
    (h' : Kept skillId h₂ h₃) : Kept skillId h₁ h₃ := by
  intro k hk
  obtain heq | hnone := h' k hk
  · rw [heq]
    exact h k hk
  · exact .inr hnone

theorem addEntry_kept (skilldata : SkillData) (skillId extra : ℤ) (hero : Hero) :
    Kept skillId hero (addEntry w skilldata skillId extra hero).2 := by
  have hraise := raiseLevel_kept skillId extra hero
  have hpasstive : ∀ id hero', Kept skillId hero hero' →
      Kept skillId hero (insertPasstive w id hero').2 := by
    intro id hero' h k hk
    rw [insertPasstive_table]
    exact h k hk
  unfold addEntry
  split_ifs with htype hactive hactive
  · dsimp only
    split_ifs with hlevel
    · have hremove := hraise.trans (removeSkill_kept (w := w) skillId
        (skillId + ((hero.skillTable.lookup skillId).getD 0 + extra) - 2) _)
      split
      · rename_i h
        rw [h] at hremove
        exact hremove
      · rename_i h
        rw [h] at hremove
        exact hpasstive _ _ hremove
    · exact hpasstive _ _ hraise
  · exact hraise
  · exact hpasstive _ _ fun _ _ => .inl rfl
  · exact hraise

theorem addSkill_kept (skillId extra : ℤ) (hero : Hero) :
    Kept skillId hero (addSkill w skillId extra hero).2 := by
  unfold addSkill
  split
  · exact fun _ _ => .inl rfl
  · rename_i skilldata _
    have hentry := addEntry_kept (w := w) skilldata skillId extra hero
    split
    · rename_i h
      rw [h] at hentry
      exact hentry
    · rename_i h
      rw [h] at hentry
      split
      · exact hentry
      · exact hentry

/-! ## The request -/

/-- What is left of the hero when the skill is drawn. -/
def taken (id : ℤ) (hero : Hero) : Hero :=
  { hero with skillTable := hero.skillTable.erase id }

theorem isRegular_iff : isRegular w id = true ↔
    ∃ row, w.skillRepository id = some row ∧ row.n32SkillType = 1 := by
  unfold isRegular
  cases w.skillRepository id with
  | none => simp
  | some row => simp

theorem errorCode_eq {random : ℕ} {errorCode skillId num : ℤ}
    (h : (replaceSkill w random id hero).1 = some (errorCode, skillId, num)) : errorCode = 0 := by
  unfold replaceSkill at h
  split at h
  · cases h
  · split at h
    · cases h
      rfl
    · split_ifs at h
      · dsimp only at h
        split at h
        · cases h
        · cases h
          rfl
      · cases h
        rfl

theorem answer_eq {random : ℕ} {errorCode skillId : ℤ}
    (h : (request w random id hero).answer = some (errorCode, skillId)) : errorCode = 0 := by
  unfold request at h
  split at h
  · cases h
  · rename_i hreplace
    cases h
    exact errorCode_eq (congrArg Prod.fst hreplace)

theorem request_of_owned {random : ℕ} {level : ℤ} (hregular : isRegular w id = true)
    (howned : hero.skillTable.lookup id = some level) :
    request w random id hero =
      match pick random (randSkills hero) with
      | none => ⟨none, true, taken id hero⟩
      | some b =>
          let added := addSkill w b (level - 1) (taken id hero)
          ⟨some (0, b), added.1.isNone, added.2⟩ := by
  obtain ⟨row, hrow, htype⟩ := isRegular_iff.mp hregular
  unfold request replaceSkill
  rw [hrow, howned]
  dsimp only
  rw [if_pos htype]
  cases pick random (randSkills hero) with
  | none => rfl
  | some b => rfl

theorem addSkill_regular (hrow : w.skillRepository b = some row) (htype : row.n32SkillType = 1)
    (hactive : w.n32Active b ≠ 1) :
    addSkill w b extra hero =
      match hero.cooldown.addSkill w.toWorld
          (fun k => (raiseLevel b extra hero).skillTable.lookup k) b with
      | none => (none, raiseLevel b extra hero)
      | some cooldown => (some (), { raiseLevel b extra hero with cooldown }) := by
  have htwo : row.n32SkillType ≠ 2 := by omega
  unfold addSkill addEntry
  rw [hrow]
  dsimp only
  rw [if_neg htwo, if_neg hactive]
  rfl

theorem addSkill_passtive (hrow : w.skillRepository b = some row) (htype : row.n32SkillType ≠ 2)
    (hactive : w.n32Active b = 1) :
    (addSkill w b extra hero).2.skillTable = hero.skillTable := by
  unfold addSkill addEntry insertPasstive
  rw [hrow]
  dsimp only
  rw [if_neg htype, if_pos hactive]
  dsimp only
  split
  · rfl
  · rfl

theorem chargeCell_count {c : Cooldown} {count : ℤ} (h : chargeCell c b = some count) :
    c.getChargeCount (base b) = count := by
  unfold chargeCell at h
  split_ifs at h with hbase
  · rw [hbase]
    exact Option.some.inj h
  · rw [getChargeCount, h]
    rfl

/-- A hero with the new skill in place of the old one, and the charges of the others. -/
theorem replaced_of_raised {after : Hero} (hregular : isRegular w id = true)
    (howned : id ∈ hero.skillTable) (hbound : b ∈ hero.bindSkills) (hfresh : b ∉ hero.skillTable)
    (hregular' : isRegular w b = true)
    (htable : after.skillTable = (raiseLevel b extra (taken id hero)).skillTable)
    (hcharges : ∀ k ∈ hero.skillTable, isRegular w k = true → k ≠ id →
      after.cooldown.getChargeCount k = hero.cooldown.getChargeCount k) :
    Replaced w hero after id b := by
  have hidb : id ≠ b := fun h => hfresh (h ▸ howned)
  have hgone : id ∉ after.skillTable := by
    rw [htable, raiseLevel, AList.mem_insert, taken, AList.mem_erase]
    exact not_or.mpr ⟨hidb, fun h => h.1 rfl⟩
  have hthere : b ∈ after.skillTable := by
    rw [htable, raiseLevel, AList.mem_insert]
    exact .inl rfl
  have hothers : ∀ k, k ≠ id → k ≠ b →
      after.skillTable.lookup k = hero.skillTable.lookup k := by
    intro k hkid hkb
    rw [htable, raiseLevel, AList.lookup_insert_ne hkb, taken, AList.lookup_erase_ne hkid]
  have hcount := countP_replaced (isRegular w) howned hgone hfresh hthere hothers
  rw [hregular, hregular'] at hcount
  exact ⟨hregular, howned, hgone, hbound, hfresh, hthere, hothers, hcharges,
    Nat.add_right_cancel hcount⟩

/-- Nothing else than the drawn skill can be new in the table. -/
theorem eq_of_fresh {b' : ℤ} (hfresh : b' ∉ hero.skillTable)
    (hthere : b' ∈ (addSkill w b extra (taken id hero)).2.skillTable) : b' = b := by
  by_contra hne
  have hbefore : (taken id hero).skillTable.lookup b' = none := by
    rw [AList.lookup_eq_none, taken, AList.mem_erase]
    exact fun h => hfresh h.2
  have hlookup := AList.lookup_isSome.mpr hthere
  obtain hsame | hnone := addSkill_kept (w := w) b extra (taken id hero) b' hne
  · rw [hsame, hbefore] at hlookup
    exact Bool.false_ne_true hlookup
  · rw [hnone] at hlookup
    exact Bool.false_ne_true hlookup

/-- A skill that keeps the count of the regular ones is regular. -/
theorem regular_of_replaced {after : Hero} (h : Replaced w hero after id b) :
    isRegular w b = true := by
  have hcount := countP_replaced (isRegular w) h.owned h.gone h.fresh h.there h.levels
  by_contra hother
  have heq := h.count
  unfold regularCount at heq
  rw [if_pos h.regular, if_neg hother, heq] at hcount
  omega

/-- A request that draws a bound skill as it should replaces the old one. -/
theorem fulfilled_of_drawn {random : ℕ} (h : Replaceable w random id hero) :
    Fulfilled w id hero (request w random id hero) := by
  obtain ⟨hregular, howned, b, row, hpick, hfresh, hrow, htype, hactive, hcharge⟩ := h
  obtain ⟨level, hlevel⟩ := Option.isSome_iff_exists.mp (AList.lookup_isSome.mpr howned)
  have hbound : b ∈ hero.bindSkills := (List.mem_filter.mp (List.mem_of_getElem? hpick)).1
  have htwo : row.n32SkillType ≠ 2 := by omega
  have hregular' : isRegular w b = true := isRegular_iff.mpr ⟨row, hrow, htype⟩
  have hcooldown : (taken id hero).cooldown = hero.cooldown := rfl
  rw [request_of_owned hregular hlevel, hpick]
  dsimp only
  rw [addSkill_regular hrow htype hactive, hcooldown]
  by_cases hgains : ∃ count, Gains hero.cooldown b row count
  · obtain ⟨count, hgain⟩ := hgains
    obtain ⟨c₁, hcounts, hadd⟩ := addSkill_of_gains (w := w.toWorld)
      (fun k => (raiseLevel b (level - 1) (taken id hero)).skillTable.lookup k)
      hrow htwo hgain
    obtain ⟨hbase, hapart⟩ := hcharge hgain.1 count hgain.2.1 hgain.2.2
    obtain ⟨baseRow, hbaseRow⟩ := Option.isSome_iff_exists.mp hbase
    obtain ⟨c', hitem, htable⟩ := addItem_eq (c := c₁) hbaseRow
    rw [hadd, hitem]
    refine ⟨fun h => (Bool.false_ne_true h).elim, .inr ⟨b, replaced_of_raised hregular howned
      hbound hfresh hregular' rfl fun k hk hkregular hkid => ?_⟩⟩
    change c'.getChargeCount k = _
    have hkbase : k ≠ base b := fun h => hkid (h ▸ hapart (h ▸ hk) (h ▸ hkregular))
    rw [getChargeCount_update htable, if_neg hkbase, hcounts, if_neg hkbase]
  · obtain ⟨c', hadd, hcounts⟩ := addSkill_of_not_gains (w := w.toWorld)
      (fun k => (raiseLevel b (level - 1) (taken id hero)).skillTable.lookup k)
      hrow htwo (not_exists.mp hgains)
    rw [hadd]
    exact ⟨fun h => (Bool.false_ne_true h).elim, .inr ⟨b, replaced_of_raised hregular howned
      hbound hfresh hregular' rfl fun k _ _ _ => hcounts k⟩⟩

/-- A request that should not fail on the way draws such a skill. -/
theorem drawn_of_fulfilled {random : ℕ} (h : Fulfilled w id hero (request w random id hero)) :
    Replaceable w random id hero := by
  obtain ⟨errorCode, skillId, hanswer, herror, -⟩ | ⟨b', hreplaced⟩ := h.outcome
  · exact absurd (answer_eq hanswer) herror
  have howned := hreplaced.owned
  obtain ⟨level, hlevel⟩ := Option.isSome_iff_exists.mp (AList.lookup_isSome.mpr howned)
  have hnotRaised : ¬ (request w random id hero).raised = true := by
    intro hraised
    have hgone := hreplaced.gone
    rw [h.unchanged_of_raised hraised] at hgone
    exact hgone howned
  refine ⟨hreplaced.regular, howned, ?_⟩
  rw [request_of_owned hreplaced.regular hlevel] at hreplaced hnotRaised
  cases hpick : pick random (randSkills hero) with
  | none =>
      rw [hpick] at hnotRaised
      exact absurd rfl hnotRaised
  | some b =>
      rw [hpick] at hreplaced hnotRaised
      dsimp only at hreplaced hnotRaised
      obtain rfl := eq_of_fresh hreplaced.fresh hreplaced.there
      have hregular := regular_of_replaced hreplaced
      obtain ⟨row, hrow, htype⟩ := isRegular_iff.mp hregular
      have htwo : row.n32SkillType ≠ 2 := by omega
      have hactive : w.n32Active b' ≠ 1 := by
        intro hactive
        have hthere := hreplaced.there
        rw [addSkill_passtive hrow htwo hactive, taken, AList.mem_erase] at hthere
        exact hreplaced.fresh hthere.2
      refine ⟨b', row, rfl, hreplaced.fresh, hrow, htype, hactive, fun hpos count hcell hlt => ?_⟩
      obtain ⟨c₁, hcounts, hadd⟩ := addSkill_of_gains (w := w.toWorld)
        (fun k => (raiseLevel b' (level - 1) (taken id hero)).skillTable.lookup k)
        hrow htwo ⟨hpos, hcell, hlt⟩
      have hcooldown : (taken id hero).cooldown = hero.cooldown := rfl
      rw [addSkill_regular hrow htype hactive, hcooldown, hadd] at hreplaced hnotRaised
      cases hbase : w.skillRepository (base b') with
      | none =>
          have hitem : c₁.addItem w.toWorld (base b') none = none := by
            rw [addItem, hbase]
            rfl
          rw [hitem] at hnotRaised
          exact absurd rfl hnotRaised
      | some baseRow =>
          obtain ⟨c', hitem, htable⟩ := addItem_eq (c := c₁) hbase
          rw [hitem] at hreplaced
          refine ⟨rfl, fun hmem hbaseRegular => ?_⟩
          by_contra hne
          have hcharges := hreplaced.charges (base b') hmem hbaseRegular hne
          change c'.getChargeCount (base b') = _ at hcharges
          rw [getChargeCount_update htable, if_pos rfl, hcounts, if_pos rfl,
            chargeCell_count hcell] at hcharges
          omega

/-- A request does what it should if and only if it draws a bound skill that is regular, not
passive and not in the table. -/
theorem fulfilled_iff (w : Rows) (random : ℕ) (id : ℤ) (hero : Hero) :
    Fulfilled w id hero (request w random id hero) ↔ Replaceable w random id hero :=
  ⟨drawn_of_fulfilled, fulfilled_of_drawn⟩

end Table

/-! ## Nothing to draw -/

/-- Two skills, the second of another series. -/
def rows : Rows where
  skillRepository id :=
    if id = 11 ∨ id = 21 then some ⟨id, 1, 1000, 0, 0, 0, 0, 0, 0, 0⟩ else none
  row_id id skilldata h := by
    split_ifs at h
    cases h
    rfl
  isPlayer := true
  n32Active _ := 0

/-- The hero has the first skill twice, and the given skills are bound. -/
def veteran (bindSkills : List ℤ) : Hero where
  skillTable := AList.insert 11 2 ∅
  bindSkills := bindSkills
  passtiveSpells := []
  cooldown := ⟨fun _ => none, [], fun _ => none, fun _ => none⟩

/-- The only bound skill is taken away, and the draw raises an error. -/
theorem not_fulfilled_veteran :
    ¬ Fulfilled rows 11 (veteran [11]) (request rows 0 11 (veteran [11])) := by
  intro h
  have htable := congrArg (AList.lookup 11) (h.unchanged_of_raised rfl)
  exact absurd htable (by decide)

example : pick 0 (randSkills (veteran [11, 21])) = some 21 := by decide

end GameServer.ReplaceSkill
