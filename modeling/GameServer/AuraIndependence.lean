import GameServer.Auras

/-!
# Auras of several sources

As long as nobody leaves an aura while another source of the same skill reaches it, and nothing but
the skills themselves touches the affects of auras, everybody holds the affects of exactly the
sources in reach. Whoever leaves one of two such auras loses the affects of both.
-/

namespace GameServer.Passtives

open Affects Casting Transition Entries

variable {skills : SkillRepository}

/-! ## Tables -/

theorem row_of_isAura {id : ℤ} (h : skills.isAura id = true) :
    ∃ skilldata, skills.rows id = some skilldata ∧ skilldata.isAura = true := by
  unfold SkillRepository.isAura at h
  cases hrow : skills.rows id with
  | none => simp [hrow] at h
  | some skilldata => exact ⟨skilldata, rfl, by simpa [hrow] using h⟩

theorem isAura_of_row {id : ℤ} {skilldata : SkillData} (hrow : skills.rows id = some skilldata)
    (haura : skilldata.isAura = true) : skills.isAura id = true := by
  simp [SkillRepository.isAura, hrow, haura]

theorem ne_zero_of_isAura {id : ℤ} (h : skills.isAura id = true) : id ≠ 0 := by
  rintro rfl
  obtain ⟨skilldata, hrow, -⟩ := row_of_isAura h
  rw [skills.row_zero] at hrow
  cases hrow

/-- The affect came from an aura, by standing in its reach. -/
def Entry.ofAura (skills : SkillRepository) (aff : Entry) : Prop :=
  aff.aimed = true ∧ skills.isAura aff.origin = true

/-- Affects have the id of their skill or none, and those of auras have it. -/
def Marked (skills : SkillRepository) (l : Table) : Prop :=
  ∀ aff ∈ l, (aff.affect.skillId = aff.origin ∨ aff.affect.skillId = 0) ∧
    (aff.ofAura skills → aff.affect.skillId = aff.origin)

/-- Somebody in reach of the skill was given an affect of this kind by the source. -/
def Has (l : Table) (source : ℕ) (id : ℤ) (kind : Kind) : Prop :=
  ∃ aff ∈ l, aff.affect.source = some source ∧ aff.origin = id ∧ aff.aimed = true ∧
    aff.affect.data.kind = kind

/-- An affect that the data makes keeps the id of its skill. -/
def keepsId (d : Data) : Bool := d.kind.cls.all Affects.Class.passesSkillId

/-- What comes of giving a table affects of one skill and source. What a source gives itself for
having learned a skill may stand in the place of what it gave by the skill before. -/
structure Given (skills : SkillRepository) (source : ℕ) (id : ℤ) (aimed : Bool) (l l' : Table) :
    Prop where
  marked : Marked skills l → Marked skills l'
  new : ∀ aff ∈ l', aff ∈ l ∨ aff.affect.source = some source ∧ aff.origin = id ∧ aff.aimed = aimed
  has : Marked skills l → ∀ source' id' kind, skills.isAura id' = true →
    (aimed = false → source' = source → id' ≠ id) → Has l source' id' kind → Has l' source' id' kind

variable {aimed : Bool}

theorem Given.refl (source : ℕ) (id : ℤ) (l : Table) : Given skills source id aimed l l :=
  ⟨fun h => h, fun _ h => .inl h, fun _ _ _ _ _ _ h => h⟩

theorem Given.trans {source : ℕ} {id : ℤ} {l l' l'' : Table} (h : Given skills source id aimed l l')
    (h' : Given skills source id aimed l' l'') : Given skills source id aimed l l'' where
  marked hm := h'.marked (h.marked hm)
  new aff haff := (h'.new aff haff).elim (h.new aff) .inr
  has hm source' id' kind haura hne hhas :=
    h'.has (h.marked hm) source' id' kind haura hne (h.has hm source' id' kind haura hne hhas)

theorem new_fields {owner : ℕ} {source : Option ℕ} {d : Data} {c : Affects.Class} {skillId : ℤ}
    {b : Birth}
    {aff : Affect} (h : Affect.new owner source d c skillId b = some aff) (hs : source ≠ none) :
    aff.data = d ∧ aff.source = source ∧ aff.skillId = if c.passesSkillId then skillId else 0 := by
  unfold Affect.new at h
  split at h
  · cases h
    exact ⟨rfl, if_neg fun hn => hs hn.2, rfl⟩
  · cases h

theorem addAffect_given {owner source : ℕ} {l l' : Table} {id : ℤ} {birth : Data → Birth} {d : Data}
    (hkeeps : aimed = true → skills.isAura id = true → keepsId d = true)
    (h : addAffect owner l source id aimed birth d = some l') :
    Given skills source id aimed l l' ∧
      (aimed = true → d.kind.cls ≠ none → Has l' source id d.kind) := by
  unfold addAffect at h
  cases hc : d.kind.cls with
  | none =>
      simp only [hc] at h
      split_ifs at h
      cases h
      exact ⟨.refl _ _ _, fun _ hclass => absurd rfl hclass⟩
  | some c =>
      simp only [hc] at h
      obtain ⟨aff, hnew, rfl⟩ := Option.map_eq_some_iff.mp h
      obtain ⟨hdata, hsource, hid⟩ := new_fields hnew (Option.some_ne_none _)
      have hmark : (aff.skillId = id ∨ aff.skillId = 0) ∧
          (aimed = true ∧ skills.isAura id = true → aff.skillId = id) := by
        rw [hid]
        refine ⟨by split_ifs <;> simp, fun haura => if_pos ?_⟩
        simpa [keepsId, hc] using hkeeps haura.1 haura.2
      have hself : (⟨aff, id, aimed⟩ : Entry) ∈ replaceAdd l ⟨aff, id, aimed⟩ :=
        List.mem_append_right _ (List.mem_singleton_self _)
      refine ⟨⟨fun hm old hold => ?_, fun old hold => ?_,
        fun hm source' id' kind haura hne hhas => ?_⟩,
        fun haimed _ => ⟨_, hself, hsource, rfl, haimed, by rw [hdata]⟩⟩
      · rcases List.mem_append.mp hold with hold | hold
        · exact hm old (List.mem_of_mem_filter hold)
        · rw [List.mem_singleton.mp hold]
          exact hmark
      · rcases List.mem_append.mp hold with hold | hold
        · exact .inl (List.mem_of_mem_filter hold)
        · rw [List.mem_singleton.mp hold]
          exact .inr ⟨hsource, rfl, rfl⟩
      · obtain ⟨old, hold, hs, horigin, holdAimed, hkind⟩ := hhas
        by_cases hrep : old.replacedBy ⟨aff, id, aimed⟩ = true
        · -- what is replaced has the id of the new affect, which is not 0
          obtain ⟨hk, hsrc, hskill, -⟩ := of_decide_eq_true hrep
          have hold' : old.affect.skillId = id' := by
            rw [(hm old hold).2 ⟨holdAimed, by rwa [horigin]⟩, horigin]
          have hnonzero : aff.skillId ≠ 0 := by
            rw [← hskill, hold']
            exact ne_zero_of_isAura haura
          have hid' : id = id' := by
            rw [← hold', hskill, hmark.1.resolve_right hnonzero]
          have hsource' : source' = source :=
            Option.some.inj (hs.symm.trans (hsrc.trans hsource))
          have haimed : aimed = true := by
            cases aimed with
            | true => rfl
            | false => exact absurd hid'.symm (hne rfl hsource')
          exact ⟨_, hself, hsrc.symm.trans hs, hid', haimed, hk.symm.trans hkind⟩
        · exact ⟨old, List.mem_append_left _ (List.mem_filter.mpr ⟨hold, by simpa using hrep⟩), hs,
            horigin, holdAimed, hkind⟩

theorem buildAffects_given {owner source : ℕ} {l l' : Table} {id : ℤ} {birth : Data → Birth}
    {datas : List Data}
    (hkeeps : aimed = true → skills.isAura id = true → ∀ d ∈ datas, keepsId d = true)
    (h : buildAffects owner l source datas id aimed birth = some l') :
    Given skills source id aimed l l' ∧ (Marked skills l → skills.isAura id = true → aimed = true →
      ∀ d ∈ datas, d.kind.cls ≠ none → Has l' source id d.kind) := by
  induction datas generalizing l with
  | nil =>
      cases h
      exact ⟨.refl _ _ _, by simp⟩
  | cons d datas ih =>
      obtain ⟨l₁, hd, hrest⟩ := Option.bind_eq_some_iff.mp h
      obtain ⟨hgiven, hhas⟩ :=
        addAffect_given (fun haimed haura => hkeeps haimed haura d List.mem_cons_self) hd
      obtain ⟨hgiven', hhas'⟩ :=
        ih (fun haimed haura d hd => hkeeps haimed haura d (List.mem_cons_of_mem _ hd)) hrest
      refine ⟨hgiven.trans hgiven', fun hm haura haimed d' hd' hclass => ?_⟩
      rcases List.mem_cons.mp hd' with rfl | hd'
      · refine hgiven'.has (hgiven.marked hm) source id _ haura (fun hno => ?_) (hhas haimed hclass)
        rw [haimed] at hno
        cases hno
      · exact hhas' (hgiven.marked hm) haura haimed d' hd' hclass

/-- Affects of an aura are found by its id. -/
theorem Marked.skillId {l : Table} (h : Marked skills l) {id : ℤ} (haura : skills.isAura id = true)
    {aff : Entry} (haff : aff ∈ l) (horigin : aff.origin = id) (haimed : aff.aimed = true) :
    aff.affect.skillId = id := by
  subst horigin
  exact (h aff haff).2 ⟨haimed, haura⟩

theorem Has.kept {l l' : Table} {source : ℕ} {id : ℤ} {kind : Kind} (h : Has l source id kind)
    (hm : Marked skills l) (haura : skills.isAura id = true)
    (hkept : ∀ aff ∈ l, aff.affect.skillId = id → aff ∈ l') : Has l' source id kind := by
  obtain ⟨aff, haff, hs, horigin, haimed, hkind⟩ := h
  exact ⟨aff, hkept aff haff (hm.skillId haura haff horigin haimed), hs, horigin, haimed, hkind⟩

theorem mem_removeBySkillId {l : Table} {id : ℤ} {aff : Entry} :
    aff ∈ removeBySkillId l id ↔ aff ∈ l ∧ aff.affect.skillId ≠ id := by
  simp [removeBySkillId]

/-! ## What `trgggerAffect` does -/

namespace World

/-- Nothing but the tables changes. -/
structure SameRoom (w w' : World) : Prop where
  passtiveSpells : w'.passtiveSpells = w.passtiveSpells
  cooldown : w'.cooldown = w.cooldown
  alive : w'.alive = w.alive
  invincible : w'.invincible = w.invincible
  outSkill : w'.outSkill = w.outSkill

theorem SameRoom.refl (w : World) : SameRoom w w := ⟨rfl, rfl, rfl, rfl, rfl⟩

theorem SameRoom.trans {w w' w'' : World} (h : SameRoom w w') (h' : SameRoom w' w'') :
    SameRoom w w'' :=
  ⟨h'.passtiveSpells.trans h.passtiveSpells, h'.cooldown.trans h.cooldown, h'.alive.trans h.alive,
    h'.invincible.trans h.invincible, h'.outSkill.trans h.outSkill⟩

/-- What a skill has given its targets. -/
structure Gave (skills : SkillRepository) (source : ℕ) (datas : List Data) (targets : List ℕ)
    (skilldata : SkillData) (aimed : Bool) (luck : Luck) (w w' : World) : Prop where
  same : SameRoom w w'
  given : ∀ t, Given skills source skilldata.id aimed (w.affects t) (w'.affects t)
  other : ∀ t, t ∉ targets → w'.affects t = w.affects t
  has : (∀ t, Marked skills (w.affects t)) → skills.isAura skilldata.id = true → aimed = true →
    ∀ t ∈ targets, (skilldata.n32SkillType = 0 → luck.hit = true) →
      w.skips source t skilldata luck = false → ∀ d ∈ datas, d.kind.cls ≠ none →
        Has (w'.affects t) source skilldata.id d.kind

theorem Gave.cons {source t : ℕ} {datas : List Data} {targets : List ℕ} {skilldata : SkillData}
    {luck : Luck} {w w₁ w' : World} (h : Gave skills source datas [t] skilldata aimed luck w w₁)
    (h' : Gave skills source datas targets skilldata aimed luck w₁ w') :
    Gave skills source datas (t :: targets) skilldata aimed luck w w' where
  same := h.same.trans h'.same
  given t := (h.given t).trans (h'.given t)
  other t' ht' := by
    rw [h'.other t' fun hmem => ht' (List.mem_cons_of_mem _ hmem)]
    exact h.other t' fun hmem => ht' (List.mem_cons.mpr (.inl (List.mem_singleton.mp hmem)))
  has hm haura haimed t' ht' hhit hskip d hd hclass := by
    have hm' : ∀ t, Marked skills (w₁.affects t) := fun t => (h.given t).marked (hm t)
    rcases List.mem_cons.mp ht' with rfl | ht'
    · have hfirst := h.has hm haura haimed t' (List.mem_singleton_self _) hhit hskip d hd hclass
      exact (h'.given t').has (hm' t') source skilldata.id d.kind haura (by simp [haimed]) hfirst
    · refine h'.has hm' haura haimed t' ht' hhit ?_ d hd hclass
      unfold skips at hskip ⊢
      rwa [h.same.invincible, h.same.outSkill]

theorem trgggerAffect_gave {w w' : World} {source : ℕ} {datas : List Data} {targets : List ℕ}
    {skilldata : SkillData} {luck : Luck} {birth : Data → Birth}
    (hkeeps : aimed = true → skills.isAura skilldata.id = true → ∀ d ∈ datas, keepsId d = true)
    (h : w.trgggerAffect source datas targets skilldata aimed luck birth = some w') :
    Gave skills source datas targets skilldata aimed luck w w' := by
  unfold trgggerAffect at h
  split_ifs at h with hmiss
  · cases h
    refine ⟨.refl _, fun t => .refl _ _ _, fun _ _ => rfl, fun _ _ _ t _ hhit => ?_⟩
    rw [hhit hmiss.1] at hmiss
    cases hmiss.2
  induction targets generalizing w with
  | nil =>
      cases h
      exact ⟨.refl _, fun t => .refl _ _ _, fun _ _ => rfl, by simp⟩
  | cons t targets ih =>
      obtain ⟨w₁, hfirst, hrest⟩ := Option.bind_eq_some_iff.mp h
      refine Gave.cons ?_ (ih hrest)
      dsimp only at hfirst
      split_ifs at hfirst with hskip
      · cases hfirst
        refine ⟨.refl _, fun t => .refl _ _ _, fun _ _ => rfl, fun _ _ _ t' ht' _ hno => ?_⟩
        rw [List.mem_singleton.mp ht', hskip] at hno
        cases hno
      · obtain ⟨l, hl, rfl⟩ := Option.map_eq_some_iff.mp hfirst
        obtain ⟨hgiven, hhas⟩ := buildAffects_given hkeeps hl
        refine ⟨⟨rfl, rfl, rfl, rfl, rfl⟩, fun t' => ?_, fun t' ht' => ?_,
          fun hm haura haimed t' ht' _ _ d hd hclass => ?_⟩
        · by_cases ht : t' = t
          · subst ht
            simpa using hgiven
          · simpa [ht] using Given.refl _ _ _
        · exact Function.update_of_ne (fun ht => ht' (List.mem_singleton.mpr ht)) _ _
        · rw [List.mem_singleton.mp ht']
          simpa using hhas (hm t) haura haimed d hd hclass

/-! ## The condition -/

/-- No other skill of this id has the target. -/
def Alone (w : World) (i : ℕ) (id : ℤ) (t : ℕ) : Prop :=
  ∀ q ∈ w.passtiveSpells.eraseIdx i, q.skilldata.id = id → t ∉ q.targets

/-- The source is not in its own reach by the skill. -/
def Outside (w : World) (src : ℕ) (id : ℤ) : Prop :=
  ∀ q ∈ w.passtiveSpells, q.source = src → q.skilldata.id = id → src ∉ q.targets

/-- The skill gets as far as looking for targets. -/
def Looks (w : World) (self : PasstiveSpell) (dt : ℚ) : Prop :=
  self.isDead = false ∧ 0 ≤ self.lifeTime - dt ∧
    (w.cooldown self.source).getCdTime self.skilldata.id ≤ 0

/-- The steps that leave auras to themselves: nobody alive goes from an aura, or sees it end, where
another source of the skill has the same target; whoever comes takes the affects; the affects of an
aura keep its id, and a source that is in its own reach does not learn it again; a source that dies
is a pet or has no other targets; cooldowns start, and affects of auras end, only where nobody is in
reach; who comes back to life stands in no list of targets. -/
def Ok (skills : SkillRepository) (w : World) : Label → Prop
  | .update i dt targets luck _ => ∀ self ∈ w.passtiveSpells[i]?,
    (self.isDead = true → ∀ t ∈ self.source :: self.targets, w.alive t = true →
      w.Alone i self.skilldata.id t) ∧
    (w.Looks self dt →
      (∀ t ∈ self.targets, t ∉ targets → w.alive t = true → w.Alone i self.skilldata.id t) ∧
      ∀ t ∈ targets, t ∉ self.targets → w.alive t = true →
        (self.skilldata.n32SkillType = 0 → luck.hit = true) ∧
          w.skips self.source t self.skilldata luck = false)
  | .add src id _ isPlayer _ _ => ∀ skilldata ∈ skills.rows id,
    skilldata.isAura = true ∧ (∀ d ∈ skilldata.szAffectTargetAffect, keepsId d = true) ∧
      (skilldata.szSelectTargetAffect ≠ [] → w.alive src = true → w.Outside src id) ∧
      (isPlayer = false → 0 < skilldata.n32CD → ∀ q ∈ w.passtiveSpells, q.source = src →
        base q.skilldata.id = base id → ∀ t ∈ q.targets, w.alive t = false)
  | .onDead e isPet => ∀ p ∈ w.passtiveSpells, p.source = e → ∀ t ∈ p.targets, t ≠ e →
    w.alive t = true → isPet = true ∧ ∀ q ∈ w.passtiveSpells, q.source ≠ e →
      q.skilldata.id = p.skilldata.id → t ∉ q.targets
  | .onRaise e => (∀ p ∈ w.passtiveSpells, e ∉ p.targets) ∧
    ∀ aff ∈ w.affects e, ¬ aff.ofAura skills
  | .cooldown e cooldown => ∀ p ∈ w.passtiveSpells, p.source = e →
    (∃ t ∈ p.targets, w.alive t = true) → cooldown.getCdTime p.skilldata.id ≤ 0
  | .leave t j => ∀ aff ∈ (w.affects t)[j]?, w.alive t = true → aff.aimed = true →
    ∀ p ∈ w.passtiveSpells, aff.affect.source = some p.source → aff.origin = p.skilldata.id →
      t ∉ p.targets
  | .give _ _ id _ _ => skills.isAura id = false
  | .removeSkill _ | .states _ _ _ => True

/-! ## The invariant -/

structure Inv (skills : SkillRepository) (w : World) : Prop where
  rows : ∀ p ∈ w.passtiveSpells, skills.rows p.skilldata.id = some p.skilldata ∧
    p.skilldata.isAura = true ∧ ∀ d ∈ p.skilldata.szAffectTargetAffect, keepsId d = true
  marked : ∀ t, Marked skills (w.affects t)
  living : ∀ p ∈ w.passtiveSpells, ∀ t ∈ p.targets, w.alive p.source = true
  ready : ∀ p ∈ w.passtiveSpells, ∀ t ∈ p.targets, w.alive t = true →
    (w.cooldown p.source).getCdTime p.skilldata.id ≤ 0
  has : ∀ p ∈ w.passtiveSpells, ∀ t ∈ p.targets, w.alive t = true →
    ∀ d ∈ p.skilldata.szAffectTargetAffect, d.kind.cls ≠ none →
      Has (w.affects t) p.source p.skilldata.id d.kind
  origin : ∀ t, w.alive t = true → ∀ aff ∈ w.affects t, aff.ofAura skills →
    ∃ p ∈ w.passtiveSpells, aff.affect.source = some p.source ∧ aff.origin = p.skilldata.id ∧
      t ∈ p.targets

theorem Inv.independent {w : World} (h : Inv skills w) : w.Independent skills := by
  intro t ht id skilldata hrow haura source
  have hid : skilldata.id = id := skills.row_id id skilldata hrow
  constructor
  · rintro ⟨-, -, p, hp, rfl, rfl, htarget⟩ d hd hclass
    exact hid ▸ h.has p hp t htarget ht d hd hclass
  · rintro ⟨aff, haff, hs, rfl, haimed⟩
    have hof : aff.ofAura skills := ⟨haimed, isAura_of_row hrow haura⟩
    obtain ⟨p, hp, hsource, horigin, htarget⟩ := h.origin t ht aff haff hof
    obtain rfl : source = p.source := Option.some.inj (hs.symm.trans hsource)
    have hdata : p.skilldata = skilldata := by
      have hrow' := (h.rows p hp).1
      rw [← horigin, hrow] at hrow'
      exact (Option.some.inj hrow').symm
    exact ⟨h.living p hp t htarget, hdata ▸ h.ready p hp t htarget ht, p, hp, rfl, hdata, htarget⟩

/-! ## Steps -/

variable {w w' : World}

theorem getCdTime_resetCd (c : Cooldown) (id id' : ℤ) (time : ℚ) :
    (c.resetCd id time).getCdTime id' = if base id' = base id then time else c.getCdTime id' := by
  unfold Cooldown.getCdTime Cooldown.resetCd Cooldown.put
  by_cases h : base id' = base id
  · simp [h]
  · simp [h]

/-- The same targets, by skills that are the same but for their times. -/
theorem Inv.retimed (h : Inv skills w) {i : ℕ} {p p' : PasstiveSpell}
    (hi : w.passtiveSpells[i]? = some p)
    (hsource : p'.source = p.source) (hdata : p'.skilldata = p.skilldata)
    (htargets : p'.targets = p.targets) : Inv skills (w.setPasstive i p') := by
  have hp : p ∈ w.passtiveSpells := List.mem_of_getElem? hi
  have hold : ∀ q ∈ (w.setPasstive i p').passtiveSpells, ∃ q₀ ∈ w.passtiveSpells,
      q.source = q₀.source ∧ q.skilldata = q₀.skilldata ∧ q.targets = q₀.targets := by
    intro q hq
    rcases (mem_set_iff hi).mp hq with rfl | hq
    · exact ⟨p, hp, hsource, hdata, htargets⟩
    · exact ⟨q, List.mem_of_mem_eraseIdx hq, rfl, rfl, rfl⟩
  refine ⟨fun q hq => ?_, h.marked, fun q hq t ht => ?_, fun q hq t ht hlive => ?_,
    fun q hq t ht hlive d hd hclass => ?_, fun t hlive aff haff haura => ?_⟩
  · obtain ⟨q₀, hq₀, -, hd, -⟩ := hold q hq
    rw [hd]
    exact h.rows q₀ hq₀
  · obtain ⟨q₀, hq₀, hs, -, htq⟩ := hold q hq
    rw [hs]
    exact h.living q₀ hq₀ t (htq ▸ ht)
  · obtain ⟨q₀, hq₀, hs, hd, htq⟩ := hold q hq
    rw [hs, hd]
    exact h.ready q₀ hq₀ t (htq ▸ ht) hlive
  · obtain ⟨q₀, hq₀, hs, hdq, htq⟩ := hold q hq
    rw [hs, hdq]
    exact h.has q₀ hq₀ t (htq ▸ ht) hlive d (hdq ▸ hd) hclass
  · obtain ⟨q₀, hq₀, hs, horigin, ht⟩ := h.origin t hlive aff haff haura
    rcases eq_or_mem_eraseIdx hi hq₀ with rfl | hq₀
    · exact ⟨p', (mem_set_iff hi).mpr (.inl rfl), by rw [hs, hsource], by rw [horigin, hdata],
        by rwa [htargets]⟩
    · exact ⟨q₀, (mem_set_iff hi).mpr (.inr hq₀), hs, horigin, ht⟩

theorem mem_removeFrom {targets : List ℕ} {id : ℤ} {t : ℕ} {aff : Entry} :
    aff ∈ (w.removeFrom targets id).affects t ↔
      aff ∈ w.affects t ∧ (t ∈ targets → aff.affect.skillId ≠ id) := by
  unfold removeFrom
  dsimp only
  split_ifs with ht
  · simp [mem_removeBySkillId, ht]
  · simp [ht]

/-- A skill has looked for targets: `w₁` is the room when who comes has been given its affects, and
who goes has still to lose those of its id. -/
structure Looked (skills : SkillRepository) (i : ℕ) (p : PasstiveSpell) (lifeTime : ℚ)
    (targets : List ℕ) (luck : Luck) (w w₁ w' : World) : Prop where
  gave : Gave skills p.source p.skilldata.szAffectTargetAffect (targets.filter (· ∉ p.targets))
    p.skilldata true luck w w₁
  alive : w'.alive = w.alive
  cooldown : w'.cooldown = w.cooldown
  spells : ∀ q, q ∈ w'.passtiveSpells ↔
    q = { p with lifeTime, targets } ∨ q ∈ w.passtiveSpells.eraseIdx i
  affects : ∀ t aff, aff ∈ w'.affects t ↔ aff ∈ w₁.affects t ∧
    (t ∈ p.targets → t ∉ targets → aff.affect.skillId ≠ p.skilldata.id)

theorem look_spec (h : Inv skills w) {i : ℕ} {p : PasstiveSpell} {lifeTime : ℚ} {targets : List ℕ}
    {luck : Luck} {birth : Data → Birth} (hi : w.passtiveSpells[i]? = some p)
    (hs : w.look i { p with lifeTime } targets luck birth = some w') :
    ∃ w₁, Looked skills i p lifeTime targets luck w w₁ w' := by
  obtain ⟨-, -, hkeeps⟩ := h.rows p (List.mem_of_getElem? hi)
  unfold World.look at hs
  obtain ⟨w₁, hgive, rfl⟩ := Option.map_eq_some_iff.mp hs
  have hgave := @trgggerAffect_gave skills _ _ _ _ _ _ _ _ _ (fun _ _ => hkeeps) hgive
  have hi₁ : w₁.passtiveSpells[i]? = some p := by rw [hgave.same.passtiveSpells, hi]
  refine ⟨w₁, hgave, hgave.same.alive, hgave.same.cooldown, fun q => ?_, fun t aff => ?_⟩
  · rw [← hgave.same.passtiveSpells]
    exact mem_set_iff hi₁
  · refine mem_removeFrom.trans (and_congr_right fun _ => ?_)
    rw [List.mem_filter, decide_eq_true_eq, and_imp]

section Looked

variable {w₁ : World} {i : ℕ} {p : PasstiveSpell} {lifeTime : ℚ} {targets : List ℕ} {luck : Luck}

theorem Looked.marked (hl : Looked skills i p lifeTime targets luck w w₁ w')
    (hm : ∀ t, Marked skills (w.affects t)) (t : ℕ) : Marked skills (w₁.affects t) :=
  (hl.gave.given t).marked (hm t)

/-- Affects of another skill stay, and so do those of this one on its targets. -/
theorem Looked.has (hl : Looked skills i p lifeTime targets luck w w₁ w')
    (hm : ∀ t, Marked skills (w.affects t)) {t source : ℕ} {id : ℤ} {kind : Kind}
    (hid : skills.isAura id = true) (hne : t ∈ p.targets → t ∉ targets → id ≠ p.skilldata.id)
    (hhas : Has (w₁.affects t) source id kind) : Has (w'.affects t) source id kind := by
  refine hhas.kept (hl.marked hm t) hid fun aff haff hskill => ?_
  refine (hl.affects t aff).mpr ⟨haff, fun ht hnot => ?_⟩
  rw [hskill]
  exact hne ht hnot

/-- Where an affect of an aura comes from: it was there before, or this skill has given it. -/
theorem Looked.new (hl : Looked skills i p lifeTime targets luck w w₁ w')
    (hm : ∀ t, Marked skills (w.affects t)) {t : ℕ} {aff : Entry} (haff : aff ∈ w'.affects t)
    (haura : aff.ofAura skills) :
    (aff ∈ w.affects t ∧ (t ∈ p.targets → t ∉ targets → aff.origin ≠ p.skilldata.id)) ∨
      aff.affect.source = some p.source ∧ aff.origin = p.skilldata.id ∧ t ∈ targets := by
  obtain ⟨haff, hnot⟩ := (hl.affects t aff).mp haff
  by_cases hcome : t ∈ targets.filter (· ∉ p.targets)
  · have ht : t ∈ targets := List.mem_of_mem_filter hcome
    rcases (hl.gave.given t).new aff haff with hold | ⟨hs, horigin, -⟩
    · exact .inl ⟨hold, fun _ hno => absurd ht hno⟩
    · exact .inr ⟨hs, horigin, ht⟩
  · have hold : aff ∈ w.affects t := (hl.gave.other t hcome) ▸ haff
    have hskill := (hl.marked hm t aff haff).2 haura
    exact .inl ⟨hold, fun htp ht horigin => hnot htp ht (hskill.trans horigin)⟩

end Looked

/-- A skill looks for targets, where no other source gave an affect to who goes. -/
theorem Inv.look (h : Inv skills w) {i : ℕ} {p : PasstiveSpell} {lifeTime : ℚ} {targets : List ℕ}
    {luck : Luck} {birth : Data → Birth} (hi : w.passtiveSpells[i]? = some p)
    (hsource : w.alive p.source = true)
    (hready : (w.cooldown p.source).getCdTime p.skilldata.id ≤ 0)
    (hdels : ∀ t ∈ p.targets, t ∉ targets → w.alive t = true → w.Alone i p.skilldata.id t)
    (hadds : ∀ t ∈ targets, t ∉ p.targets → w.alive t = true →
      (p.skilldata.n32SkillType = 0 → luck.hit = true) ∧
        w.skips p.source t p.skilldata luck = false)
    (hlook : w.look i { p with lifeTime } targets luck birth = some w') : Inv skills w' := by
  have hp : p ∈ w.passtiveSpells := List.mem_of_getElem? hi
  obtain ⟨w₁, hl⟩ := look_spec h hi hlook
  refine ⟨fun q hq => ?_, fun t aff haff => hl.marked h.marked t aff ((hl.affects t aff).mp haff).1,
    fun q hq t ht => ?_, fun q hq t ht hlive => ?_, fun q hq t ht hlive d hd hclass => ?_,
    fun t hlive aff haff haura => ?_⟩
  · rcases (hl.spells q).mp hq with rfl | hq
    · exact h.rows p hp
    · exact h.rows q (List.mem_of_mem_eraseIdx hq)
  · rw [hl.alive]
    rcases (hl.spells q).mp hq with rfl | hq
    · exact hsource
    · exact h.living q (List.mem_of_mem_eraseIdx hq) t ht
  · rw [hl.alive] at hlive
    rw [hl.cooldown]
    rcases (hl.spells q).mp hq with rfl | hq
    · exact hready
    · exact h.ready q (List.mem_of_mem_eraseIdx hq) t ht hlive
  · rw [hl.alive] at hlive
    rcases (hl.spells q).mp hq with rfl | hq
    · have hisAura : skills.isAura p.skilldata.id = true :=
        isAura_of_row (h.rows p hp).1 (h.rows p hp).2.1
      refine hl.has h.marked hisAura (fun _ hnot => absurd ht hnot) ?_
      by_cases hold : t ∈ p.targets
      · have hhas := h.has p hp t hold hlive d hd hclass
        exact (hl.gave.given t).has (h.marked t) _ _ _ hisAura (by simp) hhas
      · obtain ⟨hhit, hskip⟩ := hadds t ht hold hlive
        have hcome : t ∈ targets.filter (· ∉ p.targets) :=
          List.mem_filter.mpr ⟨ht, by simpa using hold⟩
        exact hl.gave.has h.marked hisAura rfl t hcome hhit hskip d hd hclass
    · have hq' := List.mem_of_mem_eraseIdx hq
      have hidq : skills.isAura q.skilldata.id = true :=
        isAura_of_row (h.rows q hq').1 (h.rows q hq').2.1
      have hhas := h.has q hq' t ht hlive d hd hclass
      refine hl.has h.marked hidq (fun hold hnot hid => hdels t hold hnot hlive q hq hid ht) ?_
      exact (hl.gave.given t).has (h.marked t) _ _ _ hidq (by simp) hhas
  · rw [hl.alive] at hlive
    rcases hl.new h.marked haff haura with ⟨hold, hne⟩ | ⟨hs, horigin, ht⟩
    · obtain ⟨q, hq, hs, horigin, htq⟩ := h.origin t hlive aff hold haura
      rcases eq_or_mem_eraseIdx hi hq with rfl | hq
      · have ht : t ∈ targets := by
          by_contra ht
          exact hne htq ht horigin
        exact ⟨_, (hl.spells _).mpr (.inl rfl), hs, horigin, ht⟩
      · exact ⟨q, (hl.spells q).mpr (.inr hq), hs, horigin, htq⟩
    · exact ⟨_, (hl.spells _).mpr (.inl rfl), hs, horigin, ht⟩

/-- Skills, affects or living entities are gone, with the affects that belong to a skill that is
gone. -/
theorem Inv.narrowed (h : Inv skills w) (hspells : ∀ q ∈ w'.passtiveSpells, q ∈ w.passtiveSpells)
    (hsub : ∀ t, ∀ aff ∈ w'.affects t, aff ∈ w.affects t)
    (halive : ∀ t, w'.alive t = true → w.alive t = true)
    (hliving : ∀ q ∈ w'.passtiveSpells, w.alive q.source = true → w'.alive q.source = true)
    (hready : ∀ q ∈ w'.passtiveSpells, ∀ t ∈ q.targets, w'.alive t = true →
      (w'.cooldown q.source).getCdTime q.skilldata.id ≤ 0)
    (hkept : ∀ q ∈ w'.passtiveSpells, ∀ t ∈ q.targets, w'.alive t = true → ∀ aff ∈ w.affects t,
      aff.aimed = true → aff.affect.source = some q.source → aff.origin = q.skilldata.id →
      aff.affect.skillId = q.skilldata.id → aff ∈ w'.affects t)
    (hgone : ∀ p ∈ w.passtiveSpells, p ∉ w'.passtiveSpells → ∀ t ∈ p.targets, w'.alive t = true →
      ∀ aff ∈ w'.affects t, aff.affect.skillId ≠ p.skilldata.id) : Inv skills w' := by
  refine ⟨fun q hq => h.rows q (hspells q hq), fun t aff haff => h.marked t aff (hsub t aff haff),
    fun q hq t ht => hliving q hq (h.living q (hspells q hq) t ht), hready,
    fun q hq t ht hlive d hd hclass => ?_, fun t hlive aff haff haura => ?_⟩
  · obtain ⟨aff, haff, hs, horigin, haimed, hkind⟩ :=
      h.has q (hspells q hq) t ht (halive t hlive) d hd hclass
    have hrows := h.rows q (hspells q hq)
    have hskill := (h.marked t).skillId (isAura_of_row hrows.1 hrows.2.1) haff horigin haimed
    exact ⟨aff, hkept q hq t ht hlive aff haff haimed hs horigin hskill, hs, horigin, haimed, hkind⟩
  · obtain ⟨p, hp, hs, horigin, ht⟩ := h.origin t (halive t hlive) aff (hsub t aff haff) haura
    have hskill := (h.marked t aff (hsub t aff haff)).2 haura
    by_cases hp' : p ∈ w'.passtiveSpells
    · exact ⟨p, hp', hs, horigin, ht⟩
    · exact absurd (hskill.trans horigin) (hgone p hp hp' t ht hlive aff haff)

theorem Inv.ended (h : Inv skills w) {i : ℕ} {p : PasstiveSpell}
    (hi : w.passtiveSpells[i]? = some p)
    (halone : ∀ t ∈ p.source :: p.targets, w.alive t = true → w.Alone i p.skilldata.id t) :
    Inv skills { w.passtiveDead p with passtiveSpells := w.passtiveSpells.eraseIdx i } := by
  refine h.narrowed (fun q hq => List.mem_of_mem_eraseIdx hq)
    (fun t aff haff => (mem_removeFrom.mp haff).1) (fun _ hlive => hlive) (fun _ _ hlive => hlive)
    (fun q hq t ht hlive => ?_) (fun q hq t ht hlive aff haff _ _ _ hskill => ?_)
    (fun q hq hgone t ht _ aff haff => ?_)
  · have hready := h.ready q (List.mem_of_mem_eraseIdx hq) t ht hlive
    change (Function.update w.cooldown p.source _ q.source).getCdTime q.skilldata.id ≤ 0
    by_cases hs : q.source = p.source
    · rw [hs, Function.update_self, getCdTime_resetCd]
      rw [hs] at hready
      split_ifs
      · exact le_rfl
      · exact hready
    · rwa [Function.update_of_ne hs]
  · refine mem_removeFrom.mpr ⟨haff, fun hmem hid => ?_⟩
    have ht' : t ∈ p.source :: p.targets := by
      rw [List.mem_append, List.mem_singleton] at hmem
      exact List.mem_cons.mpr hmem.symm
    exact halone t ht' hlive q hq (hskill.symm.trans hid) ht
  · rcases eq_or_mem_eraseIdx hi hq with rfl | hq
    · exact (mem_removeFrom.mp haff).2 (List.mem_append_left _ ht)
    · exact absurd hq hgone

theorem update_inv (h : Inv skills w) {i : ℕ} {dt : ℚ} {targets : List ℕ} {luck : Luck}
    {birth : Data → Birth} (hok : w.Ok skills (.update i dt targets luck birth))
    (hs : w.update i dt targets luck birth = some w') : Inv skills w' := by
  unfold World.update at hs
  obtain ⟨p, hi, hs⟩ := Option.bind_eq_some_iff.mp hs
  obtain ⟨hdead, hlook⟩ := hok p hi
  dsimp only at hs
  split_ifs at hs with halive hisDead hlife hcd
  · cases hs
    exact h.ended hi (hdead hisDead)
  · cases hs
    exact h.retimed hi rfl rfl rfl
  · cases hs
    exact h.retimed hi rfl rfl rfl
  · obtain ⟨hdels, hadds⟩ := hlook ⟨by simpa using hisDead, not_lt.mp hlife, not_lt.mp hcd⟩
    exact h.look hi (by simpa using halive) (not_lt.mp hcd) hdels hadds hs

theorem trgggerAffect_nil (w : World) (source : ℕ) (targets : List ℕ) (skilldata : SkillData)
    (luck : Luck) (birth : Data → Birth) :
    w.trgggerAffect source [] targets skilldata aimed luck birth = some w := by
  unfold trgggerAffect
  split_ifs with hmiss
  · rfl
  induction targets with
  | nil => rfl
  | cons t targets ih =>
      refine Option.bind_eq_some_iff.mpr ⟨w, ?_, ih⟩
      simp [buildAffects]

theorem add_inv (h : Inv skills w) {src : ℕ} {id : ℤ} {time : ℚ} {isPlayer : Bool} {luck : Luck}
    {birth : Data → Birth} (hok : w.Ok skills (.add src id time isPlayer luck birth))
    (hs : w.add skills src id time isPlayer luck birth = some w') : Inv skills w' := by
  unfold World.add at hs
  obtain ⟨skilldata, hrow, hs⟩ := Option.bind_eq_some_iff.mp hs
  obtain ⟨w₁, hgive, hs⟩ := Option.bind_eq_some_iff.mp hs
  cases hs
  obtain ⟨haura, hkeeps, hselect, hcd⟩ := hok skilldata hrow
  have hid : skilldata.id = id := skills.row_id id skilldata hrow
  have hgave := @trgggerAffect_gave skills _ _ _ _ _ _ _ _ _ (by simp) hgive
  have halive : ∀ t, w₁.alive t = w.alive t := fun t => congrFun hgave.same.alive t
  -- the new skill has no targets yet
  have hold : ∀ q ∈ w₁.passtiveSpells ++ [.ctor src skilldata time], ∀ t ∈ q.targets,
      q ∈ w.passtiveSpells := by
    intro q hq t ht
    rcases List.mem_append.mp hq with hq | hq
    · rwa [hgave.same.passtiveSpells] at hq
    · rw [List.mem_singleton.mp hq] at ht
      cases ht
  refine ⟨fun q hq => ?_, fun t => (hgave.given t).marked (h.marked t), fun q hq t ht => ?_,
    fun q hq t ht hlive => ?_, fun q hq t ht hlive d hd hclass => ?_,
    fun t hlive aff haff haura => ?_⟩
  · rcases List.mem_append.mp hq with hq | hq
    · exact h.rows q (hgave.same.passtiveSpells ▸ hq)
    · rw [List.mem_singleton.mp hq]
      exact ⟨hid.symm ▸ hrow, haura, hkeeps⟩
  · exact (halive q.source).trans (h.living q (hold q hq t ht) t ht)
  · have hlive' : w.alive t = true := (halive t).symm.trans hlive
    have hq' := hold q hq t ht
    have hready := h.ready q hq' t ht hlive'
    dsimp only
    rw [hgave.same.cooldown]
    split_ifs with hplayer
    · exact hready
    by_cases hsrc : q.source = src
    · rw [hsrc, Function.update_self, getCdTime_resetCd]
      rw [hsrc] at hready
      split_ifs with hbase
      · by_contra hpos
        have hgone := hcd (by simpa using hplayer) (not_le.mp hpos) q hq' hsrc hbase t ht
        rw [hlive'] at hgone
        cases hgone
      · exact hready
    · rwa [Function.update_of_ne hsrc]
  · have hlive' : w.alive t = true := (halive t).symm.trans hlive
    have hq' := hold q hq t ht
    have hhas := h.has q hq' t ht hlive' d hd hclass
    change Has (w₁.affects t) q.source q.skilldata.id d.kind
    by_cases hnil : skilldata.szSelectTargetAffect = []
    · rw [hnil, trgggerAffect_nil] at hgive
      cases hgive
      exact hhas
    by_cases htsrc : t = src
    · refine (hgave.given t).has (h.marked t) _ _ _ ?_ (fun _ hsource hsame => ?_) hhas
      · exact isAura_of_row (h.rows q hq').1 (h.rows q hq').2.1
      · subst htsrc
        exact hselect hnil hlive' q hq' hsource (hsame.trans hid) ht
    · rwa [hgave.other t (by simpa using htsrc)]
  · have hlive' : w.alive t = true := (halive t).symm.trans hlive
    rcases (hgave.given t).new aff haff with hold | ⟨-, -, hno⟩
    · obtain ⟨q, hq, hq'⟩ := h.origin t hlive' aff hold haura
      exact ⟨q, List.mem_append_left _ (by rwa [hgave.same.passtiveSpells]), hq'⟩
    · have haimed := haura.1
      rw [hno] at haimed
      cases haimed

theorem mem_foldl_passtiveDead {own : List PasstiveSpell} {t : ℕ} {aff : Entry} :
    aff ∈ (own.foldl passtiveDead w).affects t ↔ aff ∈ w.affects t ∧
      ∀ p ∈ own, t ∈ p.targets ++ [p.source] → aff.affect.skillId ≠ p.skilldata.id := by
  induction own generalizing w with
  | nil => simp
  | cons p own ih =>
      have hfirst : aff ∈ (w.passtiveDead p).affects t ↔ aff ∈ w.affects t ∧
          (t ∈ p.targets ++ [p.source] → aff.affect.skillId ≠ p.skilldata.id) := mem_removeFrom
      rw [List.foldl_cons, ih, hfirst, List.forall_mem_cons, and_assoc]

/-- The skills of an entity touch tables and its own cooldowns only. -/
theorem foldl_passtiveDead_frame {own : List PasstiveSpell} {e : ℕ}
    (hown : ∀ p ∈ own, p.source = e) :
    (own.foldl passtiveDead w).passtiveSpells = w.passtiveSpells ∧
      (own.foldl passtiveDead w).alive = w.alive ∧
      ∀ e', e' ≠ e → (own.foldl passtiveDead w).cooldown e' = w.cooldown e' := by
  induction own generalizing w with
  | nil => exact ⟨rfl, rfl, fun _ _ => rfl⟩
  | cons p own ih =>
      obtain ⟨hspells, halive, hcd⟩ :=
        @ih (w.passtiveDead p) fun q hq => hown q (List.mem_cons_of_mem _ hq)
      refine ⟨hspells, halive, fun e' he => (hcd e' he).trans ?_⟩
      exact Function.update_of_ne (by rwa [hown p List.mem_cons_self]) _ _

theorem onDead_frame (w : World) (e : ℕ) (isPet : Bool) :
    (w.onDead e isPet).passtiveSpells = w.passtiveSpells.filter (·.source ≠ e) ∧
      (w.onDead e isPet).alive = Function.update w.alive e false ∧
      (∀ e', e' ≠ e → (w.onDead e isPet).cooldown e' = w.cooldown e') ∧
      ∀ t aff, aff ∈ (w.onDead e isPet).affects t ↔ t ≠ e ∧ aff ∈ w.affects t ∧
        (isPet = true → ∀ p ∈ w.passtiveSpells, p.source = e → t ∈ p.targets →
          aff.affect.skillId ≠ p.skilldata.id) := by
  have hsource : ∀ p ∈ w.passtiveSpells.filter (·.source = e), p.source = e := by simp
  obtain ⟨hspells, halive, hcd⟩ := @foldl_passtiveDead_frame w _ e hsource
  unfold World.onDead
  cases isPet with
  | false =>
      refine ⟨rfl, rfl, fun _ _ => rfl, fun t aff => ?_⟩
      by_cases ht : t = e
      · simp [ht]
      · simp [ht]
  | true =>
      have halive' := congrArg (fun alive : ℕ → Bool => Function.update alive e false) halive
      refine ⟨congrArg (List.filter (·.source ≠ e)) hspells, halive', hcd, fun t aff => ?_⟩
      by_cases ht : t = e
      · simp [ht]
      · simp only [if_true, ne_eq, ht, not_false_eq_true, Function.update_of_ne, true_and,
          mem_foldl_passtiveDead, List.mem_filter, decide_eq_true_eq, List.mem_append,
          List.mem_singleton, forall_const, and_imp]
        refine and_congr_right fun _ => forall₃_congr fun p hp hs => ?_
        rw [hs, or_iff_left ht]

theorem onDead_inv (h : Inv skills w) {e : ℕ} {isPet : Bool} (hok : w.Ok skills (.onDead e isPet)) :
    Inv skills (w.onDead e isPet) := by
  obtain ⟨hspells, halive, hcd, hmem⟩ := onDead_frame w e isPet
  have hlives : ∀ t, (w.onDead e isPet).alive t = true → t ≠ e ∧ w.alive t = true := by
    intro t hlive
    rw [halive] at hlive
    by_cases ht : t = e
    · simp [ht] at hlive
    · exact ⟨ht, by simpa [ht] using hlive⟩
  have hothers : ∀ q ∈ (w.onDead e isPet).passtiveSpells, q ∈ w.passtiveSpells ∧ q.source ≠ e := by
    intro q hq
    simpa [hspells] using hq
  refine h.narrowed (fun q hq => (hothers q hq).1) (fun t aff haff => ((hmem t aff).mp haff).2.1)
    (fun t hlive => (hlives t hlive).2) (fun q hq hlive => ?_) (fun q hq t ht hlive => ?_)
    (fun q hq t ht hlive aff haff _ _ _ hskill => ?_) (fun p hp hgone t ht hlive aff haff => ?_)
  · rw [halive, Function.update_of_ne (hothers q hq).2, hlive]
  · rw [hcd _ (hothers q hq).2]
    exact h.ready q (hothers q hq).1 t ht (hlives t hlive).2
  · obtain ⟨hne, hlive⟩ := hlives t hlive
    obtain ⟨hq, hs⟩ := hothers q hq
    refine (hmem t aff).mpr ⟨hne, haff, fun _ p hp hpe htp hid => ?_⟩
    exact (hok p hp hpe t htp hne hlive).2 q hq hs (hskill.symm.trans hid) ht
  · obtain ⟨hne, hlive⟩ := hlives t hlive
    have hpe : p.source = e := by
      by_contra hpe
      exact hgone (by simp [hspells, hp, hpe])
    exact ((hmem t aff).mp haff).2.2 (hok p hp hpe t ht hne hlive).1 p hp hpe ht

theorem onRaise_inv (h : Inv skills w) {e : ℕ} (hok : w.Ok skills (.onRaise e)) :
    Inv skills { w with alive := Function.update w.alive e true } := by
  obtain ⟨htargets, haffects⟩ := hok
  have hlives : ∀ t, Function.update w.alive e true t = true → t ≠ e → w.alive t = true := by
    intro t hlive ht
    rwa [Function.update_of_ne ht] at hlive
  have hne : ∀ p ∈ w.passtiveSpells, ∀ t ∈ p.targets, t ≠ e := by
    rintro p hp t ht rfl
    exact htargets p hp ht
  refine ⟨h.rows, h.marked, fun p hp t ht => ?_,
    fun p hp t ht hlive => h.ready p hp t ht (hlives t hlive (hne p hp t ht)),
    fun p hp t ht hlive => h.has p hp t ht (hlives t hlive (hne p hp t ht)),
    fun t hlive aff haff haura => ?_⟩
  · have hlive := h.living p hp t ht
    by_cases hs : p.source = e
    · simp [hs]
    · simpa [hs] using hlive
  · by_cases ht : t = e
    · exact absurd haura (haffects aff (ht ▸ haff))
    · exact h.origin t (hlives t hlive ht) aff haff haura

theorem cooldown_inv (h : Inv skills w) {e : ℕ} {cooldown : Cooldown}
    (hok : w.Ok skills (.cooldown e cooldown)) :
    Inv skills { w with cooldown := Function.update w.cooldown e cooldown } := by
  refine ⟨h.rows, h.marked, h.living, fun p hp t ht hlive => ?_, h.has, h.origin⟩
  dsimp only
  by_cases hs : p.source = e
  · rw [hs, Function.update_self]
    exact hok p hp hs ⟨t, ht, hlive⟩
  · rw [Function.update_of_ne hs]
    exact h.ready p hp t ht hlive

theorem leave_inv (h : Inv skills w) {t j : ℕ} (hok : w.Ok skills (.leave t j)) :
    Inv skills { w with affects := Function.update w.affects t ((w.affects t).eraseIdx j) } := by
  have hsub : ∀ t', ∀ aff ∈ Function.update w.affects t ((w.affects t).eraseIdx j) t',
      aff ∈ w.affects t' := by
    intro t' aff haff
    by_cases ht : t' = t
    · subst ht
      rw [Function.update_self] at haff
      exact List.mem_of_mem_eraseIdx haff
    · rwa [Function.update_of_ne ht] at haff
  refine h.narrowed (fun _ hq => hq) hsub (fun _ hlive => hlive) (fun _ _ hlive => hlive) h.ready
    (fun q hq t' htq hlive aff haff haimed hs horigin _ => ?_) (fun q hq hgone => absurd hq hgone)
  change aff ∈ Function.update w.affects t ((w.affects t).eraseIdx j) t'
  by_cases ht : t' = t
  · subst ht
    rw [Function.update_self]
    cases hj : (w.affects t')[j]? with
    | none => rwa [List.eraseIdx_of_length_le (List.getElem?_eq_none_iff.mp hj)]
    | some old =>
        rcases eq_or_mem_eraseIdx hj haff with rfl | haff
        · exact absurd htq (hok aff hj hlive haimed q hq hs horigin)
        · exact haff
  · rwa [Function.update_of_ne ht]

theorem give_inv (h : Inv skills w) {t source : ℕ} {id : ℤ} {d : Data} {birth : Data → Birth}
    {l : Table} (hok : w.Ok skills (.give t source id d birth))
    (hl : addAffect t (w.affects t) source id true birth d = some l) :
    Inv skills { w with affects := Function.update w.affects t l } := by
  have hno : skills.isAura id = false := hok
  have hgiven (t' : ℕ) :
      Given skills source id true (w.affects t') (Function.update w.affects t l t') := by
    by_cases ht : t' = t
    · subst ht
      rw [Function.update_self]
      exact (addAffect_given (fun _ haura => by simp [hno] at haura) hl).1
    · rw [Function.update_of_ne ht]
      exact .refl _ _ _
  refine ⟨h.rows, fun t' => (hgiven t').marked (h.marked t'), h.living, h.ready,
    fun p hp t' htp hlive d hd hclass => ?_, fun t' hlive aff haff haura => ?_⟩
  · obtain ⟨hrow, haura, -⟩ := h.rows p hp
    have hhas := h.has p hp t' htp hlive d hd hclass
    exact (hgiven t').has (h.marked t') _ _ _ (isAura_of_row hrow haura) (by simp) hhas
  · rcases (hgiven t').new aff haff with hold | ⟨-, horigin, -⟩
    · exact h.origin t' hlive aff hold haura
    · have haura' := haura.2
      rw [horigin, hno] at haura'
      cases haura'

/-- One step of auras that are left to themselves. -/
theorem Inv.step (h : Inv skills w) {l : Label} (hok : w.Ok skills l)
    (hs : w.step skills l = some w') :
    Inv skills w' := by
  cases l with
  | update i dt targets luck birth => exact update_inv h hok hs
  | add src id time isPlayer luck birth => exact add_inv h hok hs
  | removeSkill i =>
      obtain ⟨p, hi, rfl⟩ := Option.map_eq_some_iff.mp hs
      exact h.retimed hi rfl rfl rfl
  | onDead e isPet =>
      cases hs
      exact onDead_inv h hok
  | onRaise e =>
      cases hs
      exact onRaise_inv h hok
  | cooldown e cooldown =>
      cases hs
      exact cooldown_inv h hok
  | leave t j =>
      cases hs
      exact leave_inv h hok
  | give t source id d birth =>
      obtain ⟨l, hl, rfl⟩ := Option.map_eq_some_iff.mp hs
      exact give_inv h hok hl
  | states e invincible outSkill =>
      cases hs
      exact ⟨h.rows, h.marked, h.living, h.ready, h.has, h.origin⟩

theorem runs_inv (h : (system skills).Runs (Ok skills) w) : Inv skills w := by
  refine h.invariant ?_ fun w l w' hw hok hs => hw.step hok hs
  refine ⟨by simp [system, empty], fun t aff haff => ?_, by simp [system, empty],
    by simp [system, empty], by simp [system, empty], by simp [system, empty]⟩
  cases haff

/-- Whoever leaves one of two auras of a skill loses the affects of both. -/
theorem look_not_independent (h : Inv skills w) {i : ℕ} {p : PasstiveSpell} {lifeTime : ℚ}
    {targets : List ℕ} {luck : Luck} {birth : Data → Birth} (hi : w.passtiveSpells[i]? = some p)
    (hs : w.look i { p with lifeTime } targets luck birth = some w') {t : ℕ} (ht : t ∈ p.targets)
    (hgone : t ∉ targets) (hlive : w.alive t = true) (hother : ¬ w.Alone i p.skilldata.id t)
    (hdatas : ∃ d ∈ p.skilldata.szAffectTargetAffect, d.kind.cls ≠ none) :
    ¬ w'.Independent skills := by
  obtain ⟨hrow, haura, -⟩ := h.rows p (List.mem_of_getElem? hi)
  obtain ⟨w₁, hl⟩ := look_spec h hi hs
  -- the other source, whose last query found the target too
  obtain ⟨q, hq, hid, htq⟩ : ∃ q ∈ w.passtiveSpells.eraseIdx i,
      q.skilldata.id = p.skilldata.id ∧ t ∈ q.targets := by
    simpa [Alone] using hother
  have hq' := List.mem_of_mem_eraseIdx hq
  have hdata : q.skilldata = p.skilldata := by
    have hrow' := (h.rows q hq').1
    rw [hid, hrow] at hrow'
    exact (Option.some.inj hrow').symm
  have hrange : w'.InRange q.source t p.skilldata := by
    refine ⟨?_, ?_, q, (hl.spells q).mpr (.inr hq), rfl, hdata, htq⟩
    · rw [hl.alive]
      exact h.living q hq' t htq
    · rw [hl.cooldown, ← hdata]
      exact h.ready q hq' t htq hlive
  obtain ⟨d, hd, hclass⟩ := hdatas
  intro hindep
  have hreached := (hindep t (by rwa [hl.alive]) _ _ hrow haura q.source).1 hrange
  obtain ⟨aff, haff, -, horigin, haimed, -⟩ := hreached d hd hclass
  obtain ⟨haff, hnot⟩ := (hl.affects t aff).mp haff
  have hskill := (hl.marked h.marked t).skillId (isAura_of_row hrow haura) haff horigin haimed
  exact hnot ht hgone hskill

/-- Auras that are left to themselves are independent of each other; but when somebody alive leaves
one of two sources of a skill, they no longer are. -/
theorem auras_independent (h : (system skills).Runs (Ok skills) w) :
    w.Independent skills ∧
      ∀ i p dt targets luck birth w', w.passtiveSpells[i]? = some p → w.Looks p dt →
        w.step skills (.update i dt targets luck birth) = some w' →
        (∃ d ∈ p.skilldata.szAffectTargetAffect, d.kind.cls ≠ none) → ∀ t ∈ p.targets, t ∉ targets →
          w.alive t = true → ¬ w.Alone i p.skilldata.id t → ¬ w'.Independent skills := by
  have hinv := runs_inv h
  refine ⟨hinv.independent, ?_⟩
  intro i p dt targets luck birth w' hi hlooks hs hdatas t ht hgone hlive hother
  obtain ⟨hdead, hlife, hcd⟩ := hlooks
  have halive : w.alive p.source = true := hinv.living p (List.mem_of_getElem? hi) t ht
  obtain ⟨p', hi', hs⟩ := Option.bind_eq_some_iff.mp hs
  obtain rfl : p = p' := Option.some.inj (hi.symm.trans hi')
  dsimp only at hs
  rw [if_neg (by simp [halive]), if_neg (by simp [hdead]), if_neg (not_lt.mpr hlife),
    if_neg (not_lt.mpr hcd)] at hs
  exact look_not_independent hinv hi hs ht hgone hlive hother hdatas

instance (i : ℕ) (id : ℤ) (t : ℕ) : Decidable (w.Alone i id t) := by
  unfold Alone
  infer_instance

instance (src : ℕ) (id : ℤ) : Decidable (w.Outside src id) := by
  unfold Outside
  infer_instance

instance (self : PasstiveSpell) (dt : ℚ) : Decidable (w.Looks self dt) := by
  unfold Looks
  infer_instance

instance (aff : Entry) : Decidable (aff.ofAura skills) := by
  unfold Entry.ofAura
  infer_instance

instance (l : Label) : Decidable (w.Ok skills l) := by
  cases l <;> unfold Ok <;> infer_instance

instance (source t : ℕ) (skilldata : SkillData) : Decidable (w.InRange source t skilldata) := by
  unfold InRange
  infer_instance

end World

/-- An aura that adds to the attack of its targets. -/
def banner : SkillData where
  id := 71
  n32TriggerCondition := 8
  n32TriggerInfo := 0
  n32CD := 0
  n32SkillType := 1
  szSelectTargetAffect := []
  szAffectTargetAffect := [⟨.atk, [0, 5, 0, 0, -1]⟩]

/-- The banner is the only skill. -/
def onlyBanner : SkillRepository where
  rows id := if id = 71 then some banner else none
  row_id id skilldata h := by
    split_ifs at h with hid
    cases h
    exact hid.symm
  row_zero := rfl

def born (_ : Data) : Birth := ⟨1, 0, false⟩

/-- The sources 1 and 2 carry the banner, and 3 stands between them. -/
def twoBanners : List World.Label :=
  [.onRaise 1, .onRaise 2, .onRaise 3, .onRaise 4, .add 1 71 (-1) true ⟨true, fun _ => false⟩ born,
    .add 2 71 (-1) true ⟨true, fun _ => false⟩ born, .update 0 1 [3] ⟨true, fun _ => false⟩ born,
    .update 1 1 [3, 4] ⟨true, fun _ => false⟩ born]

namespace World

/-- The source 4 leaves had no rival there. -/
theorem auras_independent_rivals :
    ∃ w, (system onlyBanner).Runs (Ok onlyBanner) w ∧
      ((w.affects 3).map (·.affect.source), (w.affects 4).map (·.affect.source)) =
        ([some 1, some 2], []) ∧ w.Independent onlyBanner := by
  have hrun : (((system onlyBanner).guarded (Ok onlyBanner)).run empty
      (twoBanners ++ [.update 1 1 [3] ⟨true, fun _ => false⟩ born])).map (fun w =>
        ((w.affects 3).map (·.affect.source), (w.affects 4).map (·.affect.source))) =
          some ([some 1, some 2], []) := by
    decide +kernel
  obtain ⟨w, hrun, hw⟩ := Option.map_eq_some_iff.mp hrun
  have hruns : (system onlyBanner).Runs (Ok onlyBanner) w := System.Runs.of_guarded_run _ .init hrun
  exact ⟨w, hruns, hw, (auras_independent hruns).1⟩

/-- When 3 leaves the first banner it loses the attack of the second as well. -/
theorem auras_not_independent :
    ∃ w w', (system onlyBanner).Reachable w ∧ w.InRange 2 3 banner ∧
      (w.affects 3).map (·.affect.source) = [some 1, some 2] ∧
      w.step onlyBanner (.update 0 1 [] ⟨true, fun _ => false⟩ born) = some w' ∧
      w'.InRange 2 3 banner ∧ w'.affects 3 = [] ∧ ¬ w'.Independent onlyBanner := by
  have hrun : (((system onlyBanner).run empty twoBanners).bind fun w =>
      (w.step onlyBanner (.update 0 1 [] ⟨true, fun _ => false⟩ born)).map fun w' =>
        (decide (w.InRange 2 3 banner), (w.affects 3).map (·.affect.source),
          decide (w'.InRange 2 3 banner), (w'.affects 3).length, w'.alive 3)) =
            some (true, [some 1, some 2], true, 0, true) := by
    decide +kernel
  obtain ⟨w, hw, hstep⟩ := Option.bind_eq_some_iff.mp hrun
  obtain ⟨w', hw', hread⟩ := Option.map_eq_some_iff.mp hstep
  simp only [Prod.mk.injEq, decide_eq_true_eq, List.length_eq_zero_iff] at hread
  obtain ⟨hrange, hsources, hrange', hnone, hlive⟩ := hread
  refine ⟨w, w', System.reachable_of_run _ hw, hrange, hsources, hw', hrange', hnone,
    fun hindep => ?_⟩
  have hreached := (hindep 3 hlive 71 banner rfl rfl 2).1 hrange'
  obtain ⟨aff, haff, -⟩ := hreached ⟨.atk, [0, 5, 0, 0, -1]⟩ (List.mem_singleton_self _) (by decide)
  rw [hnone] at haff
  cases haff

end World

end GameServer.Passtives
