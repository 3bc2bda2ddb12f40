import GameServer.AgentFrame
import GameServer.Upsert

/-!
# One card and one skill of a series

`addCard` and `addSkill` look for the series and insert in one piece, and give up control behind it,
so no other method comes between. Two grants of a card are one grant of both numbers; the products
are Lua integers, which wrap.
-/

namespace GameServer.OnePerSeries

open Goods Agent Cooperative Coroutine AgentService Upsert

/-! ## Grants -/

def cardSeries (v : Card) : ℤ := Macro_GetCardSerialId v.dataId

def skillSeries (v : Skill) : ℤ := Macro_GetSkillSerialId v.dataId

section Grants

variable (env : Env) (dataId num : ℤ)

/-- The card that a first grant makes. -/
def newCard (hero : HeroRow) (gained : List ℤ) (made : ℕ) : Card where
  uuid := env.uuid made
  dataId := dataId
  count := mClamp (wrap ((if Macro_GetCardColor dataId = 0 then num else num - 1) *
    hero.n32CCardNum)) 0 maxint32
  skills := gained ++ List.replicate (8 - gained.length) 0

/-- What a later grant makes of the card. -/
def moreCard (hero : HeroRow) (v : Card) : Card :=
  { v with count := mClamp (wrap (v.count + hero.n32CCardNum * num)) 0 maxint32 }

def newSkill (made : ℕ) : Skill := { initSkill env made dataId with count := num }

def moreSkill (v : Skill) : Skill := { v with count := mClamp (wrap (v.count + num)) 0 maxinteger }

section Search

variable {cards : List Card} {skills : List Skill} {serId : ℤ} {i : ℕ}

theorem card_found (h : getCardBySerialId cards serId = some i) (f : Card → Card) (new : Card) :
    serId ∈ cards.map cardSeries ∧ upsert cardSeries serId f new cards = cards.modify i f :=
  found h f new

theorem card_absent (h : getCardBySerialId cards serId = none) (f : Card → Card) (new : Card) :
    serId ∉ cards.map cardSeries ∧ upsert cardSeries serId f new cards = cards ++ [new] :=
  absent h f new

theorem skill_found (h : getSkillBySerialId skills serId = some i) (f : Skill → Skill)
    (new : Skill) :
    serId ∈ skills.map skillSeries ∧ upsert skillSeries serId f new skills = skills.modify i f :=
  found h f new

theorem skill_absent (h : getSkillBySerialId skills serId = none) (f : Skill → Skill)
    (new : Skill) :
    serId ∉ skills.map skillSeries ∧ upsert skillSeries serId f new skills = skills ++ [new] :=
  absent h f new

end Search

/-- The user behind a grant of a card. -/
def withCard (hero : HeroRow) (gained : List ℤ) (u : User) : User :=
  let serId := Macro_GetCardSerialId dataId
  { u with
    cards := upsert cardSeries serId (moreCard num hero)
      (newCard env dataId num hero gained u.made) u.cards
    made := if serId ∈ u.cards.map cardSeries then u.made else u.made + 1 }

def withSkill (u : User) : User :=
  let serId := Macro_GetSkillSerialId dataId
  { u with
    skills := upsert skillSeries serId (moreSkill num) (newSkill env dataId num u.made) u.skills
    made := if serId ∈ u.skills.map skillSeries then u.made else u.made + 1 }

/-- The skills that a first grant asks for; a later one asks for none. -/
def gainedSkills (hero : HeroRow) (u : User) : Option (List ℤ) :=
  if Macro_GetCardSerialId dataId ∈ u.cards.map cardSeries then some []
  else autoSkills env (some hero) env.data.autoGainSkills

variable {num}

theorem addCard_eq (hnum : 0 < num) (u : User) : Agent.addCard env dataId num u =
    (env.data.heroRepository dataId).bind fun hero =>
      (gainedSkills env dataId hero u).map fun gained =>
        ((), withCard env dataId num hero gained u) := by
  have hpos : ¬ num ≤ 0 := not_le.mpr hnum
  unfold Agent.addCard
  rw [if_neg hpos]
  simp only [bind, StateT.bind, get, getThe, MonadStateOf.get, StateT.get, pure, Option.bind_some]
  cases hi : getCardBySerialId u.cards (Macro_GetCardSerialId dataId) with
  | some i =>
      cases hrow : env.data.heroRepository dataId with
      | none => rfl
      | some hero =>
          obtain ⟨hmem, hupsert⟩ := card_found hi (moreCard num hero)
            (newCard env dataId num hero [] u.made)
          simp only [Option.bind_some, gainedSkills, if_pos hmem, Option.map_some,
            withCard, hupsert]
          rfl
  | none =>
      simp only [bind, StateT.bind, initCard]
      cases hrow : env.data.heroRepository dataId with
      | none => cases autoSkills env none env.data.autoGainSkills <;> rfl
      | some hero =>
          have hnot : Macro_GetCardSerialId dataId ∉ u.cards.map cardSeries :=
            findIdx?_eq_none.mp hi
          simp only [Option.bind_some, gainedSkills, if_neg hnot, withCard]
          cases autoSkills env (some hero) env.data.autoGainSkills with
          | none => rfl
          | some gained =>
              rw [Option.map_some, (card_absent hi _ _).2]
              rfl

theorem addSkill_eq (hnum : 0 < num) (u : User) : Agent.addSkill env dataId num u =
    some ((), withSkill env dataId num u) := by
  have hpos : ¬ num ≤ 0 := not_le.mpr hnum
  unfold Agent.addSkill
  rw [if_neg hpos]
  simp only [bind, StateT.bind, get, getThe, MonadStateOf.get, StateT.get, pure, Option.bind_some]
  cases hi : getSkillBySerialId u.skills (Macro_GetSkillSerialId dataId) with
  | some i =>
      obtain ⟨hmem, hupsert⟩ := skill_found hi (moreSkill num) (newSkill env dataId num u.made)
      simp only [withSkill, if_pos hmem, hupsert]
      rfl
  | none =>
      obtain ⟨hnot, hupsert⟩ := skill_absent hi (moreSkill num) (newSkill env dataId num u.made)
      simp only [withSkill, if_neg hnot, hupsert]
      rfl

end Grants

/-! ## Distinct series -/

/-- No series twice; the identifiers are keys, and those still to come are new. -/
structure Distinct {α : Type} (series : α → ℤ) (id : α → String) (fresh : ℕ → String) (made : ℕ)
    (l : List α) : Prop where
  series_nodup : (l.map series).Nodup
  ids_nodup : (l.map id).Nodup
  ids_fresh : ∀ n, made ≤ n → fresh n ∉ l.map id

namespace Distinct

variable {α : Type} {series : α → ℤ} {id : α → String} {fresh : ℕ → String} {made made' : ℕ}
  {l l' : List α} {k : ℤ} {f : α → α} {new : α}

theorem of_maps (h : Distinct series id fresh made l) (hseries : l'.map series = l.map series)
    (hids : l'.map id = l.map id) : Distinct series id fresh made l' :=
  ⟨hseries ▸ h.series_nodup, hids ▸ h.ids_nodup, fun n hn => hids ▸ h.ids_fresh n hn⟩

theorem later (h : Distinct series id fresh made l) (hle : made ≤ made') :
    Distinct series id fresh made' l :=
  ⟨h.series_nodup, h.ids_nodup, fun n hn => h.ids_fresh n (hle.trans hn)⟩

theorem append (h : Distinct series id fresh made l) (hfresh : Function.Injective fresh)
    (hseries : series new ∉ l.map series) (hid : id new = fresh made) :
    Distinct series id fresh (made + 1) (l ++ [new]) where
  series_nodup := by
    rw [List.map_append]
    exact List.nodup_append_comm.mp (List.nodup_cons.mpr ⟨hseries, h.series_nodup⟩)
  ids_nodup := by
    rw [List.map_append]
    exact List.nodup_append_comm.mp
      (List.nodup_cons.mpr ⟨hid ▸ h.ids_fresh made le_rfl, h.ids_nodup⟩)
  ids_fresh n hn hmem := by
    rw [List.map_append, List.mem_append] at hmem
    rcases hmem with hmem | hmem
    · exact h.ids_fresh n (by omega) hmem
    · have heq := hfresh ((List.mem_singleton.mp hmem).trans hid)
      omega

theorem upsert (h : Distinct series id fresh made l) (hfresh : Function.Injective fresh)
    (hf : ∀ v, series (f v) = series v) (hfid : ∀ v, id (f v) = id v) (hnew : series new = k)
    (hid : id new = fresh made) :
    Distinct series id fresh (if k ∈ l.map series then made else made + 1)
      (Upsert.upsert series k f new l) := by
  by_cases hmem : k ∈ l.map series
  · rw [if_pos hmem]
    exact h.of_maps (map_upsert_of_mem series hf hmem) (map_upsert_of_mem id hfid hmem)
  · rw [if_neg hmem, upsert_of_none (findIdx?_eq_none.mpr hmem)]
    exact h.append hfresh (hnew ▸ hmem) hid

/-- A change of one entry that keeps its series. -/
theorem change (h : Distinct series id fresh made l) {uuid : String} {v : α}
    (hv : l.find? (fun v => id v = uuid) = some v) (hf : series (f v) = series v)
    (hfid : ∀ v, id (f v) = id v) :
    Distinct series id fresh made (l.map fun v => if id v = uuid then f v else v) := by
  have hkey : id v = uuid := by simpa using List.find?_some hv
  have hmem := List.mem_of_find?_eq_some hv
  refine h.of_maps ?_ ?_
  · rw [List.map_map]
    refine List.map_congr_left fun u hu => ?_
    by_cases hid : id u = uuid
    · have heq : u = v := List.inj_on_of_nodup_map h.ids_nodup hu hmem (hid.trans hkey.symm)
      rw [Function.comp_apply, if_pos hid, heq, hf]
    · rw [Function.comp_apply, if_neg hid]
  · rw [List.map_map]
    refine List.map_congr_left fun u _ => ?_
    by_cases hid : id u = uuid
    · rw [Function.comp_apply, if_pos hid, hfid]
    · rw [Function.comp_apply, if_neg hid]

end Distinct

/-- The units of an agent. -/
structure Units (fresh : ℕ → String) (u : User) : Prop where
  cards : Distinct cardSeries Card.uuid fresh u.made u.cards
  skills : Distinct skillSeries Skill.uuid fresh u.made u.skills

/-! ## Requests -/

/-- `delCardByDataId` of the cards; it looks for the serial id among the data ids. -/
def delCardByDataId {w : World} {τ η : Type} (op : τ) (dataId num : ℤ) : Code w τ η Unit := do
  let s ← get
  match s.user.cards.find? fun v => v.dataId = Macro_GetCardSerialId dataId with
  | none => .raise
  | some v => Cards.delCardByUuid op v.uuid num

def delSkillByDataId {w : World} {τ η : Type} (op : τ) (dataId num : ℤ) : Code w τ η Unit := do
  if num ≤ 0 then return
  let s ← get
  match s.user.skills.find? fun v => v.dataId = dataId with
  | none => return
  | some v => Skills.delSkillByUuid op v.uuid num

inductive Request
  | addCard (dataId num : ℤ)
  | addSkill (dataId num : ℤ)
  | delCardByUuid (uuid : String) (num : ℤ)
  | delCardByDataId (dataId num : ℤ)
  | delSkillByUuid (uuid : String) (num : ℤ)
  | delSkillByDataId (dataId num : ℤ)
  | updateCard (uuid : String) (dataId : ℤ)
  | updateSkill (uuid : String) (dataId : ℤ)
  deriving DecidableEq

abbrev State (w : World) := Session w Request Unit

def handle (w : World) (r : Request) : Code w Request Unit Unit :=
  match r with
  | .addCard dataId num => Cards.addCard r dataId num
  | .addSkill dataId num => Skills.addSkill r dataId num
  | .delCardByUuid uuid num => Cards.delCardByUuid r uuid num
  | .delCardByDataId dataId num => delCardByDataId r dataId num
  | .delSkillByUuid uuid num => Skills.delSkillByUuid r uuid num
  | .delSkillByDataId dataId num => delSkillByDataId r dataId num
  | .updateCard uuid dataId => Cards.updateDataId r uuid dataId
  | .updateSkill uuid dataId => Skills.updateDataId r uuid dataId

def server (w : World) : Server (State w) Request Request Empty where
  handle := handle w
  outside := Empty.rec

/-- A new row is of the series of the unit. -/
def KeepsSeries (u : User) : Request → Prop
  | .updateCard uuid dataId =>
      ∀ v ∈ Cards.getCardByUuid u.cards uuid, Macro_GetCardSerialId dataId = cardSeries v
  | .updateSkill uuid dataId =>
      ∀ v ∈ Skills.getSkillByUuid u.skills uuid, Macro_GetSkillSerialId dataId = skillSeries v
  | _ => True

/-- Any request at any time, as long as the rows keep their series. -/
def guard (w : World) : Server.Guard (State w) Request Request Empty where
  request s _ r := KeepsSeries s.user r
  resume _ _ _ := True
  outside _ _ _ := True

section Runs

variable {w : World} {s s' : State w} {op : Request}

/-- What every write keeps. -/
def Keeps (s s' : State w) : Prop := Units w.uuid s.user → Units w.uuid s'.user

theorem stays_advance (content : MissionContent) :
    (Missions.AdvanceMission op content : Code w Request Unit Unit).Stays Set.univ Keeps True :=
  (stays_AdvanceMission content fun _ _ => .inr trivial).mono (Set.subset_univ _)
    (fun s s' h hs => by
      obtain ⟨⟨missions, completed, rfl⟩, -⟩ := h
      exact hs) id

theorem stays_addAExp (exp : ℤ) :
    (Account.addAExp op exp : Code w Request Unit Unit).Stays Set.univ Keeps True := by
  unfold Account.addAExp
  split
  · exact stays_pure ()
  · exact stays_call (Set.mem_univ op)

theorem stays_addCard' (hfresh : Function.Injective w.uuid) (dataId num : ℤ) :
    (Cards.addCard op dataId num : Code w Request Unit Unit).Stays Set.univ Keeps True := by
  unfold Cards.addCard
  split
  · exact stays_pure ()
  · next hnum =>
      refine stays_act_bind trivial fun s _ user h => ⟨fun hs => ?_, ?_⟩
      · rw [addCard_eq _ _ (not_le.mp hnum)] at h
        obtain ⟨hero, -, h⟩ := Option.bind_eq_some_iff.mp h
        obtain ⟨gained, -, h⟩ := Option.map_eq_some_iff.mp h
        obtain rfl := (Prod.mk.inj h).2
        refine ⟨hs.cards.upsert hfresh (fun _ => rfl) (fun _ => rfl) rfl rfl, hs.skills.later ?_⟩
        dsimp only [withCard]
        split_ifs <;> omega
      · exact (stays_call (Set.mem_univ op)).bind (fun _ => stays_advance _) _

theorem stays_addSkill' (hfresh : Function.Injective w.uuid) (dataId num : ℤ) :
    (Skills.addSkill op dataId num : Code w Request Unit Unit).Stays Set.univ Keeps True := by
  unfold Skills.addSkill
  split
  · exact stays_pure ()
  · next hnum =>
      refine stays_act_bind trivial fun s _ user h => ⟨fun hs => ?_, ?_⟩
      · rw [addSkill_eq _ _ (not_le.mp hnum)] at h
        obtain rfl := (Prod.mk.inj (Option.some.inj h)).2
        refine ⟨hs.cards.later ?_, hs.skills.upsert hfresh (fun _ => rfl) (fun _ => rfl) rfl rfl⟩
        dsimp only [withSkill]
        split_ifs <;> omega
      · exact (stays_call (Set.mem_univ op)).bind
          (fun _ => (stays_advance _).bind fun _ => stays_advance _) _

theorem stays_delCardByUuid (uuid : String) (num : ℤ) :
    (Cards.delCardByUuid op uuid num : Code w Request Unit Unit).Stays Set.univ Keeps True := by
  refine stays_get_bind fun s => ?_
  cases hv : Cards.getCardByUuid s.user.cards uuid with
  | none => exact stays_pure () s
  | some v =>
      dsimp only
      split
      · exact stays_pure () s
      · exact ⟨fun hs => ⟨hs.cards.change hv rfl fun _ => rfl, hs.skills⟩,
          (stays_call (Set.mem_univ op)).bind (fun _ => stays_addAExp _) _⟩

theorem stays_delCardByDataId (dataId num : ℤ) :
    (delCardByDataId op dataId num : Code w Request Unit Unit).Stays Set.univ Keeps True := by
  refine stays_get_bind fun s => ?_
  split
  · exact stays_raise trivial s
  · exact stays_delCardByUuid _ num s

theorem stays_delSkillByUuid (uuid : String) (num : ℤ) :
    (Skills.delSkillByUuid op uuid num : Code w Request Unit Unit).Stays Set.univ Keeps True := by
  refine stays_get_bind fun s => ?_
  cases hv : Skills.getSkillByUuid s.user.skills uuid with
  | none => exact stays_pure () s
  | some v =>
      dsimp only
      split
      · exact stays_pure () s
      · refine ⟨fun hs => ⟨hs.cards, hs.skills.change hv rfl fun _ => rfl⟩,
          (stays_call (Set.mem_univ op)).bind (fun _ => stays_get_bind fun s => ?_) _⟩
        split
        · exact stays_raise trivial s
        · exact stays_addAExp _ s

theorem stays_delSkillByDataId (dataId num : ℤ) :
    (delSkillByDataId op dataId num : Code w Request Unit Unit).Stays Set.univ Keeps True := by
  unfold delSkillByDataId
  split
  · exact stays_pure ()
  · refine stays_get_bind fun s => ?_
    split
    · exact stays_pure () s
    · exact stays_delSkillByUuid _ num s

theorem staysFrom_get_bind {f : State w → Code w Request Unit Unit}
    (h : (f s).StaysFrom Set.univ Keeps True s) :
    (get >>= f : Code w Request Unit Unit).StaysFrom Set.univ Keeps True s := h

theorem stays_updateCard {uuid : String} {dataId : ℤ}
    (h : KeepsSeries s.user (.updateCard uuid dataId)) :
    (Cards.updateDataId op uuid dataId : Code w Request Unit Unit).StaysFrom Set.univ Keeps True
      s := by
  refine staysFrom_get_bind ?_
  cases hv : Cards.getCardByUuid s.user.cards uuid with
  | none => exact stays_raise trivial s
  | some v =>
      exact ⟨fun hs => ⟨hs.cards.change hv (h v hv) fun _ => rfl, hs.skills⟩,
        (stays_call (Set.mem_univ op)).bind (fun _ => stays_advance _) _⟩

theorem stays_updateSkill {uuid : String} {dataId : ℤ}
    (h : KeepsSeries s.user (.updateSkill uuid dataId)) :
    (Skills.updateDataId op uuid dataId : Code w Request Unit Unit).StaysFrom Set.univ Keeps True
      s := by
  refine staysFrom_get_bind ?_
  cases hv : Skills.getSkillByUuid s.user.skills uuid with
  | none => exact stays_raise trivial s
  | some v =>
      exact ⟨fun hs => ⟨hs.cards, hs.skills.change hv (h v hv) fun _ => rfl⟩,
        (stays_call (Set.mem_univ op)).bind
          (fun _ => (stays_advance _).bind fun _ => stays_advance _) _⟩

theorem stays_handle (hfresh : Function.Injective w.uuid) {r : Request}
    (h : KeepsSeries s.user r) : (handle w r).StaysFrom Set.univ Keeps True s := by
  cases r with
  | addCard dataId num => exact stays_addCard' hfresh dataId num s
  | addSkill dataId num => exact stays_addSkill' hfresh dataId num s
  | delCardByUuid uuid num => exact stays_delCardByUuid uuid num s
  | delCardByDataId dataId num => exact stays_delCardByDataId dataId num s
  | delSkillByUuid uuid num => exact stays_delSkillByUuid uuid num s
  | delSkillByDataId dataId num => exact stays_delSkillByDataId dataId num s
  | updateCard uuid dataId => exact stays_updateCard h
  | updateSkill uuid dataId => exact stays_updateSkill h

/-- However the requests interleave, no series is owned twice. -/
theorem units_of_runs (hfresh : Function.Injective w.uuid) {s₀ : State w}
    (hstart : Units w.uuid s₀.user) {p : Pool (State w) Request}
    (h : ((server w).system s₀).Runs (guard w).Admits p) : Units w.uuid p.shared.user := by
  refine Server.invariant (fun s _ => Units w.uuid s.user) hstart (fun s m r hs hr => ?_)
    (fun _ _ e _ _ => e.elim) h
  exact (stays_handle hfresh hr).safe_apart (fun _ _ _ _ => Iff.rfl)
    (fun _ _ _ hkeeps hs => hkeeps hs) hs

end Runs

/-! ## Two grants -/

section Twice

theorem mClamp_of_nonneg {x : ℤ} (hx : 0 ≤ x) (M : ℤ) : mClamp x 0 M = min x M := by
  unfold mClamp
  split_ifs <;> omega

theorem mClamp_add {x p q M : ℤ} (hx : 0 ≤ x) (hp : 0 ≤ p) (hq : 0 ≤ q) (hM : 0 ≤ M)
    (hsum : x + p + q < 2 ^ 63) :
    mClamp (wrap (mClamp (wrap (x + p)) 0 M + q)) 0 M = mClamp (wrap (x + (p + q))) 0 M := by
  have hfirst : wrap (x + p) = x + p := wrap_of_range (by omega) (by omega)
  have hboth : wrap (x + (p + q)) = x + (p + q) := wrap_of_range (by omega) (by omega)
  have hclamp : mClamp (x + p) 0 M = min (x + p) M := mClamp_of_nonneg (by omega) M
  have hsecond : wrap (min (x + p) M + q) = min (x + p) M + q :=
    wrap_of_range (by omega) (by omega)
  rw [hfirst, hboth, hclamp, hsecond, mClamp_of_nonneg (by omega), mClamp_of_nonneg (by omega)]
  omega

/-- The count of the card of a series. -/
def cardCount (u : User) (dataId : ℤ) : ℤ :=
  (lookup cardSeries (Macro_GetCardSerialId dataId) u.cards).elim 0 Card.count

def skillCount (u : User) (dataId : ℤ) : ℤ :=
  (lookup skillSeries (Macro_GetSkillSerialId dataId) u.skills).elim 0 Skill.count

/-- The numbers of a grant are Lua integers, and the count is not negative. -/
structure CardFits (env : Env) (u : User) (dataId num : ℤ) : Prop where
  count_nonneg : 0 ≤ cardCount u dataId
  hero_nonneg : ∀ hero ∈ env.data.heroRepository dataId, 0 ≤ hero.n32CCardNum
  sum_lt : ∀ hero ∈ env.data.heroRepository dataId,
    cardCount u dataId + hero.n32CCardNum * num < 2 ^ 63

structure SkillFits (u : User) (dataId num : ℤ) : Prop where
  count_nonneg : 0 ≤ skillCount u dataId
  sum_lt : skillCount u dataId + num < 2 ^ 63

variable {env : Env} {u : User} {dataId a b : ℤ} {hero : HeroRow}

theorem moreCard_moreCard {v : Card} (hv : 0 ≤ v.count) (ha : 1 ≤ a) (hb : 1 ≤ b)
    (hhero : 0 ≤ hero.n32CCardNum) (hsum : v.count + hero.n32CCardNum * (a + b) < 2 ^ 63) :
    moreCard b hero (moreCard a hero v) = moreCard (a + b) hero v := by
  have hp : 0 ≤ hero.n32CCardNum * a := mul_nonneg hhero (by omega)
  have hq : 0 ≤ hero.n32CCardNum * b := mul_nonneg hhero (by omega)
  rw [mul_add] at hsum
  unfold moreCard
  dsimp only
  rw [mul_add, mClamp_add hv hp hq (by decide) (by omega)]

theorem moreCard_newCard (gained : List ℤ) (made : ℕ) (ha : 1 ≤ a) (hb : 1 ≤ b)
    (hhero : 0 ≤ hero.n32CCardNum) (hsum : hero.n32CCardNum * (a + b) < 2 ^ 63) :
    moreCard b hero (newCard env dataId a hero gained made) =
      newCard env dataId (a + b) hero gained made := by
  have hq : 0 ≤ hero.n32CCardNum * b := mul_nonneg hhero (by omega)
  have hfirst : ∀ n, 0 ≤ n → n ≤ a →
      mClamp (wrap (mClamp (wrap (n * hero.n32CCardNum)) 0 maxint32 + hero.n32CCardNum * b)) 0
        maxint32 = mClamp (wrap ((n + b) * hero.n32CCardNum)) 0 maxint32 := by
    intro n hn hna
    have hp : 0 ≤ n * hero.n32CCardNum := mul_nonneg hn hhero
    have hle : n * hero.n32CCardNum ≤ a * hero.n32CCardNum := mul_le_mul_of_nonneg_right hna hhero
    have hadd := mClamp_add le_rfl hp hq (M := maxint32) (by decide) (by linarith)
    rw [zero_add, zero_add] at hadd
    rw [hadd]
    congr 2
    ring
  unfold moreCard newCard
  dsimp only
  split_ifs with hcolor
  · rw [hfirst a (by omega) le_rfl]
  · rw [hfirst (a - 1) (by omega) (by omega), sub_add_eq_add_sub]

theorem cardCount_of_lookup {v : Card}
    (hv : lookup cardSeries (Macro_GetCardSerialId dataId) u.cards = some v) :
    cardCount u dataId = v.count := by
  rw [cardCount, hv]
  rfl

theorem withCard_withCard {gained : List ℤ} (ha : 1 ≤ a) (hb : 1 ≤ b)
    (hhero : 0 ≤ hero.n32CCardNum) (hcount : 0 ≤ cardCount u dataId)
    (hsum : cardCount u dataId + hero.n32CCardNum * (a + b) < 2 ^ 63) :
    withCard env dataId b hero [] (withCard env dataId a hero gained u) =
      withCard env dataId (a + b) hero gained u := by
  have hf : ∀ v, cardSeries (moreCard a hero v) = cardSeries v := fun _ => rfl
  have hnew : cardSeries (newCard env dataId a hero gained u.made) =
    Macro_GetCardSerialId dataId := rfl
  have hmem : Macro_GetCardSerialId dataId ∈
      (withCard env dataId a hero gained u).cards.map cardSeries := mem_map_upsert hf hnew u.cards
  have hcards : (withCard env dataId b hero [] (withCard env dataId a hero gained u)).cards =
      (withCard env dataId (a + b) hero gained u).cards := by
    dsimp only [withCard]
    rw [upsert_upsert hf hnew, moreCard_newCard gained u.made ha hb hhero (by omega)]
    refine upsert_congr fun v hv => ?_
    have hv' := cardCount_of_lookup hv
    exact moreCard_moreCard (by omega) ha hb hhero (by omega)
  have hmade : (withCard env dataId b hero [] (withCard env dataId a hero gained u)).made =
      (withCard env dataId (a + b) hero gained u).made := if_pos hmem
  change ({ u with
    cards := (withCard env dataId b hero [] (withCard env dataId a hero gained u)).cards
    made := (withCard env dataId b hero [] (withCard env dataId a hero gained u)).made } :
      User) = _
  rw [hcards, hmade]
  rfl

theorem addCard_twice (ha : 1 ≤ a) (hb : 1 ≤ b) (hfits : CardFits env u dataId (a + b)) :
    (do Agent.addCard env dataId a; Agent.addCard env dataId b) u =
      Agent.addCard env dataId (a + b) u := by
  change (Agent.addCard env dataId a u).bind (fun r => Agent.addCard env dataId b r.2) = _
  rw [addCard_eq env dataId (by omega), addCard_eq env dataId (by omega)]
  cases hrow : env.data.heroRepository dataId with
  | none => rfl
  | some hero =>
      have hhero := hfits.hero_nonneg hero hrow
      have hsum := hfits.sum_lt hero hrow
      have hcount := hfits.count_nonneg
      simp only [Option.bind_some]
      cases hgained : gainedSkills env dataId hero u with
      | none => rfl
      | some gained =>
          have hmem : Macro_GetCardSerialId dataId ∈
              (withCard env dataId a hero gained u).cards.map cardSeries := by
            have hf : ∀ v, cardSeries (moreCard a hero v) = cardSeries v := fun _ => rfl
            have hnew : cardSeries (newCard env dataId a hero gained u.made) =
              Macro_GetCardSerialId dataId := rfl
            exact mem_map_upsert hf hnew u.cards
          have hagain : gainedSkills env dataId hero (withCard env dataId a hero gained u) =
              some [] := if_pos hmem
          rw [Option.map_some, Option.bind_some, addCard_eq env dataId (by omega), hrow,
            Option.bind_some, hagain, Option.map_some, Option.map_some,
            withCard_withCard ha hb hhero (by omega) (by omega)]

theorem skillCount_of_lookup {v : Skill}
    (hv : lookup skillSeries (Macro_GetSkillSerialId dataId) u.skills = some v) :
    skillCount u dataId = v.count := by
  rw [skillCount, hv]
  rfl

theorem withSkill_withSkill (ha : 1 ≤ a) (hb : 1 ≤ b) (hfits : SkillFits u dataId (a + b)) :
    withSkill env dataId b (withSkill env dataId a u) = withSkill env dataId (a + b) u := by
  have hcount := hfits.count_nonneg
  have hsum := hfits.sum_lt
  have hf : ∀ v, skillSeries (moreSkill a v) = skillSeries v := fun _ => rfl
  have hnew : skillSeries (newSkill env dataId a u.made) = Macro_GetSkillSerialId dataId := rfl
  have hmem : Macro_GetSkillSerialId dataId ∈
      (withSkill env dataId a u).skills.map skillSeries := mem_map_upsert hf hnew u.skills
  have hfirst : moreSkill b (newSkill env dataId a u.made) =
      newSkill env dataId (a + b) u.made := by
    unfold moreSkill newSkill
    dsimp only
    rw [wrap_of_range (by omega) (by omega), mClamp_of_nonneg (by omega), maxinteger]
    congr 1
    omega
  have hskills : (withSkill env dataId b (withSkill env dataId a u)).skills =
      (withSkill env dataId (a + b) u).skills := by
    dsimp only [withSkill]
    rw [upsert_upsert hf hnew, hfirst]
    refine upsert_congr fun v hv => ?_
    have hv' := skillCount_of_lookup hv
    unfold moreSkill
    dsimp only
    rw [mClamp_add (by omega) (by omega) (by omega) (by decide) (by omega)]
  have hmade : (withSkill env dataId b (withSkill env dataId a u)).made =
      (withSkill env dataId (a + b) u).made := if_pos hmem
  change ({ u with
    skills := (withSkill env dataId b (withSkill env dataId a u)).skills
    made := (withSkill env dataId b (withSkill env dataId a u)).made } : User) = _
  rw [hskills, hmade]
  rfl

theorem addSkill_twice (ha : 1 ≤ a) (hb : 1 ≤ b) (hfits : SkillFits u dataId (a + b)) :
    (do Agent.addSkill env dataId a; Agent.addSkill env dataId b) u =
      Agent.addSkill env dataId (a + b) u := by
  change (Agent.addSkill env dataId a u).bind (fun r => Agent.addSkill env dataId b r.2) = _
  rw [addSkill_eq env dataId (by omega), addSkill_eq env dataId (by omega), Option.bind_some,
    addSkill_eq env dataId (by omega), withSkill_withSkill ha hb hfits]

/-- In every state of every run of grants, deletions and upgrades no series is owned twice; and two
grants of a card or of a skill leave what one grant of both numbers leaves, an error included. -/
theorem one_per_series {w : World} (hfresh : Function.Injective w.uuid) {s₀ : State w}
    (hstart : Units w.uuid s₀.user) :
    (∀ p, ((server w).system s₀).Runs (guard w).Admits p →
      (p.shared.user.cards.map cardSeries).Nodup ∧
        (p.shared.user.skills.map skillSeries).Nodup) ∧
    (∀ env u dataId a b, 1 ≤ a → 1 ≤ b → CardFits env u dataId (a + b) →
      (do Agent.addCard env dataId a; Agent.addCard env dataId b) u =
        Agent.addCard env dataId (a + b) u) ∧
    (∀ env u dataId a b, 1 ≤ a → 1 ≤ b → SkillFits u dataId (a + b) →
      (do Agent.addSkill env dataId a; Agent.addSkill env dataId b) u =
        Agent.addSkill env dataId (a + b) u) := by
  refine ⟨fun p hp => ?_, fun env u dataId a b ha hb => addCard_twice ha hb,
    fun env u dataId a b ha hb => addSkill_twice ha hb⟩
  have hunits := units_of_runs hfresh hstart hp
  exact ⟨hunits.cards.series_nodup, hunits.skills.series_nodup⟩

end Twice

/-- A world that numbers its units, with one hero. -/
def numbered : World := { (default : World) with
  heroRepository := fun id => if id = 100 then some ⟨2, 1⟩ else none
  heroDat := fun id => if id = 100 then some ⟨⟨2, 1⟩, 0, 0, 0, 0⟩ else none
  hero_row := fun id => by split_ifs <;> rfl
  skill_row := default_skill_row
  uuid := fun n => String.ofList (List.replicate n 'u') }

/-- A player without cards and skills. -/
def beginner : State numbered := default

theorem units_beginner : Units numbered.uuid beginner.user where
  cards := ⟨List.nodup_nil, List.nodup_nil, fun _ _ => List.not_mem_nil⟩
  skills := ⟨List.nodup_nil, List.nodup_nil, fun _ _ => List.not_mem_nil⟩

theorem one_per_series_beginner :
    (∀ p, ((server numbered).system beginner).Runs (guard numbered).Admits p →
      (p.shared.user.cards.map cardSeries).Nodup ∧
        (p.shared.user.skills.map skillSeries).Nodup) ∧
    (do Agent.addCard (numbered.env ⟨0, 0, 0⟩) 100 3; Agent.addCard (numbered.env ⟨0, 0, 0⟩) 100 4)
        beginner.user =
      Agent.addCard (numbered.env ⟨0, 0, 0⟩) 100 7 beginner.user := by
  have hfresh : Function.Injective numbered.uuid := fun m n h => by
    simpa using congrArg List.length (String.ofList_injective h)
  have hall := one_per_series hfresh units_beginner
  refine ⟨hall.1, hall.2.1 _ beginner.user 100 3 4 (by decide) (by decide) ⟨le_rfl, ?_, ?_⟩⟩
  · rintro _ ⟨⟩
    decide
  · rintro _ ⟨⟩
    decide

def wide : Env := numbered.env ⟨0, 0, 0⟩

/-- A player with one card of the hero, with a count. -/
def counting (count : ℤ) : User :=
  { (default : User) with cards := [{ uuid := "c", dataId := 100, count, skills := [] }] }

/-- Beyond the Lua integers the clamp does not help: the first product wraps below zero. And a count
below zero is clamped once or twice. -/
theorem addCard_twice_overflow :
    (¬ ∀ env (u : User) dataId a b, 1 ≤ a → 1 ≤ b →
      (∀ hero ∈ env.data.heroRepository dataId, 0 ≤ hero.n32CCardNum) →
      (∀ v ∈ u.cards, 0 ≤ v.count) →
      ((do Agent.addCard env dataId a; Agent.addCard env dataId b) u).map
          (fun r : Unit × User => r.2.cards.map Card.count) =
        (Agent.addCard env dataId (a + b) u).map
          fun r : Unit × User => r.2.cards.map Card.count) ∧
    ¬ ∀ env (u : User) dataId a b, 1 ≤ a → 1 ≤ b →
      (∀ hero ∈ env.data.heroRepository dataId, 0 ≤ hero.n32CCardNum ∧
        hero.n32CCardNum * (a + b) < 2 ^ 31) →
      ((do Agent.addCard env dataId a; Agent.addCard env dataId b) u).map
          (fun r : Unit × User => r.2.cards.map Card.count) =
        (Agent.addCard env dataId (a + b) u).map
          fun r : Unit × User => r.2.cards.map Card.count := by
  constructor
  · intro hall
    have h := hall wide (counting 0) 100 (2 ^ 62) 1 (by decide) (by decide)
      (by rintro _ ⟨⟩; decide) (by decide)
    exact absurd h (by decide)
  · intro hall
    have h := hall wide (counting (-5)) 100 1 1 (by decide) (by decide)
      (by rintro _ ⟨⟩; decide)
    exact absurd h (by decide)

end GameServer.OnePerSeries
