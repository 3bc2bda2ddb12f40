import GameServer.AgentService
import GameServer.IntTables
import Mathlib.Control.Monad.Basic

/-!
# What the methods of the agent leave alone

Advancing missions changes missions only, and handing out items changes balances, cards, skills and
missions only. Both wait at the place of their caller.
-/

/-!
## Runs that may be aborted

A run changes a state and has a result, or is aborted. The state of an aborted run is the one it had
reached by then.
-/

namespace GameServer.Abort

abbrev Run (σ α : Type) := OptionT (StateM σ) α

variable {σ α β : Type} {a : Run σ α} {f : α → Run σ β} {s s' : σ}

theorem run_bind (a : Run σ α) (f : α → Run σ β) (s : σ) : (a >>= f).run s =
    match a.run s with
    | (some x, s') => (f x).run s'
    | (none, s') => (none, s') := by
  rw [OptionT.run_bind]
  change ((a.run s).1.elim (pure none) fun x => (f x).run) (a.run s).2 = _
  cases a.run s with
  | mk x s' => cases x <;> rfl

theorem run_get_bind (f : σ → Run σ β) (s : σ) : (get >>= f : Run σ β).run s = (f s).run s := rfl

theorem run_bind_some {x : α} (h : a.run s = (some x, s')) : (a >>= f).run s = (f x).run s' := by
  rw [run_bind, h]

/-- The first part of a run that was not aborted. -/
theorem run_bind_eq_some {y : β} (h : (a >>= f).run s = (some y, s')) :
    ∃ x s₁, a.run s = (some x, s₁) ∧ (f x).run s₁ = (some y, s') := by
  rw [run_bind] at h
  split at h
  · exact ⟨_, _, ‹_›, h⟩
  · cases h

end GameServer.Abort

namespace GameServer.AgentService

open Goods Agent Cooperative Coroutine

variable {w : World} {τ η : Type} {op : τ} {E : Prop} {s s' : Session w τ η}

/-! ## Missions -/

/-- What storing a mission keeps; its row changes to the next one when it is completed. -/
structure Progress (s s' : Session w τ η) : Prop where
  completed : s.completed ⊆ s'.completed
  absent : ∀ serId, Missions.getMission s.missions serId = none →
    Missions.getMission s'.missions serId = none
  found : ∀ serId v, Missions.getMission s.missions serId = some v →
    ∃ v', Missions.getMission s'.missions serId = some v' ∧ v'.flag = v.flag ∧ v'.time = v.time ∧
      (v'.dataId = v.dataId ∨ v'.dataId = v.dataId + 1 ∧ (serId, v.dataId) ∈ s'.completed)

theorem Progress.of_same (hmissions : s'.missions = s.missions)
    (hcompleted : s'.completed = s.completed) : Progress s s' where
  completed := by rw [hcompleted]; exact List.Subset.refl _
  absent serId h := hmissions ▸ h
  found serId v h := ⟨v, hmissions ▸ h, rfl, rfl, .inl rfl⟩

structure OnlyMissions (s s' : Session w τ η) : Prop where
  rest : ∃ missions completed, s' = { s with missions, completed }
  progress : Progress s s'

theorem getMission_setMission (missions : List (ℤ × Mission w)) (serId serId' : ℤ) (v : Mission w) :
    Missions.getMission (Missions.setMission missions serId v) serId' =
      if serId' = serId then (Missions.getMission missions serId').map fun _ => v
      else Missions.getMission missions serId' := by
  induction missions with
  | nil => simp [Missions.getMission, Missions.setMission]
  | cons e missions ih =>
      simp only [Missions.getMission, Missions.setMission, List.map_cons] at ih ⊢
      by_cases he : e.1 = serId' <;> by_cases hs : e.1 = serId
      · obtain rfl : serId' = serId := he.symm.trans hs
        simp [hs]
      · have hne : serId' ≠ serId := fun heq => hs (he.trans heq)
        simp [he, hne]
      · have hne : serId ≠ serId' := fun heq => he (hs.trans heq)
        simpa [he, hs, hne] using ih
      · simpa [he, hs] using ih

/-- A mission is stored with a new progress, or in its next row. -/
theorem Progress.store {serId : ℤ} {v v' : Mission w} {completed : List (ℤ × ℤ)}
    (h : Missions.getMission s.missions serId = some v) (hcompleted : s.completed ⊆ completed)
    (hflag : v'.flag = v.flag) (htime : v'.time = v.time)
    (hrow : v'.dataId = v.dataId ∨ v'.dataId = v.dataId + 1 ∧ (serId, v.dataId) ∈ completed) :
    Progress s { s with missions := Missions.setMission s.missions serId v', completed } where
  completed := hcompleted
  absent serId' hnone := by
    rw [getMission_setMission, hnone]
    simp
  found serId' u hu := by
    rw [getMission_setMission, hu]
    by_cases hser : serId' = serId
    · subst hser
      obtain rfl := Option.some.inj (h.symm.trans hu)
      exact ⟨v', by simp, hflag, htime, hrow⟩
    · exact ⟨u, by simp [hser], rfl, rfl, .inl rfl⟩

theorem next_spec (v : Mission w) : (Missions.next v).flag = v.flag ∧
    (Missions.next v).time = v.time ∧ ((Missions.next v).dataId = v.dataId ∨
      (Missions.next v).dataId = v.dataId + 1 ∧
      Missions.isMissionCompleted (Missions.rowOf v) v) := by
  unfold Missions.next
  split_ifs with hdone
  · exact ⟨rfl, rfl, .inr ⟨rfl, hdone.2⟩⟩
  · exact ⟨rfl, rfl, .inl rfl⟩
  · exact ⟨rfl, rfl, .inl rfl⟩

theorem advance_spec {user : User} {dat : MissionRow} {v v' : Mission w} {content : MissionContent}
    {ret : Bool} (h : Missions.advance user dat v content = some (ret, v')) :
    v'.flag = v.flag ∧ v'.time = v.time ∧ v'.dataId = v.dataId := by
  unfold Missions.advance at h
  split at h
  · simp only [Option.some.injEq, Prod.mk.injEq] at h
    exact h.2 ▸ ⟨rfl, rfl, rfl⟩
  · simp only [Option.some.injEq, Prod.mk.injEq] at h
    exact h.2 ▸ ⟨rfl, rfl, rfl⟩
  · simp only [Option.some.injEq, Prod.mk.injEq] at h
    exact h.2 ▸ ⟨rfl, rfl, rfl⟩
  · split at h
    · cases h
    · split_ifs at h
      all_goals
        simp only [Option.some.injEq, Prod.mk.injEq] at h
        exact h.2 ▸ ⟨rfl, rfl, rfl⟩
  all_goals
    split_ifs at h
    all_goals
      simp only [Option.some.injEq, Prod.mk.injEq] at h
      exact h.2 ▸ ⟨rfl, rfl, rfl⟩

theorem stays_updateMission (serId : ℤ) :
    (Missions.updateMission op serId : Code w τ η Unit).Stays {op} OnlyMissions E := by
  refine Stays.bind (stays_modify fun s => ?_) fun _ => stays_call (Set.mem_singleton op)
  cases hv : Missions.getMission s.missions serId with
  | none => exact ⟨⟨s.missions, s.completed, rfl⟩, .of_same rfl rfl⟩
  | some v =>
      obtain ⟨hflag, htime, hrow⟩ := next_spec v
      refine ⟨⟨_, _, rfl⟩, .store hv (List.subset_append_left _ _) hflag htime
        (hrow.imp_right fun hnext => ⟨hnext.1, ?_⟩)⟩
      rw [if_pos hnext.2]
      exact List.mem_append_right _ (List.mem_singleton_self _)

theorem stays_advanceOne (content : MissionContent) (serId : ℤ)
    (hE : ∀ dataId, content = .UpgradeSkill dataId → (w.skillDat dataId).isSome ∨ E) :
    (Missions.advanceOne op content serId : Code w τ η Unit).Stays {op} OnlyMissions E := by
  refine stays_get_bind fun s => ?_
  cases hv : Missions.getMission s.missions serId with
  | none => exact stays_pure () s
  | some v =>
      simp only
      split
      · cases hadv : Missions.advance s.user (Missions.rowOf v) v content with
        | none =>
            cases content with
            | UpgradeSkill dataId =>
                rcases hE dataId rfl with hsome | hE
                · obtain ⟨dat, hdat⟩ := Option.isSome_iff_exists.mp hsome
                  simp only [Missions.advance, hdat] at hadv
                  split at hadv <;> simp at hadv
                · exact stays_raise hE s
            | WinFight | GetCard | GetSkill => simp [Missions.advance] at hadv
            | WinWithHero dataId | Kills num | Deads num =>
                simp only [Missions.advance] at hadv
                split at hadv <;> simp at hadv
        | some r =>
            obtain ⟨ret, v'⟩ := r
            obtain ⟨hflag, htime, hrow⟩ := advance_spec hadv
            exact ⟨⟨⟨_, s.completed, rfl⟩, .store hv (List.Subset.refl _) hflag htime (.inl hrow)⟩,
              (stays_when fun _ => stays_updateMission serId) _⟩
      · exact stays_pure () s

theorem stays_AdvanceMission (content : MissionContent)
    (hE : ∀ dataId, content = .UpgradeSkill dataId → (w.skillDat dataId).isSome ∨ E) :
    (Missions.AdvanceMission op content : Code w τ η Unit).Stays {op} OnlyMissions E :=
  stays_get_bind fun _ => (stays_forM fun serId _ => stays_advanceOne content serId hE) _

/-! ## Counters -/

/-- The counter after an addition: the sum, or what was added to a counter that did not exist. -/
theorem addValue_self (a : Agent.Activitys) (env : Env) (atype val : ℤ) (expire : Option ℤ) :
    ∃ value, a.addValue env atype val expire atype = some ⟨value, expire.getD maxinteger⟩ ∧
      (value = wrap (a.getValue env atype + val) ∨ a.getValue env atype = 0 ∧ value = val) := by
  cases h : a atype with
  | none =>
      exact ⟨val, by simp [Agent.Activitys.addValue, h],
        .inr ⟨by simp [Agent.Activitys.getValue, h], rfl⟩⟩
  | some unit =>
      refine ⟨_, by simp only [Agent.Activitys.addValue, h, Function.update_self]; rfl, .inl ?_⟩
      simp only [Agent.Activitys.getValue, h]
      split_ifs <;> first | rfl | omega

theorem addValue_of_ne (a : Agent.Activitys) (env : Env) {atype atype' val : ℤ}
    {expire : Option ℤ} (h : atype' ≠ atype) :
    a.addValue env atype val expire atype' = a atype' := by
  simp only [Agent.Activitys.addValue]
  cases a atype <;> exact Function.update_of_ne h ..

/-! ## Items -/

/-- What the user keeps while items are handed out, the balances aside. -/
structure UserGrants (u u' : User) : Prop where
  account : u'.account = u.account
  activitys : u'.activitys = u.activitys
  cooldowns : u'.cooldowns = u.cooldowns
  level : u'.level = u.level
  uuids : u.cards.map (·.uuid) <+: u'.cards.map (·.uuid)

theorem uuids_modify (cards : List Card) (i : ℕ) (f : Card → Card)
    (hf : ∀ v, (f v).uuid = v.uuid) : (cards.modify i f).map (·.uuid) = cards.map (·.uuid) := by
  refine List.ext_getElem (by simp) fun k h _ => ?_
  simp only [List.getElem_map, List.getElem_modify]
  split
  · exact hf _
  · rfl

theorem mem_of_getCardByUuid {cards : List Card} {uuid : String} {v : Card}
    (h : Cards.getCardByUuid cards uuid = some v) : uuid ∈ cards.map (·.uuid) := by
  obtain ⟨hv, -⟩ := List.find?_eq_some_iff_append.mp h
  exact List.mem_map.mpr ⟨v, List.mem_of_find?_eq_some h, of_decide_eq_true hv⟩

theorem initCard_grants {env : Env} {dataId : ℤ} {u u' : User} {v : Card}
    (h : initCard env dataId u = some (v, u')) : u' = { u with made := u.made + 1 } := by
  simp only [initCard, Option.bind_eq_bind, Option.bind_eq_some_iff, Option.some.injEq,
    Prod.mk.injEq] at h
  obtain ⟨gained, -, -, h⟩ := h
  exact h.symm

theorem addCard_grants {env : Env} {dataId num : ℤ} {u u' : User} {x : Unit}
    (h : Agent.addCard env dataId num u = some (x, u')) : UserGrants u u' := by
  unfold Agent.addCard at h
  split at h
  · simp only [pure_apply, Option.some.injEq, Prod.mk.injEq] at h
    rw [← h.2]
    exact ⟨rfl, rfl, rfl, rfl, List.prefix_refl _⟩
  · simp only [bind, StateT.bind, get, getThe, MonadStateOf.get, StateT.get, pure,
      Option.bind_some] at h
    cases hi : getCardBySerialId u.cards (Macro_GetCardSerialId dataId) with
    | some i =>
        simp only [hi] at h
        cases hrow : env.data.heroRepository dataId with
        | none => simp [hrow, Agent.fail] at h
        | some hero =>
            simp only [hrow, set_apply, Option.some.injEq, Prod.mk.injEq] at h
            rw [← h.2]
            refine ⟨rfl, rfl, rfl, rfl, [], ?_⟩
            exact (List.append_nil _).trans (uuids_modify u.cards i _ (by simp)).symm
    | none =>
        simp only [hi, bind, StateT.bind, Option.bind_eq_some_iff] at h
        obtain ⟨⟨v, u₁⟩, hinit, h⟩ := h
        cases hrow : env.data.heroRepository dataId with
        | none => simp [hrow, Agent.fail] at h
        | some hero =>
            simp only [hrow, modify, modifyGet, MonadStateOf.modifyGet, StateT.modifyGet, pure,
              Option.some.injEq, Prod.mk.injEq] at h
            rw [← h.2, initCard_grants hinit]
            exact ⟨rfl, rfl, rfl, rfl, by simp⟩

theorem addSkill_grants {env : Env} {dataId num : ℤ} {u u' : User} {x : Unit}
    (h : Agent.addSkill env dataId num u = some (x, u')) : UserGrants u u' := by
  unfold Agent.addSkill at h
  split at h
  · simp only [pure_apply, Option.some.injEq, Prod.mk.injEq] at h
    rw [← h.2]
    exact ⟨rfl, rfl, rfl, rfl, List.prefix_refl _⟩
  · simp only [bind, StateT.bind, get, getThe, MonadStateOf.get, StateT.get, pure,
      Option.bind_some] at h
    cases hi : getSkillBySerialId u.skills (Macro_GetSkillSerialId dataId) with
    | some i | none =>
        simp only [hi, set_apply, Option.some.injEq, Prod.mk.injEq] at h
        rw [← h.2]
        exact ⟨rfl, rfl, rfl, rfl, List.prefix_refl _⟩

/-- What handing out items keeps; on the ledger it only writes for its caller. -/
structure Grants (op : τ) (s s' : Session w τ η) : Prop where
  exploretimes : s'.user.account.exploretimes = s.user.account.exploretimes
  buyboxtimes : s'.user.account.buyboxtimes = s.user.account.buyboxtimes
  refreshtime : s'.user.account.refreshtime = s.user.account.refreshtime
  activitys : s'.user.activitys = s.user.activitys
  cooldowns : s'.user.cooldowns = s.user.cooldowns
  level : s'.user.level = s.user.level
  uuids : s.user.cards.map (·.uuid) <+: s'.user.cards.map (·.uuid)
  clock : s'.clock = s.clock
  mails : s'.mails = s.mails
  explores : s'.explores = s.explores
  resets : s'.resets = s.resets
  progress : Progress s s'
  history : s'.history = s.history
  ledger : ∃ l, s'.ledger = s.ledger ++ l ∧ ∀ d ∈ l, d.op = op

theorem OnlyMissions.grants (h : OnlyMissions s s') : Grants op s s' := by
  obtain ⟨⟨missions, completed, rfl⟩, hprogress⟩ := h
  exact ⟨rfl, rfl, rfl, rfl, rfl, rfl, List.prefix_rfl, rfl, rfl, rfl, rfl, hprogress, rfl, [],
    by simp⟩

theorem UserGrants.grants {u : User} (h : UserGrants s.user u) :
    Grants op s { s with user := u } :=
  ⟨by rw [h.account], by rw [h.account], by rw [h.account], h.activitys, h.cooldowns, h.level,
    h.uuids, rfl, rfl, rfl, rfl, .of_same rfl rfl, rfl, [], by simp⟩

theorem grants_setAccount {currency : Currency} {account : Agent.Account}
    (h : account.exploretimes = s.user.account.exploretimes ∧
      account.buyboxtimes = s.user.account.buyboxtimes ∧
      account.refreshtime = s.user.account.refreshtime) :
    Grants op s (s.setAccount op currency account) :=
  ⟨h.1, h.2.1, h.2.2, rfl, rfl, rfl, List.prefix_rfl, rfl, rfl, rfl, rfl, .of_same rfl rfl, rfl,
    [_], rfl, fun d hd => by rw [List.mem_singleton.mp hd]⟩

theorem addGold_quotas (a : Agent.Account) (gold : ℤ) :
    (a.addGold gold).exploretimes = a.exploretimes ∧ (a.addGold gold).buyboxtimes = a.buyboxtimes ∧
      (a.addGold gold).refreshtime = a.refreshtime := by
  unfold Agent.Account.addGold
  split <;> exact ⟨rfl, rfl, rfl⟩

theorem addMoney_quotas (a : Agent.Account) (money : ℤ) :
    (a.addMoney money).exploretimes = a.exploretimes ∧
      (a.addMoney money).buyboxtimes = a.buyboxtimes ∧
      (a.addMoney money).refreshtime = a.refreshtime := by
  unfold Agent.Account.addMoney
  split <;> exact ⟨rfl, rfl, rfl⟩

theorem stays_addGold (gold : ℤ) :
    (Account.addGold op gold : Code w τ η Unit).Stays {op} (Grants op) E := by
  unfold Account.addGold
  split
  · exact stays_pure ()
  · exact (stays_modify fun s => grants_setAccount (addGold_quotas _ _)).bind fun _ => stays_call
      (Set.mem_singleton op)

theorem stays_addMoney (money : ℤ) :
    (Account.addMoney op money : Code w τ η Unit).Stays {op} (Grants op) E := by
  unfold Account.addMoney
  split
  · exact stays_pure ()
  · exact (stays_modify fun s => grants_setAccount (addMoney_quotas _ _)).bind fun _ => stays_call
      (Set.mem_singleton op)

theorem stays_act_bind {α β : Type} {P : Set τ} {R : Session w τ η → Session w τ η → Prop}
    {a : Env → Act α} {f : α → Code w τ η β} (hE : E)
    (h : ∀ (s : Session w τ η) x user, a s.env s.user = some (x, user) →
      R s { s with user } ∧ (f x).StaysFrom P R E { s with user }) :
    (act a >>= f).Stays P R E := by
  refine stays_get_bind fun s => ?_
  simp only [Coroutine.bind]
  cases ha : a s.env s.user with
  | none => exact hE
  | some r => exact h s r.1 r.2 ha

theorem safe_act_bind {α β : Type} {inv : Session w τ η → Multiset τ → Prop}
    {ok : Session w τ η → Multiset τ → τ → Prop} {Q : β → Session w τ η → Multiset τ → Prop}
    {m : Multiset τ} {a : Env → Act α} {f : α → Code w τ η β}
    (hraise : a s.env s.user = none → inv s m)
    (h : ∀ x user, a s.env s.user = some (x, user) → (f x).Safe inv ok Q { s with user } m) :
    (act a >>= f).Safe inv ok Q s m := by
  unfold act
  change (Coroutine.bind (Coroutine.bind (.done s) _) f).Safe inv ok Q s m
  simp only [Coroutine.bind]
  cases ha : a s.env s.user with
  | none => exact hraise ha
  | some r => exact h r.1 r.2 ha

theorem stays_act {α : Type} {a : Env → Act α}
    (h : ∀ env u x u', a env u = some (x, u') → UserGrants u u')
    (hE : (∀ (c : Clock) u, a (w.env c) u ≠ none) ∨ E) :
    (act a : Code w τ η α).Stays {op} (Grants op) E := by
  refine stays_get_bind fun s => ?_
  cases ha : a s.env s.user with
  | none => exact hE.resolve_left fun htotal => htotal s.clock s.user ha
  | some r => exact ⟨(h _ _ _ _ ha).grants, trivial⟩

theorem stays_advanced (content : MissionContent)
    (hE : ∀ dataId, content = .UpgradeSkill dataId → (w.skillDat dataId).isSome ∨ E) :
    (Missions.AdvanceMission op content : Code w τ η Unit).Stays {op} (Grants op) E :=
  (stays_AdvanceMission content hE).mono subset_rfl (fun _ _ h => h.grants) id

/-- The rows that items, packages and new cards ask for exist. -/
structure Stocked (w : World) : Prop where
  hero : ∀ id item, w.itemRepository id = some item → item.n32Type = 3 →
    (w.heroDat item.n32Retain1).isSome
  skill : ∀ id item, w.itemRepository id = some item → item.n32Type = 7 →
    (w.skillDat item.n32Retain1).isSome
  autoSkill : ∀ v ∈ w.autoGainSkills, (w.skillDat v).isSome
  package : ∀ id item, w.itemRepository id = some item → item.n32Type = 4 →
    ∀ (c : Clock) level i, (usePackageItem (w.env c) id level i).isSome

theorem autoSkills_isSome {env : Env} {hero : HeroRow} {l : List ℤ}
    (h : ∀ v ∈ l, (env.data.skillRepository v).isSome) : (autoSkills env (some hero) l).isSome := by
  induction l with
  | nil => rfl
  | cons v l ih =>
      obtain ⟨skillDat, hskill⟩ := Option.isSome_iff_exists.mp (h v List.mem_cons_self)
      obtain ⟨gained, hgained⟩ := Option.isSome_iff_exists.mp
        (ih fun u hu => h u (List.mem_cons_of_mem v hu))
      simp only [autoSkills, hskill, hgained, Option.bind_eq_bind, Option.bind_some]
      split_ifs <;> rfl

theorem addCard_total (hw : Stocked w) {dataId : ℤ} (hrow : (w.heroDat dataId).isSome) (num : ℤ)
    (c : Clock) (u : User) : Agent.addCard (w.env c) dataId num u ≠ none := fun h => by
  obtain ⟨dat, hdat⟩ := Option.isSome_iff_exists.mp hrow
  have hhero : (w.env c).data.heroRepository dataId = some dat.toHeroRow := by
    change w.heroRepository dataId = _
    rw [w.hero_row, hdat, Option.map_some]
  have hauto : (autoSkills (w.env c) (some dat.toHeroRow) (w.env c).data.autoGainSkills).isSome :=
    autoSkills_isSome fun v hv => by
      change (w.skillRepository v).isSome
      rw [w.skill_row, Option.isSome_map]
      exact hw.autoSkill v hv
  obtain ⟨gained, hgained⟩ := Option.isSome_iff_exists.mp hauto
  unfold Agent.addCard at h
  split at h
  · cases h
  · simp only [bind, StateT.bind, get, getThe, MonadStateOf.get, StateT.get, pure,
      Option.bind_some] at h
    cases hi : getCardBySerialId u.cards (Macro_GetCardSerialId dataId) with
    | some i =>
        simp only [hi, hhero] at h
        cases h
    | none =>
        simp only [hi, bind, StateT.bind, initCard, hhero, hgained, Option.bind_some] at h
        cases h

theorem addSkill_total (env : Env) (dataId num : ℤ) (u : User) :
    Agent.addSkill env dataId num u ≠ none := fun h => by
  unfold Agent.addSkill at h
  split at h
  · cases h
  · simp only [bind, StateT.bind, get, getThe, MonadStateOf.get, StateT.get, pure,
      Option.bind_some] at h
    cases hi : getSkillBySerialId u.skills (Macro_GetSkillSerialId dataId) with
    | some i | none =>
        simp only [hi] at h
        cases h

theorem stays_addCard (dataId num : ℤ) (hE : Stocked w ∧ (w.heroDat dataId).isSome ∨ E) :
    (Cards.addCard op dataId num : Code w τ η Unit).Stays {op} (Grants op) E := by
  unfold Cards.addCard
  split
  · exact stays_pure ()
  · exact (stays_act (fun _ _ _ _ h => addCard_grants h)
      (hE.imp_left fun hw => addCard_total hw.1 hw.2 num)).bind fun _ =>
      (stays_call (Set.mem_singleton op)).bind fun _ => stays_advanced _ fun _ h => by cases h

theorem stays_addSkill (dataId num : ℤ) (hE : (w.skillDat dataId).isSome ∨ E) :
    (Skills.addSkill op dataId num : Code w τ η Unit).Stays {op} (Grants op) E := by
  unfold Skills.addSkill
  split
  · exact stays_pure ()
  · refine (stays_act (fun _ _ _ _ h => addSkill_grants h)
      (.inl fun c => addSkill_total (w.env c) dataId num)).bind fun _ =>
      (stays_call (Set.mem_singleton op)).bind fun _ =>
      (stays_advanced _ fun _ h => by cases h).bind fun _ => stays_advanced _ fun id h => ?_
    rwa [← MissionContent.UpgradeSkill.inj h]

/-- The rows of what was gathered exist. -/
structure Known (w : World) (g : Gathered) : Prop where
  cards : ∀ e ∈ g.cards, (w.heroDat e.1).isSome
  skillMats : ∀ e ∈ g.skillMats, (w.skillDat e.1).isSome

theorem stays_handOut (g : Gathered) (hE : Stocked w ∧ Known w g ∨ E) :
    (handOut op g : Code w τ η Unit).Stays {op} (Grants op) E := by
  unfold handOut
  refine (stays_when fun _ => stays_addGold _).bind fun _ =>
    (stays_when fun _ => stays_addMoney _).bind fun _ => Stays.bind
      (stays_forM fun e he => ?_) fun _ =>
    stays_forM fun e he => ?_
  · exact stays_addCard _ _ (hE.imp_left fun hw =>
      ⟨hw.1, hw.2.cards e ((w.pairs_perm _).mem_iff.mp he)⟩)
  · exact stays_addSkill _ _ (hE.imp_left fun hw =>
      hw.2.skillMats e ((w.pairs_perm _).mem_iff.mp he))

theorem draw_grants {α : Type} {d : Draw α} {u u' : User} {x : α} (h : draw d u = some (x, u')) :
    UserGrants u u' := by
  obtain ⟨r, -, hr⟩ := Option.map_eq_some_iff.mp h
  simp only [Prod.mk.injEq] at hr
  rw [← hr.2]
  exact ⟨rfl, rfl, rfl, rfl, List.prefix_rfl⟩

theorem stays_openPackage (k : ℤ)
    (hE : (∀ (c : Clock) level i, (usePackageItem (w.env c) k level i).isSome) ∨ E) :
    (act fun env => do draw (usePackageItem env k (← get).level) : Code w τ η IntTable).Stays
      {op} (Grants op) E := by
  refine stays_act (fun _ _ _ _ h => draw_grants h) (hE.imp_left fun hopen c u h => ?_)
  obtain ⟨r, hr⟩ := Option.isSome_iff_exists.mp (hopen c u.level u.drawn)
  change (usePackageItem (w.env c) k u.level u.drawn).map _ = none at h
  rw [hr] at h
  cases h

theorem stays_usePackageItem (k : ℤ) :
    (act fun env => do draw (usePackageItem env k (← get).level) : Code w τ η IntTable).Stays
      {op} (Grants op) True := stays_openPackage k (.inr trivial)

theorem stays_gather {again : IntTable → Code w τ η Unit}
    (h : ∀ items, (again items).Stays {op} (Grants op) E) (hE : Stocked w ∨ E) (items : IntTable)
    (g : Gathered) : (gather again items g).Stays {op} (Grants op) E := by
  induction items generalizing g with
  | nil => exact stays_pure _
  | cons e rest ih =>
      obtain ⟨k, v⟩ := e
      simp only [gather]
      split
      · exact stays_pure _
      · next item hitem =>
          split_ifs with _ hfour
          · exact ih _
          · exact (stays_openPackage k (hE.imp_left fun hw => hw.package k item hitem hfour)).bind
              fun rets => (h rets).bind fun _ => ih _
          · exact ih _
          · exact ih _
          · exact ih _
          · exact ih _

theorem yields_gather (hw : Stocked w) {again : IntTable → Code w τ η Unit} (items : IntTable)
    {g : Gathered} (hg : Known w g) :
    (gather again items g).Yields fun r => ∀ g ∈ r, Known w g := by
  induction items generalizing g with
  | nil => exact yields_pure fun g' hg' => Option.some.inj hg' ▸ hg
  | cons e rest ih =>
      obtain ⟨k, v⟩ := e
      simp only [gather]
      split
      · exact yields_pure nofun
      · next item hitem =>
          split_ifs with hthree _ _ _ hseven
          · refine ih ⟨fun e he => ?_, hg.skillMats⟩
            rcases IntTable.mem_add he with heq | he
            · exact heq ▸ hw.hero k item hitem hthree
            · exact hg.cards e he
          · exact (yields_true _).bind fun rets _ => (yields_true _).bind fun _ _ =>
              ih ⟨hg.cards, hg.skillMats⟩
          · exact ih ⟨hg.cards, hg.skillMats⟩
          · exact ih ⟨hg.cards, hg.skillMats⟩
          · refine ih ⟨hg.cards, fun e he => ?_⟩
            rcases IntTable.mem_add he with heq | he
            · exact heq ▸ hw.skill k item hitem hseven
            · exact hg.skillMats e he
          · exact ih hg

theorem stays_addItemsAt (levels : ℕ) (items : IntTable) (hE : Stocked w ∨ E) :
    (addItemsAt op levels items : Code w τ η (Option IntTable)).Stays {op} (Grants op) E := by
  induction levels generalizing items with
  | zero => exact stays_pure _
  | succ levels ih =>
      have hgather : (gather (fun items => do discard (addItemsAt op levels items))
          (w.pairs items) {} :
          Code w τ η (Option Gathered)).Stays {op} (Grants op) E :=
        stays_gather (fun items => (ih items).bind fun _ => stays_pure _) hE _ _
      have hyields : (gather (fun items => do discard (addItemsAt op levels items))
          (w.pairs items) {} :
          Code w τ η (Option Gathered)).Yields fun r => ∀ g ∈ r, Stocked w ∧ Known w g ∨ E := by
        rcases hE with hw | hE
        · exact (yields_gather hw _ ⟨by simp, by simp⟩).mono fun r hr g hg => .inl ⟨hw, hr g hg⟩
        · exact (yields_true _).mono fun _ _ _ _ => .inr hE
      refine fun s => (hgather s).bind_yields hyields fun r hr => ?_
      cases r with
      | none => exact stays_pure _
      | some g => exact (stays_handOut g (hr g rfl)).bind fun _ => stays_pure _

/-- When the rows exist, handing out items ends without an error. -/
theorem stays_addItems_stocked (items : IntTable) (hE : Stocked w ∨ E) :
    (addItems op items : Code w τ η (Option IntTable)).Stays {op} (Grants op) E :=
  stays_addItemsAt 2 items hE

theorem stays_addItems (items : IntTable) :
    (addItems op items : Code w τ η (Option IntTable)).Stays {op} (Grants op) True :=
  stays_addItems_stocked items (.inr trivial)

end GameServer.AgentService
