import GameServer.Awards

/-!
# Each award once

Two requests for one mission that pass the check before the flag is raised hand out one award twice.
An award is handed out once when no request passes the check while another hands out the same award.
-/

namespace GameServer.Awards

open Goods Agent Cooperative Coroutine AgentService Transition

variable {w : World} {q : MissionData w} {s₀ s s' : State w} {m m' : Multiset Place} {award : Award}
  {place : Place} {serId : ℤ} {v₀ v v' : Mission w} {done : List (ℤ × ℤ)}

/-! ## The condition -/

/-- Handing out, or about to reply. -/
def Place.award? : Place → Option Award
  | .items award | .update award => some award
  | _ => none

def held (m : Multiset Place) : Multiset Award := m.filterMap Place.award?

def Place.handsOut (serId : ℤ) : Place → Bool
  | .items award => award.serId = serId
  | _ => false

/-- How many requests hand out an award of the series. -/
def onWay (m : Multiset Place) (serId : ℤ) : ℕ := m.countP fun place => place.handsOut serId

/-- Nobody hands out the award, and the flag can be raised for all who hand out one of the
series. -/
def Free (s : State w) (m : Multiset Place) (award : Award) : Prop :=
  Place.items award ∉ m ∧ ∀ v ∈ Missions.getMission s.missions award.serId,
    v.flag + onWay m award.serId < maxinteger

/-- The next look at the mission resets it. -/
def Due (q : MissionData w) (s : State w) (dataId : ℤ) : Prop :=
  Macro_GetMissionSerialId dataId = Macro_GetMissionSerialId q.DailyMissionId ∧
    ∃ v ∈ Missions.getMission s.missions (Macro_GetMissionSerialId q.DailyMissionId),
      v.time < s.clock.now

def guard (q : MissionData w) : Server.Guard (State w) Place Request Clock where
  request s m r := match r with
    | .recvMissionAward dataId => ¬ Due q s dataId → ∀ award ∈ asked s dataId, Free s m award
    | .AdvanceMission _ => True
  resume s m place := match place with
    | .reset dataId => ∀ award ∈ asked s dataId, Free s m award
    | _ => True
  outside := (anyOrder w).outside

/-! ## The invariant -/

/-- A series of achievements: the flag is the next row to take. -/
structure Steps (s : State w) (m : Multiset Place) (serId : ℤ) (v₀ v : Mission w) : Prop where
  start : v₀.dataId ≤ v.flag
  flag : v.flag ≤ v.dataId + 1
  passed : ∀ row, v₀.dataId ≤ row → row < v.dataId → (serId, row) ∈ s.completed
  current : ∀ a, Place.items a ∈ m → a.serId = serId → a.key = v.flag ∧ a.key ≤ v.dataId
  taken : ∀ a ∈ s.history.granted, a.serId = serId →
    a.key < v.flag ∨ a.key = v.flag ∧ Place.items a ∈ m

/-- The daily mission: what was handed out today raises the flag. -/
structure Days (s : State w) (m : Multiset Place) (serId : ℤ) (v : Mission w) : Prop where
  flag : 0 ≤ v.flag
  taken : ∀ a ∈ s.history.granted, a.serId = serId →
    a.key < v.time ∨ a.key = v.time ∧ (1 ≤ v.flag ∨ Place.items a ∈ m)

structure Series (q : MissionData w) (s : State w) (m : Multiset Place) (serId : ℤ)
    (v₀ v : Mission w) : Prop where
  fresh : Fresh q serId v₀
  kind : ∀ a, Place.items a ∈ m → a.serId = serId →
    a.daily = decide ((Missions.rowOf v₀).n32Type = daily)
  room : v.flag + onWay m serId ≤ maxinteger
  step : serId ≠ Macro_GetMissionSerialId q.DailyMissionId → Steps s m serId v₀ v
  day : serId = Macro_GetMissionSerialId q.DailyMissionId → Days s m serId v

/-- What is handed out: each award once, one reply for each, and only for what was completed. -/
structure Once (s : State w) (m : Multiset Place) : Prop where
  balance : (s.history.granted : Multiset Award) = s.history.replies + held m
  once : s.history.granted.Nodup
  earned : ∀ award ∈ s.history.granted, (award.serId, award.key) ∈ s.completed

structure Inv (q : MissionData w) (s : State w) (m : Multiset Place) : Prop where
  balance : (s.history.granted : Multiset Award) = s.history.replies + held m
  once : s.history.granted.Nodup
  earned : ∀ award ∈ s.history.granted, (award.serId, award.key) ∈ s.completed
  series : ∀ serId v, Missions.getMission s.missions serId = some v → ∃ v₀, Series q s m serId v₀ v
  present : ∀ a, Place.items a ∈ m → (Missions.getMission s.missions a.serId).isSome
  clock : s.clock.now < s.clock.tomorrow

/-! ## How the invariant moves -/

theorem Steps.of_same (h : Steps s m serId v₀ v) (hgranted : s'.history.granted = s.history.granted)
    (hcompleted : s'.completed = s.completed)
    (hitems : ∀ a, a.serId = serId → (Place.items a ∈ m' ↔ Place.items a ∈ m)) :
    Steps s' m' serId v₀ v where
  start := h.start
  flag := h.flag
  passed := hcompleted ▸ h.passed
  current a ha hser := h.current a ((hitems a hser).mp ha) hser
  taken g hg hser :=
    (h.taken g (hgranted ▸ hg) hser).imp_right (And.imp_right (hitems _ hser).mpr)

theorem Days.of_same (h : Days s m serId v) (hgranted : s'.history.granted = s.history.granted)
    (hitems : ∀ a, a.serId = serId → (Place.items a ∈ m' ↔ Place.items a ∈ m)) :
    Days s' m' serId v where
  flag := h.flag
  taken g hg hser :=
    (h.taken g (hgranted ▸ hg) hser).imp_right (And.imp_right (Or.imp_right (hitems _ hser).mpr))

theorem Series.of_same (h : Series q s m serId v₀ v)
    (hgranted : s'.history.granted = s.history.granted) (hcompleted : s'.completed = s.completed)
    (hitems : ∀ a, a.serId = serId → (Place.items a ∈ m' ↔ Place.items a ∈ m))
    (hway : onWay m' serId = onWay m serId) : Series q s' m' serId v₀ v where
  fresh := h.fresh
  kind a ha hser := h.kind a ((hitems a hser).mp ha) hser
  room := hway ▸ h.room
  step hD := (h.step hD).of_same hgranted hcompleted hitems
  day hD := (h.day hD).of_same hgranted hitems

theorem Inv.of_places (h : Inv q s m) (hitems : ∀ a, Place.items a ∈ m' ↔ Place.items a ∈ m)
    (hheld : held m' = held m) (hway : ∀ serId, onWay m' serId = onWay m serId) : Inv q s m' where
  balance := hheld ▸ h.balance
  once := h.once
  earned := h.earned
  series serId v hv := by
    obtain ⟨v₀, hs⟩ := h.series serId v hv
    exact ⟨v₀, hs.of_same rfl rfl (fun a _ => hitems a) (hway serId)⟩
  present a ha := h.present a ((hitems a).mp ha)
  clock := h.clock

theorem inv_apart (hplace : place.award? = none) : Inv q s (place ::ₘ m) ↔ Inv q s m := by
  have hheld : held (place ::ₘ m) = held m := Multiset.filterMap_cons_none _ _ hplace
  have hitems : ∀ a, Place.items a ∈ place ::ₘ m ↔ Place.items a ∈ m := fun a => by
    rw [Multiset.mem_cons]
    refine or_iff_right fun heq => ?_
    rw [← heq] at hplace
    cases hplace
  have hway : ∀ serId, onWay (place ::ₘ m) serId = onWay m serId := fun serId => by
    refine Multiset.countP_cons_of_neg _ ?_
    cases place with
    | items a | update a => cases hplace
    | reset dataId => exact Bool.false_ne_true
    | advance => exact Bool.false_ne_true
  exact ⟨fun h => h.of_places (fun a => (hitems a).symm) hheld.symm fun k => (hway k).symm,
    fun h => h.of_places hitems hheld hway⟩

theorem Inv.of_progress (h : Inv q s m) (hp : Progress s s') (hhistory : s'.history = s.history)
    (hclock : s'.clock = s.clock) : Inv q s' m where
  balance := hhistory ▸ h.balance
  once := hhistory ▸ h.once
  earned a ha := hp.completed (h.earned a (hhistory ▸ ha))
  series serId v' hv' := by
    cases hv : Missions.getMission s.missions serId with
    | none => rw [hp.absent serId hv] at hv'; cases hv'
    | some v =>
        obtain ⟨v₀, hs⟩ := h.series serId v hv
        obtain ⟨v'', hv'', hflag, htime, hrow⟩ := hp.found serId v hv
        obtain rfl : v'' = v' := Option.some.inj (hv''.symm.trans hv')
        refine ⟨v₀, hs.fresh, hs.kind, hflag ▸ hs.room, fun hser => ?_, fun hser => ?_⟩
        · obtain ⟨hstart, hle, hpassed, hcurrent, htaken⟩ := hs.step hser
          refine ⟨hflag ▸ hstart, by omega, fun row hrow₀ hlt => ?_, fun a ha hser => ?_, ?_⟩
          · rcases hrow with hsame | ⟨hnext, hdone⟩
            · exact hp.completed (hpassed row hrow₀ (hsame ▸ hlt))
            · rcases lt_or_eq_of_le (show row ≤ v.dataId by omega) with hold | rfl
              · exact hp.completed (hpassed row hrow₀ hold)
              · exact hdone
          · obtain ⟨hkey, hle'⟩ := hcurrent a ha hser
            exact ⟨hflag ▸ hkey, by omega⟩
          · rw [hhistory, hflag]
            exact htaken
        · obtain ⟨hzero, htaken⟩ := hs.day hser
          exact ⟨hflag ▸ hzero, by rw [hhistory, hflag, htime]; exact htaken⟩
  present a ha := by
    obtain ⟨v, hv⟩ := Option.isSome_iff_exists.mp (h.present a ha)
    obtain ⟨v', hv', -⟩ := hp.found a.serId v hv
    rw [hv']
    rfl
  clock := hclock ▸ h.clock

theorem checks_none {dat : MissionRow} (h : checks dat v = none) :
    (dat.n32Type = daily → completed v = true ∧ v.flag ≤ 0) ∧
      (dat.n32Type = achivement → v.flag ≤ v.dataId ∧
        (v.flag < v.dataId ∨ completed v = true)) := by
  unfold checks at h
  split_ifs at h with hdaily hdone hflag hstep hflag' hdone'
  · exact ⟨fun _ => ⟨by simpa using hdone, not_lt.mp hflag⟩, fun hstep => by
      rw [hdaily] at hstep
      cases hstep⟩
  · refine ⟨fun h => absurd h hdaily, fun _ => ⟨not_lt.mp hflag', ?_⟩⟩
    by_cases hc : completed v = true
    · exact .inr hc
    · have hne : v.flag ≠ v.dataId := fun heq => hdone' ⟨by simpa using hc, heq⟩
      exact .inl (lt_of_le_of_ne (not_lt.mp hflag') hne)
  · exact ⟨fun h => absurd h hdaily, fun h => absurd h hstep⟩

theorem row_eq (v : Mission w) : w.missionRepository v.dataId = some (Missions.rowOf v) :=
  (Option.some_get v.row).symm

/-- The row that the client names has the type of the mission. -/
theorem Series.type_eq {dataId : ℤ} {dat : MissionRow}
    (h : Series q s m (Macro_GetMissionSerialId dataId) v₀ v)
    (hdat : w.missionRepository dataId = some dat) : dat.n32Type = (Missions.rowOf v₀).n32Type :=
  q.series dataId v₀.dataId dat _ hdat (row_eq v₀) h.fresh.serial.symm

theorem isSome_setMission (missions : List (ℤ × Mission w)) (serId serId' : ℤ) (v : Mission w) :
    (Missions.getMission (Missions.setMission missions serId v) serId').isSome =
      (Missions.getMission missions serId').isSome := by
  rw [getMission_setMission]
  split_ifs <;> simp

theorem held_items (award : Award) (m : Multiset Place) :
    held (.items award ::ₘ m) = award ::ₘ held m := Multiset.filterMap_cons_some _ _ m rfl

theorem held_update (award : Award) (m : Multiset Place) :
    held (.update award ::ₘ m) = award ::ₘ held m := Multiset.filterMap_cons_some _ _ m rfl

theorem onWay_items (award : Award) (m : Multiset Place) (serId : ℤ) :
    onWay (.items award ::ₘ m) serId = onWay m serId + if award.serId = serId then 1 else 0 := by
  unfold onWay
  rw [Multiset.countP_cons]
  simp [Place.handsOut]

theorem onWay_update (award : Award) (m : Multiset Place) (serId : ℤ) :
    onWay (.update award ::ₘ m) serId = onWay m serId :=
  Multiset.countP_cons_of_neg _ Bool.false_ne_true

theorem mem_items {a : Award} : Place.items a ∈ Place.items award ::ₘ m ↔
    a = award ∨ Place.items a ∈ m := by
  rw [Multiset.mem_cons, Place.items.injEq]

theorem mem_update {a : Award} : Place.items a ∈ Place.update award ::ₘ m ↔ Place.items a ∈ m := by
  simp [Multiset.mem_cons]

theorem awardOf_day {dat : MissionRow} (h : dat.n32Type = daily) :
    awardOf serId dat v = ⟨serId, true, v.time⟩ := by simp [awardOf, h]

theorem awardOf_step {dat : MissionRow} (h : dat.n32Type = achivement) :
    awardOf serId dat v = ⟨serId, false, v.flag⟩ := by simp [awardOf, h, achivement, daily]

theorem mem_foundCompleted (serId : ℤ) (dat : MissionRow) (h : completed v = true) :
    (serId, if dat.n32Type = daily then v.time else v.dataId) ∈ foundCompleted serId dat v := by
  rw [foundCompleted, if_pos h]
  exact List.mem_singleton_self _

/-- The items of an award are about to be handed out. -/
def granting (s : State w) (user : User) (award : Award) (done : List (ℤ × ℤ)) : State w := {
  s with
  user
  completed := s.completed ++ done
  history := { s.history with granted := s.history.granted ++ [award] } }

theorem Steps.grant (h : Steps s m serId v₀ v) (user : User) (done : List (ℤ × ℤ))
    (hkey : award.serId = serId → award.key = v.flag ∧ v.flag ≤ v.dataId) :
    Steps (granting s user award done) (.items award ::ₘ m) serId v₀ v where
  start := h.start
  flag := h.flag
  passed row hstart hrow := List.mem_append_left _ (h.passed row hstart hrow)
  current a ha hser := by
    rcases mem_items.mp ha with rfl | ha
    · exact ⟨(hkey hser).1, (hkey hser).1.trans_le (hkey hser).2⟩
    · exact h.current a ha hser
  taken g hg hser := by
    rcases List.mem_append.mp hg with hg | hg
    · exact (h.taken g hg hser).imp_right (And.imp_right (Multiset.mem_cons_of_mem ·))
    · obtain rfl := List.mem_singleton.mp hg
      exact .inr ⟨(hkey hser).1, Multiset.mem_cons_self _ _⟩

theorem Days.grant (h : Days s m serId v) (user : User) (done : List (ℤ × ℤ))
    (hkey : award.serId = serId → award.key = v.time) :
    Days (granting s user award done) (.items award ::ₘ m) serId v where
  flag := h.flag
  taken g hg hser := by
    rcases List.mem_append.mp hg with hg | hg
    · exact (h.taken g hg hser).imp_right
        (And.imp_right (Or.imp_right (Multiset.mem_cons_of_mem ·)))
    · obtain rfl := List.mem_singleton.mp hg
      exact .inr ⟨hkey hser, .inr (Multiset.mem_cons_self _ _)⟩

/-- What the check of a request found. -/
structure Passed (q : MissionData w) (s : State w) (serId : ℤ) (v : Mission w) (award : Award)
    (done : List (ℤ × ℤ)) : Prop where
  found : Missions.getMission s.missions serId = some v
  same : award.serId = serId
  day : serId = Macro_GetMissionSerialId q.DailyMissionId →
    award.daily = true ∧ award.key = v.time ∧ (serId, award.key) ∈ done ∧ v.flag ≤ 0
  step : serId ≠ Macro_GetMissionSerialId q.DailyMissionId →
    award.daily = false ∧ award.key = v.flag ∧ v.flag ≤ v.dataId ∧
      (v.flag < v.dataId ∨ (serId, award.key) ∈ done)

theorem Inv.passed {dataId : ℤ} {dat : MissionRow} (h : Inv q s m)
    (hdat : w.missionRepository dataId = some dat)
    (hv : Missions.getMission s.missions (Macro_GetMissionSerialId dataId) = some v)
    (hchecks : checks dat v = none) : Passed q s (Macro_GetMissionSerialId dataId) v
      (awardOf (Macro_GetMissionSerialId dataId) dat v)
      (foundCompleted (Macro_GetMissionSerialId dataId) dat v) := by
  obtain ⟨v₀, hs⟩ := h.series _ v hv
  obtain ⟨hday, hstep⟩ := checks_none hchecks
  have htype := hs.type_eq hdat
  refine ⟨hv, rfl, fun hser => ?_, fun hser => ?_⟩
  · have hdaily := htype.trans (hs.fresh.daily hser).1
    obtain ⟨hdone, hflag⟩ := hday hdaily
    have hfound := mem_foundCompleted (Macro_GetMissionSerialId dataId) dat hdone
    rw [if_pos hdaily] at hfound
    rw [awardOf_day hdaily]
    exact ⟨rfl, rfl, hfound, hflag⟩
  · have hach := htype.trans (hs.fresh.step hser).1
    obtain ⟨hle, hdone⟩ := hstep hach
    rw [awardOf_step hach]
    refine ⟨rfl, rfl, hle, ?_⟩
    rcases lt_or_eq_of_le hle with hlt | heq
    · exact .inl hlt
    · -- the row to take is the row that the check looked at
      have hfound := mem_foundCompleted (Macro_GetMissionSerialId dataId) dat
        (hdone.resolve_left heq.not_lt)
      rw [hach, if_neg (show achivement ≠ daily by decide), ← heq] at hfound
      exact .inr hfound

/-- An award that passes the check was not handed out before. -/
theorem Inv.new (h : Inv q s m) (hp : Passed q s serId v award done) (hfree : Free s m award) :
    award ∉ s.history.granted := by
  intro hmem
  obtain ⟨v₀, hs⟩ := h.series _ v hp.found
  by_cases hser : serId = Macro_GetMissionSerialId q.DailyMissionId
  · obtain ⟨-, hkey, -, hflag⟩ := hp.day hser
    rcases (hs.day hser).taken award hmem hp.same with hlt | ⟨-, hone | hitems⟩
    · omega
    · omega
    · exact hfree.1 hitems
  · obtain ⟨-, hkey, -, -⟩ := hp.step hser
    rcases (hs.step hser).taken award hmem hp.same with hlt | ⟨-, hitems⟩
    · omega
    · exact hfree.1 hitems

theorem Inv.grant (h : Inv q s m) (hp : Passed q s serId v award done) (hfree : Free s m award)
    (user : User) : Inv q (granting s user award done) (.items award ::ₘ m) := by
  have hnew := h.new hp hfree
  refine ⟨?_, ?_, fun a ha => ?_, fun serId' u hu => ?_, fun a ha => ?_, h.clock⟩
  · change ((s.history.granted ++ [award] : List Award) : Multiset Award) =
      s.history.replies + held (.items award ::ₘ m)
    rw [← Multiset.coe_add, h.balance, held_items, ← Multiset.singleton_add, add_assoc,
      add_comm (held m)]
    rfl
  · exact h.once.append (List.nodup_singleton _) (by simpa using hnew)
  · rcases List.mem_append.mp ha with ha | ha
    · exact List.mem_append_left _ (h.earned a ha)
    · obtain rfl := List.mem_singleton.mp ha
      obtain ⟨v₀, hs⟩ := h.series _ v hp.found
      change (a.serId, a.key) ∈ s.completed ++ done
      rw [hp.same]
      by_cases hser : serId = Macro_GetMissionSerialId q.DailyMissionId
      · exact List.mem_append_right _ (hp.day hser).2.2.1
      · obtain ⟨-, hkey, -, hlt | hdone⟩ := hp.step hser
        · rw [hkey]
          exact List.mem_append_left _ ((hs.step hser).passed v.flag (hs.step hser).start hlt)
        · exact List.mem_append_right _ hdone
  · obtain ⟨v₀, hs⟩ := h.series serId' u hu
    by_cases heq : award.serId = serId'
    · have hser : serId' = serId := heq.symm.trans hp.same
      subst hser
      obtain rfl : u = v := Option.some.inj (Eq.trans (Eq.symm hu) hp.found)
      refine ⟨v₀, hs.fresh, fun a ha hser => ?_, ?_, fun hD => ?_, fun hD => ?_⟩
      · rcases mem_items.mp ha with rfl | ha
        · by_cases hD : serId' = Macro_GetMissionSerialId q.DailyMissionId
          · rw [(hp.day hD).1, (hs.fresh.daily hD).1]
            rfl
          · rw [(hp.step hD).1, (hs.fresh.step hD).1]
            rfl
        · exact hs.kind a ha hser
      · have hroom := hfree.2 u (heq.symm ▸ hu)
        rw [heq] at hroom
        rw [onWay_items, if_pos heq]
        push_cast
        omega
      · exact (hs.step hD).grant user _ fun _ => ⟨(hp.step hD).2.1, (hp.step hD).2.2.1⟩
      · exact (hs.day hD).grant user _ fun _ => (hp.day hD).2.1
    · refine ⟨v₀, hs.fresh, fun a ha hser => ?_, ?_, fun hD => ?_, fun hD => ?_⟩
      · rcases mem_items.mp ha with rfl | ha
        · exact absurd hser heq
        · exact hs.kind a ha hser
      · rw [onWay_items, if_neg heq]
        exact hs.room
      · exact (hs.step hD).grant user _ fun hser => absurd hser heq
      · exact (hs.day hD).grant user _ fun hser => absurd hser heq
  · rcases mem_items.mp ha with rfl | ha
    · rw [hp.same]
      exact Option.isSome_iff_exists.mpr ⟨v, hp.found⟩
    · exact h.present a ha

theorem Inv.tick (h : Inv q s m) (clock : Clock) (hclock : clock.now < clock.tomorrow) :
    Inv q { s with clock } m :=
  ⟨h.balance, h.once, h.earned, fun serId v hv => (h.series serId v hv).imp fun _ hs =>
    hs.of_same rfl rfl (fun _ _ => Iff.rfl) rfl, h.present, hclock⟩

/-- Nobody else hands out an award that is being handed out. -/
theorem Inv.alone (h : Inv q s (.items award ::ₘ m)) : Place.items award ∉ m := fun hmem => by
  obtain ⟨t, rfl⟩ := Multiset.exists_cons_of_mem hmem
  have honce : (s.history.granted : Multiset Award).Nodup := h.once
  rw [h.balance, held_items, held_items] at honce
  have htwo := (Multiset.nodup_add.mp honce).2.1
  exact (Multiset.nodup_cons.mp htwo).1 (Multiset.mem_cons_self _ _)

/-- The flag is raised for an award of the series. -/
def marking (s : State w) (serId : ℤ) (v : Mission w) : State w := { s with
  missions := Missions.setMission s.missions serId { v with flag := wrap (v.flag + 1) } }

theorem Inv.mark (h : Inv q s (.items award ::ₘ m))
    (hv : Missions.getMission s.missions award.serId = some v) :
    Inv q (marking s award.serId v) (.update award ::ₘ m) := by
  have halone := h.alone
  refine ⟨?_, h.once, h.earned, fun serId u hu => ?_, fun a ha => ?_, h.clock⟩
  · rw [held_update, ← held_items]
    exact h.balance
  · rw [marking, getMission_setMission] at hu
    split_ifs at hu with hser
    · subst hser
      rw [hv, Option.map_some, Option.some.injEq] at hu
      obtain ⟨v₀, hs⟩ := h.series _ v hv
      have hroom := hs.room
      rw [onWay_items, if_pos rfl] at hroom
      push_cast at hroom
      have hmax : maxinteger = 2 ^ 63 - 1 := rfl
      -- the flag does not wrap
      have hflag : u.flag = v.flag + 1 := by
        rw [← hu]
        refine wrap_of_range ?_ (by omega)
        by_cases hD : award.serId = Macro_GetMissionSerialId q.DailyMissionId
        · have hzero := (hs.day hD).flag
          omega
        · have hstart := (hs.step hD).start
          have hrange := hs.fresh.range.1
          omega
      have htime : u.time = v.time := by rw [← hu]
      have hdata : u.dataId = v.dataId := by rw [← hu]
      refine ⟨v₀, hs.fresh, fun a ha hser => ?_, ?_, fun hD => ?_, fun hD => ?_⟩
      · exact hs.kind a (mem_items.mpr (.inr (mem_update.mp ha))) hser
      · rw [onWay_update, hflag]
        omega
      · obtain ⟨hstart, hle, hpassed, hcurrent, htaken⟩ := hs.step hD
        obtain ⟨hkey, hkey'⟩ := hcurrent award (Multiset.mem_cons_self _ _) rfl
        refine ⟨by omega, by omega, fun row hrow hlt => hpassed row hrow (hdata ▸ hlt),
          fun a ha hser => ?_, fun g hg hser => ?_⟩
        · -- another award of the series would be this one
          have hmem : Place.items a ∈ Place.items award ::ₘ m :=
            mem_items.mpr (.inr (mem_update.mp ha))
          have hsame : a = award := by
            have hkinds := (hs.kind a hmem hser).trans
              (hs.kind award (Multiset.mem_cons_self _ _) rfl).symm
            have hkeys := (hcurrent a hmem hser).1.trans hkey.symm
            cases a
            cases award
            simp_all
          exact absurd (hsame ▸ mem_update.mp ha) halone
        · rcases htaken g hg hser with hlt | ⟨heq, -⟩
          · exact .inl (by omega)
          · exact .inl (by omega)
      · obtain ⟨hzero, htaken⟩ := hs.day hD
        refine ⟨by omega, fun g hg hser => ?_⟩
        rw [htime]
        exact (htaken g hg hser).imp_right fun hnow => ⟨hnow.1, .inl (by omega)⟩
    · obtain ⟨v₀, hs⟩ := h.series serId u hu
      have hother : ∀ a, a.serId = serId →
          (Place.items a ∈ Place.update award ::ₘ m ↔ Place.items a ∈ Place.items award ::ₘ m) :=
        fun a ha => by
          rw [mem_update, mem_items, or_iff_right]
          exact fun heq => hser (by rw [← ha, heq])
      refine ⟨v₀, hs.of_same rfl rfl hother ?_⟩
      rw [onWay_update, onWay_items, if_neg (Ne.symm hser), Nat.add_zero]
  · rw [marking, isSome_setMission]
    exact h.present a (mem_items.mpr (.inr (mem_update.mp ha)))

theorem Inv.reset {u : Mission w} (h : Inv q s m)
    (hv : Missions.getMission s.missions (Macro_GetMissionSerialId q.DailyMissionId) = some v)
    (hdue : v.time < s.clock.now) (hflag : u.flag = 0) (htime : u.time = s.clock.tomorrow) :
    Inv q { s with
      missions := Missions.setMission s.missions (Macro_GetMissionSerialId q.DailyMissionId)
        u } m := by
  have hclock := h.clock
  refine ⟨h.balance, h.once, h.earned, fun serId v' hv' => ?_,
    fun a ha => (isSome_setMission ..).trans (h.present a ha), h.clock⟩
  rw [getMission_setMission] at hv'
  split_ifs at hv' with hser
  · subst hser
    rw [hv, Option.map_some, Option.some.injEq] at hv'
    subst hv'
    obtain ⟨v₀, hs⟩ := h.series _ v hv
    obtain ⟨hzero, htaken⟩ := hs.day rfl
    have hroom := hs.room
    refine ⟨v₀, hs.fresh, hs.kind, by omega, fun hD => absurd rfl hD, fun _ => ⟨by omega, ?_⟩⟩
    intro g hg hser
    rcases htaken g hg hser with hlt | ⟨heq, -⟩
    · exact .inl (by omega)
    · exact .inl (by omega)
  · obtain ⟨v₀, hs⟩ := h.series serId v' hv'
    exact ⟨v₀, hs.of_same rfl rfl (fun _ _ => Iff.rfl) rfl⟩

theorem Inv.reply (h : Inv q s (.update award ::ₘ m)) :
    Inv q { s with history := { s.history with replies := s.history.replies ++ [award] } } m := by
  refine ⟨?_, h.once, h.earned, fun serId v hv => ?_,
    fun a ha => h.present a (mem_update.mpr ha), h.clock⟩
  · have hbalance := h.balance
    rw [held_update] at hbalance
    change (s.history.granted : Multiset Award) =
      ((s.history.replies ++ [award] : List Award) : Multiset Award) + held m
    rw [hbalance, ← Multiset.coe_add, ← Multiset.singleton_add, add_assoc]
    rfl
  · obtain ⟨v₀, hs⟩ := h.series serId v hv
    exact ⟨v₀, hs.of_same rfl rfl (fun _ _ => mem_update.symm) (onWay_update award m serId).symm⟩

/-! ## Requests -/

section Safe

variable (q) in
/-- The coroutine is safe in the runs in question. -/
abbrev Keeps {α : Type} (t : Step w α) (Q : α → State w → Multiset Place → Prop) (s : State w)
    (m : Multiset Place) : Prop := t.Safe (Inv q) (guard q).resume Q s m

theorem addItems_safe (hw : Stocked w) (items : IntTable) (h : Inv q s (.items award ::ₘ m)) :
    Keeps q (discard (addItems (.items award) items))
      (fun _ s m => Inv q s (.items award ::ₘ m)) s m := by
  have hstays : (discard (addItems (.items award) items) : Step w PUnit).Stays {.items award}
      (Grants (.items award)) False :=
    (stays_addItems_stocked items (.inl hw)).bind fun _ => stays_pure _
  exact (hstays s).safe (fun _ _ _ hg hs => hs.of_progress hg.progress hg.history hg.clock)
    (fun hfalse => hfalse.elim) h

theorem updateMission_safe (h : Inv q s (.update award ::ₘ m)) :
    Keeps q (Missions.updateMission (.update award) award.serId)
      (fun _ s m => Inv q s (.update award ::ₘ m)) s m := by
  refine (stays_updateMission (E := False) award.serId s).safe (fun s s' m hw hs => ?_)
    (fun hfalse => hfalse.elim) h
  obtain ⟨⟨missions, completed, rfl⟩, hprogress⟩ := hw
  exact hs.of_progress hprogress rfl rfl

/-- Behind the check: the items are known, they are handed out, the flag is raised. -/
theorem handing_safe (hw : Stocked w) (hp : Passed q s serId v award done) (hfree : Free s m award)
    (h : Inv q s m) (user : User) (items : IntTable) :
    Keeps q (do
      grant award done
      discard (addItems (.items award) items)
      received award.serId
      Missions.updateMission (.update award) award.serId
      note fun h => { h with replies := h.replies ++ [award] }
      return (0 : ℤ)) (fun _ => Inv q) { s with user } m := by
  refine safe_bind.mpr (safe_modify.mpr (safe_bind.mpr
    ((addItems_safe hw items (h.grant hp hfree user)).mono fun _ s m hs => ?_)))
  refine safe_bind.mpr (safe_modify.mpr (safe_bind.mpr ?_))
  have hreply : ∀ s m, Inv q s (.update award ::ₘ m) →
      Keeps q (do
        note fun h => { h with replies := h.replies ++ [award] }
        return (0 : ℤ)) (fun _ => Inv q) s m :=
          fun s m hs => safe_bind.mpr (safe_modify.mpr hs.reply)
  obtain ⟨v, hv⟩ := Option.isSome_iff_exists.mp (hs.present award (Multiset.mem_cons_self _ _))
  rw [hv]
  exact (updateMission_safe (hs.mark hv)).mono fun _ s m hs => hreply s m hs

theorem sendAward_safe {dataId : ℤ} {dat : MissionRow} (hw : Stocked w) (h : Inv q s m)
    (hdat : w.missionRepository dataId = some dat)
    (hv : Missions.getMission s.missions (Macro_GetMissionSerialId dataId) = some v)
    (hchecks : checks dat v = none)
    (hfree : Free s m (awardOf (Macro_GetMissionSerialId dataId) dat v)) :
    Keeps q (sendAward q dat v (awardOf (Macro_GetMissionSerialId dataId) dat v))
      (fun _ => Inv q) s m := by
  have hp := h.passed hdat hv hchecks
  unfold sendAward awardItems
  split_ifs
  · refine safe_bind.mpr (safe_bind.mpr (safe_get.mpr ?_))
    cases q.DailyReward s.user.level with
    | none => exact h
    | some package =>
        refine safe_bind.mp (safe_act_bind (fun _ => h) fun items user _ => ?_)
        exact handing_safe hw hp hfree h user items
  · cases w.missionRepository v.flag with
    | none => exact h
    | some awardDat => exact handing_safe hw hp hfree h s.user _
  · exact handing_safe hw hp hfree h s.user _

theorem checkAward_safe {dataId : ℤ} (hw : Stocked w) (h : Inv q s m)
    (hfree : ∀ award ∈ asked s dataId, Free s m award) :
    Keeps q (checkAward q dataId (Missions.getMission s.missions (Macro_GetMissionSerialId dataId)))
      (fun _ => Inv q) s m := by
  unfold checkAward
  cases hdat : w.missionRepository dataId with
  | none => exact h
  | some dat =>
      cases hv : Missions.getMission s.missions (Macro_GetMissionSerialId dataId) with
      | none => exact h
      | some v =>
          simp only
          cases hchecks : checks dat v with
          | some errorCode => exact h
          | none =>
              have hasked : asked s dataId =
                  some (awardOf (Macro_GetMissionSerialId dataId) dat v) := by
                simp [asked, hdat, hv, hchecks]
              exact sendAward_safe hw h hdat hv hchecks (hfree _ hasked)

theorem recvMissionAward_safe {dataId : ℤ} (hw : Stocked w) (h : Inv q s m)
    (hguard : (guard q).request s m (.recvMissionAward dataId)) :
    Keeps q (recvMissionAward q dataId) (fun _ => Inv q) s m := by
  unfold recvMissionAward getMissionByDataId Coroutine.when
  refine safe_bind.mpr (safe_bind.mpr ?_)
  split_ifs with hser
  · -- the daily mission is reset first when its day is over
    refine safe_bind.mpr (safe_get.mpr ?_)
    dsimp only
    cases hv : Missions.getMission s.missions (Macro_GetMissionSerialId q.DailyMissionId) with
    | none => exact h
    | some v =>
        dsimp only [Coroutine.when]
        split_ifs with hdue
        · refine safe_bind.mpr (safe_set.mpr (safe_call.mpr ⟨(inv_apart rfl).mpr ?_,
            fun s m hs hg => safe_bind.mpr (safe_get.mpr ?_)⟩))
          · exact h.reset hv hdue rfl rfl
          · exact checkAward_safe hw ((inv_apart rfl).mp hs) hg
        · refine safe_bind.mpr (safe_get.mpr (checkAward_safe hw h (hguard ?_)))
          rintro ⟨-, v', hv', hlt⟩
          obtain rfl := Option.some.inj (hv.symm.trans hv')
          exact hdue hlt
  · exact safe_bind.mpr (safe_get.mpr (checkAward_safe hw h (hguard fun hdue => hser hdue.1)))

theorem handle_safe (hw : Stocked w) (r : Request) (h : Inv q s m)
    (hguard : (guard q).request s m r) : Keeps q (handle q r) (fun _ => Inv q) s m := by
  cases r with
  | recvMissionAward dataId => exact safe_bind.mpr (recvMissionAward_safe hw h hguard)
  | AdvanceMission content =>
      refine ((stays_AdvanceMission (E := True) content fun _ _ => .inr trivial) s).safe_apart
        (fun place hplace _ _ => inv_apart ?_) (fun s s' m hw hs => ?_) h
      · obtain rfl := hplace
        rfl
      · obtain ⟨⟨missions, completed, rfl⟩, hprogress⟩ := hw
        exact hs.of_progress hprogress rfl rfl

theorem Registered.inv (h : Registered q s) : Inv q s 0 where
  balance := by
    rw [h.granted, h.replies]
    rfl
  once := by
    rw [h.granted]
    exact List.nodup_nil
  earned g hg := by
    rw [h.granted] at hg
    cases hg
  series serId v hv := by
    have hfresh := h.fresh serId v hv
    have hrange := hfresh.range
    refine ⟨v, hfresh, by simp, ?_, fun hD => ?_, fun hD => ?_⟩
    · change v.flag + 0 ≤ maxinteger
      by_cases hD : serId = Macro_GetMissionSerialId q.DailyMissionId
      · rw [(hfresh.daily hD).2]
        decide
      · rw [(hfresh.step hD).2]
        omega
    · have hflag := (hfresh.step hD).2
      refine ⟨by omega, by omega, fun row hrow hlt => by omega, by simp, fun g hg => ?_⟩
      rw [h.granted] at hg
      cases hg
    · refine ⟨(hfresh.daily hD).2.ge, fun g hg => ?_⟩
      rw [h.granted] at hg
      cases hg
  present := by simp
  clock := h.clock

/-- Each award is handed out at most once, to a completed mission, and has at most one reply. -/
theorem award_once (hw : Stocked w) (s₀ : State w) (hstart : Registered q s₀)
    {p : Pool (State w) Place} (h : ((server q).system s₀).Runs (guard q).Admits p) :
    Once p.shared p.places := by
  have hinv := Server.invariant (Inv q) hstart.inv (fun _ _ r hs hg => handle_safe hw r hs hg)
    (fun _ _ clock hs hok => hs.tick clock hok.2) h
  exact ⟨hinv.balance, hinv.once, hinv.earned⟩

end Safe

/-- Two steps of one series, each with gold as its award. -/
def steps (id : ℤ) : Option MissionRow :=
  if id = 20001001 ∨ id = 20001002 then some {
    n32Type := 1
    n32Content := 1001
    n32GoalCon := 3
    n32Goal := 3
    n32Con1 := 0
    szAwards := (10002, 100) }
  else none

def arena : World := { (default : World) with
  itemRepository := fun k => if k = 10002 then some ⟨5, 0, []⟩ else none
  missionRepository := steps
  hero_row := default_hero_row
  skill_row := default_skill_row }

def ladder : MissionData arena where
  DailyMissionId := 10001001
  DailyReward _ := none
  series id id' dat dat' h h' _ := by
    change steps id = some dat at h
    change steps id' = some dat' at h'
    unfold steps at h h'
    split_ifs at h h'
    rw [← Option.some.inj h, ← Option.some.inj h']

theorem arena_stocked : Stocked arena := by
  have htype : ∀ id item, arena.itemRepository id = some item → item.n32Type = 5 :=
    fun id item h => by
    change (if id = 10002 then some (⟨5, 0, []⟩ : ItemRow) else none) = some item at h
    split_ifs at h
    rw [← Option.some.inj h]
  refine ⟨fun id item h hthree => ?_, fun id item h hseven => ?_, nofun, fun id item h hfour => ?_⟩
  · exact absurd ((htype id item h).symm.trans hthree) (by decide)
  · exact absurd ((htype id item h).symm.trans hseven) (by decide)
  · exact absurd ((htype id item h).symm.trans hfour) (by decide)

/-- A player who has won three times. -/
def winner : State arena := { (default : State arena) with
  missions := [(20001, {
    dataId := 20001001
    progress := 3
    flag := 20001001
    time := 0
    row := rfl })] }

theorem winner_registered : Registered ladder winner where
  fresh serId v hv := by
    obtain ⟨e, he, rfl⟩ := Option.map_eq_some_iff.mp hv
    have hser : e.1 = serId := by simpa using List.find?_some he
    obtain rfl := List.mem_singleton.mp (List.mem_of_find?_eq_some he)
    subst hser
    exact ⟨by decide, by decide, fun h => absurd h (by decide), fun _ => ⟨rfl, rfl⟩⟩
  clock := by decide
  granted := rfl
  replies := rfl

theorem award_once_step : ∃ p, ((server ladder).system winner).Runs (guard ladder).Admits p ∧
    p.places = 0 ∧ p.shared.history.replies = [⟨20001, false, 20001001⟩] ∧
    Once p.shared p.places := by
  have hrun : ∃ p, ((server ladder).system winner).Runs (guard ladder).Admits p ∧
      p.places = 0 ∧ p.shared.history.replies = [⟨20001, false, 20001001⟩] := by
    refine ⟨_, .step (i := .resume 0) (.step (i := .resume 0)
      (.step (i := .request (.recvMissionAward 20001001)) .init (fun _ award haward => ?_) rfl)
      (fun v hv => ?_) rfl) (fun v hv => ?_) rfl, rfl, rfl⟩
    · obtain rfl := Option.some.inj haward
      refine ⟨Multiset.notMem_zero _, fun v hv => ?_⟩
      obtain rfl := Option.some.inj hv
      decide
    · obtain rfl := Option.some.inj hv
      trivial
    · obtain rfl := Option.some.inj hv
      trivial
  obtain ⟨p, hp, hplaces, hreplies⟩ := hrun
  exact ⟨p, hp, hplaces, hreplies, award_once arena_stocked winner winner_registered hp⟩

/-- Two requests pass the check before the flag is raised, and both hand out the award. -/
theorem recvMissionAward_twice : ¬ ∀ (w : World) (q : MissionData w) (s₀ : State w), Stocked w →
    Registered q s₀ → ∀ p, ((server q).system s₀).Runs (anyOrder w).Admits p →
      Once p.shared p.places := fun hall => by
  have hrun : ∃ p, ((server ladder).system winner).run ((server ladder).system winner).init
      [.request (.recvMissionAward 20001001), .request (.recvMissionAward 20001001), .resume 0,
        .resume 0, .resume 0, .resume 0] = some p ∧ p.places = 0 ∧
      p.shared.history.granted =
        [⟨20001, false, 20001001⟩, ⟨20001, false, 20001001⟩] := ⟨_, rfl, rfl, rfl⟩
  obtain ⟨p, hp, -, hgranted⟩ := hrun
  have hruns : ((server ladder).system winner).Runs (anyOrder arena).Admits p := by
    refine System.Runs.of_run .init (fun l hl u => ?_) hp
    simp only [List.mem_cons, List.not_mem_nil, or_false] at hl
    rcases hl with rfl | rfl | rfl | rfl | rfl | rfl
    · trivial
    · trivial
    all_goals exact fun _ _ => trivial
  have honce := (hall arena ladder winner arena_stocked winner_registered p hruns).once
  rw [hgranted] at honce
  exact absurd honce (by decide)

end GameServer.Awards
