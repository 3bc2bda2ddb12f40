import GameServer.PlayerFrame

/-!
# The end of an exploration

An exploration that was not begun has the time 0, which `exploreEnd` takes for a time that is over.
It hands out rewards for an exploration that is under way when it is asked for no other, and no
other request of the exploration that was checked before goes on meanwhile.
-/

namespace GameServer.Player.ExploreEnd

open Goods Agent Cooperative Coroutine AgentService Shop Transition

variable {w : World} {q : ExploreData} {s s' : State w} {m : Multiset Place} {u : String}

/-- The exploration was begun since its last reset and its time is over. -/
def Over (s : State w) (u : String) : Prop := ∃ d, s.history.due u = some d ∧ d ≤ s.clock.now

/-- What `exploreEnd` did, it did when the exploration was over. -/
def OnlyWhenOver (s : State w) : Prop := ∀ e ∈ s.history.ended, ∃ d, e.due = some d ∧ d ≤ e.now

/-- The end of an exploration by its time. -/
def dueOf (explores : String → Option Explore) (u : String) : Option ℤ :=
  (explores u).bind fun unit => if unit.time = 0 then none else some unit.time

/-- `exploreEnd` is asked for an idle exploration by nobody, and for none of which it hands out the
reward. A request that found the exploration idle does not go on while its reward is handed out. -/
def guard (w : World) : Server.Guard (State w) Place Request Clock where
  request s m r := match r with
    | .exploreEnd u => ∀ unit ∈ s.explores u, unit.time ≤ s.clock.now →
        unit.time ≠ 0 ∧ .reward u ∉ m
    | _ => True
  resume _ m place := match place with
    | .setExplore args => .reward args.uuid ∉ m
    | .refresh .count u _ => .reward u ∉ m
    | _ => True
  outside := (anyOrder w).outside

/-- While a reward is handed out its exploration is over. -/
structure Inv (s : State w) (m : Multiset Place) : Prop where
  due : s.history.due = dueOf s.explores
  ended : OnlyWhenOver s
  once : ∀ u, m.count (.reward u) ≤ 1
  timely : ∀ u, .reward u ∈ m → Over s u
  clock : 0 < s.clock.now ∧ s.clock.now < 2 ^ 62

theorem Inv.of_same (h : Inv s m) (hexplores : s'.explores = s.explores)
    (hclock : s'.clock = s.clock) (hdue : s'.history.due = s.history.due)
    (hended : s'.history.ended = s.history.ended) : Inv s' m where
  due := by rw [hdue, h.due, hexplores]
  ended e he := h.ended e (hended ▸ he)
  once := h.once
  timely u hu := by
    obtain ⟨d, hd, hle⟩ := h.timely u hu
    exact ⟨d, hdue ▸ hd, hclock ▸ hle⟩
  clock := hclock ▸ h.clock

theorem inv_apart {place : Place} (hplace : ∀ u, place ≠ .reward u) :
    Inv s (place ::ₘ m) ↔ Inv s m := by
  have hcount : ∀ u, (place ::ₘ m).count (.reward u) = m.count (.reward u) :=
    fun u => Multiset.count_cons_of_ne (hplace u).symm m
  have hmem : ∀ u, Place.reward u ∈ place ::ₘ m ↔ Place.reward u ∈ m := fun u =>
    Multiset.mem_cons.trans (or_iff_right (hplace u).symm)
  constructor
  · intro h
    exact ⟨h.due, h.ended, fun u => hcount u ▸ h.once u, fun u hu => h.timely u ((hmem u).mpr hu),
      h.clock⟩
  · intro h
    exact ⟨h.due, h.ended, fun u => (hcount u).symm ▸ h.once u,
      fun u hu => h.timely u ((hmem u).mp hu), h.clock⟩

theorem Inv.drop (h : Inv s (.reward u ::ₘ m)) : Inv s m :=
  ⟨h.due, h.ended, fun v => (Multiset.count_le_count_cons _ _ _).trans (h.once v),
    fun v hv => h.timely v (Multiset.mem_cons_of_mem hv), h.clock⟩

theorem Inv.last (h : Inv s (.reward u ::ₘ m)) : .reward u ∉ m := fun hu => by
  have hcount := h.once u
  rw [Multiset.count_cons_self] at hcount
  have hpos := Multiset.count_pos.mpr hu
  omega

/-- The reward of an exploration that is over is handed out. -/
theorem Inv.under (h : Inv s m) {unit : Explore} (hunit : s.explores u = some unit)
    (hne : unit.time ≠ 0) (hle : unit.time ≤ s.clock.now) (hu : .reward u ∉ m) :
    Inv s (.reward u ::ₘ m) where
  due := h.due
  ended := h.ended
  once v := by
    by_cases hv : v = u
    · rw [hv, Multiset.count_cons_self, Multiset.count_eq_zero_of_notMem hu]
    · rw [Multiset.count_cons_of_ne (by simpa using hv)]
      exact h.once v
  timely v hv := by
    rcases Multiset.mem_cons.mp hv with hv | hv
    · simp only [Place.reward.injEq] at hv
      exact ⟨unit.time, by simp [h.due, dueOf, hv, hunit, hne], hle⟩
    · exact h.timely v hv
  clock := h.clock

/-! ## Requests that leave the explorations alone -/

theorem Inv.of_bought (hb : Bought s s') (h : Inv s m) : Inv s' m :=
  h.of_same hb.explores hb.clock (by rw [hb.history]) (by rw [hb.history])

theorem buyShopItem_safe (id num : ℤ) (h : Inv s m) :
    (buyShopItem id num).Safe Inv (guard w).resume (fun _ => Inv) s m := by
  refine (stays_buyShopItem id num s).safe_apart (fun place hplace s m => inv_apart ?_)
    (fun _ _ _ hb h => h.of_bought hb) h
  rintro u rfl
  exact hplace

/-- Only balances, cards, skills and missions change, and what is used up. -/
theorem Inv.of_grants {op : Place} (hg : Grants op s s') (h : Inv s m) : Inv s' m :=
  h.of_same hg.explores hg.clock (by rw [hg.history]) (by rw [hg.history])

theorem refreshTimes_safe (h : Inv s m) : (AgentService.Account.refreshTimes .times).Safe Inv
    (guard w).resume (fun _ => Inv) s m := by
  refine (stays_refreshTimes (P := {.times}) (E := True) (Set.mem_singleton _)
    (R := fun s s' => ∀ m, Inv s m → Inv s' m)
    (fun _ _ _ h => h.of_same rfl rfl rfl rfl) s).safe_apart
    (fun place hplace s m => inv_apart ?_) (fun _ _ m hR h => hR m h) h
  rintro u rfl
  exact Place.noConfusion (Set.mem_singleton_iff.mp hplace)

/-! ## Beginning, resetting -/

theorem dueOf_update (explores : String → Option Explore) (unit : Explore) :
    dueOf (Function.update explores u (some unit)) =
      Function.update (dueOf explores) u (if unit.time = 0 then none else some unit.time) := by
  funext v
  by_cases hv : v = u
  · subst hv
    simp [dueOf]
  · simp [dueOf, Function.update_of_ne hv]

/-- An exploration of which no reward is handed out gets another time. -/
theorem Inv.put (h : Inv s m) (hu : .reward u ∉ m) (unit : Explore)
    (hexplores : s'.explores = Function.update s.explores u (some unit))
    (hclock : s'.clock = s.clock) (hended : s'.history.ended = s.history.ended)
    (hdue : s'.history.due =
      Function.update s.history.due u (if unit.time = 0 then none else some unit.time)) :
    Inv s' m where
  due := by rw [hdue, h.due, hexplores, dueOf_update]
  ended e he := h.ended e (hended ▸ he)
  once := h.once
  timely v hv := by
    obtain ⟨d, hd, hle⟩ := h.timely v hv
    have hne : v ≠ u := fun he => hu (he ▸ hv)
    exact ⟨d, by rw [hdue, Function.update_of_ne hne, hd], hclock ▸ hle⟩
  clock := hclock ▸ h.clock

theorem resetExplore_safe {op : Place} (hop : ∀ v, op ≠ .reward v) (h : Inv s m)
    (hu : .reward u ∉ m) :
    (resetExplore op q u).Safe Inv (guard w).resume (fun _ => Inv) s m := by
  refine safe_act_bind (fun _ => h) fun unit user hdrawn => ?_
  obtain ⟨⟨drawn, made, rfl⟩, i, hinit⟩ := drawExplore_user hdrawn
  have h' : Inv { s with user := { s.user with drawn, made } } m := h.of_same rfl rfl rfl rfl
  refine safe_bind.mpr (safe_get.mpr ?_)
  cases hunit : s.explores u with
  | none => exact h'
  | some unit₀ =>
      refine safe_bind.mpr (safe_set.mpr (safe_call.mpr ⟨(inv_apart hop).mpr ?_, fun s m hs _ =>
        (inv_apart hop).mp hs⟩))
      exact h'.put hu unit rfl rfl rfl (by rw [if_pos (initExplore_idle hinit).1])

theorem beginExplore_safe {args : BeginArgs} {found : Found} (h : Inv s m)
    (hu : .reward args.uuid ∉ m) :
    (beginExplore q args found).Safe Inv (guard w).resume (fun _ => Inv) s m := by
  refine safe_bind.mpr (safe_get.mpr ?_)
  cases hunit : s.explores args.uuid with
  | none => exact h
  | some unit =>
      simp only
      cases hrow : q.row unit.dataId with
      | none => exact h
      | some dat =>
          have hplace : ∀ v, Place.beginExplore args ≠ .reward v := fun v => by simp
          have htime := dat.time_range
          have hclock := h.clock
          unfold maxint32 at htime
          have hwrap : wrap (s.clock.now + dat.n32Time) = s.clock.now + dat.n32Time :=
            wrap_of_range (by omega) (by omega)
          refine safe_bind.mpr (safe_set.mpr (safe_call.mpr ⟨(inv_apart hplace).mpr ?_,
            fun s m hs _ => (inv_apart hplace).mp hs⟩))
          refine h.put hu _ rfl rfl rfl ?_
          simp only [hwrap]
          rw [if_neg (by omega)]

theorem Inv.idle (h : Inv s m) {unit : Explore} (hunit : s.explores u = some unit)
    (htime : unit.time = 0) : .reward u ∉ m := fun hu => by
  obtain ⟨d, hd, -⟩ := h.timely u hu
  rw [h.due, dueOf, hunit, Option.bind_some, if_pos htime] at hd
  exact Option.some_ne_none d hd.symm

theorem setExplore_safe {args : BeginArgs} (uuid : String) (time : ℤ) (h : Inv s m)
    (hu : .reward args.uuid ∉ m) :
    (Cards.setExplore (.setExplore args) uuid time).Safe Inv (guard w).resume
      (fun _ s m => Inv s m ∧ .reward args.uuid ∉ m) s m := by
  have hplace : ∀ v, Place.setExplore args ≠ .reward v := fun v => by simp
  refine safe_bind.mpr (safe_get.mpr ?_)
  cases hcard : Cards.getCardByUuid s.user.cards uuid with
  | none => exact ⟨h, hu⟩
  | some card =>
      refine safe_bind.mpr (safe_set.mpr (safe_call.mpr ⟨(inv_apart hplace).mpr ?_,
        fun s m hs hok => ⟨(inv_apart hplace).mp hs, hok⟩⟩))
      exact h.of_same rfl rfl rfl rfl

theorem exploreBegin_safe {args : BeginArgs} (h : Inv s m) :
    (exploreBegin q args).Safe Inv (guard w).resume (fun _ => Inv) s m := by
  refine safe_bind.mpr (safe_get.mpr ?_)
  split
  · exact h
  · cases hunit : s.explores args.uuid with
    | none => exact h
    | some unit =>
        simp only
        split
        · exact h
        · next htime =>
            refine safe_bind.mpr (Safe.mono (safe_forM
              (P := fun s m => Inv s m ∧ .reward args.uuid ∉ m) (fun i _ s m hs => ?_)
              ⟨h, h.idle hunit (not_not.mp htime)⟩) fun _ s m hs => ?_)
            · unfold Coroutine.when
              split
              · exact setExplore_safe _ _ hs.1 hs.2
              · exact hs
            · exact safe_bind.mpr ((beginExplore_safe hs.1 hs.2).mono fun _ _ _ h => h)

/-! ## Refreshing -/

theorem Inv.of_spend (hw : SpendWrite u s s') (h : Inv s m) : Inv s' m := by
  cases hw with
  | quotas hw | times hw | count _ hw | note _ _ hw => exact hw ▸ h.of_same rfl rfl rfl rfl
  | money paid hg => exact h.of_grants hg

theorem refresh_apart {place : Place} (hplace : place ∈ refreshPlaces u) :
    Inv s (place ::ₘ m) ↔ Inv s m := by
  obtain ⟨phase, paid, rfl⟩ := hplace
  exact inv_apart fun v => by simp

theorem refresh_safe {paid : Bool} {costMoney : ℤ} (h : Inv s m) :
    (refresh q u paid costMoney).Safe Inv (guard w).resume (fun _ => Inv) s m := by
  refine (stays_pay u paid _).then_safe_apart (fun _ hp _ _ => refresh_apart hp)
    (fun _ _ _ => Inv.of_spend) h fun _ s m hs => ?_
  refine safe_bind.mpr (safe_modify.mpr (safe_bind.mpr (safe_get.mpr (safe_bind.mpr (safe_bind.mpr
    (safe_modify.mpr (safe_call.mpr ⟨(refresh_apart (refresh_mem _ u paid)).mpr ?_, ?_⟩)))))))
  · exact hs.of_same rfl rfl rfl rfl
  · intro s m hs hok
    refine safe_bind.mpr ((resetExplore_safe (fun v => by simp)
      ((refresh_apart (refresh_mem _ u paid)).mp hs) hok).mono fun _ s m hs => ?_)
    exact hs.of_same rfl rfl rfl rfl

theorem refreshCounted_safe {paid : Bool} {costMoney : ℤ} (h : Inv s m) :
    (refreshCounted q u paid costMoney).Safe Inv (guard w).resume (fun _ => Inv) s m := by
  refine (stays_haveExploreTimes u paid).then_safe_apart (fun _ hp _ _ => refresh_apart hp)
    (fun _ _ _ => Inv.of_spend) h fun ok s m hs => ?_
  cases ok with
  | false => exact hs
  | true =>
      exact (stays_addExploreTimes u paid).then_safe_apart (fun _ hp _ _ => refresh_apart hp)
        (fun _ _ _ => Inv.of_spend) hs fun _ _ _ => refresh_safe

theorem exploreRefresh_safe (h : Inv s m) :
    (exploreRefresh q u).Safe Inv (guard w).resume (fun _ => Inv) s m := by
  refine safe_bind.mpr (safe_get.mpr ?_)
  cases hunit : s.explores u with
  | none => exact h
  | some unit =>
      simp only
      generalize decide (counted s RefreshExplore ≥ q.RefreshExploreTimes) = paid
      generalize (if paid = true then q.RefreshExploreCost else 0) = costMoney
      split_ifs
      · exact h
      · exact h
      · exact refreshCounted_safe h
      · exact refresh_safe h

/-! ## Ending -/

theorem Inv.noteEnd (h : Inv s (.reward u ::ₘ m)) :
    Inv { s with history := { s.history with
      ended := s.history.ended ++ [⟨u, s.history.due u, s.clock.now⟩] } } (.reward u ::ₘ m) where
  due := h.due
  ended e he := by
    rcases List.mem_append.mp he with he | he
    · exact h.ended e he
    · obtain rfl := List.mem_singleton.mp he
      exact h.timely u (Multiset.mem_cons_self _ _)
  once := h.once
  timely := h.timely
  clock := h.clock

theorem reward_safe (itemId : ℤ) (h : Inv s (.reward u ::ₘ m)) :
    (reward u itemId).Safe Inv (guard w).resume (fun _ s m => Inv s (.reward u ::ₘ m)) s m := by
  refine safe_bind.mpr (safe_modify.mpr ?_)
  refine (stays_usePackageItem itemId).then_safe (fun _ _ _ hg h => h.of_grants hg)
    (fun _ _ _ => Inv.drop) h.noteEnd fun rets s m hs => ?_
  exact (((stays_addItems rets).bind fun _ => stays_pure _) s).safe
    (fun _ _ _ hg h => h.of_grants hg) (fun _ _ _ => Inv.drop) hs

theorem exploreEnd_safe (h : Inv s m) (hguard : (guard w).request s m (.exploreEnd u)) :
    (exploreEnd q u).Safe Inv (guard w).resume (fun _ => Inv) s m := by
  refine safe_bind.mpr (safe_get.mpr ?_)
  cases hunit : s.explores u with
  | none => exact h
  | some unit =>
      simp only
      split_ifs with htime
      · exact h
      · obtain ⟨hne, hu⟩ := hguard unit hunit (not_lt.mp htime)
        cases hscore : (q.row unit.dataId).bind fun dat =>
            (score w dat s.user.cards unit).map fun score => (dat, score) with
        | none => exact h
        | some e =>
            obtain ⟨exploreDat, score⟩ := e
            have hunder : Inv s (.reward u ::ₘ m) := h.under hunit hne (not_lt.mp htime) hu
            refine safe_bind.mpr (Safe.mono (safe_forM
              (P := fun s m => Inv s (.reward u ::ₘ m)) (fun _ _ _ _ => reward_safe _) hunder)
              fun _ s m hs => ?_)
            refine safe_bind.mpr (Safe.mono (safe_forM
              (P := fun s m => Inv s (.reward u ::ₘ m)) (fun _ _ _ _ => reward_safe _) hs)
              fun _ s m hs => ?_)
            refine safe_bind.mpr (safe_modify.mpr ?_)
            refine (stays_addGold (E := True) _).then_safe (fun _ _ _ hg h => h.of_grants hg)
              (fun _ _ _ => Inv.drop) hs.noteEnd fun _ s m hs => ?_
            refine safe_bind.mpr (safe_modify.mpr (safe_bind.mpr (Safe.mono
              (resetExplore_safe (fun v => by simp) hs.noteEnd.drop ?_) fun _ _ _ h => h)))
            exact hs.last

/-! ## Runs -/

theorem handle_safe (r : Request) (h : Inv s m) (hguard : (guard w).request s m r) :
    (handle q r).Safe Inv (guard w).resume (fun _ => Inv) s m := by
  cases r with
  | buyShopItem id num => exact safe_bind.mpr (buyShopItem_safe id num h)
  | exploreBegin args => exact safe_bind.mpr (exploreBegin_safe h)
  | exploreEnd u => exact safe_bind.mpr (exploreEnd_safe h hguard)
  | exploreRefresh u => exact safe_bind.mpr (exploreRefresh_safe h)
  | refreshTimes => exact refreshTimes_safe h

theorem Inv.tick (h : Inv s m) {clock : Clock} (hclock : (guard w).outside s m clock) :
    Inv { s with clock } m where
  due := h.due
  ended := h.ended
  once := h.once
  timely u hu := by
    obtain ⟨d, hd, hle⟩ := h.timely u hu
    exact ⟨d, hd, hle.trans hclock.1⟩
  clock := ⟨h.clock.1.trans_le hclock.1, hclock.2⟩

/-- `exploreEnd` refuses an exploration that is under way, and fails for one that does not exist. -/
theorem exploreEnd_refuses (h : Inv s m) (hguard : (guard w).request s m (.exploreEnd u)) :
    Over s u ∨ (exploreEnd q u).exec s = (s, .done (-1)) ∨
      s.explores u = none ∧ (exploreEnd q u).exec s = (s, .raised) := by
  cases hunit : s.explores u with
  | none =>
      refine .inr (.inr ⟨rfl, ?_⟩)
      rw [exploreEnd, exec_get_bind, hunit]
      exact exec_raise s
  | some unit =>
      by_cases htime : unit.time > s.clock.now
      · refine .inr (.inl ?_)
        rw [exploreEnd, exec_get_bind, hunit]
        simp only [if_pos htime, exec_pure]
      · have hle := not_lt.mp htime
        have hne := (hguard unit hunit hle).1
        exact .inl ⟨unit.time, by simp [h.due, dueOf, hunit, hne], hle⟩

/-- Rewards are handed out and explorations rerolled by `exploreEnd` only when they are over; it
refuses everything else and changes nothing. -/
theorem explore_end_over (s₀ : State w) (hdue : s₀.history.due = dueOf s₀.explores)
    (hended : OnlyWhenOver s₀) (hclock : 0 < s₀.clock.now ∧ s₀.clock.now < 2 ^ 62)
    {p : Pool (State w) Place} (h : ((server w q).system s₀).Runs (guard w).Admits p) :
    OnlyWhenOver p.shared ∧ ∀ u, (guard w).request p.shared p.places (.exploreEnd u) →
      Over p.shared u ∨ (exploreEnd q u).exec p.shared = (p.shared, .done (-1)) ∨
        p.shared.explores u = none ∧ (exploreEnd q u).exec p.shared = (p.shared, .raised) := by
  have hinv : Inv p.shared p.places :=
    Server.invariant _ ⟨hdue, hended, by simp, by simp, hclock⟩
      (fun s m r hs hr => handle_safe r hs hr) (fun s m clock hs hc => hs.tick hc) h
  exact ⟨hinv.ended, fun u hu => exploreEnd_refuses hinv hu⟩

theorem idler_due : idler.history.due = dueOf idler.explores := by
  funext u
  by_cases hu : u = "e" <;> simp [idler, dueOf, hu, idle] <;> rfl

/-- The exploration is begun, its time passes, and it is ended. -/
theorem explore_end_over_begun :
    ∃ p, ((server default library).system idler).Runs (guard default).Admits p ∧
      p.shared.history.ended.length = 2 ∧ OnlyWhenOver p.shared := by
  have hrun : ∃ p, ((server default library).system idler).Runs (guard default).Admits p ∧
      p.shared.history.ended.length = 2 := by
    refine ⟨_, .step (i := .resume 0) (.step (i := .request (.exploreEnd "e"))
      (.step (i := .outside ⟨22600, 86400, 86400⟩) (.step (i := .resume 0)
      (.step (i := .request (.exploreBegin ⟨"e", !["x", "", ""]⟩)) .init trivial rfl)
      (fun v hv => ?_) rfl) ⟨by decide, by decide⟩ rfl) (fun unit hunit _ => ?_) rfl)
      (fun v hv => ?_) rfl, rfl⟩
    · obtain rfl := Option.some.inj hv
      trivial
    · obtain rfl := Option.some.inj hunit
      exact ⟨by decide, by decide⟩
    · obtain rfl := Option.some.inj hv
      trivial
  obtain ⟨p, hp, hlength⟩ := hrun
  exact ⟨p, hp, hlength, (explore_end_over idler idler_due (fun e he => by cases he)
    ⟨by decide, by decide⟩ hp).1⟩

/-- `exploreEnd` rerolls an exploration that nobody began. -/
theorem exploreEnd_idle : ¬ ∀ (w : World) (q : ExploreData) (s₀ : State w),
    s₀.history.due = dueOf s₀.explores → OnlyWhenOver s₀ →
    0 < s₀.clock.now ∧ s₀.clock.now < 2 ^ 62 →
    ∀ p, ((server w q).system s₀).Runs (anyOrder w).Admits p → OnlyWhenOver p.shared :=
    fun hall => by
  have hrun : ∃ p, ((server default library).system idler).Runs (anyOrder default).Admits p ∧
      p.places = 0 ∧ p.shared.history.ended = [⟨"e", none, 1000⟩, ⟨"e", none, 1000⟩] := by
    exact ⟨_, .step (i := .resume 0) (.step (i := .request (.exploreEnd "e")) .init trivial rfl)
      (fun _ _ => trivial) rfl, rfl, rfl⟩
  obtain ⟨p, hp, -, hlog⟩ := hrun
  have honly := hall default library idler idler_due (fun e he => by cases he)
    ⟨by decide, by decide⟩ p hp
  obtain ⟨d, hd, -⟩ := honly ⟨"e", none, 1000⟩ (by rw [hlog]; exact List.mem_cons_self)
  exact Option.some_ne_none d hd.symm

end GameServer.Player.ExploreEnd
