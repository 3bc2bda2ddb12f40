import GameServer.Player

/-!
# What the requests of a player write

What a purchase keeps, and what the writes of the requests about explorations are.
-/

namespace GameServer.Player

open Goods Agent Cooperative Coroutine AgentService Shop Transition

variable {w : World} {s s' s'' : State w} {E : Prop}

/-! ## Purchases -/

def Place.OfBuy : Place → Prop
  | .cddown _ _ | .buy _ _ => True
  | _ => False

def buyPlaces : Set Place := {p | p.OfBuy}

theorem cddown_mem (id num : ℤ) : Place.cddown id num ∈ buyPlaces := trivial

theorem buy_mem (phase : BuyPhase) (p : Purchase) : Place.buy phase p ∈ buyPlaces := trivial

/-- What a purchase keeps. -/
structure Bought (s s' : State w) : Prop where
  clock : s'.clock = s.clock
  explores : s'.explores = s.explores
  level : s'.user.level = s.user.level
  uuids : s.user.cards.map (·.uuid) <+: s'.user.cards.map (·.uuid)
  counter : s'.user.activitys RefreshExplore = s.user.activitys RefreshExplore
  history : s'.history = { s.history with sales := s'.history.sales }
  ledger : ∃ l, s'.ledger = s.ledger ++ l ∧ ∀ d ∈ l, d.op ∈ buyPlaces

theorem Bought.of_grants {op : Place} (hop : op ∈ buyPlaces) (h : Grants op s s') :
    Bought s s' where
  clock := h.clock
  explores := h.explores
  level := h.level
  uuids := h.uuids
  counter := by rw [h.activitys]
  history := by rw [h.history]
  ledger := by
    obtain ⟨l, hl, hall⟩ := h.ledger
    exact ⟨l, hl, fun d hd => hall d hd ▸ hop⟩

theorem stays_bought {α : Type} {t : Step w α} {op : Place} (hop : op ∈ buyPlaces)
    (ht : t.Stays {op} (Grants op) True) : t.Stays buyPlaces Bought True :=
  ht.mono (Set.singleton_subset_iff.mpr hop) (fun _ _ h => .of_grants hop h) id

theorem Bought.quotas {account : Agent.Account} {resets : ℕ} :
    Bought s { s with user := { s.user with account }, resets } :=
  ⟨rfl, rfl, rfl, List.prefix_rfl, rfl, rfl, [], by simp⟩

theorem stays_refreshTimes {P : Set Place} {R : State w → State w → Prop} {op : Place}
    (hop : op ∈ P) (hR : ∀ s : State w, s.user.account.refreshtime < s.clock.now →
      R s { s with user := { s.user with account := s.user.account.refreshTimes s.env }
                   resets := s.resets + 1 }) :
    (AgentService.Account.refreshTimes op : Step w Unit).Stays P R E := by
  refine stays_get_bind fun s => ?_
  unfold Coroutine.when
  split
  · next hlt => exact ⟨hR s hlt, stays_call hop _⟩
  · exact stays_pure () s

theorem stays_haveBuyBoxTimes {op : Place} (hop : op ∈ buyPlaces) (num : ℤ) :
    (AgentService.Account.haveBuyBoxTimes op num : Step w Bool).Stays buyPlaces Bought True :=
  (stays_refreshTimes hop fun _ _ => .quotas).bind fun _ => stays_get_bind fun _ => trivial

theorem stays_addBuyBoxTimes {op again : Place} (hop : op ∈ buyPlaces) (hagain : again ∈ buyPlaces)
    (num : ℤ) : (AgentService.Account.addBuyBoxTimes op again num : Step w Unit).Stays
      buyPlaces Bought True := by
  unfold AgentService.Account.addBuyBoxTimes
  split
  · exact stays_pure ()
  · exact (stays_refreshTimes hagain fun _ _ => .quotas).bind fun _ =>
      (stays_modify fun _ => .quotas).bind fun _ => stays_call hop

theorem Bought.addValue {atype val : ℤ} {expire : Option ℤ} (h : atype ≠ RefreshExplore) :
    Bought s { s with user := { s.user with
      activitys := s.user.activitys.addValue s.env atype val expire } } :=
  ⟨rfl, rfl, rfl, List.prefix_rfl, addValue_of_ne _ _ h.symm, rfl, [], by simp⟩

theorem stays_addValue {op : Place} {atype val : ℤ} {expire : Option ℤ} (hop : op ∈ buyPlaces)
    (h : atype ≠ RefreshExplore) :
    (Activitys.addValue op atype val expire : Step w Unit).Stays buyPlaces Bought True :=
  (stays_modify fun _ => .addValue h).bind fun _ => stays_call hop

theorem stays_sold (p : Purchase) (paid : ℤ) :
    (sold p paid : Step w Unit).Stays buyPlaces Bought True :=
  stays_modify fun _ => ⟨rfl, rfl, rfl, List.prefix_rfl, rfl, rfl, [], by simp⟩

theorem stays_deliver {p : Purchase} (hp : p.atype ≠ RefreshExplore) (paid expire : ℤ) :
    (deliver p paid expire : Step w Unit).Stays buyPlaces Bought True := by
  have hgoods := buy_mem .goods p
  unfold deliver
  simp only
  split_ifs
  · exact stays_bought hgoods (stays_addGold _)
  · refine (stays_bought hgoods (stays_usePackageItem _)).bind fun items =>
      (stays_bought hgoods ((stays_addItems items).bind fun _ => stays_pure _)).bind fun _ =>
      (stays_sold p paid).bind fun _ => stays_get_bind fun s => ?_
    exact ((stays_addValue (buy_mem _ _) hp).bind fun _ =>
      stays_addBuyBoxTimes (buy_mem _ _) (buy_mem _ _) _) s
  · exact (stays_bought hgoods ((stays_addItems _).bind fun _ => stays_pure _)).bind fun _ =>
      (stays_sold p paid).bind fun _ => stays_addValue (buy_mem _ _) hp
  · refine (stays_bought hgoods (stays_usePackageItem _)).bind fun items =>
      (stays_bought hgoods ((stays_addItems items).bind fun _ => stays_pure _)).bind fun _ =>
      stays_modify fun _ => ⟨rfl, rfl, rfl, List.prefix_rfl, rfl, rfl, [], by simp⟩
  · exact stays_pure _

theorem stays_purchase {p : Purchase} (hp : p.atype ≠ RefreshExplore) (expire : ℤ) :
    (purchase p expire : Step w ℤ).Stays buyPlaces Bought True := by
  have hpay := buy_mem .pay p
  exact stays_get_bind fun s =>
    ((stays_when fun _ => stays_bought hpay (stays_addGold _)).bind fun _ =>
      (stays_when fun _ => stays_bought hpay (stays_addMoney _)).bind fun _ =>
      (stays_deliver hp _ expire).bind fun _ => stays_pure _) s

theorem counter_ne {env : Env} {user : User} {shopDat : ShopRow} {atype hasBuy : ℤ}
    (h : counter env user shopDat = some (atype, hasBuy)) : atype ≠ RefreshExplore := by
  unfold counter at h
  split_ifs at h
  · obtain ⟨a, ha, hpair⟩ := Option.map_eq_some_iff.mp h
    unfold BuyShopCard at ha
    simp only [Prod.mk.injEq] at hpair
    split at ha <;> simp_all [RefreshExplore] <;> omega
  · obtain ⟨a, ha, hpair⟩ := Option.map_eq_some_iff.mp h
    unfold BaoXiang at ha
    simp only [Prod.mk.injEq] at hpair
    split at ha <;> simp_all [RefreshExplore] <;> omega
  · simp only [Option.some.injEq, Prod.mk.injEq] at h
    rw [← h.1]
    decide

theorem stays_buyShopItem (id num : ℤ) :
    (buyShopItem id num : Step w ℤ).Stays buyPlaces Bought True := by
  unfold buyShopItem
  cases w.shopRepository id with
  | none => exact stays_raise trivial
  | some shopDat =>
      refine (stays_when fun _ => stays_call (cddown_mem id num)).bind fun _ => stays_get_bind
        fun s => ?_
      cases hcounter : counter s.env s.user shopDat with
      | none => exact trivial
      | some e =>
          obtain ⟨atype, hasBuy⟩ := e
          have hne := counter_ne hcounter
          simp only
          split
          · exact stays_pure _ s
          · split_ifs
            · refine ((stays_haveBuyBoxTimes (buy_mem _ _) num).bind fun ok => ?_) s
              split_ifs
              · exact stays_purchase hne _
              · exact stays_pure _
            · exact stays_purchase hne _ s

/-! ## Drawing an exploration -/

/-- Nothing but identifiers and random numbers is used up when an exploration is drawn. -/
theorem drawExplore_user {q : ExploreData} {env : Env} {u u' : User} {unit : Explore}
    (h : drawExplore q env u = some (unit, u')) :
    (∃ drawn made, u' = { u with drawn, made }) ∧
      ∃ i, initExplore q env u.level u.drawn = some (unit, i) := by
  obtain ⟨r, hr, he⟩ := Option.map_eq_some_iff.mp h
  simp only [Prod.mk.injEq] at he
  exact ⟨⟨_, _, he.2.symm⟩, r.2, by rw [← he.1]; exact hr⟩

theorem drawExplore_isSome {q : ExploreData} {env : Env} {u : User}
    (h : (initExplore q env u.level u.drawn).isSome) : drawExplore q env u ≠ none := fun hnone => by
  obtain ⟨r, hr⟩ := Option.isSome_iff_exists.mp h
  have hsome : drawExplore q env u = some (r.1, { u with made := u.made + 1, drawn := r.2 }) :=
    Option.map_eq_some_iff.mpr ⟨r, hr, rfl⟩
  rw [hnone] at hsome
  exact Option.some_ne_none _ hsome.symm

theorem halve_uuid {env : Env} {slots slots' : Fin 3 → Slot} {j : Fin 3} {i i' : ℕ}
    (h : halve env slots j i = some (slots', i')) (k : Fin 3) :
    (slots' k).uuid = (slots k).uuid := by
  simp only [halve, bind, StateT.bind, Option.bind_eq_some_iff] at h
  obtain ⟨⟨half, i₁⟩, -, h⟩ := h
  simp only [pure_apply, Option.some.injEq, Prod.mk.injEq] at h
  rw [← h.1]
  by_cases hk : k = j
  · rw [hk, Function.update_self]
    split_ifs <;> rfl
  · rw [Function.update_of_ne hk]

theorem halves_uuid {env : Env} {js : List (Fin 3)} {slots slots' : Fin 3 → Slot} {i i' : ℕ}
    (h : js.foldlM (halve env) slots i = some (slots', i')) (k : Fin 3) :
    (slots' k).uuid = (slots k).uuid := by
  induction js generalizing slots i with
  | nil =>
      simp only [List.foldlM_nil, pure_apply, Option.some.injEq, Prod.mk.injEq] at h
      rw [h.1]
  | cons j js ih =>
      simp only [List.foldlM_cons, bind, StateT.bind, Option.bind_eq_some_iff] at h
      obtain ⟨⟨slots₁, i₁⟩, hj, h⟩ := h
      rw [ih h, halve_uuid hj]

/-- A new exploration is idle and its slots are empty. -/
theorem initExplore_idle {q : ExploreData} {env : Env} {level : ℤ} {i i' : ℕ} {unit : Explore}
    (h : initExplore q env level i = some (unit, i')) :
    unit.time = 0 ∧ ∀ k, (unit.slots k).uuid = "" := by
  simp only [initExplore, bind, StateT.bind, Option.bind_eq_some_iff] at h
  obtain ⟨⟨rd, i₁⟩, -, h⟩ := h
  cases hfind : (rates level 0 q.exploreRepository).find? (fun v => decide (v.2.2 ≥ rd)) with
  | none => simp [hfind, Goods.raise] at h
  | some e =>
      obtain ⟨dataId, dat, rate⟩ := e
      simp only [hfind, bind, StateT.bind, Option.bind_eq_some_iff] at h
      obtain ⟨⟨att0, i₂⟩, -, ⟨cam0, i₃⟩, -, ⟨cam1, i₄⟩, -, ⟨att1, i₅⟩, -, ⟨cam2, i₆⟩, -,
        ⟨att2, i₇⟩, -, ⟨slots, i₈⟩, hslots, h⟩ := h
      simp only [pure_apply, Option.some.injEq, Prod.mk.injEq] at h
      rw [← h.1]
      refine ⟨rfl, fun k => ?_⟩
      rw [halves_uuid hslots k]
      fin_cases k <;> rfl

/-- The writes of `resetExplore`. -/
inductive ResetWrite (u : String) : State w → State w → Prop
  | draw (s : State w) (drawn made : ℕ) :
      ResetWrite u s { s with user := { s.user with drawn, made } }
  | reset (s : State w) (unit unit' : Explore) (h : s.explores u = some unit)
      (htime : unit'.time = 0) (hslots : ∀ k, (unit'.slots k).uuid = "") :
      ResetWrite u s { s with
        explores := Function.update s.explores u (some unit')
        history := { s.history with due := Function.update s.history.due u none } }

theorem stays_resetExplore (q : ExploreData) (op : Place) (u : String) :
    (resetExplore op q u : Step w Unit).Stays {op} (ResetWrite u) True := by
  refine stays_act_bind trivial fun s unit user hdrawn => ?_
  obtain ⟨⟨drawn, made, rfl⟩, i, hinit⟩ := drawExplore_user hdrawn
  refine ⟨.draw s drawn made, stays_get_bind (fun s' => ?_) _⟩
  cases hunit : s'.explores u with
  | none => exact trivial
  | some unit₀ =>
      obtain ⟨htime, hslots⟩ := initExplore_idle hinit
      exact ⟨.reset _ unit₀ unit hunit htime hslots, stays_call (Set.mem_singleton op) _⟩

/-! ## The requests about explorations -/

/-- The writes of `exploreBegin`. -/
inductive BeginWrite (args : BeginArgs) : State w → State w → Prop
  | card (s : State w) (uuid : String) (time : ℤ) : BeginWrite args s { s with user := { s.user with
      cards := Cards.setCard s.user.cards uuid fun v => { v with explore := time } } }
  | begins (s : State w) (unit unit' : Explore) (due : ℤ) (found : Found)
      (h : s.explores args.uuid = some unit) : BeginWrite args s { s with
        explores := Function.update s.explores args.uuid (some unit')
        history := { s.history with
          due := Function.update s.history.due args.uuid (some due)
          found := Function.update s.history.found args.uuid (some found) } }

theorem stays_exploreBegin (q : ExploreData) (args : BeginArgs) :
    (exploreBegin q args : Step w ℤ).Stays {.setExplore args, .beginExplore args}
      (BeginWrite args) True := by
  refine stays_get_bind fun s => ?_
  split_ifs
  · exact stays_pure _ s
  · cases s.explores args.uuid with
    | none => exact trivial
    | some unit =>
        simp only
        split_ifs
        · exact stays_pure _ s
        · refine Stays.bind (stays_forM fun i _ => stays_when fun _ => stays_get_bind fun s => ?_)
            (fun _ => Stays.bind (stays_get_bind fun s => ?_) fun _ => stays_pure _) s
          · cases Cards.getCardByUuid s.user.cards (args.uuids i) with
            | none => exact trivial
            | some card => exact ⟨.card s _ _, stays_call (.inl rfl) _⟩
          · cases hunit : s.explores args.uuid with
            | none => exact trivial
            | some unit =>
                simp only
                cases q.row unit.dataId with
                | none => exact trivial
                | some dat => exact ⟨.begins s unit _ _ _ hunit, stays_call (.inr rfl) _⟩

/-- The writes of `exploreEnd`. -/
inductive EndWrite (u : String) (s s' : State w) : Prop
  | grants (h : Grants (.reward u) s s')
  | note (h : s' = { s with history := { s.history with
      ended := s.history.ended ++ [⟨u, s.history.due u, s.clock.now⟩] } })
  | reset (h : ResetWrite u s s')

theorem stays_noteEnd {P : Set Place} (u : String) :
    (noteEnd u : Step w Unit).Stays P (EndWrite u) E := stays_modify fun _ => .note rfl

theorem stays_rewarding {α : Type} {t : Step w α} {u : String}
    (ht : t.Stays {.reward u} (Grants (.reward u)) True) :
    t.Stays {.reward u, .resetExplore u} (EndWrite u) True :=
  ht.mono (by simp) (fun _ _ => .grants) id

theorem stays_exploreEnd (q : ExploreData) (u : String) :
    (exploreEnd q u : Step w ℤ).Stays {.reward u, .resetExplore u} (EndWrite u) True := by
  have hreward : ∀ itemId, (reward u itemId : Step w Unit).Stays {.reward u, .resetExplore u}
      (EndWrite u) True := fun itemId =>
    (stays_noteEnd u).bind fun _ => (stays_rewarding (stays_usePackageItem itemId)).bind fun rets =>
      stays_rewarding ((stays_addItems rets).bind fun _ => stays_pure _)
  refine stays_get_bind fun s => ?_
  cases s.explores u with
  | none => exact trivial
  | some unit =>
      simp only
      split_ifs
      · exact stays_pure _ s
      · cases (q.row unit.dataId).bind fun dat =>
            (score w dat s.user.cards unit).map fun score => (dat, score) with
        | none => exact trivial
        | some e =>
            refine ((stays_forM fun _ _ => hreward _).bind fun _ =>
              (stays_forM fun _ _ => hreward _).bind fun _ => (stays_noteEnd u).bind fun _ =>
              (stays_rewarding (stays_addGold _)).bind fun _ => (stays_noteEnd u).bind fun _ =>
              Stays.bind ?_ fun _ => stays_pure _) s
            exact (stays_resetExplore q _ u).mono (by simp) (fun _ _ => .reset) id

/-- The writes of `exploreRefresh` before the exploration is reset. -/
inductive SpendWrite (u : String) (s s' : State w) : Prop
  | quotas (h : s' = { s with
      user := { s.user with account := s.user.account.refreshTimes s.env }
      resets := s.resets + 1 })
  | times (h : s' = { s with user := { s.user with account := { s.user.account with
      exploretimes := wrap (s.user.account.exploretimes + -1) } } })
  | money (paid : Bool) (h : Grants (.refresh .pay u paid) s s')
  | count (expire : Option ℤ) (h : s' = { s with user := { s.user with
      activitys := s.user.activitys.addValue s.env RefreshExplore 1 expire } })
  | note (free paid : ℕ) (h : s' = { s with history := { s.history with free, paid } })

inductive RefreshWrite (u : String) (s s' : State w) : Prop
  | spend (h : SpendWrite u s s')
  | reset (h : ResetWrite u s s')

def refreshPlaces (u : String) : Set Place := {p | ∃ phase paid, p = .refresh phase u paid}

theorem refresh_mem (phase : RefreshPhase) (u : String) (paid : Bool) :
    Place.refresh phase u paid ∈ refreshPlaces u := ⟨phase, paid, rfl⟩

theorem stays_haveExploreTimes (u : String) (paid : Bool) :
    (AgentService.Account.haveExploreTimes (.refresh .quota u paid) : Step w Bool).Stays
      (refreshPlaces u) (SpendWrite u) True :=
  (stays_refreshTimes (refresh_mem _ u paid) fun _ _ => .quotas rfl).bind fun _ =>
    stays_get_bind fun s => stays_pure (E := True) _ s

theorem stays_addExploreTimes (u : String) (paid : Bool) :
    (AgentService.Account.addExploreTimes (.refresh .times u paid) (.refresh .again u paid) (-1) :
      Step w Unit).Stays (refreshPlaces u) (SpendWrite u) True :=
  (stays_refreshTimes (refresh_mem _ u paid) fun _ _ => .quotas rfl).bind fun _ =>
    (stays_modify fun _ => .times rfl).bind fun _ => stays_call (refresh_mem _ u paid)

theorem stays_pay (u : String) (paid : Bool) (money : ℤ) :
    (AgentService.Account.addMoney (.refresh .pay u paid) money : Step w Unit).Stays
      (refreshPlaces u) (SpendWrite u) True :=
  (stays_addMoney (E := True) money).mono (Set.singleton_subset_iff.mpr (refresh_mem _ u paid))
    (fun _ _ h => .money paid h) id

theorem stays_count (u : String) (paid : Bool) (expire : Option ℤ) :
    (Activitys.addValue (.refresh .count u paid) RefreshExplore 1 expire : Step w Unit).Stays
      (refreshPlaces u) (SpendWrite u) True :=
  (stays_modify fun _ => .count expire rfl).bind fun _ => stays_call (refresh_mem _ u paid)

theorem stays_spending {α : Type} {t : Step w α} {u : String}
    (ht : t.Stays (refreshPlaces u) (SpendWrite u) True) :
    t.Stays (refreshPlaces u) (RefreshWrite u) True := ht.mono subset_rfl (fun _ _ => .spend) id

theorem stays_refresh (q : ExploreData) (u : String) (paid : Bool) (costMoney : ℤ) :
    (refresh q u paid costMoney : Step w ℤ).Stays (refreshPlaces u) (RefreshWrite u) True := by
  refine (stays_spending (stays_pay u paid _)).bind fun _ =>
    Stays.bind (stays_modify fun s => .spend (.note _ s.history.paid rfl)) fun _ =>
    stays_get_bind fun s => ?_
  refine ((stays_spending (stays_count u paid _)).bind fun _ => Stays.bind ?_ fun _ =>
    Stays.bind (stays_modify fun s => .spend (.note s.history.free _ rfl)) fun _ => stays_pure _) s
  exact (stays_resetExplore q _ u).mono (Set.singleton_subset_iff.mpr (refresh_mem _ u paid))
    (fun _ _ => .reset) id

theorem stays_exploreRefresh (q : ExploreData) (u : String) :
    (exploreRefresh q u : Step w ℤ).Stays (refreshPlaces u) (RefreshWrite u) True := by
  refine stays_get_bind fun s => ?_
  cases s.explores u with
  | none => exact trivial
  | some unit =>
      simp only
      generalize decide (counted s RefreshExplore ≥ q.RefreshExploreTimes) = paid
      generalize (if paid = true then q.RefreshExploreCost else 0) = costMoney
      split_ifs
      · exact stays_pure _ s
      · exact stays_pure _ s
      · refine ((stays_spending (stays_haveExploreTimes u paid)).bind fun ok => ?_) s
        cases ok with
        | false => exact stays_pure _
        | true =>
            exact (stays_spending (stays_addExploreTimes u paid)).bind fun _ =>
              stays_refresh q u paid costMoney
      · exact stays_refresh q u paid costMoney s

/-! ## Runs in which no time passes -/

theorem runs_anyOrder {q : ExploreData} {s₀ : State w} {p : Pool (State w) Place}
    (labels : List (Label Request Clock)) (h : ∀ l ∈ labels, ∀ clock, l ≠ .outside clock)
    (hr : ((server w q).system s₀).run ((server w q).system s₀).init labels = some p) :
    ((server w q).system s₀).Runs (anyOrder w).Admits p := by
  refine System.Runs.of_run .init (fun l hl u => ?_) hr
  cases l with
  | request r => trivial
  | resume k => exact fun _ _ => trivial
  | outside clock => exact absurd rfl (h _ hl clock)

end GameServer.Player
