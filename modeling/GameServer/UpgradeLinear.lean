import GameServer.Upgrades

/-!
# Upgrades that overlap

Two requests for one item that pass the checks before either has raised the level raise it once and
pay twice. An upgrade is linear when each request that passes the checks finds no other request for
the item on its way to the level.
-/

namespace GameServer.Upgrades

open Goods Agent Cooperative Coroutine AgentService Transition

variable {w : World} {s₀ s s' : State w} {m m' : Multiset Place} {x : Item} {p : Upgrade}
  {place place' : Place} {f : Place → ℕ}

/-- A request that passes the checks finds none for its item that has not raised the level yet. -/
def guard (w : World) : Server.Guard (State w) Place Item Empty where
  request s m x := ∀ p, checks w s.user x = some (.ok p) →
    ∀ place ∈ m, place.upgrade.item = p.item → place.phase = .level
  resume _ _ _ := True
  outside _ _ _ := True

/-! ## The invariant -/

def Item.HasRow (w : World) : Item → ℤ → Prop
  | .card _, dataId => (w.heroDat dataId).isSome
  | .skill _, dataId => (w.skillDat dataId).isSome

/-- The values that the checks read still hold. -/
structure Ready (s : State w) (place : Place) (v : Held) : Prop where
  held : held s place.upgrade.item = some v
  nextId : place.upgrade.nextId = place.upgrade.item.next v.dataId
  gold : place.upgrade.gold = place.upgrade.item.gold w v.dataId
  stuff : place.upgrade.stuff = place.upgrade.item.stuff w v.dataId
  enough : place.phase = .gold → (place.upgrade.stuff : ℤ) ≤ v.count
  row : place.upgrade.item.HasRow w v.dataId
  next_row : place.upgrade.item.HasRow w place.upgrade.nextId

/-- The request has not raised the level yet. -/
def Place.early (place : Place) : ℕ := if place.phase = .level then 0 else 1

structure Inv (s₀ s : State w) (m : Multiset Place) : Prop where
  linear : ∀ x, Linear s₀ s m x
  ready : ∀ place ∈ m, place.phase ≠ .level → ∃ v, Ready s place v
  alone : ∀ x, ahead Place.early m x ≤ 1
  range : ∀ x, ∀ v ∈ held s x, v.count < 2 ^ 63
  balance : (s.user.account.gold : ℤ) = s₀.user.account.gold - (s.ledger.map (·.amount)).sum

/-! ## Sums over the requests that wait -/

theorem ahead_cons (f : Place → ℕ) (place : Place) (m : Multiset Place) (x : Item) :
    ahead f (place ::ₘ m) x = (if place.upgrade.item = x then f place else 0) + ahead f m x := by
  rw [ahead, Multiset.map_cons, Multiset.sum_cons]
  rfl

theorem ahead_self (f : Place → ℕ) (place : Place) (m : Multiset Place) :
    ahead f (place ::ₘ m) place.upgrade.item = f place + ahead f m place.upgrade.item := by
  rw [ahead_cons, if_pos rfl]

theorem ahead_other (f : Place → ℕ) (h : place.upgrade.item ≠ x) (m : Multiset Place) :
    ahead f (place ::ₘ m) x = ahead f m x := by
  rw [ahead_cons, if_neg h, Nat.zero_add]

theorem le_ahead (f : Place → ℕ) (h : place ∈ m) : f place ≤ ahead f m place.upgrade.item := by
  obtain ⟨t, rfl⟩ := Multiset.exists_cons_of_mem h
  rw [ahead_self]
  exact Nat.le_add_right ..

theorem cost_succ (x : Item) (price : ℤ → ℕ) (dataId : ℤ) (n : ℕ) :
    x.cost price dataId (n + 1) = x.cost price dataId n + price (x.next^[n] dataId) := by
  simp [Item.cost, List.range_succ]

/-! ## Items -/

theorem find?_map_key {α : Type} (key : α → String) (l : List α) (k k' : String) (f : α → α)
    (hf : ∀ v, key (f v) = key v) :
    (l.map fun v => if key v = k then f v else v).find? (fun v => key v = k') =
      (l.find? fun v => key v = k').map fun v => if k' = k then f v else v := by
  induction l with
  | nil => rfl
  | cons v l ih =>
      have hkey : key (if key v = k then f v else v) = key v := by split_ifs <;> simp [hf]
      by_cases hv : key v = k'
      · rw [List.map_cons, List.find?_cons_of_pos (by rw [hkey]; exact decide_eq_true hv),
          List.find?_cons_of_pos (p := fun v => key v = k') (decide_eq_true hv),
          Option.map_some, hv]
      · rw [List.map_cons, List.find?_cons_of_neg (by rw [hkey]; simpa using hv),
          List.find?_cons_of_neg (p := fun v => key v = k') (by simpa using hv), ih]

/-- One item changes, and nothing that upgrades count. -/
structure Changes (s s' : State w) (x : Item) (v : Held) : Prop where
  held : held s' x = some v
  others : ∀ y, y ≠ x → Upgrades.held s' y = Upgrades.held s y
  account : s'.user.account = s.user.account
  ledger : s'.ledger = s.ledger
  history : s'.history = s.history

theorem changes_card {uuid : String} {v : Card} (h : Cards.getCardByUuid s.user.cards uuid = some v)
    (g : Card → Card) (hg : ∀ v, (g v).uuid = v.uuid) :
    Changes s { s with user := { s.user with cards := Cards.setCard s.user.cards uuid g } }
      (.card uuid) ⟨(g v).dataId, (g v).count⟩ := by
  have hfind : ∀ uuid', Cards.getCardByUuid (Cards.setCard s.user.cards uuid g) uuid' =
      (Cards.getCardByUuid s.user.cards uuid').map fun v => if uuid' = uuid then g v else v :=
    fun uuid' => find?_map_key Card.uuid s.user.cards uuid uuid' g hg
  refine ⟨?_, fun y hy => ?_, rfl, rfl, rfl⟩
  · simp only [held, hfind, h, Option.map_some, if_true]
  · cases y with
    | card uuid' =>
        have hne : uuid' ≠ uuid := fun heq => hy (by rw [heq])
        simp only [held, hfind, if_neg hne, Option.map_id']
    | skill uuid' => rfl

theorem changes_skill {uuid : String} {v : Skill}
    (h : Skills.getSkillByUuid s.user.skills uuid = some v) (g : Skill → Skill)
    (hg : ∀ v, (g v).uuid = v.uuid) :
    Changes s { s with user := { s.user with skills := Skills.setSkill s.user.skills uuid g } }
      (.skill uuid) ⟨(g v).dataId, (g v).count⟩ := by
  have hfind : ∀ uuid', Skills.getSkillByUuid (Skills.setSkill s.user.skills uuid g) uuid' =
      (Skills.getSkillByUuid s.user.skills uuid').map fun v => if uuid' = uuid then g v else v :=
    fun uuid' => find?_map_key Skill.uuid s.user.skills uuid uuid' g hg
  refine ⟨?_, fun y hy => ?_, rfl, rfl, rfl⟩
  · simp only [held, hfind, h, Option.map_some, if_true]
  · cases y with
    | card uuid' => rfl
    | skill uuid' =>
        have hne : uuid' ≠ uuid := fun heq => hy (by rw [heq])
        simp only [held, hfind, if_neg hne, Option.map_id']

/-! ## How the invariant moves -/

theorem Linear.of_same (h : Linear s₀ s m x) (hheld : held s' x = held s x)
    (hlevels : levels s' m' x = levels s m x)
    (hstuff : ahead Place.stuff m' x = ahead Place.stuff m x)
    (hgold : ahead Place.gold m' x = ahead Place.gold m x) (hpaid : goldPaid s' x = goldPaid s x) :
    Linear s₀ s' m' x where
  item v hv := by
    rw [hheld, hlevels, hstuff]
    exact h.item v hv
  gold v hv := by
    rw [hpaid, hlevels, hgold]
    exact h.gold v hv
  enough v hv := h.enough v (hheld ▸ hv)

theorem Ready.of_same {v : Held} (h : Ready s place v)
    (hheld : Upgrades.held s' place.upgrade.item = Upgrades.held s place.upgrade.item) :
    Ready s' place v := ⟨hheld.trans h.held, h.nextId, h.gold, h.stuff, h.enough, h.row, h.next_row⟩

theorem Inv.of_missions (h : Inv s₀ s m) (hm : OnlyMissions s s') : Inv s₀ s' m := by
  obtain ⟨⟨missions, completed, rfl⟩, -⟩ := hm
  refine ⟨fun x => (h.linear x).of_same rfl rfl rfl rfl rfl, fun place hplace hphase => ?_, h.alone,
    h.range, h.balance⟩
  obtain ⟨v, hv⟩ := h.ready place hplace hphase
  exact ⟨v, hv.of_same rfl⟩

/-- Where a request is on its way to the level, the others for the item have raised theirs. -/
theorem Inv.others (h : Inv s₀ s (place ::ₘ m)) (hphase : place.phase ≠ .level)
    (hplace : place' ∈ m)
    (hphase' : place'.phase ≠ .level) : place'.upgrade.item ≠ place.upgrade.item := fun heq => by
  have hone := h.alone place.upgrade.item
  have hle := le_ahead Place.early hplace
  rw [ahead_self, Place.early, if_neg hphase] at hone
  rw [heq, Place.early, if_neg hphase'] at hle
  omega

theorem Inv.change {v : Held} (h : Inv s₀ s (place ::ₘ m)) (hphase : place.phase ≠ .level)
    (hsame : place'.upgrade = place.upgrade) (hc : Changes s s' place.upgrade.item v)
    (hlinear : Linear s₀ s' (place' ::ₘ m) place.upgrade.item)
    (hready : place'.phase ≠ .level → Ready s' place' v) (hrange : v.count < 2 ^ 63) :
    Inv s₀ s' (place' ::ₘ m) where
  linear x := by
    by_cases hx : place.upgrade.item = x
    · exact hx ▸ hlinear
    · have hx' : place'.upgrade.item ≠ x := hsame ▸ hx
      refine (h.linear x).of_same (hc.others x (Ne.symm hx)) ?_ ?_ ?_ ?_
      · rw [levels, levels, hc.history, ahead_other _ hx', ahead_other _ hx]
      · rw [ahead_other _ hx', ahead_other _ hx]
      · rw [ahead_other _ hx', ahead_other _ hx]
      · rw [goldPaid, goldPaid, hc.ledger]
  ready q hq hq' := by
    rcases Multiset.mem_cons.mp hq with rfl | hq
    · exact ⟨v, hready hq'⟩
    · obtain ⟨v', hv'⟩ := h.ready q (Multiset.mem_cons_of_mem hq) hq'
      exact ⟨v', hv'.of_same (hc.others _ (h.others hphase hq hq'))⟩
  alone x := by
    have hone := h.alone x
    have hle : place'.early ≤ place.early := by
      unfold Place.early
      rw [if_neg hphase]
      split_ifs <;> omega
    rw [ahead_cons] at hone ⊢
    rw [hsame]
    split_ifs at hone ⊢ <;> omega
  range y u hu := by
    by_cases hy : y = place.upgrade.item
    · rw [hy, hc.held, Option.mem_def, Option.some.injEq] at hu
      exact hu ▸ hrange
    · rw [hc.others y hy] at hu
      exact h.range y u hu
  balance := by
    rw [hc.account, hc.ledger]
    exact h.balance

theorem Inv.drop (h : Inv s₀ s (place ::ₘ m)) (hphase : place.phase = .level) :
    Inv s₀ { s with
      history := Function.update s.history place.upgrade.item
        (s.history place.upgrade.item + 1) } m := by
  have hother : ∀ (f : Place → ℕ), f place = 0 → ∀ x, ahead f m x = ahead f (place ::ₘ m) x :=
    fun f hf x => by
      rw [ahead_cons, hf]
      split_ifs <;> omega
  have hraised : place.raised = 1 := if_pos hphase
  have hstuff : place.stuff = 0 := if_neg (by rw [hphase]; decide)
  refine ⟨fun x => (h.linear x).of_same rfl ?_ (hother _ hstuff x) (hother _ (if_pos hphase) x) rfl,
    fun q hq hq' => ?_, fun x => ?_, h.range, h.balance⟩
  · simp only [levels]
    by_cases hx : place.upgrade.item = x
    · subst hx
      rw [ahead_self, Function.update_self, hraised]
      omega
    · rw [Function.update_of_ne (Ne.symm hx), ahead_other _ hx]
  · obtain ⟨v, hv⟩ := h.ready q (Multiset.mem_cons_of_mem hq) hq'
    exact ⟨v, hv.of_same rfl⟩
  · rw [hother _ (if_pos hphase)]
    exact h.alone x

theorem Inv.take {v : Held} (h : Inv s₀ s (⟨.gold, p⟩ ::ₘ m)) (hr : Ready s ⟨.gold, p⟩ v)
    (hc : Changes s s' p.item ⟨v.dataId, v.count - p.stuff⟩) : Inv s₀ s' (⟨.stuff, p⟩ ::ₘ m) := by
  have henough := hr.enough rfl
  have hrange := h.range p.item v hr.held
  have hold := h.linear p.item
  have hlevels : levels s' (⟨.stuff, p⟩ ::ₘ m) p.item = levels s (⟨.gold, p⟩ ::ₘ m) p.item := by
    rw [levels, levels, hc.history, ahead_cons, ahead_cons]
    rfl
  have hstuff : ahead Place.stuff (⟨.stuff, p⟩ ::ₘ m) p.item =
      p.stuff + ahead Place.stuff (⟨.gold, p⟩ ::ₘ m) p.item := by
    rw [ahead_cons, ahead_cons, if_pos rfl, if_pos rfl]
    change p.stuff + _ = p.stuff + (0 + _)
    rw [Nat.zero_add]
  have hgold : ahead Place.gold (⟨.stuff, p⟩ ::ₘ m) p.item =
      ahead Place.gold (⟨.gold, p⟩ ::ₘ m) p.item := by
    rw [ahead_cons, ahead_cons]
    rfl
  have hready : Ready s' ⟨.stuff, p⟩ ⟨v.dataId, v.count - p.stuff⟩ :=
    ⟨hc.held, hr.nextId, hr.gold, hr.stuff, nofun, hr.row, hr.next_row⟩
  refine h.change nofun rfl hc ⟨fun v₀ hv₀ => ?_, fun v₀ hv₀ => ?_, fun u hu => ?_⟩
    (fun _ => hready) (by simp only; omega)
  · have hitem := (hold.item v₀ hv₀).symm.trans hr.held
    obtain ⟨hdata, hcount⟩ := Held.mk.inj (Option.some.inj hitem)
    rw [hc.held, hlevels, hstuff, hdata]
    congr 2
    push_cast
    omega
  · rw [goldPaid, hc.ledger, hlevels, hgold]
    exact hold.gold v₀ hv₀
  · rw [hc.held, Option.mem_def, Option.some.injEq] at hu
    rw [← hu]
    exact Int.sub_nonneg_of_le henough

theorem Inv.raise {v : Held} (h : Inv s₀ s (⟨.stuff, p⟩ ::ₘ m)) (hr : Ready s ⟨.stuff, p⟩ v)
    (hc : Changes s s' p.item ⟨p.nextId, v.count⟩) : Inv s₀ s' (⟨.level, p⟩ ::ₘ m) := by
  have hold := h.linear p.item
  have hlevels : levels s' (⟨.level, p⟩ ::ₘ m) p.item =
      levels s (⟨.stuff, p⟩ ::ₘ m) p.item + 1 := by
    rw [levels, levels, hc.history, ahead_cons, ahead_cons, if_pos rfl, if_pos rfl]
    change _ + (1 + _) = _ + (0 + _) + 1
    omega
  have hstuff : ahead Place.stuff (⟨.stuff, p⟩ ::ₘ m) p.item =
      p.stuff + ahead Place.stuff (⟨.level, p⟩ ::ₘ m) p.item := by
    rw [ahead_cons, ahead_cons, if_pos rfl, if_pos rfl]
    change p.stuff + _ = p.stuff + (0 + _)
    rw [Nat.zero_add]
  have hgold : ahead Place.gold (⟨.stuff, p⟩ ::ₘ m) p.item =
      p.gold + ahead Place.gold (⟨.level, p⟩ ::ₘ m) p.item := by
    rw [ahead_cons, ahead_cons, if_pos rfl, if_pos rfl]
    change p.gold + _ = p.gold + (0 + _)
    rw [Nat.zero_add]
  refine h.change nofun rfl hc ⟨fun v₀ hv₀ => ?_, fun v₀ hv₀ => ?_, fun u hu => ?_⟩
    (fun hphase => absurd rfl hphase) (h.range p.item v hr.held)
  · have hitem := (hold.item v₀ hv₀).symm.trans hr.held
    obtain ⟨hdata, hcount⟩ := Held.mk.inj (Option.some.inj hitem)
    have hprice : p.stuff = p.item.stuff w v.dataId := hr.stuff
    have hnext : p.nextId = p.item.next v.dataId := hr.nextId
    rw [hc.held, hlevels, Function.iterate_succ_apply', cost_succ, hdata, ← hprice, ← hnext]
    rw [hstuff] at hcount
    congr 2
    push_cast at hcount ⊢
    omega
  · have hitem := (hold.item v₀ hv₀).symm.trans hr.held
    obtain ⟨hdata, -⟩ := Held.mk.inj (Option.some.inj hitem)
    have hpaid := hold.gold v₀ hv₀
    have hprice : p.gold = p.item.gold w v.dataId := hr.gold
    rw [goldPaid, hc.ledger, hlevels, cost_succ, hdata, ← hprice]
    rw [hgold] at hpaid
    rw [goldPaid] at hpaid
    push_cast at hpaid ⊢
    omega
  · rw [hc.held, Option.mem_def, Option.some.injEq] at hu
    rw [← hu]
    exact hold.enough v hr.held

/-- The gold of an upgrade leaves the balance, which holds it. -/
structure Spends (s s' : State w) (p : Upgrade) : Prop where
  held : ∀ x, held s' x = held s x
  history : s'.history = s.history
  paid : ∀ x, goldPaid s' x = goldPaid s x + if p.item = x then (p.gold : ℤ) else 0
  balance : (s'.user.account.gold : ℤ) + (s'.ledger.map (·.amount)).sum =
    s.user.account.gold + (s.ledger.map (·.amount)).sum

theorem spends_nothing (h : p.gold = 0) : Spends s s p :=
  ⟨fun _ => rfl, rfl, fun x => by simp [h], rfl⟩

theorem addGold_exact {account : Agent.Account} {gold : ℕ} (h : (gold : ℤ) ≤ account.gold) :
    ((account.addGold (-gold)).gold : ℤ) = account.gold - gold := by
  have hmem := account.gold.2
  have hmax : maxint32 = 2147483647 := rfl
  unfold Agent.Account.addGold
  split_ifs with hzero
  · omega
  · have hwrap : wrap (account.gold + -gold) = account.gold - gold := by
      rw [wrap_of_range (by omega) (by omega), Int.sub_eq_add_neg]
    change mClamp (wrap (account.gold + -gold)) 0 maxint32 = _
    rw [hwrap, mClamp, if_neg (by omega), if_neg (by omega)]

theorem spends_gold (h : (p.gold : ℤ) ≤ s.user.account.gold) :
    Spends s (s.setAccount ⟨.gold, p⟩ .gold (s.user.account.addGold (-p.gold))) p := by
  have hexact := addGold_exact h
  refine ⟨fun x => by cases x <;> rfl, rfl, fun x => ?_, ?_⟩
  · simp only [goldPaid, Session.setAccount, List.map_append, List.sum_append, List.map_cons,
      List.map_nil, List.sum_cons, List.sum_nil, hexact, sub_sub_cancel, add_zero]
  · simp only [Session.setAccount, List.map_append, List.sum_append, List.map_cons, List.map_nil,
      List.sum_cons, List.sum_nil, hexact]
    omega

/-- A request passes the checks and pays the gold. -/
theorem Inv.start {v : Held} (h : Inv s₀ s m) (hr : Ready s ⟨.gold, p⟩ v) (hs : Spends s s' p)
    (hlone : ∀ place ∈ m, place.upgrade.item = p.item → place.phase = .level) :
    Inv s₀ s' (⟨.gold, p⟩ ::ₘ m) where
  linear x := by
    have hold := h.linear x
    have hlevels : levels s' (⟨.gold, p⟩ ::ₘ m) x = levels s m x := by
      have hzero : (if p.item = x then 0 else 0) = 0 := ite_self 0
      rw [levels, levels, hs.history, ahead_cons]
      change _ + ((if p.item = x then 0 else 0) + _) = _
      rw [hzero, Nat.zero_add]
    have hstuff : ahead Place.stuff (⟨.gold, p⟩ ::ₘ m) x = ahead Place.stuff m x := by
      rw [ahead_cons]
      change (if p.item = x then 0 else 0) + _ = _
      rw [ite_self, Nat.zero_add]
    refine ⟨fun v₀ hv₀ => ?_, fun v₀ hv₀ => ?_, fun u hu => hold.enough u (hs.held x ▸ hu)⟩
    · rw [hs.held, hlevels, hstuff]
      exact hold.item v₀ hv₀
    · have hpaid := hold.gold v₀ hv₀
      have hgold : Place.gold ⟨.gold, p⟩ = p.gold := rfl
      rw [hs.paid, hlevels, ahead_cons, hgold, hpaid]
      push_cast
      omega
  ready q hq hq' := by
    rcases Multiset.mem_cons.mp hq with rfl | hq
    · exact ⟨v, hr.of_same (hs.held _)⟩
    · obtain ⟨v', hv'⟩ := h.ready q hq hq'
      exact ⟨v', hv'.of_same (hs.held _)⟩
  alone x := by
    rw [ahead_cons]
    split_ifs with hx
    · have hzero : ahead Place.early m x = 0 := by
        refine Multiset.sum_eq_zero fun n hn => ?_
        obtain ⟨place, hplace, rfl⟩ := Multiset.mem_map.mp hn
        split_ifs with hitem
        · exact if_pos (hlone place hplace (hitem.trans hx.symm))
        · rfl
      rw [hzero]
      exact le_rfl
    · rw [Nat.zero_add]
      exact h.alone x
  range x u hu := h.range x u (hs.held x ▸ hu)
  balance := by
    have hold := h.balance
    have hsame := hs.balance
    omega

theorem checks_spec (h : checks w s.user x = some (.ok p)) :
    p.item = x ∧ (∃ v, Ready s ⟨.gold, p⟩ v) ∧ (p.gold : ℤ) ≤ s.user.account.gold := by
  cases x with
  | card uuid =>
      unfold checks cardChecks at h
      cases hcard : Cards.getCardByUuid s.user.cards uuid with
      | none => simp [hcard] at h
      | some card =>
          simp only [hcard] at h
          cases hnext : w.heroDat (wrap (card.dataId + 1)) with
          | none => simp [hnext] at h
          | some nextDat =>
              simp only [hnext, Option.bind_eq_bind, Option.bind_eq_some_iff] at h
              obtain ⟨cardDat, hrow, h⟩ := h
              split_ifs at h with hcount hgold
              · simp at h
              · simp at h
              · obtain rfl := Except.ok.inj (Option.some.inj h)
                refine ⟨rfl, ⟨⟨card.dataId, card.count⟩, ?_, rfl, ?_, ?_, fun _ => not_lt.mp hcount,
                  ?_, ?_⟩, not_lt.mp hgold⟩
                · simp [held, hcard]
                · simp [Item.gold, hrow]
                · simp [Item.stuff, hrow]
                · simp [Item.HasRow, hrow]
                · simp [Item.HasRow, hnext]
  | skill uuid =>
      unfold checks skillChecks at h
      cases hskill : Skills.getSkillByUuid s.user.skills uuid with
      | none => simp [hskill] at h
      | some skill =>
          simp only [hskill] at h
          cases hnext : w.skillDat (Macro_AddSkillGrade skill.dataId 1) with
          | none => simp [hnext] at h
          | some nextDat =>
              simp only [hnext, Option.bind_eq_bind, Option.bind_eq_some_iff] at h
              obtain ⟨skillDat, hrow, h⟩ := h
              split_ifs at h with hcount
              · simp at h
              · obtain rfl := Except.ok.inj (Option.some.inj h)
                refine ⟨rfl, ⟨⟨skill.dataId, skill.count⟩, ?_, rfl, rfl, ?_,
                  fun _ => not_lt.mp hcount, ?_, ?_⟩, s.user.account.gold.2.1⟩
                · simp [held, hskill]
                · simp [Item.stuff, hrow]
                · simp [Item.HasRow, hrow]
                · simp [Item.HasRow, hnext]

section Safe

variable (s₀) in
/-- The coroutine is safe in the runs in question. -/
abbrev Keeps {α : Type} (t : Step w α) (Q : α → State w → Multiset Place → Prop) (s : State w)
    (m : Multiset Place) : Prop := t.Safe (Inv s₀) (guard w).resume Q s m

theorem waiting_safe {α : Type} {t : Step w α} (ht : t.Stays {place} OnlyMissions False)
    (h : Inv s₀ s (place ::ₘ m)) :
    Keeps s₀ t (fun _ s m => Inv s₀ s (place ::ₘ m)) s m :=
  (ht s).safe (fun _ _ _ hw hs => hs.of_missions hw) (fun hfalse => hfalse.elim) h

theorem stays_addAExp (exp : ℤ) :
    (AgentService.Account.addAExp place exp : Step w Unit).Stays {place} OnlyMissions False := by
  unfold AgentService.Account.addAExp
  split_ifs
  · exact stays_pure ()
  · exact stays_call (Set.mem_singleton _)

theorem addGold_safe {v : Held} (h : Inv s₀ s m) (hr : Ready s ⟨.gold, p⟩ v)
    (hgold : (p.gold : ℤ) ≤ s.user.account.gold)
    (hlone : ∀ place ∈ m, place.upgrade.item = p.item → place.phase = .level) :
    Keeps s₀ (AgentService.Account.addGold ⟨.gold, p⟩ (-p.gold))
      (fun _ s m => Inv s₀ s (⟨.gold, p⟩ ::ₘ m)) s m := by
  unfold AgentService.Account.addGold
  split_ifs with hzero
  · exact h.start hr (spends_nothing (by omega)) hlone
  · exact safe_bind.mpr (safe_modify.mpr (safe_call.mpr
      ⟨h.start hr (spends_gold hgold) hlone, fun _ _ hs _ => hs⟩))

theorem delCardByUuid_safe {uuid : String} (hitem : p.item = .card uuid)
    (h : Inv s₀ s (⟨.gold, p⟩ ::ₘ m)) :
    Keeps s₀ (Cards.delCardByUuid ⟨.stuff, p⟩ uuid p.stuff)
      (fun _ s m => Inv s₀ s (⟨.stuff, p⟩ ::ₘ m)) s m := by
  obtain ⟨v, hr⟩ := h.ready _ (Multiset.mem_cons_self _ _) nofun
  have hheld : held s (.card uuid) = some v := hitem ▸ hr.held
  obtain ⟨card, hcard, rfl⟩ := Option.map_eq_some_iff.mp hheld
  have henough : (p.stuff : ℤ) ≤ card.count := hr.enough rfl
  have hrange : card.count < 2 ^ 63 := h.range _ _ hr.held
  refine safe_bind.mpr (safe_get.mpr ?_)
  rw [hcard]
  simp only [if_neg (not_lt.mpr henough)]
  refine safe_bind.mpr (safe_set.mpr (waiting_safe ?_ (h.take hr ?_)))
  · exact (stays_call (Set.mem_singleton _)).bind fun _ => stays_addAExp _
  · have hc := changes_card hcard (fun v => { v with count := wrap (v.count - p.stuff) })
      fun _ => rfl
    rw [hitem]
    rwa [wrap_of_range (by omega) (by omega)] at hc

theorem updateCard_safe {uuid : String} (hitem : p.item = .card uuid)
    (h : Inv s₀ s (⟨.stuff, p⟩ ::ₘ m)) :
    Keeps s₀ (Cards.updateDataId ⟨.level, p⟩ uuid p.nextId)
      (fun _ s m => Inv s₀ s (⟨.level, p⟩ ::ₘ m)) s m := by
  obtain ⟨v, hr⟩ := h.ready _ (Multiset.mem_cons_self _ _) nofun
  have hheld : held s (.card uuid) = some v := hitem ▸ hr.held
  obtain ⟨card, hcard, rfl⟩ := Option.map_eq_some_iff.mp hheld
  refine safe_bind.mpr (safe_get.mpr ?_)
  rw [hcard]
  refine safe_bind.mpr (safe_set.mpr (waiting_safe ?_ (h.raise hr ?_)))
  · exact (stays_call (Set.mem_singleton _)).bind fun _ => stays_AdvanceMission _
      fun _ h => by cases h
  · have hc := changes_card hcard (fun v => { v with dataId := p.nextId }) fun _ => rfl
    rwa [hitem]

theorem delSkillByUuid_safe {uuid : String} (hitem : p.item = .skill uuid)
    (h : Inv s₀ s (⟨.gold, p⟩ ::ₘ m)) :
    Keeps s₀ (Skills.delSkillByUuid ⟨.stuff, p⟩ uuid p.stuff)
      (fun _ s m => Inv s₀ s (⟨.stuff, p⟩ ::ₘ m)) s m := by
  obtain ⟨v, hr⟩ := h.ready _ (Multiset.mem_cons_self _ _) nofun
  have hheld : held s (.skill uuid) = some v := hitem ▸ hr.held
  obtain ⟨skill, hskill, rfl⟩ := Option.map_eq_some_iff.mp hheld
  have henough : (p.stuff : ℤ) ≤ skill.count := hr.enough rfl
  have hrange : skill.count < 2 ^ 63 := h.range _ _ hr.held
  refine safe_bind.mpr (safe_get.mpr ?_)
  rw [hskill]
  simp only [if_neg (not_lt.mpr henough)]
  refine safe_bind.mpr (safe_set.mpr (safe_bind.mpr
    (safe_call.mpr ⟨h.take hr ?_, fun s m hs _ => ?_⟩)))
  · have hc := changes_skill hskill (fun v => { v with count := wrap (v.count - p.stuff) })
      fun _ => rfl
    rw [hitem]
    rwa [wrap_of_range (by omega) (by omega)] at hc
  · -- the row of the skill is read again behind the call
    obtain ⟨v', hr'⟩ := hs.ready _ (Multiset.mem_cons_self _ _) nofun
    have hheld' : held s (.skill uuid) = some v' := hitem ▸ hr'.held
    obtain ⟨skill', hskill', rfl⟩ := Option.map_eq_some_iff.mp hheld'
    have hrow : p.item.HasRow w skill'.dataId := hr'.row
    rw [hitem] at hrow
    obtain ⟨dat, hdat⟩ := Option.isSome_iff_exists.mp hrow
    refine safe_bind.mpr (safe_get.mpr ?_)
    simp only [hskill', Option.bind_some, hdat]
    exact waiting_safe (stays_addAExp _) hs

theorem updateSkill_safe {uuid : String} (hitem : p.item = .skill uuid)
    (h : Inv s₀ s (⟨.stuff, p⟩ ::ₘ m)) :
    Keeps s₀ (Skills.updateDataId ⟨.level, p⟩ uuid p.nextId)
      (fun _ s m => Inv s₀ s (⟨.level, p⟩ ::ₘ m)) s m := by
  obtain ⟨v, hr⟩ := h.ready _ (Multiset.mem_cons_self _ _) nofun
  have hheld : held s (.skill uuid) = some v := hitem ▸ hr.held
  obtain ⟨skill, hskill, rfl⟩ := Option.map_eq_some_iff.mp hheld
  have hrow : p.item.HasRow w p.nextId := hr.next_row
  rw [hitem] at hrow
  refine safe_bind.mpr (safe_get.mpr ?_)
  rw [hskill]
  refine safe_bind.mpr (safe_set.mpr (waiting_safe ?_ (h.raise hr ?_)))
  · refine (stays_call (Set.mem_singleton _)).bind fun _ =>
      (stays_AdvanceMission _ fun _ h => by cases h).bind fun _ =>
      stays_AdvanceMission _ fun dataId heq => .inl ?_
    rw [← MissionContent.UpgradeSkill.inj heq]
    exact hrow
  · have hc := changes_skill hskill (fun v => { v with dataId := p.nextId }) fun _ => rfl
    rwa [hitem]

theorem replied_safe (h : Inv s₀ s (⟨.level, p⟩ ::ₘ m)) :
    Keeps s₀ (replied p.item) (fun _ => Inv s₀) s m := safe_modify.mpr (h.drop rfl)

theorem handle_safe (x : Item) (h : Inv s₀ s m) (hguard : (guard w).request s m x) :
    Keeps s₀ (handle x) (fun _ => Inv s₀) s m := by
  cases x with
  | card uuid =>
      refine safe_bind.mpr (safe_bind.mpr (safe_get.mpr ?_))
      cases hchecks : cardChecks w s.user uuid with
      | none => exact h
      | some r =>
          cases r with
          | error errorCode => exact h
          | ok p =>
              obtain ⟨hitem, ⟨v, hr⟩, hgold⟩ := checks_spec (x := .card uuid) hchecks
              refine safe_bind.mpr ((addGold_safe h hr hgold (hguard p hchecks)).mono
                fun _ s m hs => ?_)
              refine safe_bind.mpr ((delCardByUuid_safe hitem hs).mono fun _ s m hs => ?_)
              refine safe_bind.mpr ((updateCard_safe hitem hs).mono fun _ s m hs => ?_)
              exact safe_bind.mpr (replied_safe hs)
  | skill uuid =>
      refine safe_bind.mpr (safe_bind.mpr (safe_get.mpr ?_))
      cases hchecks : skillChecks w s.user uuid with
      | none => exact h
      | some r =>
          cases r with
          | error errorCode => exact h
          | ok p =>
              obtain ⟨hitem, ⟨v, hr⟩, hgold⟩ := checks_spec (x := .skill uuid) hchecks
              have hfree : p.gold = p.item.gold w v.dataId := hr.gold
              rw [hitem] at hfree
              have hstart := h.start hr (spends_nothing hfree) (hguard p hchecks)
              refine safe_bind.mpr ((delSkillByUuid_safe hitem hstart).mono fun _ s m hs => ?_)
              refine safe_bind.mpr ((updateSkill_safe hitem hs).mono fun _ s m hs => ?_)
              exact safe_bind.mpr (replied_safe hs)

/-- Each level was gained and paid once, and the gold that is gone was paid by an upgrade. -/
theorem upgrades_linear (s₀ : State w) (hledger : s₀.ledger = [])
    (hhistory : s₀.history = fun _ => 0)
    (hcount : ∀ x, ∀ v ∈ held s₀ x, 0 ≤ v.count ∧ v.count < 2 ^ 63) {p : Pool (State w) Place}
    (h : ((server w).system s₀).Runs (guard w).Admits p) :
    (∀ x, Linear s₀ p.shared p.places x) ∧ (p.shared.user.account.gold : ℤ) =
      s₀.user.account.gold - (p.shared.ledger.map (·.amount)).sum := by
  have hinit : Inv s₀ s₀ 0 := by
    have hzero : ∀ x, levels s₀ 0 x = 0 := fun x => by rw [levels, hhistory]; rfl
    refine ⟨fun x => ⟨fun v hv => ?_, fun v hv => ?_, fun v hv => (hcount x v hv).1⟩, by simp,
      fun _ => Nat.zero_le _, fun x v hv => (hcount x v hv).2, by simp [hledger]⟩
    · rw [hzero x]
      simpa [Item.cost, ahead] using hv
    · rw [hzero x, goldPaid, hledger]
      rfl
  have hinv := Server.invariant (Inv s₀) hinit (fun _ _ x hs hg => handle_safe x hs hg)
    (fun _ _ e _ _ => e.elim) h
  exact ⟨hinv.linear, hinv.balance⟩

end Safe

/-- Two rows of one hero. -/
def heroes (dataId : ℤ) : Option HeroDat :=
  if dataId = 101 ∨ dataId = 102 ∨ dataId = 103 then some {
    n32CCardNum := 1
    n32Camp := 1
    n32Color := 1
    n32MainAtt := 1
    n32WCardNum := 1
    n32GoldNum := 5 }
  else none

def academy : World := { (default : World) with
  heroRepository := fun id => (heroes id).map HeroDat.toHeroRow
  heroDat := heroes
  hero_row := fun _ => rfl
  skill_row := default_skill_row }

/-- A player with one card, and fragments and gold for two levels. -/
def student : State academy := { (default : State academy) with
  user := { (default : User) with
    account := { (default : User).account with gold := ⟨10, by decide⟩ }
    cards := [{ uuid := "c", dataId := 101, count := 2, skills := [] }] }
  history := fun _ => 0 }

theorem student_count (x : Item) : ∀ v ∈ held student x, 0 ≤ v.count ∧ v.count < 2 ^ 63 := by
  cases x with
  | card uuid =>
      intro v hv
      obtain ⟨card, hcard, rfl⟩ := Option.map_eq_some_iff.mp hv
      obtain rfl := List.mem_singleton.mp (List.mem_of_find?_eq_some hcard)
      exact ⟨by decide, by decide⟩
  | skill uuid => exact fun v hv => by cases hv

theorem upgrades_linear_card : ∃ p, ((server academy).system student).Runs
    (guard academy).Admits p ∧ p.places = 0 ∧ held p.shared (.card "c") = some ⟨102, 1⟩ ∧
      Linear student p.shared p.places (.card "c") := by
  have hrun : ∃ p, ((server academy).system student).Runs (guard academy).Admits p ∧
      p.places = 0 ∧ held p.shared (.card "c") = some ⟨102, 1⟩ := by
    refine ⟨_, .step (i := .resume 0) (.step (i := .resume 0) (.step (i := .resume 0)
      (.step (i := .resume 0) (.step (i := .request (.card "c")) .init ?_ rfl)
      (fun _ _ => trivial) rfl) (fun _ _ => trivial) rfl) (fun _ _ => trivial) rfl)
      (fun _ _ => trivial) rfl, rfl, rfl⟩
    exact fun p _ place hplace => absurd hplace (Multiset.notMem_zero place)
  obtain ⟨p, hp, hplaces, hheld⟩ := hrun
  exact ⟨p, hp, hplaces, hheld, (upgrades_linear student rfl rfl student_count hp).1 _⟩

/-- Two upgrades of one card pass the checks; both reply that all is well, for one level. -/
theorem upgradeCardColorLevel_twice : ¬ ∀ (w : World) (s₀ : State w), s₀.ledger = [] →
    s₀.history = (fun _ => 0) → (∀ x, ∀ v ∈ held s₀ x, 0 ≤ v.count ∧ v.count < 2 ^ 63) →
    ∀ p, ((server w).system s₀).Runs (anyOrder w).Admits p →
      ∀ x, Linear s₀ p.shared p.places x := fun hall => by
  have hrun : ∃ p, ((server academy).system student).run ((server academy).system student).init
      (.request (.card "c") :: .request (.card "c") :: List.replicate 8 (.resume 0)) = some p ∧
      held p.shared (.card "c") = some ⟨102, 0⟩ ∧ levels p.shared p.places (.card "c") = 2 :=
    ⟨_, rfl, rfl, rfl⟩
  obtain ⟨p, hp, hheld, hlevels⟩ := hrun
  have hruns : ((server academy).system student).Runs (anyOrder academy).Admits p := by
    refine System.Runs.of_run .init (fun l _ u => ?_) hp
    cases l with
    | request x => trivial
    | resume k => exact fun _ _ => trivial
    | outside e => exact e.elim
  have hitem := (hall academy student rfl rfl student_count p hruns (.card "c")).item ⟨101, 2⟩ rfl
  rw [hheld, hlevels] at hitem
  have hdata : (102 : ℤ) = 103 := (Held.mk.inj (Option.some.inj hitem)).1
  exact absurd hdata (by decide)

end GameServer.Upgrades
