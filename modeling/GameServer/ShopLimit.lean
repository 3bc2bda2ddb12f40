import GameServer.PlayerFrame
import GameServer.ShopFair

/-!
# The limit of a shop row and its rising price

The counter of a row is read before the goods are paid and written after they are handed out, so
purchases that overlap read the same value. The limit holds, and every unit of a material has its
price, when each purchase leaves room for those that are not counted yet.
-/

namespace GameServer.Player.ShopLimit

open Goods Agent Cooperative Coroutine AgentService Shop Transition

variable {w : World} {q : ExploreData} {s s' : State w} {m : Multiset Place}
  {place : Place} {p : Purchase} {a : ℤ}

/-! ## Sales -/

def units (sales : List Sale) : ℤ := (sales.map fun r => r.purchase.num).sum

/-- What `num` units cost one after the other, when `before` were bought before them. -/
def ladder (price before num : ℤ) : ℤ :=
  ((List.range num.toNat).map fun (j : ℕ) => price * (1 + (before + j))).sum

/-- A sale within the limit and at its price, when `before` units were sold before. -/
structure Good (before : ℤ) (r : Sale) : Prop where
  one_le : 1 ≤ r.purchase.num
  limit : 0 < r.purchase.shopDat.n32Limit → before + r.purchase.num ≤ r.purchase.shopDat.n32Limit
  price : r.purchase.shopDat.n32Type = 4 →
    r.paid = ladder r.purchase.shopDat.n32Price before r.purchase.num

inductive Fair : List Sale → Prop
  | nil : Fair []
  | sale {sales : List Sale} {r : Sale} : Fair sales → Good (units sales) r → Fair (sales ++ [r])

theorem units_append (sales : List Sale) (r : Sale) :
    units (sales ++ [r]) = units sales + r.purchase.num := by
  simp [units]

theorem Fair.units_nonneg {sales : List Sale} (h : Fair sales) : 0 ≤ units sales := by
  induction h with
  | nil => exact le_rfl
  | sale _ hr ih =>
      have hone := hr.one_le
      rw [units_append]
      omega

/-- The units of one row. -/
def unitsOf (shopDat : ShopRow) (sales : List Sale) : ℤ :=
  units (sales.filter fun r => r.purchase.shopDat = shopDat)

theorem Fair.unitsOf_le {sales : List Sale} (h : Fair sales) (shopDat : ShopRow) :
    unitsOf shopDat sales ≤ units sales := by
  induction h with
  | nil => exact le_rfl
  | @sale sales r _ hr ih =>
      have hone := hr.one_le
      rw [units_append, unitsOf, List.filter_append]
      by_cases hrow : r.purchase.shopDat = shopDat
      · rw [List.filter_cons_of_pos (by simpa using hrow), List.filter_nil, units_append]
        exact Int.add_le_add_right ih _
      · rw [List.filter_cons_of_neg (by simpa using hrow), List.filter_nil, List.append_nil]
        exact ih.trans (by omega)

/-- Of no row more is sold than its limit. -/
theorem Fair.limit {sales : List Sale} (h : Fair sales) {shopDat : ShopRow}
    (hlimit : 0 < shopDat.n32Limit) : unitsOf shopDat sales ≤ shopDat.n32Limit := by
  induction h with
  | nil => exact hlimit.le
  | @sale sales r hsales hr ih =>
      rw [unitsOf, List.filter_append]
      by_cases hrow : r.purchase.shopDat = shopDat
      · have hle := hr.limit (hrow ▸ hlimit)
        have hof := hsales.unitsOf_le shopDat
        rw [List.filter_cons_of_pos (by simpa using hrow), List.filter_nil, units_append]
        rw [hrow] at hle
        unfold unitsOf at hof
        omega
      · rw [List.filter_cons_of_neg (by simpa using hrow), List.filter_nil, List.append_nil]
        exact ih

/-- Every unit of a material has the price of the units sold before it. -/
theorem Fair.price {sales : List Sale} (h : Fair sales) {before after : List Sale} {r : Sale}
    (hsales : sales = before ++ r :: after) (hcard : r.purchase.shopDat.n32Type = 4) :
    r.paid = ladder r.purchase.shopDat.n32Price (units before) r.purchase.num := by
  induction h generalizing after with
  | nil => simp at hsales
  | @sale sales r' hfair hr ih =>
      cases after using List.reverseRecOn with
      | nil =>
          obtain ⟨rfl, hlast⟩ := List.append_inj' hsales rfl
          obtain rfl := List.singleton_inj.mp hlast
          exact hr.price hcard
      | append_singleton after last _ =>
          rw [← List.cons_append, ← List.append_assoc] at hsales
          exact ih (List.append_inj' hsales rfl).1

/-! ## Counters and purchases on their way -/

/-- The value that a counter had when it was last written. -/
def stored (s : State w) (a : ℤ) : ℤ := (s.user.activitys a).elim 0 (·.value)

/-- What a purchase adds to its counter. -/
def amount (p : Purchase) : ℤ := p.shopDat.n32Count * p.num

/-- Waiting there, a purchase has passed the check of the limit and is not counted yet. -/
def underway : Place → Option Purchase
  | .buy .quota p | .buy .pay p | .buy .goods p =>
    if p.shopDat.n32Type = 3 ∨ p.shopDat.n32Type = 4 then some p else none
  | _ => none

/-- What the purchases on their way add to a counter. -/
def load (m : Multiset Place) (a : ℤ) : ℤ :=
  (m.map fun place => (underway place).elim 0 fun p => if p.atype = a then amount p else 0).sum

def OfCards (a : ℤ) : Prop := ∃ site, BuyShopCard site = some a

/-- The purchase leaves room for those on their way, and they for it. Materials are bought one by
one, a unit of the row for one of the counter, and nothing else of the counter is on its way. -/
structure Clear (s : State w) (m : Multiset Place) (p : Purchase) : Prop where
  room : counted s p.atype + load m p.atype + amount p < 2 ^ 63
  box : p.shopDat.n32Type = 3 →
    (0 < p.shopDat.n32Limit → counted s p.atype + load m p.atype + p.num ≤ p.shopDat.n32Limit) ∧
    ∀ place ∈ m, ∀ p' ∈ underway place, p'.atype = p.atype → 0 < p'.shopDat.n32Limit →
      counted s p.atype + (load m p.atype + amount p - amount p') + p'.num ≤ p'.shopDat.n32Limit
  card : p.shopDat.n32Type = 4 → load m p.atype = 0 ∧ p.shopDat.n32Count = 1 ∧
    (p.shopDat.n32Price = 0 ∨ p.num = 1 ∧
      (p.shopDat.n32MoneyType = 1 ∨ p.shopDat.n32MoneyType = 2) ∧
      0 < p.shopDat.n32Price ∧ p.shopDat.n32Price * (1 + p.hasBuy) < 2 ^ 63)

/-- Requests for at least one unit, of rows that count. -/
def counting (w : World) : Server.Guard (State w) Place Request Clock where
  request _ _ r := match r with
    | .buyShopItem id num => 1 ≤ num ∧ ∀ shopDat ∈ w.shopRepository id, 1 ≤ shopDat.n32Count
    | _ => True
  resume _ _ _ := True
  outside := (anyOrder w).outside

/-- Purchases that pass the check of the limit are clear, and no period of a material ends while a
purchase of it is on its way. -/
def guard (w : World) : Server.Guard (State w) Place Request Clock where
  request s m r := (counting w).request s m r ∧ match r with
    | .buyShopItem id num => ∀ p ∈ asked w s id num, p.shopDat.n32Type = 3 → Clear s m p
    | _ => True
  resume s m place := match place with
    | .cddown id num => ∀ p ∈ asked w s id num, Clear s m p
    | _ => True
  outside s m clock := (anyOrder w).outside s m clock ∧ ∀ place ∈ m, ∀ p ∈ underway place,
    p.shopDat.n32Type = 4 → counted { s with clock } p.atype = counted s p.atype

/-- The sales of a period are fair, and the counter has counted them. -/
structure Tracked (s : State w) (a : ℤ) : Prop where
  fair : Fair (s.history.sales a)
  within : units (s.history.sales a) ≤ stored s a
  card : OfCards a → units (s.history.sales a) = stored s a
  range : stored s a < 2 ^ 63

/-- A purchase on its way will be fair when it is counted. -/
structure Flying (s : State w) (m : Multiset Place) (p : Purchase) : Prop where
  one_le : 1 ≤ p.num
  one_le_count : 1 ≤ p.shopDat.n32Count
  ne : p.atype ≠ RefreshExplore
  box : p.shopDat.n32Type = 3 → ¬ OfCards p.atype ∧ (0 < p.shopDat.n32Limit →
    counted s p.atype + (load m p.atype - amount p) + p.num ≤ p.shopDat.n32Limit)
  card : p.shopDat.n32Type = 4 → OfCards p.atype ∧ load m p.atype = amount p ∧
    counted s p.atype = p.hasBuy ∧ p.shopDat.n32Count = 1 ∧
    (0 < p.shopDat.n32Limit → p.hasBuy + p.num ≤ p.shopDat.n32Limit)

structure Inv (s : State w) (m : Multiset Place) : Prop where
  tracked : ∀ a ≠ RefreshExplore, Tracked s a
  flying : ∀ place ∈ m, ∀ p ∈ underway place, Flying s m p
  room : ∀ a ≠ RefreshExplore, counted s a + load m a < 2 ^ 63

/-! ## Loads -/

theorem load_cons (place : Place) (m : Multiset Place) (a : ℤ) : load (place ::ₘ m) a =
    ((underway place).elim 0 fun p => if p.atype = a then amount p else 0) + load m a := by
  rw [load, Multiset.map_cons, Multiset.sum_cons]
  rfl

theorem load_apart (h : underway place = none) (m : Multiset Place) (a : ℤ) :
    load (place ::ₘ m) a = load m a := by
  rw [load_cons, h, Option.elim_none, zero_add]

theorem load_self (h : underway place = some p) (m : Multiset Place) :
    load (place ::ₘ m) p.atype = amount p + load m p.atype := by
  rw [load_cons, h, Option.elim_some, if_pos rfl]

theorem load_other (h : underway place = some p) (ha : p.atype ≠ a) (m : Multiset Place) :
    load (place ::ₘ m) a = load m a := by
  rw [load_cons, h, Option.elim_some, if_neg ha, zero_add]

theorem underway_type (h : underway place = some p) :
    p.shopDat.n32Type = 3 ∨ p.shopDat.n32Type = 4 := by
  unfold underway at h
  split at h
  · split_ifs at h with htype; exact Option.some.inj h ▸ htype
  · split_ifs at h with htype; exact Option.some.inj h ▸ htype
  · split_ifs at h with htype; exact Option.some.inj h ▸ htype
  · cases h

theorem Flying.amount_pos (h : Flying s m p) : p.num ≤ amount p := by
  have hone := h.one_le
  exact le_mul_of_one_le_left (by omega) h.one_le_count

theorem load_nonneg (h : ∀ place ∈ m, ∀ p ∈ underway place, 1 ≤ amount p) (a : ℤ) :
    0 ≤ load m a := by
  refine Multiset.sum_nonneg fun x hx => ?_
  obtain ⟨place, hplace, rfl⟩ := Multiset.mem_map.mp hx
  cases hu : underway place with
  | none => exact le_rfl
  | some p =>
      have hone := h place hplace p hu
      simp only [Option.elim_some]
      split_ifs <;> omega

/-- A purchase on its way is part of the load. -/
theorem amount_le_load (h : ∀ place ∈ m, ∀ p ∈ underway place, 1 ≤ amount p)
    (hplace : place ∈ m) (hp : underway place = some p) : amount p ≤ load m p.atype := by
  obtain ⟨t, rfl⟩ := Multiset.exists_cons_of_mem hplace
  rw [load_self hp]
  have hnonneg := load_nonneg (fun p hp => h p (Multiset.mem_cons_of_mem hp)) p.atype
  omega

theorem Inv.amounts (h : Inv s m) : ∀ place ∈ m, ∀ p ∈ underway place, 1 ≤ amount p :=
  fun place hplace p hp => by
    have hf := h.flying place hplace p hp
    exact hf.one_le.trans hf.amount_pos

/-! ## Counters -/

theorem counted_stored (s : State w) (a : ℤ) : counted s a = 0 ∨ counted s a = stored s a := by
  unfold counted stored Agent.Activitys.getValue
  cases s.user.activitys a with
  | none => exact .inl rfl
  | some unit =>
      simp only [Option.elim_some]
      split_ifs
      · exact .inr rfl
      · exact .inl rfl

theorem Tracked.counted_nonneg (h : Tracked s a) : 0 ≤ counted s a := by
  have hunits := h.fair.units_nonneg
  have hwithin := h.within
  rcases counted_stored s a with hzero | hstored <;> omega

theorem Tracked.counted_le (h : Tracked s a) : counted s a ≤ stored s a := by
  have hunits := h.fair.units_nonneg
  have hwithin := h.within
  rcases counted_stored s a with hzero | hstored <;> omega

/-- What keeps the counters of the shop. -/
structure Kept (s s' : State w) : Prop where
  counters : ∀ a ≠ RefreshExplore, s'.user.activitys a = s.user.activitys a
  sales : s'.history.sales = s.history.sales
  clock : s'.clock = s.clock

theorem Kept.stored (h : Kept s s') (ha : a ≠ RefreshExplore) : stored s' a = stored s a := by
  unfold ShopLimit.stored
  rw [h.counters a ha]

theorem Kept.counted (h : Kept s s') (ha : a ≠ RefreshExplore) : counted s' a = counted s a := by
  unfold Player.counted Agent.Activitys.getValue Session.env
  rw [h.counters a ha, h.clock]

theorem Tracked.of_same (h : Tracked s a) (hsales : s'.history.sales a = s.history.sales a)
    (hstored : stored s' a = stored s a) : Tracked s' a := by
  obtain ⟨hfair, hwithin, hcard, hrange⟩ := h
  rw [← hsales] at hfair hwithin hcard
  rw [← hstored] at hwithin hcard hrange
  exact ⟨hfair, hwithin, hcard, hrange⟩

/-- A purchase stays clear of the others when the counter and the load do not grow. -/
theorem Flying.mono {m' : Multiset Place} (h : Flying s m p)
    (hle : counted s' p.atype + load m' p.atype ≤ counted s p.atype + load m p.atype)
    (hcard : p.shopDat.n32Type = 4 →
      load m' p.atype = load m p.atype ∧ counted s' p.atype = counted s p.atype) :
    Flying s' m' p where
  one_le := h.one_le
  one_le_count := h.one_le_count
  ne := h.ne
  box hthree := by
    obtain ⟨hcards, hroom⟩ := h.box hthree
    refine ⟨hcards, fun hlimit => ?_⟩
    have hold := hroom hlimit
    omega
  card hfour := by
    obtain ⟨hcards, hload, hbuy, hone, hlimit⟩ := h.card hfour
    obtain ⟨hload', hcounted'⟩ := hcard hfour
    exact ⟨hcards, hload'.trans hload, hcounted'.trans hbuy, hone, hlimit⟩

/-! ## How the invariant moves -/

theorem Inv.of_kept (hk : Kept s s') (h : Inv s m) : Inv s' m where
  tracked a ha := (h.tracked a ha).of_same (by rw [hk.sales]) (hk.stored ha)
  flying place hplace p hp := by
    have hold := h.flying place hplace p hp
    have hsame := hk.counted hold.ne
    exact hold.mono (by rw [hsame]) fun _ => ⟨rfl, hsame⟩
  room a ha := by
    rw [hk.counted ha]
    exact h.room a ha

/-- Time goes on; the periods of materials on their way do not end. -/
theorem Inv.tick (h : Inv s m) {clock : Clock} (hnow : s.clock.now ≤ clock.now)
    (hcard : ∀ place ∈ m, ∀ p ∈ underway place, p.shopDat.n32Type = 4 →
      counted { s with clock } p.atype = counted s p.atype) : Inv { s with clock } m := by
  have hle : ∀ a ≠ RefreshExplore, counted { s with clock } a ≤ counted s a := fun a ha => by
    have hnonneg := (h.tracked a ha).counted_nonneg
    unfold counted Agent.Activitys.getValue at hnonneg ⊢
    cases hunit : s.user.activitys a with
    | none => simp
    | some unit =>
        simp only [hunit] at hnonneg ⊢
        by_cases hexpire : unit.expire > clock.now
        · rw [if_pos (show unit.expire > (Session.env { s with clock }).now from hexpire),
            if_pos (show unit.expire > s.env.now from lt_of_le_of_lt hnow hexpire)]
        · rw [if_neg (show ¬ unit.expire > (Session.env { s with clock }).now from hexpire)]
          exact hnonneg
  exact {
    tracked := fun a ha => (h.tracked a ha).of_same rfl rfl
    flying := fun place hplace p hp => by
      have hold := h.flying place hplace p hp
      have hcounted := hle p.atype hold.ne
      exact hold.mono (by omega) fun hfour => ⟨rfl, hcard place hplace p hp hfour⟩
    room := fun a ha => by
      have hroom := h.room a ha
      have hcounted := hle a ha
      omega }

theorem inv_apart (hplace : underway place = none) : Inv s (place ::ₘ m) ↔ Inv s m := by
  have hload := load_apart hplace m
  constructor
  · intro h
    refine ⟨h.tracked, fun place' hmem p hp => ?_, fun a ha => hload a ▸ h.room a ha⟩
    exact (h.flying place' (Multiset.mem_cons_of_mem hmem) p hp).mono (by rw [hload])
      fun _ => ⟨(hload _).symm, rfl⟩
  · intro h
    refine ⟨h.tracked, fun place' hmem p hp => ?_, fun a ha => (hload a).symm ▸ h.room a ha⟩
    rcases Multiset.mem_cons.mp hmem with rfl | hmem
    · rw [hplace] at hp
      cases hp
    · exact (h.flying place' hmem p hp).mono (by rw [hload]) fun _ => ⟨hload _, rfl⟩

/-- Of two purchases on their way for one counter neither is of a material. -/
theorem Inv.no_card {place' : Place} {p' : Purchase} (h : Inv s (place ::ₘ m))
    (hp : underway place = some p) (hplace' : place' ∈ m) (hp' : underway place' = some p')
    (ha : p.atype = p'.atype) : p'.shopDat.n32Type ≠ 4 := fun hfour => by
  have hload := ((h.flying place' (Multiset.mem_cons_of_mem hplace') p' hp').card hfour).2.1
  have hone := h.amounts place (Multiset.mem_cons_self _ _) p hp
  have hle := amount_le_load (fun place hplace => h.amounts place (Multiset.mem_cons_of_mem hplace))
    hplace' hp'
  rw [← ha, load_self hp, ha] at hload
  omega

theorem Inv.drop (h : Inv s (place ::ₘ m)) : Inv s m := by
  cases hp : underway place with
  | none => exact (inv_apart hp).mp h
  | some p =>
      have hone := h.amounts place (Multiset.mem_cons_self _ _) p hp
      have hle : ∀ a, load m a ≤ load (place ::ₘ m) a := fun a => by
        rw [load_cons, hp, Option.elim_some]
        split_ifs <;> omega
      refine ⟨h.tracked, fun place' hmem p' hp' => ?_, fun a ha => ?_⟩
      · refine (h.flying place' (Multiset.mem_cons_of_mem hmem) p' hp').mono
          (Int.add_le_add_left (hle _) _) fun hfour => ⟨?_, rfl⟩
        exact (load_other hp (fun ha => h.no_card hp hmem hp' ha hfour) m).symm
      · have hroom := h.room a ha
        have hload := hle a
        omega

theorem Inv.move (place' : Place) (h : Inv s (place ::ₘ m))
    (hplace : underway place' = underway place) : Inv s (place' ::ₘ m) := by
  have hload : ∀ a, load (place' ::ₘ m) a = load (place ::ₘ m) a := fun a => by
    rw [load_cons, load_cons, hplace]
  refine ⟨h.tracked, fun place₁ hmem p hp => ?_, fun a ha => hload a ▸ h.room a ha⟩
  have hold : Flying s (place ::ₘ m) p := by
    rcases Multiset.mem_cons.mp hmem with rfl | hmem
    · exact h.flying place (Multiset.mem_cons_self _ _) p (hplace ▸ hp)
    · exact h.flying place₁ (Multiset.mem_cons_of_mem hmem) p hp
  exact hold.mono (by rw [hload]) fun _ => ⟨hload _, rfl⟩

/-! ## A purchase passes the checks -/

theorem BuyShopCard_lt {site : ℤ} (h : BuyShopCard site = some a) : a < 2000 := by
  unfold BuyShopCard at h
  split at h <;> cases h <;> decide

theorem lt_BaoXiang {site : ℤ} (h : BaoXiang site = some a) : 4000 < a := by
  unfold BaoXiang at h
  split at h <;> cases h <;> decide

theorem counter_spec {shopDat : ShopRow} {hasBuy : ℤ}
    (h : counter s.env s.user shopDat = some (a, hasBuy)) :
    (shopDat.n32Type = 4 → OfCards a ∧ counted s a = hasBuy) ∧
      (shopDat.n32Type = 3 → ¬ OfCards a ∧ counted s a = hasBuy) := by
  unfold counter at h
  split_ifs at h with hfour hthree
  · obtain ⟨a', ha, hpair⟩ := Option.map_eq_some_iff.mp h
    obtain ⟨rfl, rfl⟩ := Prod.mk.inj hpair
    exact ⟨fun _ => ⟨⟨_, ha⟩, rfl⟩, fun hthree => by omega⟩
  · obtain ⟨a', ha, hpair⟩ := Option.map_eq_some_iff.mp h
    obtain ⟨rfl, rfl⟩ := Prod.mk.inj hpair
    refine ⟨fun hfour => by omega, fun _ => ⟨?_, rfl⟩⟩
    rintro ⟨site, hsite⟩
    have hcard := BuyShopCard_lt hsite
    have hbox := lt_BaoXiang ha
    omega
  · exact ⟨fun h => absurd h hfour, fun h => absurd h hthree⟩

/-- A purchase that is clear joins those on their way. -/
theorem Inv.claim (h : Inv s m) (hp : underway place = some p) (hone : 1 ≤ p.num)
    (hcount : 1 ≤ p.shopDat.n32Count)
    (hcounter : counter s.env s.user p.shopDat = some (p.atype, p.hasBuy))
    (hchecks : checks s.env s.user p.shopDat p.hasBuy p.cost p.num = none) (hc : Clear s m p) :
    Inv s (place ::ₘ m) := by
  have hne := counter_ne hcounter
  obtain ⟨hfours, hthrees⟩ := counter_spec hcounter
  have hself := load_self hp m
  have hnonneg := load_nonneg h.amounts p.atype
  have hcounted := (h.tracked p.atype hne).counted_nonneg
  have hamount : p.num ≤ amount p := le_mul_of_one_le_left (by omega) hcount
  have hroom := hc.room
  refine ⟨h.tracked, fun place' hmem p' hp' => ?_, fun a ha => ?_⟩
  · rcases Multiset.mem_cons.mp hmem with rfl | hmem
    · obtain rfl := Option.some.inj (hp.symm.trans hp')
      refine ⟨hone, hcount, hne, fun hthree => ⟨(hthrees hthree).1, fun hlimit => ?_⟩,
        fun hfour => ⟨(hfours hfour).1, ?_, (hfours hfour).2, (hc.card hfour).2.1,
          fun hlimit => ?_⟩⟩
      · have hfits := (hc.box hthree).1 hlimit
        omega
      · have hzero := (hc.card hfour).1
        omega
      · have hfits : ¬ p.shopDat.n32Limit < wrap (p.hasBuy + p.num) := fun hlt =>
          checks_eq_none.mp hchecks (.limit hlimit (.inl hfour) hlt)
        have hbuy := (hfours hfour).2
        rw [wrap_of_range (by omega) (by omega)] at hfits
        omega
    · have hold := h.flying place' hmem p' hp'
      by_cases ha : p.atype = p'.atype
      · have hle := amount_le_load h.amounts hmem hp'
        have hone' := h.amounts place' hmem p' hp'
        refine ⟨hold.one_le, hold.one_le_count, hold.ne, fun hthree' => ⟨(hold.box hthree').1,
          fun hlimit => ?_⟩, fun hfour' => ?_⟩
        · rcases underway_type hp with hthree | hfour
          · have hfits := (hc.box hthree).2 place' hmem p' hp' ha.symm hlimit
            rw [← ha]
            omega
          · exact absurd (ha ▸ (hfours hfour).1) (hold.box hthree').1
        · rcases underway_type hp with hthree | hfour
          · exact absurd (ha ▸ (hold.card hfour').1) (hthrees hthree).1
          · have hzero := (hc.card hfour).1
            rw [ha] at hzero
            omega
      · have hload := load_other hp ha m
        exact hold.mono (by rw [hload]) fun _ => ⟨hload, rfl⟩
  · by_cases ha' : p.atype = a
    · rw [← ha', hself]
      omega
    · rw [load_other hp ha']
      exact h.room a ha

theorem ladder_one (price before : ℤ) : ladder price before 1 = price * (1 + before) := by
  simp [ladder]

theorem ladder_free (before num : ℤ) : ladder 0 before num = 0 := by
  simp [ladder]

/-- A material that is clear is paid at its price. -/
theorem Clear.paid (hc : Clear s m p) (hfour : p.shopDat.n32Type = 4) (hbuy : 0 ≤ p.hasBuy)
    (hchecks : checks s.env s.user p.shopDat p.hasBuy p.cost p.num = none) :
    taken s.user.account p = ladder p.shopDat.n32Price p.hasBuy p.num := by
  have hcost : p.cost = wrap (price p.shopDat p.hasBuy p.num) := costPrice_eq ..
  obtain ⟨-, -, hfree | ⟨hnum, hmoney, hpos, hlt⟩⟩ := hc.card hfour
  · have hzero : p.cost = 0 := by
      rw [hcost, price, if_pos hfour, hfree, zero_mul, zero_mul]
      rfl
    have hminus : wrap (-p.cost) = 0 := by
      rw [hzero]
      rfl
    rw [hfree, ladder_free, taken, pay, hminus, Agent.Account.addGold, Agent.Account.addMoney,
      if_pos rfl, if_pos rfl]
    split_ifs <;> simp
  · have hprice : price p.shopDat p.hasBuy p.num = p.shopDat.n32Price * (1 + p.hasBuy) := by
      rw [price, if_pos hfour, hnum, mul_one]
    have hunit : 0 < p.shopDat.n32Price * (1 + p.hasBuy) := mul_pos hpos (by omega)
    have hexact : p.cost = p.shopDat.n32Price * (1 + p.hasBuy) := by
      rw [hcost, hprice, wrap_of_range (by omega) hlt]
    have hno := checks_eq_none.mp hchecks
    have hminus : wrap (-p.cost) ≠ 0 := by
      rw [hexact, wrap_of_range (by omega) (by omega)]
      omega
    rw [hnum, ladder_one, taken, pay]
    have hdebit : ∀ b : ℤ, b ≤ maxint32 → p.cost ≤ b →
        b - mClamp (wrap (b + wrap (-p.cost))) 0 maxint32 = p.shopDat.n32Price * (1 + p.hasBuy) :=
      fun b hb hle => by
        have hclamp := clamp_debit hb hunit (hexact ▸ hle)
        rwa [← hprice, ← hcost, hprice] at hclamp
    rcases hmoney with hgold | hmoney
    · rw [if_pos hgold, Agent.Account.addGold, if_neg hminus, sub_self, add_zero]
      exact hdebit _ s.user.account.gold.2.2 (not_lt.mp fun hlt => hno (.gold hgold hlt))
    · rw [if_neg (by omega), if_pos hmoney, Agent.Account.addMoney, if_neg hminus, sub_self,
        zero_add]
      exact hdebit _ s.user.account.money.2.2 (not_lt.mp fun hlt => hno (.money hmoney hlt))

/-! ## A purchase is counted -/

/-- What `sold` and `addValue` do to the state. -/
def countSale (s : State w) (p : Purchase) (paid : ℤ) (expire : Option ℤ) : State w := { s with
  user := { s.user with
    activitys := s.user.activitys.addValue s.env p.atype (wrap (amount p)) expire }
  history := { s.history with
    sales := Function.update s.history.sales p.atype
      ((if counted s p.atype = 0 then [] else s.history.sales p.atype) ++ [⟨p, paid⟩]) } }

variable {paid : ℤ} {expire : Option ℤ}

theorem countSale_other (ha : a ≠ p.atype) :
    (countSale s p paid expire).user.activitys a = s.user.activitys a := addValue_of_ne _ _ ha

theorem countSale_counted (ha : a ≠ p.atype) :
    counted (countSale s p paid expire) a = counted s a := by
  unfold counted Agent.Activitys.getValue
  rw [countSale_other ha]
  rfl

theorem countSale_stored (hcounted : 0 ≤ counted s p.atype) (hamount : 1 ≤ amount p)
    (hroom : counted s p.atype + amount p < 2 ^ 63) :
    stored (countSale s p paid expire) p.atype = counted s p.atype + amount p := by
  have hwrap : wrap (amount p) = amount p := wrap_of_range (by omega) (by omega)
  obtain ⟨value, hvalue, hsum⟩ :=
    addValue_self s.user.activitys s.env p.atype (wrap (amount p)) expire
  have hunit : (countSale s p paid expire).user.activitys p.atype =
      some ⟨value, expire.getD maxinteger⟩ := hvalue
  rw [stored, hunit, Option.elim_some]
  change value = wrap (counted s p.atype + wrap (amount p)) ∨
    counted s p.atype = 0 ∧ value = wrap (amount p) at hsum
  rw [hwrap] at hsum
  rcases hsum with hsum | ⟨hzero, hsum⟩
  · rw [hsum, wrap_of_range (by omega) hroom]
  · rw [hsum, hzero, zero_add]

/-- The sales of the period before the purchase is counted. -/
theorem Tracked.period (h : Tracked s p.atype) (paid : ℤ) (expire : Option ℤ) : ∃ sales,
    (countSale s p paid expire).history.sales p.atype = sales ++ [⟨p, paid⟩] ∧ Fair sales ∧
      units sales ≤ counted s p.atype ∧ (OfCards p.atype → units sales = counted s p.atype) := by
  refine ⟨if counted s p.atype = 0 then [] else s.history.sales p.atype,
    Function.update_self (f := s.history.sales) .., ?_⟩
  split_ifs with hzero
  · exact ⟨.nil, hzero.ge, fun _ => hzero.symm⟩
  · have hsame := (counted_stored s p.atype).resolve_left hzero
    exact ⟨h.fair, hsame ▸ h.within, fun hcards => hsame ▸ h.card hcards⟩

/-- The sale is within the limit and at its price. -/
theorem Flying.good {sales : List Sale} (h : Flying s m p) (hload : amount p ≤ load m p.atype)
    (hpaid : p.shopDat.n32Type = 4 → paid = ladder p.shopDat.n32Price p.hasBuy p.num)
    (htype : p.shopDat.n32Type = 3 ∨ p.shopDat.n32Type = 4)
    (hwithin : units sales ≤ counted s p.atype)
    (hcards : OfCards p.atype → units sales = counted s p.atype) :
    Good (units sales) ⟨p, paid⟩ where
  one_le := h.one_le
  limit hlimit := by
    change units sales + p.num ≤ p.shopDat.n32Limit
    rcases htype with hthree | hfour
    · have hfits := (h.box hthree).2 hlimit
      omega
    · obtain ⟨-, -, hbuy, -, hfits⟩ := h.card hfour
      have hle := hfits hlimit
      omega
  price hfour := by
    obtain ⟨hof, -, hbuy, -, -⟩ := h.card hfour
    change paid = ladder p.shopDat.n32Price (units sales) p.num
    rw [hcards hof, hbuy]
    exact hpaid hfour

/-- Once counted, the purchase is one of the fair sales of its counter. -/
theorem Inv.tracked_count (h : Inv s (place ::ₘ m)) (hp : underway place = some p)
    (hpaid : p.shopDat.n32Type = 4 → paid = ladder p.shopDat.n32Price p.hasBuy p.num)
    (hstored : stored (countSale s p paid expire) p.atype = counted s p.atype + amount p)
    (hroom : counted s p.atype + amount p < 2 ^ 63) :
    Tracked (countSale s p paid expire) p.atype := by
  have hf := h.flying place (Multiset.mem_cons_self _ _) p hp
  have htype := underway_type hp
  obtain ⟨sales, hsales, hfair, hwithin, hcards⟩ :=
    (h.tracked p.atype hf.ne).period paid expire
  have hload := amount_le_load h.amounts (Multiset.mem_cons_self _ _) hp
  refine ⟨hsales ▸ .sale hfair (hf.good hload hpaid htype hwithin hcards), ?_, fun hof => ?_, ?_⟩
  · rw [hsales, units_append, hstored]
    exact add_le_add hwithin hf.amount_pos
  · rw [hsales, units_append, hstored, hcards hof]
    rcases htype with hthree | hfour
    · exact absurd hof (hf.box hthree).1
    · have hcount := (hf.card hfour).2.2.2.1
      simp [amount, hcount]
  · rw [hstored]
    exact hroom

theorem Inv.count (h : Inv s (place ::ₘ m)) (hp : underway place = some p)
    (hpaid : p.shopDat.n32Type = 4 → paid = ladder p.shopDat.n32Price p.hasBuy p.num)
    (expire : Option ℤ) : Inv (countSale s p paid expire) m := by
  have hf := h.flying place (Multiset.mem_cons_self _ _) p hp
  have hself := load_self hp m
  have hroom := h.room p.atype hf.ne
  have hone := h.amounts place (Multiset.mem_cons_self _ _) p hp
  have hcounted := (h.tracked p.atype hf.ne).counted_nonneg
  have hnonneg := load_nonneg
    (fun place hplace => h.amounts place (Multiset.mem_cons_of_mem hplace)) p.atype
  have hstored : stored (countSale s p paid expire) p.atype = counted s p.atype + amount p :=
    countSale_stored hcounted hone (by omega)
  have htracked := h.tracked_count hp hpaid hstored (by omega)
  have hle : counted (countSale s p paid expire) p.atype ≤ counted s p.atype + amount p :=
    hstored ▸ htracked.counted_le
  refine ⟨fun a ha => ?_, fun place' hmem p' hp' => ?_, fun a ha => ?_⟩
  · by_cases heq : a = p.atype
    · exact heq ▸ htracked
    · refine (h.tracked a ha).of_same (Function.update_of_ne (f := s.history.sales) heq ..) ?_
      rw [stored, stored, countSale_other heq]
  · have hold := h.flying place' (Multiset.mem_cons_of_mem hmem) p' hp'
    by_cases heq : p.atype = p'.atype
    · refine hold.mono ?_ fun hfour => absurd hfour (h.no_card hp hmem hp' heq)
      rw [← heq]
      omega
    · have hload := load_other hp heq m
      have hcounted' : counted (countSale s p paid expire) p'.atype = counted s p'.atype :=
        countSale_counted (Ne.symm heq)
      exact hold.mono (by rw [hload, hcounted']) fun _ => ⟨hload.symm, hcounted'⟩
  · by_cases heq : a = p.atype
    · subst heq
      omega
    · rw [countSale_counted heq, ← load_other hp (Ne.symm heq)]
      exact h.room a ha

/-! ## Writes that leave the counters alone -/

theorem Kept.of_account {account : Agent.Account} {resets : ℕ} :
    Kept s { s with user := { s.user with account }, resets } := ⟨fun _ _ => rfl, rfl, rfl⟩

theorem Kept.of_grants {op : Place} (h : Grants op s s') : Kept s s' :=
  ⟨fun _ _ => by rw [h.activitys], by rw [h.history], h.clock⟩

theorem Kept.of_reset {u : String} (h : ResetWrite u s s') : Kept s s' := by
  cases h <;> exact ⟨fun _ _ => rfl, rfl, rfl⟩

theorem Kept.of_begin {args : BeginArgs} (h : BeginWrite args s s') : Kept s s' := by
  cases h <;> exact ⟨fun _ _ => rfl, rfl, rfl⟩

theorem Kept.of_end {u : String} (h : EndWrite u s s') : Kept s s' := by
  cases h with
  | grants h => exact .of_grants h
  | note h => exact h ▸ ⟨fun _ _ => rfl, rfl, rfl⟩
  | reset h => exact .of_reset h

theorem Kept.of_refresh {u : String} (h : RefreshWrite u s s') : Kept s s' := by
  rcases h with hs | hr
  · cases hs with
    | quotas h => exact h ▸ .of_account
    | times h => exact h ▸ .of_account
    | money paid h => exact .of_grants h
    | count expire h => exact h ▸ ⟨fun _ ha => addValue_of_ne _ _ ha, rfl, rfl⟩
    | note free paid h => exact h ▸ ⟨fun _ _ => rfl, rfl, rfl⟩
  · exact .of_reset hr

section Safe

/-- The coroutine is safe in the runs in question. -/
abbrev Keeps {α : Type} (t : Step w α) (Q : α → State w → Multiset Place → Prop) (s : State w)
    (m : Multiset Place) : Prop := t.Safe Inv (guard w).resume Q s m

theorem stays_safe {α : Type} {t : Step w α} {P : Set Place} {R : State w → State w → Prop}
    (ht : t.Stays P R True) (hP : ∀ place ∈ P, underway place = none)
    (hR : ∀ s s', R s s' → Kept s s') (h : Inv s m) : Keeps t (fun _ => Inv) s m :=
  (ht s).safe_apart (fun place hplace _ _ => inv_apart (hP place hplace))
    (fun s s' _ hw hs => hs.of_kept (hR s s' hw)) h

/-- A coroutine that keeps the counters goes on with its purchase on the way. -/
theorem keeping_safe {α β : Type} {t : Step w α} {f : α → Step w β} {R : State w → State w → Prop}
    {Q : β → State w → Multiset Place → Prop} (ht : t.Stays {place} R True)
    (hR : ∀ s s', R s s' → Kept s s') (h : Inv s (place ::ₘ m))
    (hf : ∀ a s m, Inv s (place ::ₘ m) → Keeps (f a) Q s m) : Keeps (t >>= f) Q s m :=
  ht.then_safe (fun s s' _ hw hs => hs.of_kept (hR s s' hw)) (fun _ _ _ => Inv.drop) h hf

/-! ## `buyShopItem` -/

theorem addBuyBoxTimes_safe {num : ℤ} (h : Inv s m) :
    Keeps (AgentService.Account.addBuyBoxTimes (.buy .spent p) (.buy .again p) num)
      (fun _ => Inv) s m := by
  have hstays : (AgentService.Account.addBuyBoxTimes (.buy .spent p) (.buy .again p) num :
      Step w Unit).Stays {.buy .spent p, .buy .again p} Kept True := by
    unfold AgentService.Account.addBuyBoxTimes
    split_ifs
    · exact stays_pure ()
    · exact (stays_refreshTimes (.inr rfl) fun _ _ => .of_account).bind fun _ =>
        (stays_modify fun _ => .of_account).bind fun _ => stays_call (.inl rfl)
  refine stays_safe hstays ?_ (fun _ _ => id) h
  rintro place (rfl | rfl) <;> rfl

theorem deliver_safe {paid : ℤ} (expire : ℤ)
    (hpaid : p.shopDat.n32Type = 4 → paid = ladder p.shopDat.n32Price p.hasBuy p.num)
    (h : Inv s (.buy .goods p ::ₘ m)) : Keeps (deliver p paid expire) (fun _ => Inv) s m := by
  unfold deliver
  simp only
  split_ifs with htwo hthree hfour hfive
  · exact Safe.mono (((stays_addGold (E := True) _) s).safe
      (fun _ _ _ hg hs => hs.of_kept (.of_grants hg)) (fun _ _ _ => Inv.drop) h)
      fun _ _ _ => Inv.drop
  · refine keeping_safe (stays_usePackageItem _) (fun _ _ => .of_grants) h fun items s m hs => ?_
    refine keeping_safe ((stays_addItems items).bind fun _ => stays_pure _) (fun _ _ => .of_grants)
      hs fun _ s m hs => ?_
    refine safe_bind.mpr (safe_modify.mpr (safe_bind.mpr (safe_get.mpr (safe_bind.mpr (safe_bind.mpr
      (safe_modify.mpr (safe_call.mpr ⟨(inv_apart rfl).mpr ?_, fun s m hs _ => ?_⟩)))))))
    · exact hs.count (if_pos (.inl hthree)) hpaid _
    · exact addBuyBoxTimes_safe hs.drop
  · refine keeping_safe ((stays_addItems _).bind fun _ => stays_pure _) (fun _ _ => .of_grants) h
      fun _ s m hs => ?_
    refine safe_bind.mpr (safe_modify.mpr (safe_bind.mpr
      (safe_modify.mpr (safe_call.mpr ⟨(inv_apart rfl).mpr ?_, fun s m hs _ => hs.drop⟩))))
    exact hs.count (if_pos (.inr hfour)) hpaid _
  · refine keeping_safe (stays_usePackageItem _) (fun _ _ => .of_grants) h fun items s m hs => ?_
    refine keeping_safe ((stays_addItems items).bind fun _ => stays_pure _) (fun _ _ => .of_grants)
      hs fun _ s m hs => ?_
    exact hs.drop.of_kept ⟨fun _ _ => rfl, rfl, rfl⟩
  · exact h.drop

theorem purchase_safe (expire : ℤ)
    (hpaid : p.shopDat.n32Type = 4 →
      taken s.user.account p = ladder p.shopDat.n32Price p.hasBuy p.num)
    (h : Inv s (.buy .pay p ::ₘ m)) : Keeps (purchase p expire) (fun _ => Inv) s m := by
  refine safe_bind.mpr (safe_get.mpr ?_)
  refine keeping_safe (stays_when fun _ => stays_addGold _) (fun _ _ => .of_grants) h
    fun _ s m hs => ?_
  refine keeping_safe (stays_when fun _ => stays_addMoney _) (fun _ _ => .of_grants) hs
    fun _ s m hs => ?_
  exact safe_bind.mpr ((deliver_safe expire hpaid (hs.move (.buy .goods p) rfl)).mono
    fun _ _ _ h => h)

/-- A box on its way asks for the quota of the day. -/
theorem haveBuyBoxTimes_safe {expire : ℤ} (hthree : p.shopDat.n32Type = 3)
    (h : Inv s (.buy .quota p ::ₘ m)) :
    Keeps (do
      if ← AgentService.Account.haveBuyBoxTimes (.buy .quota p) p.num then purchase p expire
      else return 4) (fun _ => Inv) s m := by
  have hstays : (AgentService.Account.haveBuyBoxTimes (.buy .quota p) p.num : Step w Bool).Stays
      {.buy .quota p} Kept True :=
    (stays_refreshTimes (Set.mem_singleton _) fun _ _ => .of_account).bind fun _ =>
      stays_get_bind fun s => stays_pure (E := True) _ s
  refine keeping_safe hstays (fun _ _ => id) h fun ok s m hs => ?_
  cases ok with
  | false => exact hs.drop
  | true => exact purchase_safe expire (fun hfour => by omega) (hs.move (.buy .pay p) rfl)

theorem buyShopItem_safe {id num : ℤ} (h : Inv s m)
    (hguard : (guard w).request s m (.buyShopItem id num)) :
    Keeps (buyShopItem id num) (fun _ => Inv) s m := by
  unfold buyShopItem
  obtain ⟨⟨hone, hrows⟩, hbox⟩ := hguard
  cases hrow : w.shopRepository id with
  | none => exact h
  | some shopDat =>
      refine safe_bind.mpr (Safe.mono (Q := fun _ s m => Inv s m ∧ ∀ p ∈ asked w s id num,
        p.shopDat = shopDat → p.shopDat.n32Type = 3 ∨ p.shopDat.n32Type = 4 → Clear s m p) ?_
        fun _ s m hs => ?_)
      · unfold Coroutine.when
        split_ifs with hfour
        · exact safe_call.mpr ⟨(inv_apart rfl).mpr h, fun s m hs hg =>
            ⟨hs.drop, fun p hp _ _ => hg p hp⟩⟩
        · refine ⟨h, fun p hp heq htype => hbox p hp (htype.resolve_right ?_)⟩
          rw [heq]
          exact hfour
      · refine safe_bind.mpr (safe_get.mpr ?_)
        obtain ⟨hs, hclear⟩ := hs
        cases hcounter : counter s.env s.user shopDat with
        | none => exact hs
        | some e =>
            obtain ⟨atype, hasBuy⟩ := e
            simp only
            cases hchecks : checks s.env s.user shopDat hasBuy
                (Purchase.cost ⟨shopDat, num, atype, hasBuy⟩) num with
            | some errorCode => exact hs
            | none =>
                have hc := hclear ⟨shopDat, num, atype, hasBuy⟩
                  (by simp [asked, hrow, hcounter, hchecks]) rfl
                have hclaim : ∀ place, underway place =
                    some (⟨shopDat, num, atype, hasBuy⟩ : Purchase) → Inv s (place ::ₘ m) :=
                  fun place hp => hs.claim hp hone (hrows shopDat hrow) hcounter hchecks
                    (hc (underway_type hp))
                simp only
                split_ifs with hthree
                · exact haveBuyBoxTimes_safe hthree (hclaim _ (if_pos (.inl hthree)))
                · by_cases hfour : shopDat.n32Type = 4
                  · have hbuy := (counter_spec hcounter).1 hfour
                    have hnonneg := (hs.tracked atype (counter_ne hcounter)).counted_nonneg
                    exact purchase_safe _ (fun _ => (hc (.inr hfour)).paid hfour (hbuy.2 ▸ hnonneg)
                      hchecks) (hclaim _ (if_pos (.inr hfour)))
                  · refine purchase_safe _ (fun h => absurd h hfour) ((inv_apart ?_).mpr hs)
                    exact if_neg (not_or.mpr ⟨hthree, hfour⟩)

/-! ## Runs -/

theorem handle_safe (r : Request) (h : Inv s m) (hguard : (guard w).request s m r) :
    Keeps (handle q r) (fun _ => Inv) s m := by
  cases r with
  | buyShopItem id num => exact safe_bind.mpr (buyShopItem_safe h hguard)
  | exploreBegin args =>
      refine safe_bind.mpr (stays_safe (stays_exploreBegin q args) ?_ (fun _ _ => .of_begin) h)
      rintro place (rfl | rfl) <;> rfl
  | exploreEnd u =>
      refine safe_bind.mpr (stays_safe (stays_exploreEnd q u) ?_ (fun _ _ => .of_end) h)
      rintro place (rfl | rfl) <;> rfl
  | exploreRefresh u =>
      refine safe_bind.mpr (stays_safe (stays_exploreRefresh q u) ?_ (fun _ _ => .of_refresh) h)
      rintro place ⟨phase, paid, rfl⟩
      rfl
  | refreshTimes =>
      refine stays_safe (P := {.times}) (R := Kept) (stays_refreshTimes (Set.mem_singleton _)
        fun _ _ => .of_account) ?_ (fun _ _ => id) h
      rintro place rfl
      rfl

/-- Of no row more is sold in a period than its limit, and every unit of a material has the price of
the units sold before it. -/
theorem shop_limit (s₀ : State w) (hstart : ∀ a ≠ RefreshExplore, Tracked s₀ a)
    {p : Pool (State w) Place} (h : ((server w q).system s₀).Runs (guard w).Admits p) {a : ℤ}
    (ha : a ≠ RefreshExplore) :
    (∀ shopDat, 0 < shopDat.n32Limit →
        unitsOf shopDat (p.shared.history.sales a) ≤ shopDat.n32Limit) ∧
      ∀ before r after, p.shared.history.sales a = before ++ r :: after →
        r.purchase.shopDat.n32Type = 4 →
        r.paid = ladder r.purchase.shopDat.n32Price (units before) r.purchase.num := by
  have hinit : Inv s₀ 0 := by
    refine ⟨hstart, by simp, fun a ha => ?_⟩
    have hle := (hstart a ha).counted_le
    have hrange := (hstart a ha).range
    change counted s₀ a + 0 < 2 ^ 63
    omega
  have hinv := Server.invariant Inv hinit (fun _ _ r hs hr => handle_safe r hs hr)
    (fun _ _ _ hs hok => hs.tick hok.1.1 hok.2) h
  have hfair := (hinv.tracked a ha).fair
  exact ⟨fun shopDat hlimit => hfair.limit hlimit,
    fun _ _ _ hsales hcard => hfair.price hsales hcard⟩

end Safe

/-- A material for gold. -/
def materialRow (n32Limit : ℤ) : ShopRow where
  n32Type := 4
  n32Site := 0
  n32Count := 1
  n32Price := 10
  n32MoneyType := 1
  n32Limit := n32Limit
  n32GoodsID := 0

def stall (n32Limit : ℤ) : World := { (default : World) with
  shopRepository := fun _ => some (materialRow n32Limit)
  hero_row := default_hero_row
  skill_row := default_skill_row }

/-- A player with gold and no purchases. -/
def buyer (n32Limit : ℤ) : State (stall n32Limit) :=
  { (default : State (stall n32Limit)) with
    user := { (default : User) with
      account := { (default : User).account with gold := ⟨100, hundred_balance⟩ } } }

theorem buyer_tracked (n32Limit a : ℤ) : Tracked (buyer n32Limit) a :=
  ⟨.nil, le_rfl, fun _ => rfl, (by decide : (0 : ℤ) < 2 ^ 63)⟩

theorem material_clear {s : State (stall 2)} {m : Multiset Place} (hasBuy : ℤ)
    (hload : load m 1001 = 0) (hroom : counted s 1001 + 1 < 2 ^ 63)
    (hprice : 10 * (1 + hasBuy) < 2 ^ 63) : Clear s m ⟨materialRow 2, 1, 1001, hasBuy⟩ where
  room := by
    change counted s 1001 + load m 1001 + 1 < 2 ^ 63
    rw [hload]
    omega
  box hthree := absurd hthree (show ¬ (4 : ℤ) = 3 by decide)
  card _ := ⟨hload, rfl, .inr ⟨rfl, .inl rfl, show (0 : ℤ) < 10 by decide, hprice⟩⟩

/-- Two units, one after the other: the second one costs twice as much. -/
theorem shop_limit_material : ∃ p, ((server (stall 2) library).system (buyer 2)).Runs
    (guard (stall 2)).Admits p ∧ unitsOf (materialRow 2) (p.shared.history.sales 1001) = 2 ∧
      unitsOf (materialRow 2) (p.shared.history.sales 1001) ≤ 2 ∧
      (p.shared.history.sales 1001).map Sale.paid = [10, 20] := by
  have hrows : ∀ shopDat ∈ (stall 2).shopRepository 1, 1 ≤ shopDat.n32Count := by
    rintro shopDat ⟨⟩
    decide
  have hrun : ∃ p, ((server (stall 2) library).system (buyer 2)).Runs (guard (stall 2)).Admits p ∧
      unitsOf (materialRow 2) (p.shared.history.sales 1001) = 2 ∧
      (p.shared.history.sales 1001).map Sale.paid = [10, 20] := by
    refine ⟨_, .step (i := .resume 0) (.step (i := .resume 0)
      (.step (i := .request (.buyShopItem 1 1)) (.step (i := .resume 0) (.step (i := .resume 0)
        (.step (i := .resume 0) (.step (i := .request (.buyShopItem 1 1)) .init
          ⟨⟨le_rfl, hrows⟩, ?_⟩ rfl) (fun v hv => ?_) rfl) (fun v hv => ?_) rfl)
            (fun v hv => ?_) rfl) ⟨⟨le_rfl, hrows⟩, ?_⟩ rfl) (fun v hv => ?_) rfl)
              (fun v hv => ?_) rfl, rfl, rfl⟩
    · rintro p ⟨⟩ hthree
      exact absurd hthree (by decide)
    · obtain rfl := Option.some.inj hv
      rintro p ⟨⟩
      exact material_clear 0 rfl (by decide) (by decide)
    · obtain rfl := Option.some.inj hv
      trivial
    · obtain rfl := Option.some.inj hv
      trivial
    · rintro p ⟨⟩ hthree
      exact absurd hthree (by decide)
    · obtain rfl := Option.some.inj hv
      rintro p ⟨⟩
      exact material_clear 1 rfl (by decide) (by decide)
    · obtain rfl := Option.some.inj hv
      trivial
  obtain ⟨p, hp, hunits, hpaid⟩ := hrun
  exact ⟨p, hp, hunits, (shop_limit (buyer 2) (fun a _ => buyer_tracked 2 a) hp (by decide)).1
    (materialRow 2) (by decide), hpaid⟩

/-- Two purchases of a material read the counter before either is counted. -/
theorem buyShopItem_overlap : ¬ ∀ (w : World) (q : ExploreData) (s₀ : State w),
    (∀ a ≠ RefreshExplore, Tracked s₀ a) →
    ∀ p, ((server w q).system s₀).Runs (counting w).Admits p → ∀ a ≠ RefreshExplore,
      (∀ shopDat, 0 < shopDat.n32Limit →
        unitsOf shopDat (p.shared.history.sales a) ≤ shopDat.n32Limit) ∧
      ∀ before r after, p.shared.history.sales a = before ++ r :: after →
        r.purchase.shopDat.n32Type = 4 →
        r.paid = ladder r.purchase.shopDat.n32Price (units before) r.purchase.num := fun hall => by
  have hrun : ∃ p, ((server (stall 1) library).system (buyer 1)).run
      ((server (stall 1) library).system (buyer 1)).init
      [.request (.buyShopItem 1 1), .request (.buyShopItem 1 1), .resume 0, .resume 0, .resume 0,
        .resume 0, .resume 0, .resume 0] = some p ∧ p.places = 0 ∧
      unitsOf (materialRow 1) (p.shared.history.sales 1001) = 2 := ⟨_, rfl, rfl, rfl⟩
  obtain ⟨p, hp, -, hunits⟩ := hrun
  have hruns : ((server (stall 1) library).system (buyer 1)).Runs
      (counting (stall 1)).Admits p := by
    refine System.Runs.of_run .init (fun l hl u => ?_) hp
    have hcounts : ∀ shopDat ∈ (stall 1).shopRepository 1, 1 ≤ shopDat.n32Count := by
      rintro shopDat ⟨⟩
      decide
    simp only [List.mem_cons, List.not_mem_nil, or_false] at hl
    rcases hl with rfl | rfl | rfl | rfl | rfl | rfl | rfl | rfl
    · exact ⟨le_rfl, hcounts⟩
    · exact ⟨le_rfl, hcounts⟩
    all_goals exact fun _ _ => trivial
  have hle := (hall (stall 1) library (buyer 1) (fun a _ => buyer_tracked 1 a) p hruns 1001
    (by decide)).1 (materialRow 1) (by decide)
  rw [hunits] at hle
  exact absurd hle (by decide)

end GameServer.Player.ShopLimit
