import GameServer.Bill
import GameServer.ShopFair

/-!
# How much a purchase hands out

The number of units multiplies the price, the counter and the quota. A package is opened once all
the same, both by `buyShopItem` and by `addItems`, so only a single package is worth its price.
-/

namespace GameServer.Shop

open Goods Agent

variable {env : Env} {user : User} {shopDat : ShopRow} {num k : ℤ} {d : Billed Unit} {i j n : ℕ}
  {bill : Bill} {good : Good} {item : ItemRow}

/-! ## What is handed out and what should be -/

def times (n : ℕ) (d : Billed Unit) : Billed Unit :=
  match n with
  | 0 => return
  | n + 1 => do
      d
      times n d

def isPackage (env : Env) (k : ℤ) : Bool :=
  (env.data.itemRepository k).any fun item => item.n32Type = 4

/-- A package that is opened for a buyer. -/
def openedBill (env : Env) (k lv : ℤ) : Billed Unit := do
  let items ← usePackageItem env k lv
  tell (if isPackage env k then [(.opening k, 1)] else [])
  billAt env lv 2 items

/-- The bill of `deliver`. -/
def deliverBill (env : Env) (shopDat : ShopRow) (num lv : ℤ) : Billed Unit :=
  let amount := wrap (shopDat.n32Count * num)
  if shopDat.n32Type = 2 then tell [(.gold, amount)]
  else if shopDat.n32Type = 3 ∨ shopDat.n32Type = 5 then openedBill env shopDat.n32GoodsID lv
  else if shopDat.n32Type = 4 then billAt env lv 2 [(shopDat.n32GoodsID, amount)]
  else return

/-- What `num` units are: gold, openings, or copies of the good. -/
def unitsBill (env : Env) (shopDat : ShopRow) (num lv : ℤ) : Billed Unit :=
  let amount := shopDat.n32Count * num
  if shopDat.n32Type = 2 then tell [(.gold, amount)]
  else if shopDat.n32Type = 3 ∨ shopDat.n32Type = 5 then
    times num.toNat (openedBill env shopDat.n32GoodsID lv)
  else if shopDat.n32Type = 4 then
    times amount.toNat (billAt env lv 2 [(shopDat.n32GoodsID, 1)])
  else return

def SameAssets (u u' : User) : Prop :=
  u'.account.gold = u.account.gold ∧ u'.account.money = u.account.money ∧ u'.cards = u.cards ∧
    u'.skills = u.skills

/-- The agent has gone from `u` to `u'` by a bill with the totals of all the units. -/
def GrantsUnits (env : Env) (handed units : ℤ → Billed Unit) (u u' : User) : Prop :=
  ∃ bill drawn credited, (handed u.level).run u.drawn = some (((), bill), drawn) ∧
    credit env bill { u with drawn } = some ((), credited) ∧ SameAssets credited u' ∧
    ∃ all drawn', (units u.level).run u.drawn = some (((), all), drawn') ∧ total all = total bill

/-! ## The condition -/

/-- What a copy of an item counts as. -/
def goodOf (item : ItemRow) : Option Good :=
  if item.n32Type = 3 then some (.card item.n32Retain1)
  else if item.n32Type = 5 then some .gold
  else if item.n32Type = 6 then some .money
  else if item.n32Type = 7 then some (.skill item.n32Retain1)
  else none

/-- One package, or copies whose number does not wrap to another one. -/
def Multiplies (env : Env) (shopDat : ShopRow) (num : ℤ) : Prop :=
  let amount := shopDat.n32Count * num
  if shopDat.n32Type = 2 then wrap amount = amount
  else if shopDat.n32Type = 3 ∨ shopDat.n32Type = 5 then
    num = 1 ∨ ¬ isPackage env shopDat.n32GoodsID
  else if shopDat.n32Type = 4 then
    if isPackage env shopDat.n32GoodsID then amount = 1
    else (env.data.itemRepository shopDat.n32GoodsID).bind goodOf = none ∨
      (wrap amount).toNat = amount.toNat
  else True

/-! ## Totals -/

theorem total_nil : total [] good = 0 := rfl

theorem total_cons (e : Good × ℤ) :
    total (e :: bill) good = (if e.1 = good then e.2 else 0) + total bill good := rfl

theorem total_append (bill bill' : Bill) :
    total (bill ++ bill') good = total bill good + total bill' good := by
  simp only [total, List.map_append, List.sum_append]

theorem total_nonneg (good : Good) (h : ∀ e ∈ bill, 0 < e.2) : 0 ≤ total bill good := by
  refine List.sum_nonneg fun v hv => ?_
  obtain ⟨e, he, rfl⟩ := List.mem_map.mp hv
  split
  · exact (h e he).le
  · exact le_rfl

theorem times_succ_run : (times (n + 1) d).run i = (d.run i).bind fun r =>
    ((times n d).run r.2).bind fun r' => some (((), r.1.2 ++ r'.1.2), r'.2) := rfl

/-- Every bill that can be drawn has the good. -/
def Lists {α : Type} (good : Good) (d : Billed α) : Prop :=
  ∀ i r, d.run i = some r → 1 ≤ total r.1.2 good

theorem le_total_times (h : Lists good d) {r : (Unit × Bill) × ℕ}
    (hr : (times n d).run i = some r) : n ≤ total r.1.2 good := by
  induction n generalizing i r with
  | zero =>
    obtain rfl := Option.some.inj hr
    exact le_rfl
  | succ n ih =>
    rw [times_succ_run] at hr
    obtain ⟨r₁, h₁, hr⟩ := Option.bind_eq_some_iff.mp hr
    obtain ⟨r₂, h₂, hr⟩ := Option.bind_eq_some_iff.mp hr
    obtain rfl := Option.some.inj hr
    have hfirst := h i r₁ h₁
    have hrest := ih h₂
    rw [total_append]
    push_cast
    omega

/-- Among the numbers of openings only one has the totals of one opening. -/
theorem times_iff (hd : d.run i = some (((), bill), j)) (h : Lists good d) :
    (∃ all j', (times n d).run i = some (((), all), j') ∧ total all = total bill) ↔ n = 1 := by
  have hbill : 1 ≤ total bill good := h i _ hd
  constructor
  · rintro ⟨all, j', hall, htotal⟩
    have htotal := congrFun htotal good
    cases n with
    | zero =>
      obtain rfl : [] = all := by
        have heq := Option.some.inj hall
        exact congrArg (fun r => r.1.2) heq
      rw [total_nil] at htotal
      omega
    | succ n =>
      rw [times_succ_run, hd, Option.bind_some] at hall
      obtain ⟨r, hr, hall⟩ := Option.bind_eq_some_iff.mp hall
      obtain rfl : bill ++ r.1.2 = all := congrArg (fun r => r.1.2) (Option.some.inj hall)
      have hrest := le_total_times h hr
      rw [total_append] at htotal
      omega
  · rintro rfl
    refine ⟨bill ++ [], j, ?_, by rw [List.append_nil]⟩
    rw [times_succ_run, hd]
    rfl

theorem times_const (h : ∀ i, d.run i = some (((), bill), i)) :
    ∃ all, (times n d).run i = some (((), all), i) ∧
      ∀ good, total all good = n * total bill good := by
  induction n generalizing i with
  | zero => exact ⟨[], rfl, fun good => by simp [total_nil]⟩
  | succ n ih =>
    obtain ⟨all, hall, htotal⟩ := ih (i := i)
    refine ⟨bill ++ all, ?_, fun good => ?_⟩
    · rw [times_succ_run, h, Option.bind_some, hall]
      rfl
    · rw [total_append, htotal]
      push_cast
      ring

/-! ## The entries of a bill -/

/-- Every bill that can be drawn has positive amounts. -/
def Positive {α : Type} (d : Billed α) : Prop := ∀ i r, d.run i = some r → ∀ e ∈ r.1.2, 0 < e.2

theorem positive_pure {α : Type} (x : α) : Positive (pure x) := fun i r h e he => by
  obtain rfl := Option.some.inj h
  exact absurd he List.not_mem_nil

theorem positive_tell (h : ∀ e ∈ bill, 0 < e.2) : Positive (tell bill : Billed Unit) :=
  fun i r hr e he => by
    obtain rfl := Option.some.inj hr
    exact h e he

theorem positive_lift {α : Type} (d : Draw α) : Positive (liftM d : Billed α) :=
  fun i r h e he => by
  obtain ⟨r', -, hr⟩ := Option.bind_eq_some_iff.mp h
  obtain rfl := Option.some.inj hr
  exact absurd he List.not_mem_nil

theorem Positive.bind {α β : Type} {d : Billed α} {f : α → Billed β} (hd : Positive d)
    (hf : ∀ x, Positive (f x)) : Positive (d >>= f) := fun i r h e he => by
  obtain ⟨r₁, h₁, h⟩ := Option.bind_eq_some_iff.mp h
  obtain ⟨r₂, h₂, h⟩ := Option.bind_eq_some_iff.mp h
  obtain rfl := Option.some.inj h
  rcases List.mem_append.mp he with he | he
  · exact hd i r₁ h₁ e he
  · exact hf r₁.1.1 r₁.2 r₂ h₂ e he

theorem positive_billGathered {again : IntTable → Billed Unit} (h : ∀ items, Positive (again items))
    (lv : ℤ) (items : IntTable) (g : Gathered) : Positive (billGathered env lv again items g) := by
  induction items generalizing g with
  | nil => exact positive_pure _
  | cons e items ih =>
    obtain ⟨k, v⟩ := e
    unfold billGathered
    cases env.data.itemRepository k with
    | none => exact positive_pure _
    | some item =>
      dsimp only
      split_ifs
      · exact ih _
      · exact (positive_lift _).bind fun rets => (positive_tell (by simp)).bind fun _ =>
          (h rets).bind fun _ => ih _
      · exact ih _
      · exact ih _
      · exact ih _
      · exact ih _

theorem positive_billHandedOut (g : Gathered) : ∀ e ∈ billHandedOut env g, 0 < e.2 := by
  intro e he
  simp only [billHandedOut, List.mem_append, List.mem_map, List.mem_filter] at he
  rcases he with ((he | he) | ⟨e', ⟨-, hpos⟩, rfl⟩) | ⟨e', ⟨-, hpos⟩, rfl⟩
  · split_ifs at he with hgold
    · rw [List.mem_singleton.mp he]
      exact hgold
    · exact absurd he List.not_mem_nil
  · split_ifs at he with hmoney
    · rw [List.mem_singleton.mp he]
      exact hmoney
    · exact absurd he List.not_mem_nil
  · exact of_decide_eq_true hpos
  · exact of_decide_eq_true hpos

theorem positive_billAt (lv : ℤ) (levels : ℕ) (items : IntTable) :
    Positive (billAt env lv levels items) := by
  induction levels generalizing items with
  | zero => exact positive_pure ()
  | succ levels ih =>
    refine (positive_billGathered ih lv (env.pairs items) {}).bind fun r => ?_
    cases r with
    | none => exact positive_pure ()
    | some g => exact positive_tell (positive_billHandedOut g)

/-! ## One good -/

theorem isPackage_iff (hk : env.data.itemRepository k = some item) :
    isPackage env k ↔ item.n32Type = 4 := by
  rw [isPackage, hk]
  exact decide_eq_true_iff

theorem pairs_single (k v : ℤ) : env.pairs [(k, v)] = [(k, v)] :=
  List.perm_singleton.mp (env.pairs_perm [(k, v)])

theorem pairs_nil : env.pairs [] = [] := List.perm_nil.mp (env.pairs_perm [])

/-- Copies of an item that is not a package. -/
def copies (item : ItemRow) (v : ℤ) : Bill :=
  if 0 < v then ((goodOf item).map fun good => (good, v)).toList else []

theorem billAt_unknown (hk : env.data.itemRepository k = none) (lv v : ℤ) (i : ℕ) :
    (billAt env lv 2 [(k, v)]).run i = some (((), []), i) := by
  unfold billAt
  rw [pairs_single]
  unfold billGathered
  rw [hk]
  rfl

/-- The loop over one item that is not a package only gathers. -/
theorem gathered_copies (hne : item.n32Type ≠ 4) (hk : env.data.itemRepository k = some item)
    (again : IntTable → Billed Unit) (lv : ℤ) {v : ℤ} (hv : wrap v = v) :
    ∃ g, billGathered env lv again [(k, v)] {} = pure (some g) ∧
      billHandedOut env g = copies item v := by
  have hsum : wrap (0 + v) = v := by rw [zero_add, hv]
  unfold billGathered
  rw [hk]
  dsimp only
  unfold copies goodOf
  by_cases h3 : item.n32Type = 3
  · refine ⟨{ cards := [(item.n32Retain1, v)] }, if_pos h3, ?_⟩
    by_cases hpos : 0 < v <;> simp [billHandedOut, pairs_single, pairs_nil, h3, hpos]
  · rw [if_neg h3, if_neg h3, if_neg hne]
    by_cases h5 : item.n32Type = 5
    · refine ⟨{ gold := wrap (0 + v) }, if_pos h5, ?_⟩
      by_cases hpos : 0 < v <;> simp [billHandedOut, pairs_nil, h5, hpos, hv]
    · rw [if_neg h5, if_neg h5]
      by_cases h6 : item.n32Type = 6
      · refine ⟨{ money := wrap (0 + v) }, if_pos h6, ?_⟩
        by_cases hpos : 0 < v <;> simp [billHandedOut, pairs_nil, h6, hpos, hv]
      · rw [if_neg h6, if_neg h6]
        by_cases h7 : item.n32Type = 7
        · refine ⟨{ skillMats := [(item.n32Retain1, v)] }, if_pos h7, ?_⟩
          by_cases hpos : 0 < v <;> simp [billHandedOut, pairs_single, pairs_nil, h7, hpos]
        · rw [if_neg h7, if_neg h7]
          exact ⟨{}, rfl, by simp [billHandedOut, pairs_nil]⟩

theorem billAt_copies (hne : item.n32Type ≠ 4) (hk : env.data.itemRepository k = some item)
    (lv : ℤ) {v : ℤ} (hv : wrap v = v) (i : ℕ) :
    (billAt env lv 2 [(k, v)]).run i = some (((), copies item v), i) := by
  obtain ⟨g, hgather, hbill⟩ := gathered_copies hne hk (billAt env lv 1) lv hv
  unfold billAt
  rw [pairs_single, hgather, ← hbill]
  rfl

/-- However many packages the table has, one is opened. -/
theorem billAt_package (hk : env.data.itemRepository k = some item) (h4 : item.n32Type = 4)
    (lv v : ℤ) : billAt env lv 2 [(k, v)] = billAt env lv 2 [(k, 1)] := by
  unfold billAt
  rw [pairs_single, pairs_single]
  unfold billGathered
  simp only [hk, h4]
  rfl

theorem lists_opening (k : ℤ) : Lists (.opening k) (tell [(.opening k, 1)] : Billed Unit) :=
  fun i r hr => by
    obtain rfl := Option.some.inj hr
    simp [total]

theorem Lists.bind {α β : Type} {d : Billed α} {f : α → Billed β} (hd : Lists good d)
    (hf : ∀ x, Positive (f x)) : Lists good (d >>= f) := fun i r h => by
  obtain ⟨r₁, h₁, h⟩ := Option.bind_eq_some_iff.mp h
  obtain ⟨r₂, h₂, h⟩ := Option.bind_eq_some_iff.mp h
  obtain rfl := Option.some.inj h
  have hfirst := hd i r₁ h₁
  have hrest := total_nonneg good (hf r₁.1.1 r₁.2 r₂ h₂)
  change 1 ≤ total (r₁.1.2 ++ r₂.1.2) good
  rw [total_append]
  omega

theorem Positive.lists_bind {α β : Type} {d : Billed α} {f : α → Billed β} (hd : Positive d)
    (hf : ∀ x, Lists good (f x)) : Lists good (d >>= f) := fun i r h => by
  obtain ⟨r₁, h₁, h⟩ := Option.bind_eq_some_iff.mp h
  obtain ⟨r₂, h₂, h⟩ := Option.bind_eq_some_iff.mp h
  obtain rfl := Option.some.inj h
  have hfirst := total_nonneg good (hd i r₁ h₁)
  have hrest := hf r₁.1.1 r₁.2 r₂ h₂
  change 1 ≤ total (r₁.1.2 ++ r₂.1.2) good
  rw [total_append]
  omega

theorem lists_billAt (hk : env.data.itemRepository k = some item) (h4 : item.n32Type = 4)
    (lv v : ℤ) : Lists (.opening k) (billAt env lv 2 [(k, v)]) := by
  unfold billAt
  rw [pairs_single]
  unfold billGathered
  simp only [hk, h4]
  refine Lists.bind ?_ fun r => ?_
  · exact (positive_lift _).lists_bind fun rets => (lists_opening k).bind fun _ =>
      (positive_billAt lv 1 rets).bind fun _ => positive_pure _
  · cases r with
    | none => exact positive_pure ()
    | some g => exact positive_tell (positive_billHandedOut g)

theorem lists_openedBill (hk : isPackage env k) (lv : ℤ) :
    Lists (.opening k) (openedBill env k lv) := by
  unfold openedBill
  rw [if_pos hk]
  exact (positive_lift _).lists_bind fun items => (lists_opening k).bind fun _ =>
    positive_billAt lv 2 items

theorem billAt_nil (lv : ℤ) (i : ℕ) : (billAt env lv 2 []).run i = some (((), []), i) := by
  unfold billAt
  rw [pairs_nil]
  change some (((), [] ++ billHandedOut env {}), i) = _
  simp [billHandedOut, pairs_nil]

/-- What is not a package is opened to nothing. -/
theorem openedBill_of_not (hk : env.data.itemRepository k = some item) (h4 : item.n32Type ≠ 4)
    (lv : ℤ) (i : ℕ) : (openedBill env k lv).run i = some (((), []), i) := by
  have hno : ¬ isPackage env k := mt (isPackage_iff hk).mp h4
  have huse : usePackageItem env k lv = pure [] := by
    unfold usePackageItem
    rw [hk]
    exact if_pos h4
  unfold openedBill
  rw [if_neg hno, huse]
  change (((billAt env lv 2 []).run i).bind _).bind _ = _
  rw [billAt_nil]
  rfl

/-! ## What `deliver` hands out -/

theorem bills_opened (k : ℤ) :
    Bills env (do
      let items ← draw (usePackageItem env k (← get).level)
      addItems env items) fun lv => openedBill env k lv := by
  have htell : Bills env (pure ()) fun _ => tell
      (if isPackage env k then [(.opening k, 1)] else []) := by
    split
    · exact bills_opening k
    · exact fun _ => rfl
  exact (bills_draw (f := usePackageItem env k)).bind fun items => htell.bind fun _ =>
    bills_addItemsAt 2 items

theorem bills_handsOut (h2 : shopDat.n32Type ≠ 2) :
    Bills env (handsOut env shopDat num) fun lv => deliverBill env shopDat num lv := by
  unfold handsOut deliverBill
  simp only [if_neg h2]
  split_ifs
  · exact bills_opened shopDat.n32GoodsID
  · exact bills_addItemsAt 2 _
  · exact bills_pure ()

theorem sameAssets_buyBoxTimes (u : User) (activitys : Activitys) (time : ℤ) :
    SameAssets u { u with activitys, account := u.account.addBuyBoxTimes env time } := by
  unfold Account.addBuyBoxTimes Account.refreshTimes
  split_ifs <;> exact ⟨rfl, rfl, rfl, rfl⟩

/-- Apart from the gold of type 2 `deliver` hands out what `handsOut` does and keeps books. -/
theorem handsOut_of_deliver {atype : ℤ} {ids : List ℤ} {u u' : User} (h2 : shopDat.n32Type ≠ 2)
    (h : deliver env shopDat atype num u = some (ids, u')) :
    ∃ v, handsOut env shopDat num u = some ((), v) ∧ SameAssets v u' := by
  unfold deliver at h
  unfold handsOut
  rw [if_neg h2] at h
  by_cases h3 : shopDat.n32Type = 3
  · rw [if_pos h3] at h
    rw [if_pos (Or.inl h3)]
    obtain ⟨r₁, h₁, h⟩ := Option.bind_eq_some_iff.mp h
    obtain ⟨r₂, h₂, h⟩ := Option.bind_eq_some_iff.mp h
    obtain ⟨-, rfl⟩ := Prod.mk.inj (Option.some.inj h)
    exact ⟨r₂.2, Option.bind_eq_some_iff.mpr ⟨r₁, h₁, h₂⟩, sameAssets_buyBoxTimes r₂.2 _ _⟩
  · rw [if_neg h3] at h
    by_cases h4 : shopDat.n32Type = 4
    · rw [if_pos h4] at h
      rw [if_neg (by omega), if_pos h4]
      obtain ⟨r, hr, h⟩ := Option.bind_eq_some_iff.mp h
      obtain ⟨-, rfl⟩ := Prod.mk.inj (Option.some.inj h)
      exact ⟨r.2, hr, rfl, rfl, rfl, rfl⟩
    · rw [if_neg h4] at h
      by_cases h5 : shopDat.n32Type = 5
      · rw [if_pos h5] at h
        rw [if_pos (Or.inr h5)]
        obtain ⟨r₁, h₁, h⟩ := Option.bind_eq_some_iff.mp h
        obtain ⟨r₂, h₂, h⟩ := Option.bind_eq_some_iff.mp h
        obtain ⟨-, rfl⟩ := Prod.mk.inj (Option.some.inj h)
        exact ⟨r₂.2, Option.bind_eq_some_iff.mpr ⟨r₁, h₁, h₂⟩, rfl, rfl, rfl, rfl⟩
      · rw [if_neg h5] at h
        rw [if_neg (by omega), if_neg h4]
        obtain ⟨-, rfl⟩ := Prod.mk.inj (Option.some.inj h)
        exact ⟨u, rfl, rfl, rfl, rfl, rfl⟩

theorem deliver_billed {atype : ℤ} {ids : List ℤ} {u u' : User}
    (h : deliver env shopDat atype num u = some (ids, u')) :
    ∃ bill drawn credited, (deliverBill env shopDat num u.level).run u.drawn =
        some (((), bill), drawn) ∧
      credit env bill { u with drawn } = some ((), credited) ∧ SameAssets credited u' := by
  by_cases h2 : shopDat.n32Type = 2
  · refine ⟨[(.gold, wrap (shopDat.n32Count * num))], u.drawn, u', ?_, ?_, rfl, rfl, rfl, rfl⟩
    · unfold deliverBill
      rw [if_pos h2]
      rfl
    · unfold deliver at h
      rw [if_pos h2] at h
      obtain ⟨-, rfl⟩ := Prod.mk.inj (Option.some.inj h)
      rfl
  · obtain ⟨v, hv, hsame⟩ := handsOut_of_deliver h2 h
    obtain ⟨bill, drawn, hrun, hcredit⟩ := (bills_handsOut h2).run hv
    exact ⟨bill, drawn, v, hrun, hcredit, hsame⟩

/-- A reply that all is well comes from `deliver`. -/
theorem deliver_of_buyShopItem {id : ℤ} {out : Outcome}
    (hid : env.data.shopRepository id = some shopDat) (h : buyShopItem env user id num = some out)
    (hok : out.reply.errorCode = 0) :
    ∃ atype, deliver env shopDat atype num out.paid = some (out.reply.ids, out.user) := by
  cases hc : counter env user shopDat with
  | none =>
    simp only [buyShopItem, hid, hc, Option.bind_eq_bind, Option.bind_some, Option.bind_none] at h
    cases h
  | some c =>
    obtain ⟨atype, hasBuy⟩ := c
    rw [buyShopItem_eq num hid hc] at h
    cases hchk : checks env user shopDat hasBuy (costPrice shopDat hasBuy num) num with
    | some code =>
      rw [hchk] at h
      obtain rfl := Option.some.inj h
      exact absurd hok (checks_ne_zero hchk)
    | none =>
      rw [hchk] at h
      dsimp only at h
      split at h
      · obtain rfl := Option.some.inj h
        exact absurd hok (by simp)
      · obtain ⟨r, hr, rfl⟩ := Option.map_eq_some_iff.mp h
        exact ⟨atype, hr⟩

/-! ## The theorem -/

theorem total_single (good good' : Good) (v : ℤ) :
    total [(good, v)] good' = if good = good' then v else 0 := by
  rw [total_cons, total_nil, add_zero]

theorem total_copies (hgood : goodOf item = some good) (v : ℤ) (good' : Good) :
    total (copies item v) good' = if good = good' then (v.toNat : ℤ) else 0 := by
  unfold copies
  by_cases hpos : 0 < v
  · rw [if_pos hpos, hgood, Int.toNat_of_nonneg hpos.le]
    exact total_single good good' v
  · rw [if_neg hpos, Int.toNat_of_nonpos (not_lt.mp hpos), total_nil]
    simp

theorem bill_eq {bill' : Bill} {d : Billed Unit} (h : d.run i = some (((), bill'), i))
    (hrun : d.run i = some (((), bill), j)) : bill' = bill := by
  rw [h] at hrun
  exact congrArg (fun r => r.1.2) (Option.some.inj hrun)

theorem openings_iff (k lv : ℤ) (n : ℕ) (hrun : (openedBill env k lv).run i = some
    (((), bill), j)) :
    (∃ all j', (times n (openedBill env k lv)).run i = some (((), all), j') ∧
        total all = total bill) ↔ n = 1 ∨ ¬ isPackage env k := by
  by_cases hk : isPackage env k
  · rw [times_iff hrun (lists_openedBill hk lv)]
    exact ⟨Or.inl, fun h => h.resolve_right (not_not_intro hk)⟩
  · cases hitem : env.data.itemRepository k with
    | none =>
      -- opening an unknown item is an error
      unfold openedBill usePackageItem at hrun
      rw [hitem] at hrun
      cases hrun
    | some item =>
      have hopened := openedBill_of_not hitem (mt (isPackage_iff hitem).mpr hk) lv
      obtain rfl := bill_eq (hopened i) hrun
      obtain ⟨all, hall, htotal⟩ := times_const (n := n) (i := i) hopened
      refine iff_of_true ⟨all, i, hall, funext fun good => ?_⟩ (Or.inr hk)
      rw [htotal, total_nil, mul_zero]

/-- Copies of an item that is not a package, against the same number of single copies. -/
theorem total_copies_iff (item : ItemRow) (all : Bill) (v : ℤ) (n : ℕ)
    (hall : ∀ good, total all good = n * total (copies item 1) good) :
    total all = total (copies item v) ↔ goodOf item = none ∨ v.toNat = n := by
  cases hgood : goodOf item with
  | none =>
    refine iff_of_true (funext fun good => ?_) (Or.inl rfl)
    rw [hall]
    simp [copies, hgood, total_nil]
  | some good =>
    constructor
    · intro h
      have hat := congrFun h good
      rw [hall, total_copies hgood, total_copies hgood, if_pos rfl, if_pos rfl] at hat
      have hone : (n : ℤ) * ((1 : ℤ).toNat : ℤ) = n := by simp
      rw [hone] at hat
      exact Or.inr (by omega)
    · rintro (h | h)
      · cases h
      · funext good'
        rw [hall, total_copies hgood, total_copies hgood, h]
        split <;> simp

/-- A table of one good against its single copies. -/
theorem copies_iff (k lv : ℤ) {amount : ℤ}
    (hrun : (billAt env lv 2 [(k, wrap amount)]).run i = some (((), bill), j)) :
    (∃ all j', (times amount.toNat (billAt env lv 2 [(k, 1)])).run i = some (((), all), j') ∧
        total all = total bill) ↔
      if isPackage env k then amount = 1
      else (env.data.itemRepository k).bind goodOf = none ∨
        (wrap amount).toNat = amount.toNat := by
  cases hitem : env.data.itemRepository k with
  | none =>
    have hno : ¬ isPackage env k := by simp [isPackage, hitem]
    obtain rfl := bill_eq (billAt_unknown hitem lv _ i) hrun
    obtain ⟨all, hall, htotal⟩ :=
      times_const (n := amount.toNat) (i := i) (billAt_unknown hitem lv 1)
    rw [if_neg hno]
    refine iff_of_true ⟨all, i, hall, funext fun good => ?_⟩ (Or.inl rfl)
    rw [htotal, total_nil, mul_zero]
  | some item =>
    by_cases hpkg : item.n32Type = 4
    · rw [if_pos ((isPackage_iff hitem).mpr hpkg)]
      rw [billAt_package hitem hpkg] at hrun
      rw [times_iff hrun (lists_billAt hitem hpkg lv 1)]
      omega
    · rw [if_neg (mt (isPackage_iff hitem).mp hpkg), Option.bind_some]
      obtain rfl := bill_eq (billAt_copies hpkg hitem lv (wrap_wrap amount) i) hrun
      obtain ⟨all, hall, htotal⟩ := times_const (n := amount.toNat) (i := i)
        (billAt_copies hpkg hitem lv (v := 1) rfl)
      rw [← total_copies_iff item all (wrap amount) amount.toNat htotal]
      constructor
      · rintro ⟨all', j', hall', htotal'⟩
        rwa [bill_eq hall hall']
      · exact fun h => ⟨all, i, hall, h⟩

/-- The bill of a purchase against the units bought. -/
theorem units_iff {lv : ℤ} (hnum : 1 ≤ num)
    (hrun : (deliverBill env shopDat num lv).run i = some (((), bill), j)) :
    (∃ all j', (unitsBill env shopDat num lv).run i = some (((), all), j') ∧
        total all = total bill) ↔ Multiplies env shopDat num := by
  unfold deliverBill at hrun
  unfold unitsBill Multiplies
  dsimp only at hrun ⊢
  by_cases h2 : shopDat.n32Type = 2
  · rw [if_pos h2] at hrun
    simp only [if_pos h2]
    obtain rfl : [(.gold, wrap (shopDat.n32Count * num))] = bill := bill_eq rfl hrun
    constructor
    · rintro ⟨all, j', hall, htotal⟩
      obtain rfl : [(.gold, shopDat.n32Count * num)] = all := bill_eq rfl hall
      have hgold := congrFun htotal .gold
      rw [total_single, total_single, if_pos rfl, if_pos rfl] at hgold
      exact hgold.symm
    · intro hwrap
      exact ⟨_, i, rfl, by rw [hwrap]⟩
  rw [if_neg h2] at hrun
  simp only [if_neg h2]
  by_cases h35 : shopDat.n32Type = 3 ∨ shopDat.n32Type = 5
  · rw [if_pos h35] at hrun
    simp only [if_pos h35]
    have hone : num.toNat = 1 ↔ num = 1 := by omega
    rw [openings_iff _ lv _ hrun, hone]
  rw [if_neg h35] at hrun
  simp only [if_neg h35]
  by_cases h4 : shopDat.n32Type = 4
  · rw [if_pos h4] at hrun
    simp only [if_pos h4]
    exact copies_iff shopDat.n32GoodsID lv hrun
  · rw [if_neg h4] at hrun
    simp only [if_neg h4]
    obtain rfl : [] = bill := bill_eq rfl hrun
    exact iff_of_true ⟨[], i, rfl, rfl⟩ trivial

/-- A purchase grants its number of units exactly under `Multiplies`, and `addItems` the openings of
a table of packages exactly for one package. -/
theorem buyShopItem_units_iff (env : Env) (user : User) :
    (∀ shopDat id num out, env.data.shopRepository id = some shopDat → 1 ≤ num →
        buyShopItem env user id num = some out → out.reply.errorCode = 0 →
        (GrantsUnits env (deliverBill env shopDat num) (unitsBill env shopDat num) out.paid
          out.user ↔ Multiplies env shopDat num)) ∧
      ∀ package item v user', env.data.itemRepository package = some item → item.n32Type = 4 →
        1 ≤ v → addItems env [(package, v)] user = some ((), user') →
        (GrantsUnits env (fun lv => billAt env lv 2 [(package, v)])
            (fun lv => times v.toNat (billAt env lv 2 [(package, 1)])) user user' ↔ v = 1) := by
  constructor
  · intro shopDat id num out hid hnum hrun hok
    obtain ⟨atype, hdeliver⟩ := deliver_of_buyShopItem hid hrun hok
    obtain ⟨bill, drawn, credited, hbill, hcredit, hsame⟩ := deliver_billed hdeliver
    rw [← units_iff hnum hbill]
    constructor
    · rintro ⟨bill', drawn', credited', hbill', -, -, hunits⟩
      rw [hbill] at hbill'
      obtain rfl : bill = bill' := congrArg (fun r => r.1.2) (Option.some.inj hbill')
      exact hunits
    · exact fun hunits => ⟨bill, drawn, credited, hbill, hcredit, hsame, hunits⟩
  · intro package item v user' hitem h4 hv hadd
    obtain ⟨bill, drawn, hbill, hcredit⟩ := (bills_addItemsAt 2 [(package, v)]).run hadd
    have hone : v.toNat = 1 ↔ v = 1 := by omega
    have hcopy := hbill
    rw [billAt_package hitem h4] at hcopy
    rw [← hone, ← times_iff hcopy (lists_billAt hitem h4 user.level 1)]
    constructor
    · rintro ⟨bill', drawn', credited', hbill', -, -, hunits⟩
      rw [hbill] at hbill'
      obtain rfl : bill = bill' := congrArg (fun r => r.1.2) (Option.some.inj hbill')
      exact hunits
    · exact fun hunits => ⟨bill, drawn, user', hbill, hcredit, ⟨rfl, rfl, rfl, rfl⟩, hunits⟩

/-! ## Two chests -/

/-- A chest for diamonds; each opening gives a hundred gold. -/
def chest : ShopRow where
  n32Type := 3
  n32Site := 0
  n32Count := 1
  n32Price := 10
  n32MoneyType := 2
  n32Limit := 0
  n32GoodsID := 7

/-- A shop with the chest, which is item 7. -/
def treasury : Env := { shelf chest with
  data := { (shelf chest).data with
    itemRepository := fun k =>
      if k = 7 then some { n32Type := 4, n32Retain1 := 0, szRetain3 := [(1, 1)] }
      else if k = 5 then some { n32Type := 5, n32Retain1 := 0, szRetain3 := [] }
      else none
    dropPackage := fun _ => some {
      rows := [{ n32DropId := 1, n32Rate := 1, n32MinNum := 1, n32MaxNum := 1 }]
      totalRate := 1 }
    itemDropPackage := fun _ => some [{
      n32ItemId := 5, n32Rate := 1, n32MinNum := 100, n32MaxNum := 100
      n32ArenaLvUpLimit := 1, n32ArenaLvLwLimit := 9 }] } }

/-- One chest is worth its opening, and so is a table of one chest. -/
theorem buyShopItem_units_chest :
    ∃ out, buyShopItem treasury customer 30001 1 = some out ∧ out.reply.errorCode = 0 ∧
      GrantsUnits treasury (deliverBill treasury chest 1) (unitsBill treasury chest 1) out.paid
        out.user ∧
      ∃ user', addItems treasury [(7, 1)] customer = some ((), user') ∧
        GrantsUnits treasury (fun lv => billAt treasury lv 2 [(7, 1)])
          (fun lv => times (1 : ℤ).toNat (billAt treasury lv 2 [(7, 1)])) customer user' := by
  refine ⟨_, rfl, rfl, ?_, _, rfl, ?_⟩
  · exact ((buyShopItem_units_iff treasury customer).1 chest 30001 1 _ rfl (by decide) rfl rfl).mpr
      (Or.inl rfl)
  · exact ((buyShopItem_units_iff treasury customer).2 7 _ 1 _ rfl rfl (by decide) rfl).mpr rfl

/-- Two chests are paid for and one is opened. -/
theorem buyShopItem_two_chests :
    (∃ out, buyShopItem treasury customer 30001 2 = some out ∧ out.reply.errorCode = 0 ∧
      (out.paid.account.money : ℤ) = customer.account.money - 2 * chest.n32Price ∧
      (out.user.account.gold : ℤ) = customer.account.gold + 100) ∧
      ¬ ∀ (env : Env) (user : User) (shopDat : ShopRow) (id num : ℤ) (out : Outcome),
        env.data.shopRepository id = some shopDat → 1 ≤ num →
          buyShopItem env user id num = some out → out.reply.errorCode = 0 →
          GrantsUnits env (deliverBill env shopDat num) (unitsBill env shopDat num) out.paid
            out.user := by
  have hone : (deliverBill treasury chest 2 1).run 0 =
      some (((), [(.opening 7, 1), (.gold, 100)]), 4) := by decide
  have htwo : (unitsBill treasury chest 2 1).run 0 =
      some (((), [(.opening 7, 1), (.gold, 100), (.opening 7, 1), (.gold, 100)]), 8) := by decide
  refine ⟨⟨_, rfl, rfl, rfl, rfl⟩, fun hall => ?_⟩
  obtain ⟨bill, drawn, credited, hbill, -, -, all, drawn', hall, htotal⟩ :=
    hall treasury customer chest 30001 2 _ rfl (by decide) rfl rfl
  have hbill : _ = bill := congrArg (fun r => r.1.2) (Option.some.inj (hone.symm.trans hbill))
  have hall : _ = all := congrArg (fun r => r.1.2) (Option.some.inj (htwo.symm.trans hall))
  rw [← hbill, ← hall] at htotal
  exact absurd (congrFun htotal .gold) (by decide)

end GameServer.Shop
