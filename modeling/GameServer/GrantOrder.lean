import Mathlib.Data.List.TakeWhile
import GameServer.Bill
import GameServer.IntTables

/-!
# The orders of a grant

`addItems` visits three tables with `pairs`: the items, and the cards and the skills gathered from
them; so does the call for a package among the items. Each visit may go in any order. What a package
contains is a parameter: the drawn table gives the call of the agent, and a table for each package
item gives the bill of the whole grant.
-/

namespace GameServer.GrantOrder

open Goods Agent

/-! ## `CMD.addItems` in given orders -/

/-- The loops over `pairs`. -/
inductive Walk
  | items
  | cards
  | skillMats

/-- The order of each loop: of the call itself, and of the call for the package `some k`. -/
structure Orders where
  pairs : Option ℤ → Walk → IntTable → IntTable
  perm : ∀ call walk t, (pairs call walk t).Perm t

variable (env : Env) (o : Orders)

section Calls

variable (contents : ℤ → Act IntTable)

/-- The loop over the items, as in `gather`. -/
def gatherWith (again : ℤ → IntTable → Act Unit) :
    IntTable → Gathered → Act (Option Gathered)
  | [], g => return some g
  | (k, v) :: rest, g => do
      match env.data.itemRepository k with
      | none => return none
      | some item =>
          if item.n32Type = 3 then
            gatherWith again rest { g with cards := g.cards.add item.n32Retain1 v }
          else if item.n32Type = 4 then
            let rets ← contents k
            again k rets
            gatherWith again rest { g with rets }
          else if item.n32Type = 5 then
            gatherWith again rest { g with gold := wrap (g.gold + v) }
          else if item.n32Type = 6 then
            gatherWith again rest { g with money := wrap (g.money + v) }
          else if item.n32Type = 7 then
            gatherWith again rest { g with skillMats := g.skillMats.add item.n32Retain1 v }
          else gatherWith again rest g

/-- What was gathered is handed out, as in `handOut`. -/
def handOutWith (call : Option ℤ) (g : Gathered) : Act Unit := do
  if g.gold > 0 then modify fun user => { user with account := user.account.addGold g.gold }
  if g.money > 0 then modify fun user => { user with account := user.account.addMoney g.money }
  (o.pairs call .cards g.cards).forM fun (k, v) => addCard env k v
  (o.pairs call .skillMats g.skillMats).forM fun (k, v) => addSkill env k v

/-- As in `addItemsAt`. -/
def addItemsWith : ℕ → Option ℤ → IntTable → Act Unit
  | 0, _, _ => return
  | levels + 1, call, items => do
      match ← gatherWith env contents (fun k => addItemsWith levels (some k))
          (o.pairs call .items items) {} with
      | none => return
      | some g => handOutWith env o call g

end Calls

/-- The orders of an environment. -/
def Orders.of (env : Env) : Orders where
  pairs _ _ := env.pairs
  perm _ _ := env.pairs_perm

/-- What a package contains is drawn. -/
def drawn (k : ℤ) : Act IntTable := do draw (usePackageItem env k (← get).level)

theorem gatherWith_drawn {again : ℤ → IntTable → Act Unit} {again' : IntTable → Act Unit}
    (h : ∀ k t, again k t = again' t) (items : IntTable) (g : Gathered) :
    gatherWith env (drawn env) again items g = gather env again' items g := by
  induction items generalizing g with
  | nil => rfl
  | cons e items ih =>
      obtain ⟨k, v⟩ := e
      unfold gatherWith gather
      cases env.data.itemRepository k with
      | none => rfl
      | some item =>
          simp only [ih, h]
          rfl

/-- With the orders of the environment and drawn contents the call is the agent's. -/
theorem addItemsWith_drawn (levels : ℕ) (call : Option ℤ) (items : IntTable) :
    addItemsWith env (.of env) (drawn env) levels call items = addItemsAt env levels items := by
  induction levels generalizing call items with
  | zero => rfl
  | succ levels ih =>
      have hgather := gatherWith_drawn env (fun k t => ih (some k) t) (env.pairs items) {}
      unfold addItemsWith addItemsAt
      exact congrArg (fun a : Act (Option Gathered) => a >>= _) hgather

/-- The grant of a table of items, where the package item `k` contains `opened k`. -/
def grantItems (opened : ℤ → IntTable) (items : IntTable) : Act Unit :=
  addItemsWith env o (fun k => return opened k) 2 none items

/-! ## What a table gives -/

/-- What an item is; a package is nothing by itself. -/
def goodOf (k : ℤ) : Option Good :=
  match env.data.itemRepository k with
  | none => none
  | some item =>
      if item.n32Type = 3 then some (.card item.n32Retain1)
      else if item.n32Type = 4 then none
      else if item.n32Type = 5 then some .gold
      else if item.n32Type = 6 then some .money
      else if item.n32Type = 7 then some (.skill item.n32Retain1)
      else none

def isPackage (k : ℤ) : Bool := (env.data.itemRepository k).any fun item => item.n32Type = 4

/-- Every item has its row. -/
def Known (t : IntTable) : Prop := ∀ e ∈ t, (env.data.itemRepository e.1).isSome = true

instance (t : IntTable) : Decidable (Known env t) :=
  inferInstanceAs (Decidable (∀ e ∈ t, (env.data.itemRepository e.1).isSome = true))

/-- The items up to the first one without a row. -/
def visited (t : IntTable) : IntTable := t.takeWhile fun e => (env.data.itemRepository e.1).isSome

def packages (t : IntTable) : List ℤ := (t.map Prod.fst).filter (isPackage env)

/-- The number of a good in a table. -/
def number (t : IntTable) (good : Good) : ℤ :=
  wrap (t.map fun e => if goodOf env e.1 = some good then e.2 else 0).sum

variable (opened : ℤ → IntTable)

/-- One round of the loop over the items. -/
def take (g : Gathered) (e : ℤ × ℤ) : Gathered :=
  match goodOf env e.1 with
  | some .gold => { g with gold := wrap (g.gold + e.2) }
  | some .money => { g with money := wrap (g.money + e.2) }
  | some (.card dataId) => { g with cards := g.cards.add dataId e.2 }
  | some (.skill dataId) => { g with skillMats := g.skillMats.add dataId e.2 }
  | _ => if isPackage env e.1 then { g with rets := opened e.1 } else g

def gathered (t : IntTable) : Gathered := t.foldl (take env opened) {}

/-- The entries that are granted. -/
def entries (t : IntTable) : IntTable := t.filter fun e => 0 < e.2

/-- What is handed out for a gathered table. -/
def handed (call : Option ℤ) (g : Gathered) : Bill :=
  (if g.gold > 0 then [(.gold, g.gold)] else []) ++
    (if g.money > 0 then [(.money, g.money)] else []) ++
    (entries (o.pairs call .cards g.cards)).map (fun e => (.card e.1, e.2)) ++
    (entries (o.pairs call .skillMats g.skillMats)).map (fun e => (.skill e.1, e.2))

/-- The bill of a table, without the packages in it. -/
def tableBill (call : Option ℤ) (t : IntTable) : Bill :=
  if Known env t then handed o call (gathered env opened (o.pairs call .items t)) else []

/-- The bills of packages. -/
def packageBills (ks : List ℤ) : Bill :=
  ks.flatMap fun k => tableBill env o opened (some k) (opened k)

/-- The bill of a grant. -/
def billOf (items : IntTable) : Bill :=
  packageBills env o opened (packages env (visited env (o.pairs none .items items))) ++
    tableBill env o opened none items

/-! ## The grant credits its bill -/

section Credit

variable {env o opened} {again : ℤ → IntTable → Act Unit} {g : Gathered} {e : ℤ × ℤ}
  {t t' : IntTable}

theorem handOutWith_eq (call : Option ℤ) (g : Gathered) :
    handOutWith env o call g = credit env (handed o call g) :=
  credit_tables g.gold g.money (o.pairs call .cards g.cards) (o.pairs call .skillMats g.skillMats)

theorem Known.perm (h : Known env t) (hperm : t.Perm t') : Known env t' :=
  fun e he => h e (hperm.mem_iff.mpr he)

theorem known_perm (hperm : t.Perm t') : Known env t ↔ Known env t' :=
  ⟨fun h => h.perm hperm, fun h => h.perm hperm.symm⟩

theorem Known.visited (h : Known env t) : visited env t = t := List.takeWhile_eq_self_iff.mpr h

theorem take_eq {k v : ℤ} {item : ItemRow} (hrow : env.data.itemRepository k = some item)
    (g : Gathered) : take env opened g (k, v) =
      if item.n32Type = 3 then { g with cards := g.cards.add item.n32Retain1 v }
      else if item.n32Type = 4 then { g with rets := opened k }
      else if item.n32Type = 5 then { g with gold := wrap (g.gold + v) }
      else if item.n32Type = 6 then { g with money := wrap (g.money + v) }
      else if item.n32Type = 7 then { g with skillMats := g.skillMats.add item.n32Retain1 v }
      else g := by
  have hpackage : isPackage env k = decide (item.n32Type = 4) := by
    rw [isPackage, hrow, Option.any_some]
  unfold take goodOf
  simp only [hrow, hpackage, decide_eq_true_eq]
  split_ifs <;> rfl

theorem known_cons : Known env (e :: t) ↔
    (env.data.itemRepository e.1).isSome = true ∧ Known env t := List.forall_mem_cons

section Rounds

variable {contents : ℤ → Act IntTable} {k v : ℤ} {item : ItemRow}

theorem gatherWith_unknown (hrow : env.data.itemRepository k = none) :
    gatherWith env contents again ((k, v) :: t) g = pure none := by
  rw [gatherWith, hrow]

theorem gatherWith_package (hrow : env.data.itemRepository k = some item)
    (htype : item.n32Type = 4) : gatherWith env contents again ((k, v) :: t) g = (do
      let rets ← contents k
      again k rets
      gatherWith env contents again t { g with rets }) := by
  have hcard : ¬ item.n32Type = 3 := by omega
  rw [gatherWith, hrow]
  dsimp only
  rw [if_neg hcard, if_pos htype]

variable (opened) in
theorem gatherWith_item (hrow : env.data.itemRepository k = some item)
    (htype : ¬ item.n32Type = 4) : gatherWith env contents again ((k, v) :: t) g =
      gatherWith env contents again t (take env opened g (k, v)) := by
  rw [gatherWith, hrow, take_eq hrow]
  dsimp only
  rw [if_neg htype, if_neg htype]
  split_ifs <;> rfl

end Rounds

/-- The loop opens the packages that it reaches, and gathers the rest unless an item has no row. -/
theorem gatherWith_eq (t : IntTable) (g : Gathered) (u : User) :
    gatherWith env (fun k => return opened k) again t g u =
      ((packages env (visited env t)).forM (fun k => again k (opened k)) u).map fun r =>
        (if Known env t then some (t.foldl (take env opened) g) else none, r.2) := by
  induction t generalizing g u with
  | nil => rfl
  | cons e t ih =>
      obtain ⟨k, v⟩ := e
      cases hrow : env.data.itemRepository k with
      | none =>
          have hunknown : ¬ (env.data.itemRepository (k, v).1).isSome = true := by
            rw [hrow]
            exact Bool.false_ne_true
          have hvisited : visited env ((k, v) :: t) = [] := List.takeWhile_cons_of_neg hunknown
          rw [gatherWith_unknown hrow, hvisited, if_neg fun h => hunknown (known_cons.mp h).1]
          rfl
      | some item =>
          have hsome : (env.data.itemRepository (k, v).1).isSome = true := by
            rw [hrow, Option.isSome_some]
          have hvisited : visited env ((k, v) :: t) = (k, v) :: visited env t :=
            List.takeWhile_cons_of_pos hsome
          have hpackage : isPackage env k = decide (item.n32Type = 4) := by
            rw [isPackage, hrow, Option.any_some]
          simp only [known_cons, hsome, true_and, hvisited, packages, List.map_cons,
            List.filter_cons, hpackage, List.foldl_cons]
          by_cases htype : item.n32Type = 4
          · have htake : take env opened g (k, v) = { g with rets := opened k } := by
              rw [take_eq hrow, if_neg (by omega), if_pos htype]
            rw [gatherWith_package hrow htype, if_pos (decide_eq_true htype), htake]
            change (again k (opened k) u).bind (fun r => gatherWith env
              (fun k => return opened k) again t { g with rets := opened k } r.2) =
              ((again k (opened k) u).bind fun r => (packages env (visited env t)).forM
                (fun k => again k (opened k)) r.2).map _
            rw [Option.map_bind]
            exact congrArg _ (funext fun r => ih _ r.2)
          · rw [gatherWith_item opened hrow htype, if_neg (mt of_decide_eq_true htype)]
            exact ih _ u

/-- A call with packages below it credits the bills of the packages and its own. -/
theorem addItemsWith_eq (levels : ℕ) (call : Option ℤ) (items : IntTable) (bill : ℤ → Bill)
    (h : ∀ k, addItemsWith env o (fun k => return opened k) levels (some k) (opened k) =
      credit env (bill k)) :
    addItemsWith env o (fun k => return opened k) (levels + 1) call items =
      credit env ((packages env (visited env (o.pairs call .items items))).flatMap bill ++
        tableBill env o opened call items) := by
  have hpackages : ∀ ks : List ℤ, (ks.forM fun k =>
      addItemsWith env o (fun k => return opened k) levels (some k) (opened k)) =
        credit env (ks.flatMap bill) := by
    intro ks
    induction ks with
    | nil => rfl
    | cons k ks ih =>
        funext u
        rw [List.flatMap_cons, credit_append, ← ih, ← h]
        rfl
  funext u
  rw [credit_append, ← hpackages]
  change (gatherWith env _ _ _ {} u).bind _ = _
  rw [gatherWith_eq, Option.bind_map]
  refine congrArg _ (funext fun r => ?_)
  have hknown : Known env (o.pairs call .items items) ↔ Known env items :=
    known_perm (o.perm call .items items)
  rw [tableBill]
  by_cases h : Known env items
  · rw [if_pos h]
    simp only [Function.comp_apply, if_pos (hknown.mpr h)]
    exact congrFun (handOutWith_eq call _) r.2
  · rw [if_neg h]
    simp only [Function.comp_apply, if_neg (mt hknown.mp h)]
    rfl

theorem grantItems_eq (items : IntTable) :
    grantItems env o opened items = credit env (billOf env o opened items) := by
  refine addItemsWith_eq 1 none items _ fun k => ?_
  refine (addItemsWith_eq 0 (some k) (opened k) (fun _ => []) fun _ => rfl).trans ?_
  rw [List.flatMap_eq_nil_iff.mpr fun _ _ => rfl, List.nil_append]

end Credit

/-! ## What was drawn -/

section Drawn

/-- What is handed out of a gathered table; the other field is only returned. -/
def bare (g : Gathered) : Gathered := { g with rets := [] }

variable {env o opened} {opened' : ℤ → IntTable} {t : IntTable} {g g' : Gathered}
  {u u₁ : User} {x : Option Gathered} {call : Option ℤ}

theorem bare_take (h : bare g = bare g') (e : ℤ × ℤ) :
    bare (take env opened g e) = bare (take env opened' g' e) := by
  obtain ⟨gold, money, cards, skillMats, rets⟩ := g
  obtain ⟨gold', money', cards', skillMats', rets'⟩ := g'
  obtain ⟨rfl, rfl, rfl, rfl, -⟩ := Gathered.mk.inj h
  unfold take
  cases goodOf env e.1 with
  | none => split_ifs <;> rfl
  | some good =>
      cases good with
      | opening itemId => split_ifs <;> rfl
      | _ => rfl

theorem bare_foldl (h : bare g = bare g') :
    bare (t.foldl (take env opened) g) = bare (t.foldl (take env opened') g') := by
  induction t generalizing g g' with
  | nil => exact h
  | cons e t ih => exact ih (bare_take h e)

theorem handed_of_bare (h : bare g = bare g') : handed o call g = handed o call g' := by
  obtain ⟨gold, money, cards, skillMats, rets⟩ := g
  obtain ⟨gold', money', cards', skillMats', rets'⟩ := g'
  obtain ⟨rfl, rfl, rfl, rfl, -⟩ := Gathered.mk.inj h
  rfl

theorem drawn_eq {k : ℤ} {rets : IntTable} (h : drawn env k u = some (rets, u₁)) :
    ∃ i, u₁ = { u with drawn := i } := by
  obtain ⟨r, -, hr⟩ := Option.map_eq_some_iff.mp h
  exact ⟨r.2, (Prod.mk.inj hr).2.symm⟩

/-- The packages in a package are drawn for nothing. -/
theorem gatherWith_nested (opened : ℤ → IntTable)
    (h : gatherWith env (drawn env) (fun _ _ => pure ()) t g u = some (x, u₁)) :
    x.map bare = (if Known env t then some (bare (t.foldl (take env opened) g)) else none) ∧
      ∃ i, u₁ = { u with drawn := i } := by
  induction t generalizing g u with
  | nil =>
      obtain ⟨rfl, rfl⟩ := Prod.mk.inj (Option.some.inj h)
      exact ⟨rfl, u.drawn, rfl⟩
  | cons e t ih =>
      obtain ⟨k, v⟩ := e
      cases hrow : env.data.itemRepository k with
      | none =>
          rw [gatherWith_unknown hrow] at h
          obtain ⟨rfl, rfl⟩ := Prod.mk.inj (Option.some.inj h)
          have hunknown : ¬ Known env ((k, v) :: t) := fun h => by
            have hsome := (known_cons.mp h).1
            rw [hrow] at hsome
            cases hsome
          rw [if_neg hunknown]
          exact ⟨rfl, u.drawn, rfl⟩
      | some item =>
          have hsome : (env.data.itemRepository (k, v).1).isSome = true := by
            rw [hrow, Option.isSome_some]
          simp only [known_cons, hsome, true_and, List.foldl_cons]
          by_cases htype : item.n32Type = 4
          · rw [gatherWith_package hrow htype] at h
            obtain ⟨⟨rets, u'⟩, hdraw, h⟩ := Option.bind_eq_some_iff.mp h
            obtain ⟨i, rfl⟩ := drawn_eq hdraw
            obtain ⟨hx, j, hj⟩ := ih h
            have htake : bare (take env opened g (k, v)) = bare { g with rets } := by
              rw [take_eq hrow, if_neg (by omega), if_pos htype]
              rfl
            exact ⟨hx.trans (by rw [bare_foldl htake.symm]), j, hj⟩
          · rw [gatherWith_item opened hrow htype] at h
            exact ih h

/-- A call for a package hands out the same whatever the packages in it contain. -/
theorem addItemsWith_nested (opened : ℤ → IntTable)
    (h : addItemsWith env o (drawn env) 1 call t u = some ((), u₁)) (d : ℕ) :
    addItemsWith env o (fun k => return opened k) 1 call t (u.reset d u.level) =
      some ((), u₁.reset d u.level) ∧ u₁.level = u.level := by
  have hbill := @addItemsWith_eq env o opened 0 call t (fun _ => []) fun _ => rfl
  rw [List.flatMap_eq_nil_iff.mpr fun _ _ => rfl, List.nil_append] at hbill
  obtain ⟨⟨x, u'⟩, hgather, h⟩ := Option.bind_eq_some_iff.mp h
  obtain ⟨hx, i, rfl⟩ := gatherWith_nested opened hgather
  have hknown : Known env (o.pairs call .items t) ↔ Known env t :=
    known_perm (o.perm call .items t)
  rw [hbill, tableBill]
  by_cases hall : Known env t
  · rw [if_pos (hknown.mpr hall)] at hx
    obtain ⟨g, rfl, hg⟩ := Option.map_eq_some_iff.mp hx
    change handOutWith env o call g { u with drawn := i } = some ((), u₁) at h
    rw [handOutWith_eq, handed_of_bare hg] at h
    have hapart := @apart_credit env (handed o call (gathered env opened (o.pairs call .items t)))
    rw [if_pos hall]
    exact ⟨(hapart { u with drawn := i } d u.level).trans (congrArg (Option.map _) h),
      (hapart.level h).2⟩
  · rw [if_neg (mt hknown.mp hall), Option.map_eq_none_iff] at hx
    subst hx
    obtain ⟨-, rfl⟩ := Prod.mk.inj (Option.some.inj h)
    rw [if_neg hall]
    exact ⟨rfl, rfl⟩

/-- Every package is opened once, so what was drawn is a table for each of them. -/
theorem gatherWith_opened (ht : t.keys.Nodup) (h : gatherWith env (drawn env)
      (fun k => addItemsWith env o (drawn env) 1 (some k)) t g u = some (x, u₁)) :
    u₁.level = u.level ∧ ∃ opened : ℤ → IntTable, ∀ opened' : ℤ → IntTable,
      (∀ k ∈ t.keys, opened' k = opened k) → ∀ d, gatherWith env (fun k => return opened' k)
        (fun k => addItemsWith env o (fun k => return opened' k) 1 (some k)) t g
        (u.reset d u.level) = some (x, u₁.reset d u.level) := by
  induction t generalizing g u with
  | nil =>
      obtain ⟨rfl, rfl⟩ := Prod.mk.inj (Option.some.inj h)
      exact ⟨rfl, fun _ => [], fun _ _ _ => rfl⟩
  | cons e t ih =>
      obtain ⟨k, v⟩ := e
      obtain ⟨hk, ht⟩ := List.nodup_cons.mp ht
      cases hrow : env.data.itemRepository k with
      | none =>
          rw [gatherWith_unknown hrow] at h
          obtain ⟨rfl, rfl⟩ := Prod.mk.inj (Option.some.inj h)
          refine ⟨rfl, fun _ => [], fun _ _ _ => ?_⟩
          rw [gatherWith_unknown hrow]
          rfl
      | some item =>
          by_cases htype : item.n32Type = 4
          · rw [gatherWith_package hrow htype] at h
            obtain ⟨⟨rets, u'⟩, hdraw, h⟩ := Option.bind_eq_some_iff.mp h
            obtain ⟨i, rfl⟩ := drawn_eq hdraw
            obtain ⟨⟨⟨⟩, u₂⟩, hagain, h⟩ := Option.bind_eq_some_iff.mp h
            have hlevel := (addItemsWith_nested (fun _ => []) hagain 0).2
            obtain ⟨hlevel', opened, hopened⟩ := ih ht h
            refine ⟨hlevel'.trans hlevel, Function.update opened k rets, fun opened' hagree d => ?_⟩
            have hrets : opened' k = rets :=
              (hagree k List.mem_cons_self).trans (Function.update_self k rets opened)
            have hrest : ∀ k' ∈ IntTable.keys t, opened' k' = opened k' := by
              intro k' hk'
              have hne : k' ≠ k := by
                rintro rfl
                exact hk hk'
              exact (hagree k' (List.mem_cons_of_mem _ hk')).trans
                (Function.update_of_ne hne rets opened)
            have hfirst := (addItemsWith_nested opened' hagain d).1
            have hlater := hopened opened' hrest d
            rw [hlevel] at hlater
            rw [gatherWith_package hrow htype]
            change (addItemsWith env o (fun k => return opened' k) 1 (some k) (opened' k)
              ({ u with drawn := i }.reset d u.level)).bind _ = _
            rw [hrets, hfirst]
            exact hlater
          · rw [gatherWith_item (fun _ => []) hrow htype] at h
            obtain ⟨hlevel, opened, hopened⟩ := ih ht h
            refine ⟨hlevel, opened, fun opened' hagree d => ?_⟩
            rw [gatherWith_item (fun _ => []) hrow htype]
            exact hopened opened' (fun k' hk' => hagree k' (List.mem_cons_of_mem _ hk')) d

/-- A grant of the agent is a grant of its items with what was drawn for the packages. -/
theorem grantItems_of_addItems {items : IntTable} (hitems : items.keys.Nodup)
    (h : addItems env items u = some ((), u₁)) : ∃ opened : ℤ → IntTable,
      grantItems env (.of env) opened items u = some ((), { u₁ with drawn := u.drawn }) := by
  have hrun : addItemsWith env (.of env) (drawn env) 2 none items u = some ((), u₁) :=
    (congrFun (addItemsWith_drawn env 2 none items) u).trans h
  obtain ⟨⟨x, u'⟩, hgather, hrest⟩ := Option.bind_eq_some_iff.mp hrun
  have hnodup : (env.pairs items).keys.Nodup :=
    ((env.pairs_perm items).map Prod.fst).nodup_iff.mpr hitems
  obtain ⟨hlevel, opened, hopened⟩ := gatherWith_opened hnodup hgather
  have hsame := hopened opened (fun _ _ => rfl) u.drawn
  refine ⟨opened, ?_⟩
  change (gatherWith env _ _ (env.pairs items) {} u).bind _ = _
  change gatherWith env _ _ (env.pairs items) {} u = _ at hsame
  rw [hsame]
  cases x with
  | none =>
      obtain ⟨-, rfl⟩ := Prod.mk.inj (Option.some.inj hrest)
      change some ((), u'.reset u.drawn u.level) = _
      rw [← hlevel]
      rfl
  | some g =>
      change handOutWith env (.of env) none g u' = some ((), u₁) at hrest
      change handOutWith env (.of env) none g (u'.reset u.drawn u.level) = _
      rw [handOutWith_eq] at hrest ⊢
      have hapart := @apart_credit env (handed (.of env) none g)
      have hkeep := (hapart.level hrest).2
      rw [hapart u' u.drawn u.level, hrest, ← hlevel, ← hkeep]
      rfl

end Drawn

end GameServer.GrantOrder
