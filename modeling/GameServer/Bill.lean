import Mathlib.Control.Monad.Writer
import GameServer.Agent

/-!
# The bill of what is handed out

`addItems` opens packages and credits goods as it goes. A bill lists both; it is drawn first and
credited as a whole, with the same result.
-/

namespace GameServer.Agent

open Goods

/-- What is handed out, and a package that is opened. -/
inductive Good
  | gold
  | money
  | card (dataId : ℤ)
  | skill (dataId : ℤ)
  | opening (itemId : ℤ)
  deriving DecidableEq

/-- The amounts in the order in which they are handed out. -/
abbrev Bill := List (Good × ℤ)

def total (bill : Bill) (good : Good) : ℤ :=
  (bill.map fun e => if e.1 = good then e.2 else 0).sum

/-- A computation that draws random numbers and writes a bill. -/
abbrev Billed := WriterT Bill Draw

variable (env : Env)

section bill

variable (lv : ℤ)

/-- The loop over the items, as in `gather`. -/
def billGathered (again : IntTable → Billed Unit) : IntTable → Gathered → Billed (Option Gathered)
  | [], g => return some g
  | (k, v) :: rest, g => do
      match env.data.itemRepository k with
      | none => return none
      | some item =>
          if item.n32Type = 3 then
            billGathered again rest { g with cards := g.cards.add item.n32Retain1 v }
          else if item.n32Type = 4 then
            let rets ← usePackageItem env k lv
            tell [(.opening k, 1)]
            again rets
            billGathered again rest { g with rets }
          else if item.n32Type = 5 then
            billGathered again rest { g with gold := wrap (g.gold + v) }
          else if item.n32Type = 6 then
            billGathered again rest { g with money := wrap (g.money + v) }
          else if item.n32Type = 7 then
            billGathered again rest { g with skillMats := g.skillMats.add item.n32Retain1 v }
          else billGathered again rest g

/-- What was gathered, as in `handOut`. -/
def billHandedOut (g : Gathered) : Bill :=
  (if g.gold > 0 then [(.gold, g.gold)] else []) ++
    (if g.money > 0 then [(.money, g.money)] else []) ++
    ((env.pairs g.cards).filter fun e => 0 < e.2).map (fun e => (.card e.1, e.2)) ++
    ((env.pairs g.skillMats).filter fun e => 0 < e.2).map (fun e => (.skill e.1, e.2))

/-- The bill of `addItems`, as in `addItemsAt`. -/
def billAt : ℕ → IntTable → Billed Unit
  | 0, _ => return
  | levels + 1, items => do
      match ← billGathered env lv (billAt levels) (env.pairs items) {} with
      | none => return
      | some g => tell (billHandedOut env g)

end bill

/-! ## Crediting a bill -/

def creditGood : Good × ℤ → Act Unit
  | (.gold, n) => modify fun user => { user with account := user.account.addGold n }
  | (.money, n) => modify fun user => { user with account := user.account.addMoney n }
  | (.card dataId, n) => addCard env dataId n
  | (.skill dataId, n) => addSkill env dataId n
  | (.opening _, _) => return

def credit (bill : Bill) : Act Unit := bill.forM (creditGood env)

/-- The agent with other random numbers ahead and another level. -/
def User.reset (u : User) (drawn : ℕ) (level : ℤ) : User := { u with drawn, level }

/-- Neither reads nor writes the random numbers and the level. -/
def Apart {α : Type} (a : Act α) : Prop :=
  ∀ u drawn level, a (u.reset drawn level) = (a u).map fun r => (r.1, r.2.reset drawn level)

variable {env} {α β : Type} {a : Act α}

theorem apart_pure (x : α) : Apart (pure x) := fun _ _ _ => rfl

theorem apart_fail : Apart (fail : Act α) := fun _ _ _ => rfl

theorem apart_modify {f : User → User}
    (h : ∀ u drawn level, f (u.reset drawn level) = (f u).reset drawn level) :
    Apart (modify f) := fun u drawn level => congrArg (fun u' => some ((), u')) (h u drawn level)

theorem Apart.bind {f : α → Act β} (ha : Apart a) (hf : ∀ x, Apart (f x)) : Apart (a >>= f) :=
  fun u drawn level => by
    change (a (u.reset drawn level)).bind (fun r => f r.1 r.2) =
      ((a u).bind fun r => f r.1 r.2).map fun r => (r.1, r.2.reset drawn level)
    rw [ha u drawn level]
    cases a u with
    | none => rfl
    | some r => exact hf r.1 r.2 drawn level

theorem apart_get_bind {f : User → Act β}
    (h : ∀ u drawn level, f (u.reset drawn level) (u.reset drawn level) =
      (f u u).map fun r => (r.1, r.2.reset drawn level)) : Apart (get >>= f) :=
  fun u drawn level => h u drawn level

theorem Apart.level (ha : Apart a) {u u' : User} {x : α} (h : a u = some (x, u')) :
    u'.drawn = u.drawn ∧ u'.level = u.level := by
  have hself := ha u u.drawn u.level
  change a u = _ at hself
  rw [h, Option.map_some, Option.some.injEq, Prod.mk.injEq] at hself
  rw [hself.2]
  exact ⟨rfl, rfl⟩

theorem apart_initCard (dataId : ℤ) : Apart (initCard env dataId) := fun u drawn level => by
  unfold initCard
  cases autoSkills env (env.data.heroRepository dataId) env.data.autoGainSkills <;> rfl

theorem apart_addCard (dataId num : ℤ) : Apart (addCard env dataId num) := by
  unfold addCard
  split
  · exact apart_pure ()
  · refine apart_get_bind fun u drawn level => ?_
    dsimp only [User.reset]
    cases getCardBySerialId u.cards (Macro_GetCardSerialId dataId) with
    | some i => cases env.data.heroRepository dataId <;> rfl
    | none =>
      refine (apart_initCard dataId).bind (fun v => ?_) u drawn level
      cases env.data.heroRepository dataId with
      | none => exact apart_fail
      | some hero => exact apart_modify fun _ _ _ => rfl

theorem apart_addSkill (dataId num : ℤ) : Apart (addSkill env dataId num) := by
  unfold addSkill
  split
  · exact apart_pure ()
  · refine apart_get_bind fun u drawn level => ?_
    dsimp only [User.reset]
    cases getSkillBySerialId u.skills (Macro_GetSkillSerialId dataId) <;> rfl

theorem apart_creditGood (e : Good × ℤ) : Apart (creditGood env e) := by
  obtain ⟨good, n⟩ := e
  cases good with
  | gold | money => exact apart_modify fun _ _ _ => rfl
  | card dataId => exact apart_addCard dataId n
  | skill dataId => exact apart_addSkill dataId n
  | opening itemId => exact apart_pure ()

theorem apart_credit (bill : Bill) : Apart (credit env bill) := by
  unfold credit
  induction bill with
  | nil => exact apart_pure ()
  | cons e bill ih => exact (apart_creditGood e).bind fun _ => ih

theorem credit_append (bill bill' : Bill) (u : User) :
    credit env (bill ++ bill') u = (credit env bill u).bind fun r => credit env bill' r.2 := by
  unfold credit
  induction bill generalizing u with
  | nil => rfl
  | cons e bill ih =>
    change (creditGood env e u).bind (fun r => (bill ++ bill').forM (creditGood env) r.2) =
      ((creditGood env e u).bind fun r => bill.forM (creditGood env) r.2).bind _
    rw [Option.bind_assoc]
    exact congrArg _ (funext fun r => ih r.2)

/-! ## First the bill, then the credit -/

/-- What an action does is to draw a bill and to credit it. -/
def Bills (env : Env) {α : Type} (a : Act α) (d : ℤ → Billed α) : Prop :=
  ∀ u, a u = ((d u.level).run u.drawn).bind fun r =>
    (credit env r.1.2 { u with drawn := r.2 }).map fun x => (r.1.1, x.2)

theorem bills_pure (x : α) : Bills env (pure x) fun _ => pure x := fun _ => rfl

theorem Bills.bind {d : ℤ → Billed α} {f : α → Act β} {e : α → ℤ → Billed β}
    (h : Bills env a d) (hf : ∀ x, Bills env (f x) (e x)) :
    Bills env (a >>= f) fun lv => d lv >>= fun x => e x lv := fun u => by
  change (a u).bind (fun r => f r.1 r.2) = (((d u.level).run u.drawn).bind fun r =>
    ((e r.1.1 u.level).run r.2).bind fun r' => some ((r'.1.1, r.1.2 ++ r'.1.2), r'.2)).bind _
  rw [h u]
  cases (d u.level).run u.drawn with
  | none => rfl
  | some r =>
    obtain ⟨⟨x, bill⟩, i⟩ := r
    have hapart : Apart (credit env bill) := apart_credit bill
    simp only [Option.bind_some]
    cases hcredit : credit env bill { u with drawn := i } with
    | none =>
      -- the credit that fails here fails with any draws after it
      cases (e x u.level).run i with
      | none => rfl
      | some r' =>
        have hnone := hapart { u with drawn := i } r'.2 u.level
        rw [hcredit] at hnone
        simp only [Option.bind_some]
        rw [credit_append]
        change none = ((credit env bill ({ u with drawn := i }.reset r'.2 u.level)).bind _).map _
        rw [hnone]
        rfl
    | some y =>
      have hkeep := hapart.level hcredit
      change f x y.2 = _
      rw [hf x y.2, hkeep.1, hkeep.2]
      cases (e x u.level).run i with
      | none => rfl
      | some r' =>
        have hlater := hapart { u with drawn := i } r'.2 u.level
        rw [hcredit] at hlater
        simp only [Option.bind_some]
        rw [credit_append]
        change (credit env r'.1.2 (y.2.reset r'.2 u.level)).map _ =
          ((credit env bill ({ u with drawn := i }.reset r'.2 u.level)).bind _).map _
        rw [hlater]
        rfl

/-- The bill of a run that has not failed. -/
theorem Bills.run {d : ℤ → Billed α} (h : Bills env a d) {u u' : User} {x : α}
    (ha : a u = some (x, u')) : ∃ bill drawn, (d u.level).run u.drawn = some ((x, bill), drawn) ∧
      credit env bill { u with drawn } = some ((), u') := by
  rw [h u] at ha
  obtain ⟨⟨⟨y, bill⟩, drawn⟩, hrun, ha⟩ := Option.bind_eq_some_iff.mp ha
  obtain ⟨⟨⟨⟩, v⟩, hcredit, ha⟩ := Option.map_eq_some_iff.mp ha
  rw [Prod.mk.injEq] at ha
  obtain ⟨rfl, rfl⟩ := ha
  exact ⟨bill, drawn, hrun, hcredit⟩

theorem bills_draw {f : ℤ → Draw α} :
    Bills env (do draw (f (← get).level)) fun lv => liftM (f lv) := fun u => by
  change (f u.level u.drawn).map _ = ((f u.level u.drawn).bind _).bind _
  cases f u.level u.drawn <;> rfl

theorem bills_credit (bill : Bill) : Bills env (credit env bill) fun _ => tell bill := fun u => by
  change credit env bill u = (credit env bill u).map fun x => ((), x.2)
  cases credit env bill u <;> rfl

theorem bills_opening (k : ℤ) : Bills env (pure ()) fun _ => tell [(.opening k, 1)] := fun _ => rfl

theorem credit_entries {good : ℤ → Good} {add : ℤ → ℤ → Act Unit}
    (hadd : ∀ k v, creditGood env (good k, v) = add k v)
    (hskip : ∀ k v, v ≤ 0 → add k v = pure ()) (l : IntTable) :
    l.forM (fun e => add e.1 e.2) =
      credit env ((l.filter fun e => 0 < e.2).map fun e => (good e.1, e.2)) := by
  induction l with
  | nil => rfl
  | cons e l ih =>
    change (add e.1 e.2 >>= fun _ => l.forM fun e => add e.1 e.2) = _
    rw [ih, List.filter_cons]
    by_cases hpos : 0 < e.2
    · rw [if_pos (decide_eq_true hpos), ← hadd]
      rfl
    · rw [if_neg (mt of_decide_eq_true hpos), hskip e.1 e.2 (not_lt.mp hpos)]
      rfl

theorem addCard_of_nonpos (dataId num : ℤ) (h : num ≤ 0) : addCard env dataId num = pure () := by
  unfold addCard
  exact if_pos h

theorem addSkill_of_nonpos (dataId num : ℤ) (h : num ≤ 0) :
    addSkill env dataId num = pure () := by
  unfold addSkill
  exact if_pos h

/-- Gold, diamonds, and the entries of two tables, in this order. -/
theorem credit_tables (gold money : ℤ) (cards skillMats : IntTable) :
    (do
      if gold > 0 then modify fun user => { user with account := user.account.addGold gold }
      if money > 0 then modify fun user => { user with account := user.account.addMoney money }
      cards.forM fun (k, v) => addCard env k v
      skillMats.forM fun (k, v) => addSkill env k v : Act Unit) =
      credit env ((if gold > 0 then [(.gold, gold)] else []) ++
        (if money > 0 then [(.money, money)] else []) ++
        (cards.filter fun e => 0 < e.2).map (fun e => (.card e.1, e.2)) ++
        (skillMats.filter fun e => 0 < e.2).map (fun e => (.skill e.1, e.2))) := by
  have hcards := credit_entries (fun k v => (rfl : creditGood env (.card k, v) = _))
    addCard_of_nonpos cards
  have hskills := credit_entries (fun k v => (rfl : creditGood env (.skill k, v) = _))
    addSkill_of_nonpos skillMats
  funext u
  rw [credit_append, credit_append, credit_append, ← hcards, ← hskills]
  by_cases hgold : gold > 0
  · rw [if_pos hgold, if_pos hgold]
    by_cases hmoney : money > 0
    · rw [if_pos hmoney, if_pos hmoney]
      rfl
    · rw [if_neg hmoney, if_neg hmoney]
      rfl
  · rw [if_neg hgold, if_neg hgold]
    by_cases hmoney : money > 0
    · rw [if_pos hmoney, if_pos hmoney]
      rfl
    · rw [if_neg hmoney, if_neg hmoney]
      rfl

theorem handOut_eq (g : Gathered) : handOut env g = credit env (billHandedOut env g) :=
  credit_tables g.gold g.money (env.pairs g.cards) (env.pairs g.skillMats)

theorem bills_gather {again : IntTable → Act Unit} {bill : ℤ → IntTable → Billed Unit}
    (h : ∀ items, Bills env (again items) fun lv => bill lv items) (items : IntTable)
    (g : Gathered) :
    Bills env (gather env again items g) fun lv => billGathered env lv (bill lv) items g := by
  induction items generalizing g with
  | nil => exact bills_pure (some g)
  | cons e items ih =>
    obtain ⟨k, v⟩ := e
    unfold gather billGathered
    cases env.data.itemRepository k with
    | none => exact bills_pure none
    | some item =>
      dsimp only
      split_ifs
      · exact ih _
      · exact (bills_draw (f := usePackageItem env k)).bind fun rets =>
          (bills_opening k).bind fun _ => (h rets).bind fun _ => ih { g with rets }
      · exact ih _
      · exact ih _
      · exact ih _
      · exact ih _

/-- `addItems` credits its bill. -/
theorem bills_addItemsAt (levels : ℕ) (items : IntTable) :
    Bills env (addItemsAt env levels items) fun lv => billAt env lv levels items := by
  induction levels generalizing items with
  | zero => exact bills_pure ()
  | succ levels ih =>
    refine (bills_gather ih (env.pairs items) {}).bind fun r => ?_
    cases r with
    | none => exact bills_pure ()
    | some g =>
      dsimp only
      rw [handOut_eq]
      exact bills_credit _

end GameServer.Agent
