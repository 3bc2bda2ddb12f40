import GameServer.ShopQuantity

/-!
# What is handed out at which level

The bill of `addItems` with levels: an entry says how many levels of packages were left below it.
The entries of the highest level are what the items themselves give, those below come out of the
packages.
-/

namespace GameServer.Agent

open Goods
open Shop (isPackage)

abbrev Log := List (ℕ × Good × ℤ)

namespace Log

def bill (log : Log) : Bill := log.map Prod.snd

/-- The entries of a level. -/
def atLevel (log : Log) (level : ℕ) : Bill := Log.bill (log.filter fun e => e.1 = level)

end Log

/-- A computation that draws random numbers and writes a log. -/
abbrev Logged := WriterT Log Draw

section log

variable (env : Env) (lv : ℤ)

/-- The loop over the items, as in `gather`. -/
def logGathered (level : ℕ) (again : IntTable → Logged Unit) :
    IntTable → Gathered → Logged (Option Gathered)
  | [], g => return some g
  | (k, v) :: rest, g => do
      match env.data.itemRepository k with
      | none => return none
      | some item =>
          if item.n32Type = 3 then
            logGathered level again rest { g with cards := g.cards.add item.n32Retain1 v }
          else if item.n32Type = 4 then
            let rets ← usePackageItem env k lv
            tell [(level, .opening k, 1)]
            again rets
            logGathered level again rest { g with rets }
          else if item.n32Type = 5 then
            logGathered level again rest { g with gold := wrap (g.gold + v) }
          else if item.n32Type = 6 then
            logGathered level again rest { g with money := wrap (g.money + v) }
          else if item.n32Type = 7 then
            logGathered level again rest { g with skillMats := g.skillMats.add item.n32Retain1 v }
          else logGathered level again rest g

/-- The log of `addItems`, as in `addItemsAt`, with the table that is returned. -/
def logAt : ℕ → IntTable → Logged (Option IntTable)
  | 0, _ => return none
  | level + 1, items => do
      match ← logGathered env lv level (fun items => logAt level items >>= fun _ => return)
          (env.pairs items) {} with
      | none => return none
      | some g =>
          tell ((billHandedOut env g).map fun e => (level, e))
          return some g.rets

/-- What the loop gathers, packages apart. -/
def collect (g : Gathered) (e : ℤ × ℤ) : Gathered :=
  match env.data.itemRepository e.1 with
  | none => g
  | some item =>
      if item.n32Type = 3 then { g with cards := g.cards.add item.n32Retain1 e.2 }
      else if item.n32Type = 4 then g
      else if item.n32Type = 5 then { g with gold := wrap (g.gold + e.2) }
      else if item.n32Type = 6 then { g with money := wrap (g.money + e.2) }
      else if item.n32Type = 7 then { g with skillMats := g.skillMats.add item.n32Retain1 e.2 }
      else g

/-- What a table gives by itself. -/
def topBill (items : IntTable) : Bill :=
  ((env.pairs items).filter fun e => isPackage env e.1).map (fun e => (.opening e.1, 1)) ++
    billHandedOut env ((env.pairs items).foldl (collect env) {})

end log

/-! ## A log without its levels -/

variable {env : Env} {α β : Type} {lv : ℤ} {i : ℕ}

def erase (m : Logged α) : Billed α := fun i =>
  (m.run i).map fun r => ((r.1.1, Log.bill r.1.2), r.2)

/-- A log without its levels and its result. -/
def bare (m : Logged α) : Billed Unit := fun i =>
  (m.run i).map fun r => (((), Log.bill r.1.2), r.2)

theorem bill_append (log log' : Log) : Log.bill (log ++ log') = log.bill ++ log'.bill :=
  List.map_append

theorem erase_bind (m : Logged α) (f : α → Logged β) :
    erase (m >>= f) = erase m >>= fun x => erase (f x) := by
  funext i
  change (((m.run i).bind fun r => ((f r.1.1).run r.2).bind fun r' =>
    some ((r'.1.1, r.1.2 ++ r'.1.2), r'.2)).map _) = ((m.run i).map _).bind _
  cases m.run i with
  | none => rfl
  | some r =>
    change (((f r.1.1).run r.2).bind _).map _ = (((f r.1.1).run r.2).map _).bind _
    cases (f r.1.1).run r.2 with
    | none => rfl
    | some r' => exact congrArg (fun bill => some ((r'.1.1, bill), r'.2)) (bill_append _ _)

theorem bare_bind (m : Logged α) (f : α → Logged β) :
    bare (m >>= f) = erase m >>= fun x => bare (f x) := by
  funext i
  change (((m.run i).bind fun r => ((f r.1.1).run r.2).bind fun r' =>
    some ((r'.1.1, r.1.2 ++ r'.1.2), r'.2)).map _) = ((m.run i).map _).bind _
  cases m.run i with
  | none => rfl
  | some r =>
    change (((f r.1.1).run r.2).bind _).map _ = (((f r.1.1).run r.2).map _).bind _
    cases (f r.1.1).run r.2 with
    | none => rfl
    | some r' => exact congrArg (fun bill => some (((), bill), r'.2)) (bill_append _ _)

theorem erase_discard (m : Logged α) : erase (m >>= fun _ => return) = bare m := by
  funext i
  change (((m.run i).bind fun r => some (((), r.1.2 ++ []), r.2)).map _) = (m.run i).map _
  cases m.run i with
  | none => rfl
  | some r => exact congrArg (fun log => some (((), Log.bill log), r.2)) (List.append_nil _)

theorem erase_lift (d : Draw α) : erase (liftM d : Logged α) = liftM d := by
  funext i
  change ((d i).bind _).map _ = (d i).bind _
  cases d i <;> rfl

theorem erase_tell (log : Log) : erase (tell log : Logged Unit) = tell log.bill := rfl

theorem erase_logGathered {level : ℕ} {again : IntTable → Logged Unit}
    {again' : IntTable → Billed Unit} (h : ∀ items, erase (again items) = again' items)
    (items : IntTable) (g : Gathered) :
    erase (logGathered env lv level again items g) = billGathered env lv again' items g := by
  induction items generalizing g with
  | nil => rfl
  | cons e items ih =>
    obtain ⟨k, v⟩ := e
    unfold logGathered billGathered
    cases env.data.itemRepository k with
    | none => rfl
    | some item =>
      dsimp only
      split_ifs
      · exact ih _
      · rw [erase_bind, erase_lift]
        congr 1
        funext rets
        rw [erase_bind, erase_tell]
        congr 1
        funext _
        rw [erase_bind, h rets]
        congr 1
        funext _
        exact ih { g with rets }
      · exact ih _
      · exact ih _
      · exact ih _
      · exact ih _

theorem bill_level (level : ℕ) (bill : Bill) : Log.bill (bill.map fun e => (level, e)) = bill := by
  rw [Log.bill, List.map_map]
  exact List.map_id _

theorem bare_logAt (levels : ℕ) (items : IntTable) :
    bare (logAt env lv levels items) = billAt env lv levels items := by
  induction levels generalizing items with
  | zero => rfl
  | succ level ih =>
    rw [logAt, billAt, bare_bind,
      erase_logGathered (fun items => (erase_discard _).trans (ih items))]
    congr 1
    funext r
    cases r with
    | none => rfl
    | some g =>
      funext i
      change some (((), Log.bill ((billHandedOut env g).map (fun e => (level, e)) ++ [])), i) = _
      rw [List.append_nil, bill_level]
      rfl

/-- `addItems` credits its log. -/
theorem addItemsAt_logged (levels : ℕ) (items : IntTable) (u : User) :
    addItemsAt env levels items u = ((logAt env u.level levels items).run u.drawn).bind fun r =>
      (credit env r.1.2.bill { u with drawn := r.2 }).map fun x => ((), x.2) := by
  refine (bills_addItemsAt levels items u).trans ?_
  change ((billAt env u.level levels items).run u.drawn).bind _ = _
  rw [← bare_logAt]
  change (((logAt env u.level levels items).run u.drawn).map _).bind _ = _
  cases (logAt env u.level levels items).run u.drawn <;> rfl

/-! ## The highest level -/

variable {level : ℕ} {again : IntTable → Logged Unit} {items : IntTable} {g g' : Gathered}
  {log : Log} {j : ℕ}

theorem run_bind_eq_some {m : Logged α} {f : α → Logged β} {x : β}
    (h : (m >>= f).run i = some ((x, log), j)) : ∃ y log₁ i₁ log₂,
      m.run i = some ((y, log₁), i₁) ∧ (f y).run i₁ = some ((x, log₂), j) ∧ log = log₁ ++ log₂ := by
  obtain ⟨⟨⟨y, log₁⟩, i₁⟩, hm, h⟩ := Option.bind_eq_some_iff.mp h
  obtain ⟨⟨⟨x', log₂⟩, j'⟩, hf, h⟩ := Option.bind_eq_some_iff.mp h
  cases h
  exact ⟨y, log₁, i₁, log₂, hm, hf, rfl⟩

theorem run_lift_eq_some {d : Draw α} {x : α}
    (h : (liftM d : Logged α).run i = some ((x, log), j)) :
    d i = some (x, j) ∧ log = [] := by
  obtain ⟨⟨x', j'⟩, hd, h⟩ := Option.bind_eq_some_iff.mp h
  cases h
  exact ⟨hd, rfl⟩

/-- The entries stand at levels below the bound. -/
def Below (bound : ℕ) (m : Logged α) : Prop :=
  ∀ i r, m.run i = some r → ∀ e ∈ r.1.2, e.1 < bound

theorem Below.bind {bound : ℕ} {m : Logged α} {f : α → Logged β} (hm : Below bound m)
    (hf : ∀ x, Below bound (f x)) : Below bound (m >>= f) := fun i r h e he => by
  obtain ⟨r₁, h₁, h⟩ := Option.bind_eq_some_iff.mp h
  obtain ⟨r₂, h₂, h⟩ := Option.bind_eq_some_iff.mp h
  obtain rfl := Option.some.inj h
  rcases List.mem_append.mp he with he | he
  · exact hm i r₁ h₁ e he
  · exact hf _ _ r₂ h₂ e he

theorem below_pure {bound : ℕ} (x : α) : Below bound (pure x : Logged α) := fun i r h e he => by
  obtain rfl := Option.some.inj h
  exact absurd he List.not_mem_nil

theorem below_lift {bound : ℕ} (d : Draw α) : Below bound (liftM d : Logged α) :=
  fun i r h e he => by
  obtain ⟨r', -, h⟩ := Option.bind_eq_some_iff.mp h
  obtain rfl := Option.some.inj h
  exact absurd he List.not_mem_nil

theorem below_tell {bound : ℕ} (h : ∀ e ∈ log, e.1 < bound) :
    Below bound (tell log : Logged Unit) := fun i r hr => by
  obtain rfl := Option.some.inj hr
  exact h

theorem below_logGathered {bound : ℕ} (hlevel : level < bound)
    (h : ∀ items, Below bound (again items))
    (items : IntTable) (g : Gathered) : Below bound (logGathered env lv level again items g) := by
  induction items generalizing g with
  | nil => exact below_pure _
  | cons e items ih =>
    obtain ⟨k, v⟩ := e
    unfold logGathered
    cases env.data.itemRepository k with
    | none => exact below_pure _
    | some item =>
      dsimp only
      split_ifs
      · exact ih _
      · refine (below_lift _).bind fun rets => (below_tell ?_).bind fun _ => (h rets).bind
          fun _ => ih _
        intro e he
        rw [List.mem_singleton.mp he]
        exact hlevel
      · exact ih _
      · exact ih _
      · exact ih _
      · exact ih _

theorem below_logAt (levels : ℕ) (items : IntTable) : Below levels (logAt env lv levels items) := by
  induction levels generalizing items with
  | zero => exact below_pure _
  | succ level ih =>
    have hmono : ∀ items, Below (level + 1) (logAt env lv level items >>= fun _ => return) :=
      fun items => Below.bind (fun i r h e he => Nat.lt_succ_of_lt (ih items i r h e he))
        fun _ => below_pure _
    refine (below_logGathered (Nat.lt_succ_self _) hmono _ _).bind fun r => ?_
    cases r with
    | none => exact below_pure _
    | some g =>
      refine (below_tell fun e he => ?_).bind fun _ => below_pure _
      obtain ⟨e', -, rfl⟩ := List.mem_map.mp he
      exact Nat.lt_succ_self _

theorem atLevel_append (log log' : Log) (level : ℕ) :
    Log.atLevel (log ++ log') level = log.atLevel level ++ log'.atLevel level := by
  rw [Log.atLevel, List.filter_append, bill_append]
  rfl

theorem atLevel_below (h : ∀ e ∈ log, e.1 < level) : log.atLevel level = [] := by
  have hnone : log.filter (fun e => e.1 = level) = [] :=
    List.filter_eq_nil_iff.mpr fun e he => by simpa using (h e he).ne
  rw [Log.atLevel, hnone]
  rfl

theorem atLevel_level (level : ℕ) (bill : Bill) :
    Log.atLevel (bill.map fun e => (level, e)) level = bill := by
  have hall : (bill.map fun e => (level, e)).filter (fun e => e.1 = level) =
      bill.map fun e => (level, e) :=
    List.filter_eq_self.mpr fun e he => by
      obtain ⟨e', -, rfl⟩ := List.mem_map.mp he
      exact decide_eq_true rfl
  rw [Log.atLevel, hall, bill_level]

/-- Two loops gathered the same, the contents of packages apart. -/
structure SameGoods (g g' : Gathered) : Prop where
  gold : g.gold = g'.gold
  money : g.money = g'.money
  cards : g.cards = g'.cards
  skillMats : g.skillMats = g'.skillMats

theorem SameGoods.trans {g'' : Gathered} (h : SameGoods g g') (h' : SameGoods g' g'') :
    SameGoods g g'' :=
  ⟨h.gold.trans h'.gold, h.money.trans h'.money, h.cards.trans h'.cards,
    h.skillMats.trans h'.skillMats⟩

theorem sameGoods_bill (h : SameGoods g g') : billHandedOut env g = billHandedOut env g' := by
  rw [billHandedOut, billHandedOut, h.gold, h.money, h.cards, h.skillMats]

theorem sameGoods_collect (h : SameGoods g g') (e : ℤ × ℤ) :
    SameGoods (collect env g e) (collect env g' e) := by
  obtain ⟨hgold, hmoney, hcards, hskills⟩ := h
  unfold collect
  cases env.data.itemRepository e.1 with
  | none => exact ⟨hgold, hmoney, hcards, hskills⟩
  | some item =>
    dsimp only
    split_ifs
    · exact ⟨hgold, hmoney, congrArg (fun t => IntTable.add t _ _) hcards, hskills⟩
    · exact ⟨hgold, hmoney, hcards, hskills⟩
    · exact ⟨congrArg (fun n => wrap (n + _)) hgold, hmoney, hcards, hskills⟩
    · exact ⟨hgold, congrArg (fun n => wrap (n + _)) hmoney, hcards, hskills⟩
    · exact ⟨hgold, hmoney, hcards, congrArg (fun t => IntTable.add t _ _) hskills⟩
    · exact ⟨hgold, hmoney, hcards, hskills⟩

theorem sameGoods_foldl (h : SameGoods g g') (items : IntTable) :
    SameGoods (items.foldl (collect env) g) (items.foldl (collect env) g') := by
  induction items generalizing g g' with
  | nil => exact h
  | cons e items ih => exact ih (sameGoods_collect h e)

/-- The loop goes through when every item is known; then it opens the packages and gathers the
rest. -/
theorem logGathered_top (hagain : ∀ items, Below level (again items)) {r : Option Gathered}
    (h : (logGathered env lv level again items g).run i = some ((r, log), j)) :
    (r.isSome ↔ ∀ e ∈ items, (env.data.itemRepository e.1).isSome) ∧ ∀ g' ∈ r,
      log.atLevel level =
        (items.filter fun e => isPackage env e.1).map (fun e => (.opening e.1, 1)) ∧
      SameGoods g' (items.foldl (collect env) g) := by
  induction items generalizing g i log with
  | nil =>
    cases h
    exact ⟨by simp, fun g' hg' => by
      obtain rfl := Option.some.inj hg'
      exact ⟨rfl, rfl, rfl, rfl, rfl⟩⟩
  | cons e items ih =>
    obtain ⟨k, v⟩ := e
    unfold logGathered at h
    cases hitem : env.data.itemRepository k with
    | none =>
      rw [hitem] at h
      cases h
      exact ⟨by simp [hitem], fun g' hg' => by cases hg'⟩
    | some item =>
      rw [hitem] at h
      dsimp only at h
      have hfirst : ∀ {g₁ : Gathered}, item.n32Type ≠ 4 → collect env g (k, v) = g₁ →
          (logGathered env lv level again items g₁).run i = some ((r, log), j) →
          (r.isSome ↔ ∀ e ∈ (k, v) :: items, (env.data.itemRepository e.1).isSome) ∧ ∀ g' ∈ r,
            log.atLevel level = (((k, v) :: items).filter fun e => isPackage env e.1).map
              (fun e => (.opening e.1, 1)) ∧
            SameGoods g' (((k, v) :: items).foldl (collect env) g) :=
            fun {g₁} h4 hcollect hrest => by
        obtain ⟨hsome, hg'⟩ := ih hrest
        have hpackage : isPackage env k = false := by simp [isPackage, hitem, h4]
        refine ⟨by simp [hsome, hitem], fun g' hr => ?_⟩
        rw [List.filter_cons, if_neg (by rw [hpackage]; decide), List.foldl_cons, hcollect]
        exact hg' g' hr
      by_cases h3 : item.n32Type = 3
      · rw [if_pos h3] at h
        exact hfirst (by omega) (by simp [collect, hitem, h3]) h
      rw [if_neg h3] at h
      by_cases h4 : item.n32Type = 4
      · rw [if_pos h4] at h
        obtain ⟨rets, log₁, i₁, rest₁, hdraw, h₁, rfl⟩ := run_bind_eq_some h
        obtain ⟨-, rfl⟩ := run_lift_eq_some hdraw
        obtain ⟨_, log₂, i₂, rest₂, htell, h₂, rfl⟩ := run_bind_eq_some h₁
        cases htell
        obtain ⟨_, log₃, i₃, rest₃, hopen, hrest, rfl⟩ := run_bind_eq_some h₂
        obtain ⟨hsome, hg'⟩ := ih hrest
        have hpackage : isPackage env k = true := by simp [isPackage, hitem, h4]
        have hcollect : collect env g (k, v) = g := by simp [collect, hitem, h4]
        refine ⟨by simp [hsome, hitem], fun g' hr => ?_⟩
        obtain ⟨hlog, hsame⟩ := hg' g' hr
        have hrets : SameGoods { g with rets } g := ⟨rfl, rfl, rfl, rfl⟩
        have hinside : Log.atLevel log₃ level = [] := atLevel_below (hagain rets _ _ hopen)
        rw [List.nil_append, atLevel_append, atLevel_append, hinside, hlog, List.filter_cons,
          if_pos hpackage, List.foldl_cons, hcollect]
        refine ⟨?_, hsame.trans (sameGoods_foldl hrets items)⟩
        exact congrArg (· ++ _) (atLevel_level level [(Good.opening k, (1 : ℤ))])
      rw [if_neg h4] at h
      by_cases h5 : item.n32Type = 5
      · rw [if_pos h5] at h
        exact hfirst h4 (by simp [collect, hitem, h5]) h
      rw [if_neg h5] at h
      by_cases h6 : item.n32Type = 6
      · rw [if_pos h6] at h
        exact hfirst h4 (by simp [collect, hitem, h6]) h
      rw [if_neg h6] at h
      by_cases h7 : item.n32Type = 7
      · rw [if_pos h7] at h
        exact hfirst h4 (by simp [collect, hitem, h7]) h
      rw [if_neg h7] at h
      exact hfirst h4 (by simp [collect, hitem, h3, h4, h5, h6, h7]) h

/-- `addItems` goes through when every item is known, and then hands out what the table gives. -/
theorem logAt_top {r : Option IntTable}
    (h : (logAt env lv (level + 1) items).run i = some ((r, log), j)) :
    (r.isSome ↔ ∀ e ∈ items, (env.data.itemRepository e.1).isSome) ∧
      (r.isSome → log.atLevel level = topBill env items) := by
  obtain ⟨r₁, log₁, i₁, log₂, hgather, hrest, rfl⟩ := run_bind_eq_some h
  have hbelow : ∀ items, Below level (logAt env lv level items >>= fun _ => return) := fun items =>
    (below_logAt level items).bind fun _ => below_pure _
  obtain ⟨hsome, htop⟩ := logGathered_top hbelow hgather
  have hknown : (∀ e ∈ env.pairs items, (env.data.itemRepository e.1).isSome) ↔
      ∀ e ∈ items, (env.data.itemRepository e.1).isSome :=
    forall_congr' fun e => by rw [(env.pairs_perm items).mem_iff]
  rw [hknown] at hsome
  cases r₁ with
  | none =>
    cases hrest
    exact ⟨hsome, fun hr => by cases hr⟩
  | some g =>
    obtain ⟨hlog, hsame⟩ := htop g rfl
    obtain ⟨_, log₃, i₃, log₄, htell, hpure, rfl⟩ := run_bind_eq_some hrest
    cases htell
    cases hpure
    refine ⟨⟨fun _ => hsome.mp rfl, fun _ => rfl⟩, fun _ => ?_⟩
    change Log.atLevel (log₁ ++ ((billHandedOut env g).map (fun e => (level, e)) ++ [])) level = _
    rw [List.append_nil, atLevel_append, hlog, atLevel_level, sameGoods_bill hsame]
    rfl

end GameServer.Agent
