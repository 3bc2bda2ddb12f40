import Mathlib.Tactic

/-!
# Packages and what they contain

`usePackageItem` opens a package item: `openPackage` draws rows of `dropPackage`, and for each row
drawn one item of `itemDropPackage`. Integers are Lua integers, which wrap modulo 2 to the 64. An
error raised by the interpreter is `none`. The random draws and the order in which `pairs` visits a
table are inputs, taken from `Env`.
-/

namespace GameServer.Goods

/-- The value of an integer expression. -/
def wrap (x : ℤ) : ℤ := x.bmod (2 ^ 64)

theorem wrap_of_range {x : ℤ} (h : -2 ^ 63 ≤ x) (h' : x < 2 ^ 63) : wrap x = x :=
  Int.bmod_eq_of_le (by norm_num; omega) (by norm_num; omega)

theorem wrap_wrap (x : ℤ) : wrap (wrap x) = wrap x := Int.bmod_bmod

/-- A table from integers to integers, in the order of insertion. -/
abbrev IntTable := List (ℤ × ℤ)

namespace IntTable

def get (t : IntTable) (k : ℤ) : Option ℤ := (t.find? (fun e => e.1 = k)).map Prod.snd

def set (t : IntTable) (k v : ℤ) : IntTable :=
  if t.any (fun e => e.1 = k) then t.map (fun e => if e.1 = k then (k, v) else e)
  else t ++ [(k, v)]

/-- `if not t[k] then t[k] = v else t[k] = t[k] + v end` -/
def add (t : IntTable) (k v : ℤ) : IntTable :=
  match t.get k with
  | none => t.set k v
  | some old => t.set k (wrap (old + v))

end IntTable

structure ItemRow where
  n32Type : ℤ
  n32Retain1 : ℤ
  /-- The pairs `id,count` of the text, numbers already read. -/
  szRetain3 : List (ℤ × ℤ)

structure DropRow where
  n32DropId : ℤ
  /-- The sum of the rates up to this row, as the loader leaves it. -/
  n32Rate : ℤ
  n32MinNum : ℤ
  n32MaxNum : ℤ

structure DropPackage where
  rows : List DropRow
  totalRate : ℤ

structure ItemDropRow where
  n32ItemId : ℤ
  n32Rate : ℤ
  n32MinNum : ℤ
  n32MaxNum : ℤ
  n32ArenaLvUpLimit : ℤ
  n32ArenaLvLwLimit : ℤ

structure HeroRow where
  n32CCardNum : ℤ
  n32Camp : ℤ

structure SkillRow where
  n32Faction : ℤ

structure ShopRow where
  n32Type : ℤ
  n32Site : ℤ
  n32Count : ℤ
  n32Price : ℤ
  n32MoneyType : ℤ
  n32Limit : ℤ
  n32GoodsID : ℤ

/-- `g_shareData`, as far as purchases read it. -/
structure ShareData where
  shopRepository : ℤ → Option ShopRow
  itemRepository : ℤ → Option ItemRow
  dropPackage : ℤ → Option DropPackage
  itemDropPackage : ℤ → Option (List ItemDropRow)
  heroRepository : ℤ → Option HeroRow
  skillRepository : ℤ → Option SkillRow
  /-- `Quest.AutoGainSkills` -/
  autoGainSkills : List ℤ

/-- What a request reads from outside the agent. -/
structure Env where
  data : ShareData
  /-- `os.time()` -/
  now : ℤ
  /-- `Time.tomorrow()` -/
  tomorrow : ℤ
  /-- The system cooldown `RefreshShopCard`, asked of the service `cddown`. -/
  refreshShopCard : ℤ
  /-- The source of `math.random`. -/
  rand : ℕ → ℕ
  /-- The identifiers that `uuid.gen` returns. -/
  uuid : ℕ → String
  /-- The order in which `pairs` visits a table. -/
  pairs : IntTable → IntTable
  pairs_perm : ∀ t, (pairs t).Perm t

theorem id_perm (t : IntTable) : (id t).Perm t := List.Perm.refl t

/-- An environment without rows. -/
def quiet : Env where
  data := {
    shopRepository := fun _ => none
    itemRepository := fun _ => none
    dropPackage := fun _ => none
    itemDropPackage := fun _ => none
    heroRepository := fun _ => none
    skillRepository := fun _ => none
    autoGainSkills := [] }
  now := 0
  tomorrow := 86400
  refreshShopCard := 86400
  rand := fun _ => 0
  uuid := fun _ => ""
  pairs := id
  pairs_perm := id_perm

section Apply

variable {σ α : Type}

theorem pure_apply (a : α) (s : σ) : (pure a : StateT σ Option α) s = some (a, s) := rfl

theorem set_apply (s s' : σ) : (set s' : StateT σ Option PUnit) s = some (⟨⟩, s') := rfl

end Apply

/-- A computation that draws random numbers, counted by the state. -/
abbrev Draw := StateT ℕ Option

variable (env : Env)

/-- `math.random(lo, hi)`, an error when the interval is empty or too large. -/
def random (lo hi : ℤ) : Draw ℤ := fun i =>
  if lo ≤ hi ∧ (0 ≤ lo ∨ hi - lo < 2 ^ 63) then
    some (lo + (env.rand i : ℤ) % (hi - lo + 1), i + 1)
  else none

def raise {α : Type} : Draw α := fun _ => none

/-- The drop of one draw: the first row whose cumulative rate is reached, or 0. -/
def drawDrop (dropDat : DropPackage) : Draw ℤ := do
  let rd ← random env 1 dropDat.totalRate
  return match dropDat.rows.find? (fun q => q.n32Rate ≥ rd) with
    | some q => q.n32DropId
    | none => 0

/-- One round of `for i=1, v` over a drop: as many draws as its first row says. -/
def drawDrops (k : ℤ) : Draw (List ℤ) := do
  match env.data.dropPackage k with
  | none => raise
  | some dropDat =>
      match dropDat.rows with
      | [] => raise
      | first :: _ =>
          let num ← random env first.n32MinNum first.n32MaxNum
          (List.range num.toNat).mapM (fun _ => drawDrop env dropDat)

/-- The table `drops`: a later pair for the same id replaces an earlier one. -/
def drops (szRetain3 : List (ℤ × ℤ)) : IntTable :=
  szRetain3.foldl (fun t e => t.set e.1 e.2) []

/-- The rows for the level, with the rates summed up. -/
def filterdrops (userLv : ℤ) : ℤ → List ItemDropRow → List ItemDropRow
  | _, [] => []
  | tr, q :: rest =>
      if q.n32ArenaLvUpLimit ≤ userLv ∧ q.n32ArenaLvLwLimit ≥ userLv then
        { q with n32Rate := wrap (tr + q.n32Rate) } :: filterdrops userLv
          (wrap (tr + q.n32Rate)) rest
      else filterdrops userLv tr rest

/-- The total rate of the rows kept. -/
def totalRate (rows : List ItemDropRow) : ℤ := (rows.getLast?.map (·.n32Rate)).getD 0

/-- The item of one drop, added to the table `items`. -/
def drawItem (userLv : ℤ) (items : IntTable) (v : ℤ) : Draw IntTable := do
  match env.data.itemDropPackage v with
  | none => raise
  | some drop =>
      let rows := filterdrops userLv 0 drop
      if totalRate rows ≥ 1 then
        let rd ← random env 1 (totalRate rows)
        match rows.find? (fun q => q.n32Rate ≥ rd) with
        | none => raise
        | some r =>
            let itemNum ← random env r.n32MinNum r.n32MaxNum
            return items.add r.n32ItemId itemNum
      else return items

def openPackage (szRetain3 : List (ℤ × ℤ)) (userLv : ℤ) : Draw IntTable := do
  let pkgIds ← (env.pairs (drops szRetain3)).mapM fun (k, v) => do
    let rounds ← (List.range v.toNat).mapM (fun _ => drawDrops env k)
    return rounds.flatten
  pkgIds.flatten.foldlM (drawItem env userLv) []

def usePackageItem (itemId : ℤ) (lv : ℤ) : Draw IntTable := do
  match env.data.itemRepository itemId with
  | none => raise
  | some itemDat => if itemDat.n32Type ≠ 4 then return [] else openPackage env itemDat.szRetain3 lv

/-! ## Runs of draws -/

section Runs

variable {env} {α β : Type} {lo hi : ℤ} {i : ℕ}

theorem draw_bind {t : Draw α} {f : α → Draw β} (i : ℕ) :
    (t >>= f) i = (t i).bind fun r => f r.1 r.2 := rfl

theorem random_eq (h : lo ≤ hi) (hwidth : 0 ≤ lo ∨ hi - lo < 2 ^ 63) (i : ℕ) :
    random env lo hi i = some (lo + (env.rand i : ℤ) % (hi - lo + 1), i + 1) :=
  if_pos ⟨h, hwidth⟩

/-- A number within the bounds, and the next one is drawn by the next call. -/
theorem random_spec (env : Env) (h : lo ≤ hi) (hwidth : hi - lo < 2 ^ 63) (i : ℕ) :
    ∃ num, random env lo hi i = some (num, i + 1) ∧ lo ≤ num ∧ num ≤ hi := by
  refine ⟨_, random_eq h (Or.inr hwidth) i, ?_, ?_⟩
  · have hnonneg := Int.emod_nonneg (env.rand i) (b := hi - lo + 1) (by omega)
    omega
  · have hlt := Int.emod_lt_of_pos (env.rand i) (b := hi - lo + 1) (by omega)
    omega

/-- What each round of a loop gives, whatever was drawn before. -/
theorem mapM_spec {f : α → Draw β} {P : α → β → Prop} {l : List α}
    (h : ∀ a ∈ l, ∀ i, ∃ b i', f a i = some (b, i') ∧ P a b) (i : ℕ) :
    ∃ r i', l.mapM f i = some (r, i') ∧ List.Forall₂ P l r := by
  induction l generalizing i with
  | nil => exact ⟨[], i, rfl, .nil⟩
  | cons a l ih =>
      obtain ⟨b, j, hb, hP⟩ := h a List.mem_cons_self i
      obtain ⟨r, i', hr, hrest⟩ := ih (fun a' ha' => h a' (List.mem_cons_of_mem a ha')) j
      refine ⟨b :: r, i', ?_, .cons hP hrest⟩
      rw [List.mapM_cons, draw_bind, hb]
      dsimp only [Option.bind_some]
      rw [draw_bind, hr]
      rfl

end Runs

end GameServer.Goods
