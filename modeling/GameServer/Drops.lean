import GameServer.IntTables
import GameServer.Rounding
import GameServer.Terrain

/-!
# Items that a monster drops

`makeDrop` looks for a place around the monster that is no wall, seven times at most. The counter
then stands at 7 where all seven failed, and the test behind the loop asks for 8, so the last place
is taken as it is. Coordinates are doubles; an item keeps its place in units of the map, rounded
down, which may be in the cell beside the one that was tested.
-/

namespace GameServer.Drops

open Goods
open Pathfinding (Map map_get)
open Terrain (Vector3)

def GAMEPLAY_PERCENT : ℤ := 10000

/-- The fields of an item that `makeDrop` sets, without the fresh `sid`. -/
structure Item where
  itemId : ℤ
  itemNum : ℤ
  belong : ℤ
  px : ℤ
  pz : ℤ

/-- What `makeDrop` reads of the monster. -/
structure Monster where
  pos : Vector3
  n32Type : ℤ

variable (env : Env) (m : Map) (self : Monster)

def POS_2_GRID (p : ℚ) : ℤ := ⌊Double.div p (Double.round (1 / 10))⌋

def isWall (x z : ℚ) : Bool :=
  let gx := POS_2_GRID x
  let gz := POS_2_GRID z
  if m.Inside gx gz then map_get m gx gz = 255 else true

def offset : ℤ := if self.n32Type = 1 then 20000 else 8000

/-- One round of the loop up to the test. -/
def dropVec : Draw Vector3 := do
  let sr_x ← random env (-offset self) (offset self)
  let sr_z ← random env (-offset self) (offset self)
  return ⟨Double.add self.pos.x (Double.div sr_x 10000), self.pos.y,
    Double.add self.pos.z (Double.div sr_z 10000)⟩

/-- The loop: the last place, and the counter; `fuel` bounds the rounds. -/
def retry : ℕ → ℕ → Draw (Vector3 × ℕ)
  | 0, _ => raise
  | fuel + 1, loop => do
      let v ← dropVec env self
      if isWall m v.x v.z = false then return (v, loop)
      else
        let loop := loop + 1
        if loop ≥ 7 then return (v, loop) else retry fuel loop

/-- A coordinate in units of the map. -/
def units (x : ℚ) : ℤ := ⌊Double.mul x GAMEPLAY_PERCENT⌋

def makeItem (itemId : ℤ) : Draw Item := do
  let (v, loop) ← retry env m self 7 0
  let v := if loop = 8 then self.pos else v
  return {
    itemId
    itemNum := 1
    belong := 0
    px := units v.x
    pz := units v.z }

/-- The items that go to `drops`. `pkgs` is what `usePackageItem` gave. -/
def makeDrop (pkgs : IntTable) : Draw (List Item) := do
  let items ← (env.pairs pkgs).mapM fun (itemId, itemNum) =>
    (List.range itemNum.toNat).mapM fun _ => makeItem env m self itemId
  return items.flatten

/-- The place of a number of units. -/
def coordinate (px : ℤ) : ℚ := Double.div px GAMEPLAY_PERCENT

/-- Where the other functions take the item to be. -/
def Item.inWall (item : Item) : Bool := isWall m (coordinate item.px) (coordinate item.pz)

/-! ## The condition -/

/-- The place that the draws from `i` on give. -/
def place (i : ℕ) : Vector3 :=
  let draw i : ℤ := -offset self + (env.rand i : ℤ) % (2 * offset self + 1)
  ⟨Double.add self.pos.x (Double.div (draw i) 10000), self.pos.y,
    Double.add self.pos.z (Double.div (draw (i + 1)) 10000)⟩

/-- The place of the round after `t` failures, for an item whose draws begin at `i`, is no wall. -/
def Free (i t : ℕ) : Prop :=
  isWall m (place env self (i + 2 * t)).x (place env self (i + 2 * t)).z = false

instance (i t : ℕ) : Decidable (Free env m self i t) := inferInstanceAs (Decidable (_ = _))

/-- In units of the map that place is no wall. -/
def Stays (i t : ℕ) : Prop :=
  isWall m (coordinate (units (place env self (i + 2 * t)).x))
    (coordinate (units (place env self (i + 2 * t)).z)) = false

instance (i t : ℕ) : Decidable (Stays env m self i t) := inferInstanceAs (Decidable (_ = _))

/-- The first of the seven places that is no wall stays outside walls in units of the map, or the
last one does where all are walls. -/
def Lands (i : ℕ) : Prop :=
  (∃ t < 7, Free env m self i t ∧ (∀ t' < t, ¬ Free env m self i t') ∧ Stays env m self i t) ∨
    (∀ t < 7, ¬ Free env m self i t) ∧ Stays env m self i 6

/-- The round that ends the loop. -/
def lastRound (i : ℕ) : ℕ := ((List.range 7).find? fun t => Free env m self i t).getD 6

/-- Each of `n` items lands outside walls. -/
def AllLand : ℕ → ℕ → Prop
  | 0, _ => True
  | n + 1, i => Lands env m self i ∧ AllLand n (i + 2 * (lastRound env m self i + 1))

instance (i : ℕ) : Decidable (Lands env m self i) := inferInstanceAs (Decidable (_ ∨ _))

instance decidableAllLand : ∀ n i, Decidable (AllLand env m self n i)
  | 0, _ => isTrue trivial
  | n + 1, i =>
    have := decidableAllLand n (i + 2 * (lastRound env m self i + 1))
    inferInstanceAs (Decidable (_ ∧ _))

/-- As many items as the counts say. -/
def total (pkgs : IntTable) : ℕ := (pkgs.map fun e => e.2.toNat).sum

variable {env m self} {i t : ℕ}

/-! ## One item -/

theorem offset_pos (self : Monster) : 0 < offset self := by
  unfold offset
  split_ifs <;> norm_num

theorem offset_le (self : Monster) : offset self ≤ 20000 := by
  unfold offset
  split_ifs <;> norm_num

theorem random_offset (i : ℕ) : random env (-offset self) (offset self) i =
    some (-offset self + (env.rand i : ℤ) % (2 * offset self + 1), i + 1) := by
  have hpos := offset_pos self
  have hle := offset_le self
  have hwidth : offset self - -offset self + 1 = 2 * offset self + 1 := by ring
  rw [random, if_pos (by omega), hwidth]

theorem dropVec_eq (i : ℕ) : dropVec env self i = some (place env self i, i + 2) := by
  simp only [dropVec, bind, StateT.bind, random_offset, Option.bind_some, pure_apply]
  rfl

theorem retry_succ (fuel loop i : ℕ) : retry env m self (fuel + 1) loop i =
    if Free env m self i 0 then some ((place env self i, loop), i + 2)
    else if loop + 1 ≥ 7 then some ((place env self i, loop + 1), i + 2)
    else retry env m self fuel (loop + 1) (i + 2) := by
  rw [retry]
  simp only [bind, StateT.bind, dropVec_eq, Option.bind_some, Free, mul_zero, add_zero]
  split_ifs <;> rfl

/-- The loop ends in the first round whose place is no wall, or in the last one, and the counter
stays below 8. -/
theorem retry_spec (env : Env) (m : Map) (self : Monster) (fuel loop i : ℕ)
    (h : fuel + 1 + loop = 7) :
    ∃ t l, retry env m self (fuel + 1) loop i =
        some ((place env self (i + 2 * t), l), i + 2 * (t + 1)) ∧
      l ≤ 7 ∧ t ≤ fuel ∧ (∀ t' < t, ¬ Free env m self i t') ∧
      (Free env m self i t ∨ t = fuel) := by
  induction fuel generalizing loop i with
  | zero =>
      refine ⟨0, if Free env m self i 0 then loop else loop + 1, ?_, ?_, le_rfl, nofun,
        .inr rfl⟩
      · rw [retry_succ]
        split_ifs
        · rfl
        · rfl
        · omega
      · split_ifs <;> omega
  | succ fuel ih =>
      by_cases hfree : Free env m self i 0
      · refine ⟨0, loop, ?_, by omega, Nat.zero_le _, nofun, .inl hfree⟩
        rw [retry_succ, if_pos hfree]
        rfl
      · obtain ⟨t, l, hrun, hl, ht, hbefore, hlast⟩ := ih (loop + 1) (i + 2) (by omega)
        have hshift : ∀ t, i + 2 + 2 * t = i + 2 * (t + 1) := fun t => by ring
        refine ⟨t + 1, l, ?_, hl, by omega, fun t' ht' => ?_, ?_⟩
        · rw [retry_succ, if_neg hfree, if_neg (by omega), hrun, hshift]
          congr 2
          ring
        · cases t' with
          | zero => exact hfree
          | succ t' =>
              have hnot := hbefore t' (by omega)
              rwa [Free, hshift] at hnot
        · rw [Free, hshift] at hlast
          exact hlast.imp_right fun h => by omega

theorem lastRound_eq (h : ∀ t' < t, ¬ Free env m self i t') (ht : t ≤ 6)
    (hlast : Free env m self i t ∨ t = 6) : lastRound env m self i = t := by
  rw [lastRound]
  by_cases hfree : Free env m self i t
  · have hfind : ((List.range 7).find? fun t => Free env m self i t) = some t := by
      rw [List.find?_range_eq_some]
      simpa using ⟨hfree, by omega, h⟩
    rw [hfind, Option.getD_some]
  · obtain rfl := hlast.resolve_left hfree
    have hfind : ((List.range 7).find? fun t => Free env m self i t) = none := by
      rw [List.find?_eq_none]
      intro t ht
      rw [decide_eq_true_eq]
      obtain ht | rfl := Nat.lt_or_eq_of_le (Nat.lt_succ_iff.mp (List.mem_range.mp ht))
      · exact h t ht
      · exact hfree
    rw [hfind, Option.getD_none]

/-- The item whose draws begin at `i`. -/
def itemAt (env : Env) (m : Map) (self : Monster) (itemId : ℤ) (i : ℕ) : Item :=
  let v := place env self (i + 2 * lastRound env m self i)
  { itemId
    itemNum := 1
    belong := 0
    px := units v.x
    pz := units v.z }

theorem makeItem_eq (itemId : ℤ) (i : ℕ) : makeItem env m self itemId i =
    some (itemAt env m self itemId i, i + 2 * (lastRound env m self i + 1)) := by
  obtain ⟨t, l, hrun, hl, ht, hbefore, hlast⟩ :=
    retry_spec env m self 6 0 i rfl
  rw [makeItem]
  simp only [bind, StateT.bind, hrun, Option.bind_some, if_neg (by omega : ¬ l = 8)]
  rw [itemAt, lastRound_eq hbefore ht hlast]
  rfl

/-- An item is outside walls where the place that the loop ends with stays so. -/
theorem inWall_itemAt (itemId : ℤ) :
    (itemAt env m self itemId i).inWall m = false ↔ Lands env m self i := by
  have hstays : (itemAt env m self itemId i).inWall m = false ↔
      Stays env m self i (lastRound env m self i) := Iff.rfl
  rw [hstays]
  by_cases hfree : ∃ t < 7, Free env m self i t
  · obtain ⟨t, ⟨ht, hfirst⟩, hbefore⟩ : ∃ t, (t < 7 ∧ Free env m self i t) ∧
        ∀ t' < t, ¬ (t' < 7 ∧ Free env m self i t') :=
      ⟨Nat.find hfree, Nat.find_spec hfree, fun t' => Nat.find_min hfree⟩
    have hleast : ∀ t' < t, ¬ Free env m self i t' := fun t' hlt h =>
      hbefore t' hlt ⟨hlt.trans ht, h⟩
    rw [lastRound_eq hleast (by omega) (.inl hfirst)]
    constructor
    · exact fun h => .inl ⟨t, ht, hfirst, hleast, h⟩
    · rintro (⟨t', -, hfree', hleast', h⟩ | ⟨hnone, -⟩)
      · -- both are the first
        rcases lt_trichotomy t t' with hlt | rfl | hlt
        · exact absurd hfirst (hleast' t hlt)
        · exact h
        · exact absurd hfree' (hleast t' hlt)
      · exact absurd hfirst (hnone t ht)
  · push Not at hfree
    have hnone : ∀ t' < 6, ¬ Free env m self i t' := fun t' ht => hfree t' (by omega)
    rw [lastRound_eq hnone le_rfl (.inr rfl)]
    constructor
    · exact fun h => .inr ⟨hfree, h⟩
    · rintro (⟨t, ht, h, -⟩ | ⟨-, h⟩)
      · exact absurd h (hfree t ht)
      · exact h

/-! ## All items -/

/-- The ids of the items, in the order in which they are placed. -/
def wanted (pkgs : IntTable) : List ℤ := pkgs.flatMap fun e => List.replicate e.2.toNat e.1

theorem makeDrop_eq_mapM (pkgs : IntTable) :
    makeDrop env m self pkgs = (wanted (env.pairs pkgs)).mapM (makeItem env m self) := by
  rw [makeDrop, wanted]
  generalize env.pairs pkgs = t
  induction t with
  | nil => rfl
  | cons e t ih =>
      have hitems : (List.range e.2.toNat).mapM (fun _ => makeItem env m self e.1) =
          (List.replicate e.2.toNat e.1).mapM (makeItem env m self) := by
        rw [← List.length_range (n := e.2.toNat), ← List.map_const', List.mapM_map]
        simp [Function.comp_def]
      rw [List.flatMap_cons, List.mapM_append, ← ih, ← hitems]
      simp [List.mapM_cons]

/-- The items for a list of ids, whose draws begin at `i`. -/
theorem mapM_makeItem (env : Env) (m : Map) (self : Monster) (ids : List ℤ) (i : ℕ) :
    ∃ items i', ids.mapM (makeItem env m self) i = some (items, i') ∧
      items.map (fun item => item.itemId) = ids ∧
      ((∀ item ∈ items, item.inWall m = false) ↔ AllLand env m self ids.length i) := by
  induction ids generalizing i with
  | nil => exact ⟨[], i, rfl, rfl, iff_of_true nofun trivial⟩
  | cons id ids ih =>
      obtain ⟨items, i', hrun, hids, hwalls⟩ := ih (i + 2 * (lastRound env m self i + 1))
      refine ⟨itemAt env m self id i :: items, i', ?_, ?_, ?_⟩
      · rw [List.mapM_cons]
        simp only [bind, StateT.bind, makeItem_eq, Option.bind_some, hrun]
        rfl
      · rw [List.map_cons, hids]
        rfl
      · rw [List.forall_mem_cons, inWall_itemAt, hwalls]
        rfl

theorem wanted_length (pkgs : IntTable) : (wanted pkgs).length = total pkgs := by
  rw [wanted, List.length_flatMap, total]
  simp

theorem count_wanted {pkgs : IntTable} (h : pkgs.keys.Nodup) (id : ℤ) :
    (wanted pkgs).count id = ((pkgs.get id).getD 0).toNat := by
  induction pkgs with
  | nil => rfl
  | cons e pkgs ih =>
      obtain ⟨hfresh, hnodup⟩ := List.nodup_cons.mp h
      have ih := ih hnodup
      rw [wanted] at ih
      rw [wanted, List.flatMap_cons, List.count_append, ih, List.count_replicate,
        IntTable.get_cons]
      by_cases hid : e.1 = id
      · have hnone : IntTable.get pkgs id = none := IntTable.get_eq_none.mpr (hid ▸ hfresh)
        simp [hid, hnone]
      · simp [hid]

theorem toNat_get_iff {pkgs : IntTable} (h : pkgs.keys.Nodup) :
    (∀ id, (((pkgs.get id).getD 0).toNat : ℤ) = (pkgs.get id).getD 0) ↔
      ∀ e ∈ pkgs, 0 ≤ e.2 := by
  constructor
  · rintro hall e he
    have heq := hall e.1
    rw [(IntTable.get_eq_some h).mpr he, Option.getD_some] at heq
    omega
  · intro hall id
    cases hget : pkgs.get id with
    | none => rfl
    | some v =>
        have hnonneg := hall _ (IntTable.mem_of_get hget)
        rw [Option.getD_some]
        exact Int.toNat_of_nonneg hnonneg

/-- Every item is placed outside walls, and as many of each as the package has, if and only if each
lands outside walls and no count is negative. -/
theorem makeDrop_iff (env : Env) (m : Map) (self : Monster) (pkgs : IntTable) (i : ℕ)
    (h : pkgs.keys.Nodup) :
    ∃ items i', makeDrop env m self pkgs i = some (items, i') ∧
      (((∀ item ∈ items, item.inWall m = false) ∧
          ∀ id, ((items.countP fun item => item.itemId = id : ℕ) : ℤ) = (pkgs.get id).getD 0) ↔
        AllLand env m self (total pkgs) i ∧ ∀ e ∈ pkgs, 0 ≤ e.2) := by
  obtain ⟨items, i', hrun, hids, hwalls⟩ :=
    mapM_makeItem env m self (wanted (env.pairs pkgs)) i
  have hperm : (wanted (env.pairs pkgs)).Perm (wanted pkgs) := (env.pairs_perm pkgs).flatMap_right _
  have hcount : ∀ id, (items.countP fun item => item.itemId = id) =
      ((pkgs.get id).getD 0).toNat := by
    intro id
    rw [← count_wanted h, ← hperm.count_eq, ← hids, List.count, List.countP_map]
    exact List.countP_congr fun item _ => by simp
  refine ⟨items, i', by rw [makeDrop_eq_mapM, hrun], ?_⟩
  simp only [hcount]
  rw [hwalls, hperm.length_eq, wanted_length, toNat_get_iff h]

/-- One cell, with a monster on it. -/
def cell : Map := ⟨1, 1, #v[0]⟩

def monster : Monster := ⟨⟨1 / 20, 0, 1 / 20⟩, 0⟩

/-- Draws that give no offset. -/
def still : Env := { quiet with rand := fun _ => 8000 }

theorem makeDrop_iff_still : ∃ items i',
    makeDrop still cell monster [(7, 2)] 0 = some (items, i') ∧
      (∀ item ∈ items, item.inWall cell = false) ∧
      ∀ id, ((items.countP fun item => item.itemId = id : ℕ) : ℤ) =
        (IntTable.get [(7, 2)] id).getD 0 := by
  obtain ⟨items, i', hrun, hiff⟩ := makeDrop_iff still cell monster [(7, 2)] 0 (by decide)
  exact ⟨items, i', hrun, hiff.mpr (by decide +kernel)⟩

/-- Every draw is the least one: all seven places are outside the map, and so is the item. -/
theorem makeDrop_walled : isWall cell monster.pos.x monster.pos.z = false ∧
    ∃ items i', makeDrop quiet cell monster [(7, 1)] 0 = some (items, i') ∧
      ¬ ∀ item ∈ items, item.inWall cell = false := by
  have hrun : (makeDrop quiet cell monster [(7, 1)] 0).map
      (fun r => r.1.any (Item.inWall cell)) = some true := by decide +kernel
  refine ⟨by decide +kernel, ?_⟩
  obtain ⟨⟨items, i'⟩, hitems, hany⟩ := Option.map_eq_some_iff.mp hrun
  obtain ⟨item, hitem, hwall⟩ := List.any_eq_true.mp hany
  exact ⟨items, i', hitems, fun hall => absurd (hall item hitem) (by rw [hwall]; decide)⟩

end GameServer.Drops
