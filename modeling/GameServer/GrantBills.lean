import GameServer.GrantOrder

/-!
# The bills of a grant

A table hands out the numbers of its goods, in whatever order it is visited: the orders of a grant
only change the order of its bill, unless an item has no row.
-/

namespace GameServer.GrantOrder

open Goods Agent

variable (env : Env) (o : Orders) (opened : ℤ → IntTable)

/-! ## Numbers -/

section Numbers

def amountOf (g : Gathered) : Good → ℤ
  | .gold => g.gold
  | .money => g.money
  | .card dataId => (g.cards.get dataId).getD 0
  | .skill dataId => (g.skillMats.get dataId).getD 0
  | .opening _ => 0

/-- Lua integers. -/
def Ints (t : IntTable) : Prop := ∀ e ∈ t, wrap e.2 = e.2

variable {env o opened} {o' : Orders} {call call' : Option ℤ} {g : Gathered} {e : ℤ × ℤ}
  {t t' : IntTable} {good : Good} {k n v : ℤ}

theorem goodOf_ne_opening (k itemId : ℤ) : goodOf env k ≠ some (.opening itemId) := by
  unfold goodOf
  cases env.data.itemRepository k with
  | none => exact nofun
  | some item =>
      dsimp only
      split_ifs <;> exact nofun

variable (env opened) in
theorem amountOf_take (hv : wrap e.2 = e.2)
    (hg : ∀ good, wrap (amountOf g good) = amountOf g good) (good : Good) :
    amountOf (take env opened g e) good =
      wrap (amountOf g good + if goodOf env e.1 = some good then e.2 else 0) := by
  have hsame : goodOf env e.1 ≠ some good →
      amountOf g good = wrap (amountOf g good + if goodOf env e.1 = some good then e.2 else 0) :=
    fun h => by rw [if_neg h, add_zero, hg]
  unfold take
  cases hgood : goodOf env e.1 with
  | none =>
      rw [hgood] at hsame
      refine Eq.trans ?_ (hsame nofun)
      dsimp only
      split_ifs <;> rfl
  | some good' =>
      rw [hgood] at hsame
      cases good' with
      | gold =>
          cases good with
          | gold => exact congrArg wrap (congrArg (g.gold + ·) (if_pos rfl).symm)
          | _ => exact hsame nofun
      | money =>
          cases good with
          | money => exact congrArg wrap (congrArg (g.money + ·) (if_pos rfl).symm)
          | _ => exact hsame nofun
      | card dataId =>
          cases good with
          | card dataId' =>
              change ((g.cards.add dataId e.2).get dataId').getD 0 = _
              rw [IntTable.getD_add _ _ _ hv]
              by_cases h : dataId' = dataId
              · rw [if_pos h, h, if_pos rfl]
                rfl
              · have hne : some (Good.card dataId) ≠ some (.card dataId') := by
                  simpa using Ne.symm h
                rw [if_neg h]
                exact hsame hne
          | _ => exact hsame nofun
      | skill dataId =>
          cases good with
          | skill dataId' =>
              change ((g.skillMats.add dataId e.2).get dataId').getD 0 = _
              rw [IntTable.getD_add _ _ _ hv]
              by_cases h : dataId' = dataId
              · rw [if_pos h, h, if_pos rfl]
                rfl
              · have hne : some (Good.skill dataId) ≠ some (.skill dataId') := by
                  simpa using Ne.symm h
                rw [if_neg h]
                exact hsame hne
          | _ => exact hsame nofun
      | opening itemId => exact absurd hgood (goodOf_ne_opening e.1 itemId)

theorem amountOf_foldl (ht : Ints t) (hg : ∀ good, wrap (amountOf g good) = amountOf g good)
    (good : Good) : amountOf (t.foldl (take env opened) g) good =
      wrap (amountOf g good +
        (t.map fun e => if goodOf env e.1 = some good then e.2 else 0).sum) := by
  induction t generalizing g with
  | nil => exact ((hg good).symm.trans (congrArg wrap (add_zero _).symm))
  | cons e t ih =>
      have hfirst := amountOf_take env opened (ht e List.mem_cons_self) hg
      have hrest : Ints t := fun e he => ht e (List.mem_cons_of_mem _ he)
      rw [List.foldl_cons, ih hrest fun good => by rw [hfirst, wrap_wrap], hfirst, List.map_cons,
        List.sum_cons, ← add_assoc]
      exact Int.bmod_add_bmod

theorem amountOf_gathered (ht : Ints t) (good : Good) :
    amountOf (gathered env opened t) good = number env t good := by
  have hzero : ∀ good, amountOf {} good = 0 := fun good => by cases good <;> rfl
  rw [gathered, amountOf_foldl ht (fun good => by rw [hzero]; rfl), hzero, zero_add]
  rfl

theorem number_perm (h : t.Perm t') (good : Good) : number env t good = number env t' good :=
  congrArg wrap (h.map _).sum_eq

theorem nodup_foldl (hcards : g.cards.keys.Nodup) (hskills : g.skillMats.keys.Nodup) :
    (t.foldl (take env opened) g).cards.keys.Nodup ∧
      (t.foldl (take env opened) g).skillMats.keys.Nodup := by
  induction t generalizing g with
  | nil => exact ⟨hcards, hskills⟩
  | cons e t ih =>
      rw [List.foldl_cons]
      unfold take
      cases goodOf env e.1 with
      | none => split_ifs <;> exact ih hcards hskills
      | some good =>
          cases good with
          | gold | money => exact ih hcards hskills
          | card dataId => exact ih (IntTable.nodup_add _ _ hcards) hskills
          | skill dataId => exact ih hcards (IntTable.nodup_add _ _ hskills)
          | opening itemId => split_ifs <;> exact ih hcards hskills

variable (env opened) in
theorem nodup_gathered (t : IntTable) : (gathered env opened t).cards.keys.Nodup ∧
    (gathered env opened t).skillMats.keys.Nodup := nodup_foldl List.nodup_nil List.nodup_nil

theorem mem_entries (ht : t.keys.Nodup) : (k, v) ∈ entries t ↔ (t.get k).getD 0 = v ∧ 0 < v := by
  rw [entries, List.mem_filter, decide_eq_true_eq, ← IntTable.get_eq_some ht]
  refine and_congr_left fun hv => ?_
  cases t.get k with
  | none =>
      refine iff_of_false nofun fun h => ?_
      change 0 = v at h
      omega
  | some w => exact Option.some_inj

theorem entries_perm (h : t.Perm t') : (entries t).Perm (entries t') := h.filter _

/-- Tables with the same numbers have the same entries to grant. -/
theorem entries_perm_of_get (ht : t.keys.Nodup) (ht' : t'.keys.Nodup)
    (h : ∀ k, (t.get k).getD 0 = (t'.get k).getD 0) : (entries t).Perm (entries t') := by
  have hnodup : t.Nodup := List.Nodup.of_map _ ht
  have hnodup' : t'.Nodup := List.Nodup.of_map _ ht'
  refine (List.perm_ext_iff_of_nodup (hnodup.filter _) (hnodup'.filter _)).mpr fun ⟨k, v⟩ => ?_
  exact (mem_entries ht).trans (h k ▸ (mem_entries ht').symm)

theorem mem_handed (hcards : g.cards.keys.Nodup) (hskills : g.skillMats.keys.Nodup) :
    (good, n) ∈ handed o call g ↔ amountOf g good = n ∧ 0 < n := by
  have hcard : ∀ k, (k, n) ∈ entries (o.pairs call .cards g.cards) ↔
      amountOf g (.card k) = n ∧ 0 < n := fun k =>
    (entries_perm (o.perm call .cards g.cards)).mem_iff.trans (mem_entries hcards)
  have hskill : ∀ k, (k, n) ∈ entries (o.pairs call .skillMats g.skillMats) ↔
      amountOf g (.skill k) = n ∧ 0 < n := fun k =>
    (entries_perm (o.perm call .skillMats g.skillMats)).mem_iff.trans (mem_entries hskills)
  have hsingle : ∀ (good' : Good) (x : ℤ), (good, n) ∈ (if x > 0 then [(good', x)] else []) ↔
      good = good' ∧ x = n ∧ 0 < n := by
    intro good' x
    by_cases hx : x > 0
    · rw [if_pos hx, List.mem_singleton, Prod.mk.injEq]
      constructor <;> rintro ⟨rfl, h⟩
      · exact ⟨rfl, h.symm, h ▸ hx⟩
      · exact ⟨rfl, h.1.symm⟩
    · rw [if_neg hx]
      refine iff_of_false List.not_mem_nil fun h => hx ?_
      obtain ⟨-, rfl, hpos⟩ := h
      exact hpos
  simp only [handed, List.mem_append, hsingle, List.mem_map, Prod.mk.injEq]
  cases good with
  | gold => simp [amountOf]
  | money => simp [amountOf]
  | card k => simp [← hcard]
  | skill k => simp [← hskill]
  | opening k =>
      simp only [amountOf]
      refine iff_of_false (by simp) fun h => ?_
      omega

/-- The bill of a table lists the goods of which it has a positive number. -/
theorem mem_tableBill (ht : Ints t) : (good, n) ∈ tableBill env o opened call t ↔
    Known env t ∧ number env t good = n ∧ 0 < n := by
  have hperm := o.perm call .items t
  have hints : Ints (o.pairs call .items t) := fun e he => ht e (hperm.mem_iff.mp he)
  rw [tableBill]
  by_cases h : Known env t
  · obtain ⟨hcards, hskills⟩ := nodup_gathered env opened (o.pairs call .items t)
    rw [if_pos h, mem_handed hcards hskills, amountOf_gathered hints, number_perm hperm]
    exact (and_iff_right h).symm
  · rw [if_neg h]
    exact iff_of_false List.not_mem_nil fun hmem => h hmem.1

/-- The orders of a call change the order of its bill. -/
theorem tableBill_perm (ht : Ints t) :
    (tableBill env o opened call t).Perm (tableBill env o' opened call' t) := by
  have hperm := o.perm call .items t
  have hperm' := o'.perm call' .items t
  have hints : Ints (o.pairs call .items t) := fun e he => ht e (hperm.mem_iff.mp he)
  have hints' : Ints (o'.pairs call' .items t) := fun e he => ht e (hperm'.mem_iff.mp he)
  have hamount : ∀ good, amountOf (gathered env opened (o.pairs call .items t)) good =
      amountOf (gathered env opened (o'.pairs call' .items t)) good := fun good => by
    rw [amountOf_gathered hints, amountOf_gathered hints', number_perm (hperm.trans hperm'.symm)]
  obtain ⟨hcards, hskills⟩ := nodup_gathered env opened (o.pairs call .items t)
  obtain ⟨hcards', hskills'⟩ := nodup_gathered env opened (o'.pairs call' .items t)
  have hcard := entries_perm_of_get hcards hcards' fun k => hamount (.card k)
  have hskill := entries_perm_of_get hskills hskills' fun k => hamount (.skill k)
  have hgold : (gathered env opened (o.pairs call .items t)).gold = _ := hamount .gold
  have hmoney : (gathered env opened (o.pairs call .items t)).money = _ := hamount .money
  unfold tableBill
  split_ifs
  · unfold handed
    rw [hgold, hmoney]
    refine List.Perm.append (List.Perm.append (.refl _) (List.Perm.map _ ?_)) (List.Perm.map _ ?_)
    · exact ((entries_perm (o.perm ..)).trans hcard).trans (entries_perm (o'.perm ..)).symm
    · exact ((entries_perm (o.perm ..)).trans hskill).trans (entries_perm (o'.perm ..)).symm
  · exact .refl _

end Numbers

/-! ## The bill of a grant -/

section Whole

/-- A table hands out a good. -/
def Hands (t : IntTable) (good : Good) : Prop := Known env t ∧ 0 < number env t good

/-- Every table in the order of its entries. -/
def Orders.straight : Orders where
  pairs _ _ t := t
  perm _ _ t := .refl t

/-- What a grant hands out when it is not stopped by an item without a row, and of which it hands
out the bills of some packages otherwise. -/
def whole (items : IntTable) : Bill :=
  packageBills env .straight opened (packages env items) ++
    tableBill env .straight opened none items

variable {env o opened} {o' : Orders} {call : Option ℤ} {items t : IntTable} {ks ks' : List ℤ}
  {good : Good} {n : ℤ}

theorem number_lt (t : IntTable) (good : Good) : number env t good < 2 ^ 63 :=
  Int.bmod_lt (by decide)

theorem mem_packageBills (h : ∀ k, Ints (opened k)) :
    (good, n) ∈ packageBills env o opened ks ↔
      ∃ k ∈ ks, Hands env (opened k) good ∧ number env (opened k) good = n := by
  rw [packageBills, List.mem_flatMap]
  refine exists_congr fun k => and_congr_right fun _ => (mem_tableBill (h k)).trans ?_
  constructor
  · rintro ⟨hknown, rfl, hpos⟩
    exact ⟨⟨hknown, hpos⟩, rfl⟩
  · rintro ⟨⟨hknown, hpos⟩, rfl⟩
    exact ⟨hknown, rfl, hpos⟩

theorem packageBills_perm (h : ∀ k, Ints (opened k)) (hperm : ks.Perm ks') :
    (packageBills env o opened ks).Perm (packageBills env o' opened ks') :=
  hperm.flatMap fun k _ => tableBill_perm (h k)

theorem packages_perm (h : t.Perm t') : (packages env t).Perm (packages env t') :=
  (h.map Prod.fst).filter _

theorem billOf_perm (hitems : Ints items) (h : ∀ k, Ints (opened k)) (hknown : Known env items) :
    (billOf env o opened items).Perm (whole env opened items) := by
  have hperm := o.perm none .items items
  rw [billOf, (hknown.perm hperm.symm).visited]
  exact (packageBills_perm h (packages_perm hperm)).append (tableBill_perm hitems)

/-- An item without a row leaves some of the packages. -/
theorem billOf_of_unknown (hunknown : ¬ Known env items) : billOf env o opened items =
    packageBills env o opened (packages env (visited env (o.pairs none .items items))) := by
  rw [billOf, tableBill, if_neg hunknown, List.append_nil]

theorem numbers_whole (hitems : Ints items) (h : ∀ k, Ints (opened k)) :
    ∀ e ∈ whole env opened items, 0 < e.2 ∧ e.2 < 2 ^ 63 := by
  rintro ⟨good, n⟩ he
  rcases List.mem_append.mp he with he | he
  · obtain ⟨k, -, ⟨-, hpos⟩, rfl⟩ := (mem_packageBills h).mp he
    exact ⟨hpos, number_lt (opened k) good⟩
  · obtain ⟨-, rfl, hpos⟩ := (mem_tableBill hitems).mp he
    exact ⟨hpos, number_lt items good⟩

/-- In every order a grant hands out a part of the whole. -/
theorem billOf_subperm (hitems : Ints items) (h : ∀ k, Ints (opened k)) :
    (billOf env o opened items).Subperm (whole env opened items) := by
  by_cases hknown : Known env items
  · exact (billOf_perm hitems h hknown).subperm
  · have hvisited : (packages env (visited env (o.pairs none .items items))).Sublist
        (packages env (o.pairs none .items items)) :=
      ((List.takeWhile_sublist _).map Prod.fst).filter _
    rw [billOf_of_unknown hknown]
    refine List.Subperm.trans ?_ (List.sublist_append_left _ _).subperm
    refine List.Subperm.trans ?_
      (packageBills_perm (o := o) h (packages_perm (o.perm none .items items))).subperm
    exact (hvisited.flatMap _).subperm

end Whole

end GameServer.GrantOrder
