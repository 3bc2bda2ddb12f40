import GameServer.IntTables
import GameServer.RecordRoundTrip
import GameServer.Weighted

/-!
# The draws of a package

The loader of `dropPackage` sums up the rates once, `openPackage` sums up those of the rows for the
level in a copy at each draw. A row is drawn by as many of the equally likely numbers as its own
rate says, and the items returned are what the draws gave, summed up item by item.
-/

namespace GameServer.PackageDraws

open Goods
open Records (tonumber)

/-! ## Texts -/

/-- `string.split(s, delim)`: the runs of other characters. -/
def split (delim : Char) (s : List Char) : List (List Char) :=
  (s.splitOn delim).filter fun piece => piece ≠ []

/-- `tonumber(str2[1])` and `tonumber(str2[2])` -/
def readPair (v : List Char) : Option (ℤ × ℤ) :=
  match split ',' v with
  | a :: b :: _ => do return (← tonumber (String.ofList a), ← tonumber (String.ofList b))
  | _ => none

/-- The pairs of the text; an error when a number is missing. -/
def readPackage (strPkg : String) : Option (List (ℤ × ℤ)) :=
  (split ';' strPkg.toList).mapM readPair

def openText (env : Env) (strPkg : String) (userLv : ℤ) : Draw IntTable :=
  match readPackage strPkg with
  | none => raise
  | some szRetain3 => openPackage env szRetain3 userLv

def pairText (e : ℤ × ℤ) : List Char := e.1.repr.toList ++ ',' :: e.2.repr.toList

/-- Ids with counts as a text. -/
def packageText (l : List (ℤ × ℤ)) : String := String.ofList ([';'].intercalate (l.map pairText))

theorem mem_repr {n : ℤ} {c : Char} (hc : c ∈ n.repr.toList) : c = '-' ∨ c.isDigit = true := by
  rw [Int.repr_eq_if] at hc
  split_ifs at hc with hneg
  · rw [Nat.toList_repr] at hc
    exact .inr (Nat.isDigit_of_mem_toDigits (by decide) (by decide) hc)
  · rw [String.toList_append, Nat.toList_repr, List.mem_append] at hc
    refine hc.imp (fun h => ?_) fun h => Nat.isDigit_of_mem_toDigits (by decide) (by decide) h
    exact List.mem_singleton.mp h

theorem repr_ne_empty (n : ℤ) : n.repr ≠ "" := by
  rw [Int.repr_eq_if]
  split_ifs
  · exact Nat.repr_ne_empty
  · simp

theorem comma_notMem_repr (n : ℤ) : ',' ∉ n.repr.toList := fun h =>
  (mem_repr h).elim (by decide) (by decide)

theorem semicolon_notMem_repr (n : ℤ) : ';' ∉ n.repr.toList := fun h =>
  (mem_repr h).elim (by decide) (by decide)

theorem semicolon_notMem_pairText (e : ℤ × ℤ) : ';' ∉ pairText e := by
  simp [pairText, semicolon_notMem_repr]

theorem split_intercalate {delim : Char} {pieces : List (List Char)}
    (hfree : ∀ piece ∈ pieces, delim ∉ piece) (hne : ∀ piece ∈ pieces, piece ≠ []) :
    split delim ([delim].intercalate pieces) = pieces := by
  by_cases hnil : pieces = []
  · subst hnil
    rfl
  · rw [split, List.splitOn_intercalate _ hfree hnil, List.filter_eq_self]
    exact fun piece hpiece => decide_eq_true (hne piece hpiece)

theorem readPair_pairText (e : ℤ × ℤ) : readPair (pairText e) = some e := by
  have hsplit : split ',' ([','].intercalate [e.1.repr.toList, e.2.repr.toList]) =
      [e.1.repr.toList, e.2.repr.toList] := by
    refine split_intercalate ?_ ?_
    · simp [comma_notMem_repr]
    · simp [repr_ne_empty]
  have htext : pairText e = [','].intercalate [e.1.repr.toList, e.2.repr.toList] := by
    simp [pairText]
  rw [readPair, htext, hsplit]
  simp [Records.tonumber_repr]

/-- What is written with commas and semicolons is read back. -/
theorem readPackage_packageText (l : List (ℤ × ℤ)) : readPackage (packageText l) = some l := by
  have hsplit : split ';' (packageText l).toList = l.map pairText := by
    rw [packageText, String.toList_ofList]
    apply split_intercalate
    · intro piece hpiece
      obtain ⟨e, -, rfl⟩ := List.mem_map.mp hpiece
      exact semicolon_notMem_pairText e
    · intro piece hpiece
      obtain ⟨e, -, rfl⟩ := List.mem_map.mp hpiece
      exact List.append_ne_nil_of_right_ne_nil _ (List.cons_ne_nil _ _)
  rw [readPackage, hsplit, List.mapM_map]
  clear hsplit
  induction l with
  | nil => rfl
  | cons e l ih =>
      rw [List.mapM_cons, Function.comp_apply, readPair_pairText, ih]
      rfl

/-! ## Tables -/

/-- The loop at the end of the loader. -/
def cumulate (tr : ℤ) : List DropRow → List DropRow
  | [] => []
  | q :: rest =>
      { q with n32Rate := wrap (tr + q.n32Rate) } :: cumulate (wrap (tr + q.n32Rate)) rest

/-- The rows of an id, as the file has them, behind the loader. -/
def load (rows : List DropRow) : DropPackage where
  rows := cumulate 0 rows
  totalRate := rows.foldl (fun tr q => wrap (tr + q.n32Rate)) 0

/-- The arena levels of the row contain the level. -/
def Opens (userLv : ℤ) (q : ItemDropRow) : Prop :=
  q.n32ArenaLvUpLimit ≤ userLv ∧ q.n32ArenaLvLwLimit ≥ userLv

instance (userLv : ℤ) (q : ItemDropRow) : Decidable (Opens userLv q) :=
  inferInstanceAs (Decidable (_ ∧ _))

def kept (userLv : ℤ) (rows : List ItemDropRow) : List ItemDropRow :=
  rows.filter fun q => Opens userLv q

/-- The row of `dropPackage` that the number `rd` draws. -/
def chosenDrop (rows : List DropRow) (rd : ℤ) : Option ℕ :=
  (load rows).rows.findIdx? fun q => q.n32Rate ≥ rd

/-- The row of `itemDropPackage` that the number `rd` draws, among those kept. -/
def chosenItem (userLv : ℤ) (rows : List ItemDropRow) (rd : ℤ) : Option ℕ :=
  (filterdrops userLv 0 rows).findIdx? fun q => q.n32Rate ≥ rd

/-- Positive rates and a range of numbers that `math.random` takes; both are Lua integers. -/
structure Fair (rate min max : ℤ) : Prop where
  rate_pos : 0 < rate
  min_le_max : min ≤ max
  min_ge : -2 ^ 63 ≤ min
  max_lt : max < 2 ^ 63
  width_lt : max - min < 2 ^ 63

structure WellFormed (drop : ℤ → Option (List DropRow))
    (itemDrop : ℤ → Option (List ItemDropRow)) : Prop where
  drop_ne_nil : ∀ k rows, drop k = some rows → rows ≠ []
  drop_fair : ∀ k rows, drop k = some rows → ∀ q ∈ rows, Fair q.n32Rate q.n32MinNum q.n32MaxNum
  drop_total : ∀ k rows, drop k = some rows → (rows.map (·.n32Rate)).sum < 2 ^ 63
  drop_present : ∀ k rows, drop k = some rows → ∀ q ∈ rows, (itemDrop q.n32DropId).isSome
  item_fair : ∀ v rows, itemDrop v = some rows →
    ∀ q ∈ rows, Fair q.n32Rate q.n32MinNum q.n32MaxNum
  item_total : ∀ v rows, itemDrop v = some rows → (rows.map (·.n32Rate)).sum < 2 ^ 63

/-! ## One draw -/

section Rates

open Weighted (sums)

variable {tr userLv rd : ℤ} {ws : List ℤ}

/-- The sums as Lua integers. -/
def wrapSums (tr : ℤ) : List ℤ → List ℤ
  | [] => []
  | w :: ws => wrap (tr + w) :: wrapSums (wrap (tr + w)) ws

theorem wrapSums_eq (hpos : ∀ w ∈ ws, 0 ≤ w) (htr : 0 ≤ tr) (hlt : tr + ws.sum < 2 ^ 63) :
    wrapSums tr ws = sums tr ws := by
  induction ws generalizing tr with
  | nil => rfl
  | cons w ws ih =>
      rw [List.sum_cons] at hlt
      have hw := hpos w List.mem_cons_self
      have hrest : ∀ w' ∈ ws, 0 ≤ w' := fun w' hw' => hpos w' (List.mem_cons_of_mem w hw')
      have hsum : 0 ≤ ws.sum := List.sum_nonneg hrest
      have hwrap : wrap (tr + w) = tr + w := wrap_of_range (by omega) (by omega)
      rw [wrapSums, sums, hwrap, ih hrest (by omega) (by omega)]

theorem rates_cumulate (tr : ℤ) (rows : List DropRow) :
    (cumulate tr rows).map (·.n32Rate) = wrapSums tr (rows.map (·.n32Rate)) := by
  induction rows generalizing tr with
  | nil => rfl
  | cons q rest ih => rw [cumulate, List.map_cons, List.map_cons, wrapSums, ih]

theorem foldl_rates (tr : ℤ) (rows : List DropRow) :
    rows.foldl (fun tr q => wrap (tr + q.n32Rate)) tr =
      (wrapSums tr (rows.map (·.n32Rate))).getLastD tr := by
  induction rows generalizing tr with
  | nil => rfl
  | cons q rest ih => rw [List.foldl_cons, ih, List.map_cons, wrapSums, List.getLastD_cons]

theorem filterdrops_cons_of_opens {q : ItemDropRow} (h : Opens userLv q) (tr : ℤ)
    (rest : List ItemDropRow) : filterdrops userLv tr (q :: rest) =
      { q with n32Rate := wrap (tr + q.n32Rate) } ::
        filterdrops userLv (wrap (tr + q.n32Rate)) rest :=
  if_pos h

theorem filterdrops_cons_of_not_opens {q : ItemDropRow} (h : ¬ Opens userLv q) (tr : ℤ)
    (rest : List ItemDropRow) : filterdrops userLv tr (q :: rest) = filterdrops userLv tr rest :=
  if_neg h

theorem kept_cons_of_opens {q : ItemDropRow} (h : Opens userLv q) (rest : List ItemDropRow) :
    kept userLv (q :: rest) = q :: kept userLv rest :=
  List.filter_cons_of_pos (decide_eq_true h)

theorem kept_cons_of_not_opens {q : ItemDropRow} (h : ¬ Opens userLv q)
    (rest : List ItemDropRow) : kept userLv (q :: rest) = kept userLv rest :=
  List.filter_cons_of_neg (by simpa using h)

theorem rates_filterdrops (userLv tr : ℤ) (rows : List ItemDropRow) :
    (filterdrops userLv tr rows).map (·.n32Rate) =
      wrapSums tr ((kept userLv rows).map (·.n32Rate)) := by
  induction rows generalizing tr with
  | nil => rfl
  | cons q rest ih =>
      by_cases hopen : Opens userLv q
      · rw [filterdrops_cons_of_opens hopen, kept_cons_of_opens hopen, List.map_cons,
          List.map_cons, wrapSums, ih]
      · rw [filterdrops_cons_of_not_opens hopen, kept_cons_of_not_opens hopen, ih]

theorem totalRate_filterdrops (userLv : ℤ) (rows : List ItemDropRow) :
    totalRate (filterdrops userLv 0 rows) =
      (wrapSums 0 ((kept userLv rows).map (·.n32Rate))).getLastD 0 := by
  rw [totalRate, ← List.getLast?_map, rates_filterdrops, List.getLastD_eq_getLast?]

/-- A copy differs from the file in the rate alone. -/
theorem getElem?_cumulate (tr : ℤ) (rows : List DropRow) (j : ℕ) :
    (cumulate tr rows)[j]?.map (fun q => (q.n32DropId, q.n32MinNum, q.n32MaxNum)) =
      rows[j]?.map fun q => (q.n32DropId, q.n32MinNum, q.n32MaxNum) := by
  induction rows generalizing tr j with
  | nil => rfl
  | cons q rest ih =>
      cases j with
      | zero => rfl
      | succ j => exact ih _ j

theorem getElem?_filterdrops (userLv tr : ℤ) (rows : List ItemDropRow) (j : ℕ) :
    (filterdrops userLv tr rows)[j]?.map (fun q => (q.n32ItemId, q.n32MinNum, q.n32MaxNum)) =
      (kept userLv rows)[j]?.map fun q => (q.n32ItemId, q.n32MinNum, q.n32MaxNum) := by
  induction rows generalizing tr j with
  | nil => rfl
  | cons q rest ih =>
      by_cases hopen : Opens userLv q
      · rw [filterdrops_cons_of_opens hopen, kept_cons_of_opens hopen]
        cases j with
        | zero => rfl
        | succ j => exact ih _ j
      · rw [filterdrops_cons_of_not_opens hopen, kept_cons_of_not_opens hopen]
        exact ih tr j

end Rates

/-! ## The laws of a draw -/

section Laws

variable {drop : ℤ → Option (List DropRow)} {itemDrop : ℤ → Option (List ItemDropRow)}
  {k v userLv : ℤ} {rows : List DropRow} {items : List ItemDropRow}

theorem WellFormed.drop_rates (hw : WellFormed drop itemDrop) (hk : drop k = some rows) :
    ∀ w ∈ rows.map (·.n32Rate), 0 ≤ w := by
  intro w hmem
  obtain ⟨q, hq, rfl⟩ := List.mem_map.mp hmem
  exact (hw.drop_fair k rows hk q hq).rate_pos.le

variable (userLv) in
theorem WellFormed.kept_rates (hw : WellFormed drop itemDrop) (hv : itemDrop v = some items) :
    ∀ w ∈ (kept userLv items).map (·.n32Rate), 0 ≤ w := by
  intro w hmem
  obtain ⟨q, hq, rfl⟩ := List.mem_map.mp hmem
  exact (hw.item_fair v items hv q (List.mem_of_mem_filter hq)).rate_pos.le

theorem WellFormed.kept_total (hw : WellFormed drop itemDrop) (hv : itemDrop v = some items) :
    ((kept userLv items).map (·.n32Rate)).sum < 2 ^ 63 := by
  have hsub : ((kept userLv items).map (·.n32Rate)).Sublist (items.map (·.n32Rate)) :=
    List.Sublist.map _ List.filter_sublist
  refine lt_of_le_of_lt (hsub.sum_le_sum fun w hmem => ?_) (hw.item_total v items hv)
  obtain ⟨q, hq, rfl⟩ := List.mem_map.mp hmem
  exact (hw.item_fair v items hv q hq).rate_pos.le

theorem law_drop (hw : WellFormed drop itemDrop) (hk : drop k = some rows) :
    Weighted.Law (rows.map (·.n32Rate)) (load rows).totalRate (chosenDrop rows) := by
  have hpos := hw.drop_rates hk
  have hsums : wrapSums 0 (rows.map (·.n32Rate)) = Weighted.sums 0 (rows.map (·.n32Rate)) :=
    wrapSums_eq hpos le_rfl (by rw [zero_add]; exact hw.drop_total k rows hk)
  have htotal : (load rows).totalRate = (rows.map (·.n32Rate)).sum := by
    rw [load, foldl_rates, hsums, Weighted.getLastD_sums, zero_add]
  have hchosen : chosenDrop rows = Weighted.pick (rows.map (·.n32Rate)) :=
    funext (Weighted.findIdx?_eq_pick ((rates_cumulate 0 rows).trans hsums))
  rw [htotal, hchosen]
  exact Weighted.law_pick hpos

theorem law_item (hw : WellFormed drop itemDrop) (hv : itemDrop v = some items) (userLv : ℤ) :
    Weighted.Law ((kept userLv items).map (·.n32Rate)) (totalRate (filterdrops userLv 0 items))
      (chosenItem userLv items) := by
  have hpos := hw.kept_rates userLv hv
  have hsums : wrapSums 0 ((kept userLv items).map (·.n32Rate)) =
      Weighted.sums 0 ((kept userLv items).map (·.n32Rate)) :=
    wrapSums_eq hpos le_rfl (by rw [zero_add]; exact hw.kept_total hv)
  have htotal : totalRate (filterdrops userLv 0 items) =
      ((kept userLv items).map (·.n32Rate)).sum := by
    rw [totalRate_filterdrops, hsums, Weighted.getLastD_sums, zero_add]
  have hchosen : chosenItem userLv items = Weighted.pick ((kept userLv items).map (·.n32Rate)) :=
    funext (Weighted.findIdx?_eq_pick ((rates_filterdrops userLv 0 items).trans hsums))
  rw [htotal, hchosen]
  exact Weighted.law_pick hpos

end Laws

/-! ## Runs -/

/-- The number that `math.random(1, total)` gives. -/
def drawn (env : Env) (total : ℤ) (i : ℕ) : ℤ := 1 + (env.rand i : ℤ) % total

/-- One round over a drop: as many draws as its first row says, each by a number of its own. -/
def Round (env : Env) (rows : List DropRow) (ids : List ℤ) : Prop :=
  ∃ first num, rows.head? = some first ∧ first.n32MinNum ≤ num ∧ num ≤ first.n32MaxNum ∧
    ids.length = num.toNat ∧ ∀ id ∈ ids, ∃ i j q,
      chosenDrop rows (drawn env (load rows).totalRate i) = some j ∧ rows[j]? = some q ∧
        id = q.n32DropId

/-- What one drop gives: nothing when no row is for the level. -/
def Gained (env : Env) (userLv : ℤ) (rows : List ItemDropRow) : Option (ℤ × ℤ) → Prop
  | none => kept userLv rows = []
  | some (itemId, num) => ∃ i j q,
      chosenItem userLv rows (drawn env (totalRate (filterdrops userLv 0 rows)) i) = some j ∧
        (kept userLv rows)[j]? = some q ∧ itemId = q.n32ItemId ∧
        q.n32MinNum ≤ num ∧ num ≤ q.n32MaxNum

/-- The table of items after one drop. -/
def addGain (t : IntTable) : Option (ℤ × ℤ) → IntTable
  | none => t
  | some e => t.add e.1 e.2

/-- The numbers of an item among the gains. -/
def numsOf (gains : List (Option (ℤ × ℤ))) (id : ℤ) : List ℤ :=
  gains.filterMap fun gain => gain.bind fun e => if e.1 = id then some e.2 else none

/-- A whole package: the rounds over its drops, the gain of each drop, and the items, each with the
sum of its numbers as a Lua integer. -/
def Opened (env : Env) (drop : ℤ → Option (List DropRow))
    (itemDrop : ℤ → Option (List ItemDropRow)) (userLv : ℤ) (l : List (ℤ × ℤ))
    (items : IntTable) : Prop :=
  ∃ (rounds : List (ℤ × List ℤ)) (gains : List (Option (ℤ × ℤ))),
    (rounds.map Prod.fst).Perm (l.flatMap fun e => List.replicate e.2.toNat e.1) ∧
    (∀ r ∈ rounds, ∃ rows, drop r.1 = some rows ∧ Round env rows r.2) ∧
    List.Forall₂ (fun id gain => ∃ rows, itemDrop id = some rows ∧ Gained env userLv rows gain)
      (rounds.flatMap Prod.snd) gains ∧
    ∀ id, items.get id =
      if numsOf gains id = [] then none else some (wrap (numsOf gains id).sum)

section Runs

variable {env : Env} {drop : ℤ → Option (List DropRow)}
  {itemDrop : ℤ → Option (List ItemDropRow)} {k v userLv : ℤ} {rows : List DropRow}
  {items : List ItemDropRow}

theorem exists_left {α β : Type} {P : α → β → Prop} {l : List α} {r : List β} {b : β}
    (h : List.Forall₂ P l r) (hb : b ∈ r) : ∃ a ∈ l, P a b := by
  induction h with
  | nil => cases hb
  | cons hP _ ih =>
      rcases List.mem_cons.mp hb with rfl | hb
      · exact ⟨_, List.mem_cons_self, hP⟩
      · obtain ⟨a, ha, hPa⟩ := ih hb
        exact ⟨a, List.mem_cons_of_mem _ ha, hPa⟩

theorem drawn_mem (env : Env) {total : ℤ} (h : 1 ≤ total) (i : ℕ) :
    drawn env total i ∈ Finset.Icc 1 total := by
  have hnonneg := Int.emod_nonneg (env.rand i) (b := total) (by omega)
  have hlt := Int.emod_lt_of_pos (env.rand i) (b := total) (by omega)
  rw [Finset.mem_Icc, drawn]
  omega

theorem random_one {total : ℤ} (h : 1 ≤ total) (i : ℕ) :
    random env 1 total i = some (drawn env total i, i + 1) := by
  rw [random_eq h (Or.inl one_pos.le), sub_add_cancel, drawn]

theorem WellFormed.one_le_total (hw : WellFormed drop itemDrop) (hk : drop k = some rows) :
    1 ≤ (load rows).totalRate := by
  obtain ⟨q, rest, rfl⟩ := List.exists_cons_of_ne_nil (hw.drop_ne_nil k rows hk)
  have hq := (hw.drop_fair k _ hk q List.mem_cons_self).rate_pos
  have hrest : 0 ≤ (rest.map (·.n32Rate)).sum := List.sum_nonneg fun w hmem =>
    hw.drop_rates hk w (List.mem_cons_of_mem _ hmem)
  rw [(law_drop hw hk).total_eq, List.map_cons, List.sum_cons]
  omega

variable (env) in
/-- The draw is the row that the law speaks of. -/
theorem drawDrop_eq (hw : WellFormed drop itemDrop) (hk : drop k = some rows) (i : ℕ) :
    ∃ j q, chosenDrop rows (drawn env (load rows).totalRate i) = some j ∧ rows[j]? = some q ∧
      drawDrop env (load rows) i = some (q.n32DropId, i + 1) := by
  have htotal := hw.one_le_total hk
  obtain ⟨j, hj, hchosen⟩ := (law_drop hw hk).chooses _ (drawn_mem env htotal i)
  rw [List.length_map] at hj
  refine ⟨j, rows[j], hchosen, List.getElem?_eq_getElem hj, ?_⟩
  have hcopy := getElem?_cumulate 0 rows j
  rw [List.getElem?_eq_getElem hj, Option.map_some, Option.map_eq_some_iff] at hcopy
  obtain ⟨q, hq, hfields⟩ := hcopy
  have hfind : (load rows).rows.find?
      (fun q => q.n32Rate ≥ drawn env (load rows).totalRate i) = some q := by
    rw [List.find?_eq_bind_findIdx?_getElem?]
    change (chosenDrop rows _).bind _ = _
    rw [hchosen]
    exact hq
  rw [drawDrop, draw_bind, random_one htotal, Option.bind_some]
  dsimp only
  rw [hfind, (Prod.mk.inj hfields).1.symm]
  rfl

theorem drawDrops_spec (hdrop : env.data.dropPackage = fun k => (drop k).map load)
    (hw : WellFormed drop itemDrop) (hk : drop k = some rows) (i : ℕ) :
    ∃ ids i', drawDrops env k i = some (ids, i') ∧ Round env rows ids := by
  obtain ⟨first, rest, hrows⟩ := List.exists_cons_of_ne_nil (hw.drop_ne_nil k rows hk)
  have hfair := hw.drop_fair k rows hk first (hrows ▸ List.mem_cons_self)
  obtain ⟨num, hnum, hmin, hmax⟩ := random_spec env hfair.min_le_max hfair.width_lt i
  obtain ⟨ids, i', hids, hall⟩ := mapM_spec (l := List.range num.toNat)
    (f := fun _ => drawDrop env (load rows))
    (P := fun _ id => ∃ i j q, chosenDrop rows (drawn env (load rows).totalRate i) = some j ∧
      rows[j]? = some q ∧ id = q.n32DropId)
    (fun _ _ i => by
      obtain ⟨j, q, hchosen, hq, hdraw⟩ := drawDrop_eq env hw hk i
      exact ⟨_, _, hdraw, i, j, q, hchosen, hq, rfl⟩) (i + 1)
  refine ⟨ids, i', ?_, first, num, by rw [hrows]; rfl, hmin, hmax, ?_, ?_⟩
  · have hcopy : (load rows).rows =
        { first with n32Rate := wrap (0 + first.n32Rate) } ::
          cumulate (wrap (0 + first.n32Rate)) rest := by
      rw [hrows]
      rfl
    have hload : env.data.dropPackage k = some (load rows) := by
      rw [hdrop]
      exact congrArg (Option.map load) hk
    simp only [drawDrops, hload, hcopy, draw_bind, hnum, Option.bind_some, hids]
  · rw [← hall.length_eq, List.length_range]
  · intro id hid
    obtain ⟨_, _, h⟩ := exists_left hall hid
    exact h

variable (userLv) in
/-- A drop gives a number of an item of the row that the law speaks of, or nothing. -/
theorem drawItem_spec (hitem : env.data.itemDropPackage = itemDrop)
    (hw : WellFormed drop itemDrop) (hv : itemDrop v = some items) (t : IntTable) (i : ℕ) :
    ∃ gain i', drawItem env userLv t v i = some (addGain t gain, i') ∧
      Gained env userLv items gain ∧ ∀ e ∈ gain, wrap e.2 = e.2 := by
  have hlaw := law_item hw hv userLv
  have hrow : env.data.itemDropPackage v = some items := hitem ▸ hv
  by_cases htotal : totalRate (filterdrops userLv 0 items) ≥ 1
  · obtain ⟨j, hj, hchosen⟩ := hlaw.chooses _ (drawn_mem env htotal i)
    rw [List.length_map] at hj
    have hq := List.getElem?_eq_getElem hj
    have hcopy := getElem?_filterdrops userLv 0 items j
    rw [hq, Option.map_some, Option.map_eq_some_iff] at hcopy
    obtain ⟨r, hr, hfields⟩ := hcopy
    obtain ⟨hid, hmin, hmax⟩ : r.n32ItemId = (kept userLv items)[j].n32ItemId ∧
        r.n32MinNum = (kept userLv items)[j].n32MinNum ∧
        r.n32MaxNum = (kept userLv items)[j].n32MaxNum := by simpa using hfields
    have hfind : (filterdrops userLv 0 items).find? (fun q => q.n32Rate ≥
        drawn env (totalRate (filterdrops userLv 0 items)) i) = some r := by
      rw [List.find?_eq_bind_findIdx?_getElem?]
      change (chosenItem userLv items _).bind _ = _
      rw [hchosen]
      exact hr
    have hfair := hw.item_fair v items hv _ (List.mem_of_mem_filter (List.getElem_mem hj))
    obtain ⟨num, hnum, hge, hle⟩ := random_spec env hfair.min_le_max hfair.width_lt (i + 1)
    refine ⟨some ((kept userLv items)[j].n32ItemId, num), i + 2, ?_,
      ⟨i, j, _, hchosen, hq, rfl, hge, hle⟩, ?_⟩
    · simp only [drawItem, hrow, if_pos htotal, draw_bind, random_one htotal, Option.bind_some,
        hfind, hmin, hmax, hnum, hid]
      rfl
    · rintro _ ⟨⟩
      have hlow := hfair.min_ge
      have hhigh := hfair.max_lt
      exact wrap_of_range (by omega) (by omega)
  · refine ⟨none, i, ?_, ?_, nofun⟩
    · simp only [drawItem, hrow, if_neg htotal]
      rfl
    · by_contra hne
      obtain ⟨q, rest, hcons⟩ := List.exists_cons_of_ne_nil hne
      have hq : q ∈ kept userLv items := hcons ▸ List.mem_cons_self
      have hpos := (hw.item_fair v items hv q (List.mem_of_mem_filter hq)).rate_pos
      have hrest : 0 ≤ (rest.map (·.n32Rate)).sum := List.sum_nonneg fun w hmem =>
        hw.kept_rates userLv hv w (by
          rw [hcons]
          exact List.mem_cons_of_mem _ hmem)
      rw [hlaw.total_eq, hcons, List.map_cons, List.sum_cons] at htotal
      omega

variable (userLv) in
theorem drawItems_spec (hitem : env.data.itemDropPackage = itemDrop)
    (hw : WellFormed drop itemDrop) {ids : List ℤ} (hids : ∀ id ∈ ids, (itemDrop id).isSome)
    (t : IntTable) (i : ℕ) :
    ∃ gains i', ids.foldlM (drawItem env userLv) t i = some (gains.foldl addGain t, i') ∧
      List.Forall₂ (fun id gain => ∃ rows, itemDrop id = some rows ∧ Gained env userLv rows gain)
        ids gains ∧
      ∀ gain ∈ gains, ∀ e ∈ gain, wrap e.2 = e.2 := by
  induction ids generalizing t i with
  | nil => exact ⟨[], i, rfl, .nil, nofun⟩
  | cons id ids ih =>
      obtain ⟨rows, hrows⟩ := Option.isSome_iff_exists.mp (hids id List.mem_cons_self)
      obtain ⟨gain, j, hdraw, hgain, hint⟩ :=
        drawItem_spec userLv hitem hw hrows t i
      obtain ⟨gains, i', hrest, hall, hints⟩ :=
        ih (fun id' hid' => hids id' (List.mem_cons_of_mem id hid')) (addGain t gain) j
      refine ⟨gain :: gains, i', ?_, .cons ⟨rows, hrows, hgain⟩ hall, ?_⟩
      · rw [List.foldlM_cons, draw_bind, hdraw]
        exact hrest
      · intro gain' hgain'
        rcases List.mem_cons.mp hgain' with rfl | hgain'
        · exact hint
        · exact hints gain' hgain'

/-- Each entry is the sum of the numbers that were drawn for it. -/
theorem get_foldl_addGain {gains : List (Option (ℤ × ℤ))}
    (hint : ∀ gain ∈ gains, ∀ e ∈ gain, wrap e.2 = e.2) (t : IntTable) (id : ℤ) :
    (gains.foldl addGain t).get id =
      if numsOf gains id = [] then t.get id
      else some (wrap ((t.get id).getD 0 + (numsOf gains id).sum)) := by
  induction gains generalizing t with
  | nil => rfl
  | cons gain gains ih =>
      have hrest : ∀ g ∈ gains, ∀ e ∈ g, wrap e.2 = e.2 := fun g hg =>
        hint g (List.mem_cons_of_mem gain hg)
      rw [List.foldl_cons, ih hrest]
      cases gain with
      | none => rfl
      | some e =>
          have hget := IntTable.get_add t e.1 id (hint _ List.mem_cons_self e rfl)
          rw [addGain, hget]
          by_cases hid : e.1 = id
          · have hnums : numsOf (some e :: gains) id = e.2 :: numsOf gains id := by
              simp [numsOf, hid]
            rw [hnums, if_pos hid.symm, if_neg (List.cons_ne_nil _ _), List.sum_cons]
            split_ifs with hnil
            · rw [hnil, hid]
              simp
            · rw [hid, Option.getD_some, wrap, wrap, Int.bmod_add_bmod, wrap, add_assoc]
          · have hnums : numsOf (some e :: gains) id = numsOf gains id := by
              simp [numsOf, hid]
            rw [hnums, if_neg (Ne.symm hid)]

theorem drops_eq {l : List (ℤ × ℤ)} (h : (l.map Prod.fst).Nodup) : drops l = l := by
  suffices hfold : ∀ t : IntTable, (t.keys ++ l.map Prod.fst).Nodup →
      l.foldl (fun t e => t.set e.1 e.2) t = t ++ l from hfold [] h
  clear h
  induction l with
  | nil => simp
  | cons e l ih =>
      intro t ht
      have hnot : e.1 ∉ t.keys := fun hmem =>
        List.disjoint_of_nodup_append ht hmem List.mem_cons_self
      rw [List.foldl_cons, IntTable.set_of_not_mem hnot, ih, List.append_assoc]
      · rfl
      · rw [IntTable.keys_append, List.append_assoc]
        exact ht

theorem drawRounds_spec (hdrop : env.data.dropPackage = fun k => (drop k).map load)
    (hw : WellFormed drop itemDrop) (hk : drop k = some rows) (n i : ℕ) :
    ∃ rounds i', (List.range n).mapM (fun _ => drawDrops env k) i = some (rounds, i') ∧
      rounds.length = n ∧ ∀ ids ∈ rounds, Round env rows ids := by
  obtain ⟨rounds, i', hrun, hall⟩ := mapM_spec (l := List.range n) (f := fun _ => drawDrops env k)
    (P := fun _ ids => Round env rows ids) (fun _ _ i => drawDrops_spec hdrop hw hk i) i
  refine ⟨rounds, i', hrun, by rw [← hall.length_eq, List.length_range], fun ids hids => ?_⟩
  obtain ⟨_, _, h⟩ := exists_left hall hids
  exact h

theorem exists_rounds {l : List (ℤ × ℤ)} {pkgIds : List (List ℤ)}
    (h : List.Forall₂ (fun e ids => ∃ rounds : List (List ℤ), rounds.length = e.2.toNat ∧
      ids = rounds.flatten ∧ ∀ r ∈ rounds, ∃ rows, drop e.1 = some rows ∧ Round env rows r)
      l pkgIds) :
    ∃ rounds : List (ℤ × List ℤ),
      rounds.map Prod.fst = l.flatMap (fun e => List.replicate e.2.toNat e.1) ∧
      rounds.flatMap Prod.snd = pkgIds.flatten ∧
      ∀ r ∈ rounds, ∃ rows, drop r.1 = some rows ∧ Round env rows r.2 := by
  induction h with
  | nil => exact ⟨[], rfl, rfl, nofun⟩
  | @cons e ids l pkgIds hhead _ ih =>
      obtain ⟨rounds, hlen, rfl, hrounds⟩ := hhead
      obtain ⟨rest, hfst, hsnd, hrest⟩ := ih
      refine ⟨rounds.map (Prod.mk e.1) ++ rest, ?_, ?_, ?_⟩
      · rw [List.map_append, hfst, List.flatMap_cons, List.map_map, ← hlen]
        exact congrArg (· ++ _) (List.map_const' ..)
      · rw [List.flatMap_append, hsnd, List.flatten_cons, List.flatMap_map]
        exact congrArg (· ++ _) List.flatMap_id
      · intro r hr
        rcases List.mem_append.mp hr with hr | hr
        · obtain ⟨ids, hids, rfl⟩ := List.mem_map.mp hr
          exact hrounds ids hids
        · exact hrest r hr

theorem openPackage_spec (hdrop : env.data.dropPackage = fun k => (drop k).map load)
    (hitem : env.data.itemDropPackage = itemDrop) (hw : WellFormed drop itemDrop)
    {l : List (ℤ × ℤ)} (hids : (l.map Prod.fst).Nodup) (hl : ∀ e ∈ l, (drop e.1).isSome)
    (userLv : ℤ) (i : ℕ) :
    ∃ items i', openPackage env l userLv i = some (items, i') ∧
      Opened env drop itemDrop userLv l items := by
  have hperm : (env.pairs l).Perm l := env.pairs_perm l
  obtain ⟨pkgIds, j, hpkgs, hall⟩ := mapM_spec (l := env.pairs l)
    (f := fun e => do
      let rounds ← (List.range e.2.toNat).mapM (fun _ => drawDrops env e.1)
      return rounds.flatten)
    (P := fun e ids => ∃ rounds : List (List ℤ), rounds.length = e.2.toNat ∧
      ids = rounds.flatten ∧ ∀ r ∈ rounds, ∃ rows, drop e.1 = some rows ∧ Round env rows r)
    (fun e he i => by
      obtain ⟨rows, hrows⟩ := Option.isSome_iff_exists.mp (hl e (hperm.mem_iff.mp he))
      obtain ⟨rounds, i', hrun, hlen, hrounds⟩ := drawRounds_spec hdrop hw hrows e.2.toNat i
      refine ⟨rounds.flatten, i', ?_, rounds, hlen, rfl, fun r hr => ⟨rows, hrows, hrounds r hr⟩⟩
      rw [draw_bind, hrun]
      rfl) i
  obtain ⟨rounds, hfst, hsnd, hrounds⟩ := exists_rounds hall
  have hpresent : ∀ id ∈ pkgIds.flatten, (itemDrop id).isSome := by
    rw [← hsnd]
    intro id hid
    obtain ⟨r, hr, hid⟩ := List.mem_flatMap.mp hid
    obtain ⟨rows, hrows, -, -, -, -, -, -, hdrawn⟩ := hrounds r hr
    obtain ⟨-, j, q, -, hq, rfl⟩ := hdrawn id hid
    exact hw.drop_present _ rows hrows q (List.mem_of_getElem? hq)
  obtain ⟨gains, i', hrun, hgains, hint⟩ := drawItems_spec userLv hitem hw hpresent [] j
  refine ⟨gains.foldl addGain [], i', ?_, rounds, gains, ?_, hrounds, hsnd ▸ hgains, ?_⟩
  · rw [openPackage, drops_eq hids]
    exact (draw_bind i).trans (by rw [hpkgs]; exact hrun)
  · rw [hfst]
    exact hperm.flatMap_right _
  · intro id
    have hnil : IntTable.get [] id = none := rfl
    rw [get_foldl_addGain hint, hnil, Option.getD_none, zero_add]

/-- The text is opened without an error; in both stages each row is drawn by as many of the equally
likely numbers as its rate says, in the second stage among the rows for the level; and the items are
the sums of what the draws gave. -/
theorem openText_fair (hdrop : env.data.dropPackage = fun k => (drop k).map load)
    (hitem : env.data.itemDropPackage = itemDrop) (hw : WellFormed drop itemDrop)
    {l : List (ℤ × ℤ)} (hids : (l.map Prod.fst).Nodup) (hl : ∀ e ∈ l, (drop e.1).isSome)
    (userLv : ℤ) :
    (∀ k rows, drop k = some rows →
      Weighted.Law (rows.map (·.n32Rate)) (load rows).totalRate (chosenDrop rows)) ∧
    (∀ v rows, itemDrop v = some rows →
      Weighted.Law ((kept userLv rows).map (·.n32Rate))
        (totalRate (filterdrops userLv 0 rows)) (chosenItem userLv rows)) ∧
    ∀ i, ∃ items i', openText env (packageText l) userLv i = some (items, i') ∧
      Opened env drop itemDrop userLv l items := by
  refine ⟨fun k rows hk => law_drop hw hk, fun v rows hv => law_item hw hv userLv, fun i => ?_⟩
  rw [openText, readPackage_packageText]
  exact openPackage_spec hdrop hitem hw hids hl userLv i

end Runs

/-- One package with two rows. -/
def twoRows : ℤ → Option (List DropRow) := fun k =>
  if k = 7 then some [⟨1, 1, 1, 2⟩, ⟨2, 3, 1, 1⟩] else none

/-- Two rows for low levels and one for high ones. -/
def twoLevels : ℤ → Option (List ItemDropRow) := fun v =>
  if v = 1 ∨ v = 2 then some [⟨100, 5, 1, 3, 0, 10⟩, ⟨101, 2, 1, 1, 0, 10⟩, ⟨102, 4, 2, 2, 11, 20⟩]
  else none

def stocked : Env :=
  { quiet with data := { quiet.data with
      dropPackage := fun k => (twoRows k).map load
      itemDropPackage := twoLevels } }

theorem wellFormed_stocked : WellFormed twoRows twoLevels where
  drop_ne_nil k rows hk := by
    unfold twoRows at hk
    split_ifs at hk
    cases hk
    exact List.cons_ne_nil _ _
  drop_fair k rows hk q hq := by
    unfold twoRows at hk
    split_ifs at hk
    cases hk
    simp only [List.mem_cons, List.not_mem_nil, or_false] at hq
    rcases hq with rfl | rfl <;> constructor <;> norm_num
  drop_total k rows hk := by
    unfold twoRows at hk
    split_ifs at hk
    cases hk
    norm_num
  drop_present k rows hk q hq := by
    unfold twoRows at hk
    split_ifs at hk
    cases hk
    simp only [List.mem_cons, List.not_mem_nil, or_false] at hq
    rcases hq with rfl | rfl <;> decide
  item_fair v rows hv q hq := by
    unfold twoLevels at hv
    split_ifs at hv
    cases hv
    simp only [List.mem_cons, List.not_mem_nil, or_false] at hq
    rcases hq with rfl | rfl | rfl <;> constructor <;> norm_num
  item_total v rows hv := by
    unfold twoLevels at hv
    split_ifs at hv
    cases hv
    norm_num

theorem openText_fair_stocked :
    (∀ k rows, twoRows k = some rows →
      Weighted.Law (rows.map (·.n32Rate)) (load rows).totalRate (chosenDrop rows)) ∧
    (∀ v rows, twoLevels v = some rows →
      Weighted.Law ((kept 5 rows).map (·.n32Rate))
        (totalRate (filterdrops 5 0 rows)) (chosenItem 5 rows)) ∧
    ∀ i, ∃ items i', openText stocked (packageText [(7, 3)]) 5 i = some (items, i') ∧
      Opened stocked twoRows twoLevels 5 [(7, 3)] items := by
  have hl : ∀ e ∈ [((7 : ℤ), (3 : ℤ))], (twoRows e.1).isSome := by decide
  have hdrop : stocked.data.dropPackage = fun k => (twoRows k).map load := rfl
  have hitem : stocked.data.itemDropPackage = twoLevels := rfl
  exact openText_fair hdrop hitem wellFormed_stocked (by decide) hl 5

end GameServer.PackageDraws
