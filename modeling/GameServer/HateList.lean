import GameServer.Rounding
import GameServer.Transition
import Mathlib.Data.List.AList

/-!
# Hate lists

The monsters of a room keep how much they hate whom, with the sum and the top beside the list. Hate
of a monster is linked to the others of its batch. `pairs` goes through a table in an order of its
own, which comes with the step, as do the linked monsters that are in the room and the time. Hate is
a double: its sums are rounded.
-/

namespace GameServer.Hates

open Transition

structure Hate where
  val : ℚ
  upTime : ℤ
  deriving DecidableEq

structure HateList where
  hateList : AList fun _ : ℤ => Hate
  topHateId : ℤ
  totalHate : ℚ

/-- `HateList:ctor` -/
def ctor : HateList := ⟨∅, 0, 0⟩

variable (l : HateList)

def HateList.getHate (id : ℤ) : ℚ :=
  match l.hateList.lookup id with
  | some v => v.val
  | none => 0

/-- What `addHate` stores. -/
def HateList.raised (serverId : ℤ) (hateValue : ℚ) : ℚ :=
  match l.hateList.lookup serverId with
  | some v => Double.add v.val hateValue
  | none => hateValue

/-- `addHate` up to the links. -/
def HateList.addHate (serverId : ℤ) (hateValue : ℚ) (now : ℤ) : HateList :=
  let val := l.raised serverId hateValue
  let hateList := l.hateList.insert serverId ⟨val, now⟩
  { hateList
    totalHate := Double.add l.totalHate hateValue
    topHateId :=
      match hateList.lookup l.topHateId with
      | some top => if top.val ≤ val then serverId else l.topHateId
      | none => serverId }

/-- A round of the loop in `removeHate`. A top that is not 0 is an entry. -/
def newTop (hateList : AList fun _ : ℤ => Hate) (top k : ℤ) : ℤ :=
  match hateList.lookup k with
  | none => top
  | some v =>
    let best := if top = 0 then ⟨0, 0⟩ else (hateList.lookup top).getD ⟨0, 0⟩
    if best.val < v.val then k
    else if best.val = v.val ∧ best.upTime < v.upTime then k
    else top

def HateList.removeHate (serverId : ℤ) (order : List ℤ) : HateList :=
  match l.hateList.lookup serverId with
  | none => l
  | some v =>
    let hateList := l.hateList.erase serverId
    { hateList
      totalHate := Double.sub l.totalHate v.val
      topHateId := if l.topHateId = serverId then order.foldl (newTop hateList) 0 else l.topHateId }

def HateList.clear : HateList := { l with hateList := ∅ }

/-- The lists of the monsters, by server id. -/
abbrev Lists := ℤ → HateList

/-- Linked monsters without hate of the entity get 1, with 1001 as the source. -/
def link (m serverId now : ℤ) (lists : Lists) (v : ℤ) : Lists :=
  if m ≠ v ∧ (lists v).getHate serverId = 0 then
    Function.update lists v ((lists v).addHate serverId 1 now)
  else lists

def addHate (m serverId : ℤ) (hateValue : ℚ) (source : Option ℤ) (links : List ℤ) (now : ℤ)
    (lists : Lists) : Lists :=
  let lists := Function.update lists m ((lists m).addHate serverId hateValue now)
  if ∀ id ∈ source, id < 1000 then links.foldl (link m serverId now) lists else lists

inductive Op
  | addHate (m serverId : ℤ) (hateValue : ℚ) (source : Option ℤ) (links : List ℤ) (now : ℤ)
  | removeHate (m serverId : ℤ) (order : List ℤ)
  | clear (m : ℤ)

/-- Hate is positive, server ids count from 1, and `order` goes through the entries that are
left. -/
def Op.Ok (lists : Lists) : Op → Prop
  | .addHate _ serverId hateValue _ _ _ => 0 < serverId ∧ 0 < hateValue
  | .removeHate m serverId order => order.Perm ((lists m).hateList.erase serverId).keys
  | .clear _ => True

instance (lists : Lists) (op : Op) : Decidable (op.Ok lists) := by
  cases op with
  | addHate => exact inferInstanceAs (Decidable (_ ∧ _))
  | removeHate => exact inferInstanceAs (Decidable (List.Perm _ _))
  | clear => exact .isTrue trivial

def Op.run (lists : Lists) : Op → Lists
  | .addHate m serverId hateValue source links now =>
    Hates.addHate m serverId hateValue source links now lists
  | .removeHate m serverId order =>
    Function.update lists m ((lists m).removeHate serverId order)
  | .clear m => Function.update lists m (lists m).clear

def system : System Lists Op where
  init _ := ctor
  step lists op := if op.Ok lists then some (op.run lists) else none

/-! ## Exact sums -/

/-- The sums of `addHate` are doubles. -/
structure HateList.Adds (serverId : ℤ) (hateValue : ℚ) : Prop where
  total : Double.Is (l.totalHate + hateValue)
  val : Double.Is (l.getHate serverId + hateValue)

instance (serverId : ℤ) (hateValue : ℚ) : Decidable (l.Adds serverId hateValue) :=
  decidable_of_iff
    (Double.Is (l.totalHate + hateValue) ∧ Double.Is (l.getHate serverId + hateValue))
    ⟨fun h => ⟨h.1, h.2⟩, fun h => ⟨h.total, h.val⟩⟩

/-- The sums of `link` are doubles. -/
def Links (m serverId : ℤ) (lists : Lists) (v : ℤ) : Prop :=
  m ≠ v → (lists v).getHate serverId = 0 → (lists v).Adds serverId 1

/-- No sum of the step is rounded. -/
def Op.Exact (lists : Lists) : Op → Prop
  | .addHate m serverId hateValue source links _ => (lists m).Adds serverId hateValue ∧
    ((∀ id ∈ source, id < 1000) → ∀ v ∈ links, Links m serverId lists v)
  | .removeHate m serverId _ => ∀ v ∈ (lists m).hateList.lookup serverId,
    Double.Is ((lists m).totalHate - v.val)
  | .clear _ => True

instance (lists : Lists) (op : Op) : Decidable (op.Exact lists) := by
  cases op with
  | addHate =>
      unfold Op.Exact Links
      infer_instance
  | removeHate => exact inferInstanceAs (Decidable (∀ v ∈ _, _))
  | clear => exact .isTrue trivial

/-! ## Sums and tops -/

variable {l} {hateList : AList fun _ : ℤ => Hate} {serverId k : ℤ}

/-- The sum of the stored values. -/
def sum (hateList : AList fun _ : ℤ => Hate) : ℚ := (hateList.entries.map fun e => e.2.val).sum

/-- Every id is positive, and so is every value. -/
def Positive (hateList : AList fun _ : ℤ => Hate) : Prop :=
  ∀ k v, hateList.lookup k = some v → 0 < k ∧ 0 < v.val

/-- The entry of the top has a maximal value. -/
def Top (hateList : AList fun _ : ℤ => Hate) (top : ℤ) : Prop :=
  ∃ best, hateList.lookup top = some best ∧ ∀ k v, hateList.lookup k = some v → v.val ≤ best.val

structure Valid (l : HateList) : Prop where
  total : l.totalHate = sum l.hateList
  empty : l.hateList = ∅ → l.topHateId = 0
  top : l.hateList ≠ ∅ → Top l.hateList l.topHateId

theorem sum_kerase (k : ℤ) (entries : List (Σ _ : ℤ, Hate)) :
    (entries.map fun e => e.2.val).sum =
      ((entries.dlookup k).elim 0 Hate.val) + ((entries.kerase k).map fun e => e.2.val).sum := by
  induction entries with
  | nil => simp
  | cons e entries ih =>
      obtain ⟨k', v⟩ := e
      by_cases hk : k = k'
      · subst hk
        simp
      · rw [List.dlookup_cons_ne _ _ hk, List.kerase_cons_ne hk, List.map_cons, List.sum_cons, ih,
          List.map_cons, List.sum_cons]
        ring

theorem sum_erase (hateList : AList fun _ : ℤ => Hate) (k : ℤ) :
    sum hateList = (hateList.lookup k).elim 0 Hate.val + sum (hateList.erase k) :=
  sum_kerase k hateList.entries

theorem sum_insert (hateList : AList fun _ : ℤ => Hate) (k : ℤ) (v : Hate) :
    sum (hateList.insert k v) = v.val + sum (hateList.erase k) := by
  unfold sum
  rw [AList.entries_insert]
  rfl

theorem eq_empty_of_lookup (h : ∀ k, hateList.lookup k = none) : hateList = ∅ := by
  apply AList.ext
  cases hentries : hateList.entries with
  | nil => rfl
  | cons e entries =>
      have hmem : e.1 ∈ hateList := by
        change e.1 ∈ hateList.entries.keys
        rw [hentries]
        exact List.mem_cons_self
      exact absurd hmem (AList.lookup_eq_none.mp (h e.1))

/-! ## Operations -/

theorem Positive.erase (h : Positive hateList) (k : ℤ) : Positive (hateList.erase k) := by
  intro k' v hv
  by_cases hk : k' = k
  · subst hk
    rw [AList.lookup_erase] at hv
    cases hv
  · rw [AList.lookup_erase_ne hk] at hv
    exact h k' v hv

theorem raised_pos (h : Positive l.hateList) {hateValue : ℚ} (hvalue : 0 < hateValue) :
    0 < l.raised serverId hateValue := by
  unfold HateList.raised
  split
  · next v hv => exact Double.round_pos (add_pos (h serverId v hv).2 hvalue)
  · exact hvalue

/-- What is stored is the sum where that is exact. -/
theorem HateList.Adds.raised_eq {hateValue : ℚ} (h : l.Adds serverId hateValue) :
    l.raised serverId hateValue = l.getHate serverId + hateValue := by
  have hval := h.val
  unfold HateList.raised
  unfold HateList.getHate at hval ⊢
  cases hv : l.hateList.lookup serverId with
  | none => simp
  | some v =>
      rw [hv] at hval
      exact hval

theorem Positive.addHate (h : Positive l.hateList) {hateValue : ℚ} (hid : 0 < serverId)
    (hvalue : 0 < hateValue) (now : ℤ) :
    Positive (l.addHate serverId hateValue now).hateList := by
  intro k v hv
  change (l.hateList.insert serverId _).lookup k = some v at hv
  by_cases hk : k = serverId
  · subst hk
    rw [AList.lookup_insert, Option.some.injEq] at hv
    subst hv
    exact ⟨hid, raised_pos h hvalue⟩
  · rw [AList.lookup_insert_ne hk] at hv
    exact h k v hv

theorem Valid.addHate (h : Valid l) {hateValue : ℚ} (hvalue : 0 < hateValue)
    (hadds : l.Adds serverId hateValue) (now : ℤ) : Valid (l.addHate serverId hateValue now) := by
  have hval := hadds.raised_eq
  have htotal : Double.add l.totalHate hateValue = l.totalHate + hateValue := hadds.total
  set val := l.raised serverId hateValue
  have hlookup : ∀ k, (l.addHate serverId hateValue now).hateList.lookup k =
      if k = serverId then some ⟨val, now⟩ else l.hateList.lookup k := by
    intro k
    change (l.hateList.insert serverId ⟨val, now⟩).lookup k = _
    by_cases hk : k = serverId
    · subst hk
      rw [AList.lookup_insert, if_pos rfl]
    · rw [AList.lookup_insert_ne hk, if_neg hk]
  have hsum : sum (l.addHate serverId hateValue now).hateList = sum l.hateList + hateValue := by
    change sum (l.hateList.insert serverId ⟨val, now⟩) = _
    rw [sum_insert, sum_erase l.hateList serverId, hval]
    unfold HateList.getHate
    cases l.hateList.lookup serverId with
    | none =>
        simp only [Option.elim_none]
        ring
    | some v =>
        simp only [Option.elim_some]
        ring
  refine ⟨?_, fun hempty => ?_, fun _ => ?_⟩
  · rw [hsum, ← h.total]
    exact htotal
  · have hself := hlookup serverId
    rw [hempty, if_pos rfl] at hself
    cases hself
  · have hself : (∀ k v, l.hateList.lookup k = some v → v.val ≤ val) →
        Top (l.addHate serverId hateValue now).hateList serverId := by
      intro hmax
      refine ⟨⟨val, now⟩, by rw [hlookup, if_pos rfl], fun k v hv => ?_⟩
      rw [hlookup] at hv
      split at hv
      · exact (Option.some.inj hv ▸ le_refl val)
      · exact hmax k v hv
    have htop : (l.addHate serverId hateValue now).topHateId =
        match (l.addHate serverId hateValue now).hateList.lookup l.topHateId with
        | some top => if top.val ≤ val then serverId else l.topHateId
        | none => serverId := rfl
    by_cases hempty : l.hateList = ∅
    · have hany : ∀ k v, l.hateList.lookup k = some v → v.val ≤ val := by
        intro k v hv
        rw [hempty] at hv
        cases hv
      have hserver : (l.addHate serverId hateValue now).topHateId = serverId := by
        rw [htop, hlookup]
        split_ifs with hid
        · simp
        · rw [hempty]
          rfl
      rw [hserver]
      exact hself hany
    · obtain ⟨best, hbest, hmax⟩ := h.top hempty
      rw [htop, hlookup]
      by_cases hid : l.topHateId = serverId
      · rw [if_pos hid]
        simp only [le_refl, if_true]
        refine hself fun k v hv => (hmax k v hv).trans ?_
        rw [hval, ← hid, HateList.getHate, hbest]
        exact le_add_of_nonneg_right hvalue.le
      · rw [if_neg hid, hbest]
        simp only
        split_ifs with hle
        · exact hself fun k v hv => (hmax k v hv).trans hle
        · refine ⟨best, by rw [hlookup, if_neg hid, hbest], fun k v hv => ?_⟩
          rw [hlookup] at hv
          split at hv
          · exact (Option.some.inj hv ▸ (not_le.mp hle).le)
          · exact hmax k v hv

/-- Behind a part of the loop the top is an entry of the part with a maximal value. -/
def Best (hateList : AList fun _ : ℤ => Hate) (part : List ℤ) (top : ℤ) : Prop :=
  (part = [] ∧ top = 0) ∨
    ∃ best, hateList.lookup top = some best ∧
      ∀ k ∈ part, ∀ v, hateList.lookup k = some v → v.val ≤ best.val

theorem Best.newTop (hpos : Positive hateList) {part : List ℤ} {top : ℤ}
    (h : Best hateList part top) (hk : k ∈ hateList) :
    Best hateList (part ++ [k]) (newTop hateList top k) := by
  obtain ⟨v, hv⟩ := Option.isSome_iff_exists.mp (AList.lookup_isSome.mpr hk)
  right
  rcases h with ⟨rfl, rfl⟩ | ⟨best, hbest, hmax⟩
  · have hread : Hates.newTop hateList 0 k = k := by
      simp [Hates.newTop, hv, (hpos k v hv).2]
    rw [hread]
    refine ⟨v, hv, fun k' hk' v' hv' => ?_⟩
    obtain rfl := List.mem_singleton.mp hk'
    exact (Option.some.inj (hv'.symm.trans hv) ▸ le_refl v'.val)
  · have htop : top ≠ 0 := (hpos top best hbest).1.ne'
    have hread : Hates.newTop hateList top k = if best.val < v.val then k
        else if best.val = v.val ∧ best.upTime < v.upTime then k else top := by
      simp [Hates.newTop, hv, htop, hbest]
    have hle : ∀ bound : Hate, best.val ≤ bound.val → v.val ≤ bound.val →
        ∀ k' ∈ part ++ [k], ∀ v', hateList.lookup k' = some v' → v'.val ≤ bound.val := by
      intro bound hold hnew k' hk' v' hv'
      rcases List.mem_append.mp hk' with hmem | hmem
      · exact (hmax k' hmem v' hv').trans hold
      · obtain rfl := List.mem_singleton.mp hmem
        rw [hv, Option.some.injEq] at hv'
        exact hv' ▸ hnew
    by_cases hlt : best.val < v.val
    · rw [hread, if_pos hlt]
      exact ⟨v, hv, hle v hlt.le le_rfl⟩
    · by_cases htie : best.val = v.val ∧ best.upTime < v.upTime
      · rw [hread, if_neg hlt, if_pos htie]
        exact ⟨v, hv, hle v htie.1.le le_rfl⟩
      · rw [hread, if_neg hlt, if_neg htie]
        exact ⟨best, hbest, hle best le_rfl (not_lt.mp hlt)⟩

theorem best_foldl (hpos : Positive hateList) (order : List ℤ) (hmem : ∀ k ∈ order, k ∈ hateList) :
    Best hateList order (order.foldl (newTop hateList) 0) := by
  induction order using List.reverseRecOn with
  | nil => exact .inl ⟨rfl, rfl⟩
  | append_singleton order k ih =>
      rw [List.foldl_append]
      have hpart := ih fun k' hk' => hmem k' (List.mem_append_left _ hk')
      exact hpart.newTop hpos (hmem k (List.mem_append_right _ (List.mem_singleton_self k)))

theorem Valid.removeHate (h : Valid l) (hpos : Positive l.hateList) {order : List ℤ}
    (hexact : ∀ v ∈ l.hateList.lookup serverId, Double.Is (l.totalHate - v.val))
    (horder : order.Perm (l.hateList.erase serverId).keys) :
    Valid (l.removeHate serverId order) := by
  unfold HateList.removeHate
  cases hv : l.hateList.lookup serverId with
  | none => exact h
  | some v =>
      have hkeys : ∀ k, k ∈ order ↔ k ∈ l.hateList.erase serverId := fun k => horder.mem_iff
      refine ⟨?_, fun hempty => ?_, fun hne => ?_⟩
      · have hsum := sum_erase l.hateList serverId
        rw [hv, Option.elim_some] at hsum
        have hdiff : Double.sub l.totalHate v.val = l.totalHate - v.val := hexact v hv
        simp only
        rw [hdiff, h.total, hsum]
        ring
      all_goals
        have hfull : l.hateList ≠ ∅ := by
          rintro hnil
          rw [hnil] at hv
          cases hv
        obtain ⟨best, hbest, hmax⟩ := h.top hfull
      · simp only at hempty ⊢
        split_ifs with hid
        · rw [hempty] at horder
          rw [horder.eq_nil]
          rfl
        · rw [← AList.lookup_erase_ne hid, hempty] at hbest
          cases hbest
      · simp only at hne ⊢
        split_ifs with hid
        · have hmem : ∀ k ∈ order, k ∈ l.hateList.erase serverId := fun k hk => (hkeys k).mp hk
          rcases best_foldl (hpos.erase serverId) order hmem with ⟨hnil, -⟩ | ⟨top, htop, hle⟩
          · refine absurd (eq_empty_of_lookup fun k => ?_) hne
            rw [AList.lookup_eq_none, ← hkeys k, hnil]
            exact List.not_mem_nil
          · refine ⟨top, htop, fun k v' hv' => hle k ((hkeys k).mpr ?_) v' hv'⟩
            exact AList.lookup_isSome.mp (Option.isSome_iff_exists.mpr ⟨v', hv'⟩)
        · refine ⟨best, by rw [AList.lookup_erase_ne hid, hbest], fun k v' hv' => ?_⟩
          by_cases hk : k = serverId
          · subst hk
            rw [AList.lookup_erase] at hv'
            cases hv'
          · rw [AList.lookup_erase_ne hk] at hv'
            exact hmax k v' hv'

/-! ## Runs -/

variable {lists lists' : Lists} {m : ℤ} {P : ℤ → HateList → Prop}

theorem forall_update (h : ∀ m, P m (lists m)) (hl : P m l) (m' : ℤ) :
    P m' (Function.update lists m l m') := by
  by_cases hm : m' = m
  · subst hm
    rwa [Function.update_self]
  · rw [Function.update_of_ne hm]
    exact h m'

theorem getHate_addHate (l : HateList) (serverId : ℤ) (hateValue : ℚ) (now : ℤ) :
    (l.addHate serverId hateValue now).getHate serverId = l.raised serverId hateValue := by
  conv_lhs => unfold HateList.getHate HateList.addHate
  rw [AList.lookup_insert]

theorem getHate_addHate_of_ne (hne : k ≠ serverId) (hateValue : ℚ) (now : ℤ) :
    (l.addHate serverId hateValue now).getHate k = l.getHate k := by
  unfold HateList.getHate HateList.addHate
  rw [AList.lookup_insert_ne hne]

/-- Who had no hate has 1 behind the link. -/
theorem raised_one (hzero : l.getHate serverId = 0) : l.raised serverId 1 = 1 := by
  unfold HateList.getHate at hzero
  unfold HateList.raised
  cases hv : l.hateList.lookup serverId with
  | none => rfl
  | some v =>
      rw [hv] at hzero
      simp only at hzero ⊢
      rw [hzero]
      decide +kernel

theorem foldl_link {now : ℤ} (links : List ℤ) (lists : Lists) (w : ℤ) :
    links.foldl (link m serverId now) lists w =
      if w ∈ links ∧ m ≠ w ∧ (lists w).getHate serverId = 0 then (lists w).addHate serverId 1 now
      else lists w := by
  induction links generalizing lists with
  | nil => simp
  | cons v links ih =>
      rw [List.foldl_cons, ih]
      by_cases hv : m ≠ v ∧ (lists v).getHate serverId = 0
      · have hlink : link m serverId now lists v =
            Function.update lists v ((lists v).addHate serverId 1 now) := if_pos hv
        rw [hlink]
        by_cases hw : w = v
        · subst hw
          have hone : ((lists w).addHate serverId 1 now).getHate serverId ≠ 0 := by
            rw [getHate_addHate, raised_one hv.2]
            exact one_ne_zero
          simp [hone, hv]
        · simp [hw]
      · have hlink : link m serverId now lists v = lists := if_neg hv
        rw [hlink]
        refine if_congr ?_ rfl rfl
        constructor
        · exact fun h => ⟨List.mem_cons_of_mem v h.1, h.2⟩
        · rintro ⟨hmem, h⟩
          refine ⟨(List.mem_cons.mp hmem).resolve_left ?_, h⟩
          rintro rfl
          exact hv h

/-- What `addHate` does to each list. -/
theorem addHate_apply (m serverId : ℤ) (hateValue : ℚ) (source : Option ℤ) (links : List ℤ)
    (now : ℤ) (lists : Lists) (w : ℤ) :
    addHate m serverId hateValue source links now lists w =
      if w = m then (lists m).addHate serverId hateValue now
      else if (∀ id ∈ source, id < 1000) ∧ w ∈ links ∧ (lists w).getHate serverId = 0 then
        (lists w).addHate serverId 1 now
      else lists w := by
  unfold Hates.addHate
  by_cases hsource : ∀ id ∈ source, id < 1000
  · rw [if_pos hsource, foldl_link]
    by_cases hw : w = m
    · subst hw
      simp
    · rw [if_neg hw, Function.update_of_ne hw]
      refine if_congr ?_ rfl rfl
      exact ⟨fun h => ⟨hsource, h.1, h.2.2⟩, fun h => ⟨h.2.1, Ne.symm hw, h.2.2⟩⟩
  · rw [if_neg hsource]
    by_cases hw : w = m
    · subst hw
      simp
    · rw [Function.update_of_ne hw, if_neg hw, if_neg fun h => hsource h.1]

theorem Positive.removeHate (h : Positive l.hateList) (order : List ℤ) :
    Positive (l.removeHate serverId order).hateList := by
  unfold HateList.removeHate
  cases l.hateList.lookup serverId with
  | none => exact h
  | some v => exact h.erase serverId

theorem positive_empty : Positive ∅ := by
  intro k v hv
  cases hv

theorem positive_step {op : Op} (hop : op.Ok lists) (h : ∀ m, Positive (lists m).hateList) :
    ∀ m, Positive (op.run lists m).hateList := by
  cases op with
  | addHate m serverId hateValue source links now =>
      intro w
      change Positive (addHate m serverId hateValue source links now lists w).hateList
      rw [addHate_apply]
      split_ifs
      · exact (h m).addHate hop.1 hop.2 now
      · exact (h w).addHate hop.1 one_pos now
      · exact h w
  | removeHate m serverId order =>
      exact forall_update (P := fun _ l => Positive l.hateList) h ((h m).removeHate order)
  | clear m => exact forall_update (P := fun _ l => Positive l.hateList) h positive_empty

/-- Every step whose sums are exact keeps sums and tops, but a clear of what is not empty. -/
theorem valid_step {op : Op} (hop : op.Ok lists) (hexact : op.Exact lists)
    (hpos : ∀ m, Positive (lists m).hateList) (h : ∀ m, Valid (lists m))
    (hclear : ∀ m, op = .clear m → (lists m).hateList = ∅) : ∀ m, Valid (op.run lists m) := by
  cases op with
  | addHate m serverId hateValue source links now =>
      intro w
      change Valid (addHate m serverId hateValue source links now lists w)
      rw [addHate_apply]
      split_ifs with hown hlink
      · exact (h m).addHate hop.2 hexact.1 now
      · obtain ⟨hsource, hmem, hzero⟩ := hlink
        exact (h w).addHate one_pos (hexact.2 hsource w hmem (Ne.symm hown) hzero) now
      · exact h w
  | removeHate m serverId order =>
      exact forall_update (P := fun _ l => Valid l) h ((h m).removeHate (hpos m) hexact hop)
  | clear m =>
      have hsame : (lists m).clear = lists m := by
        unfold HateList.clear
        rw [← hclear m rfl]
      refine forall_update (P := fun _ l => Valid l) h ?_
      rw [hsame]
      exact h m

theorem run_concat (labels : List Op) (op : Op) :
    system.run system.init (labels ++ [op]) =
      (system.run system.init labels).bind fun lists => system.step lists op := by
  simp [System.run, List.foldlM_append]

theorem step_eq_some {op : Op} :
    system.step lists op = some lists' ↔ op.Ok lists ∧ op.run lists = lists' := by
  simp [system]

theorem positive_run {labels : List Op} (hrun : system.run system.init labels = some lists) :
    ∀ m, Positive (lists m).hateList := by
  induction labels using List.reverseRecOn generalizing lists with
  | nil =>
      obtain rfl := Option.some.inj hrun
      exact fun m => positive_empty
  | append_singleton labels op ih =>
      rw [run_concat] at hrun
      obtain ⟨before, hbefore, hstep⟩ := Option.bind_eq_some_iff.mp hrun
      obtain ⟨hop, rfl⟩ := step_eq_some.mp hstep
      exact positive_step hop (ih hbefore)

theorem eq_empty_of_sum (h : Positive hateList) (hsum : sum hateList = 0) : hateList = ∅ := by
  refine eq_empty_of_lookup fun k => ?_
  cases hv : hateList.lookup k with
  | none => rfl
  | some v =>
      have hsplit := sum_erase hateList k
      have hrest : 0 ≤ sum (hateList.erase k) := by
        refine List.sum_nonneg fun x hx => ?_
        obtain ⟨e, he, rfl⟩ := List.mem_map.mp hx
        have hlookup : (hateList.erase k).lookup e.1 = some e.2 :=
          List.mem_dlookup_iff (hateList.erase k).nodupKeys |>.mpr he
        exact ((h.erase k) e.1 e.2 hlookup).2.le
      rw [hv, Option.elim_some, hsum] at hsplit
      have hvalue := (h k v hv).2
      linarith

/-- Where no sum is rounded, sums and tops are right at every point of a run exactly when each clear
finds an empty list. -/
theorem hate_valid_iff (labels : List Op)
    (hexact : ∀ part op rest lists, labels = part ++ op :: rest →
      system.run system.init part = some lists → op.Exact lists) :
    (∀ part rest lists, labels = part ++ rest → system.run system.init part = some lists →
      ∀ m, Valid (lists m)) ↔
    ∀ part m rest lists, labels = part ++ .clear m :: rest →
      system.run system.init part = some lists → (lists m).hateList = ∅ := by
  constructor
  · intro h part m rest lists hlabels hrun
    have hcleared : system.run system.init (part ++ [.clear m]) =
        some ((Op.clear m).run lists) := by
      rw [run_concat, hrun]
      exact step_eq_some.mpr ⟨trivial, rfl⟩
    have hafter := h (part ++ [.clear m]) rest _ (by rw [hlabels]; simp) hcleared m
    have hclear : (Op.clear m).run lists m = (lists m).clear := Function.update_self _ _ _
    rw [hclear] at hafter
    have htotal : (lists m).totalHate = 0 := hafter.total
    refine eq_empty_of_sum (positive_run hrun m) ?_
    rw [← (h part _ lists hlabels hrun m).total]
    exact htotal
  · intro h part
    induction part using List.reverseRecOn with
    | nil =>
        intro rest lists _ hrun m
        obtain rfl := Option.some.inj hrun
        exact ⟨rfl, fun _ => rfl, fun hne => absurd rfl hne⟩
    | append_singleton part op ih =>
        intro rest lists hlabels hrun
        rw [run_concat] at hrun
        obtain ⟨before, hbefore, hstep⟩ := Option.bind_eq_some_iff.mp hrun
        obtain ⟨hop, rfl⟩ := step_eq_some.mp hstep
        have hsplit : labels = part ++ op :: rest := by simp [hlabels]
        refine valid_step hop (hexact part op rest before hsplit hbefore) (positive_run hbefore)
          (ih (op :: rest) before hsplit hbefore) ?_
        rintro m rfl
        exact h part m rest before hsplit hbefore

/-- Whole hate, a link, and the removal of the top. -/
def removal : List Op :=
  [.addHate 1 2 5 none [3] 0, .addHate 1 4 7 none [] 1, .removeHate 1 4 [2]]

theorem hate_valid_removal : ∃ lists, system.run system.init removal = some lists ∧
    (lists 1).topHateId = 2 ∧ (lists 1).totalHate = 5 ∧ ∀ m, Valid (lists m) := by
  have hrun : (system.run system.init removal).map
      (fun lists => ((lists 1).topHateId, (lists 1).totalHate)) = some (2, 5) := by
    decide +kernel
  obtain ⟨lists, hlists, hread⟩ := Option.map_eq_some_iff.mp hrun
  obtain ⟨htop, htotal⟩ := Prod.mk.inj hread
  have hvalid := (hate_valid_iff removal ?_).mpr ?_ removal [] lists (by simp) hlists
  · exact ⟨lists, hlists, htop, htotal, hvalid⟩
  · intro part op rest lists hpart hrun
    unfold removal at hpart
    match part with
    | [] =>
        cases hpart
        obtain rfl := Option.some.inj hrun
        decide +kernel
    | [_] =>
        cases hpart
        obtain rfl := Option.some.inj hrun
        decide +kernel
    | [_, _] =>
        cases hpart
        obtain rfl := Option.some.inj hrun
        decide +kernel
    | _ :: _ :: _ :: part => simp at hpart
  · intro part m rest lists hpart
    have hmem : Op.clear m ∈ removal := by simp [hpart]
    simp [removal] at hmem

/-- `clear` leaves the sum and the top. -/
theorem clear_stale : ∃ lists, system.Reachable lists ∧ ¬ Valid (lists 1) := by
  have hrun : (system.run system.init [.addHate 1 2 5 none [] 0, .clear 1]).map
      (fun lists => ((lists 1).totalHate, (lists 1).topHateId, (lists 1).hateList.entries)) =
      some (5, 2, []) := by
    decide +kernel
  obtain ⟨lists, hlists, hread⟩ := Option.map_eq_some_iff.mp hrun
  simp only [Prod.mk.injEq] at hread
  obtain ⟨-, htop, hentries⟩ := hread
  refine ⟨lists, System.reachable_of_run _ hlists, fun h => ?_⟩
  have hzero := h.empty (AList.ext hentries)
  rw [htop] at hzero
  cases hzero

end GameServer.Hates
