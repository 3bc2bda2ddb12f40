import GameServer.Targets

/-!
# What a circle selects

The candidates within the radius are sorted by their distances, and as many are copied from the
front as the limit says; so those that are left out are no nearer, or for mode 1 no farther.
-/

namespace GameServer.CircleSelect

open Plane (Vector3 Root)
open Targets

/-! ## The front of a sorted list -/

section Front

variable {α : Type}

theorem counted_unlimited (num : ℤ) (l : List α) : counted (-1) num l = l := by
  induction l generalizing num with
  | nil => rfl
  | cons v rest ih => rw [counted, if_pos (.inr rfl), ih]

theorem counted_take {limit : ℤ} (hlimit : limit ≠ -1) (num : ℤ) (l : List α) :
    counted limit num l = l.take (limit + 1 - num).toNat := by
  induction l generalizing num with
  | nil => exact List.take_nil.symm
  | cons v rest ih =>
      rw [counted]
      by_cases hle : num ≤ limit
      · have hsucc : (limit + 1 - num).toNat = (limit + 1 - (num + 1)).toNat + 1 := by omega
        rw [if_pos (.inl hle), ih, hsucc, List.take_succ_cons]
      · have hzero : (limit + 1 - num).toNat = 0 := by omega
        rw [if_neg (not_or.mpr ⟨hle, hlimit⟩), ih, hzero]
        rfl

/-- How many entries the loop copies. -/
def copies (limit : ℤ) (n : ℕ) : ℕ := if limit = -1 then n else min limit.toNat n

theorem counted_eq_take (limit : ℤ) (l : List α) :
    counted limit 1 l = l.take (copies limit l.length) := by
  unfold copies
  split_ifs with hlimit
  · rw [hlimit, counted_unlimited, List.take_length]
  · rw [counted_take hlimit, add_sub_cancel_right, List.take_eq_take_min]

theorem filterMap_ite {β : Type} (p : α → Prop) [DecidablePred p] (f : α → β) (l : List α) :
    (l.filterMap fun v => if p v then some (f v) else none) = (l.filter p).map f := by
  induction l with
  | nil => rfl
  | cons v rest ih =>
      rw [List.filterMap_cons, ih]
      by_cases hv : p v
      · rw [if_pos hv, List.filter_cons_of_pos (by simpa using hv), List.map_cons]
      · rw [if_neg hv, List.filter_cons_of_neg (by simpa using hv)]

/-- What stands in front of a sorted list precedes the rest. -/
theorem front_of_sorted {r : α → α → Prop} {l : List α} {n : ℕ} {a b : α} (h : l.Pairwise r)
    (ha : a ∈ l.take n) (hb : b ∈ l.drop n) : r a b := by
  rw [← List.take_append_drop n l, List.pairwise_append] at h
  exact h.2.2 a ha b hb

end Front

/-! ## The order of the mode -/

section Order

variable {E K : Type} [LinearOrder K]

theorem orderFunction_precedes (select_mod : ℤ) :
    OrderFunction (precedes (E := E) (K := K) select_mod) where
  asymm a b h := by
    unfold precedes at h ⊢
    split_ifs at h ⊢
    · exact decide_eq_false (not_lt.mpr (of_decide_eq_true h).le)
    · exact decide_eq_false (not_lt.mpr (of_decide_eq_true h).le)
  trans a b c hab hbc := by
    unfold precedes at hab hbc ⊢
    split_ifs at hab hbc ⊢
    · exact decide_eq_false (not_lt.mpr
        ((not_lt.mp (of_decide_eq_false hbc)).trans (not_lt.mp (of_decide_eq_false hab))))
    · exact decide_eq_false (not_lt.mpr
        ((not_lt.mp (of_decide_eq_false hab)).trans (not_lt.mp (of_decide_eq_false hbc))))

/-- The entry in front is no nearer for mode 1. -/
theorem farther_of_precedes {select_mod : ℤ} {a b : K × E} (hmod : select_mod = 1)
    (h : precedes select_mod b a = false) : b.1 ≤ a.1 := by
  rw [precedes, if_pos hmod] at h
  exact not_lt.mp (of_decide_eq_false h)

theorem nearer_of_precedes {select_mod : ℤ} {a b : K × E} (hmod : select_mod ≠ 1)
    (h : precedes select_mod b a = false) : a.1 ≤ b.1 := by
  rw [precedes, if_neg hmod] at h
  exact not_lt.mp (of_decide_eq_false h)

end Order

/-! ## The selection -/

variable {E K : Type} [Field K] [LinearOrder K] (o : Objects E K) (root : Root K)

/-- The distance that the selection compares. -/
def distance (tgt v : E) : K := ((o.pos tgt).sub (o.pos v)).length root

/-- The entities of the valid type within the radius. -/
def within (tgt : E) (radius : K) (typeTargets : List E) : List E :=
  typeTargets.filter fun v => distance o root tgt v ≤ radius

/-- The nearest of the entities within the radius, for mode 1 the farthest of them. -/
structure Nearest (tgt : E) (radius : K) (target_uplimit select_mod : ℤ)
    (typeTargets selects : List E) : Prop where
  nodup : selects.Nodup
  valid : ∀ v ∈ selects, v ∈ typeTargets ∧ distance o root tgt v ≤ radius
  length_eq : selects.length = copies target_uplimit (within o root tgt radius typeTargets).length
  nearest : select_mod ≠ 1 → ∀ v ∈ selects, ∀ w ∈ typeTargets, w ∉ selects →
    distance o root tgt v ≤ distance o root tgt w
  farthest : select_mod = 1 → ∀ v ∈ selects, ∀ w ∈ typeTargets, w ∉ selects →
    distance o root tgt w ≤ radius → distance o root tgt w ≤ distance o root tgt v

variable {o root} {tgt : E} {radius : K} {typeTargets : List E}

theorem inCircle_eq :
    inCircle o root tgt radius typeTargets =
      (within o root tgt radius typeTargets).map fun v => (distance o root tgt v, v) :=
  filterMap_ite (fun v => distance o root tgt v ≤ radius) _ typeTargets

/-- What the order of the entries says of the entities at the front. -/
theorem nearest_of_sorted {select_mod : ℤ} (target_uplimit : ℤ) {entries : List (K × E)}
    (hnodup : typeTargets.Nodup) (hperm : entries.Perm (inCircle o root tgt radius typeTargets))
    (hsorted : entries.Pairwise fun a b => precedes select_mod b a = false) :
    Nearest o root tgt radius target_uplimit select_mod typeTargets
      (counted target_uplimit 1 (entries.map Prod.snd)) := by
  rw [inCircle_eq] at hperm
  have hsnd : (entries.map Prod.snd).Perm (within o root tgt radius typeTargets) := by
    simpa [List.map_map, Function.comp_def] using hperm.map Prod.snd
  have hkey : ∀ {a}, a ∈ entries → a.1 = distance o root tgt a.2 := by
    intro a ha
    obtain ⟨v, -, rfl⟩ := List.mem_map.mp (hperm.mem_iff.mp ha)
    rfl
  have hwithin : ∀ {v}, v ∈ entries.map Prod.snd →
      v ∈ typeTargets ∧ distance o root tgt v ≤ radius := by
    intro v hv
    simpa [within] using hsnd.mem_iff.mp hv
  rw [counted_eq_take]
  set n := copies target_uplimit (entries.map Prod.snd).length with hn
  -- What was left out stands behind what was copied, unless it lies beyond the radius.
  have hbehind : ∀ {v}, v ∈ (entries.map Prod.snd).take n → ∀ {w}, w ∈ typeTargets →
      w ∉ (entries.map Prod.snd).take n → distance o root tgt w ≤ radius →
      ∃ a b : K × E, a.1 = distance o root tgt v ∧ b.1 = distance o root tgt w ∧
        precedes select_mod b a = false := by
    intro v hv w hw hleft hle
    have hmem : w ∈ entries.map Prod.snd :=
      hsnd.mem_iff.mpr (List.mem_filter.mpr ⟨hw, decide_eq_true hle⟩)
    rw [← List.take_append_drop n (entries.map Prod.snd), List.mem_append] at hmem
    have hdrop := hmem.resolve_left hleft
    rw [← List.map_drop] at hdrop
    rw [← List.map_take] at hv
    obtain ⟨a, ha, rfl⟩ := List.mem_map.mp hv
    obtain ⟨b, hb, rfl⟩ := List.mem_map.mp hdrop
    exact ⟨a, b, hkey (List.mem_of_mem_take ha), hkey (List.mem_of_mem_drop hb),
      front_of_sorted (r := fun a b => precedes select_mod b a = false) hsorted ha hb⟩
  constructor
  · exact (hsnd.nodup_iff.mpr (hnodup.filter _)).sublist (List.take_sublist n _)
  · exact fun v hv => hwithin (List.mem_of_mem_take hv)
  · rw [List.length_take, hsnd.length_eq] at *
    rw [hn]
    unfold copies
    split_ifs
    · exact min_self _
    · exact (min_assoc ..).trans (by rw [min_self])
  · intro hmod v hv w hw hleft
    by_cases hle : distance o root tgt w ≤ radius
    · obtain ⟨a, b, ha, hb, hab⟩ := hbehind hv hw hleft hle
      rw [← ha, ← hb]
      exact nearer_of_precedes hmod hab
    · exact (hwithin (List.mem_of_mem_take hv)).2.trans (not_le.mp hle).le
  · intro hmod v hv w hw hleft hle
    obtain ⟨a, b, ha, hb, hab⟩ := hbehind hv hw hleft hle
    rw [← ha, ← hb]
    exact farther_of_precedes hmod hab

variable [DecidableEq E]

/-- Of the entities of the valid type within the radius, a circle selects as many as its limit
allows, and those that it leaves out are no nearer than any that it selects, for mode 1 no
farther. -/
theorem circle_selects_nearest (o : Objects E K) (root : Root K) (deg_acos : K → K)
    (table : TableSort (K × E)) {entityList : List E} (hlist : entityList.Nodup)
    (source target : E) (skilldata : SkillData K) (extra : Vector3 K) {radius : K}
    {target_uplimit select_mod : ℤ}
    (hrange : skilldata.szSelectRange = .circle radius target_uplimit select_mod) :
    Nearest o root (if skilldata.n32SkillTargetType = 0 then source else target) radius
      target_uplimit select_mod (getTypeEntitys o entityList source skilldata true)
      (getSkillSelectsEntitys o root deg_acos entityList table source target skilldata extra) := by
  unfold getSkillSelectsEntitys
  rw [hrange]
  exact nearest_of_sorted target_uplimit (nodup_getTypeEntitys hlist) (table.perm _ _)
    (table.sorted _ (orderFunction_precedes select_mod) _)

/-! ## The two nearest of three -/

/-- Merging sorts as `table.sort` does. -/
def mergeTable (α : Type) : TableSort α where
  sort lt l := l.mergeSort fun a b => !lt b a
  perm _ l := List.mergeSort_perm l _
  sorted lt h l := by
    have hsorted := @List.pairwise_mergeSort α (fun a b => !lt b a) (fun a b c hab hbc => by
      rw [Bool.not_eq_true'] at hab hbc ⊢
      exact h.trans a b c hab hbc) (fun a b => by
      cases hba : lt b a
      · rfl
      · rw [h.asymm b a hba]
        rfl) l
    exact hsorted.imp fun hab => by simpa using hab

/-- Three players of no camp in a row. -/
def row : Objects (Fin 3) ℚ where
  getType _ := .IMapPlayer
  entityType _ := .player
  camp _ := none
  getHp _ := 1
  pos i := ⟨0, i.val⟩
  serverId i := i

/-- Two of all the others within five steps. -/
def nova : SkillData ℚ where
  n32SkillType := 1
  n32SkillTargetType := 0
  n32SelectTargetType := 5
  n32AffectTargetType := 5
  szSelectRange := .circle 5 2 0
  szAffectRange := .single

theorem circle_selects_nearest_row :
    Nearest row Plane.rationals 0 5 2 0 (getTypeEntitys row [2, 0, 1] 0 nova true)
      (getSkillSelectsEntitys row Plane.rationals id [2, 0, 1] (mergeTable _) 0 2 nova ⟨0, 0⟩) :=
  circle_selects_nearest row Plane.rationals id (mergeTable _) (by decide) 0 2 nova ⟨0, 0⟩ rfl

end GameServer.CircleSelect
