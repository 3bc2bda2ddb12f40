import GameServer.Targets

/-!
# How often an area effect hits

The double loop inserts a candidate once for each selected centre that covers it, and the effect is
built once for each entry of the list.
-/

namespace GameServer.AreaHits

open Plane (Vector3 Root)
open Targets

section Inner

variable {α : Type}

theorem inner_eq (test : α → Bool) (tv : α) (selects : List α) :
    (selects.filterMap fun sv => if test sv = true then some tv else none) =
      List.replicate (selects.filter test).length tv := by
  induction selects with
  | nil => rfl
  | cons sv rest ih =>
      rw [List.filterMap_cons, ih]
      by_cases htest : test sv = true
      · rw [if_pos htest, List.filter_cons_of_pos htest]
        rfl
      · rw [if_neg htest, List.filter_cons_of_neg htest]

theorem mem_inner {test : α → Bool} {tv e : α} {selects : List α} :
    (e ∈ selects.filterMap fun sv => if test sv = true then some tv else none) ↔
      e = tv ∧ ∃ s ∈ selects, test s = true := by
  rw [inner_eq, List.mem_replicate, and_comm]
  refine and_congr_right fun _ => ?_
  rw [Ne, List.length_eq_zero_iff, List.filter_eq_nil_iff]
  push Not
  exact Iff.rfl

end Inner

variable {E K : Type} [DecidableEq E] [Field K] [LinearOrder K] (o : Objects E K) (root : Root K)
  (deg_acos : K → K) (entityList : List E) (source : E) (selects : List E)
  (skilldata : SkillData K) (extra : Vector3 K)

/-- The entities of the valid type that a selected one covers are hit, each of them once, and the
effect is built at most once on each of them. -/
structure HitOnce : Prop where
  once : (getSkillAffectEntitys o root deg_acos entityList source selects skilldata extra).Nodup
  mem_iff : ∀ e,
    e ∈ getSkillAffectEntitys o root deg_acos entityList source selects skilldata extra ↔
      e ∈ candidates o entityList source selects skilldata ∧
        ∃ s ∈ selects, covers o root deg_acos skilldata extra s e = true
  built : ∀ checks e,
    (trgggerAffect checks source skilldata.n32SkillType
      (getSkillAffectEntitys o root deg_acos entityList source selects skilldata extra)).count e ≤ 1

/-- A skill on its own caster has a selected entity that covers the caster; for other skills no
candidate is covered twice. -/
def NoOverlap : Prop :=
  if skilldata.n32AffectTargetType = 0 then
    ∃ s ∈ selects, covers o root deg_acos skilldata extra s source = true
  else ∀ t ∈ candidates o entityList source selects skilldata,
    (selects.filter fun s => covers o root deg_acos skilldata extra s t).length ≤ 1

variable {o root deg_acos entityList source selects skilldata extra}

/-! ## The affected entities -/

theorem mem_affects (h : skilldata.n32AffectTargetType ≠ 0) (e : E) :
    e ∈ getSkillAffectEntitys o root deg_acos entityList source selects skilldata extra ↔
      e ∈ candidates o entityList source selects skilldata ∧
        ∃ s ∈ selects, covers o root deg_acos skilldata extra s e = true := by
  rw [getSkillAffectEntitys, if_neg h, List.mem_flatMap]
  constructor
  · rintro ⟨tv, htv, he⟩
    obtain ⟨rfl, hs⟩ := mem_inner.mp he
    exact ⟨htv, hs⟩
  · rintro ⟨he, hs⟩
    exact ⟨e, he, mem_inner.mpr ⟨rfl, hs⟩⟩

theorem nodup_candidates (h : entityList.Nodup) :
    (candidates o entityList source selects skilldata).Nodup := by
  have htypes : (getTypeEntitys o entityList source skilldata false).Nodup :=
    nodup_getTypeEntitys h
  unfold candidates
  dsimp only
  split_ifs
  · exact htypes.filter _
  · exact htypes

theorem nodup_affects_iff (h : skilldata.n32AffectTargetType ≠ 0) (hlist : entityList.Nodup) :
    (getSkillAffectEntitys o root deg_acos entityList source selects skilldata extra).Nodup ↔
      ∀ t ∈ candidates o entityList source selects skilldata,
        (selects.filter fun s => covers o root deg_acos skilldata extra s t).length ≤ 1 := by
  rw [getSkillAffectEntitys, if_neg h, List.nodup_flatMap]
  constructor
  · rintro ⟨hinner, -⟩ t ht
    have hnodup := hinner t ht
    rwa [inner_eq, List.nodup_replicate] at hnodup
  · intro hcover
    refine ⟨fun t ht => ?_, ?_⟩
    · rw [inner_eq, List.nodup_replicate]
      exact hcover t ht
    · refine (nodup_candidates hlist).imp fun hne => ?_
      intro e he he'
      exact hne ((mem_inner.mp he).1.symm.trans (mem_inner.mp he').1)

/-! ## The effect -/

theorem built_sublist (checks : Checks) (n32SkillType : ℤ) (i : ℕ) (targets : List E) :
    (built checks source n32SkillType i targets).Sublist targets := by
  induction targets generalizing i with
  | nil => exact List.Sublist.slnil
  | cons v rest ih =>
      rw [built]
      split_ifs
      · exact (ih _).cons v
      · exact (ih _).cons v
      · exact (ih _).cons v
      · exact (ih _).cons_cons v

theorem trgggerAffect_sublist (checks : Checks) (n32SkillType : ℤ) (targets : List E) :
    (trgggerAffect checks source n32SkillType targets).Sublist targets := by
  unfold trgggerAffect
  split_ifs
  · exact List.nil_sublist targets
  · exact built_sublist checks n32SkillType 0 targets

/-- An area effect hits each victim once if and only if no candidate is covered twice, or, for a
skill on its own caster, if a selected entity covers the caster. -/
theorem hitOnce_iff (o : Objects E K) (root : Root K) (deg_acos : K → K) (skilldata : SkillData K)
    (source : E) (extra : Vector3 K) (hlist : entityList.Nodup) :
    HitOnce o root deg_acos entityList source selects skilldata extra ↔
      NoOverlap o root deg_acos entityList source selects skilldata extra := by
  have hbuilt : (getSkillAffectEntitys o root deg_acos entityList source selects skilldata
      extra).Nodup → ∀ checks e, (trgggerAffect checks source skilldata.n32SkillType
        (getSkillAffectEntitys o root deg_acos entityList source selects skilldata extra)).count e
          ≤ 1 := fun hnodup checks e =>
    List.nodup_iff_count_le_one.mp (hnodup.sublist (trgggerAffect_sublist ..)) e
  by_cases h : skilldata.n32AffectTargetType = 0
  · have haffects : getSkillAffectEntitys o root deg_acos entityList source selects skilldata
        extra = [source] := if_pos h
    have hcandidates : candidates o entityList source selects skilldata = [source] := by
      simp [candidates, getTypeEntitys, h]
    rw [NoOverlap, if_pos h]
    constructor
    · intro hit
      exact ((hit.mem_iff source).mp (haffects ▸ List.mem_singleton_self source)).2
    · intro hs
      have hnodup := haffects ▸ List.nodup_singleton source
      refine ⟨hnodup, fun e => ?_, hbuilt hnodup⟩
      rw [haffects, hcandidates, List.mem_singleton]
      exact ⟨fun he => ⟨he, he ▸ hs⟩, fun he => he.1⟩
  · rw [NoOverlap, if_neg h, ← nodup_affects_iff h hlist]
    exact ⟨fun hit => hit.once, fun hnodup => ⟨hnodup, mem_affects h, hbuilt hnodup⟩⟩

/-! ## Two overlapping circles -/

/-- Two players of no camp side by side. -/
def pair : Objects (Fin 2) ℚ where
  getType _ := .IMapPlayer
  entityType _ := .player
  camp _ := none
  getHp _ := 1
  pos _ := ⟨0, 0⟩
  serverId i := i

/-- A blow on everyone within one step of a selected entity. -/
def blow : SkillData ℚ where
  n32SkillType := 1
  n32SkillTargetType := 1
  n32SelectTargetType := 5
  n32AffectTargetType := 5
  szSelectRange := .circle 1 (-1) 0
  szAffectRange := .circle 1 0 0

theorem covers_blow (s t : Fin 2) : covers pair Plane.rationals id blow ⟨0, 0⟩ s t = true := by
  simp [covers, blow, pair, Vector3.sub, Vector3.length, Plane.rationals]

/-- Both were selected, so each is hit twice. -/
theorem not_hitOnce_blow :
    ¬ HitOnce pair Plane.rationals id [0, 1] 0 [0, 1] blow ⟨0, 0⟩ := by
  intro hit
  have hmem : (1 : Fin 2) ∈ candidates pair [0, 1] 0 [0, 1] blow := by decide
  have hnodup := (nodup_affects_iff (by decide) (by decide)).mp hit.once 1 hmem
  simp [covers_blow] at hnodup

theorem hitOnce_iff_blow :
    HitOnce pair Plane.rationals id [0, 1] 0 [0] blow ⟨0, 0⟩ ↔
      NoOverlap pair Plane.rationals id [0, 1] 0 [0] blow ⟨0, 0⟩ :=
  hitOnce_iff pair Plane.rationals id blow 0 ⟨0, 0⟩ (by decide)

end GameServer.AreaHits
