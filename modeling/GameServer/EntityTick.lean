import GameServer.Sweep
import GameServer.Targets

/-!
# A tick of the entity manager

Every entity of the list has an `update`, which may do anything to the world but takes nothing out
of the list. The rule for the removal asks for the entity type, and a pet may be of another type
than `pet`.
-/

namespace GameServer.EntityTick

open Sweep (Loop Ran)
open Targets (EntityType)

/-- The classes of the objects in the list, a pet with the type of its row. -/
inductive Kind
  | IMapPlayer
  | IMonster
  | IBuilding
  | IPet (n32Type : ℤ)
  | IflyObj
  deriving DecidableEq

/-- What `IPet:init` makes of the entity type. -/
def petType (n32Type : ℤ) : EntityType :=
  let entityType := EntityType.pet
  let entityType := if n32Type = 2 then .building else entityType
  if n32Type = 4 then .trap else entityType

def entityType : Kind → EntityType
  | .IMapPlayer => .player
  | .IMonster => .monster
  | .IBuilding => .building
  | .IPet n32Type => petType n32Type
  | .IflyObj => .flyObj

/-- The entities of a world, and what their updates do to it: the world after the update, and what
`addEntity` got in it. -/
structure Entities (E W : Type) where
  kind : E → Kind
  getHp : E → W → ℤ
  isDead : E → W → Bool
  update : E → W → List E → W × List E

section Tick

variable {E W : Type} (entities : Entities E W)

/-- Whether the loop removes the entity after its update. -/
def removed (v : E) (w : W) : Bool :=
  if entityType (entities.kind v) = .monster ∨ entityType (entities.kind v) = .pet then
    entities.getHp v w ≤ 0
  else if entityType (entities.kind v) = .flyObj then entities.isDead v w
  else false

def manager : Loop E W where
  body := entities.update
  removed := removed entities

def update (w : W) (entityList : List E) : Ran E W :=
  (manager entities).sweep entityList.length w entityList

/-- The monsters and pets without life and the dead fly objects. -/
def Dead (v : E) (w : W) : Prop :=
  match entities.kind v with
  | .IMonster => entities.getHp v w ≤ 0
  | .IPet _ => entities.getHp v w ≤ 0
  | .IflyObj => entities.isDead v w = true
  | _ => False

/-- Every entity of the start is updated once, none of those that were added, and those that are
dead at the end of their update are removed, and no others. -/
structure Ticked (entityList : List E) (ran : Ran E W) [DecidableEq E] : Prop where
  once : ∀ e ∈ entityList, (ran.calls.map Prod.fst).count e = 1
  not_added : ∀ e ∈ ran.added, e ∉ ran.calls.map Prod.fst
  removes : ∀ e w, (e, w) ∈ ran.calls → Dead entities e w → e ∉ ran.list
  keeps : ∀ e w, (e, w) ∈ ran.calls → ¬ Dead entities e w → e ∈ ran.list
  keeps_added : ∀ e ∈ ran.added, e ∈ ran.list

/-- The pets that are a building or a trap outlive their updates. -/
def OtherPetsLive (ran : Ran E W) : Prop :=
  ∀ e w, (e, w) ∈ ran.calls → ∀ n32Type, entities.kind e = .IPet n32Type →
    n32Type = 2 ∨ n32Type = 4 → 0 < entities.getHp e w

/-- No fly object that is dead after the tick is in the list. -/
def FlyObjsLeave (ran : Ran E W) : Prop :=
  ∀ e ∈ ran.list, entities.kind e = .IflyObj → entities.isDead e ran.state = false

/-- The fly objects that are dead after the tick were so at the end of their updates. -/
def FlyObjsDieInTime (ran : Ran E W) : Prop :=
  (∀ e w, (e, w) ∈ ran.calls → entities.kind e = .IflyObj →
    entities.isDead e ran.state = true → entities.isDead e w = true) ∧
  ∀ e ∈ ran.added, entities.kind e = .IflyObj → entities.isDead e ran.state = false

variable {entities}

/-! ## The rule for the removal -/

theorem petType_other {n32Type : ℤ} (h : n32Type = 2 ∨ n32Type = 4) :
    petType n32Type = .building ∨ petType n32Type = .trap := by
  obtain rfl | rfl := h
  · exact .inl (by decide)
  · exact .inr (by decide)

theorem petType_pet {n32Type : ℤ} (h : ¬ (n32Type = 2 ∨ n32Type = 4)) :
    petType n32Type = .pet := by
  rw [not_or] at h
  simp [petType, h.1, h.2]

/-- The rule removes what is dead, other than the pets that are a building or a trap. -/
theorem removed_iff {v : E} {w : W} :
    removed entities v w = true ↔ Dead entities v w ∧
      ∀ n32Type, entities.kind v = .IPet n32Type → ¬ (n32Type = 2 ∨ n32Type = 4) := by
  unfold removed Dead
  cases hkind : entities.kind v with
  | IMapPlayer => simp [entityType]
  | IMonster => simp [entityType]
  | IBuilding => simp [entityType]
  | IflyObj => simp [entityType]
  | IPet n32Type =>
      by_cases hother : n32Type = 2 ∨ n32Type = 4
      · refine iff_of_false ?_ fun h => h.2 n32Type rfl hother
        obtain hbuilding | htrap := petType_other hother
        · simp [entityType, hbuilding]
        · simp [entityType, htrap]
      · simp [entityType, petType_pet hother, (not_or.mp hother).1, (not_or.mp hother).2]

/-! ## The tick -/

variable {w : W} {entityList : List E}

theorem calls_eq (w : W) (entityList : List E) :
    (update entities w entityList).calls.map Prod.fst = entityList.reverse := by
  have hcalls := Loop.sweep_calls (L := manager entities) entityList [] w
  rwa [List.append_nil] at hcalls

theorem mem_calls {e : E} {t : W} (h : (e, t) ∈ (update entities w entityList).calls) :
    e ∈ entityList := by
  have hmem := List.mem_map_of_mem (f := Prod.fst) h
  rw [calls_eq] at hmem
  exact List.mem_reverse.mp hmem

theorem mem_list {e : E} :
    e ∈ (update entities w entityList).list ↔
      (∃ t, (e, t) ∈ (update entities w entityList).calls ∧ removed entities e t = false) ∨
        e ∈ (update entities w entityList).added := Loop.mem_list_iff

variable (hfresh : (entityList ++ (update entities w entityList).added).Nodup)
include hfresh

theorem not_mem_added {e : E} (h : e ∈ entityList) :
    e ∉ (update entities w entityList).added :=
  fun hadded => (List.disjoint_of_nodup_append hfresh) h hadded

theorem call_unique {e : E} {t t' : W} (h : (e, t) ∈ (update entities w entityList).calls)
    (h' : (e, t') ∈ (update entities w entityList).calls) : t = t' := by
  have hnodup : ((update entities w entityList).calls.map Prod.fst).Nodup := by
    rw [calls_eq]
    exact List.nodup_reverse.mpr hfresh.of_append_left
  exact congrArg Prod.snd (List.inj_on_of_nodup_map hnodup h h' rfl)

/-- An entity of the start stays if and only if the rule does not remove it. -/
theorem stays_iff {e : E} {t : W} (h : (e, t) ∈ (update entities w entityList).calls) :
    e ∈ (update entities w entityList).list ↔ removed entities e t = false := by
  rw [mem_list]
  constructor
  · rintro (⟨t', h', hkept⟩ | hadded)
    · rwa [call_unique hfresh h h']
    · exact absurd hadded (not_mem_added hfresh (mem_calls h))
  · exact fun hkept => .inl ⟨t, h, hkept⟩

theorem removes_iff :
    (∀ e t, (e, t) ∈ (update entities w entityList).calls → Dead entities e t →
      e ∉ (update entities w entityList).list) ↔
      OtherPetsLive entities (update entities w entityList) := by
  constructor
  · intro hremoves e t hcall n32Type hkind hother
    by_contra hhp
    have hdead : Dead entities e t := by
      rw [Dead, hkind]
      exact not_lt.mp hhp
    have hgone := hremoves e t hcall hdead
    rw [stays_iff hfresh hcall, Bool.not_eq_false, removed_iff] at hgone
    exact hgone.2 n32Type hkind hother
  · intro hlive e t hcall hdead
    rw [stays_iff hfresh hcall, Bool.not_eq_false, removed_iff]
    refine ⟨hdead, fun n32Type hkind hother => ?_⟩
    rw [Dead, hkind] at hdead
    exact (hlive e t hcall n32Type hkind hother).not_ge hdead

theorem flyObjsLeave_iff :
    FlyObjsLeave entities (update entities w entityList) ↔
      FlyObjsDieInTime entities (update entities w entityList) := by
  have hrule : ∀ {e t}, entities.kind e = .IflyObj →
      removed entities e t = entities.isDead e t := by
    intro e t hkind
    simp [removed, hkind, entityType]
  constructor
  · intro hleave
    refine ⟨fun e t hcall hkind hdead => ?_, fun e hadded hkind => ?_⟩
    · by_contra halive
      have hstays := (stays_iff hfresh hcall).mpr
        ((hrule hkind).trans (Bool.eq_false_of_not_eq_true halive))
      rw [hleave e hstays hkind] at hdead
      exact Bool.false_ne_true hdead
    · exact hleave e (mem_list.mpr (.inr hadded)) hkind
  · rintro ⟨hcalls, hadded⟩ e he hkind
    obtain ⟨t, hcall, hkept⟩ | hnew := mem_list.mp he
    · rw [hrule hkind] at hkept
      exact Bool.eq_false_of_not_eq_true fun hdead =>
        Bool.false_ne_true (hkept.symm.trans (hcalls e t hcall hkind hdead))
    · exact hadded e hnew hkind

omit hfresh

/-- A tick does what it should if and only if no pet that is a building or a trap is without life
at the end of its update; and the fly objects that are dead after the tick have left if and only if
each of them was dead at the end of its own update. -/
theorem ticked_iff [DecidableEq E] (entities : Entities E W) (w : W) (entityList : List E)
    (hfresh : (entityList ++ (update entities w entityList).added).Nodup) :
    (Ticked entities entityList (update entities w entityList) ↔
      OtherPetsLive entities (update entities w entityList)) ∧
    (FlyObjsLeave entities (update entities w entityList) ↔
      FlyObjsDieInTime entities (update entities w entityList)) := by
  refine ⟨⟨fun h => (removes_iff hfresh).mp h.removes, fun h => ?_⟩, flyObjsLeave_iff hfresh⟩
  constructor
  · intro e he
    rw [calls_eq, List.count_reverse]
    exact List.count_eq_one_of_mem hfresh.of_append_left he
  · intro e hadded hcalled
    rw [calls_eq, List.mem_reverse] at hcalled
    exact not_mem_added hfresh hcalled hadded
  · exact (removes_iff hfresh).mpr h
  · intro e t hcall halive
    rw [stays_iff hfresh hcall]
    exact Bool.eq_false_of_not_eq_true fun hremoved => halive (removed_iff.mp hremoved).1
  · exact fun e hadded => mem_list.mpr (.inr hadded)

end Tick

/-! ## A trap whose time is over -/

/-- Every update costs the entity its life. -/
def expiring (kind : Kind) : Entities Unit ℤ where
  kind _ := kind
  getHp _ w := w
  isDead _ _ := false
  update _ _ _ := (-1, [])

/-- The trap is dead and stays in the list. -/
theorem not_ticked_trap :
    ¬ Ticked (expiring (.IPet 4)) [()] (update (expiring (.IPet 4)) 10 [()]) := by
  intro h
  have hdead : Dead (expiring (.IPet 4)) () (-1) := show (-1 : ℤ) ≤ 0 by decide
  exact h.removes () (-1) (by decide) hdead (by decide)

theorem ticked_iff_monster :
    (Ticked (expiring .IMonster) [()] (update (expiring .IMonster) 10 [()]) ↔
      OtherPetsLive (expiring .IMonster) (update (expiring .IMonster) 10 [()])) ∧
    (FlyObjsLeave (expiring .IMonster) (update (expiring .IMonster) 10 [()]) ↔
      FlyObjsDieInTime (expiring .IMonster) (update (expiring .IMonster) 10 [()])) :=
  ticked_iff (expiring .IMonster) 10 [()] (by decide)

end GameServer.EntityTick
