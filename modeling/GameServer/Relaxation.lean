import Mathlib.Algebra.Order.Monoid.Defs
import Mathlib.Data.Option.Basic
import Mathlib.Logic.Function.Basic
import Mathlib.Order.Bounds.Basic

/-!
# Relaxation of labels over a weighted relation

Sources with costs, steps with costs, and labels that are lowered one step at a time. A vertex is
pending when its steps may not have been tried with its label as it is. When nothing is pending, the
labels are the least costs.
-/

namespace GameServer.Relaxation

variable {V C : Type*} [AddCommMonoid C] [LinearOrder C]

/-- What a vertex can be reached at. -/
inductive Reaches (init : V → C → Prop) (step : V → V → C → Prop) : V → C → Prop
  | start {v : V} {c : C} : init v c → Reaches init step v c
  | step {v w : V} {c d : C} :
      Reaches init step v c → step v w d → Reaches init step w (c + d)

/-- The costs at which a vertex can be reached. -/
def costs (init : V → C → Prop) (step : V → V → C → Prop) (v : V) : Set C :=
  {c | Reaches init step v c}

/-- The label of `w` is no more than `c`. -/
def AtMost (label : V → Option C) (w : V) (c : C) : Prop := ∃ b ≤ c, label w = some b

structure Labels (init : V → C → Prop) (step : V → V → C → Prop) (label : V → Option C)
    (pending : V → Prop) : Prop where
  start : ∀ v c, init v c → AtMost label v c
  sound : ∀ v a, label v = some a → Reaches init step v a
  relaxed : ∀ v w a d, label v = some a → ¬ pending v → step v w d → AtMost label w (a + d)

variable {init : V → C → Prop} {step : V → V → C → Prop} {label : V → Option C} {pending : V → Prop}
  {v w : V} {a b c d : C}

/-! ## Lower labels -/

section lower

variable [DecidableEq V]

/-- The label `c` is new for `w` or no more than its label. -/
def Lowers (label : V → Option C) (w : V) (c : C) : Prop := ∀ b, label w = some b → c ≤ b

omit [AddCommMonoid C] in
theorem AtMost.update (h : AtMost label v a) (hlower : Lowers label w c) :
    AtMost (Function.update label w (some c)) v a := by
  obtain ⟨b, hb, hlabel⟩ := h
  by_cases hv : v = w
  · subst hv
    exact ⟨c, (hlower b hlabel).trans hb, Function.update_self v (some c) label⟩
  · exact ⟨b, hb, by rw [Function.update_of_ne hv, hlabel]⟩

theorem Labels.update (h : Labels init step label pending) (hlower : Lowers label w c)
    (hreach : Reaches init step w c) :
    Labels init step (Function.update label w (some c)) fun u => pending u ∨ u = w where
  start v a hinit := (h.start v a hinit).update hlower
  sound v a hlabel := by
    by_cases hv : v = w
    · subst hv
      rw [Function.update_self, Option.some.injEq] at hlabel
      exact hlabel ▸ hreach
    · rw [Function.update_of_ne hv] at hlabel
      exact h.sound v a hlabel
  relaxed v u a d hlabel hpending hstep := by
    obtain ⟨hold, hne⟩ := not_or.mp hpending
    rw [Function.update_of_ne hne] at hlabel
    exact (h.relaxed v u a d hlabel hold hstep).update hlower

end lower

theorem Labels.mono {pending' : V → Prop} (h : Labels init step label pending)
    (hpending : ∀ u, pending u → pending' u) : Labels init step label pending' where
  start := h.start
  sound := h.sound
  relaxed v w a d hlabel hnot := h.relaxed v w a d hlabel (mt (hpending v) hnot)

/-- A vertex whose steps were tried is not pending any more. -/
theorem Labels.settle (h : Labels init step label pending)
    (htried : ∀ w a d, label v = some a → step v w d → AtMost label w (a + d)) :
    Labels init step label fun u => pending u ∧ u ≠ v where
  start := h.start
  sound := h.sound
  relaxed u w a d hlabel hnot hstep := by
    by_cases hu : u = v
    · subst hu
      exact htried w a d hlabel hstep
    · exact h.relaxed u w a d hlabel (fun hpending => hnot ⟨hpending, hu⟩) hstep

/-! ## Final labels -/

section final

variable [IsOrderedAddMonoid C]

theorem Labels.atMost (h : Labels init step label fun _ => False) (hr : Reaches init step v c) :
    AtMost label v c := by
  induction hr with
  | start hinit => exact h.start _ _ hinit
  | @step v w c d _ hstep ih =>
      obtain ⟨b, hb, hlabel⟩ := ih
      obtain ⟨b', hb', hlabel'⟩ := h.relaxed v w b d hlabel id hstep
      exact ⟨b', hb'.trans (add_le_add_left hb d), hlabel'⟩

theorem Labels.eq_some_iff (h : Labels init step label fun _ => False) :
    label v = some a ↔ IsLeast (costs init step v) a := by
  constructor
  · intro hlabel
    refine ⟨h.sound v a hlabel, fun c hc => ?_⟩
    obtain ⟨b, hb, hlabel'⟩ := h.atMost hc
    rw [hlabel, Option.some.injEq] at hlabel'
    exact hlabel' ▸ hb
  · rintro ⟨hreach, hleast⟩
    obtain ⟨b, hb, hlabel⟩ := h.atMost hreach
    rw [hlabel, le_antisymm hb (hleast (h.sound v b hlabel))]

theorem Labels.eq_none_iff (h : Labels init step label fun _ => False) :
    label v = none ↔ costs init step v = ∅ := by
  rw [Set.eq_empty_iff_forall_notMem]
  constructor
  · intro hnone c hc
    obtain ⟨b, -, hlabel⟩ := h.atMost hc
    rw [hnone] at hlabel
    cases hlabel
  · intro hempty
    cases hlabel : label v with
    | none => rfl
    | some a => exact absurd (h.sound v a hlabel) (hempty a)

/-- A label that is no source's comes from a step. -/
theorem Labels.pred (h : Labels init step label fun _ => False) (hlabel : label w = some a)
    (hinit : ¬ init w a) : ∃ v b d, label v = some b ∧ step v w d ∧ a = b + d := by
  cases h.sound w a hlabel with
  | start hstart => exact absurd hstart hinit
  | @step v _ c d hreach hstep =>
      obtain ⟨b, hb, hlabel'⟩ := h.atMost hreach
      obtain ⟨a', ha', hw⟩ := h.relaxed v w b d hlabel' id hstep
      rw [hlabel, Option.some.injEq] at hw
      exact ⟨v, b, d, hlabel', hstep, le_antisymm (hw ▸ ha') (add_le_add_left hb d)⟩

end final

end GameServer.Relaxation
