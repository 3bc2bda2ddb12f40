import Mathlib.Tactic

/-!
# Best-first search over a weighted relation

Walks with their costs, heuristics that are consistent along a step, and the frontier of a search:
the closed vertices with their final scores and the open ones with the scores found so far. A
vertex of least score plus heuristic on the frontier has its final score, so it can be closed for
good; when the frontier is empty every vertex that a walk reaches is closed.
-/

namespace GameServer.BestFirst

variable {V C : Type*} [AddCommMonoid C]

/-- A walk from `s` with its cost, extended at its end. -/
inductive Walk (step : V → V → C → Prop) (s : V) : V → C → Prop
  | nil : Walk step s s 0
  | snoc {v w : V} {c d : C} : Walk step s v c → step v w d → Walk step s w (c + d)

/-- The vertices of a path and the sum of its steps, latest vertex first. -/
inductive Trail (step : V → V → C → Prop) (s : V) : List V → C → Prop
  | nil : Trail step s [s] 0
  | snoc {v w : V} {l : List V} {c d : C} :
      Trail step s (v :: l) c → step v w d → Trail step s (w :: v :: l) (c + d)

variable {step : V → V → C → Prop} {s u v w : V} {c d : C}

theorem Trail.walk {l : List V} (h : Trail step s (v :: l) c) : Walk step s v c := by
  generalize hvl : v :: l = vl at h
  induction h generalizing v l with
  | nil =>
      obtain ⟨rfl, -⟩ := List.cons.inj hvl
      exact .nil
  | snoc _ hstep ih =>
      obtain ⟨rfl, -⟩ := List.cons.inj hvl
      exact .snoc (ih rfl) hstep

variable [PartialOrder C] [IsOrderedCancelAddMonoid C]

/-- A heuristic drops along a step by no more than the step costs. -/
def Consistent (step : V → V → C → Prop) (heuristic : V → C) : Prop :=
  ∀ v w c, step v w c → heuristic v ≤ c + heuristic w

theorem Consistent.walk {heuristic : V → C} (h : Consistent step heuristic)
    (hw : Walk step u v c) : heuristic u ≤ c + heuristic v := by
  induction hw with
  | nil => rw [zero_add]
  | @snoc v w c d _ hstep ih =>
      calc heuristic u ≤ c + heuristic v := ih
        _ ≤ c + (d + heuristic w) := add_le_add_right (h v w d hstep) c
        _ = c + d + heuristic w := (add_assoc _ _ _).symm

/-- The closed and the open vertices of a search from `s`, each with its score. -/
structure Frontier (step : V → V → C → Prop) (s : V) (closed opened : V → C → Prop) : Prop where
  start : ∃ b ≤ 0, closed s b ∨ opened s b
  relaxed : ∀ v w a c, closed v a → step v w c →
    (∃ b, closed w b) ∨ ∃ b ≤ a + c, opened w b
  settled : ∀ v a c, closed v a → Walk step s v c → a ≤ c

namespace Frontier

variable {closed opened : V → C → Prop}

/-- A walk ends in a closed vertex or passes through an open one that was found no later. -/
theorem exists_open (h : Frontier step s closed opened) (hw : Walk step s v c) :
    (∃ a, closed v a) ∨ ∃ u b d, opened u b ∧ Walk step u v d ∧ b + d ≤ c := by
  induction hw with
  | nil =>
      obtain ⟨b, hb, hclosed | hopen⟩ := h.start
      · exact Or.inl ⟨b, hclosed⟩
      · exact Or.inr ⟨s, b, 0, hopen, .nil, by rwa [add_zero]⟩
  | @snoc v w c d hw hstep ih =>
      rcases ih with ⟨a, hclosed⟩ | ⟨u, b, e, hopen, hwalk, hle⟩
      · rcases h.relaxed v w a d hclosed hstep with hw | ⟨b, hb, hopen⟩
        · exact Or.inl hw
        · refine Or.inr ⟨w, b, 0, hopen, .nil, ?_⟩
          have ha : a ≤ c := h.settled v a c hclosed hw
          calc b + 0 = b := add_zero b
            _ ≤ a + d := hb
            _ ≤ c + d := add_le_add_left ha d
      · refine Or.inr ⟨u, b, e + d, hopen, .snoc hwalk hstep, ?_⟩
        calc b + (e + d) = b + e + d := (add_assoc _ _ _).symm
          _ ≤ c + d := add_le_add_left hle d

/-- The open vertex with the least sum of score and heuristic has its final score. -/
theorem least_settled {heuristic : V → C} {b : C} (h : Frontier step s closed opened)
    (hcons : Consistent step heuristic) (hnot : ∀ a, ¬ closed u a)
    (hleast : ∀ w a, opened w a → b + heuristic u ≤ a + heuristic w)
    (hw : Walk step s u c) : b ≤ c := by
  rcases h.exists_open hw with ⟨a, hclosed⟩ | ⟨w, a, d, hopen, hwalk, hle⟩
  · exact absurd hclosed (hnot a)
  · have hsum : b + heuristic u ≤ c + heuristic u :=
      calc b + heuristic u ≤ a + heuristic w := hleast w a hopen
        _ ≤ a + (d + heuristic u) := add_le_add_right (hcons.walk hwalk) a
        _ = a + d + heuristic u := (add_assoc _ _ _).symm
        _ ≤ c + heuristic u := add_le_add_left hle _
    exact le_of_add_le_add_right hsum

/-- With nothing open, every vertex that a walk reaches is closed. -/
theorem exhausted (h : Frontier step s closed opened) (hempty : ∀ w a, ¬ opened w a)
    (hw : Walk step s v c) : ∃ a, closed v a := by
  rcases h.exists_open hw with hclosed | ⟨u, b, d, hopen, -⟩
  · exact hclosed
  · exact absurd hopen (hempty u b)

end Frontier

end GameServer.BestFirst
