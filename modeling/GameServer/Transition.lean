import Mathlib.Tactic

/-!
# Labelled transition systems with executable steps

A system has one initial state and a step function that reads a label. All choice (which party
moves, what a call answers) is in the label, so a run is a list of labels and can be evaluated.
`Runs ok` is the set of states reached by runs whose every step meets `ok` on the state before it
and on its label; `Reachable` asks nothing of the steps.
-/

namespace GameServer.Transition

variable {σ ι : Type*}

structure System (σ ι : Type*) where
  init : σ
  step : σ → ι → Option σ

namespace System

variable (S : System σ ι)

def run (s : σ) (labels : List ι) : Option σ := labels.foldlM S.step s

inductive Runs (ok : σ → ι → Prop) : σ → Prop
  | init : Runs ok S.init
  | step {s t : σ} {i : ι} : Runs ok s → ok s i → S.step s i = some t → Runs ok t

def Reachable : σ → Prop := S.Runs (fun _ _ => True)

variable {S} {ok ok' : σ → ι → Prop} {s t : σ}

theorem Runs.mono (h : S.Runs ok s) (hok : ∀ s i, ok s i → ok' s i) : S.Runs ok' s := by
  induction h with
  | init => exact .init
  | step _ hs ht ih => exact .step ih (hok _ _ hs) ht

theorem Runs.reachable (h : S.Runs ok s) : S.Reachable s := h.mono (fun _ _ _ => trivial)

/-- A predicate that holds at the start and survives every admitted step holds in every state of
every admitted run. -/
theorem Runs.invariant {P : σ → Prop} (hinit : P S.init)
    (hstep : ∀ s i t, P s → ok s i → S.step s i = some t → P t) (h : S.Runs ok s) : P s := by
  induction h with
  | init => exact hinit
  | step _ hs ht ih => exact hstep _ _ _ ih hs ht

@[simp] theorem run_nil : S.run s [] = some s := rfl

theorem run_cons {i : ι} {labels : List ι} :
    S.run s (i :: labels) = (S.step s i).bind (fun t => S.run t labels) := rfl

/-- Evaluating a list of admitted labels from a reached state reaches the result. -/
theorem Runs.of_run {labels : List ι} (h : S.Runs ok s) (hok : ∀ i ∈ labels, ∀ u, ok u i)
    (hr : S.run s labels = some t) : S.Runs ok t := by
  induction labels generalizing s with
  | nil =>
      rw [run_nil, Option.some.injEq] at hr
      exact hr ▸ h
  | cons i labels ih =>
      rw [run_cons, Option.bind_eq_some_iff] at hr
      obtain ⟨u, hu, hr⟩ := hr
      exact ih (Runs.step h (hok i List.mem_cons_self s) hu)
        (fun j hj => hok j (List.mem_cons_of_mem _ hj)) hr

/-- The system with steps that do not meet `ok` taken out, to evaluate runs of `Runs ok`. -/
def guarded (S : System σ ι) (ok : σ → ι → Prop) [∀ s i, Decidable (ok s i)] : System σ ι where
  init := S.init
  step s i := if ok s i then S.step s i else none

theorem Runs.of_guarded_run [∀ s i, Decidable (ok s i)] (labels : List ι) (h : S.Runs ok s)
    (hr : (S.guarded ok).run s labels = some t) : S.Runs ok t := by
  induction labels generalizing s with
  | nil =>
      rw [run_nil, Option.some.injEq] at hr
      exact hr ▸ h
  | cons i labels ih =>
      rw [run_cons, Option.bind_eq_some_iff] at hr
      obtain ⟨u, hu, hr⟩ := hr
      simp only [guarded, Option.ite_none_right_eq_some] at hu
      exact ih (Runs.step h hu.1 hu.2) hr

theorem reachable_of_run (labels : List ι) (hr : S.run S.init labels = some t) :
    S.Reachable t := Runs.of_run .init (fun _ _ _ => trivial) hr

end System

end GameServer.Transition

/-!
## Entries of a list

An entry that is written or taken out is named by its index; all other entries stay.
-/

namespace GameServer.Entries

variable {α : Type*} {l : List α} {i : ℕ} {p q x : α}

theorem eq_or_mem_eraseIdx (hi : l[i]? = some p) (hq : q ∈ l) : q = p ∨ q ∈ l.eraseIdx i := by
  obtain ⟨j, hj⟩ := List.mem_iff_getElem?.mp hq
  by_cases hij : j = i
  · subst hij
    exact .inl (Option.some.inj (hj.symm.trans hi))
  · exact .inr (List.mem_eraseIdx_iff_getElem?.mpr ⟨j, hij, hj⟩)

theorem mem_set_self (hi : l[i]? = some p) : x ∈ l.set i x :=
  List.mem_iff_getElem?.mpr ⟨i, List.getElem?_set_self (List.getElem?_eq_some_iff.mp hi).1⟩

theorem mem_set_iff (hi : l[i]? = some p) : q ∈ l.set i x ↔ q = x ∨ q ∈ l.eraseIdx i := by
  constructor
  · intro hq
    obtain ⟨j, hj⟩ := List.mem_iff_getElem?.mp hq
    by_cases hij : j = i
    · subst hij
      rw [List.getElem?_set_self (List.getElem?_eq_some_iff.mp hi).1] at hj
      exact .inl (Option.some.inj hj).symm
    · rw [List.getElem?_set_ne (Ne.symm hij)] at hj
      exact .inr (List.mem_eraseIdx_iff_getElem?.mpr ⟨j, hij, hj⟩)
  · rintro (rfl | hq)
    · exact mem_set_self hi
    · obtain ⟨j, hij, hj⟩ := List.mem_eraseIdx_iff_getElem?.mp hq
      exact List.mem_iff_getElem?.mpr ⟨j, by rwa [List.getElem?_set_ne (Ne.symm hij)]⟩

theorem eq_or_mem_set (hi : l[i]? = some p) (hq : q ∈ l) : q = p ∨ q ∈ l.set i x :=
  (eq_or_mem_eraseIdx hi hq).imp_right fun hq => (mem_set_iff hi).mpr (.inr hq)

end GameServer.Entries
