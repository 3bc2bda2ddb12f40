import Mathlib.Algebra.Order.BigOperators.Group.List
import Mathlib.Data.Int.ConditionallyCompleteOrder
import Mathlib.Data.Int.Interval
import Mathlib.Tactic.Linarith

/-!
# Weighted choice by sums

The weights are summed up place by place, and a number chooses the first place whose sum reaches it.
Each place is chosen by as many of the numbers from 1 to the total as its weight says.
-/

namespace GameServer.Weighted

/-- The sums of the weights up to each place, on top of `base`. -/
def sums (base : ℤ) : List ℤ → List ℤ
  | [] => []
  | w :: ws => (base + w) :: sums (base + w) ws

/-- The first place whose sum reaches `rd`. -/
def pick (ws : List ℤ) (rd : ℤ) : Option ℕ := (sums 0 ws).findIdx? fun s => s ≥ rd

variable {base rd : ℤ} {ws : List ℤ} {j : ℕ}

@[simp] theorem length_sums (base : ℤ) (ws : List ℤ) : (sums base ws).length = ws.length := by
  induction ws generalizing base with
  | nil => rfl
  | cons w ws ih => simp [sums, ih]

theorem getLastD_sums (base : ℤ) (ws : List ℤ) : (sums base ws).getLastD base = base + ws.sum := by
  induction ws generalizing base with
  | nil => simp [sums]
  | cons w ws ih => rw [sums, List.getLastD_cons, ih, List.sum_cons, add_assoc]

theorem sum_take_nonneg (hpos : ∀ w ∈ ws, 0 ≤ w) (j : ℕ) : 0 ≤ (ws.take j).sum :=
  List.sum_nonneg fun w hw => hpos w (List.mem_of_mem_take hw)

theorem findIdx?_sums (hpos : ∀ w ∈ ws, 0 ≤ w) (hrd : base < rd) :
    (sums base ws).findIdx? (fun s => s ≥ rd) = some j ↔
      j < ws.length ∧ base + (ws.take j).sum < rd ∧ rd ≤ base + (ws.take (j + 1)).sum := by
  induction ws generalizing base j with
  | nil => simp [sums]
  | cons w ws ih =>
      rw [sums, List.findIdx?_cons]
      have hrest : ∀ w' ∈ ws, 0 ≤ w' := fun w' hw' => hpos w' (List.mem_cons_of_mem w hw')
      by_cases hreach : base + w ≥ rd
      · rw [if_pos (decide_eq_true hreach)]
        cases j with
        | zero => simpa using ⟨hrd, hreach⟩
        | succ j =>
            have hnonneg := sum_take_nonneg hrest j
            simp only [List.take_succ_cons, List.sum_cons, Option.some.injEq]
            exact ⟨nofun, fun h => absurd h.2.1 (by omega)⟩
      · rw [if_neg (by simpa using hreach)]
        cases j with
        | zero =>
            simp only [List.take_succ_cons, List.take_zero, List.sum_cons, List.sum_nil]
            exact ⟨fun h => by simp at h, fun h => absurd h.2.2 (by omega)⟩
        | succ j =>
            have hih := ih (j := j) hrest (not_le.mp hreach)
            simp only [List.take_succ_cons, List.sum_cons, List.length_cons, add_lt_add_iff_right,
              ← add_assoc, ← hih, Option.map_eq_some_iff, add_left_inj, exists_eq_right]

/-- A place is chosen by the numbers above the sum before it, up to the sum with it. -/
theorem pick_eq_some_iff (hpos : ∀ w ∈ ws, 0 ≤ w) (hrd : 0 < rd) :
    pick ws rd = some j ↔
      j < ws.length ∧ (ws.take j).sum < rd ∧ rd ≤ (ws.take (j + 1)).sum := by
  rw [pick, findIdx?_sums hpos hrd, zero_add, zero_add]

theorem exists_findIdx?_sums (hrd : base < rd) (hle : rd ≤ base + ws.sum) :
    ∃ j, (sums base ws).findIdx? (fun s => s ≥ rd) = some j := by
  induction ws generalizing base with
  | nil =>
      rw [List.sum_nil, add_zero] at hle
      exact absurd hrd (not_lt.mpr hle)
  | cons w ws ih =>
      rw [List.sum_cons, ← add_assoc] at hle
      rw [sums, List.findIdx?_cons]
      by_cases hreach : base + w ≥ rd
      · exact ⟨0, if_pos (decide_eq_true hreach)⟩
      · obtain ⟨j, hj⟩ := ih (not_le.mp hreach) hle
        rw [if_neg (by simpa using hreach), hj]
        exact ⟨j + 1, rfl⟩

/-- Every number up to the total chooses a place. -/
theorem exists_pick (hrd : 0 < rd) (hle : rd ≤ ws.sum) : ∃ j, pick ws rd = some j :=
  exists_findIdx?_sums hrd (by rwa [zero_add])

theorem sum_take_le_sum (hpos : ∀ w ∈ ws, 0 ≤ w) (j : ℕ) : (ws.take j).sum ≤ ws.sum := by
  have hsplit : (ws.take j).sum + (ws.drop j).sum = ws.sum := by
    rw [← List.sum_append, List.take_append_drop]
  have hrest : 0 ≤ (ws.drop j).sum :=
    List.sum_nonneg fun w hw => hpos w (List.mem_of_mem_drop hw)
  omega

/-- The numbers from 1 to the total that choose a place are as many as its weight says. -/
theorem card_pick (hpos : ∀ w ∈ ws, 0 ≤ w) (hj : j < ws.length) :
    ((Finset.Icc 1 ws.sum).filter fun rd => pick ws rd = some j).card = (ws[j] : ℤ) := by
  have hsucc : (ws.take (j + 1)).sum = (ws.take j).sum + ws[j] := List.sum_take_succ ws j hj
  have hbefore := sum_take_nonneg hpos j
  have htotal := sum_take_le_sum hpos (j + 1)
  have hset : ((Finset.Icc 1 ws.sum).filter fun rd => pick ws rd = some j) =
      Finset.Ioc (ws.take j).sum (ws.take (j + 1)).sum := by
    ext rd
    rw [Finset.mem_filter, Finset.mem_Icc, Finset.mem_Ioc]
    constructor
    · rintro ⟨⟨hone, -⟩, hpick⟩
      exact ((pick_eq_some_iff hpos (by omega)).mp hpick).2
    · rintro ⟨hlt, hle⟩
      exact ⟨⟨by omega, by omega⟩, (pick_eq_some_iff hpos (by omega)).mpr ⟨hj, hlt, hle⟩⟩
  have hweight := hpos _ (List.getElem_mem hj)
  rw [hset, Int.card_Ioc, hsucc]
  omega

/-- What a choice by weights owes: every number up to the total chooses a place, and each place is
chosen by as many numbers as its weight says. -/
structure Law (ws : List ℤ) (total : ℤ) (chosen : ℤ → Option ℕ) : Prop where
  total_eq : total = ws.sum
  chooses : ∀ rd ∈ Finset.Icc 1 total, ∃ j < ws.length, chosen rd = some j
  card : ∀ j (hj : j < ws.length),
    ((Finset.Icc 1 total).filter fun rd => chosen rd = some j).card = (ws[j] : ℤ)

theorem law_pick (hpos : ∀ w ∈ ws, 0 ≤ w) : Law ws ws.sum (pick ws) where
  total_eq := rfl
  chooses rd hrd := by
    obtain ⟨hone, hle⟩ := Finset.mem_Icc.mp hrd
    obtain ⟨j, hj⟩ := exists_pick (by omega) hle
    exact ⟨j, ((pick_eq_some_iff hpos (by omega)).mp hj).1, hj⟩
  card _ hj := card_pick hpos hj

theorem findIdx?_eq_pick {α : Type*} {l : List α} {rate : α → ℤ} (h : l.map rate = sums 0 ws)
    (rd : ℤ) : (l.findIdx? fun q => rate q ≥ rd) = pick ws rd := by
  rw [pick, ← h, List.findIdx?_map]
  rfl

end GameServer.Weighted
