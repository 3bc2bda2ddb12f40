import Mathlib.Tactic

/-!
# Growing rings

A queue in an array whose places are used round and round. `head` is the place of the first value,
`tail` the place behind the last one; a push that makes the two equal moves the values into a larger
array. `Holds` says which list a ring stands for: a push appends to it and a pop takes its head, so
nothing is lost or changes its turn when the array grows.
-/

namespace GameServer

structure Ring (α : Type*) where
  cap : ℕ
  head : ℕ
  tail : ℕ
  slot : ℕ → α

namespace Ring

variable {α : Type*}

/-- The place `i` steps after `head`; the sum passes the end at most once. -/
def place (cap head i : ℕ) : ℕ := if head + i < cap then head + i else head + i - cap

def advance (cap i : ℕ) : ℕ := if cap ≤ i + 1 then 0 else i + 1

/-- Moves the `cap` values of a full ring to the front of an array for `cap'`. -/
def expand [Inhabited α] (r : Ring α) (cap' : ℕ) : Ring α where
  cap := cap'
  head := 0
  tail := r.cap
  slot i := if i < r.cap then r.slot ((r.head + i) % r.cap) else default

def write (r : Ring α) (a : α) : Ring α :=
  { r with slot := Function.update r.slot r.tail a, tail := advance r.cap r.tail }

def push [Inhabited α] (grow : ℕ → ℕ) (r : Ring α) (a : α) : Ring α :=
  if (r.write a).head = (r.write a).tail then (r.write a).expand (grow r.cap) else r.write a

def pop (r : Ring α) : Option (α × Ring α) :=
  if r.head = r.tail then none else some (r.slot r.head, { r with head := advance r.cap r.head })

theorem place_zero {cap head : ℕ} (h : head < cap) : place cap head 0 = head := by
  unfold place
  split_ifs <;> omega

theorem place_inj {cap head i j : ℕ} (hi : i < cap) (hj : j < cap) :
    place cap head i = place cap head j ↔ i = j := by
  unfold place
  split_ifs <;> omega

theorem place_cap {cap head : ℕ} : place cap head cap = head := by
  unfold place
  split_ifs <;> omega

theorem place_zero_left {cap i : ℕ} (h : i < cap) : place cap 0 i = i := by
  unfold place
  split_ifs <;> omega

theorem mod_eq_place {cap head i : ℕ} (hhead : head < cap) (hi : i < cap) :
    (head + i) % cap = place cap head i := by
  unfold place
  split_ifs with h
  · exact Nat.mod_eq_of_lt h
  · rw [Nat.mod_eq_sub_mod (by omega), Nat.mod_eq_of_lt (by omega)]

theorem advance_lt {cap i : ℕ} (h : i < cap) : advance cap i < cap := by
  unfold advance
  split_ifs <;> omega

theorem advance_place {cap head i : ℕ} (hhead : head < cap) (hi : i < cap) :
    advance cap (place cap head i) = place cap head (i + 1) := by
  unfold advance place
  split_ifs <;> omega

theorem place_advance {cap head i : ℕ} (hhead : head < cap) (hi : i + 1 < cap) :
    place cap (advance cap head) i = place cap head (i + 1) := by
  unfold advance place
  split_ifs <;> omega

/-- The values of the ring in the order in which they are popped. One place stays free, or an empty
ring would look like a full one. -/
structure Holds (r : Ring α) (l : List α) : Prop where
  length_lt : l.length < r.cap
  head_lt : r.head < r.cap
  tail_eq : r.tail = place r.cap r.head l.length
  slot_eq : ∀ i (h : i < l.length), r.slot (place r.cap r.head i) = l[i]

variable {r : Ring α} {l : List α} {a : α}

theorem Holds.head_eq_tail_iff (h : r.Holds l) : r.head = r.tail ↔ l = [] := by
  have hhead := h.head_lt
  have hlen := h.length_lt
  rw [h.tail_eq, ← List.length_eq_zero_iff]
  nth_rewrite 1 [← place_zero hhead]
  rw [place_inj (by omega) hlen]
  exact eq_comm

/-- What was written so far is still there, and the new value comes last. -/
theorem Holds.slot_write (h : r.Holds l) (i : ℕ) (hi : i < (l ++ [a]).length) :
    (r.write a).slot (place r.cap r.head i) = (l ++ [a])[i] := by
  have hhead := h.head_lt
  have hlen := h.length_lt
  rw [List.length_append, List.length_singleton] at hi
  simp only [write, h.tail_eq]
  obtain hlast | hold := Nat.eq_or_lt_of_le (Nat.le_of_lt_succ hi)
  · subst hlast
    rw [Function.update_self, List.getElem_concat_length rfl]
  · have hne : place r.cap r.head i ≠ place r.cap r.head l.length := by
      rw [ne_eq, place_inj (by omega) hlen]
      omega
    rw [Function.update_of_ne hne, List.getElem_append_left hold]
    exact h.slot_eq i hold

theorem Holds.push [Inhabited α] {grow : ℕ → ℕ} (h : r.Holds l) (hgrow : r.cap < grow r.cap) :
    (Ring.push grow r a).Holds (l ++ [a]) := by
  have hhead := h.head_lt
  have hlen := h.length_lt
  have htail : (r.write a).tail = place r.cap r.head (l.length + 1) := by
    change advance r.cap r.tail = _
    rw [h.tail_eq, advance_place hhead hlen]
  have hlength : (l ++ [a]).length = l.length + 1 := List.length_append
  unfold Ring.push
  split_ifs with hfull
  · -- Head and tail meet: every place is taken.
    have hcap : l.length + 1 = r.cap := by
      by_contra hne
      change r.head = _ at hfull
      rw [htail] at hfull
      nth_rewrite 1 [← place_zero hhead] at hfull
      rw [place_inj (by omega) (by omega)] at hfull
      omega
    apply Holds.mk
    · change (l ++ [a]).length < grow r.cap
      omega
    · change 0 < grow r.cap
      omega
    · change r.cap = place (grow r.cap) 0 (l ++ [a]).length
      rw [place_zero_left (by omega)]
      omega
    · intro i hi
      change (if place (grow r.cap) 0 i < r.cap
        then (r.write a).slot ((r.head + place (grow r.cap) 0 i) % r.cap) else default) = _
      rw [place_zero_left (by omega), if_pos (by omega), mod_eq_place hhead (by omega)]
      exact h.slot_write i hi
  · have hroom : l.length + 1 < r.cap := by
      by_contra hge
      have hcap : l.length + 1 = r.cap := by omega
      rw [htail, hcap, place_cap] at hfull
      exact hfull rfl
    apply Holds.mk
    · change (l ++ [a]).length < r.cap
      omega
    · exact hhead
    · rw [htail, hlength]
      rfl
    · exact h.slot_write

theorem Holds.pop_nil (h : r.Holds []) : r.pop = none := if_pos (h.head_eq_tail_iff.mpr rfl)

theorem Holds.pop_cons (h : r.Holds (a :: l)) : ∃ r', r.pop = some (a, r') ∧ r'.cap = r.cap ∧
    r'.Holds l := by
  have hhead := h.head_lt
  have hlen : l.length + 1 < r.cap := h.length_lt
  have hne : r.head ≠ r.tail := fun heq => List.cons_ne_nil a l (h.head_eq_tail_iff.mp heq)
  have hfirst : r.slot r.head = a := by
    have h0 := h.slot_eq 0 (Nat.succ_pos _)
    rwa [place_zero hhead, List.getElem_cons_zero] at h0
  refine ⟨{ r with head := advance r.cap r.head }, ?_, rfl, ?_⟩
  · rw [pop, if_neg hne, hfirst]
  · apply Holds.mk
    · exact Nat.lt_of_succ_lt hlen
    · exact advance_lt hhead
    · change r.tail = place r.cap (advance r.cap r.head) l.length
      rw [place_advance hhead hlen, h.tail_eq]
      rfl
    · intro i hi
      change r.slot (place r.cap (advance r.cap r.head) i) = _
      rw [place_advance hhead (by omega), h.slot_eq (i + 1) (Nat.succ_lt_succ hi)]
      rfl

theorem holds_empty {cap : ℕ} (h : 0 < cap) (slot : ℕ → α) :
    (Ring.mk cap 0 0 slot).Holds [] :=
  ⟨h, h, (place_zero h).symm, fun _ hi => absurd hi (Nat.not_lt_zero _)⟩

end Ring

end GameServer
