import GameServer.FlowGraph

/-!
# The ring of the flow graph

A ring of `n` slots holds up to `n - 1` entries. `queue_exist` looks through the slots from the head
on, and from the last slot it goes to the slot behind it.
-/

namespace GameServer.FlowGraph

open Pathfinding

/-- The slot `i` places behind `head`. -/
def place (n head i : ℕ) : ℕ := if head + i < n then head + i else head + i - n

/-- The ring holds these entries, oldest first. -/
structure Holds (q : RouteQueue) (l : List Cell) : Prop where
  head_lt : q.head < q.n
  room : l.length < q.n
  tail_eq : q.tail = place q.n q.head l.length
  entry : ∀ i, i < l.length → q.q (place q.n q.head i) = l[i]?

variable {q q' : RouteQueue} {l : List Cell} {c : Cell} {x y : ℤ} {n i j head : ℕ}

theorem place_lt (hhead : head < n) (hi : i < n) : place n head i < n := by
  unfold place
  split_ifs <;> omega

theorem place_inj (hi : i < n) (hj : j < n) :
    place n head i = place n head j ↔ i = j := by
  unfold place
  split_ifs <;> omega

theorem place_zero (hhead : head < n) : place n head 0 = head := if_pos hhead

theorem place_place (hhead : head < n) (hi : i + 1 < n) :
    place n (place n head 1) i = place n head (i + 1) := by
  unfold place
  split_ifs <;> omega

theorem place_succ (hhead : head < n) (hi : i + 1 < n) :
    place n (place n head i) 1 = place n head (i + 1) := by
  unfold place
  split_ifs <;> omega

/-- The successor of a slot, as the code computes it. -/
theorem next_eq (hhead : head < n) : (if head + 1 ≥ n then 0 else head + 1) = place n head 1 := by
  unfold place
  split_ifs <;> omega

theorem holds_create (hn : 0 < n) : Holds (create_queue n) [] where
  head_lt := hn
  room := hn
  tail_eq := (place_zero hn).symm
  entry i hi := absurd hi (Nat.not_lt_zero i)

theorem Holds.tail_lt (h : Holds q l) : q.tail < q.n := by
  rw [h.tail_eq]
  exact place_lt h.head_lt h.room

theorem Holds.next_tail (h : Holds q l) :
    (if q.tail + 1 ≥ q.n then 0 else q.tail + 1) = if l.length + 1 < q.n then
      place q.n q.head (l.length + 1) else q.head := by
  have hhead := h.head_lt
  have hroom := h.room
  rw [h.tail_eq]
  unfold place
  split_ifs <;> omega

theorem enter_full (h : Holds q l) (hfull : l.length + 1 = q.n) :
    enter_queue q x y = .error .assertion := by
  have hnext := h.next_tail
  rw [if_neg (by omega : ¬ l.length + 1 < q.n)] at hnext
  unfold enter_queue
  rw [if_pos h.tail_lt, hnext]
  exact if_neg fun hne => hne rfl

theorem enter_holds (h : Holds q l) (hroom : l.length + 1 < q.n) : ∃ q',
    enter_queue q x y = .ok q' ∧ Holds q' (l ++ [(x, y)]) ∧ q'.head = q.head ∧ q'.n = q.n ∧
      ∀ i, place q.n i 1 = q.head → q'.q i = q.q i := by
  have hhead := h.head_lt
  have htail := h.tail_eq
  have hnext := h.next_tail
  rw [if_pos hroom] at hnext
  have hne : q.head ≠ place q.n q.head (l.length + 1) := by
    unfold place
    split_ifs <;> omega
  refine ⟨⟨q.head, place q.n q.head (l.length + 1), q.n,
    Function.update q.q q.tail (some (x, y))⟩, ?_, ⟨hhead, ?_, ?_, ?_⟩, rfl, rfl, ?_⟩
  · unfold enter_queue
    rw [if_pos h.tail_lt, hnext]
    exact if_pos hne
  · rw [List.length_append]
    exact hroom
  · rw [List.length_append]
    rfl
  · intro i hi
    change Function.update q.q q.tail _ (place q.n q.head i) = _
    rw [List.length_append, List.length_singleton] at hi
    rcases Nat.lt_succ_iff_lt_or_eq.mp hi with hlt | rfl
    · have hold : place q.n q.head i ≠ q.tail := by
        rw [htail]
        exact fun heq => absurd ((place_inj (by omega) h.room).mp heq) hlt.ne
      rw [Function.update_of_ne hold, h.entry i hlt, List.getElem?_append_left hlt]
    · rw [← htail, Function.update_self, List.getElem?_concat_length]
  · -- the slot in front of the head is not the tail, or the ring would be full
    intro i hi
    refine Function.update_of_ne (fun heq => hne ?_) _ _
    rw [heq, htail, place_succ hhead hroom] at hi
    exact hi.symm

theorem leave_empty (h : Holds q []) : leave_queue q = none := by
  have htail := h.tail_eq
  rw [List.length_nil, place_zero h.head_lt] at htail
  exact if_pos htail.symm

theorem leave_holds (h : Holds q (c :: l)) : ∃ q', leave_queue q = some (q.head, q') ∧
    Holds q' l ∧ q'.head = place q.n q.head 1 ∧ q'.n = q.n ∧ q'.slot q.head = .ok c := by
  have hhead := h.head_lt
  have hroom := h.room
  have htail := h.tail_eq
  rw [List.length_cons] at hroom htail
  have hne : q.head ≠ q.tail := by
    rw [htail]
    unfold place
    split_ifs <;> omega
  refine ⟨{ q with head := place q.n q.head 1 }, ?_,
    ⟨place_lt hhead (by omega), Nat.lt_of_succ_lt hroom, ?_, ?_⟩, rfl, rfl, ?_⟩
  · unfold leave_queue
    rw [if_neg hne, next_eq hhead]
  · rw [htail, place_place hhead hroom]
  · intro i hi
    have hentry := h.entry (i + 1) (by simpa using hi)
    rw [List.getElem?_cons_succ] at hentry
    rw [place_place hhead (by omega)]
    exact hentry
  · have hfirst := h.entry 0 (Nat.zero_lt_succ _)
    rw [place_zero hhead] at hfirst
    unfold RouteQueue.slot
    rw [show ({ q with head := place q.n q.head 1 } : RouteQueue).q q.head = some c from hfirst]
    exact if_pos hhead

/-! ## The search through the ring -/

/-- The entries that stand before the end of the slots. -/
def upper (q : RouteQueue) (l : List Cell) : List Cell := l.take (q.n - q.head)

theorem existFrom_holds (h : Holds q l) (rounds : ℕ) (hi : i ≤ (upper q l).length)
    (hrounds : q.n - (q.head + i) < rounds) : existFrom q x y rounds (q.head + i) =
      if (x, y) ∈ (upper q l).drop i then .ok true
      else if q.n ≤ q.head + l.length then .error .access else .ok false := by
  have hhead := h.head_lt
  have hroom := h.room
  have htail := h.tail_eq
  have hlen : (upper q l).length = min (q.n - q.head) l.length := List.length_take
  induction rounds generalizing i with
  | zero => omega
  | succ rounds ih =>
      unfold existFrom
      rcases Nat.lt_or_ge i (upper q l).length with hlt | hge
      · have hne : q.head + i ≠ q.tail := by
          rw [htail]
          unfold place
          split_ifs <;> omega
        have hget : (upper q l)[i] = l[i] := List.getElem_take
        have hslot : q.slot (q.head + i) = .ok l[i] := by
          have hentry := h.entry i (by omega)
          rw [place, if_pos (by omega), List.getElem?_eq_getElem (by omega)] at hentry
          unfold RouteQueue.slot
          rw [hentry]
          exact if_pos (by omega)
        rw [if_neg hne, hslot, List.drop_eq_getElem_cons hlt, hget]
        change (if l[i].1 = x ∧ l[i].2 = y then _ else _) = _
        by_cases heq : l[i].1 = x ∧ l[i].2 = y
        · have hmem : (x, y) = l[i] := (Prod.ext heq.1 heq.2).symm
          rw [if_pos heq, if_pos (List.mem_cons.mpr (Or.inl hmem))]
          rfl
        · have hmem : (x, y) ≠ l[i] := fun hmem => heq ⟨congrArg Prod.fst hmem.symm,
            congrArg Prod.snd hmem.symm⟩
          rw [if_neg heq, if_neg (by omega), Nat.add_assoc, ih (by omega) (by omega)]
          simp only [List.mem_cons, hmem, false_or]
      · rw [List.drop_eq_nil_of_le hge, if_neg List.not_mem_nil]
        by_cases hwrap : q.n ≤ q.head + l.length
        · -- the slot behind the last one
          have hend : q.head + i = q.n := by omega
          have hne : q.n ≠ q.tail := h.tail_lt.ne'
          have hslot : q.slot q.n = .error .access := by
            unfold RouteQueue.slot
            cases q.q q.n with
            | none => rfl
            | some c => exact if_neg (lt_irrefl _)
          rw [hend, if_neg hne, if_pos hwrap, hslot]
          rfl
        · have hend : q.head + i = q.tail := by
            rw [htail, place, if_pos (by omega)]
            omega
          rw [if_pos hend, if_neg hwrap]
          rfl

theorem exist_holds (h : Holds q l) : queue_exist q x y =
    if (x, y) ∈ upper q l then .ok true
    else if q.n ≤ q.head + l.length then .error .access else .ok false :=
  existFrom_holds h (q.n + 1) (Nat.zero_le _) (by omega)

end GameServer.FlowGraph
