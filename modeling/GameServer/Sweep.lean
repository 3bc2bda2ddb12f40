import Mathlib.Data.List.Induction

/-!
# A descending loop over a list that changes

The loop runs over the indices from the last down to the first. Its body may append entries to the
list, and afterwards the entry at the index may be removed. What is appended stands behind every
index that is still to come, so the body runs once on each entry that was there at the start.
-/

namespace GameServer.Sweep

variable {α σ : Type}

/-- The body gets an entry, the state and the list, and returns the state and what it appends. -/
structure Loop (α σ : Type) where
  body : α → σ → List α → σ × List α
  removed : α → σ → Bool

/-- What a run leaves, with the entries the body ran on, each with the state at its end, and what
was appended. -/
structure Ran (α σ : Type) where
  state : σ
  list : List α
  calls : List (α × σ)
  added : List α

namespace Loop

variable (L : Loop α σ)

/-- The list after the round on `v` at the index `i`. -/
def next (i : ℕ) (v : α) (s : σ) (l : List α) : List α :=
  let r := L.body v s l
  if L.removed v r.1 = true then (l ++ r.2).eraseIdx i else l ++ r.2

def sweep : ℕ → σ → List α → Ran α σ
  | 0, s, l => ⟨s, l, [], []⟩
  | i + 1, s, l =>
      match l[i]? with
      | none => ⟨s, l, [], []⟩
      | some v =>
          let r := L.body v s l
          let rest := sweep i r.1 (L.next i v s l)
          ⟨rest.state, rest.list, (v, r.1) :: rest.calls, r.2 ++ rest.added⟩

variable {L}

theorem length_next {i : ℕ} {v : α} {s : σ} {l : List α} (h : i < l.length) :
    i ≤ (L.next i v s l).length := by
  unfold next
  dsimp only
  split_ifs
  · rw [List.length_eraseIdx_of_lt (by rw [List.length_append]; omega), List.length_append]
    omega
  · rw [List.length_append]
    omega

theorem sweep_induct (Inv : ℕ → σ → List α → Prop)
    (step : ∀ i v s l, l[i]? = some v → Inv (i + 1) s l →
      Inv i (L.body v s l).1 (L.next i v s l)) (i : ℕ) {s : σ} {l : List α} (hi : i ≤ l.length)
    (h : Inv i s l) : Inv 0 (L.sweep i s l).state (L.sweep i s l).list := by
  induction i generalizing s l with
  | zero => exact h
  | succ i ih =>
      have hv : l[i]? = some (l.get ⟨i, hi⟩) := List.getElem?_eq_getElem hi
      rw [sweep, hv]
      exact ih (length_next hi) (step i _ s l hv h)

/-- The round leaves what stands before the index, and appends. -/
theorem next_eq {i : ℕ} {v : α} {s : σ} {l : List α} (hv : l[i]? = some v) :
    L.next i v s l = l.take i ++ ((if L.removed v (L.body v s l).1 = true then [] else [v]) ++
      l.drop (i + 1) ++ (L.body v s l).2) := by
  obtain ⟨hi, hget⟩ := List.getElem?_eq_some_iff.mp hv
  have hsplit : l = l.take i ++ v :: l.drop (i + 1) := by
    rw [← hget, ← List.drop_eq_getElem_cons hi, List.take_append_drop]
  unfold next
  dsimp only
  split_ifs
  · rw [List.eraseIdx_append_of_lt_length hi, List.eraseIdx_eq_take_drop_succ, List.nil_append,
      List.append_assoc]
  · calc l ++ (L.body v s l).2 = l.take i ++ v :: l.drop (i + 1) ++ (L.body v s l).2 := by
          rw [← hsplit]
      _ = l.take i ++ ([v] ++ l.drop (i + 1) ++ (L.body v s l).2) := by simp

/-! ## The entries of the start -/

/-- The last of the entries that are still to come. -/
theorem sweep_concat (start rest : List α) (v : α) (s : σ) :
    L.sweep (start ++ [v]).length s (start ++ [v] ++ rest) =
      let r := L.body v s (start ++ [v] ++ rest)
      let behind := (if L.removed v r.1 = true then rest else v :: rest) ++ r.2
      let after := L.sweep start.length r.1 (start ++ behind)
      ⟨after.state, after.list, (v, r.1) :: after.calls, r.2 ++ after.added⟩ := by
  have hv : (start ++ [v] ++ rest)[start.length]? = some v := by simp
  have hnext : L.next start.length v s (start ++ [v] ++ rest) =
      start ++ ((if L.removed v (L.body v s (start ++ [v] ++ rest)).1 = true then rest
        else v :: rest) ++ (L.body v s (start ++ [v] ++ rest)).2) := by
    unfold next
    dsimp only
    split_ifs
    · rw [List.append_assoc, List.append_assoc, List.eraseIdx_append_of_length_le (Nat.le_refl _),
        Nat.sub_self]
      rfl
    · simp
  rw [List.length_append, List.length_singleton, sweep, hv]
  dsimp only
  rw [hnext]

/-- The body runs once on each entry of the start, from the last to the first. -/
theorem sweep_calls (start rest : List α) (s : σ) :
    (L.sweep start.length s (start ++ rest)).calls.map Prod.fst = start.reverse := by
  induction start using List.reverseRecOn generalizing s rest with
  | nil => rfl
  | append_singleton start v ih =>
      rw [sweep_concat, List.reverse_append, List.reverse_singleton]
      exact congrArg (v :: ·) (ih _ _)

/-- What is left of them stands in front of what was appended. -/
theorem sweep_list (start rest : List α) (s : σ) :
    (L.sweep start.length s (start ++ rest)).list =
      (((L.sweep start.length s (start ++ rest)).calls.filter
        fun c => !L.removed c.1 c.2).map Prod.fst).reverse ++ rest ++
        (L.sweep start.length s (start ++ rest)).added := by
  induction start using List.reverseRecOn generalizing s rest with
  | nil => exact (List.append_nil _).symm
  | append_singleton start v ih =>
      rw [sweep_concat]
      dsimp only
      rw [ih, List.filter_cons]
      generalize L.body v s (start ++ [v] ++ rest) = r
      cases hremoved : L.removed v r.1
      · simp
      · simp

theorem mem_list_iff {start : List α} {s : σ} {e : α} :
    e ∈ (L.sweep start.length s start).list ↔
      (∃ t, (e, t) ∈ (L.sweep start.length s start).calls ∧ L.removed e t = false) ∨
        e ∈ (L.sweep start.length s start).added := by
  have hlist := sweep_list (L := L) start [] s
  rw [List.append_nil, List.append_nil] at hlist
  rw [hlist, List.mem_append, List.mem_reverse, List.mem_map]
  refine or_congr_left ⟨?_, ?_⟩
  · rintro ⟨c, hc, rfl⟩
    obtain ⟨hcall, hkept⟩ := List.mem_filter.mp hc
    exact ⟨c.2, hcall, by simpa using hkept⟩
  · rintro ⟨t, hcall, hkept⟩
    exact ⟨(e, t), List.mem_filter.mpr ⟨hcall, by simp [hkept]⟩, rfl⟩

/-! ## Bodies that append nothing -/

section Quiet

variable {f : α → σ → σ} (hbody : ∀ v s l, L.body v s l = (f v s, []))
include hbody

theorem quiet_state (start rest : List α) (s : σ) :
    (L.sweep start.length s (start ++ rest)).state = start.foldr f s := by
  induction start using List.reverseRecOn generalizing s rest with
  | nil => rfl
  | append_singleton start v ih =>
      rw [sweep_concat, List.foldr_append, hbody]
      exact ih _ _

/-- Only the entry at the index can be gone. -/
theorem quiet_mem_next {i : ℕ} {v : α} {s : σ} {l : List α} (hv : l[i]? = some v) {e : α}
    (he : e ∈ l) (hkept : e = v → L.removed v (f v s) = false) : e ∈ L.next i v s l := by
  unfold next
  rw [hbody]
  dsimp only
  rw [List.append_nil]
  split_ifs with hremoved
  · rw [List.mem_eraseIdx_iff_getElem?]
    obtain ⟨j, hj⟩ := List.mem_iff_getElem?.mp he
    refine ⟨j, fun hij => ?_, hj⟩
    rw [hij, hv] at hj
    rw [hkept (Option.some.inj hj).symm] at hremoved
    exact Bool.false_ne_true hremoved
  · exact he

theorem quiet_next_sublist {i : ℕ} {v : α} {s : σ} {l : List α} :
    (L.next i v s l).Sublist l := by
  unfold next
  rw [hbody]
  dsimp only
  rw [List.append_nil]
  split_ifs
  · exact List.eraseIdx_sublist l i
  · exact List.Sublist.refl l

end Quiet

end Loop

end GameServer.Sweep
