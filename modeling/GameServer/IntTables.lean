import GameServer.Goods

/-!
# Tables of integers

What `set` and `add` do to the keys, the values and the sums of a table.
-/

namespace GameServer.Goods.IntTable

def keys (t : IntTable) : List ℤ := t.map Prod.fst

/-- The sum of the values whose keys satisfy a predicate. -/
def sumOf (P : ℤ → Prop) [DecidablePred P] (t : IntTable) : ℤ :=
  (t.map fun e => if P e.1 then e.2 else 0).sum

variable {t t' : IntTable} {k k' v : ℤ} {e : ℤ × ℤ}

theorem mem_set (h : e ∈ t.set k v) : e = (k, v) ∨ e ∈ t := by
  unfold set at h
  split_ifs at h
  · obtain ⟨e', he', rfl⟩ := List.mem_map.mp h
    split_ifs
    · exact .inl rfl
    · exact .inr he'
  · rcases List.mem_append.mp h with h | h
    · exact .inr h
    · exact .inl (List.mem_singleton.mp h)

theorem mem_add (h : e ∈ t.add k v) : e.1 = k ∨ e ∈ t := by
  unfold add at h
  split at h <;> exact (mem_set h).imp_left (congrArg Prod.fst)

theorem any_key : t.any (fun e => e.1 = k) = true ↔ k ∈ t.keys := by
  simp [keys]

theorem set_of_not_mem (h : k ∉ t.keys) (v : ℤ) : t.set k v = t ++ [(k, v)] :=
  if_neg (mt any_key.mp h)

theorem keys_set_of_mem (h : k ∈ t.keys) (v : ℤ) : (t.set k v).keys = t.keys := by
  rw [set, if_pos (any_key.mpr h), keys, keys, List.map_map]
  apply List.map_congr_left
  intro e _
  by_cases he : e.1 = k
  · simp [he]
  · simp [he]

theorem keys_append (t t' : IntTable) : keys (t ++ t') = keys t ++ keys t' := List.map_append

theorem mem_keys_set : k' ∈ (t.set k v).keys ↔ k' = k ∨ k' ∈ t.keys := by
  by_cases h : k ∈ t.keys
  · rw [keys_set_of_mem h]
    exact ⟨Or.inr, fun h' => h'.elim (fun heq => heq ▸ h) id⟩
  · rw [set_of_not_mem h, keys_append, List.mem_append, or_comm]
    exact or_congr_left List.mem_singleton

theorem nodup_set (k v : ℤ) (ht : t.keys.Nodup) : (t.set k v).keys.Nodup := by
  by_cases h : k ∈ t.keys
  · rw [keys_set_of_mem h]
    exact ht
  · rw [set_of_not_mem h, keys_append]
    exact List.nodup_append_comm.mp (List.nodup_cons.mpr ⟨h, ht⟩)

theorem nodup_add (k v : ℤ) (ht : t.keys.Nodup) : (t.add k v).keys.Nodup := by
  unfold add
  split <;> exact nodup_set _ _ ht

theorem get_cons (e : ℤ × ℤ) (t : IntTable) :
    get (e :: t) k = if e.1 = k then some e.2 else t.get k := by
  unfold get
  rw [List.find?_cons]
  by_cases h : e.1 = k
  · simp [h]
  · simp [h]

theorem get_append (t t' : IntTable) : get (t ++ t') k = (t.get k).or (get t' k) := by
  induction t with
  | nil => rfl
  | cons e t ih =>
      rw [List.cons_append, get_cons, get_cons, ih]
      split_ifs <;> rfl

theorem get_eq_none : t.get k = none ↔ k ∉ t.keys := by
  rw [get, Option.map_eq_none_iff, List.find?_eq_none, keys, List.mem_map]
  simp only [decide_eq_true_eq]
  exact ⟨fun h ⟨e, he, hk⟩ => h e he hk, fun h e he hk => h ⟨e, he, hk⟩⟩

theorem mem_of_get (h : t.get k = some v) : (k, v) ∈ t := by
  obtain ⟨e, he, rfl⟩ := Option.map_eq_some_iff.mp h
  have hk : e.1 = k := by simpa using List.find?_some he
  exact hk ▸ List.mem_of_find?_eq_some he

/-- `set` on a key that is there. -/
def replace (t : IntTable) (k v : ℤ) : IntTable := t.map fun e => if e.1 = k then (k, v) else e

theorem set_of_mem (h : k ∈ t.keys) (v : ℤ) : t.set k v = t.replace k v := if_pos (any_key.mpr h)

theorem replace_cons : replace (e :: t) k v =
    (if e.1 = k then (k, v) else e) :: t.replace k v := rfl

theorem replace_of_not_mem (h : k ∉ t.keys) (v : ℤ) : t.replace k v = t := by
  refine (List.map_congr_left fun e he => if_neg fun hk => h ?_).trans (List.map_id t)
  exact List.mem_map.mpr ⟨e, he, hk⟩

theorem get_replace (t : IntTable) (k v k' : ℤ) :
    (t.replace k v).get k' = if k' = k then (t.get k).map fun _ => v else t.get k' := by
  induction t with
  | nil => split_ifs <;> rfl
  | cons e t ih =>
      rw [replace_cons, get_cons, get_cons, get_cons, ih]
      by_cases he : e.1 = k
      · by_cases hk : k' = k
        · simp [he, hk]
        · simp [he, hk, Ne.symm hk]
      · by_cases hk : k' = k
        · simp [he, hk]
        · simp [he, hk]

theorem get_set (t : IntTable) (k v k' : ℤ) :
    (t.set k v).get k' = if k' = k then some v else t.get k' := by
  by_cases h : k ∈ t.keys
  · obtain ⟨old, hold⟩ := Option.ne_none_iff_exists'.mp (mt get_eq_none.mp (not_not.mpr h))
    rw [set_of_mem h, get_replace, hold]
    rfl
  · rw [set_of_not_mem h, get_append, get_cons]
    by_cases hk : k' = k
    · rw [if_pos hk, if_pos hk.symm, hk, get_eq_none.mpr h, Option.none_or]
    · rw [if_neg hk, if_neg (Ne.symm hk)]
      exact Option.or_none

theorem get_add (t : IntTable) (k k' : ℤ) (hv : wrap v = v) :
    (t.add k v).get k' =
      if k' = k then some (wrap ((t.get k).getD 0 + v)) else t.get k' := by
  unfold add
  cases h : t.get k with
  | none => rw [get_set, Option.getD_none, zero_add, hv]
  | some old => rw [get_set, Option.getD_some]

theorem getD_add (t : IntTable) (k k' : ℤ) (hv : wrap v = v) :
    ((t.add k v).get k').getD 0 =
      if k' = k then wrap ((t.get k).getD 0 + v) else (t.get k').getD 0 := by
  rw [get_add t k k' hv]
  split_ifs <;> rfl

theorem get_eq_some (ht : t.keys.Nodup) : t.get k = some v ↔ (k, v) ∈ t := by
  refine ⟨mem_of_get, fun h => ?_⟩
  induction t with
  | nil => cases h
  | cons e t ih =>
      rw [keys, List.map_cons, List.nodup_cons] at ht
      rw [get_cons]
      rcases List.mem_cons.mp h with rfl | h
      · exact if_pos rfl
      · rw [if_neg fun he => ht.1 (List.mem_map.mpr ⟨_, h, he.symm⟩)]
        exact ih ht.2 h

theorem get_perm (h : t.Perm t') (ht : t.keys.Nodup) (k : ℤ) : t.get k = t'.get k := by
  have ht' : t'.keys.Nodup := ((h.map Prod.fst).nodup_iff).mp ht
  ext v
  rw [get_eq_some ht, get_eq_some ht', h.mem_iff]

/-! ## Sums -/

variable {P : ℤ → Prop} [DecidablePred P]

theorem sumOf_nil : sumOf P [] = 0 := rfl

theorem sumOf_cons : sumOf P (e :: t) = (if P e.1 then e.2 else 0) + t.sumOf P := by
  rw [sumOf, List.map_cons, List.sum_cons]
  rfl

theorem sumOf_append : sumOf P (t ++ t') = t.sumOf P + t'.sumOf P := by
  rw [sumOf, List.map_append, List.sum_append]
  rfl

theorem sumOf_perm (h : t.Perm t') : t.sumOf P = t'.sumOf P := (h.map _).sum_eq

theorem sumOf_nonneg (h : ∀ e ∈ t, 0 ≤ e.2) : 0 ≤ t.sumOf P := by
  refine List.sum_nonneg fun v hv => ?_
  obtain ⟨e, he, rfl⟩ := List.mem_map.mp hv
  split_ifs
  · exact h e he
  · exact le_rfl

/-- Setting a value replaces the one that is there. -/
theorem sumOf_set (ht : t.keys.Nodup) (k v : ℤ) :
    (t.set k v).sumOf P = t.sumOf P + if P k then v - (t.get k).getD 0 else 0 := by
  by_cases h : k ∈ t.keys
  · rw [set_of_mem h]
    induction t with
    | nil => cases h
    | cons e t ih =>
        rw [keys, List.map_cons, List.nodup_cons] at ht
        rw [replace_cons, sumOf_cons, sumOf_cons, get_cons]
        by_cases he : e.1 = k
        · subst he
          rw [replace_of_not_mem ht.1, if_pos rfl, if_pos rfl, Option.getD_some]
          split_ifs <;> ring
        · have hrest : k ∈ keys t := (List.mem_cons.mp h).resolve_left (Ne.symm he)
          rw [if_neg he, if_neg he, ih ht.2 hrest]
          ring
  · rw [set_of_not_mem h, sumOf_append, sumOf_cons, sumOf_nil, get_eq_none.mpr h, Option.getD_none]
    simp

end GameServer.Goods.IntTable
