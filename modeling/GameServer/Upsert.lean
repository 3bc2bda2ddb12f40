import Mathlib.Data.List.Nodup

/-!
# Lists with a key

The first entry of a key is changed, or an entry is added at the end when the key is not there.
-/

namespace GameServer.Upsert

variable {α κ : Type*} [DecidableEq κ] (key : α → κ)

def upsert (k : κ) (f : α → α) (new : α) : List α → List α
  | [] => [new]
  | v :: l => if key v = k then f v :: l else v :: upsert k f new l

/-- The first entry of a key. -/
def lookup (k : κ) (l : List α) : Option α := l.find? fun v => key v = k

variable {key} {k k' : κ} {f g : α → α} {new v : α} {l : List α} {i : ℕ}

theorem upsert_cons : upsert key k f new (v :: l) =
    if key v = k then f v :: l else v :: upsert key k f new l := rfl

theorem lookup_cons : lookup key k (v :: l) = if key v = k then some v else lookup key k l := by
  rw [lookup, List.find?_cons]
  by_cases hv : key v = k
  · simp [hv]
  · simp [hv, lookup]

theorem upsert_of_some (h : l.findIdx? (fun v => key v = k) = some i) :
    upsert key k f new l = l.modify i f := by
  induction l generalizing i with
  | nil => cases h
  | cons v l ih =>
      rw [List.findIdx?_cons] at h
      by_cases hv : key v = k
      · rw [if_pos (decide_eq_true hv)] at h
        obtain rfl := Option.some.inj h
        rw [upsert_cons, if_pos hv]
        rfl
      · rw [if_neg (by simpa using hv)] at h
        obtain ⟨j, hj, rfl⟩ := Option.map_eq_some_iff.mp h
        rw [upsert_cons, if_neg hv, ih hj]
        rfl

theorem upsert_of_none (h : l.findIdx? (fun v => key v = k) = none) :
    upsert key k f new l = l ++ [new] := by
  induction l with
  | nil => rfl
  | cons v l ih =>
      rw [List.findIdx?_cons] at h
      by_cases hv : key v = k
      · rw [if_pos (decide_eq_true hv)] at h
        cases h
      · rw [if_neg (by simpa using hv), Option.map_eq_none_iff] at h
        rw [upsert_cons, if_neg hv, ih h]
        rfl

theorem findIdx?_eq_none : l.findIdx? (fun v => key v = k) = none ↔ k ∉ l.map key := by
  rw [List.findIdx?_eq_none_iff, List.mem_map]
  exact ⟨fun h ⟨v, hv, hk⟩ => by simpa [hk] using h v hv,
    fun h v hv => decide_eq_false fun hk => h ⟨v, hv, hk⟩⟩

/-- What a search by the key found is what is changed. -/
theorem found (h : l.findIdx? (fun v => key v = k) = some i) (f : α → α) (new : α) :
    k ∈ l.map key ∧ upsert key k f new l = l.modify i f := by
  refine ⟨?_, upsert_of_some h⟩
  by_contra hnot
  rw [findIdx?_eq_none.mpr hnot] at h
  cases h

theorem absent (h : l.findIdx? (fun v => key v = k) = none) (f : α → α) (new : α) :
    k ∉ l.map key ∧ upsert key k f new l = l ++ [new] :=
  ⟨findIdx?_eq_none.mp h, upsert_of_none h⟩

theorem lookup_eq_none : lookup key k l = none ↔ k ∉ l.map key := by
  rw [lookup, List.find?_eq_none, List.mem_map]
  exact ⟨fun h ⟨v, hv, hk⟩ => h v hv (decide_eq_true hk),
    fun h v hv hk => h ⟨v, hv, of_decide_eq_true hk⟩⟩

theorem lookup_upsert (hf : ∀ v, key (f v) = key v) (hnew : key new = k) (l : List α) (k' : κ) :
    lookup key k' (upsert key k f new l) =
      if k' = k then some ((lookup key k l).elim new f) else lookup key k' l := by
  induction l with
  | nil =>
      rw [upsert, lookup_cons, hnew]
      by_cases hk : k' = k
      · rw [if_pos hk, if_pos hk.symm]
        rfl
      · rw [if_neg hk, if_neg (Ne.symm hk)]
  | cons v l ih =>
      rw [upsert_cons, lookup_cons (k := k), lookup_cons (k := k')]
      by_cases hv : key v = k
      · rw [if_pos hv, if_pos hv, lookup_cons, hf, hv]
        by_cases hk : k' = k
        · rw [if_pos hk, if_pos hk.symm]
          rfl
        · rw [if_neg hk, if_neg (Ne.symm hk), if_neg (Ne.symm hk)]
      · rw [if_neg hv, if_neg hv, lookup_cons, ih]
        by_cases hk : k' = k
        · simp [hk, hv]
        · simp [hk]

theorem lookup_map {β : Type*} {key' : β → κ} {b : α → β} (hkey : ∀ v, key' (b v) = key v)
    (l : List α) : lookup key' k (l.map b) = (lookup key k l).map b := by
  induction l with
  | nil => rfl
  | cons v l ih =>
      rw [List.map_cons, lookup_cons, lookup_cons, hkey, ih]
      split_ifs <;> rfl

theorem mem_map_upsert (hf : ∀ v, key (f v) = key v) (hnew : key new = k) (l : List α) :
    k ∈ (upsert key k f new l).map key := by
  by_contra hnot
  have hnone := lookup_upsert hf hnew l k
  rw [lookup_eq_none.mpr hnot, if_pos rfl] at hnone
  cases hnone

theorem map_upsert_of_mem {β : Type*} (p : α → β) (hp : ∀ v, p (f v) = p v)
    (h : k ∈ l.map key) : (upsert key k f new l).map p = l.map p := by
  induction l with
  | nil => cases h
  | cons v l ih =>
      rw [upsert_cons]
      by_cases hv : key v = k
      · rw [if_pos hv, List.map_cons, List.map_cons, hp]
      · have hrest : k ∈ l.map key := (List.mem_cons.mp h).resolve_left (Ne.symm hv)
        rw [if_neg hv, List.map_cons, List.map_cons, ih hrest]

theorem upsert_upsert (hf : ∀ v, key (f v) = key v) (hnew : key new = k) (g : α → α) (new' : α)
    (l : List α) : upsert key k g new' (upsert key k f new l) =
      upsert key k (fun v => g (f v)) (g new) l := by
  induction l with
  | nil => rw [upsert, upsert_cons, if_pos hnew, upsert]
  | cons v l ih =>
      rw [upsert_cons, upsert_cons]
      by_cases hv : key v = k
      · rw [if_pos hv, if_pos hv, upsert_cons, hf, if_pos hv]
      · rw [if_neg hv, if_neg hv, upsert_cons, if_neg hv, ih]

/-- What a change does to the entry of the key decides it, whatever it would do to others. -/
theorem upsert_congr (h : ∀ v ∈ lookup key k l, f v = g v) : upsert key k f new l =
    upsert key k g new l := by
  induction l with
  | nil => rfl
  | cons v l ih =>
      rw [upsert_cons, upsert_cons]
      rw [lookup_cons] at h
      by_cases hv : key v = k
      · rw [if_pos hv] at h
        rw [if_pos hv, if_pos hv, h v rfl]
      · rw [if_neg hv] at h
        rw [if_neg hv, if_neg hv, ih h]

/-- What is new does not matter when the key is there. -/
theorem upsert_new_congr (h : k ∈ l.map key) (new new' : α) :
    upsert key k f new l = upsert key k f new' l := by
  induction l with
  | nil => cases h
  | cons v l ih =>
      rw [upsert_cons, upsert_cons]
      by_cases hv : key v = k
      · rw [if_pos hv, if_pos hv]
      · rw [if_neg hv, if_neg hv, ih ((List.mem_cons.mp h).resolve_left (Ne.symm hv))]

theorem map_upsert {β : Type*} {key' : β → κ} {f' : β → β} {b : α → β}
    (hkey : ∀ v, key' (b v) = key v) (hf : ∀ v, b (f v) = f' (b v)) (l : List α) :
    (upsert key k f new l).map b = upsert key' k f' (b new) (l.map b) := by
  induction l with
  | nil => rfl
  | cons v l ih =>
      rw [upsert_cons, List.map_cons, upsert_cons, hkey]
      by_cases hv : key v = k
      · rw [if_pos hv, if_pos hv, List.map_cons, hf]
      · rw [if_neg hv, if_neg hv, List.map_cons, ih]

/-! ## The entries of one key -/

theorem lookup_eq_head? (k : κ) (l : List α) :
    lookup key k l = (l.filter fun v => key v = k).head? := List.head?_filter.symm

theorem filter_upsert_self (hf : ∀ v, key (f v) = key v) (hnew : key new = k) (l : List α) :
    (upsert key k f new l).filter (fun v => key v = k) =
      upsert key k f new (l.filter fun v => key v = k) := by
  induction l with
  | nil =>
      refine List.filter_eq_self.mpr fun v hv => ?_
      rw [List.mem_singleton.mp hv]
      exact decide_eq_true hnew
  | cons v l ih =>
      rw [upsert_cons, List.filter_cons]
      by_cases hv : key v = k
      · rw [if_pos hv, if_pos (decide_eq_true hv), upsert_cons, if_pos hv, List.filter_cons,
          if_pos (decide_eq_true ((hf v).trans hv))]
      · have hnot : ¬ decide (key v = k) = true := mt of_decide_eq_true hv
        rw [if_neg hv, if_neg hnot, List.filter_cons, if_neg hnot, ih]

theorem filter_upsert_ne (hf : ∀ v, key (f v) = key v) (hnew : key new = k) (hne : k ≠ k')
    (l : List α) : (upsert key k f new l).filter (fun v => key v = k') =
      l.filter fun v => key v = k' := by
  induction l with
  | nil =>
      refine List.filter_eq_nil_iff.mpr fun v hv => ?_
      rw [List.mem_singleton.mp hv, hnew]
      exact mt of_decide_eq_true hne
  | cons v l ih =>
      rw [upsert_cons]
      by_cases hv : key v = k
      · rw [if_pos hv, List.filter_cons, List.filter_cons, hf, hv]
        have hnot : ¬ decide (k = k') = true := mt of_decide_eq_true hne
        rw [if_neg hnot, if_neg hnot]
      · rw [if_neg hv, List.filter_cons, List.filter_cons, ih]

variable (key) in
/-- Lists with the same entries of each key are permutations of each other. -/
theorem perm_of_filter {l l' : List α}
    (h : ∀ k, (l.filter fun v => key v = k).Perm (l'.filter fun v => key v = k)) :
    l.Perm l' := by
  classical
  refine List.perm_iff_count.mpr fun a => ?_
  have hfilter : ∀ l : List α, (l.filter fun v => key v = key a).count a = l.count a :=
    fun l => List.count_filter (p := fun v => key v = key a) (decide_eq_true rfl)
  rw [← hfilter l, ← hfilter l', (h (key a)).count_eq a]

end GameServer.Upsert
