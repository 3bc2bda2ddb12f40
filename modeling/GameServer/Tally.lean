import Mathlib.Tactic
import GameServer.Upsert

/-!
# Counts that grants add to

Entries with a key and a count, and grants that add to the count of their key. The first grant of a
key makes the entry. What a run of grants leaves depends on the sums of the grants alone, but for an
entry that the run makes: it is the one that the first grant of its key asks for.
-/

namespace GameServer

open Upsert

/-- Entries `α` with keys `κ`, and grants `γ`. -/
structure Tally (α κ γ : Type*) where
  key : α → κ
  count : α → ℤ
  put : α → ℤ → α
  of : γ → κ
  gain : γ → ℤ
  /-- What the first grant of a key counts less. -/
  less : γ → ℤ
  /-- The entry that the first grant of a key makes, but for its count. -/
  fresh : γ → α
  top : ℤ
  add : ℤ → ℤ → ℤ
  bound : ℤ
  key_put : ∀ v n, key (put v n) = key v
  key_fresh : ∀ g, key (fresh g) = of g
  count_put : ∀ v n, count (put v n) = n
  put_put : ∀ v m n, put (put v m) n = put v n
  put_count : ∀ v, put v (count v) = v
  top_nonneg : 0 ≤ top
  add_eq : ∀ x a, 0 ≤ x → 0 ≤ a → x + a < bound → add x a = min (x + a) top

namespace Tally

variable {α κ γ : Type*} (T : Tally α κ γ)

def more (g : γ) (v : α) : α := T.put v (T.add (T.count v) (T.gain g))

def first (g : γ) : α := T.put (T.fresh g) (T.add 0 (T.gain g - T.less g))

def sum (gs : List γ) : ℤ := (gs.map T.gain).sum

/-- What grants of a key leave of the entries of the key. -/
def after (gs : List γ) : List α → List α
  | v :: l => T.put v (min (T.count v + T.sum gs) T.top) :: l
  | [] =>
      match gs with
      | [] => []
      | g :: _ => [T.put (T.fresh g) (min (T.sum gs - T.less g) T.top)]

/-- Grants that make the same entry. -/
def Alike (g g' : γ) : Prop :=
  T.less g = T.less g' ∧ ∀ n, T.put (T.fresh g) n = T.put (T.fresh g') n

section Sums

variable {T} {g : γ} {gs gs' : List γ} {l : List α} {x : ℤ}

theorem key_more (g : γ) (v : α) : T.key (T.more g v) = T.key v := T.key_put v _

theorem key_first (g : γ) : T.key (T.first g) = T.of g :=
  (T.key_put (T.fresh g) _).trans (T.key_fresh g)

theorem sum_cons (g : γ) (gs : List γ) : T.sum (g :: gs) = T.gain g + T.sum gs := List.sum_cons

theorem sum_perm (h : gs.Perm gs') : T.sum gs = T.sum gs' := (h.map T.gain).sum_eq

theorem sum_nonneg (h : ∀ g ∈ gs, 0 ≤ T.gain g) : 0 ≤ T.sum gs := by
  refine List.sum_nonneg fun a ha => ?_
  obtain ⟨g, hg, rfl⟩ := List.mem_map.mp ha
  exact h g hg

theorem gain_le_sum (h : ∀ g ∈ gs, 0 ≤ T.gain g) (hg : g ∈ gs) : T.gain g ≤ T.sum gs := by
  refine List.single_le_sum (fun a ha => ?_) _ (List.mem_map_of_mem hg)
  obtain ⟨g', hg', rfl⟩ := List.mem_map.mp ha
  exact h g' hg'

theorem foldl_add (hx : 0 ≤ x) (htop : x ≤ T.top) (h : ∀ g ∈ gs, 0 ≤ T.gain g)
    (hlt : x + T.sum gs < T.bound) :
    (gs.map T.gain).foldl T.add x = min (x + T.sum gs) T.top := by
  induction gs generalizing x with
  | nil =>
      change x = min (x + 0) T.top
      omega
  | cons g gs ih =>
      have hg := h g List.mem_cons_self
      have hrest : ∀ g ∈ gs, 0 ≤ T.gain g := fun g hg => h g (List.mem_cons_of_mem _ hg)
      have hsum := sum_nonneg hrest
      rw [sum_cons] at hlt ⊢
      have hadd := T.add_eq x (T.gain g) hx hg (by omega)
      rw [List.map_cons, List.foldl_cons, hadd,
        ih (by omega) (by omega) hrest (by omega)]
      omega

theorem foldl_more (gs : List γ) (v : α) : gs.foldl (fun v g => T.more g v) v =
    T.put v ((gs.map T.gain).foldl T.add (T.count v)) := by
  induction gs generalizing v with
  | nil => exact (T.put_count v).symm
  | cons g gs ih =>
      rw [List.foldl_cons, ih, more, T.count_put, T.put_put]
      rfl

theorem after_perm (hperm : gs.Perm gs')
    (hfirst : l = [] → ∀ g ∈ gs.head?, ∀ g' ∈ gs'.head?, T.Alike g g') :
    T.after gs l = T.after gs' l := by
  cases l with
  | cons v l => rw [after, after, sum_perm hperm]
  | nil =>
      cases gs with
      | nil => rw [hperm.nil_eq]
      | cons g rest =>
          cases gs' with
          | nil => exact absurd hperm.symm.nil_eq (List.cons_ne_nil g rest).symm
          | cons g' rest' =>
              obtain ⟨hless, hput⟩ := hfirst rfl g rfl g' rfl
              rw [after, after, sum_perm hperm, hless, hput]

end Sums

section Runs

variable [DecidableEq κ]

def grant (l : List α) (g : γ) : List α := upsert T.key (T.of g) (T.more g) (T.first g) l

def grants (gs : List γ) (l : List α) : List α := gs.foldl T.grant l

def ofKey (k : κ) (gs : List γ) : List γ := gs.filter fun g => T.of g = k

/-- The count of a key. -/
def held (k : κ) (l : List α) : ℤ := (lookup T.key k l).elim 0 T.count

/-- The counts are in range, nothing is taken away, and no sum reaches the bound. -/
structure Bounded (gs : List γ) (l : List α) : Prop where
  counts : ∀ v ∈ l, 0 ≤ T.count v ∧ T.count v ≤ T.top
  gains : ∀ g ∈ gs, 0 ≤ T.less g ∧ T.less g ≤ T.gain g
  sum_lt : ∀ k, T.held k l + T.sum (T.ofKey k gs) < T.bound

variable {T} {k : κ} {g g' : γ} {gs gs' : List γ} {v : α} {l : List α}

/-! ## The grants of one key -/

theorem mem_ofKey : g ∈ T.ofKey k gs ↔ g ∈ gs ∧ T.of g = k := by
  rw [ofKey, List.mem_filter, decide_eq_true_eq]

theorem ofKey_cons_self (h : T.of g = k) : T.ofKey k (g :: gs) = g :: T.ofKey k gs :=
  List.filter_cons_of_pos (decide_eq_true h)

theorem ofKey_cons_ne (h : T.of g ≠ k) : T.ofKey k (g :: gs) = T.ofKey k gs :=
  List.filter_cons_of_neg (mt of_decide_eq_true h)

theorem grants_cons (g : γ) (gs : List γ) (l : List α) :
    T.grants (g :: gs) l = T.grants gs (T.grant l g) := rfl

theorem grants_append (gs gs' : List γ) (l : List α) :
    T.grants (gs ++ gs') l = T.grants gs' (T.grants gs l) := List.foldl_append

/-- Grants of other keys do not touch the entries of a key. -/
theorem filter_grants (k : κ) (gs : List γ) (l : List α) :
    (T.grants gs l).filter (fun v => T.key v = k) =
      T.grants (T.ofKey k gs) (l.filter fun v => T.key v = k) := by
  induction gs generalizing l with
  | nil => rfl
  | cons g gs ih =>
      rw [grants_cons, ih, grant]
      by_cases hg : T.of g = k
      · subst hg
        rw [ofKey_cons_self rfl, grants_cons, filter_upsert_self (key_more g) (key_first g)]
        rfl
      · rw [ofKey_cons_ne hg, filter_upsert_ne (key_more g) (key_first g) hg]

theorem grants_cons_of_key (hv : T.key v = k) (h : ∀ g ∈ gs, T.of g = k) :
    T.grants gs (v :: l) = gs.foldl (fun v g => T.more g v) v :: l := by
  induction gs generalizing v with
  | nil => rfl
  | cons g gs ih =>
      have hg := h g List.mem_cons_self
      rw [grants_cons, grant, upsert_cons, if_pos (hv.trans hg.symm)]
      exact ih ((key_more g v).trans hv) fun g hg => h g (List.mem_cons_of_mem _ hg)

theorem Bounded.gain_nonneg (h : T.Bounded gs l) (hg : g ∈ gs) : 0 ≤ T.gain g :=
  (h.gains g hg).1.trans (h.gains g hg).2

theorem Bounded.ofKey_gain_nonneg (h : T.Bounded gs l) (k : κ) :
    ∀ g ∈ T.ofKey k gs, 0 ≤ T.gain g := fun _ hg => h.gain_nonneg (mem_ofKey.mp hg).1

/-- Without entries only the sums of the grants matter. -/
theorem bounded_nil (h : ∀ g ∈ gs, 0 ≤ T.less g ∧ T.less g ≤ T.gain g) (hlt : T.sum gs < T.bound) :
    T.Bounded gs [] := by
  refine ⟨fun v hv => absurd hv List.not_mem_nil, h, fun k => ?_⟩
  have hle : T.sum (T.ofKey k gs) ≤ T.sum gs := by
    refine (List.filter_sublist.map T.gain).sum_le_sum fun a ha => ?_
    obtain ⟨g, hg, rfl⟩ := List.mem_map.mp ha
    exact (h g hg).1.trans (h g hg).2
  exact (zero_add (T.sum (T.ofKey k gs))).trans_lt (hle.trans_lt hlt)

/-- What a run leaves of the entries of a key. -/
theorem filter_grants_eq (h : T.Bounded gs l) (k : κ) :
    (T.grants gs l).filter (fun v => T.key v = k) =
      T.after (T.ofKey k gs) (l.filter fun v => T.key v = k) := by
  have hlt := h.sum_lt k
  have hnonneg := h.ofKey_gain_nonneg k
  have hof : ∀ g ∈ T.ofKey k gs, T.of g = k := fun g hg => (mem_ofKey.mp hg).2
  rw [filter_grants]
  rw [held, lookup_eq_head?] at hlt
  cases hl : l.filter fun v => T.key v = k with
  | cons v rest =>
      rw [hl] at hlt
      have hv : v ∈ l.filter fun v => T.key v = k := hl ▸ List.mem_cons_self
      obtain ⟨hmem, hkey⟩ := List.mem_filter.mp hv
      obtain ⟨hcount, htop⟩ := h.counts v hmem
      rw [grants_cons_of_key (of_decide_eq_true hkey) hof, foldl_more,
        foldl_add hcount htop hnonneg hlt]
      rfl
  | nil =>
      rw [hl] at hlt
      change 0 + _ < _ at hlt
      cases hgs : T.ofKey k gs with
      | nil => rfl
      | cons g rest =>
          rw [hgs] at hof hnonneg hlt
          have hg : g ∈ gs := (mem_ofKey.mp (hgs ▸ List.mem_cons_self)).1
          obtain ⟨hless, hgain⟩ := h.gains g hg
          have hrest : ∀ g ∈ rest, 0 ≤ T.gain g :=
            fun g hg => hnonneg g (List.mem_cons_of_mem _ hg)
          have hsum := sum_nonneg hrest
          rw [sum_cons] at hlt
          have hkey : T.key (T.first g) = k := (key_first g).trans (hof g List.mem_cons_self)
          have hfirst := T.add_eq 0 (T.gain g - T.less g) le_rfl (by omega) (by omega)
          have htop := T.top_nonneg
          have hcount : T.count (T.first g) = min (T.gain g - T.less g) T.top := by
            rw [first, T.count_put, hfirst, zero_add]
          change T.grants rest [T.first g] = _
          rw [grants_cons_of_key hkey fun g hg => hof g (List.mem_cons_of_mem _ hg), foldl_more,
            foldl_add (by omega) (by omega) hrest (by omega), hcount, first, T.put_put, after,
            sum_cons]
          congr 2
          omega

/-! ## Orders of the grants -/

theorem ofKey_perm (h : gs.Perm gs') (k : κ) : (T.ofKey k gs).Perm (T.ofKey k gs') := h.filter _

theorem Bounded.mono (h : T.Bounded gs l) (hsub : gs'.Subperm gs) : T.Bounded gs' l := by
  refine ⟨h.counts, fun g hg => h.gains g (hsub.subset hg), fun k => ?_⟩
  obtain ⟨gs₁, hperm, hsublist⟩ := hsub
  have hle : T.sum (T.ofKey k gs₁) ≤ T.sum (T.ofKey k gs) := by
    refine ((hsublist.filter _).map T.gain).sum_le_sum fun a ha => ?_
    obtain ⟨g, hg, rfl⟩ := List.mem_map.mp ha
    exact h.ofKey_gain_nonneg k g hg
  rw [← sum_perm (ofKey_perm hperm k)]
  exact (add_le_add_right hle _).trans_lt (h.sum_lt k)

theorem Bounded.perm (h : T.Bounded gs l) (hperm : gs.Perm gs') : T.Bounded gs' l :=
  h.mono hperm.symm.subperm

/-- Two orders of the same grants leave the same entries, if the first grants of every key that is
not there make the same entry. -/
theorem grants_perm (h : T.Bounded gs l) (hperm : gs.Perm gs')
    (hfirst : ∀ k ∉ l.map T.key, ∀ g ∈ (T.ofKey k gs).head?, ∀ g' ∈ (T.ofKey k gs').head?,
      T.Alike g g') : (T.grants gs l).Perm (T.grants gs' l) := by
  refine perm_of_filter T.key fun k => List.Perm.of_eq ?_
  rw [filter_grants_eq h, filter_grants_eq (h.perm hperm)]
  refine after_perm (ofKey_perm hperm k) fun hl => hfirst k fun hmem => ?_
  obtain ⟨v, hv, hkey⟩ := List.mem_map.mp hmem
  exact List.filter_eq_nil_iff.mp hl v hv (decide_eq_true hkey)

/-- The entry of a new key is the one of its first grant, whatever its count. -/
theorem filter_grants_new (hk : k ∉ l.map T.key) (hg : g ∈ (T.ofKey k gs).head?) :
    ∃ n, (T.grants gs l).filter (fun v => T.key v = k) = [T.put (T.fresh g) n] := by
  have hnone : (l.filter fun v => T.key v = k) = [] :=
    List.filter_eq_nil_iff.mpr fun v hv hkey =>
      hk (List.mem_map.mpr ⟨v, hv, of_decide_eq_true hkey⟩)
  obtain ⟨rest, hrest⟩ := List.head?_eq_some_iff.mp hg
  have hof : ∀ g' ∈ g :: rest, T.of g' = k := fun g' hg' => (mem_ofKey.mp (hrest ▸ hg')).2
  have hkey : T.key (T.first g) = k := (key_first g).trans (hof g List.mem_cons_self)
  rw [filter_grants, hnone, hrest]
  change ∃ n, T.grants rest [T.first g] = _
  rw [grants_cons_of_key hkey fun g' hg' => hof g' (List.mem_cons_of_mem _ hg'), foldl_more, first,
    T.put_put]
  exact ⟨_, rfl⟩

/-- Two runs that leave the same entries have first grants of a new key with the same entry. -/
theorem fresh_of_perm (hsame : (T.grants gs l).Perm (T.grants gs' l)) (hk : k ∉ l.map T.key)
    (hg : g ∈ (T.ofKey k gs).head?) (hg' : g' ∈ (T.ofKey k gs').head?) :
    ∃ m n, T.put (T.fresh g) m = T.put (T.fresh g') n := by
  obtain ⟨m, hm⟩ := filter_grants_new hk hg
  obtain ⟨n, hn⟩ := filter_grants_new hk hg'
  have hfilter := hsame.filter fun v => T.key v = k
  rw [hm, hn] at hfilter
  exact ⟨m, n, List.singleton_perm_singleton.mp hfilter⟩

/-! ## Grants that change nothing -/

/-- A grant that adds nothing: its entry is there and full, or it is of nothing. -/
def Idle (T : Tally α κ γ) (l : List α) (g : γ) : Prop :=
  ∃ v, lookup T.key (T.of g) l = some v ∧ (T.count v = T.top ∨ T.gain g = 0)

theorem idle_of_perm (h : T.Bounded gs l) (hsame : (T.grants gs l).Perm l) (hg : g ∈ gs) :
    T.Idle l g := by
  have hfilter := hsame.filter fun v => T.key v = T.of g
  have hmem : g ∈ T.ofKey (T.of g) gs := mem_ofKey.mpr ⟨hg, rfl⟩
  rw [filter_grants_eq h] at hfilter
  unfold Idle
  rw [lookup_eq_head?]
  cases hl : l.filter fun v => T.key v = T.of g with
  | nil =>
      rw [hl] at hfilter
      cases hgs : T.ofKey (T.of g) gs with
      | nil => exact absurd (hgs ▸ hmem) List.not_mem_nil
      | cons g' rest =>
          rw [hgs] at hfilter
          exact absurd hfilter.eq_nil (List.cons_ne_nil _ _)
  | cons v rest =>
      refine ⟨v, rfl, ?_⟩
      rw [hl] at hfilter
      have hput : T.put v (min (T.count v + T.sum (T.ofKey (T.of g) gs)) T.top) = v :=
        List.singleton_perm_singleton.mp ((List.perm_append_right_iff rest).mp hfilter)
      have hcount := congrArg T.count hput
      rw [T.count_put] at hcount
      have hle := gain_le_sum (h.ofKey_gain_nonneg _) hmem
      have hnonneg := h.gain_nonneg hg
      omega

/-- Grants that add nothing to the entries of a key leave them. -/
theorem after_of_idle (h : T.Bounded gs l) (hidle : ∀ g ∈ gs, T.Idle l g) (k : κ) :
    T.after (T.ofKey k gs) (l.filter fun v => T.key v = k) = l.filter fun v => T.key v = k := by
  have hof : ∀ g ∈ T.ofKey k gs, ∃ v, (l.filter fun v => T.key v = k).head? = some v ∧
      (T.count v = T.top ∨ T.gain g = 0) := by
    intro g hg
    obtain ⟨hmem, rfl⟩ := mem_ofKey.mp hg
    rw [← lookup_eq_head?]
    exact hidle g hmem
  cases hl : l.filter fun v => T.key v = k with
  | nil =>
      cases hgs : T.ofKey k gs with
      | nil => rfl
      | cons g rest =>
          obtain ⟨v, hv, -⟩ := hof g (hgs ▸ List.mem_cons_self)
          rw [hl] at hv
          cases hv
  | cons v rest =>
      have hmem : v ∈ l := List.mem_of_mem_filter (hl ▸ List.mem_cons_self)
      obtain ⟨-, htop⟩ := h.counts v hmem
      have hsum := sum_nonneg (h.ofKey_gain_nonneg k)
      have hmin : min (T.count v + T.sum (T.ofKey k gs)) T.top = T.count v := by
        by_cases hfull : T.count v = T.top
        · omega
        · have hzero : T.sum (T.ofKey k gs) = 0 := by
            refine List.sum_eq_zero fun a ha => ?_
            obtain ⟨g, hg, rfl⟩ := List.mem_map.mp ha
            obtain ⟨v', hv', hor⟩ := hof g hg
            rw [hl] at hv'
            obtain rfl := Option.some.inj hv'
            exact hor.resolve_left hfull
          omega
      rw [after, hmin, T.put_count]

theorem grants_perm_self_iff (h : T.Bounded gs l) :
    (T.grants gs l).Perm l ↔ ∀ g ∈ gs, T.Idle l g := by
  refine ⟨fun hsame g hg => idle_of_perm h hsame hg, fun hidle => ?_⟩
  refine perm_of_filter T.key fun k => List.Perm.of_eq ?_
  rw [filter_grants_eq h, after_of_idle h hidle]

end Runs

end Tally

end GameServer
