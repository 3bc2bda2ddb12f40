import GameServer.Match

/-!
# What a search takes out of the lists

`addtoStictlist` notes for every player in range the list and the index, sorts the chosen ones by
descending index and removes them one by one. As long as no entry stands twice, every removal hits
the noted player: a removal at a higher index moves no lower one.
-/

namespace GameServer.Match.Service

variable {s : Service} {p v : Player} {r : ℤ} {q : Queue}

theorem collect_perm (p : Player) (r : ℤ) (tmp l : List Player) :
    (collect p r tmp l).Perm (tmp ++ l.filter (inRange p r)) := by
  induction l generalizing tmp with
  | nil => simp [collect]
  | cons v l ih =>
      simp only [collect, List.foldl_cons] at ih ⊢
      by_cases hv : inRange p r v
      · have hstep : ∀ tmp', tmp'.Perm (tmp ++ [v]) →
            (tmp' ++ l.filter (inRange p r)).Perm
              (tmp ++ (v :: l).filter (inRange p r)) := fun tmp' h => by
          rw [List.filter_cons_of_pos hv]
          simpa using h.append_right (l.filter (inRange p r))
        rw [if_pos hv]
        split
        · exact (ih _).trans (hstep _ (List.perm_append_singleton v tmp).symm)
        · exact (ih _).trans (hstep _ (List.Perm.refl _))
      · rw [if_neg hv, List.filter_cons_of_neg hv]
        exact ih tmp

theorem mark_of_not_mem {vars : Player → Vars} {l : List Player} {i : ℕ} (hv : v ∉ l) :
    mark p r q vars l i v = vars v := by
  induction l generalizing vars i with
  | nil => rfl
  | cons u l ih =>
      rw [List.mem_cons, not_or] at hv
      obtain ⟨huv, hvl⟩ := hv
      rw [mark, ih hvl]
      split
      · rw [Function.update_of_ne huv]
      · rfl

theorem mark_getElem (q : Queue) (vars : Player → Vars) {l : List Player} (i : ℕ) {j : ℕ}
    (hnd : l.Nodup) (hj : l[j]? = some v) (hv : inRange p r v) :
    (mark p r q vars l i v).src_list = some q ∧ (mark p r q vars l i v).index_list = i + j := by
  induction l generalizing vars i j with
  | nil => simp at hj
  | cons u l ih =>
      obtain ⟨hul, hnd⟩ := List.nodup_cons.mp hnd
      cases j with
      | zero =>
          obtain rfl : u = v := by simpa using hj
          rw [mark, mark_of_not_mem hul, if_pos hv, Function.update_self]
          exact ⟨rfl, rfl⟩
      | succ j =>
          have hmem : l[j]? = some v := by simpa using hj
          obtain ⟨hsrc, hidx⟩ := ih _ (i + 1) hnd hmem
          exact ⟨hsrc, by rw [mark, hidx]; omega⟩

@[simp] theorem list_setList_self (s : Service) (q : Queue) (l : List Player) :
    (s.setList q l).list q = l := by
  cases q <;> rfl

theorem list_setList_of_ne {q q' : Queue} (h : q' ≠ q) (s : Service) (l : List Player) :
    (s.setList q l).list q' = s.list q' := by
  cases q <;> cases q' <;> first | rfl | exact absurd rfl h

@[simp] theorem vars_setList (s : Service) (q : Queue) (l : List Player) :
    (s.setList q l).vars = s.vars := by
  cases q <;> rfl

/-- The three lists without the given players. -/
def without (s : Service) (gone : List Player) : Service :=
  { s with
    keep_list := s.keep_list.filter fun v => v ∉ gone
    strict_list := s.strict_list.filter fun v => v ∉ gone
    loose_list := s.loose_list.filter fun v => v ∉ gone }

/-- The player stands where it noted. -/
def Noted (s : Service) (v : Player) : Prop :=
  ∃ q i, (s.vars v).src_list = some q ∧ (s.vars v).index_list = i + 1 ∧
    (s.list q)[i]? = some v

theorem tableRemove_noted {l : List Player} {i : ℕ} (hi : l[i]? = some v) :
    tableRemove l (i + 1) = some (l.eraseIdx i) := by
  have hlt := (List.getElem?_eq_some_iff.mp hi).1
  rw [tableRemove, if_pos ⟨by omega, by omega⟩, Nat.add_sub_cancel]

theorem eraseIdx_eq_filter {l : List Player} {i : ℕ} (hnd : l.Nodup) (hi : l[i]? = some v) :
    l.eraseIdx i = l.filter fun w => w ≠ v := by
  obtain ⟨hlt, rfl⟩ := List.getElem?_eq_some_iff.mp hi
  rw [← hnd.erase_getElem _ hlt, hnd.erase_eq_filter]
  refine List.filter_congr (fun w _ => ?_)
  simp [bne, beq_eq_decide]

theorem without_setList {gone : List Player} {i : ℕ} {l : List Player}
    (hnd : (s.list q).Nodup) (hi : (s.list q)[i]? = some v)
    (hl : l = (s.list q).eraseIdx i) (hfree : ∀ q', q' ≠ q → v ∉ s.list q') :
    (s.setList q l).without gone = s.without (v :: gone) := by
  have hself : (l.filter fun w => w ∉ gone) = (s.list q).filter fun w => w ∉ v :: gone := by
    rw [hl, eraseIdx_eq_filter hnd hi, List.filter_filter]
    refine List.filter_congr (fun w _ => ?_)
    by_cases hwv : w = v <;> simp [hwv]
  have hother : ∀ q', q' ≠ q → ((s.list q').filter fun w => w ∉ gone) =
      (s.list q').filter fun w => w ∉ v :: gone := fun q' hq => by
    refine List.filter_congr (fun w hw => ?_)
    have hne : w ≠ v := fun e => hfree q' hq (e ▸ hw)
    simp [hne]
  cases q with
  | keep_list =>
      have hs := hother .strict_list (by decide)
      have ho := hother .loose_list (by decide)
      simp only [list] at hself hs ho
      simp only [without, setList]
      rw [hself, hs, ho]
  | strict_list =>
      have hk := hother .keep_list (by decide)
      have ho := hother .loose_list (by decide)
      simp only [list] at hself hk ho
      simp only [without, setList]
      rw [hself, hk, ho]
  | loose_list =>
      have hk := hother .keep_list (by decide)
      have hs := hother .strict_list (by decide)
      simp only [list] at hself hk hs
      simp only [without, setList]
      rw [hself, hk, hs]

/-- No entry stands twice. -/
structure Apart (s : Service) : Prop where
  nodup : ∀ q, (s.list q).Nodup
  disjoint : ∀ q q', q ≠ q' → ∀ v ∈ s.list q, v ∉ s.list q'

/-- Removing noted players by descending index removes them and nobody else. -/
theorem takeOut_spec {order : List Player} (hnd : order.Nodup) (hlists : s.Apart)
    (hnoted : ∀ v ∈ order, s.Noted v)
    (hsorted : order.Pairwise fun a b => (s.vars b).index_list ≤ (s.vars a).index_list) :
    s.takeOut order = (s.without order, true) := by
  induction order generalizing s with
  | nil => simp [takeOut, without]
  | cons v order ih =>
      obtain ⟨q, i, hsrc, hidx, hi⟩ := hnoted v List.mem_cons_self
      obtain ⟨hv, hnd⟩ := List.nodup_cons.mp hnd
      obtain ⟨hle, hsorted⟩ := List.pairwise_cons.mp hsorted
      have hmem := List.mem_of_getElem? hi
      have hstep : s.takeOut (v :: order) =
          (s.setList q ((s.list q).eraseIdx i)).takeOut order := by
        simp only [takeOut, hsrc, hidx, tableRemove_noted hi]
      have hsub : ∀ q', ((s.setList q ((s.list q).eraseIdx i)).list q').Sublist (s.list q') :=
        fun q' => by
          by_cases hq : q' = q
          · subst hq
            rw [list_setList_self]
            exact List.eraseIdx_sublist _ _
          · rw [list_setList_of_ne hq]
      rw [hstep, ih hnd]
      · have hfree : ∀ q', q' ≠ q → v ∉ s.list q' := fun q' hq =>
          hlists.disjoint q q' (Ne.symm hq) v hmem
        rw [without_setList (hlists.nodup q) hi rfl hfree]
      · exact ⟨fun q' => (hlists.nodup q').sublist (hsub q'), fun q₁ q₂ hq w hw hw' =>
          hlists.disjoint q₁ q₂ hq w ((hsub q₁).subset hw) ((hsub q₂).subset hw')⟩
      · intro w hw
        obtain ⟨q', j, hsrc', hidx', hj⟩ := hnoted w (List.mem_cons_of_mem _ hw)
        refine ⟨q', j, by simpa using hsrc', by simpa using hidx', ?_⟩
        by_cases hq : q' = q
        · subst hq
          rw [list_setList_self]
          have hji : j ≠ i := fun e => by
            subst e
            have hvw : some v = some w := hi.symm.trans hj
            exact hv (Option.some.inj hvw ▸ hw)
          have hlt := hle w hw
          rw [hidx, hidx'] at hlt
          rw [List.getElem?_eraseIdx_of_lt (by omega)]
          exact hj
        · rw [list_setList_of_ne hq]
          exact hj
      · simpa using hsorted

theorem found_perm (s : Service) (p : Player) (r : ℤ) :
    (s.found p r).Perm
      ((s.strict_list ++ s.keep_list ++ s.loose_list).filter (inRange p r)) := by
  have hstrict : (collect p r [] s.strict_list).Perm (s.strict_list.filter (inRange p r)) := by
    simpa using collect_perm p r [] s.strict_list
  have hkeep := (collect_perm p r (collect p r [] s.strict_list) s.keep_list).trans
    (hstrict.append_right _)
  have hloose := (collect_perm p r _ s.loose_list).trans
    (hkeep.append_right (s.loose_list.filter (inRange p r)))
  simpa [found, List.filter_append] using hloose

theorem Apart.append_nodup (h : s.Apart) :
    (s.strict_list ++ s.keep_list ++ s.loose_list).Nodup := by
  rw [List.nodup_append', List.nodup_append']
  refine ⟨⟨h.nodup .strict_list, h.nodup .keep_list, fun v hs hk => ?_⟩, h.nodup .loose_list,
    fun v hv hl => ?_⟩
  · exact h.disjoint .strict_list .keep_list (by decide) v hs hk
  · rcases List.mem_append.mp hv with hs | hk
    · exact h.disjoint .strict_list .loose_list (by decide) v hs hl
    · exact h.disjoint .keep_list .loose_list (by decide) v hk hl

theorem Apart.noted (h : s.Apart) (hv : v ∈ s.found p r) :
    ({ s with vars := s.marked p r } : Service).Noted v := by
  obtain ⟨hmem, hr⟩ := List.mem_filter.mp ((s.found_perm p r).mem_iff.mp hv)
  rcases List.mem_append.mp hmem with hmem | hl
  · rcases List.mem_append.mp hmem with hs | hk
    · obtain ⟨i, hi⟩ := List.mem_iff_getElem?.mp hs
      have hkeep : v ∉ s.keep_list := h.disjoint .strict_list .keep_list (by decide) v hs
      have hloose : v ∉ s.loose_list := h.disjoint .strict_list .loose_list (by decide) v hs
      obtain ⟨hsrc, hidx⟩ := mark_getElem .strict_list s.vars 1 (h.nodup .strict_list) hi hr
      have hvars : s.marked p r v = mark p r .strict_list s.vars s.strict_list 1 v := by
        rw [marked, mark_of_not_mem hloose, mark_of_not_mem hkeep]
      rw [← Nat.add_comm i 1] at hidx
      exact ⟨.strict_list, i, (congrArg Vars.src_list hvars).trans hsrc,
        (congrArg Vars.index_list hvars).trans hidx, hi⟩
    · obtain ⟨i, hi⟩ := List.mem_iff_getElem?.mp hk
      have hloose : v ∉ s.loose_list := h.disjoint .keep_list .loose_list (by decide) v hk
      obtain ⟨hsrc, hidx⟩ := mark_getElem .keep_list
        (mark p r .strict_list s.vars s.strict_list 1) 1 (h.nodup .keep_list) hi hr
      have hvars : s.marked p r v = mark p r .keep_list
          (mark p r .strict_list s.vars s.strict_list 1) s.keep_list 1 v := by
        rw [marked, mark_of_not_mem hloose]
      rw [← Nat.add_comm i 1] at hidx
      exact ⟨.keep_list, i, (congrArg Vars.src_list hvars).trans hsrc,
        (congrArg Vars.index_list hvars).trans hidx, hi⟩
  · obtain ⟨i, hi⟩ := List.mem_iff_getElem?.mp hl
    obtain ⟨hsrc, hidx⟩ := mark_getElem .loose_list
      (mark p r .keep_list (mark p r .strict_list s.vars s.strict_list 1) s.keep_list 1) 1
      (h.nodup .loose_list) hi hr
    rw [← Nat.add_comm i 1] at hidx
    exact ⟨.loose_list, i, hsrc, hidx, hi⟩

/-- What a strict search does: the player joins `strict_list`, or it and the chosen ones, who leave
the lists, make a match. -/
theorem stepStictlist_cases (h : s.Apart) {loop : Loop} {order : List Player} {s' : Service}
    (hs : s.stepStictlist p loop order = some s') :
    (∃ vars, s' = { s with
      vars := vars
      strict_list := s.strict_list ++ [p]
      running := some ⟨none, loop⟩ }) ∨
    (∃ vars, order.Nodup ∧ (∀ v ∈ order, v ∈ s.strict_list ++ s.keep_list ++ s.loose_list) ∧
      s' = { s.without order with
        vars := vars
        matched := s.matched ++ (order ++ [p])
        running := some ⟨some (.handleMatch (order ++ [p])), loop⟩ }) := by
  simp only [stepStictlist] at hs
  split at hs
  · left
    exact ⟨_, (Option.some.inj hs).symm⟩
  · split at hs
    · next hord =>
        right
        obtain ⟨hperm, hsorted⟩ := hord
        have hfound : ∀ v ∈ order, v ∈ s.found p (s.range p eloStrict) := fun v hv =>
          List.mem_of_mem_take (hperm.mem_iff.mp hv)
        have hnd : order.Nodup := by
          have hall := (s.found_perm p (s.range p eloStrict)).nodup_iff.mpr
            (h.append_nodup.filter _)
          exact hperm.nodup_iff.mpr (hall.sublist (List.take_sublist _ _))
        have hspec := takeOut_spec
          (s := { s with vars := s.marked p (s.range p eloStrict) }) hnd
          ⟨h.nodup, h.disjoint⟩ (fun v hv => h.noted (hfound v hv)) hsorted
        refine ⟨s.marked p (s.range p eloStrict), hnd, fun v hv => ?_, ?_⟩
        · exact (List.mem_filter.mp ((s.found_perm p _).mem_iff.mp (hfound v hv))).1
        · rw [hspec] at hs
          exact (Option.some.inj hs).symm
    · simp at hs

/-- A loose search meets an empty list, so the player goes on to the robots. -/
theorem stepLooselist_eq (hloose : s.loose_list = []) (p : Player) (loop : Loop) :
    ∃ vars, s.stepLooselist p loop = { s with
      vars := vars
      running := none
      suspended := s.suspended ++ [⟨some (.uniqueservice p), loop⟩] } := by
  refine ⟨(s.stepLooselist p loop).vars, ?_⟩
  simp [stepLooselist, hloose, collect, mark, enlist, setVars, setList, list, tableRemove, useAI,
    park, MATCH_NUM]

end GameServer.Match.Service
