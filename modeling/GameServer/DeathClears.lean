import GameServer.HeroAffects

/-!
# What death leaves of the affects

`clear` runs the `onExit` of all affects, whatever calls are under way. What those calls put into
the table behind it stays on the dead hero: the affect whose own `onEnter` killed, the rest of a
list, a list that is built later. Where that does not happen, every affect has exited when the
outermost call returns, and then nothing is counted and no middle stat is changed. An affect without
a state and without a change of the stats may exit twice: nothing is given back then.
-/

namespace GameServer.Affects

open Transition
open Double (addAll Exact amount scale)

def Frame.isClear : Frame → Bool
  | .clear _ => true
  | _ => false

/-- The affect whose `onExit` the frame begins or ends. -/
def Frame.pending : Frame → List ℕ
  | .exit a | .onExec a | .exiting a => [a]
  | _ => []

/-- How often the affect counts for a state while it stands. -/
def Affect.counts (aff : Affect) (state : AffectState) : ℤ :=
  (aff.control.any fun mask => Names mask state).toNat

theorem Affect.counts_of_none {aff : Affect} (h : aff.control = none) (state : AffectState) :
    aff.counts state = 0 := by
  simp [Affect.counts, h]

namespace AffectTable

variable {t t' : AffectTable} {a b : ℕ} {st : List Frame}

/-- The affect that the step of this frame puts into the table. -/
def inserts : Frame → Option ℕ
  | .sweep (.replaceAdd a) 0 => some a
  | _ => none

/-- The `onExit` of the affect has not begun. -/
def Live (t : AffectTable) (a : ℕ) : Prop :=
  (t.heap a).status ≠ .exit ∧ Frame.exiting a ∉ t.stack

instance (t : AffectTable) (a : ℕ) : Decidable (t.Live a) := inferInstanceAs (Decidable (_ ∧ _))

/-- The references are to affects that have been made and entered. -/
structure Sound (t : AffectTable) : Prop where
  fresh : ∀ a, t.next ≤ a → t.heap a = blank
  below : ∀ a ∈ t.adding ++ t.affects, a < t.next
  started : ∀ a < t.next, (t.heap a).status ≠ .enter
  pending : ∀ f ∈ t.stack, ∀ a ∈ f.pending, a < t.next

theorem Sound.lt_of_mem (h : t.Sound) (ha : a ∈ t.affects) : a < t.next :=
  h.below a (List.mem_append_right _ ha)

theorem Sound.update (h : t.Sound) {aff : Affect} (ha : a < t.next) (hstatus : aff.status ≠ .enter)
    (hnext : t'.next = t.next) (hheap : t'.heap = Function.update t.heap a aff)
    (haffects : ∀ b ∈ t'.affects, b ∈ t.adding ++ t.affects)
    (hadding : ∀ b ∈ t'.adding, b ∈ t.adding ++ t.affects)
    (hpending : ∀ f ∈ t'.stack, ∀ b ∈ f.pending, b < t.next) : t'.Sound := by
  refine ⟨fun b hb => ?_, fun b hb => ?_, fun b hb => ?_, hnext ▸ hpending⟩
  · rw [hheap, Function.update_of_ne (by omega)]
    exact h.fresh b (hnext ▸ hb)
  · rw [hnext]
    exact h.below b ((List.mem_append.mp hb).elim (hadding b) (haffects b))
  · rw [hheap]
    by_cases hba : b = a
    · rw [hba, Function.update_self]
      exact hstatus
    · rw [Function.update_of_ne hba]
      exact h.started b (hnext ▸ hb)

theorem Sound.reframe (h : t.Sound) {affects returned : List ℕ}
    (haffects : ∀ b ∈ affects, b ∈ t.affects)
    (hadding : ∀ b ∈ st.flatMap Frame.adding, b ∈ t.adding)
    (hpending : ∀ f ∈ st, f ∈ t.stack ∨ f.pending = []) :
    ({ t with affects, returned, stack := st } : AffectTable).Sound := by
  refine ⟨h.fresh, fun b hb => ?_, h.started, fun f hf b hb => ?_⟩
  · exact h.below b (List.mem_append.mpr ((List.mem_append.mp hb).imp (hadding b) (haffects b)))
  · rcases hpending f hf with hold | hnil
    · exact h.pending f hold b hb
    · rw [hnil] at hb
      cases hb

/-! ## What a step of the table does -/

/-- What becomes of a call of `clear`: it goes on, it is done, or one more affect exits. -/
def Clears (t t' : AffectTable) (i : ℕ) : Prop :=
  Frame.clear i ∈ t'.stack ∨ t'.affects = [] ∨ ∃ j, i = j + 1 ∧ Frame.clear j ∈ t'.stack ∧
    ∀ a, t.affects[j]? = some a → ¬ t'.Live a

/-- One step begins the `onExit` of `out`, makes and enters `new`, inserts `ins`, drops `gone`. -/
structure Moves (t t' : AffectTable) (out new ins : Option ℕ) (gone : List ℕ) : Prop where
  sound : t'.Sound
  next : t'.next = t.next + new.toList.length
  out_lt : ∀ a ∈ out, a < t.next
  entered : ∀ a ∈ new, a = t.next ∧ a ∈ t'.adding ++ t'.affects ∧ t'.Live a
  control : ∀ a < t.next, (t'.heap a).control = (t.heap a).control
  live : ∀ a < t.next, t'.Live a ↔ t.Live a ∧ out ≠ some a
  refs : ∀ state, t'.affectStateRefs state = t.affectStateRefs state +
    (new.elim 0 fun a => (t'.heap a).counts state) - out.elim 0 fun a => (t.heap a).counts state
  members : ∀ a ∈ t.adding ++ t.affects, t.Live a → a ∈ gone ∨ a ∈ t'.adding ++ t'.affects
  listed : ∀ k a : ℕ, t'.affects[k]? = some a → t'.Live a →
    t.Live a ∧ ((∃ k' ≥ k, t.affects[k']? = some a) ∨ ins = some a)
  clears : ∀ i, Frame.clear i ∈ t.stack → Clears t t' i

theorem Moves.still (h : t'.Sound) (hheap : ∀ a, (t'.heap a).control = (t.heap a).control ∧
      (t'.heap a).status = (t.heap a).status) (hnext : t'.next = t.next)
    (haffects : t'.affects = t.affects) (hrefs : t'.affectStateRefs = t.affectStateRefs)
    (hadding : ∀ a ∈ t.adding, a ∈ t'.adding)
    (hexiting : ∀ a, Frame.exiting a ∈ t'.stack ↔ Frame.exiting a ∈ t.stack)
    (hclears : ∀ i, Frame.clear i ∈ t.stack → Frame.clear i ∈ t'.stack) :
    Moves t t' none none none [] := by
  have hlive : ∀ a, t'.Live a ↔ t.Live a := fun a => by
    rw [Live, Live, (hheap a).2, hexiting a]
  exact
    { sound := h
      next := hnext
      out_lt := fun a ha => (Option.not_mem_none a ha).elim
      entered := fun a ha => (Option.not_mem_none a ha).elim
      control := fun a _ => (hheap a).1
      live := fun a _ => by simp [hlive a]
      refs := fun state => by simp [hrefs]
      members := fun a ha _ => by
        rw [haffects]
        exact .inr (List.mem_append.mpr ((List.mem_append.mp ha).imp_left (hadding a)))
      listed := fun k a hk hstatus =>
        ⟨(hlive a).mp hstatus, .inl ⟨k, le_rfl, haffects ▸ hk⟩⟩
      clears := fun i hi => .inl (hclears i hi) }

/-- The topmost frame makes way for others that add the same affects. -/
theorem Moves.restack (st : List Frame) {f : Frame} {rest : List Frame}
    {out new ins : Option ℕ} {gone : List ℕ} (hstack : t.stack = f :: rest)
    (hadding : ∀ a ∈ f.adding, a ∈ st.flatMap Frame.adding)
    (hf : f.isExiting = false) (hst : ∀ g ∈ st, g.isExiting = false) (hclear : f.isClear = false)
    (h : Moves { t with stack := st ++ rest } t' out new ins gone) :
    Moves t t' out new ins gone := by
  have hexiting : ∀ a, Frame.exiting a ∈ st ++ rest ↔ Frame.exiting a ∈ t.stack := by
    intro a
    have hnot : Frame.exiting a ∉ st := fun hmem => by
      simpa [Frame.isExiting] using hst _ hmem
    have hne : Frame.exiting a ≠ f := fun e => by
      rw [← e] at hf
      cases hf
    simp [hstack, hnot, hne]
  have hlive : ∀ a, ({ t with stack := st ++ rest } : AffectTable).Live a ↔ t.Live a := fun a => by
    simp only [Live, hexiting a]
  exact
    { sound := h.sound
      next := h.next
      out_lt := h.out_lt
      entered := h.entered
      control := h.control
      live := fun a ha => (h.live a ha).trans (and_congr_left fun _ => hlive a)
      refs := h.refs
      members := fun a ha ha' => by
        refine h.members a ?_ ((hlive a).mpr ha')
        refine List.mem_append.mpr ((List.mem_append.mp ha).imp_left fun ha => ?_)
        simp only [adding, hstack, List.flatMap_cons, List.mem_append] at ha
        simp only [adding, List.flatMap_append, List.mem_append]
        exact ha.imp_left (hadding a)
      listed := fun k a hk hstatus => (h.listed k a hk hstatus).imp_left (hlive a).mp
      clears := fun i hi => by
        refine h.clears i (List.mem_append_right _ ?_)
        rw [hstack] at hi
        refine (List.mem_cons.mp hi).resolve_left fun e => ?_
        rw [← e] at hclear
        cases hclear }

/-- What `onExit` does: the object, the counts and the frames it leaves. -/
theorem Moves.onExit (h : t.Sound) (ha : a < t.next) :
    Moves t (t.onExit a) (some a) none none [] := by
  have hmove : ∀ t' : AffectTable, t'.next = t.next → t'.affects = t.affects →
      (∃ fs, t'.stack = fs ++ t.stack ∧ ∀ f ∈ fs, f = .call ∨ f = .exiting a) →
      (∃ aff : Affect, t'.heap = Function.update t.heap a aff ∧
        aff.control = (t.heap a).control ∧ (aff.status = .exit ∨
          aff.status = (t.heap a).status ∧ Frame.exiting a ∈ t'.stack)) →
      (∀ state, t'.affectStateRefs state = t.affectStateRefs state - (t.heap a).counts state) →
      Moves t t' (some a) none none [] := by
    rintro t' hnext haffects ⟨fs, hstack, hfs⟩ ⟨aff, hheap, hcontrol, hstatus⟩ hrefs
    have hnil : fs.flatMap Frame.adding = [] := List.flatMap_eq_nil_iff.mpr fun f hf => by
      rcases hfs f hf with rfl | rfl <;> rfl
    have hadding : t'.adding = t.adding := by
      simp [adding, hstack, List.flatMap_append, hnil]
    have hself : t'.heap a = aff := by rw [hheap, Function.update_self]
    have hother : ∀ b, b ≠ a → t'.heap b = t.heap b := fun b hb => by
      rw [hheap, Function.update_of_ne hb]
    have hlive : ∀ b, t'.Live b ↔ t.Live b ∧ some a ≠ some b := by
      intro b
      by_cases hba : b = a
      · subst hba
        simp only [Live, hself, ne_eq, not_true_eq_false, and_false, iff_false]
        rintro ⟨hlive, hnot⟩
        exact hstatus.elim hlive fun h => hnot h.2
      · have hnot : Frame.exiting b ∉ fs := fun hmem => by
          rcases hfs _ hmem with h | h
          · cases h
          · exact hba (Frame.exiting.inj h)
        simp [Live, hother b hba, hstack, hnot, Ne.symm hba]
    refine ⟨?_, hnext, fun b hb => Option.mem_some_iff.mp hb ▸ ha,
      fun b hb => (Option.not_mem_none b hb).elim, fun b _ => ?_, fun b _ => hlive b,
      fun state => by simp [hrefs state], fun b hb _ => .inr (by rwa [hadding, haffects]),
      fun k b hk hb => ⟨((hlive b).mp hb).1, .inl ⟨k, le_rfl, haffects ▸ hk⟩⟩,
      fun i hi => .inl (hstack ▸ List.mem_append_right _ hi)⟩
    · refine h.update ha ?_ hnext hheap (fun b hb => List.mem_append_right _ (haffects ▸ hb))
        (fun b hb => List.mem_append_left _ (hadding ▸ hb)) fun f hf b hb => ?_
      · rcases hstatus with h' | ⟨h', -⟩
        · simp [h']
        · rw [h']
          exact h.started a ha
      · rw [hstack] at hf
        rcases List.mem_append.mp hf with hf | hf
        · rcases hfs f hf with rfl | rfl
          · cases hb
          · rwa [List.mem_singleton.mp hb]
        · exact h.pending f hf b hb
    · by_cases hba : b = a
      · rw [hba, hself, hcontrol]
      · rw [hother b hba]
  rcases onExit_cases t a with ⟨mask, hc, heq⟩ | ⟨hc, heq⟩ | ⟨hc, fs, hfs, heq⟩
  · rw [heq]
    refine hmove _ rfl rfl ⟨[], rfl, by simp⟩ ⟨_, rfl, rfl, .inl rfl⟩ fun state => ?_
    by_cases hn : Names mask state <;> simp [Affect.counts, hc, hn, sub_eq_add_neg]
  · rw [heq]
    exact hmove _ rfl rfl ⟨[.call, .exiting a], rfl, by simp⟩
      ⟨_, rfl, rfl, .inr ⟨rfl, by simp⟩⟩ fun state => by simp [Affect.counts_of_none hc]
  · rw [heq]
    exact hmove _ rfl rfl ⟨fs, rfl, fun f hf => .inl (List.mem_singleton.mp (hfs hf))⟩
      ⟨_, rfl, rfl, .inl rfl⟩ fun state => by simp [Affect.counts_of_none hc]

theorem Moves.swap (h : t.Sound) {f : Frame} {rest : List Frame} (st : List Frame)
    (hstack : t.stack = f :: rest) (hadding : st.flatMap Frame.adding = f.adding)
    (hf : f.isExiting = false) (hst : ∀ g ∈ st, g.pending = [] ∧ g.isExiting = false)
    (hclear : f.isClear = false) : Moves t { t with stack := st ++ rest } none none none [] := by
  refine .restack _ hstack (fun a ha => hadding ▸ ha) hf (fun g hg => (hst g hg).2) hclear
    (.still (h.reframe (fun _ => id) (fun b hb => ?_) fun g hg => ?_) (fun _ => ⟨rfl, rfl⟩) rfl rfl
      rfl (fun _ => id) (fun _ => Iff.rfl) fun _ => id)
  · simpa [adding, hstack, List.flatMap_append, hadding] using hb
  · rcases List.mem_append.mp hg with hg | hg
    · exact .inr (hst g hg).1
    · exact .inl (hstack ▸ List.mem_cons_of_mem _ hg)

theorem Moves.push (h : t.Sound) (st : List Frame) (hst : ∀ f ∈ st, f.adding = [] ∧
    (∀ a ∈ f.pending, a < t.next) ∧ f.isExiting = false) :
    Moves t (t.push st) none none none [] := by
  have hnot : ∀ a, Frame.exiting a ∉ st := fun a hmem => by
    simpa [Frame.isExiting] using (hst _ hmem).2.2
  have hnil : st.flatMap Frame.adding = [] := List.flatMap_eq_nil_iff.mpr fun f hf => (hst f hf).1
  have hsame : (t.push st).adding = t.adding := by
    simp [adding, AffectTable.push, List.flatMap_append, hnil]
  refine .still ⟨h.fresh, hsame ▸ h.below, h.started, fun g hg => ?_⟩ (fun _ => ⟨rfl, rfl⟩)
    rfl rfl rfl
    (fun a ha => hsame ▸ ha) (fun a => ?_) fun i hi => List.mem_append_right _ hi
  · rcases List.mem_append.mp hg with hg | hg
    · exact (hst g hg).2.1
    · exact h.pending g hg
  · simp [AffectTable.push, hnot a]

theorem Moves.push_call (h : t.Sound) : Moves t (t.push [.call]) none none none [] :=
  .push h [.call] (by simp [Frame.adding, Frame.pending, Frame.isExiting])

/-- A frame that goes on with an `onExit`, above others that add the same. -/
theorem Moves.exits (h : t.Sound) {f : Frame} {rest : List Frame} (st : List Frame)
    (hstack : t.stack = f :: rest) (hadding : st.flatMap Frame.adding = f.adding)
    (hf : f.isExiting = false) (hst : ∀ g ∈ st, g.pending = [] ∧ g.isExiting = false)
    (hclear : f.isClear = false) (ha : a < t.next) :
    Moves t (({ t with stack := st ++ rest } : AffectTable).onExit a) (some a) none none [] :=
  .restack _ hstack (fun _ hb => hadding ▸ hb) hf (fun g hg => (hst g hg).2) hclear
    (.onExit (Moves.swap h st hstack hadding hf hst hclear).sound ha)

theorem onExit_stack (t : AffectTable) (a : ℕ) {f : Frame} (hf : f ∈ t.stack) :
    f ∈ (t.onExit a).stack := by
  rcases onExit_cases t a with ⟨mask, -, heq⟩ | ⟨-, heq⟩ | ⟨-, fs, -, heq⟩
  · simpa [heq] using hf
  · simp [heq, hf]
  · simp [heq, hf]

theorem Moves.erase (h : t.Sound) (i : ℕ) :
    Moves t { t with affects := t.affects.eraseIdx i } none none none t.affects[i]?.toList where
  sound := h.reframe (fun b hb => List.mem_of_mem_eraseIdx hb) (fun _ => id) fun _ hf => .inl hf
  next := rfl
  out_lt a ha := (Option.not_mem_none a ha).elim
  entered a ha := (Option.not_mem_none a ha).elim
  control a _ := rfl
  live a _ := by simp [Live]
  refs state := by simp
  members a ha _ := by
    rcases List.mem_append.mp ha with ha | ha
    · exact .inr (List.mem_append_left _ ha)
    · obtain ⟨k, hk⟩ := List.mem_iff_getElem?.mp ha
      by_cases hki : k = i
      · subst hki
        exact .inl (by simp [hk])
      · exact .inr (List.mem_append_right _ (List.mem_eraseIdx_iff_getElem?.mpr ⟨k, hki, hk⟩))
  listed k a hk hlive := by
    refine ⟨hlive, .inl ?_⟩
    rw [List.getElem?_eraseIdx] at hk
    split_ifs at hk
    · exact ⟨k, le_rfl, hk⟩
    · exact ⟨k + 1, by omega, hk⟩
  clears i hi := .inl hi

theorem Moves.keep {out new ins : Option ℕ} {gone : List ℕ} (h : Moves t t' out new ins gone)
    (hgone : ∀ a ∈ gone, ¬ t.Live a) : Moves t t' out new ins [] :=
  { h with
    members := fun a ha ha' =>
      Or.inr ((h.members a ha ha').resolve_left fun hmem => hgone a hmem ha') }

theorem Moves.finish (h : t.Sound) {rest : List Frame}
    (hstack : t.stack = .sweep (.replaceAdd a) 0 :: rest) :
    Moves t (({ t with stack := rest } : AffectTable).finish (.replaceAdd a)) none none
      (some a) [] := by
  have ha : a < t.next := h.below a (by simp [adding, hstack, Frame.adding, Removal.adding])
  have hsame : ∀ b, (Function.update t.heap a { t.heap a with listed := true } b).control =
      (t.heap b).control ∧
      (Function.update t.heap a { t.heap a with listed := true } b).status = (t.heap b).status := by
    intro b
    by_cases hba : b = a
    · subst hba
      simp
    · simp [hba]
  have hlive : ∀ b, (({ t with stack := rest } : AffectTable).finish (.replaceAdd a)).Live b ↔
      t.Live b := fun b => by
    simp [Live, AffectTable.finish, put, (hsame b).2, hstack]
  exact
    { sound := by
        have hstatus : ({ t.heap a with listed := true } : Affect).status ≠ .enter := h.started a ha
        refine h.update ha hstatus rfl rfl (fun b hb => ?_) (fun b hb => ?_) fun f hf => ?_
        · simp only [adding, hstack, List.flatMap_cons, Frame.adding, Removal.adding]
          simp only [AffectTable.finish, List.mem_append, List.mem_singleton] at hb
          simp only [List.mem_append, List.mem_singleton]
          tauto
        · refine List.mem_append_left _ ?_
          simp only [adding, hstack, List.flatMap_cons]
          exact List.mem_append_right _ hb
        · exact h.pending f (hstack ▸ List.mem_cons_of_mem _ hf)
      next := rfl
      out_lt := fun b hb => (Option.not_mem_none b hb).elim
      entered := fun b hb => (Option.not_mem_none b hb).elim
      control := fun b _ => (hsame b).1
      live := fun b _ => by simp [hlive b]
      refs := fun state => by simp [AffectTable.finish, put]
      members := fun b hb _ => by
        simp only [adding, hstack, List.flatMap_cons, Frame.adding, Removal.adding, List.mem_append,
          List.mem_singleton] at hb
        simp only [adding, AffectTable.finish, put, List.mem_append, List.mem_singleton]
        tauto
      listed := fun k b hk hb => by
        refine ⟨(hlive b).mp hb, ?_⟩
        simp only [AffectTable.finish] at hk
        rw [List.getElem?_append] at hk
        split_ifs at hk with hlt
        · exact .inl ⟨k, le_rfl, hk⟩
        · rw [List.getElem?_singleton] at hk
          split_ifs at hk
          exact .inr hk
      clears := fun i hi => .inl (by simpa [hstack, AffectTable.finish, put] using hi) }

theorem Moves.congr {t₁ : AffectTable} {out new ins : Option ℕ} {gone : List ℕ}
    (hheap : ∀ a, (t₁.heap a).control = (t.heap a).control ∧
      (t₁.heap a).status = (t.heap a).status) (hnext : t₁.next = t.next)
    (haffects : t₁.affects = t.affects) (hstack : t₁.stack = t.stack)
    (hrefs : t₁.affectStateRefs = t.affectStateRefs) (h : Moves t₁ t' out new ins gone) :
    Moves t t' out new ins gone := by
  have hlive : ∀ a, t₁.Live a ↔ t.Live a := fun a => by
    rw [Live, Live, (hheap a).2, hstack]
  exact
    { sound := h.sound
      next := hnext ▸ h.next
      out_lt := hnext ▸ h.out_lt
      entered := hnext ▸ h.entered
      control := fun a ha => (h.control a (hnext ▸ ha)).trans (hheap a).1
      live := fun a ha => (h.live a (hnext ▸ ha)).trans (and_congr_left fun _ => hlive a)
      refs := fun state => by
        have hcounts : ∀ a, (t₁.heap a).counts state = (t.heap a).counts state := fun a => by
          rw [Affect.counts, Affect.counts, (hheap a).1]
        have hstate := h.refs state
        simp only [hcounts, hrefs] at hstate
        exact hstate
      members := fun a ha ha' =>
        h.members a (by simpa only [adding, hstack, haffects] using ha) ((hlive a).mpr ha')
      listed := fun k a hk hb => by
        obtain ⟨hold, hfrom⟩ := h.listed k a hk hb
        exact ⟨(hlive a).mp hold, haffects ▸ hfrom⟩
      clears := fun i hi => by
        have hclears := h.clears i (hstack ▸ hi)
        simp only [Clears, haffects] at hclears
        exact hclears }

theorem setClock_heap (t : AffectTable) (a : ℕ) (clock : Clock) (b : ℕ) :
    ((t.setClock a clock).heap b).control = (t.heap b).control ∧
      ((t.setClock a clock).heap b).status = (t.heap b).status := by
  by_cases hba : b = a
  · subst hba
    simp [AffectTable.setClock, put]
  · simp [AffectTable.setClock, put, hba]

theorem Sound.setClock (h : t.Sound) (ha : a < t.next) (clock : Clock) :
    (t.setClock a clock).Sound := by
  have hstatus : ({ t.heap a with clock } : Affect).status ≠ .enter := h.started a ha
  exact h.update ha hstatus rfl rfl (fun _ hb => List.mem_append_right _ hb)
    (fun _ hb => List.mem_append_left _ hb) h.pending

theorem Moves.setClock (h : t.Sound) (ha : a < t.next) (clock : Clock) :
    Moves t (t.setClock a clock) none none none [] :=
  .still (h.setClock ha clock) (setClock_heap t a clock) rfl rfl rfl (fun _ => id)
    (fun _ => Iff.rfl) fun _ => id

theorem Moves.onExec (h : t.Sound) (ha : a < t.next) (dt : ℚ) :
    Moves t (t.onExec a dt) (if (t.heap a).cls ≠ .getbloodAffect ∧
      (t.heap a).cls.expired ((t.heap a).elapse dt) then some a else none) none none [] := by
  have hclock : ∀ {t' : AffectTable} {out : Option ℕ} (clock : Clock),
      Moves (t.setClock a clock) t' out none none [] → Moves t t' out none none [] :=
    fun clock => .congr (setClock_heap t a clock) rfl rfl rfl rfl
  have hsound := h.setClock ha
  simp only [AffectTable.onExec]
  by_cases hcls : (t.heap a).cls = .getbloodAffect
  · simp only [hcls, if_true, ne_eq, not_true_eq_false, false_and, if_false]
    refine hclock _ (.push (hsound _) [.call, .onExec a] fun f hf => ?_)
    simp only [List.mem_cons, List.not_mem_nil, or_false] at hf
    rcases hf with rfl | rfl
    · simp [Frame.adding, Frame.pending, Frame.isExiting]
    · exact ⟨rfl, fun b hb => List.mem_singleton.mp hb ▸ ha, rfl⟩
  · by_cases hexp : (t.heap a).cls.expired ((t.heap a).elapse dt)
    · simp only [hcls, hexp, if_true, if_false, ne_eq, not_false_eq_true, and_self]
      exact hclock _ (.onExit (hsound _) ha)
    · simp only [hcls, hexp, if_false, and_false]
      split_ifs
      · exact hclock _ (.push_call (hsound _))
      · exact .setClock h ha _
      · exact .setClock h ha _

/-- A new affect enters, and waits to be inserted. -/
theorem Moves.enter (h : t.Sound) {aff : Affect} (hstatus : aff.status = .exec) {f g : Frame}
    {rest fs : List Frame} (hstack : t.stack = f :: rest) (hf : f.adding = [])
    (hexiting : f.isExiting = false) (hclear : f.isClear = false)
    (hg : g.adding = [] ∧ g.pending = [] ∧ g.isExiting = false)
    (hfs : ∀ f ∈ fs, f = .call ∨ f = .exit t.next) (haffects : t'.affects = t.affects)
    (hnext : t'.next = t.next + 1) (hheap : t'.heap = Function.update t.heap t.next aff)
    (hrefs : ∀ state, t'.affectStateRefs state = t.affectStateRefs state + aff.counts state)
    (ht' : t'.stack = fs ++ .addAffect t.next :: g :: rest) :
    Moves t t' none (some t.next) none [] := by
  obtain ⟨hgadding, hgpending, hgexiting⟩ := hg
  have hself : t'.heap t.next = aff := by rw [hheap, Function.update_self]
  have hother : ∀ b, b ≠ t.next → t'.heap b = t.heap b := fun b hb => by
    rw [hheap, Function.update_of_ne hb]
  have hnil : fs.flatMap Frame.adding = [] := List.flatMap_eq_nil_iff.mpr fun f hf => by
    rcases hfs f hf with rfl | rfl <;> rfl
  have hadding : t'.adding = t.next :: t.adding := by
    have hnew : (Frame.addAffect t.next).adding = [t.next] := rfl
    simp [adding, ht', hstack, List.flatMap_append, hnil, hf, hgadding, hnew]
  have hexit : ∀ b, Frame.exiting b ∈ t'.stack ↔ Frame.exiting b ∈ t.stack := by
    intro b
    have hnot : Frame.exiting b ∉ fs := fun hmem => by
      rcases hfs _ hmem with h | h <;> cases h
    have hne : ∀ f : Frame, f.isExiting = false → Frame.exiting b ≠ f := fun f h e => by
      rw [← e] at h
      cases h
    simp [ht', hstack, hnot, hne f hexiting, hne g hgexiting]
  have hlive : ∀ b, b ≠ t.next → (t'.Live b ↔ t.Live b) := fun b hb => by
    simp only [Live, hother b hb, hexit b]
  have hfree : Frame.exiting t.next ∉ t.stack := fun hmem =>
    lt_irrefl _ (h.pending _ hmem _ (List.mem_singleton_self _))
  exact
    { sound := by
        refine ⟨fun b hb => ?_, fun b hb => ?_, fun b hb => ?_, fun f' hf' b hb => ?_⟩
        · rw [hother b (by omega)]
          exact h.fresh b (by omega)
        · rw [hadding, haffects, List.cons_append] at hb
          rcases List.mem_cons.mp hb with rfl | hb
          · omega
          · have hlt := h.below b hb
            omega
        · by_cases hb' : b = t.next
          · rw [hb', hself, hstatus]
            decide
          · rw [hother b hb']
            exact h.started b (by omega)
        · rw [hnext]
          rw [ht'] at hf'
          simp only [List.mem_append, List.mem_cons] at hf'
          rcases hf' with hf' | rfl | rfl | hf'
          · rcases hfs f' hf' with rfl | rfl
            · cases hb
            · rw [List.mem_singleton.mp hb]
              omega
          · cases hb
          · rw [hgpending] at hb
            cases hb
          · have hlt := h.pending f' (hstack ▸ List.mem_cons_of_mem _ hf') b hb
            omega
      next := hnext
      out_lt := fun a ha => (Option.not_mem_none a ha).elim
      entered := fun a ha => by
        obtain rfl := Option.mem_some_iff.mp ha
        refine ⟨rfl, by simp [hadding], ?_, ?_⟩
        · rw [hself, hstatus]
          decide
        · rwa [hexit]
      control := fun a ha => by rw [hother a ha.ne]
      live := fun a ha => by simp [hlive a ha.ne]
      refs := fun state => by simp [hrefs state, hself]
      members := fun a ha _ => by
        rw [hadding, haffects]
        exact .inr (List.mem_cons_of_mem _ ha)
      listed := fun k a hk hb => by
        rw [haffects] at hk
        have hlt := h.lt_of_mem (List.mem_of_getElem? hk)
        exact ⟨(hlive a hlt.ne).mp hb, .inl ⟨k, le_rfl, hk⟩⟩
      clears := fun i hi => by
        have hmem : Frame.clear i ∈ rest := by
          rw [hstack] at hi
          refine (List.mem_cons.mp hi).resolve_left fun e => ?_
          rw [← e] at hclear
          cases hclear
        refine .inl ?_
        rw [ht']
        exact List.mem_append_right _ (List.mem_cons_of_mem _ (List.mem_cons_of_mem _ hmem)) }

theorem moves_addAffect (h : t.Sound) {source : Option ℕ} {d : Data} {datas : List Data}
    {skillId : ℤ} {projectids : List ℕ} {rest : List Frame} {birth : Birth}
    (hstack : t.stack = .buildAffects source (d :: datas) skillId projectids :: rest)
    (heq : ({ t with stack := rest } : AffectTable).addAffect source d datas skillId projectids
      birth = .ok t') :
    Moves t t' none ((t.enters birth (.buildAffects source (d :: datas) skillId projectids)).map
      Prod.fst) none [] := by
  have hgo : ∀ st : List Frame, st.flatMap Frame.adding = [] →
      (∀ g ∈ st, g.pending = [] ∧ g.isExiting = false) →
      Moves t { t with stack := st ++ rest } none none none [] := fun st hadding hst =>
    .swap h st hstack hadding rfl hst rfl
  simp only [AffectTable.addAffect] at heq
  cases hcls : d.kind.cls with
  | none =>
      have henters : t.enters birth (.buildAffects source (d :: datas) skillId projectids) =
          none := by
        simp [enters, hcls]
      rw [henters]
      simp only [hcls] at heq
      split_ifs at heq
      · cases source with
        | none => simp at heq
        | some src =>
            simp only [Except.ok.injEq] at heq
            exact heq ▸ hgo [.call, .buildAffects (some src) datas skillId projectids] rfl
              (by simp [Frame.pending, Frame.isExiting])
      · simp only [Except.ok.injEq] at heq
        exact heq ▸ hgo [.buildAffects source datas skillId projectids] rfl
          (by simp [Frame.pending, Frame.isExiting])
  | some c =>
      simp only [hcls] at heq
      cases hnew : Affect.new t.owner source d c skillId birth with
      | none => simp [hnew] at heq
      | some aff =>
          have henters : t.enters birth (.buildAffects source (d :: datas) skillId projectids) =
              some (t.next, d) := by
            simp [enters, hcls, hnew]
          rw [henters]
          simp only [hnew, Except.ok.injEq] at heq
          obtain ⟨fs, hon, -, hfs⟩ := onEnter_eq (({ t with
              next := t.next + 1
              stack := [.addAffect t.next, .buildAffects source datas skillId
                (projectids ++ [aff.projectId])] ++ rest } : AffectTable).put t.next aff)
              t.next birth.ownerDead
          have ht' := heq.symm.trans hon
          have hexec : ({ aff with status := .exec, entered := aff.entered + 1 } : Affect).status =
              .exec := rfl
          have hframe : (Frame.buildAffects source datas skillId
              (projectids ++ [aff.projectId])).adding = [] ∧ (Frame.buildAffects source datas
              skillId (projectids ++ [aff.projectId])).pending = [] ∧ (Frame.buildAffects source
              datas skillId (projectids ++ [aff.projectId])).isExiting = false := ⟨rfl, rfl, rfl⟩
          refine Moves.enter h hexec hstack rfl rfl rfl hframe
            (by simpa [put] using hfs) ?_ ?_ ?_ ?_ ?_
          · rw [ht']
            rfl
          · rw [ht']
            rfl
          · rw [ht']
            simp [put]
          · intro state
            rw [ht']
            simp [put, Affect.counts]
          · rw [ht']
            rfl

/-- One more affect exits in `clear`. -/
theorem Moves.clear (h : t.Sound) {i : ℕ} {rest : List Frame}
    (hstack : t.stack = .clear (i + 1) :: rest) (hb : t.affects[i]? = some b) :
    Moves t (({ t with stack := .clear i :: rest } : AffectTable).onExit b) (some b) none
      none [] := by
  have hblt := h.lt_of_mem (List.mem_of_getElem? hb)
  have hsound : ({ t with stack := .clear i :: rest } : AffectTable).Sound := by
    refine h.reframe (fun _ => id) (fun c hc => ?_) fun f hf => ?_
    · simpa [adding, hstack, Frame.adding] using hc
    · rcases List.mem_cons.mp hf with rfl | hf
      · exact .inr rfl
      · exact .inl (hstack ▸ List.mem_cons_of_mem _ hf)
  have hmove := Moves.onExit hsound hblt
  have hlive : ∀ a, ({ t with stack := .clear i :: rest } : AffectTable).Live a ↔ t.Live a :=
    fun a => by simp [Live, hstack]
  have hgone : ¬ (({ t with stack := .clear i :: rest } : AffectTable).onExit b).Live b :=
    fun hb' => ((hmove.live b hblt).mp hb').2 rfl
  refine ⟨hmove.sound, hmove.next, hmove.out_lt, hmove.entered, hmove.control,
    fun a ha => (hmove.live a ha).trans (and_congr_left fun _ => hlive a), hmove.refs,
    fun a ha ha' => hmove.members a ?_ ((hlive a).mpr ha'),
    fun k a hk ha => (hmove.listed k a hk ha).imp_left (hlive a).mp,
    fun j hj => ?_⟩
  · simpa [adding, hstack, Frame.adding] using ha
  · rw [hstack] at hj
    rcases List.mem_cons.mp hj with hj | hj
    · obtain rfl := Frame.clear.inj hj
      refine .inr (.inr ⟨i, rfl, ?_, fun a ha => ?_⟩)
      · exact onExit_stack _ _ List.mem_cons_self
      · obtain rfl := Option.some.inj (ha.symm.trans hb)
        exact hgone
    · exact .inl (onExit_stack _ _ (List.mem_cons_of_mem _ hj))

/-- The table is empty at the end of `clear`. -/
theorem Moves.clear_done (h : t.Sound) {rest : List Frame} (hstack : t.stack = .clear 0 :: rest) :
    Moves t { t with affects := [], stack := rest } none none none t.affects where
  sound := by
    refine h.reframe (by simp) (fun c hc => ?_) fun f hf => ?_
    · simpa [adding, hstack, Frame.adding] using hc
    · exact .inl (hstack ▸ List.mem_cons_of_mem _ hf)
  next := rfl
  out_lt a ha := (Option.not_mem_none a ha).elim
  entered a ha := (Option.not_mem_none a ha).elim
  control a _ := rfl
  live a _ := by simp [Live, hstack]
  refs state := by simp
  members a ha _ := by
    rcases List.mem_append.mp ha with ha | ha
    · refine .inr (List.mem_append_left _ ?_)
      simpa [adding, hstack, Frame.adding] using ha
    · exact .inl ha
  listed k a hk := by cases hk
  clears i hi := .inr (.inl rfl)

/-- The end of an `onExit`. -/
theorem Moves.exiting_done (h : t.Sound) {rest : List Frame}
    (hstack : t.stack = .exiting a :: rest) :
    Moves t (({ t with stack := rest } : AffectTable).setStatus a .exit) none none none [] := by
  have ha : a < t.next :=
    h.pending (.exiting a) (hstack ▸ List.mem_cons_self) a (List.mem_singleton_self a)
  have hself : (({ t with stack := rest } : AffectTable).setStatus a .exit).heap a =
      { t.heap a with status := .exit } := by simp [setStatus, put]
  have hother : ∀ b, b ≠ a →
      (({ t with stack := rest } : AffectTable).setStatus a .exit).heap b = t.heap b :=
      fun b hb => by
    simp [setStatus, put, hb]
  have hlive : ∀ b, (({ t with stack := rest } : AffectTable).setStatus a .exit).Live b ↔
      t.Live b := by
    intro b
    by_cases hba : b = a
    · subst hba
      simp [Live, hself, hstack]
    · simp only [Live, hother b hba, hstack, List.mem_cons, Frame.exiting.injEq, hba, false_or]
      rfl
  have hsound : (({ t with stack := rest } : AffectTable).setStatus a .exit).Sound := by
    have hstatus : ({ t.heap a with status := .exit } : Affect).status ≠ .enter := by simp
    refine h.update ha hstatus rfl rfl (fun b hb => List.mem_append_right _ hb) (fun b hb => ?_)
      fun f hf => h.pending f (hstack ▸ List.mem_cons_of_mem _ hf)
    refine List.mem_append_left _ ?_
    change b ∈ rest.flatMap Frame.adding at hb
    simpa [adding, hstack, Frame.adding] using hb
  refine ⟨hsound, rfl, fun b hb => (Option.not_mem_none b hb).elim,
    fun b hb => (Option.not_mem_none b hb).elim, fun b _ => ?_, fun b _ => by simp [hlive b],
    fun state => by simp [setStatus, put], fun b hb _ => .inr ?_,
    fun k b hk hb => ⟨(hlive b).mp hb, .inl ⟨k, le_rfl, hk⟩⟩, fun i hi => .inl ?_⟩
  · by_cases hba : b = a
    · rw [hba, hself]
    · rw [hother b hba]
  · simpa [adding, hstack, Frame.adding, setStatus, put] using hb
  · rw [hstack] at hi
    exact (List.mem_cons.mp hi).resolve_left (by simp)

theorem inserts_sweep_succ (why : Removal) (i : ℕ) : inserts (.sweep why (i + 1)) = none := by
  cases why <;> rfl

theorem moves_go (h : t.Sound) {f : Frame} {rest : List Frame} {birth : Birth}
    (hstack : t.stack = f :: rest)
    (hok : ({ t with stack := rest } : AffectTable).resume birth f = .ok t') :
    Moves t t' (t.exits f) ((t.enters birth f).map Prod.fst) (inserts f) (t.drops f) := by
  have hpending : ∀ a ∈ f.pending, a < t.next := h.pending f (hstack ▸ List.mem_cons_self)
  cases advances_of_resume hok with
  | built source skillId projectids =>
      have hmove := Moves.swap h [] hstack rfl rfl (by simp) rfl
      exact .still (hmove.sound.reframe (fun _ => id) (fun _ => id) fun _ hf => .inl hf)
        (fun _ => ⟨rfl, rfl⟩) rfl rfl rfl
        (fun a ha => by simpa [adding, hstack, Frame.adding] using ha)
        (fun a => by simp [hstack]) fun i hi => by simpa [hstack] using hi
  | build source d datas skillId projectids t' hadd => exact moves_addAffect h hstack hadd
  | addAffect a =>
      exact .swap h [.sweep (.replaceAdd a) t.affects.length] hstack rfl rfl
        (by simp [Frame.pending, Frame.isExiting]) rfl
  | swept why =>
      cases why with
      | replaceAdd a => exact .finish h hstack
      | removeById id => exact .swap h [] hstack rfl rfl (by simp) rfl
      | removeBySkillId skillId => exact .swap h [] hstack rfl rfl (by simp) rfl
  | selected why i b hb hsel =>
      have hout : t.exits (.sweep why (i + 1)) = some b := Option.filter_eq_some_iff.mpr ⟨hb, hsel⟩
      rw [inserts_sweep_succ, hout]
      exact .exits h [.remove why i] hstack (by simp [Frame.adding]) rfl
        (by simp [Frame.pending, Frame.isExiting]) rfl (h.lt_of_mem (List.mem_of_getElem? hb))
  | skipped why i b hb hsel =>
      have hout : t.exits (.sweep why (i + 1)) = none := by
        have hb : t.affects[i]? = some b := hb
        have hsel : ¬ t.selects why b := hsel
        simp [AffectTable.exits, hb, hsel]
      rw [inserts_sweep_succ, hout]
      exact .swap h [.sweep why i] hstack (by simp [Frame.adding]) rfl
        (by simp [Frame.pending, Frame.isExiting]) rfl
  | removed why i =>
      have hmove := Moves.swap h [.sweep why i] hstack (by simp [Frame.adding]) rfl
        (by simp [Frame.pending, Frame.isExiting]) rfl
      exact .restack [.sweep why i] hstack (by simp [Frame.adding]) rfl
        (by simp [Frame.isExiting]) rfl (.erase hmove.sound i)
  | cleared => exact .clear_done h hstack
  | clear i b hb =>
      have hb : t.affects[i]? = some b := hb
      have hout : t.exits (.clear (i + 1)) = some b := hb
      rw [hout]
      exact .clear h hstack hb
  | enter dt i b hb hs => exact absurd hs (h.started b (h.lt_of_mem (List.mem_of_getElem? hb)))
  | exec dt i b hb hs =>
      have hb : t.affects[i]? = some b := hb
      have hs : (t.heap b).status = .exec := hs
      have hsound := (Moves.swap h [.update dt i] hstack rfl rfl
        (by simp [Frame.pending, Frame.isExiting]) rfl).sound
      have hout : t.exits (.update dt (i + 1)) = if (t.heap b).cls ≠ .getbloodAffect ∧
          (t.heap b).cls.expired ((t.heap b).elapse dt) then some b else none := by
        simp [AffectTable.exits, hb, Option.filter, hs]
      have henters : t.enters birth (.update dt (i + 1)) = none := by
        simp [enters, hb, Option.filter, hs]
      rw [hout, henters]
      exact .restack [.update dt i] hstack (by simp [Frame.adding]) rfl
        (by simp [Frame.isExiting]) rfl
        (.onExec hsound (h.lt_of_mem (List.mem_of_getElem? hb)) dt)
  | gone dt i b hb hs =>
      have hb : t.affects[i]? = some b := hb
      have hs : (t.heap b).status = .exit := hs
      have hsound := (Moves.swap h [.update dt i] hstack rfl rfl
        (by simp [Frame.pending, Frame.isExiting]) rfl).sound
      have hout : t.exits (.update dt (i + 1)) = none := by
        simp [AffectTable.exits, hb, Option.filter, hs]
      have henters : t.enters birth (.update dt (i + 1)) = none := by
        simp [enters, hb, Option.filter, hs]
      rw [hout, henters]
      have hmove := Moves.restack _ hstack (by simp [Frame.adding]) rfl
        (by simp [Frame.isExiting]) rfl (.erase hsound i)
      refine hmove.keep fun a ha => ?_
      obtain rfl : a = b := by simpa [hb] using ha
      exact fun hlive => hlive.1 hs
  | expired a hexp =>
      have hout : t.exits (.onExec a) = some a := if_pos hexp
      rw [hout]
      exact .exits h [] hstack rfl rfl (by simp) rfl (hpending a (List.mem_singleton_self a))
  | lasts a hexp =>
      have hout : t.exits (.onExec a) = none := if_neg hexp
      rw [hout]
      exact .swap h [] hstack rfl rfl (by simp) rfl
  | exit a =>
      exact .exits h [] hstack rfl rfl (by simp) rfl (hpending a (List.mem_singleton_self a))
  | exiting a => exact .exiting_done h hstack
  | updated dt => exact .swap h [] hstack rfl rfl (by simp) rfl
  | call => exact .swap h [] hstack rfl rfl (by simp) rfl

theorem moves_invoke (h : t.Sound) {op : Op} (hstep : t.step (.invoke op) = some t') :
    Moves t t' none none none [] := by
  have ht : t' = t.push [op.frame t.affects.length] := by
    simp only [step] at hstep
    split at hstep
    · exact (Option.some.inj hstep).symm
    · exact (Option.some.inj hstep).symm
    · cases hstep
  have hframe : ∀ f ∈ [op.frame t.affects.length], f.adding = [] ∧
      (∀ a ∈ f.pending, a < t.next) ∧ f.isExiting = false := by
    cases op <;> simp [Op.frame, Frame.adding, Removal.adding, Frame.pending, Frame.isExiting]
  exact ht ▸ .push h _ hframe

theorem moves_ret (h : t.Sound) (hstep : t.step .ret = some t') :
    Moves t t' none none none [] := by
  simp only [step] at hstep
  split at hstep
  · next rest hstack =>
      obtain rfl := Option.some.inj hstep
      exact .swap h [] hstack rfl rfl (by simp) rfl
  · cases hstep

theorem abort_of_raise (hstep : t.step .raise = some t') : t' = t.abort := by
  simp only [step] at hstep
  split at hstep
  · exact (Option.some.inj hstep).symm
  · exact (Option.some.inj hstep).symm
  · cases hstep

/-- A step that exits an affect enters and inserts none. -/
theorem alone_of_exits {f : Frame} (birth : Birth) (h : t.exits f = some a) :
    t.enters birth f = none ∧ inserts f = none := by
  cases f with
  | sweep why i =>
      cases i with
      | zero => simp [exits] at h
      | succ i => cases why <;> exact ⟨rfl, rfl⟩
  | update dt i =>
      cases i with
      | zero => simp [exits] at h
      | succ i =>
          refine ⟨?_, rfl⟩
          simp only [exits, Option.filter_eq_some_iff, Bool.and_eq_true, decide_eq_true_eq] at h
          obtain ⟨ha, ⟨hexec, -⟩, -⟩ := h
          simp [enters, ha, Option.filter, hexec]
  | clear | onExec | exit => exact ⟨rfl, rfl⟩
  | buildAffects | addAffect | remove | exiting | call => simp [exits] at h

theorem none_of_error {f : Frame} {rest : List Frame} {birth : Birth} {e : String}
    (h : ({ t with stack := rest } : AffectTable).resume birth f = .error e) :
    t.exits f = none ∧ t.enters birth f = none := by
  cases f with
  | buildAffects source datas skillId projectids =>
      cases datas with
      | nil => simp [AffectTable.resume] at h
      | cons d datas =>
          refine ⟨rfl, ?_⟩
          simp only [AffectTable.resume, AffectTable.addAffect] at h
          cases hcls : d.kind.cls with
          | none => simp [enters, hcls]
          | some c =>
              cases hnew : Affect.new t.owner source d c skillId birth with
              | none => simp [enters, hcls, hnew]
              | some aff => simp [hcls, hnew] at h
  | sweep why i =>
      cases i with
      | zero => simp [AffectTable.resume] at h
      | succ i =>
          refine ⟨?_, rfl⟩
          cases hb : t.affects[i]? with
          | none => simp [exits, hb]
          | some b =>
              simp only [AffectTable.resume, hb] at h
              split at h <;> simp at h
  | clear i =>
      cases i with
      | zero => simp [AffectTable.resume] at h
      | succ i =>
          refine ⟨?_, rfl⟩
          cases hb : t.affects[i]? with
          | none => simp [exits, hb]
          | some b => simp [AffectTable.resume, hb] at h
  | update dt i =>
      cases i with
      | zero => simp [AffectTable.resume] at h
      | succ i =>
          cases hb : t.affects[i]? with
          | none => simp [exits, enters, hb]
          | some b =>
              simp only [AffectTable.resume, hb, push] at h
              cases hs : (t.heap b).status <;> simp [hs] at h
  | onExec a =>
      simp only [AffectTable.resume] at h
      split at h <;> simp at h
  | remove why i => exact ⟨rfl, rfl⟩
  | addAffect | exit | exiting | call => simp [AffectTable.resume] at h

/-! ## What the affects that stand come to -/

/-- What the affects that have not begun to exit weigh together. -/
def total {M : Type*} [AddCommMonoid M] (t : AffectTable) (weight : ℕ → M) : M :=
  ∑ a ∈ Finset.range t.next, if t.Live a then weight a else 0

theorem Moves.total {M : Type*} [AddCommGroup M] {out new ins : Option ℕ} {gone : List ℕ}
    (h : Moves t t' out new ins gone) {w v : ℕ → M} (hsame : ∀ a < t.next, v a = w a)
    (hout : ∀ a ∈ out, t.Live a ∨ w a = 0) :
    t'.total v = t.total w + new.elim 0 v - out.elim 0 w := by
  have hold : ∀ a ∈ Finset.range t.next, (if t'.Live a then v a else 0) =
      (if t.Live a then w a else 0) - if out = some a then w a else 0 := by
    intro a ha
    have hlt := Finset.mem_range.mp ha
    rw [hsame a hlt]
    simp only [h.live a hlt]
    by_cases hmem : out = some a
    · rcases hout a hmem with hlive | hzero
      · simp [hmem, hlive]
      · simp [hmem, hzero]
    · simp [hmem]
  have hgone : (∑ a ∈ Finset.range t.next, if out = some a then w a else 0) = out.elim 0 w := by
    cases hcase : out with
    | none => simp
    | some a =>
        have hlt := h.out_lt a hcase
        simp only [Option.some.injEq, Option.elim_some]
        rw [Finset.sum_ite_eq, if_pos (Finset.mem_range.mpr hlt)]
  have hsum : (∑ a ∈ Finset.range t.next, if t'.Live a then v a else 0) =
      t.total w - out.elim 0 w := by
    rw [Finset.sum_congr rfl hold, Finset.sum_sub_distrib, hgone]
    rfl
  cases hcase : new with
  | none =>
      have hnext : t'.next = t.next := by simpa [hcase] using h.next
      rw [AffectTable.total, hnext, hsum]
      simp
  | some a =>
      have hnext : t'.next = t.next + 1 := by simpa [hcase] using h.next
      obtain ⟨rfl, -, hlive⟩ := h.entered a hcase
      rw [AffectTable.total, hnext, Finset.sum_range_succ, hsum, if_pos hlive]
      simp only [Option.elim_some]
      abel

theorem Moves.abort (h : t.Sound) (hstack : ∀ f ∈ t.stack, ¬ f.isExiting ∧ ¬ f.isClear) :
    Moves t t.abort none none none t.adding := by
  have hlive : ∀ a, t.abort.Live a ↔ t.Live a := by
    intro a
    have hnot : Frame.exiting a ∉ t.stack := fun hmem => (hstack _ hmem).1 rfl
    simp [Live, AffectTable.abort, hnot]
  exact
    { sound := h.reframe (fun _ => id) (by simp) (by simp)
      next := rfl
      out_lt := fun a ha => (Option.not_mem_none a ha).elim
      entered := fun a ha => (Option.not_mem_none a ha).elim
      control := fun _ _ => rfl
      live := fun a _ => by simp [hlive a]
      refs := fun state => by simp [AffectTable.abort]
      members := fun a ha _ => (List.mem_append.mp ha).imp_right (List.mem_append_right _)
      listed := fun k a hk hb => ⟨(hlive a).mp hb, .inl ⟨k, le_rfl, hk⟩⟩
      clears := fun i hi => absurd rfl (hstack _ hi).2 }

/-- What has not begun to exit, `clear` will come to. -/
def Clearing (t : AffectTable) : Prop :=
  ∀ k a : ℕ, t.affects[k]? = some a → t.Live a → ∃ i > k, Frame.clear i ∈ t.stack

theorem Moves.clearing {out new ins : Option ℕ} {gone : List ℕ} (h : Moves t t' out new ins gone)
    (hclearing : t.Clearing) (hins : ∀ a ∈ ins, ¬ t.Live a) : t'.Clearing := by
  intro k a hk hlive
  obtain ⟨hold, ⟨k', hge, hk'⟩ | hnew⟩ := h.listed k a hk hlive
  · obtain ⟨i, hlt, hi⟩ := hclearing k' a hk' hold
    rcases h.clears i hi with hi | hnil | ⟨j, rfl, hj, hgone⟩
    · exact ⟨i, by omega, hi⟩
    · simp [hnil] at hk
    · rcases Nat.lt_succ_iff_lt_or_eq.mp hlt with hlt | rfl
      · exact ⟨j, by omega, hj⟩
      · exact absurd hlive (hgone a hk')
  · exact absurd hold (hins a hnew)

end AffectTable

theorem amount_shield (d : Data) (hpMax value : ℚ) :
    amount (d.onTrigger hpMax value) .Shield = 0 :=
  Double.amount_of_not_mem (upTo_fst (changes_shield d hpMax (some value)))

namespace Hero

variable {s s' : Hero} {a : ℕ}

/-! ## The condition -/

/-- The affect holds no state and has changed no stat. -/
def Weightless (s : Hero) (a : ℕ) : Prop := (s.table.heap a).control = none ∧ s.given a = []

instance (s : Hero) (a : ℕ) : Decidable (s.Weightless a) :=
  inferInstanceAs (Decidable (_ ∧ _))

/-- What the hook of a step adds to the middle stats. -/
def additions (s : Hero) (l : Affects.Label) (value : ℚ) : List (MidStat × ℚ) :=
  match l, s.table.stack with
  | .go b, f :: _ =>
    match s.table.exits f, s.table.enters b f with
    | some a, _ => scale (-1) ((s.table.heap a).data.onTrigger s.hpMax value)
    | none, some (_, d) => scale 1 (d.onTrigger s.hpMax value)
    | none, none => []
  | _, _ => []

/-- A step of the table, with what it must not do. `once`, `dropped`: an affect that weighs exits
once, and before it leaves the table. `inserted`: a fallen hero gets no affect that has not exited.
`even`: an affect takes what it gave. `exact`: no sum of a middle stat is rounded. `raised`: an
error meets no `onExit`, no `clear` and no affect that weighs and is not yet inserted. -/
structure Regular (s : Hero) (l : Affects.Label) (value : ℚ) : Prop where
  once : ∀ f ∈ s.table.stack.head?, ∀ a ∈ s.table.exits f, s.table.Live a ∨ s.Weightless a
  dropped : ∀ f ∈ s.table.stack.head?, ∀ a ∈ s.table.drops f, ¬ s.table.Live a ∨ s.Weightless a
  inserted : s.fallen → ∀ f ∈ s.table.stack.head?, ∀ a ∈ AffectTable.inserts f, ¬ s.table.Live a
  even : ∀ f ∈ s.table.stack.head?, ∀ a ∈ s.table.exits f,
    (s.table.heap a).data.onTrigger s.hpMax value = s.given a
  exact : Exact (s.additions l value) s.mid
  raised : s.table.fails l → (∀ f ∈ s.table.stack, ¬ f.isExiting ∧ ¬ f.isClear) ∧
    ∀ a ∈ s.table.adding, s.Weightless a

def OK (s : Hero) : Label → Prop
  | .table l value => s.Regular l value
  | .damage demage => 0 ≤ demage
  | _ => True

/-! ## The invariant -/

structure Invariant (s : Hero) : Prop where
  table : s.table.Sound
  refs : ∀ state, s.table.affectStateRefs state =
    s.table.total fun a => (s.table.heap a).counts state
  mid : ∀ stat, s.mid stat = stat.default + s.table.total fun a => amount (s.given a) stat
  kept : ∀ a < s.table.next, s.table.Live a → a ∈ s.table.adding ++ s.table.affects ∨ s.Weightless a
  shield : ∀ a < s.table.next, amount (s.given a) .Shield = 0
  clearing : s.fallen → s.table.Clearing

/-- No entered affect, no state and no change of a stat are left. -/
structure Cleared (s : Hero) : Prop where
  affects : ∀ a ∈ s.table.affects, (s.table.heap a).status = .exit
  affectStateRefs : ∀ state, s.table.affectStateRefs state = 0
  mid : ∀ stat, s.mid stat = stat.default

/-- What stands is in the table, where no call is under way, or weighs nothing. -/
theorem Invariant.total_eq_zero {M : Type*} [AddCommMonoid M] (h : Invariant s)
    (hidle : s.table.stack = []) (hgone : ∀ a ∈ s.table.affects, ¬ s.table.Live a) {weight : ℕ → M}
    (hweight : ∀ a, s.Weightless a → weight a = 0) : s.table.total weight = 0 := by
  refine Finset.sum_eq_zero fun a ha => ?_
  split_ifs with hlive
  · rcases h.kept a (Finset.mem_range.mp ha) hlive with hmem | hnil
    · have hlisted : a ∈ s.table.affects := by
        simpa [AffectTable.adding, hidle] using hmem
      exact absurd hlive (hgone a hlisted)
    · exact hweight a hnil
  · rfl

theorem Invariant.cleared (h : Invariant s) (hfallen : s.fallen) (hidle : s.table.stack = []) :
    Cleared s := by
  have hgone : ∀ a ∈ s.table.affects, ¬ s.table.Live a := by
    intro a ha hlive
    obtain ⟨k, hk⟩ := List.mem_iff_getElem?.mp ha
    obtain ⟨i, -, hi⟩ := h.clearing hfallen k a hk hlive
    simp [hidle] at hi
  refine ⟨fun a ha => ?_, fun state => ?_, fun stat => ?_⟩
  · by_contra hstatus
    exact hgone a ha ⟨hstatus, by simp [hidle]⟩
  · rw [h.refs state]
    exact h.total_eq_zero hidle hgone fun a hnil => Affect.counts_of_none hnil.1 state
  · rw [h.mid stat, h.total_eq_zero hidle hgone fun a hnil => by
      rw [hnil.2, Double.amount_nil], add_zero]

/-! ## Steps -/

theorem Invariant.moves (h : Invariant s) {out new ins : Option ℕ} {gone : List ℕ}
    (hmoves : s.table.Moves s'.table out new ins gone)
    (hout : ∀ a ∈ out, s.table.Live a ∨ s.Weightless a)
    (hgone : ∀ a ∈ gone, ¬ s.table.Live a ∨ s.Weightless a)
    (hins : s.fallen → ∀ a ∈ ins, ¬ s.table.Live a)
    (hgiven : ∀ a < s.table.next, s'.given a = s.given a)
    (hnew : ∀ a ∈ new, amount (s'.given a) .Shield = 0)
    (hmid : ∀ stat, s'.mid stat = s.mid stat + (new.elim 0 fun a => amount (s'.given a) stat) -
      out.elim 0 fun a => amount (s.given a) stat)
    (hfallen : s'.fallen = s.fallen) : Invariant s' := by
  have hold : ∀ a < s'.table.next, a < s.table.next ∨ a ∈ new := by
    intro a ha
    have hnext := hmoves.next
    cases hcase : new with
    | none =>
        simp only [hcase, Option.toList_none, List.length_nil] at hnext
        exact .inl (by omega)
    | some b =>
        obtain ⟨rfl, -⟩ := hmoves.entered b hcase
        simp only [hcase, Option.toList_some, List.length_singleton] at hnext
        by_cases hlt : a < s.table.next
        · exact .inl hlt
        · exact .inr (Option.mem_some_iff.mpr (by omega))
  have hweight : ∀ a < s.table.next, s.Weightless a → s'.Weightless a := fun a ha hnil =>
    ⟨(hmoves.control a ha).trans hnil.1, (hgiven a ha).trans hnil.2⟩
  refine ⟨hmoves.sound, fun state => ?_, fun stat => ?_, fun a ha hlive => ?_, fun a ha => ?_,
    fun hdead => ?_⟩
  · rw [hmoves.refs state, h.refs state]
    refine (hmoves.total (fun a ha => ?_) fun a ha => ?_).symm
    · rw [Affect.counts, Affect.counts, hmoves.control a ha]
    · exact (hout a ha).imp_right fun hnil => Affect.counts_of_none hnil.1 state
  · have htotal := hmoves.total (w := fun a => amount (s.given a) stat)
      (v := fun a => amount (s'.given a) stat) (fun a ha => by rw [hgiven a ha]) fun a ha =>
        (hout a ha).imp_right fun hnil => by rw [hnil.2, Double.amount_nil]
    rw [hmid stat, h.mid stat, htotal]
    ring
  · rcases hold a ha with hlt | hmem
    · have hstood := ((hmoves.live a hlt).mp hlive).1
      rcases h.kept a hlt hstood with hmem | hnil
      · rcases hmoves.members a hmem hstood with hdrop | hmem
        · exact .inr (hweight a hlt ((hgone a hdrop).resolve_left (not_not.mpr hstood)))
        · exact .inl hmem
      · exact .inr (hweight a hlt hnil)
    · exact .inl (hmoves.entered a hmem).2.1
  · rcases hold a ha with hlt | hmem
    · rw [hgiven a hlt]
      exact h.shield a hlt
    · exact hnew a hmem
  · rw [hfallen] at hdead
    exact hmoves.clearing (h.clearing hdead) (hins hdead)

theorem Invariant.still (h : Invariant s) {ins : Option ℕ} {gone : List ℕ} {t : AffectTable}
    (hmoves : s.table.Moves t none none ins gone)
    (hgone : ∀ a ∈ gone, ¬ s.table.Live a ∨ s.Weightless a)
    (hins : s.fallen → ∀ a ∈ ins, ¬ s.table.Live a) : Invariant { s with table := t } :=
  h.moves hmoves (by simp) hgone hins (fun _ _ => rfl) (by simp) (fun stat => by simp) rfl

theorem Invariant.go (h : Invariant s) {b : Birth} {value : ℚ} (hok : s.Regular (.go b) value)
    {t : AffectTable} (hstep : s.table.step (.go b) = some t) :
    Invariant { s.hooks (.go b) value with table := t } := by
  simp only [AffectTable.step] at hstep
  split at hstep
  · simp at hstep
  · simp at hstep
  · next f rest hcall hstack =>
      have hhead : f ∈ s.table.stack.head? := by simp [hstack]
      have hgone := hok.dropped f hhead
      have hins := fun hdead => hok.inserted hdead f hhead
      have hexact := hok.exact
      split at hstep
      · next u hresume =>
          obtain rfl := Option.some.inj hstep
          have hmoves := AffectTable.moves_go h.table hstack hresume
          cases hexits : s.table.exits f with
          | some a =>
              obtain ⟨henters, -⟩ := AffectTable.alone_of_exits b hexits
              have hhooks : s.hooks (.go b) value = s.takes a value := by
                simp [hooks, hstack, hexits]
              rw [hexits, henters] at hmoves
              rw [hhooks]
              refine h.moves hmoves (fun a' ha' => hok.once f hhead a' (hexits.trans ha'))
                hgone hins
                (fun _ _ => rfl) (by simp) (fun stat => ?_) rfl
              simp only [additions, hstack, hexits] at hexact
              change addAll _ s.mid stat = _
              rw [hexact.addAll, hok.even f hhead a hexits, Double.amount_scale]
              simp
              ring
          | none =>
              cases henters : s.table.enters b f with
              | some p =>
                  obtain ⟨a, d⟩ := p
                  have hhooks : s.hooks (.go b) value = s.gives a d value := by
                    simp [hooks, hstack, hexits, henters]
                  rw [hexits, henters] at hmoves
                  obtain ⟨hnext, -⟩ := hmoves.entered a rfl
                  rw [hhooks]
                  refine h.moves hmoves (by simp) hgone hins (fun a' ha' => ?_) (fun a' ha' => ?_)
                    (fun stat => ?_) rfl
                  · have hne : a' ≠ a := by omega
                    simp [gives, hne]
                  · obtain rfl := Option.mem_some_iff.mp ha'
                    simp [gives, amount_shield]
                  · simp only [additions, hstack, hexits, henters] at hexact
                    change addAll _ s.mid stat = _
                    rw [hexact.addAll, Double.amount_scale]
                    simp [gives]
              | none =>
                  have hhooks : s.hooks (.go b) value = s := by
                    simp [hooks, hstack, hexits, henters]
                  rw [hexits, henters] at hmoves
                  rw [hhooks]
                  exact h.still hmoves hgone hins
      · next e hresume =>
          obtain rfl := Option.some.inj hstep
          have hfails : s.table.fails (.go b) := by simp [AffectTable.fails, hstack, hresume]
          obtain ⟨hclear, hadding⟩ := hok.raised hfails
          obtain ⟨hexits, henters⟩ := AffectTable.none_of_error hresume
          have hhooks : s.hooks (.go b) value = s := by
            simp [hooks, hstack, hexits, henters]
          rw [hhooks]
          exact h.still (.abort h.table hclear) (fun a ha => .inr (hadding a ha)) (by simp)

theorem Invariant.tableStep (h : Invariant s) {l : Affects.Label} {value : ℚ}
    (hok : s.Regular l value) {t : AffectTable} (hstep : s.table.step l = some t) :
    Invariant { s.hooks l value with table := t } := by
  cases l with
  | go b => exact h.go hok hstep
  | invoke op => exact h.still (AffectTable.moves_invoke h.table hstep) (by simp) (by simp)
  | ret => exact h.still (AffectTable.moves_ret h.table hstep) (by simp) (by simp)
  | raise =>
      obtain rfl := AffectTable.abort_of_raise hstep
      obtain ⟨hclear, hadding⟩ := hok.raised rfl
      exact h.still (.abort h.table hclear) (fun a ha => .inr (hadding a ha)) (by simp)

theorem Invariant.mid_shield (h : Invariant s) : s.mid .Shield = 0 := by
  have hzero : s.table.total (fun a => amount (s.given a) .Shield) = 0 := by
    refine Finset.sum_eq_zero fun a ha => ?_
    have hnone := h.shield a (Finset.mem_range.mp ha)
    simp [hnone]
  rw [h.mid, hzero, add_zero]
  rfl

theorem Invariant.onDead (h : Invariant s) : Invariant s.onDead := by
  have hframe : ∀ f ∈ [Op.clear.frame s.table.affects.length], f.adding = [] ∧
      (∀ a ∈ f.pending, a < s.table.next) ∧ f.isExiting = false := by
    simp [Op.frame, Frame.adding, Frame.pending, Frame.isExiting]
  have hheld := h.still (.push h.table _ hframe) (by simp) (by simp)
  refine ⟨hheld.table, hheld.refs, hheld.mid, hheld.kept, hheld.shield, fun _ k a hk _ => ?_⟩
  exact ⟨_, (List.getElem?_eq_some_iff.mp hk).1, List.mem_cons_self⟩

theorem Invariant.setHp (h : Invariant s) (hp hpMax : ℚ) : Invariant { s with hp, hpMax } :=
  ⟨h.table, h.refs, h.mid, h.kept, h.shield, h.clearing⟩

theorem Invariant.addHp (h : Invariant s) {hp : ℚ} {hasSource : Bool}
    (hstep : s.addHp hp hasSource = some s') : Invariant s' := by
  have hset : ∀ v : ℚ, Invariant
      (if s.hp > 0 ∧ v ≤ 0 then { s with hp := v }.onDead else { s with hp := v }) := by
    intro v
    split
    · exact (h.setHp v s.hpMax).onDead
    · exact h.setHp v s.hpMax
  unfold Hero.addHp at hstep
  split at hstep
  · exact Option.some.inj hstep ▸ h
  · split at hstep
    · obtain rfl := Option.some.inj hstep
      exact hset _
    · cases hstep

theorem Invariant.step {l : Label} (h : Invariant s) (hok : OK s l) (hstep : s.step l = some s') :
    Invariant s' := by
  cases l with
  | table l value =>
      have hmap : (s.table.step l).map (fun table => { s.hooks l value with table }) = some s' := by
        cases l with
        | invoke op => cases op <;> first | exact hstep | cases hstep
        | _ => exact hstep
      obtain ⟨t, ht, rfl⟩ := Option.map_eq_some_iff.mp hmap
      exact h.tableStep hok ht
  | addHp hp hasSource =>
      simp only [Hero.step, Option.ite_none_right_eq_some] at hstep
      exact h.addHp hstep.2
  | damage demage =>
      simp only [Hero.step, Option.ite_none_right_eq_some] at hstep
      obtain ⟨-, hstep⟩ := hstep
      have hsame : s.addMid [(.Shield, -0)] = s := by
        have hsum : Double.add (s.mid .Shield) (-0) = s.mid .Shield := by
          rw [h.mid_shield]
          decide +kernel
        simp only [addMid, addAll, List.foldl_cons, List.foldl_nil, hsum, Function.update_eq_self]
      simp only [Hero.damage, h.mid_shield, gt_iff_lt, not_lt.mpr hok, if_false, hsame] at hstep
      exact h.addHp hstep
  | calcHpMax hpMax =>
      simp only [Hero.step, Option.ite_none_right_eq_some, Hero.calcHpMax,
        Option.ite_none_left_eq_some] at hstep
      obtain ⟨-, -, hstep⟩ := hstep
      exact (h.setHp s.hp hpMax).addHp hstep
  | onRaise =>
      simp only [Hero.step, Option.ite_none_right_eq_some, Hero.onRaise] at hstep
      obtain ⟨-, hstep⟩ := hstep
      have hraised : Invariant { s with fallen := false } :=
        ⟨h.table, h.refs, h.mid, h.kept, h.shield, fun hdead => by cases hdead⟩
      exact hraised.addHp hstep

theorem Invariant.init (owner : ℕ) (hp hpMax : ℚ) : Invariant (system owner hp hpMax).init := by
  refine ⟨⟨fun _ _ => rfl, by simp [system, AffectTable.new, AffectTable.adding],
    fun a ha => absurd ha (Nat.not_lt_zero a), by simp [system, AffectTable.new]⟩, fun state => ?_,
    fun stat => ?_, fun a ha => absurd ha (Nat.not_lt_zero a),
    fun a ha => absurd ha (Nat.not_lt_zero a), fun hdead => by cases hdead⟩
  · simp [system, AffectTable.new, AffectTable.total]
  · simp [system, AffectTable.new, AffectTable.total]

/-- Where what comes into the table of a fallen hero has exited, affects that weigh exit once and
take what they gave, no sum is rounded and errors lose nothing, no affect is left between the death
and `onRaise`. -/
theorem death_clears (owner : ℕ) (hp hpMax : ℚ) (h : (system owner hp hpMax).Runs OK s)
    (hfallen : s.fallen) (hidle : s.table.stack = []) : Cleared s := by
  have hinv := h.invariant (Invariant.init owner hp hpMax)
    fun _ _ _ (hi : Invariant _) hok hs => hi.step hok hs
  exact hinv.cleared hfallen hidle

/-! ## A hit that kills -/

instance (s : Hero) (l : Label) : Decidable (OK s l) := by
  cases l with
  | table l value =>
      exact decidable_of_iff
        ((∀ f ∈ s.table.stack.head?, ∀ a ∈ s.table.exits f, s.table.Live a ∨ s.Weightless a) ∧
          (∀ f ∈ s.table.stack.head?, ∀ a ∈ s.table.drops f,
            ¬ s.table.Live a ∨ s.Weightless a) ∧
          (s.fallen → ∀ f ∈ s.table.stack.head?, ∀ a ∈ AffectTable.inserts f,
            ¬ s.table.Live a) ∧
          (∀ f ∈ s.table.stack.head?, ∀ a ∈ s.table.exits f,
            (s.table.heap a).data.onTrigger s.hpMax value = s.given a) ∧
          Exact (s.additions l value) s.mid ∧
          (s.table.fails l → (∀ f ∈ s.table.stack, ¬ f.isExiting ∧ ¬ f.isClear) ∧
            ∀ a ∈ s.table.adding, s.Weightless a))
        ⟨fun h => ⟨h.1, h.2.1, h.2.2.1, h.2.2.2.1, h.2.2.2.2.1, h.2.2.2.2.2⟩,
          fun h => ⟨h.once, h.dropped, h.inserted, h.even, h.exact, h.raised⟩⟩
  | damage demage => exact inferInstanceAs (Decidable (0 ≤ demage))
  | addHp hp hasSource => exact .isTrue trivial
  | calcHpMax hpMax => exact .isTrue trivial
  | onRaise => exact .isTrue trivial

def born : Birth := ⟨1, 0, false⟩

/-- Half a strength more for 10 s, then a hit of 120 that kills. -/
def doomed : List Label :=
  [.table (.invoke (.buildAffects (some 1) [⟨.upstr, [0, 1 / 2, 5, 0, 10]⟩] 3)) 0,
    .table (.go born) 0, .table .ret 0, .table (.go born) 0,
    .table (.go born) 0, .table (.go born) 0,
    .table (.invoke (.buildAffects (some 1) [⟨.damage, [0, 1, 120]⟩] 7)) 0,
    .table (.go born) 0, .damage 120]

/-- The first affect exits and the hit is over. -/
def passed : List Label :=
  [.table (.go born) 0, .table .ret 0, .table (.go born) 0,
    .table (.go born) 0, .table .ret 0, .table (.go born) 0,
    .table (.go born) 0, .table (.go born) 0,
    .table (.go born) 0]

theorem death_clears_hit : ∃ s, (system 0 100 100).Runs OK s ∧ s.hp = 0 ∧ Cleared s := by
  have hrun : (((system 0 100 100).guarded OK).run (system 0 100 100).init (doomed ++ passed)).map
      (fun s => (s.hp, s.fallen, s.table.stack)) = some (0, true, []) := by
    decide +kernel
  obtain ⟨s, hs, hread⟩ := Option.map_eq_some_iff.mp hrun
  simp only [Prod.mk.injEq] at hread
  obtain ⟨hhp, hfallen, hidle⟩ := hread
  have hruns := System.Runs.of_guarded_run _ .init hs
  exact ⟨s, hruns, hhp, death_clears 0 100 100 hruns hfallen hidle⟩

/-- A list of a hit that kills and five seconds of `NoMove`. -/
def hitAndStun : List Label :=
  [.table (.invoke (.buildAffects (some 1) [⟨.damage, [0, 1, 120]⟩, ⟨.ctrl, [1, 0, 0, 5]⟩] 7)) 0,
    .table (.go born) 0, .damage 120, .table (.go born) 0, .table .ret 0,
    .table (.go born) 0, .table (.go born) 0,
    .table (.go born) 0, .table (.go born) 0,
    .table (.go born) 0, .table (.go born) 0,
    .table (.go born) 0, .table (.go born) 0]

/-- The stun goes on the dead hero, behind `clear`. -/
theorem stun_stays : ∃ s, (system 0 100 100).Reachable s ∧ s.hp = 0 ∧ s.fallen ∧
    s.table.stack = [] ∧ s.table.affectStateRefs .noMove = 1 ∧ ¬ Cleared s := by
  have hrun : ((system 0 100 100).run (system 0 100 100).init hitAndStun).map
      (fun s => (s.hp, s.fallen, s.table.stack, s.table.affectStateRefs .noMove)) =
      some (0, true, [], 1) := by
    decide +kernel
  obtain ⟨s, hs, hread⟩ := Option.map_eq_some_iff.mp hrun
  simp only [Prod.mk.injEq] at hread
  obtain ⟨hhp, hfallen, hidle, hrefs⟩ := hread
  refine ⟨s, System.reachable_of_run _ hs, hhp, hfallen, hidle, hrefs, fun h => ?_⟩
  have hzero := h.affectStateRefs .noMove
  omega

end Hero

end GameServer.Affects
