import GameServer.AffectInvariant

/-!
# The lifecycle of an affect

Every step of a run keeps the invariant, so `Lifecycle` holds of every state that orderly steps
reach. The counterexample is the plain one: a stun that has run out and is still listed is removed
by its skill id before the next update, and the owner's count of the state falls below 0.
-/

namespace GameServer.Affects.AffectTable

open Transition

variable {t t' : AffectTable} {a b : ℕ} {s : AffectState}

/-! ## Affects that hold states are added in one go -/

theorem steady_cons {f : Frame} {st : List Frame} :
    t.Steady (f :: st) ↔ (∀ a ∈ f.adding, (t.heap a).control = none) ∧ t.Steady st := by
  simp only [Steady, List.flatMap_cons, List.mem_append]
  exact ⟨fun h => ⟨fun a ha => h a (.inl ha), fun a ha => h a (.inr ha)⟩,
    fun h a ha => ha.elim (h.1 a) (h.2 a)⟩

theorem Steady.sweeping (h : t.Steady t.stack) : t.Sweeping := by
  intro f rest hstack
  rw [hstack, steady_cons] at h
  exact ⟨h.2, .inr h.1⟩

theorem Steady.congr {st : List Frame} (h : t.Steady st)
    (hcontrol : ∀ a ∈ st.flatMap Frame.adding, (t'.heap a).control = (t.heap a).control) :
    t'.Steady st := fun a ha => (hcontrol a ha).trans (h a ha)

theorem sweeping_cons {f : Frame} {st : List Frame} (hstack : t.stack = f :: st)
    (hst : t.Steady st)
    (hf : f.InRange t.affects.length ∨ ∀ a ∈ f.adding, (t.heap a).control = none) :
    t.Sweeping := by
  intro g rest heq
  rw [hstack, List.cons.injEq] at heq
  obtain ⟨rfl, rfl⟩ := heq
  exact ⟨hst, hf⟩

theorem onExit_control (t : AffectTable) (a b : ℕ) :
    ((t.onExit a).heap b).control = (t.heap b).control := by
  rcases onExit_cases t a with ⟨mask, -, heq⟩ | ⟨-, heq⟩ | ⟨-, fs, -, heq⟩ <;>
  · rw [heq]
    by_cases hba : b = a
    · subst hba
      simp
    · simp [hba]

/-- `onExit` leaves the table only for an affect that holds nothing. -/
theorem onExit_sweeping (h : t.Sweeping)
    (hsteady : (t.heap a).control = none → t.Steady t.stack) : (t.onExit a).Sweeping := by
  have hcontrol := onExit_control t a
  have hpush : (t.heap a).control = none → ∀ fs : List Frame, (∀ f ∈ fs, f.adding = []) →
      (t.onExit a).Steady (fs ++ t.stack) := fun hc fs hfs b hb => by
    rw [hcontrol b]
    refine hsteady hc b ?_
    have hnil : fs.flatMap Frame.adding = [] := List.flatMap_eq_nil_iff.mpr hfs
    simpa [List.flatMap_append, hnil] using hb
  rcases onExit_cases t a with ⟨mask, hc, heq⟩ | ⟨hc, heq⟩ | ⟨hc, fs, hfs, heq⟩
  · intro f rest hstack
    have hold := h f rest (by rw [← hstack, heq])
    refine ⟨hold.1.congr fun b _ => hcontrol b, ?_⟩
    rw [show (t.onExit a).affects = t.affects by rw [heq]]
    exact hold.2.imp_right fun hnone b hb => (hcontrol b).trans (hnone b hb)
  · refine Steady.sweeping ?_
    have hs := hpush hc [.call, .exiting a] (by simp [Frame.adding])
    rwa [show (t.onExit a).stack = [.call, .exiting a] ++ t.stack by rw [heq]; rfl]
  · refine Steady.sweeping ?_
    have hs := hpush hc fs fun f hf => by rw [List.mem_singleton.mp (hfs hf)]; rfl
    rwa [show (t.onExit a).stack = fs ++ t.stack by rw [heq]]

theorem Inv.onExit (h : t.Inv) (ha : a < t.next) (hstatus : (t.heap a).status ≠ .exit)
    (hexiting : Frame.exiting a ∉ t.stack)
    (hmem : (t.heap a).control ≠ none → a ∈ t.adding ++ t.affects)
    (hsteady : (t.heap a).control = none → t.Steady t.stack) : (t.onExit a).Inv :=
  ⟨h.toCore.onExit ha hstatus hexiting hmem, onExit_sweeping h.sweeping hsteady⟩

theorem Core.lt_of_mem (h : t.Core) (ha : a ∈ t.affects) : a < t.next :=
  h.below a (List.mem_append_right _ ha)

/-- Frames that add, exit and await nothing may replace each other. -/
theorem Core.swap (h : t.Core) {f : Frame} {rest : List Frame} (gs : List Frame)
    (hstack : t.stack = f :: rest)
    (hadding : gs.flatMap Frame.adding = f.adding) (hf : f.isExiting = false)
    (hgs : ∀ g ∈ gs, g.isExiting = false ∧ g.later = []) :
    ({ t with stack := gs ++ rest } : AffectTable).Core := by
  refine h.restack ?_ (fun b => ?_) (fun g hg b hb => ?_)
  · rw [adding, hstack, List.flatMap_append, hadding, List.flatMap_cons]
  · have hnot : Frame.exiting b ∉ gs := fun hmem => by
      simpa [Frame.isExiting] using (hgs _ hmem).1
    have hne : Frame.exiting b ≠ f := fun e => by
      rw [← e] at hf
      simp [Frame.isExiting] at hf
    simp [hstack, hnot, hne]
  · rcases List.mem_append.mp hg with hg | hg
    · simp [(hgs g hg).2] at hb
    · exact .inl (hstack ▸ List.mem_cons_of_mem _ hg)

/-! ## Steps -/

theorem Inv.replace (h : t.Inv) {f g : Frame} {rest : List Frame} (hstack : t.stack = f :: rest)
    (hadding : g.adding = f.adding) (hf : f.isExiting = false) (hg : g.isExiting = false)
    (hlater : g.later = [])
    (hrange : g.InRange t.affects.length ∨ ∀ a ∈ g.adding, (t.heap a).control = none) :
    ({ t with stack := g :: rest } : AffectTable).Inv where
  toCore := h.toCore.swap [g] hstack (by simp [hadding]) hf (by simp [hg, hlater])
  sweeping := sweeping_cons rfl (h.sweeping f rest hstack).1 hrange

theorem Inv.pop (h : t.Inv) {f : Frame} {rest : List Frame} (hstack : t.stack = f :: rest)
    (hadding : f.adding = []) (hf : f.isExiting = false) :
    ({ t with stack := rest } : AffectTable).Inv where
  toCore := h.toCore.swap [] hstack (by simp [hadding]) hf (by simp)
  sweeping := Steady.sweeping (h.sweeping f rest hstack).1

/-- A selected entry has the kind of the affect being added. -/
theorem Core.selected_control (h : t.Core) (ha : a < t.next) (hb : b < t.next)
    (hsel : t.selects (.replaceAdd a) b) :
    (t.heap b).control = none ↔ (t.heap a).control = none := by
  simp only [selects, Bool.and_eq_true, decide_eq_true_eq] at hsel
  have hkind := hsel.1.1.1
  rw [← Option.not_isSome_iff_eq_none, ← Option.not_isSome_iff_eq_none, (h.made a ha).1,
    (h.made b hb).1, hkind]

theorem Inv.sweep (h : t.Inv) {why : Removal} {i : ℕ} {rest : List Frame}
    (hstack : t.stack = .sweep why (i + 1) :: rest) (hb : t.affects[i]? = some b)
    (hsel : t.selects why b) (hstatus : (t.heap b).status ≠ .exit)
    (hexiting : Frame.exiting b ∉ t.stack) :
    (({ t with stack := .remove why i :: rest } : AffectTable).onExit b).Inv := by
  have hmem : b ∈ t.affects := List.mem_of_getElem? hb
  have hi : i < t.affects.length := (List.getElem?_eq_some_iff.mp hb).1
  have hblt := h.toCore.lt_of_mem hmem
  obtain ⟨hrest, hrange⟩ := h.sweeping _ _ hstack
  have hinv : ({ t with stack := .remove why i :: rest } : AffectTable).Inv := by
    refine h.replace hstack rfl rfl rfl rfl ?_
    refine hrange.imp_left fun hr => ?_
    cases why with
    | replaceAdd a => exact hi
    | removeById id => exact hr
    | removeBySkillId skillId => exact hr
  refine hinv.onExit hblt hstatus ?_ (fun _ => List.mem_append_right _ hmem) (fun hc => ?_)
  · simpa [hstack] using hexiting
  · refine steady_cons.mpr ⟨fun a ha => ?_, hrest⟩
    cases why with
    | replaceAdd c =>
        obtain rfl : a = c := List.mem_singleton.mp ha
        have halt : a < t.next := h.below a (by simp [adding, hstack, Frame.adding, Removal.adding])
        exact (h.toCore.selected_control halt hblt hsel).mp hc
    | removeById id => exact absurd ha List.not_mem_nil
    | removeBySkillId skillId => exact absurd ha List.not_mem_nil

theorem Inv.remove (h : t.Inv) {why : Removal} {i : ℕ} {rest : List Frame}
    (hstack : t.stack = .remove why i :: rest)
    (hexit : ∀ b, t.affects[i]? = some b → (t.heap b).status = .exit) :
    ({ t with affects := t.affects.eraseIdx i, stack := .sweep why i :: rest } :
      AffectTable).Inv := by
  obtain ⟨hrest, hrange⟩ := h.sweeping _ _ hstack
  have hcore := (h.toCore.swap [.sweep why i] hstack (by simp [Frame.adding]) rfl
    (by simp [Frame.isExiting, Frame.later])).eraseIdx (i := i) hexit
  refine ⟨hcore, sweeping_cons rfl hrest ?_⟩
  refine hrange.imp_left fun hr => ?_
  cases why with
  | replaceAdd a =>
      have hlt : i < t.affects.length := hr
      change i ≤ (t.affects.eraseIdx i).length
      rw [List.length_eraseIdx_of_lt hlt]
      omega
  | removeById id => exact hr
  | removeBySkillId skillId => exact hr

theorem Inv.finish (h : t.Inv) {why : Removal} {rest : List Frame}
    (hstack : t.stack = .sweep why 0 :: rest) :
    (({ t with stack := rest } : AffectTable).finish why).Inv := by
  cases why with
  | replaceAdd a =>
      refine ⟨h.toCore.insert hstack, Steady.sweeping ?_⟩
      refine (h.sweeping _ _ hstack).1.congr fun b _ => ?_
      by_cases hba : b = a
      · subst hba
        simp [AffectTable.finish, put]
      · simp [AffectTable.finish, put, hba]
  | removeById id => exact h.pop hstack rfl rfl
  | removeBySkillId skillId => exact h.pop hstack rfl rfl

theorem Inv.clear (h : t.Inv) {i : ℕ} {rest : List Frame}
    (hstack : t.stack = .clear (i + 1) :: rest) (hb : t.affects[i]? = some b)
    (hstatus : (t.heap b).status ≠ .exit) (hexiting : Frame.exiting b ∉ t.stack) :
    (({ t with stack := .clear i :: rest } : AffectTable).onExit b).Inv := by
  have hmem : b ∈ t.affects := List.mem_of_getElem? hb
  have hrest := (h.sweeping _ _ hstack).1
  have hinv := h.replace (g := .clear i) hstack rfl rfl rfl rfl (.inr (by simp [Frame.adding]))
  refine hinv.onExit (h.toCore.lt_of_mem hmem) hstatus ?_ (fun _ => List.mem_append_right _ hmem)
    (fun _ => steady_cons.mpr ⟨by simp [Frame.adding], hrest⟩)
  simpa [hstack] using hexiting

theorem Inv.clear_done (h : t.Inv) {rest : List Frame} (hstack : t.stack = .clear 0 :: rest)
    (hexit : ∀ a ∈ t.affects, (t.heap a).status = .exit) :
    ({ t with affects := [], stack := rest } : AffectTable).Inv where
  toCore := (h.pop hstack rfl rfl).toCore.clear hexit
  sweeping := Steady.sweeping (h.sweeping _ _ hstack).1

theorem Inv.setClock (h : t.Inv) (ha : a < t.next) (clock : Clock) : (t.setClock a clock).Inv := by
  refine ⟨h.toCore.update ha rfl rfl rfl rfl rfl rfl rfl rfl rfl (h.entered a ha).2
    (h.exited a) le_rfl
    (fun _ _ => Iff.rfl) (fun f hf _ _ => .inl hf) (.inr fun _ => rfl) (fun _ => rfl), ?_⟩
  have hcontrol : ∀ b, ((t.setClock a clock).heap b).control = (t.heap b).control := fun b => by
    by_cases hba : b = a
    · subst hba
      simp [AffectTable.setClock, put]
    · simp [AffectTable.setClock, put, hba]
  intro f rest hstack
  obtain ⟨hrest, hf⟩ := h.sweeping f rest hstack
  exact ⟨hrest.congr fun b _ => hcontrol b,
    hf.imp_right fun hnone b hb => (hcontrol b).trans (hnone b hb)⟩

/-- Control leaves the table above a stack that adds nothing that holds a state. -/
theorem Inv.leave (h : t.Inv) (hsteady : t.Steady t.stack) {g : Frame}
    (hadding : g.adding = []) (hg : g.isExiting = false)
    (hlater : ∀ b ∈ g.later, b < t.next ∧ (t.heap b).control = none) :
    ({ t with stack := g :: t.stack } : AffectTable).Inv where
  toCore := by
    refine h.toCore.restack (by simp [hadding, adding]) (fun b => ?_) (fun f hf b hb => ?_)
    · have hne : Frame.exiting b ≠ g := fun e => by
        rw [← e] at hg
        simp [Frame.isExiting] at hg
      simp [hne]
    · rcases List.mem_cons.mp hf with rfl | hf
      · exact .inr (hlater b hb)
      · exact .inl hf
  sweeping := sweeping_cons rfl hsteady (.inr (by simp [hadding]))

theorem Inv.onExec (h : t.Inv) {dt : ℚ} (hmem : a ∈ t.affects) (hsteady : t.Steady t.stack)
    (hstatus : (t.heap a).status ≠ .exit)
    (hexiting : (t.heap a).cls ≠ .getbloodAffect →
      (t.heap a).cls.expired ((t.heap a).elapse dt) → Frame.exiting a ∉ t.stack) :
    (t.onExec a dt).Inv := by
  have ha := h.toCore.lt_of_mem hmem
  have hclock : ∀ clock, (t.setClock a clock).Inv := h.setClock ha
  have hself : ∀ clock, ((t.setClock a clock).heap a) = { t.heap a with clock := clock } :=
    fun clock => by simp [AffectTable.setClock, put]
  have hst : ∀ clock, (t.setClock a clock).Steady t.stack := fun clock =>
    hsteady.congr fun b _ => by
      by_cases hba : b = a
      · subst hba
        simp [hself]
      · simp [AffectTable.setClock, put, hba]
  simp only [AffectTable.onExec]
  split
  · next hcls =>
      have hwait := (hclock ((t.heap a).elapse dt)).leave (hst _) (g := .onExec a) rfl rfl
        (fun b hb => by
          obtain rfl := List.mem_singleton.mp hb
          exact ⟨ha, by simpa [hself] using (h.made b ha).getblood hcls⟩)
      exact hwait.leave (steady_cons.mpr ⟨by simp [Frame.adding], hst _⟩) (g := .call) rfl rfl
        (by simp [Frame.later])
  · next hcls =>
      split
      · next hexp =>
          exact (hclock _).onExit ha (by simpa [hself] using hstatus) (hexiting hcls hexp)
            (fun _ => List.mem_append_right _ hmem) (fun _ => hst _)
      · split
        · split
          · exact (hclock _).leave (hst _) (g := .call) rfl rfl (by simp [Frame.later])
          · exact hclock _
        · exact hclock _

theorem Inv.update_exec (h : t.Inv) {dt : ℚ} {i : ℕ} {rest : List Frame}
    (hstack : t.stack = .update dt (i + 1) :: rest) (hb : t.affects[i]? = some b)
    (hstatus : (t.heap b).status ≠ .exit)
    (hexiting : (t.heap b).cls ≠ .getbloodAffect →
      (t.heap b).cls.expired ((t.heap b).elapse dt) → Frame.exiting b ∉ t.stack) :
    (({ t with stack := .update dt i :: rest } : AffectTable).onExec b dt).Inv := by
  have hrest := (h.sweeping _ _ hstack).1
  have hinv := h.replace (g := .update dt i) hstack rfl rfl rfl rfl
    (.inr (by simp [Frame.adding]))
  refine hinv.onExec (List.mem_of_getElem? hb)
    (steady_cons.mpr ⟨by simp [Frame.adding], hrest⟩) hstatus (fun hcls hexp => ?_)
  simpa [hstack] using hexiting hcls hexp

theorem Inv.update_gone (h : t.Inv) {dt : ℚ} {i : ℕ} {rest : List Frame}
    (hstack : t.stack = .update dt (i + 1) :: rest) (hb : t.affects[i]? = some b)
    (hstatus : (t.heap b).status = .exit) :
    ({ t with affects := t.affects.eraseIdx i, stack := .update dt i :: rest } :
      AffectTable).Inv := by
  have hrest := (h.sweeping _ _ hstack).1
  have hinv := h.replace (g := .update dt i) hstack rfl rfl rfl rfl
    (.inr (by simp [Frame.adding]))
  refine ⟨hinv.toCore.eraseIdx (i := i) (fun a ha => ?_),
    Steady.sweeping (steady_cons.mpr ⟨by simp [Frame.adding], hrest⟩)⟩
  have hab : some b = some a := hb.symm.trans ha
  obtain rfl := Option.some.inj hab
  exact hstatus

theorem Inv.enter (h : t.Inv) (hsteady : t.Steady t.stack) {aff : Affect}
    (hnew : aff.exited = 0 ∧ aff.listed = false) (hmade : aff.Made) {fs : List Frame} {g : Frame}
    (hfs : ∀ f ∈ fs, f = .call ∨ f = .exit t.next) (hnone : aff.control ≠ none → fs = [])
    (hadding : g.adding = []) (hlater : g.later = []) (hexit : g.isExiting = false) :
    ({ t with
        next := t.next + 1
        heap := Function.update t.heap t.next { aff with status := .exec, entered := 1 }
        affectStateRefs := fun s =>
          t.affectStateRefs s + (aff.control.any fun mask => Names mask s).toNat
        stack := fs ++ .addAffect t.next :: g :: t.stack } : AffectTable).Inv := by
  have hcore := h.toCore.enter hnew hmade hfs hnone hadding hlater hexit
  refine ⟨hcore, ?_⟩
  have hsteady' : ∀ b ∈ t.stack.flatMap Frame.adding, (Function.update t.heap t.next
      { aff with status := .exec, entered := 1 } b).control = none := fun b hb => by
    have hlt := h.below b (List.mem_append_left _ hb)
    rw [Function.update_of_ne hlt.ne]
    exact hsteady b hb
  by_cases hc : aff.control = none
  · refine Steady.sweeping fun b hb => ?_
    have hnil : fs.flatMap Frame.adding = [] :=
      List.flatMap_eq_nil_iff.mpr fun f hf => by
        rcases hfs f hf with rfl | rfl <;> rfl
    rw [List.flatMap_append, hnil, List.flatMap_cons, List.flatMap_cons, hadding] at hb
    rcases List.mem_cons.mp hb with rfl | hb
    · simpa using hc
    · exact hsteady' b hb
  · obtain rfl := hnone hc
    exact sweeping_cons rfl (steady_cons.mpr ⟨by simp [hadding], hsteady'⟩) (.inl trivial)

/-- A hook that goes on with `self:onExit()`. -/
theorem Inv.exit_later (h : t.Inv) {f : Frame} {rest : List Frame} (hstack : t.stack = f :: rest)
    (hlater : f.later = [a]) (hadding : f.adding = []) (hf : f.isExiting = false)
    (hstatus : (t.heap a).status ≠ .exit) (hexiting : Frame.exiting a ∉ t.stack) :
    (({ t with stack := rest } : AffectTable).onExit a).Inv := by
  obtain ⟨ha, hc⟩ := h.later f (by simp [hstack]) a (by simp [hlater])
  refine (h.pop hstack hadding hf).onExit ha hstatus ?_ (fun hsome => absurd hc hsome)
    (fun _ => (h.sweeping _ _ hstack).1)
  intro hmem
  exact hexiting (hstack ▸ List.mem_cons_of_mem _ hmem)

theorem Inv.exiting (h : t.Inv) {rest : List Frame} (hstack : t.stack = .exiting a :: rest) :
    (({ t with stack := rest } : AffectTable).setStatus a .exit).Inv := by
  have hone : (t.heap a).exited = 1 := by
    rw [h.exited a, if_pos (.inr (by simp [hstack]))]
  have ha : a < t.next := by
    by_contra hge
    rw [h.fresh a (by omega)] at hone
    simp [blank] at hone
  refine ⟨h.toCore.update ha rfl rfl ?_ rfl rfl rfl rfl rfl rfl (by simp) (by simp [hone]) le_rfl
    (fun b hb => ?_) (fun f hf _ _ => .inl (hstack ▸ List.mem_cons_of_mem _ hf))
    (.inr fun _ => rfl) (fun _ => rfl), Steady.sweeping ?_⟩
  · simp [adding, setStatus, put, hstack, Frame.adding]
  · simp [setStatus, put, hstack, hb]
  · refine (h.sweeping _ _ hstack).1.congr fun b _ => ?_
    by_cases hba : b = a
    · subst hba
      simp [setStatus, put]
    · simp [setStatus, put, hba]

theorem Inv.addAffect (h : t.Inv) {source : Option ℕ} {d : Data} {datas : List Data} {skillId : ℤ}
    {projectids : List ℕ} {rest : List Frame} {birth : Birth}
    (hstack : t.stack = .buildAffects source (d :: datas) skillId projectids :: rest)
    (heq : ({ t with stack := rest } : AffectTable).addAffect source d datas skillId projectids
      birth = .ok t') : t'.Inv := by
  have hrest := (h.sweeping _ _ hstack).1
  have hpop := h.pop hstack rfl rfl
  have hgo : ∀ ids, (({ t with stack := rest } : AffectTable).push
      [.buildAffects source datas skillId ids]).Inv := fun ids =>
    h.replace hstack rfl rfl rfl rfl (.inr (by simp [Frame.adding]))
  simp only [AffectTable.addAffect] at heq
  cases hcls : d.kind.cls with
  | none =>
      simp only [hcls] at heq
      split at heq
      · simp at heq
      · split at heq
        · cases source with
          | none => simp at heq
          | some src =>
              simp only [Except.ok.injEq] at heq
              subst heq
              exact (hgo projectids).leave (g := .call)
                (steady_cons.mpr ⟨by simp [Frame.adding], hrest⟩) rfl rfl (by simp [Frame.later])
        · simp only [Except.ok.injEq] at heq
          exact heq ▸ hgo projectids
  | some c =>
      simp only [hcls] at heq
      cases hnew : Affect.new t.owner source d c skillId birth with
      | none => simp [hnew] at heq
      | some aff =>
          simp only [hnew, Except.ok.injEq] at heq
          obtain ⟨hdata, hc, hexited, hentered, hlisted, hcontrol⟩ := Affect.new_eq hnew
          have hmade : aff.Made := by
            refine ⟨?_, ?_⟩
            · rw [hdata]
              exact Data.control_isSome hcontrol
            · rw [hdata, hc, hcls]
          obtain ⟨fs, hon, hsome, hfs⟩ := onEnter_eq (({ t with
              next := t.next + 1
              stack := [.addAffect t.next, .buildAffects source datas skillId
                (projectids ++ [aff.projectId])] ++ rest } : AffectTable).put t.next aff)
              t.next birth.ownerDead
          have heq' : t' =
              { t with
                next := t.next + 1
                heap := Function.update t.heap t.next { aff with status := .exec, entered := 1 }
                affectStateRefs := fun s =>
                  t.affectStateRefs s + (aff.control.any fun mask => Names mask s).toNat
                stack := fs ++ .addAffect t.next :: .buildAffects source datas skillId
                  (projectids ++ [aff.projectId]) :: rest } := by
            rw [← heq]
            refine hon.trans ?_
            simp [put, hentered]
          rw [heq']
          exact hpop.enter hrest ⟨hexited, hlisted⟩ hmade (by simpa using hfs)
            (by simpa [put] using hsome) rfl rfl rfl

/-- An error never meets an affect that holds a state and is not yet inserted. -/
theorem Inv.steady_of_error (h : t.Inv) {f : Frame} {rest : List Frame} {birth : Birth}
    {e : String} (hstack : t.stack = f :: rest)
    (herr : ({ t with stack := rest } : AffectTable).resume birth f = .error e) :
    t.Steady t.stack := by
  obtain ⟨hrest, hrange⟩ := h.sweeping f rest hstack
  rw [hstack, steady_cons]
  refine ⟨?_, hrest⟩
  rcases hrange with hrange | hnone
  · cases f with
    | addAffect a => simp [resume] at herr
    | sweep why i =>
        cases why with
        | replaceAdd a =>
            cases i with
            | zero => simp [resume] at herr
            | succ i =>
                have hi : i < t.affects.length := hrange
                simp only [resume, List.getElem?_eq_getElem hi] at herr
                split at herr <;> simp at herr
        | removeById id => exact hrange.elim
        | removeBySkillId skillId => exact hrange.elim
    | remove why i =>
        cases why with
        | replaceAdd a =>
            have hi : i < t.affects.length := hrange
            simp [resume, hi.le] at herr
        | removeById id => exact hrange.elim
        | removeBySkillId skillId => exact hrange.elim
    | buildAffects | clear | update | onExec | exit | exiting | call => exact hrange.elim
  · exact hnone

theorem Inv.abort (h : t.Inv) (hsteady : t.Steady t.stack)
    (hexiting : ∀ f ∈ t.stack, ¬ f.isExiting) : t.abort.Inv :=
  ⟨h.toCore.abort hsteady hexiting, fun _ _ hstack => by simp [AffectTable.abort] at hstack⟩

theorem Inv.resume (h : t.Inv) {f : Frame} {rest : List Frame} {birth : Birth}
    (hstack : t.stack = f :: rest)
    (honce : ∀ a ∈ t.exits f, (t.heap a).status ≠ .exit ∧ Frame.exiting a ∉ t.stack)
    (hdropped : ∀ a ∈ t.drops f, (t.heap a).status = .exit)
    (hok : ({ t with stack := rest } : AffectTable).resume birth f = .ok t') : t'.Inv := by
  cases advances_of_resume hok with
  | built source skillId projectids =>
      have hpop := h.pop hstack rfl rfl
      exact ⟨hpop.toCore.returned projectids, hpop.sweeping⟩
  | build source d datas skillId projectids t' hadd => exact h.addAffect hstack hadd
  | addAffect a => exact h.replace hstack rfl rfl rfl rfl (.inl le_rfl)
  | swept why => exact h.finish hstack
  | selected why i b hb hsel =>
      have hout : t.exits (.sweep why (i + 1)) = some b := Option.filter_eq_some_iff.mpr ⟨hb, hsel⟩
      obtain ⟨hstatus, hexiting⟩ := honce b hout
      exact h.sweep hstack hb hsel hstatus hexiting
  | skipped why i b hb hsel =>
      refine h.replace hstack rfl rfl rfl rfl ?_
      refine (h.sweeping _ _ hstack).2.imp_left fun hr => ?_
      cases why with
      | replaceAdd a => exact Nat.le_of_succ_le hr
      | removeById id => exact hr
      | removeBySkillId skillId => exact hr
  | removed why i => exact h.remove hstack fun b hb => hdropped b (by simp [drops, hb])
  | cleared => exact h.clear_done hstack hdropped
  | clear i b hb =>
      obtain ⟨hstatus, hexiting⟩ := honce b hb
      exact h.clear hstack hb hstatus hexiting
  | updated dt => exact h.pop hstack rfl rfl
  | enter dt i b hb hs =>
      exact absurd hs (h.entered b (h.toCore.lt_of_mem (List.mem_of_getElem? hb))).2
  | exec dt i b hb hs =>
      have hs : (t.heap b).status = .exec := hs
      have hb : t.affects[i]? = some b := hb
      refine h.update_exec hstack hb (by simp [hs]) (fun hcls hexp => ?_)
      exact (honce b (by simp [exits, hb, hs, hcls, hexp])).2
  | gone dt i b hb hs => exact h.update_gone hstack hb hs
  | expired a hexp =>
      obtain ⟨hstatus, hexiting⟩ := honce a (Option.mem_def.mpr (if_pos hexp))
      exact h.exit_later hstack rfl rfl rfl hstatus hexiting
  | exit a =>
      obtain ⟨hstatus, hexiting⟩ := honce a rfl
      exact h.exit_later hstack rfl rfl rfl hstatus hexiting
  | exiting a => exact h.exiting hstack
  | lasts a | call => exact h.pop hstack rfl rfl

/-- Where control is outside the table nothing that holds a state is being added. -/
theorem Inv.steady_of_outside (h : t.Inv) (hout : t.Outside) : t.Steady t.stack := by
  cases hstack : t.stack with
  | nil => exact fun a ha => absurd ha List.not_mem_nil
  | cons f rest =>
      have hf : f = .call := by
        rcases hout with hnil | hcall
        · simp [hstack] at hnil
        · simpa [hstack] using hcall
      obtain ⟨hrest, hrange⟩ := h.sweeping f rest hstack
      subst hf
      exact steady_cons.mpr ⟨by simp [Frame.adding], hrest⟩

theorem Inv.step (h : t.Inv) {l : Label} (hok : t.Orderly l) (hs : t.step l = some t') :
    t'.Inv := by
  cases l with
  | invoke op =>
      have hframe : ∀ n, (op.frame n).adding = [] ∧ (op.frame n).isExiting = false ∧
          (op.frame n).later = [] := fun n => by
        cases op <;> exact ⟨rfl, rfl, rfl⟩
      obtain ⟨hadding, hexiting, hlater⟩ := hframe t.affects.length
      have hout : t.Outside := by
        simp only [AffectTable.step] at hs
        split at hs
        · next hnil => exact .inl hnil
        · next hcall => exact .inr (by rw [hcall]; rfl)
        · simp at hs
      have ht : t' = { t with stack := op.frame t.affects.length :: t.stack } := by
        simp only [AffectTable.step] at hs
        split at hs
        · exact (Option.some.inj hs).symm
        · exact (Option.some.inj hs).symm
        · simp at hs
      rw [ht]
      exact h.leave (h.steady_of_outside hout) hadding hexiting (by simp [hlater])
  | ret =>
      simp only [AffectTable.step] at hs
      split at hs
      · next rest hstack => exact Option.some.inj hs ▸ h.pop hstack rfl rfl
      · simp at hs
  | raise =>
      have hsteady : ∀ f rest, t.stack = f :: rest → f.adding = [] → t.Steady t.stack :=
        fun f rest hstack hf => by
          rw [hstack, steady_cons]
          exact ⟨by simp [hf], (h.sweeping f rest hstack).1⟩
      have hexiting := hok.raised rfl
      simp only [AffectTable.step] at hs
      split at hs
      · next hstack => exact Option.some.inj hs ▸ h.abort (hsteady _ _ hstack rfl) hexiting
      · next hstack => exact Option.some.inj hs ▸ h.abort (hsteady _ _ hstack rfl) hexiting
      · simp at hs
  | go birth =>
      simp only [AffectTable.step] at hs
      split at hs
      · simp at hs
      · simp at hs
      · next f rest hcall hstack =>
          have hhead : f ∈ t.stack.head? := by simp [hstack]
          split at hs
          · next u hresume =>
              exact Option.some.inj hs ▸
                h.resume hstack (hok.once f hhead) (hok.dropped f hhead) hresume
          · next e hresume =>
              have hfails : t.fails (.go birth) := by simp [fails, hstack, hresume]
              exact Option.some.inj hs ▸
                h.abort (h.steady_of_error hstack hresume) (hok.raised hfails)

theorem inv_new (owner : ℕ) : (new owner).Inv where
  fresh _ _ := rfl
  below b hb := absurd hb List.not_mem_nil
  nodup := List.nodup_nil
  entered b hb := absurd hb (Nat.not_lt_zero b)
  made b hb := absurd hb (Nat.not_lt_zero b)
  exited _ := rfl
  left b hl _ := by simp [new, blank] at hl
  later f hf := absurd hf List.not_mem_nil
  refs _ := rfl
  sweeping _ _ hstack := by simp [new] at hstack

theorem Inv.lifecycle (h : t.Inv) : t.Lifecycle where
  exits_once a _ := by
    rw [h.exited a]
    split <;> omega
  left_exited a _ := h.left a
  refs_entering := h.refs
  refs hout s := by
    have hnone : t.adding.countP (fun a => (t.heap a).holds s) = 0 :=
      List.countP_eq_zero.mpr fun b hb => by
        simp [Affect.holds_of_none (h.steady_of_outside hout b hb)]
    rw [h.refs s, holders, holders, List.countP_append, hnone, Nat.zero_add]
  refs_nonneg s := by
    rw [h.refs s]
    exact Int.natCast_nonneg _

instance (t : AffectTable) (l : Label) : Decidable (t.Orderly l) :=
  decidable_of_iff
    ((∀ f ∈ t.stack.head?, ∀ a ∈ t.exits f,
        (t.heap a).status ≠ .exit ∧ Frame.exiting a ∉ t.stack) ∧
      (∀ f ∈ t.stack.head?, ∀ a ∈ t.drops f, (t.heap a).status = .exit) ∧
      (t.fails l → ∀ f ∈ t.stack, ¬ f.isExiting))
    ⟨fun h => ⟨h.1, h.2.1, h.2.2⟩, fun h => ⟨h.once, h.dropped, h.raised⟩⟩

/-- In every run of one table whose steps are orderly, every affect exits once by the time it has
left the table and `affectStateRefs` counts the affects that hold a state. -/
theorem affects_lifecycle (owner : ℕ) (h : (system owner).Runs Orderly t) : t.Lifecycle := by
  have hinv : t.Inv := h.invariant (inv_new owner) fun _ _ _ hi hok hs => Inv.step hi hok hs
  exact hinv.lifecycle

def born : Birth := ⟨1, 0, false⟩

/-- One second of `NoMove` from entity 1 with skill 7 runs out; the affect is still listed. -/
def stun : List Label :=
  [.invoke (.buildAffects (some 1) [⟨.ctrl, [1, 0, 0, 1]⟩] 7), .go born, .go born, .go born,
    .go born, .invoke (.update 2000), .go born, .go born]

theorem affects_lifecycle_stun :
    ∃ t, (system 0).Runs Orderly t ∧ t.affects = [0] ∧ t.Lifecycle := by
  have hrun : (((system 0).guarded Orderly).run (new 0) stun).map (·.affects) = some [0] := by
    decide +kernel
  obtain ⟨t, ht, hlist⟩ := Option.map_eq_some_iff.mp hrun
  have hruns : (system 0).Runs Orderly t := System.Runs.of_guarded_run stun .init ht
  exact ⟨t, hruns, hlist, affects_lifecycle 0 hruns⟩

/-- The removal by skill id runs `onExit` of the stun again. -/
theorem stun_exits_twice : ∃ t, (system 0).Reachable t ∧ ¬ t.Lifecycle := by
  have hrun : ((system 0).run (new 0) (stun ++ [.invoke (.removeBySkillId 7), .go born])).map
      (·.affectStateRefs .noMove) = some (-1) := by decide +kernel
  obtain ⟨t, ht, hrefs⟩ := Option.map_eq_some_iff.mp hrun
  refine ⟨t, System.reachable_of_run _ ht, fun h => ?_⟩
  have := h.refs_nonneg .noMove
  omega

end GameServer.Affects.AffectTable
