import GameServer.AffectTable

/-!
# What every step keeps of the table of affects

`Lifecycle` says that `onExit` ran exactly once by the time an affect has left the table, and that
`affectStateRefs` counts the entered and not yet exited affects that hold a state. An affect whose
`onExit` has run stays listed with status `exit` until the next update, and the other paths to
`onExit` do not look at the status, so this holds of the runs whose steps are `Orderly`.
-/

namespace GameServer.Affects

/-- The affect is entered, not exited, and holds the state. -/
def Affect.holds (aff : Affect) (s : AffectState) : Bool :=
  decide (0 < aff.entered) && decide (aff.exited = 0) && aff.control.any fun mask => Names mask s

/-- How the constructors relate kind, class and states held. -/
def Affect.Made (aff : Affect) : Prop :=
  (aff.control.isSome ↔ aff.data.kind.Holding) ∧ aff.data.kind.cls = some aff.cls

theorem Affect.holds_of_none {aff : Affect} {s : AffectState} (h : aff.control = none) :
    aff.holds s = false := by
  simp [Affect.holds, h]

theorem Affect.holds_of_exited {aff : Affect} {s : AffectState} (h : aff.exited = 1) :
    aff.holds s = false := by
  simp [Affect.holds, h]

theorem Affect.Made.getblood {aff : Affect} (h : aff.Made)
    (hcls : aff.cls = .getbloodAffect) : aff.control = none := by
  have hkind : aff.data.kind = .getblood := by
    have hk := h.2
    rw [hcls] at hk
    cases hd : aff.data.kind <;> simp [hd, Kind.cls] at hk ⊢
  rw [← Option.not_isSome_iff_eq_none, h.1, hkind]
  simp [Kind.Holding]

/-- The affect that the frame is about to put into the table. -/
def Removal.adding : Removal → List ℕ
  | .replaceAdd a => [a]
  | .removeById _ | .removeBySkillId _ => []

def Frame.adding : Frame → List ℕ
  | .addAffect a => [a]
  | .sweep why _ | .remove why _ => why.adding
  | _ => []

def Frame.isExiting : Frame → Bool
  | .exiting _ => true
  | _ => false

/-- An affect whose hook is still to call `onExit`. -/
def Frame.later : Frame → List ℕ
  | .exit a | .onExec a => [a]
  | _ => []

/-- The frame of a running `replaceAdd` whose index is within a list of `n` entries. -/
def Frame.InRange (n : ℕ) : Frame → Prop
  | .addAffect _ => True
  | .sweep (.replaceAdd _) i => i ≤ n
  | .remove (.replaceAdd _) i => i < n
  | _ => False

namespace AffectTable

variable {t t' : AffectTable} {a b : ℕ} {s : AffectState}

/-- Affects entered by an `addAffect` that has not yet inserted them. -/
def adding (t : AffectTable) : List ℕ := t.stack.flatMap Frame.adding

/-- The number of affects of a list that hold the state now. -/
def holders (t : AffectTable) (l : List ℕ) (s : AffectState) : ℕ :=
  l.countP fun a => (t.heap a).holds s

structure Lifecycle (t : AffectTable) : Prop where
  exits_once : ∀ a, 0 < (t.heap a).entered → (t.heap a).exited ≤ 1
  left_exited : ∀ a, 0 < (t.heap a).entered → (t.heap a).listed → a ∉ t.affects →
    (t.heap a).exited = 1
  refs_entering : ∀ s, t.affectStateRefs s = t.holders (t.adding ++ t.affects) s
  refs : t.Outside → ∀ s, t.affectStateRefs s = t.holders t.affects s
  refs_nonneg : ∀ s, 0 ≤ t.affectStateRefs s

/-! ## The condition -/

/-- The affect whose `onExit` the step of this frame begins. -/
def exits (t : AffectTable) : Frame → Option ℕ
  | .sweep why (i + 1) => t.affects[i]?.filter (t.selects why)
  | .clear (i + 1) => t.affects[i]?
  | .update dt (i + 1) =>
    t.affects[i]?.filter fun a =>
      let aff := t.heap a
      decide (aff.status = .exec) && decide (aff.cls ≠ .getbloodAffect) &&
        decide (aff.cls.expired (aff.elapse dt))
  | .onExec a => if (t.heap a).cls.expired (t.heap a).clock then some a else none
  | .exit a => some a
  | _ => none

/-- The entries the step of this frame takes out of the table as exited. -/
def drops (t : AffectTable) : Frame → List ℕ
  | .remove _ i => t.affects[i]?.toList
  | .clear 0 => t.affects
  | _ => []

/-- The step raises a Lua error. -/
def fails (t : AffectTable) : Label → Bool
  | .raise => true
  | .go b =>
    match t.stack with
    | [] => false
    | f :: rest =>
      match ({ t with stack := rest } : AffectTable).resume b f with
      | .ok _ => false
      | .error _ => true
  | _ => false

/-- `once`: no path runs the `onExit` of an affect that has exited or is exiting. `dropped`: what a
removal or `clear` takes out has exited. `raised`: no error is raised while an `onExit` is under
way. -/
structure Orderly (t : AffectTable) (l : Label) : Prop where
  once : ∀ f ∈ t.stack.head?, ∀ a ∈ t.exits f,
    (t.heap a).status ≠ .exit ∧ Frame.exiting a ∉ t.stack
  dropped : ∀ f ∈ t.stack.head?, ∀ a ∈ t.drops f, (t.heap a).status = .exit
  raised : t.fails l → ∀ f ∈ t.stack, ¬ f.isExiting

/-! ## The invariant -/

/-- What holds of the objects, the list and the counts between any two steps. -/
structure Core (t : AffectTable) : Prop where
  fresh : ∀ a, t.next ≤ a → t.heap a = blank
  below : ∀ a ∈ t.adding ++ t.affects, a < t.next
  nodup : (t.adding ++ t.affects).Nodup
  entered : ∀ a < t.next, (t.heap a).entered = 1 ∧ (t.heap a).status ≠ .enter
  made : ∀ a < t.next, (t.heap a).Made
  exited : ∀ a, (t.heap a).exited =
    if (t.heap a).status = .exit ∨ Frame.exiting a ∈ t.stack then 1 else 0
  left : ∀ a, (t.heap a).listed → a ∉ t.affects → (t.heap a).exited = 1
  later : ∀ f ∈ t.stack, ∀ a ∈ f.later, a < t.next ∧ (t.heap a).control = none
  refs : ∀ s, t.affectStateRefs s = t.holders (t.adding ++ t.affects) s

/-- No affect being added holds a state. -/
def Steady (t : AffectTable) (st : List Frame) : Prop :=
  ∀ a ∈ st.flatMap Frame.adding, (t.heap a).control = none

/-- An affect that holds a state is added in one go: its frame is on top and its loop in range. -/
def Sweeping (t : AffectTable) : Prop :=
  ∀ f rest, t.stack = f :: rest →
    t.Steady rest ∧ (f.InRange t.affects.length ∨ ∀ a ∈ f.adding, (t.heap a).control = none)

structure Inv (t : AffectTable) : Prop extends Core t where
  sweeping : t.Sweeping

theorem countP_update (heap : ℕ → Affect) {l : List ℕ} (hnd : l.Nodup) (ha : a ∈ l) (aff : Affect)
    (s : AffectState) :
    l.countP (fun b => (Function.update heap a aff b).holds s) + ((heap a).holds s).toNat =
      l.countP (fun b => (heap b).holds s) + (aff.holds s).toNat := by
  have hperm := List.perm_cons_erase ha
  have hnot : a ∉ l.erase a := hnd.not_mem_erase
  have hrest : (l.erase a).countP (fun b => (Function.update heap a aff b).holds s) =
      (l.erase a).countP fun b => (heap b).holds s := by
    refine List.countP_congr (fun b hb => ?_)
    have hba : b ≠ a := fun e => hnot (e ▸ hb)
    rw [Function.update_of_ne hba]
  rw [hperm.countP_eq, hperm.countP_eq, List.countP_cons, List.countP_cons, hrest,
    Function.update_self]
  cases (heap a).holds s <;> cases aff.holds s <;> simp

theorem countP_update_of_eq {heap : ℕ → Affect} {l : List ℕ} {aff : Affect}
    (h : a ∈ l → aff.holds s = (heap a).holds s) :
    l.countP (fun b => (Function.update heap a aff b).holds s) =
      l.countP (fun b => (heap b).holds s) := by
  refine List.countP_congr (fun b hb => ?_)
  by_cases hba : b = a
  · subst hba
    rw [Function.update_self, h hb]
  · rw [Function.update_of_ne hba]

/-- What a change of one object has to keep. -/
theorem Core.update (h : t.Core) {aff : Affect} (ha : a < t.next) (hnext : t'.next = t.next)
    (hheap : t'.heap = Function.update t.heap a aff) (hadding : t'.adding = t.adding)
    (haffects : t'.affects = t.affects) (hdata : aff.data = (t.heap a).data)
    (hcontrol : aff.control = (t.heap a).control) (hcls : aff.cls = (t.heap a).cls)
    (hentered : aff.entered = (t.heap a).entered)
    (hlisted : aff.listed = (t.heap a).listed) (hstatus : aff.status ≠ .enter)
    (hexited : aff.exited =
      if aff.status = .exit ∨ Frame.exiting a ∈ t'.stack then 1 else 0)
    (hmono : (t.heap a).exited ≤ aff.exited)
    (hexiting : ∀ b ≠ a, Frame.exiting b ∈ t'.stack ↔ Frame.exiting b ∈ t.stack)
    (hlater : ∀ f ∈ t'.stack, ∀ b ∈ f.later, f ∈ t.stack ∨ b = a ∧ aff.control = none)
    (hmem : a ∈ t.adding ++ t.affects ∨ ∀ s, aff.holds s = (t.heap a).holds s)
    (hrefs : ∀ s, t'.affectStateRefs s + ((t.heap a).holds s).toNat =
      t.affectStateRefs s + (aff.holds s).toNat) : t'.Core := by
  have hother : ∀ b, b ≠ a → t'.heap b = t.heap b := fun b hb => by
    rw [hheap, Function.update_of_ne hb]
  have hself : t'.heap a = aff := by rw [hheap, Function.update_self]
  constructor
  · intro b hb
    rw [hother b (by omega), h.fresh b (by omega)]
  · rw [hadding, haffects, hnext]
    exact h.below
  · rw [hadding, haffects]
    exact h.nodup
  · intro b hb
    by_cases hba : b = a
    · subst hba
      rw [hself, hentered]
      exact ⟨(h.entered b ha).1, hstatus⟩
    · rw [hother b hba]
      exact h.entered b (hnext ▸ hb)
  · intro b hb
    by_cases hba : b = a
    · subst hba
      rw [hself, Affect.Made, hcontrol, hdata, hcls]
      exact h.made b ha
    · rw [hother b hba]
      exact h.made b (hnext ▸ hb)
  · intro b
    by_cases hba : b = a
    · subst hba
      rw [hself]
      exact hexited
    · rw [hother b hba, h.exited b]
      simp only [hexiting b hba]
  · intro b hl hb
    rw [haffects] at hb
    by_cases hba : b = a
    · subst hba
      rw [hself, hlisted] at hl
      have hold := h.left b hl hb
      have hle : aff.exited ≤ 1 := by
        rw [hexited]
        split <;> omega
      rw [hself]
      omega
    · rw [hother b hba] at hl ⊢
      exact h.left b hl hb
  · intro f hf b hb
    rw [hnext]
    rcases hlater f hf b hb with hold | ⟨rfl, hc⟩
    · obtain ⟨hlt, hc⟩ := h.later f hold b hb
      refine ⟨hlt, ?_⟩
      by_cases hba : b = a
      · subst hba
        rw [hself, hcontrol, hc]
      · rw [hother b hba, hc]
    · exact ⟨ha, hself ▸ hc⟩
  · intro s
    have hs := hrefs s
    have hold := h.refs s
    rw [hadding, haffects]
    unfold holders at hold ⊢
    rw [hheap]
    rcases hmem with hmem | hsame
    · have := countP_update t.heap h.nodup hmem aff s
      omega
    · rw [countP_update_of_eq (fun _ => hsame s), ← hold]
      rw [hsame s] at hs
      omega

theorem Core.holds_eq (h : t.Core) (ha : a < t.next) (hstatus : (t.heap a).status ≠ .exit)
    (hexiting : Frame.exiting a ∉ t.stack) (s : AffectState) :
    (t.heap a).holds s = (t.heap a).control.any fun mask => Names mask s := by
  have he := h.exited a
  rw [if_neg (by simp [hstatus, hexiting])] at he
  simp [Affect.holds, he, (h.entered a ha).1]

theorem Core.exited_eq_zero (h : t.Core) (hstatus : (t.heap a).status ≠ .exit)
    (hexiting : Frame.exiting a ∉ t.stack) : (t.heap a).exited = 0 := by
  rw [h.exited a, if_neg (by simp [hstatus, hexiting])]

/-- What `onExit` does: the object, the counts and the frames it leaves. -/
theorem onExit_cases (t : AffectTable) (a : ℕ) :
    let aff := t.heap a
    let gone := { aff with exited := aff.exited + 1, status := .exit }
    (∃ mask, aff.control = some mask ∧ t.onExit a =
      { t with
        heap := Function.update t.heap a gone
        affectStateRefs := fun s =>
          if Names mask s then t.affectStateRefs s + -1 else t.affectStateRefs s }) ∨
    (aff.control = none ∧ t.onExit a =
      { t with
        heap := Function.update t.heap a { aff with exited := aff.exited + 1 }
        stack := .call :: .exiting a :: t.stack }) ∨
    (aff.control = none ∧ ∃ fs, fs ⊆ [Frame.call] ∧
      t.onExit a = { t with heap := Function.update t.heap a gone, stack := fs ++ t.stack }) := by
  cases hc : (t.heap a).control with
  | some mask =>
      left
      exact ⟨mask, hc, by simp [AffectTable.onExit, hc, setStatus, put, addAffectState]⟩
  | none =>
      right
      cases hl : (t.heap a).cls.onExitLeaves with
      | before => exact .inl ⟨hc, by simp [AffectTable.onExit, hc, hl, put, push]⟩
      | never =>
          exact .inr ⟨hc, [], by simp, by simp [AffectTable.onExit, hc, hl, setStatus, put]⟩
      | after =>
          exact .inr ⟨hc, [.call], by simp,
            by simp [AffectTable.onExit, hc, hl, setStatus, put, push]⟩

theorem Core.onExit (h : t.Core) (ha : a < t.next) (hstatus : (t.heap a).status ≠ .exit)
    (hexiting : Frame.exiting a ∉ t.stack)
    (hmem : (t.heap a).control ≠ none → a ∈ t.adding ++ t.affects) : (t.onExit a).Core := by
  have hzero := h.exited_eq_zero hstatus hexiting
  have hholds := h.holds_eq ha hstatus hexiting
  have hold := h.entered a ha
  rcases onExit_cases t a with ⟨mask, hc, heq⟩ | ⟨hc, heq⟩ | ⟨hc, fs, hfs, heq⟩
  · rw [heq]
    refine h.update ha rfl rfl rfl rfl rfl rfl rfl rfl rfl (by simp) (by simp [hzero]) (by simp)
      (fun _ _ => Iff.rfl) (fun f hf _ _ => .inl hf) (.inl (hmem (by simp [hc]))) (fun s => ?_)
    rw [hholds s, hc]
    by_cases hn : Names mask s <;> simp [hn, Affect.holds]
  · rw [heq]
    refine h.update ha rfl rfl ?_ rfl rfl rfl rfl rfl rfl hold.2 (by simp [hzero]) (by simp)
      (fun b hb => by simp [hb]) (fun f hf b hb => ?_) (.inr fun s => ?_) (fun s => ?_)
    · simp [adding, Frame.adding]
    · rcases List.mem_cons.mp hf with rfl | hf
      · simp [Frame.later] at hb
      · rcases List.mem_cons.mp hf with rfl | hf
        · simp [Frame.later] at hb
        · exact .inl hf
    · simp only [Affect.holds_of_none, hc]
    · simp only [Affect.holds_of_none, hc]
  · have hcall : ∀ f ∈ fs, f = .call := fun f hf => List.mem_singleton.mp (hfs hf)
    rw [heq]
    refine h.update ha rfl rfl ?_ rfl rfl rfl rfl rfl rfl (by simp) (by simp [hzero]) (by simp)
      (fun b hb => ?_) (fun f hf b hb => ?_) (.inr fun s => ?_) (fun s => ?_)
    · have hnil : fs.flatMap Frame.adding = [] :=
        List.flatMap_eq_nil_iff.mpr fun f hf => by simp [hcall f hf, Frame.adding]
      simp [adding, List.flatMap_append, hnil]
    · have hno : Frame.exiting b ∉ fs := fun hf => by simpa using hcall _ hf
      simp [List.mem_append, hno]
    · rcases List.mem_append.mp hf with hf | hf
      · simp [hcall f hf, Frame.later] at hb
      · exact .inl hf
    · simp only [Affect.holds_of_none, hc]
    · simp only [Affect.holds_of_none, hc]

/-- Frames may change as long as they add and exit the same affects. -/
theorem Core.restack (h : t.Core) {st : List Frame} (hadding : st.flatMap Frame.adding = t.adding)
    (hexiting : ∀ b, Frame.exiting b ∈ st ↔ Frame.exiting b ∈ t.stack)
    (hlater : ∀ f ∈ st, ∀ b ∈ f.later,
      f ∈ t.stack ∨ b < t.next ∧ (t.heap b).control = none) :
    ({ t with stack := st } : AffectTable).Core where
  fresh := h.fresh
  below := by
    simp only [adding, hadding]
    exact h.below
  nodup := by
    simp only [adding, hadding]
    exact h.nodup
  entered := h.entered
  made := h.made
  exited := fun b => by
    simp only [hexiting b]
    exact h.exited b
  left := h.left
  later := fun f hf b hb => by
    rcases hlater f hf b hb with hold | hnew
    · exact h.later f hold b hb
    · exact hnew
  refs := fun s => by
    simp only [adding, hadding]
    exact h.refs s

theorem Core.exited_one (h : t.Core) (hstatus : (t.heap a).status = .exit) :
    (t.heap a).exited = 1 := by
  rw [h.exited a, if_pos (.inl hstatus)]

theorem Core.drop (h : t.Core) {l : List ℕ} (gone : List ℕ) (hperm : t.affects.Perm (gone ++ l))
    (hgone : ∀ a ∈ gone, (t.heap a).status = .exit) :
    ({ t with affects := l } : AffectTable).Core := by
  have hwhole : (t.adding ++ t.affects).Perm (gone ++ (t.adding ++ l)) := by
    refine (List.Perm.append_left _ hperm).trans ?_
    rw [← List.append_assoc, ← List.append_assoc]
    exact List.perm_append_comm.append_right l
  refine ⟨h.fresh, fun b hb => ?_, ?_, h.entered, h.made, h.exited, fun b hl hb => ?_, h.later,
    fun s => ?_⟩
  · exact h.below b (hwhole.mem_iff.mpr (List.mem_append_right _ hb))
  · exact (List.nodup_append.mp (hwhole.nodup_iff.mp h.nodup)).2.1
  · by_cases hmem : b ∈ t.affects
    · rcases List.mem_append.mp (hperm.mem_iff.mp hmem) with hg | hl
      · exact h.exited_one (hgone b hg)
      · exact absurd hl hb
    · exact h.left b hl hmem
  · have hs := h.refs s
    rw [holders, hwhole.countP_eq, List.countP_append] at hs
    rw [hs]
    have : gone.countP (fun b => (t.heap b).holds s) = 0 :=
      List.countP_eq_zero.mpr fun b hb => by
        simp [Affect.holds_of_exited (h.exited_one (hgone b hb))]
    simp [this, holders, adding]

theorem Core.clear (h : t.Core) (hexit : ∀ a ∈ t.affects, (t.heap a).status = .exit) :
    ({ t with affects := [] } : AffectTable).Core :=
  h.drop t.affects (by simp) hexit

theorem Core.eraseIdx (h : t.Core) {i : ℕ}
    (hexit : ∀ a, t.affects[i]? = some a → (t.heap a).status = .exit) :
    ({ t with affects := t.affects.eraseIdx i } : AffectTable).Core := by
  by_cases hi : i < t.affects.length
  · refine h.drop [t.affects[i]] (List.getElem_cons_eraseIdx_perm hi).symm
      (fun a ha => ?_)
    rw [List.mem_singleton] at ha
    exact hexit a (ha ▸ List.getElem?_eq_getElem hi)
  · rw [List.eraseIdx_of_length_le (by omega)]
    exact h

theorem Core.abort (h : t.Core) (hsteady : t.Steady t.stack)
    (hexiting : ∀ f ∈ t.stack, ¬ f.isExiting) : t.abort.Core := by
  have hnone : ∀ b, Frame.exiting b ∉ t.stack := fun b hb => hexiting _ hb rfl
  refine ⟨h.fresh, fun b hb => ?_, ?_, h.entered, h.made, fun b => ?_, h.left,
    fun f hf => absurd hf List.not_mem_nil, fun s => ?_⟩
  · exact h.below b (List.mem_append_right _ (by simpa [AffectTable.abort, adding] using hb))
  · simpa [AffectTable.abort, adding] using (List.nodup_append.mp h.nodup).2.1
  · have := h.exited b
    simp only [hnone b, or_false] at this
    simpa [AffectTable.abort] using this
  · have hs := h.refs s
    have : t.adding.countP (fun b => (t.heap b).holds s) = 0 :=
      List.countP_eq_zero.mpr fun b hb => by simp [Affect.holds_of_none (hsteady b hb)]
    rw [holders, List.countP_append, this] at hs
    simpa [AffectTable.abort, adding, holders] using hs

theorem Core.insert (h : t.Core) {rest : List Frame}
    (hstack : t.stack = .sweep (.replaceAdd a) 0 :: rest) :
    (({ t with stack := rest } : AffectTable).finish (.replaceAdd a)).Core := by
  have hadding : t.adding = a :: rest.flatMap Frame.adding := by
    simp [adding, hstack, Frame.adding, Removal.adding]
  have hperm : (t.adding ++ t.affects).Perm (rest.flatMap Frame.adding ++ (t.affects ++ [a])) := by
    rw [hadding, ← List.append_assoc]
    exact (List.perm_append_singleton a _).symm
  have hlt : a < t.next := h.below a (by simp [hadding])
  have hsame : ∀ b, Function.update t.heap a { t.heap a with listed := true } b =
      { t.heap b with listed := if b = a then true else (t.heap b).listed } := fun b => by
    by_cases hba : b = a
    · subst hba
      simp
    · simp [hba]
  constructor
  · intro b hb
    have hba : b ≠ a := by
      have hb' : t.next ≤ b := hb
      omega
    simp only [finish, put, Function.update_of_ne hba]
    exact h.fresh b hb
  · intro b hb
    exact h.below b (hperm.mem_iff.mpr hb)
  · exact hperm.nodup_iff.mp h.nodup
  · intro b hb
    simp only [finish, put, hsame]
    exact h.entered b hb
  · intro b hb
    simp only [finish, put, hsame]
    exact h.made b hb
  · intro b
    simp only [finish, put, hsame]
    rw [h.exited b, hstack]
    simp
  · intro b hl hb
    simp only [finish, put, hsame, List.mem_append, List.mem_singleton, not_or] at hl hb ⊢
    rw [if_neg hb.2] at hl
    exact h.left b hl hb.1
  · intro f hf b hb
    simp only [finish, put, hsame]
    exact h.later f (hstack ▸ List.mem_cons_of_mem _ hf) b hb
  · intro s
    have hs := h.refs s
    rw [holders, hperm.countP_eq] at hs
    simp only [finish, put, holders, hsame]
    exact hs

/-- What `onEnter` does. The object that holds states counts them and leaves no frame. -/
theorem onEnter_eq (t : AffectTable) (a : ℕ) (ownerDead : Bool) :
    let aff := t.heap a
    ∃ fs, t.onEnter a ownerDead =
      { t with
        heap := Function.update t.heap a { aff with status := .exec, entered := aff.entered + 1 }
        affectStateRefs := fun s =>
          t.affectStateRefs s + (aff.control.any fun mask => Names mask s).toNat
        stack := fs ++ t.stack } ∧
      (aff.control ≠ none → fs = []) ∧ ∀ f ∈ fs, f = .call ∨ f = .exit a := by
  cases hc : (t.heap a).control with
  | some mask =>
      refine ⟨[], ?_, fun _ => rfl, by simp⟩
      simp only [AffectTable.onEnter, hc, put, addAffectState, List.nil_append, Option.any_some,
        mk.injEq, true_and, and_true]
      funext s
      by_cases hn : Names mask s <;> simp [hn]
  | none =>
      have hrefs : (fun s => t.affectStateRefs s +
          ((none : Option ℤ).any fun mask => Names mask s).toNat) = t.affectStateRefs := by
        funext s
        simp
      simp only [AffectTable.onEnter, hc, hrefs]
      split
      · split
        · exact ⟨[.call, .exit a], by simp [push, put], by simp, by simp⟩
        · exact ⟨[], by simp [put], by simp, by simp⟩
      · split
        · exact ⟨[.exit a], by simp [push, put], by simp, by simp⟩
        · split
          · exact ⟨[.call], by simp [push, put], by simp, by simp⟩
          · exact ⟨[], by simp [put], by simp, by simp⟩

/-- A new object enters and waits to be inserted, above a frame that is not its own. -/
theorem Core.enter (h : t.Core) {aff : Affect} (hnew : aff.exited = 0 ∧ aff.listed = false)
    (hmade : aff.Made) {fs : List Frame} {g : Frame}
    (hfs : ∀ f ∈ fs, f = .call ∨ f = .exit t.next) (hnone : aff.control ≠ none → fs = [])
    (hadding : g.adding = []) (hlater : g.later = []) (hexit : g.isExiting = false) :
    ({ t with
        next := t.next + 1
        heap := Function.update t.heap t.next { aff with status := .exec, entered := 1 }
        affectStateRefs := fun s =>
          t.affectStateRefs s + (aff.control.any fun mask => Names mask s).toNat
        stack := fs ++ .addAffect t.next :: g :: t.stack } : AffectTable).Core := by
  have hother : ∀ b, b ≠ t.next → Function.update t.heap t.next
      { aff with status := .exec, entered := 1 } b = t.heap b :=
    fun b hb => Function.update_of_ne hb _ _
  have hnil : fs.flatMap Frame.adding = [] :=
    List.flatMap_eq_nil_iff.mpr fun f hf => by
      rcases hfs f hf with rfl | rfl <;> rfl
  have hlist : (fs ++ .addAffect t.next :: g :: t.stack).flatMap Frame.adding ++ t.affects =
      t.next :: (t.adding ++ t.affects) := by
    rw [List.flatMap_append, hnil, List.flatMap_cons, List.flatMap_cons, hadding]
    rfl
  have hnotin : t.next ∉ t.adding ++ t.affects := fun hmem => by
    have := h.below _ hmem
    omega
  have hexiting : ∀ b, Frame.exiting b ∈ fs ++ .addAffect t.next :: g :: t.stack ↔
      Frame.exiting b ∈ t.stack := fun b => by
    have hfree : Frame.exiting b ∉ fs := fun hb => by
      rcases hfs _ hb with hb | hb <;> cases hb
    have hg : Frame.exiting b ≠ g := fun hb => by
      rw [← hb] at hexit
      simp [Frame.isExiting] at hexit
    simp [hfree, hg]
  constructor
  · intro b hb
    have hb' : t.next + 1 ≤ b := hb
    simp only [hother b (by omega)]
    exact h.fresh b (by omega)
  · intro b hb
    change b ∈ List.flatMap Frame.adding _ ++ t.affects at hb
    rw [hlist] at hb
    rcases List.mem_cons.mp hb with rfl | hb
    · exact Nat.lt_succ_self _
    · exact Nat.lt_succ_of_lt (h.below b hb)
  · change (List.flatMap Frame.adding _ ++ t.affects).Nodup
    rw [hlist]
    exact List.nodup_cons.mpr ⟨hnotin, h.nodup⟩
  · intro b hb
    by_cases hbn : b = t.next
    · simp [hbn]
    · have hlt : b < t.next + 1 := hb
      simp only [hother b hbn]
      exact h.entered b (by omega)
  · intro b hb
    by_cases hbn : b = t.next
    · simpa [hbn, Affect.Made] using hmade
    · have hlt : b < t.next + 1 := hb
      simp only [hother b hbn]
      exact h.made b (by omega)
  · intro b
    simp only [hexiting b]
    by_cases hbn : b = t.next
    · have hold := h.exited b
      rw [h.fresh b hbn.ge] at hold
      have hno : Frame.exiting b ∉ t.stack := by
        intro hmem
        simp [hmem, blank] at hold
      rw [hbn] at hno ⊢
      simp [hno, hnew.1]
    · simp only [hother b hbn]
      exact h.exited b
  · intro b hl hb
    by_cases hbn : b = t.next
    · simp [hbn, hnew.2] at hl
    · simp only [hother b hbn] at hl ⊢
      exact h.left b hl hb
  · intro f hf b hb
    rcases List.mem_append.mp hf with hf | hf
    · have hc : aff.control = none := by
        by_contra hsome
        rw [hnone hsome] at hf
        exact absurd hf List.not_mem_nil
      rcases hfs f hf with rfl | rfl
      · simp [Frame.later] at hb
      · rw [Frame.later, List.mem_singleton] at hb
        subst hb
        exact ⟨Nat.lt_succ_self _, by simpa using hc⟩
    · rcases List.mem_cons.mp hf with rfl | hf
      · simp [Frame.later] at hb
      · rcases List.mem_cons.mp hf with rfl | hf
        · simp [hlater] at hb
        · obtain ⟨hlt, hc⟩ := h.later f hf b hb
          simp only [hother b hlt.ne]
          exact ⟨Nat.lt_succ_of_lt hlt, hc⟩
  · intro s
    have hs := h.refs s
    change _ = ((List.countP _ (List.flatMap Frame.adding _ ++ t.affects) : ℕ) : ℤ)
    rw [hlist, List.countP_cons, countP_update_of_eq (fun hmem => absurd hmem hnotin)]
    simp only [hs, holders, Function.update_self, Affect.holds, hnew.1]
    cases hany : aff.control.any fun mask => decide (Names mask s) <;> simp

theorem Core.returned (h : t.Core) (projectids : List ℕ) :
    ({ t with returned := projectids } : AffectTable).Core :=
  ⟨h.fresh, h.below, h.nodup, h.entered, h.made, h.exited, h.left, h.later, h.refs⟩

end AffectTable

end GameServer.Affects
