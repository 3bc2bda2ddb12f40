import GameServer.AffectInvariant

/-!
# One update of the table of affects

`update` walks down the indices that the list had at its start and indexes every one of them. What
its hooks append stays behind it, and so does what they take out at or above its index. Below its
index nothing may go: a removal there moves an entry that it has handled in front of it again, and
`clear` leaves it with indices of nothing. `Ientity:update` is the only caller, and updates of a
room do not overlap, so no update begins within another.
-/

namespace GameServer.Affects

open Transition

/-- The entries that a running update still has ahead. -/
def Frame.ahead : Frame → List ℕ
  | .update _ i => [i]
  | _ => []

/-- A frame that a hook may leave. -/
def Frame.IsHook (f : Frame) : Prop := f.adding = [] ∧ f.ahead = []

namespace AffectTable

variable {t t' : AffectTable} {a b i : ℕ} {f : Frame} {birth : Birth}

/-- The updates under way, by the entries that they have ahead. -/
def ahead (t : AffectTable) : List ℕ := t.stack.flatMap Frame.ahead

/-! ## What a step does to the list -/

theorem flatMap_adding_of_isHook {gs : List Frame} (h : ∀ g ∈ gs, Frame.IsHook g) :
    gs.flatMap Frame.adding = [] := List.flatMap_eq_nil_iff.mpr fun g hg => (h g hg).1

theorem flatMap_ahead_of_isHook {gs : List Frame} (h : ∀ g ∈ gs, Frame.IsHook g) :
    gs.flatMap Frame.ahead = [] := List.flatMap_eq_nil_iff.mpr fun g hg => (h g hg).2

/-- A hook changes an object and leaves frames. -/
structure Hooked (t t' : AffectTable) (gs : List Frame) : Prop where
  affects : t'.affects = t.affects
  next : t'.next = t.next
  stack : t'.stack = gs ++ t.stack
  hooks : ∀ g ∈ gs, Frame.IsHook g

theorem onExit_hooked (t : AffectTable) (a : ℕ) : ∃ gs, Hooked t (t.onExit a) gs := by
  obtain ⟨mask, -, he⟩ | ⟨-, he⟩ | ⟨-, fs, hfs, he⟩ := onExit_cases t a <;> rw [he]
  · exact ⟨[], rfl, rfl, rfl, by simp⟩
  · exact ⟨[.call, .exiting a], rfl, rfl, rfl, by simp [Frame.IsHook, Frame.adding, Frame.ahead]⟩
  · refine ⟨fs, rfl, rfl, rfl, fun g hg => ?_⟩
    rw [List.mem_singleton.mp (hfs hg)]
    exact ⟨rfl, rfl⟩

theorem onEnter_hooked (t : AffectTable) (a : ℕ) (ownerDead : Bool) :
    ∃ gs, Hooked t (t.onEnter a ownerDead) gs := by
  obtain ⟨fs, he, -, hfs⟩ := onEnter_eq t a ownerDead
  rw [he]
  refine ⟨fs, rfl, rfl, rfl, fun g hg => ?_⟩
  rcases hfs g hg with rfl | rfl <;> exact ⟨rfl, rfl⟩

theorem onExec_hooked (t : AffectTable) (a : ℕ) (dt : ℚ) : ∃ gs, Hooked t (t.onExec a dt) gs := by
  unfold onExec
  dsimp only
  split_ifs
  · exact ⟨[.call, .onExec a], rfl, rfl, rfl, by simp [Frame.IsHook, Frame.adding, Frame.ahead]⟩
  · obtain ⟨gs, h⟩ := onExit_hooked (t.setClock a ((t.heap a).elapse dt)) a
    exact ⟨gs, h.affects, h.next, h.stack, h.hooks⟩
  · exact ⟨[.call], rfl, rfl, rfl, by simp [Frame.IsHook, Frame.adding, Frame.ahead]⟩
  · exact ⟨[], rfl, rfl, rfl, by simp⟩
  · exact ⟨[], rfl, rfl, rfl, by simp⟩

/-- What the step of the frame `f` does, once it has been taken from the stack of `t`. -/
inductive Resumed (t t' : AffectTable) (f : Frame) : Prop
  /-- Objects and frames change. -/
  | quiet (gs : List Frame) (haffects : t'.affects = t.affects) (hnext : t'.next = t.next)
      (hstack : t'.stack = gs ++ t.stack) (hadding : gs.flatMap Frame.adding = f.adding)
      (hahead : gs.flatMap Frame.ahead = []) (hf : f.ahead.all (· = 0))
  /-- An affect is made. -/
  | made (gs : List Frame) (haffects : t'.affects = t.affects) (hnext : t'.next = t.next + 1)
      (hstack : t'.stack = gs ++ t.stack) (hadding : gs.flatMap Frame.adding = [t.next])
      (hahead : gs.flatMap Frame.ahead = []) (hf : f.adding = [] ∧ f.ahead = [])
  | insert (a : ℕ) (hf : f = .sweep (.replaceAdd a) 0) (haffects : t'.affects = t.affects ++ [a])
      (hnext : t'.next = t.next) (hstack : t'.stack = t.stack)
  | remove (why : Removal) (i : ℕ) (hf : f = .remove why i)
      (haffects : t'.affects = t.affects.eraseIdx i) (hnext : t'.next = t.next)
      (hstack : t'.stack = .sweep why i :: t.stack)
  | clear (hf : f = .clear 0) (haffects : t'.affects = []) (hnext : t'.next = t.next)
      (hstack : t'.stack = t.stack)
  /-- A pass of the update handles the entry `a`. -/
  | pass (dt : ℚ) (i a : ℕ) (gs : List Frame) (hf : f = .update dt (i + 1))
      (ha : t.affects[i]? = some a) (hnext : t'.next = t.next)
      (haffects : t'.affects = t.affects ∨ t'.affects = t.affects.eraseIdx i)
      (hstack : t'.stack = gs ++ .update dt i :: t.stack) (hhooks : ∀ g ∈ gs, Frame.IsHook g)

theorem Hooked.quiet {u : AffectTable} {gs : List Frame} (h : Hooked u t' gs) (fs : List Frame)
    (haffects : u.affects = t.affects) (hnext : u.next = t.next) (hstack : u.stack = fs ++ t.stack)
    (hadding : fs.flatMap Frame.adding = f.adding) (hahead : fs.flatMap Frame.ahead = [])
    (hf : f.ahead.all (· = 0)) : Resumed t t' f := by
  refine .quiet (gs ++ fs) (h.affects.trans haffects) (h.next.trans hnext) ?_ ?_ ?_ hf
  · rw [h.stack, hstack, List.append_assoc]
  · rw [List.flatMap_append, flatMap_adding_of_isHook h.hooks, List.nil_append, hadding]
  · rw [List.flatMap_append, flatMap_ahead_of_isHook h.hooks, List.nil_append, hahead]

theorem addAffect_resumed {source : Option ℕ} {d : Data} {datas : List Data} {skillId : ℤ}
    {projectids : List ℕ} (h : t.addAffect source d datas skillId projectids birth = .ok t') :
    Resumed t t' (.buildAffects source (d :: datas) skillId projectids) := by
  unfold addAffect at h
  cases hc : d.kind.cls with
  | some c =>
      cases ha : Affect.new t.owner source d c skillId birth with
      | none => simp [hc, ha] at h
      | some aff =>
          simp only [hc, ha, Except.ok.injEq] at h
          subst h
          obtain ⟨gs, hk⟩ := onEnter_hooked
            ((({ t with next := t.next + 1 } : AffectTable).push [.addAffect t.next,
              .buildAffects source datas skillId (projectids ++ [aff.projectId])]).put t.next aff)
            t.next birth.ownerDead
          refine .made (gs ++ [.addAffect t.next,
              .buildAffects source datas skillId (projectids ++ [aff.projectId])])
            hk.affects hk.next ?_ ?_ ?_ ⟨rfl, rfl⟩
          · rw [List.append_assoc]
            exact hk.stack
          · rw [List.flatMap_append, flatMap_adding_of_isHook hk.hooks]
            rfl
          · rw [List.flatMap_append, flatMap_ahead_of_isHook hk.hooks]
            rfl
  | none =>
      simp only [hc] at h
      split_ifs at h
      · cases hsource : source with
        | none => simp [hsource] at h
        | some e =>
            simp only [hsource, Except.ok.injEq] at h
            subst h
            exact .quiet [.call, .buildAffects (some e) datas skillId projectids] rfl rfl rfl
              rfl rfl rfl
      · cases h
        exact .quiet [.buildAffects source datas skillId projectids] rfl rfl rfl rfl rfl rfl

theorem resume_ok (h : t.resume birth f = .ok t') : Resumed t t' f := by
  cases advances_of_resume h with
  | build source d datas skillId projectids t' hadd => exact addAffect_resumed hadd
  | addAffect a =>
      exact .quiet [.sweep (.replaceAdd a) t.affects.length] rfl rfl rfl rfl rfl rfl
  | swept why =>
      cases why with
      | replaceAdd a => exact .insert a rfl rfl rfl rfl
      | removeById id => exact .quiet [] rfl rfl rfl rfl rfl rfl
      | removeBySkillId skillId => exact .quiet [] rfl rfl rfl rfl rfl rfl
  | selected why i b =>
      obtain ⟨gs, hk⟩ := onExit_hooked (t.push [.remove why i]) b
      exact hk.quiet [.remove why i] rfl rfl rfl (by simp [Frame.adding]) rfl rfl
  | skipped why i b => exact .quiet [.sweep why i] rfl rfl rfl (by simp [Frame.adding]) rfl rfl
  | removed why i => exact .remove why i rfl rfl rfl rfl
  | cleared => exact .clear rfl rfl rfl rfl
  | clear i b =>
      obtain ⟨gs, hk⟩ := onExit_hooked (t.push [.clear i]) b
      exact hk.quiet [.clear i] rfl rfl rfl rfl rfl rfl
  | exec dt i a ha =>
      obtain ⟨gs, hk⟩ := onExec_hooked (t.push [.update dt i]) a dt
      exact .pass dt i a gs rfl ha hk.next (.inl hk.affects) hk.stack hk.hooks
  | enter dt i a ha =>
      obtain ⟨gs, hk⟩ := onEnter_hooked (t.push [.update dt i]) a birth.ownerDead
      exact .pass dt i a gs rfl ha hk.next (.inl hk.affects) hk.stack hk.hooks
  | gone dt i a ha => exact .pass dt i a [] rfl ha rfl (.inr rfl) rfl (by simp)
  | expired a | exit a =>
      obtain ⟨gs, hk⟩ := onExit_hooked t a
      exact hk.quiet [] rfl rfl rfl rfl rfl rfl
  | built | updated | lasts a | exiting a | call => exact .quiet [] rfl rfl rfl rfl rfl rfl

/-! ## The list holds every affect once -/

structure Fresh (t : AffectTable) : Prop where
  nodup : (t.adding ++ t.affects).Nodup
  below : ∀ a ∈ t.adding ++ t.affects, a < t.next

theorem Fresh.of_sublist (h : t.Fresh) (hnext : t'.next = t.next)
    (hadding : t'.adding.Sublist t.adding)
    (haffects : t'.affects.Sublist t.affects) : t'.Fresh := by
  have hsub := hadding.append haffects
  exact ⟨h.nodup.sublist hsub, fun a ha => hnext ▸ h.below a (hsub.subset ha)⟩

theorem Fresh.resumed {rest : List Frame} (h : t.Fresh) (hstack : t.stack = f :: rest)
    (hr : Resumed { t with stack := rest } t' f) : t'.Fresh := by
  have hold : t.adding = f.adding ++ rest.flatMap Frame.adding := by simp [adding, hstack]
  obtain ⟨gs, haffects, hnext, hst, hadding, -, -⟩ | ⟨gs, haffects, hnext, hst, hadding, -, hf⟩ |
    ⟨a, hf, haffects, hnext, hst⟩ | ⟨why, i, hf, haffects, hnext, hst⟩ |
    ⟨hf, haffects, hnext, hst⟩ | ⟨dt, i, a, gs, hf, -, hnext, haffects, hst, hhooks⟩ := hr
  · apply h.of_sublist hnext
    · rw [adding, hst, List.flatMap_append, hadding, hold]
    · rw [haffects]
  · have hnew : t'.adding = t.next :: t.adding := by
      rw [adding, hst, List.flatMap_append, hadding, hold, hf.1]
      rfl
    refine ⟨?_, fun b hb => ?_⟩
    · rw [hnew, haffects, List.cons_append]
      exact List.nodup_cons.mpr ⟨fun hm => absurd (h.below _ hm) (lt_irrefl _), h.nodup⟩
    · rw [hnew, haffects, List.cons_append] at hb
      rcases List.mem_cons.mp hb with rfl | hb
      · exact hnext ▸ Nat.lt_succ_self _
      · exact hnext ▸ (h.below b hb).trans (Nat.lt_succ_self _)
  · have hperm : (t'.adding ++ t'.affects).Perm (t.adding ++ t.affects) := by
      rw [adding, hst, haffects, hold, hf]
      change (rest.flatMap Frame.adding ++ (t.affects ++ [a])).Perm
        ([a] ++ rest.flatMap Frame.adding ++ t.affects)
      rw [← List.append_assoc]
      exact (List.perm_append_comm).trans (by rw [List.append_assoc])
    exact ⟨hperm.nodup_iff.mpr h.nodup, fun b hb => hnext ▸ h.below b (hperm.subset hb)⟩
  · apply h.of_sublist hnext
    · rw [adding, hst, hold, hf]
      exact List.Sublist.refl _
    · rw [haffects]
      exact List.eraseIdx_sublist _ _
  · apply h.of_sublist hnext
    · rw [adding, hst, hold]
      exact List.sublist_append_right _ _
    · rw [haffects]
      exact List.nil_sublist _
  · apply h.of_sublist hnext
    · rw [adding, hst, List.flatMap_append, flatMap_adding_of_isHook hhooks, hold, hf]
      exact List.Sublist.refl _
    · rcases haffects with ha | ha <;> rw [ha]
      exact List.eraseIdx_sublist _ _

/-- A step is an operation that begins, control that comes back, an error, or the step of a
frame. -/
inductive Stepped (t t' : AffectTable) : Label → Prop
  | invoke (op : Op) (ht : t' = t.push [op.frame t.affects.length]) : Stepped t t' (.invoke op)
  | ret (rest : List Frame) (hstack : t.stack = .call :: rest)
    (ht : t' = { t with stack := rest }) :
      Stepped t t' .ret
  | raise (ht : t' = t.abort) : Stepped t t' .raise
  | go (birth : Birth) (f : Frame) (rest : List Frame) (hstack : t.stack = f :: rest)
      (hr : Resumed { t with stack := rest } t' f) : Stepped t t' (.go birth)
  | failed (birth : Birth) (f : Frame) (rest : List Frame) (msg : String)
      (hstack : t.stack = f :: rest)
      (he : ({ t with stack := rest } : AffectTable).resume birth f = .error msg)
      (ht : t' = t.abort) : Stepped t t' (.go birth)

theorem step_cases {l : Label} (h : t.step l = some t') : Stepped t t' l := by
  cases l with
  | invoke op =>
      simp only [AffectTable.step] at h
      split at h <;> cases h <;> exact .invoke op rfl
  | ret =>
      simp only [AffectTable.step] at h
      split at h <;> cases h
      exact .ret _ ‹_› rfl
  | raise =>
      simp only [AffectTable.step] at h
      split at h <;> cases h <;> exact .raise rfl
  | go birth =>
      simp only [AffectTable.step] at h
      split at h
      · cases h
      · cases h
      · rename_i f rest _ hstack
        split at h <;> cases h
        · exact .go birth f rest hstack (resume_ok ‹_›)
        · exact .failed birth f rest _ hstack ‹_› rfl

theorem Fresh.step {l : Label} (h : t.Fresh) (hs : t.step l = some t') : t'.Fresh := by
  cases step_cases hs with
  | invoke op ht =>
      subst ht
      refine h.of_sublist rfl ?_ (List.Sublist.refl _)
      cases op <;> exact List.Sublist.refl _
  | ret rest hstack ht =>
      subst ht
      refine h.of_sublist rfl ?_ (List.Sublist.refl _)
      rw [adding, adding, hstack]
      exact List.Sublist.refl _
  | raise ht | failed _ _ _ _ _ _ ht =>
      subst ht
      exact h.of_sublist rfl (List.nil_sublist _) (List.Sublist.refl _)
  | go birth f rest hstack hr => exact h.resumed hstack hr

/-! ## The update and what it handles -/

/-- The table under `Ientity:update`. The rest is history: the entries at the start of the last
update, those that it has handled, and whether an update has indexed a missing entry. -/
structure Tick where
  table : AffectTable
  start : List ℕ
  handled : List ℕ
  missed : Bool

namespace Tick

/-- What the step of the table `w.table` to `t` adds to the history. -/
def note (w : Tick) (l : Label) (t : AffectTable) : Tick :=
  match l, w.table.stack with
  | .invoke (.update _), _ => { w with table := t, start := w.table.affects, handled := [] }
  | .go _, .update _ (i + 1) :: _ =>
    match w.table.affects[i]? with
    | some a => { w with table := t, handled := w.handled ++ [a] }
    | none => { w with table := t, missed := true }
  | _, _ => { w with table := t }

/-- An update begins when none of the table's calls is under way. -/
def step (w : Tick) (l : Label) : Option Tick :=
  match l, w.table.stack with
  | .invoke (.update _), _ :: _ => none
  | _, _ => (w.table.step l).map (w.note l)

def system (owner : ℕ) : System Tick Label where
  init := ⟨.new owner, [], [], false⟩
  step := step

/-- Nothing is taken out in front of an update. -/
def Spares (w : Tick) : Label → Prop
  | .go _ =>
    match w.table.stack with
    | .remove _ j :: _ => ∀ i ∈ w.table.ahead, i ≤ j
    | .clear 0 :: _ => ∀ i ∈ w.table.ahead, i = 0
    | _ => True
  | _ => True

/-- What an update with `i` entries ahead has found and done. -/
structure Running (w : Tick) (i : ℕ) : Prop where
  le : i ≤ w.start.length
  take : w.table.affects.take i = w.start.take i
  handled : w.handled = (w.start.drop i).reverse

structure Safe (w : Tick) : Prop where
  fresh : w.table.Fresh
  found : w.missed = false
  order : w.handled <+: w.start.reverse
  start : w.start.Nodup
  single : w.table.ahead.length ≤ 1
  running : ∀ i ∈ w.table.ahead, w.Running i

variable {w w' : Tick}

theorem take_eraseIdx {l : List ℕ} {i j : ℕ} (h : i ≤ j) : (l.eraseIdx j).take i = l.take i := by
  rw [List.eraseIdx_eq_take_drop_succ, List.take_append, List.take_take, min_eq_left h]
  by_cases hj : j ≤ l.length
  · rw [List.length_take, min_eq_left hj, Nat.sub_eq_zero_of_le h, List.take_zero, List.append_nil]
  · rw [List.drop_eq_nil_of_le (by omega), List.take_nil, List.append_nil]

theorem Running.length_le {i : ℕ} (h : w.Running i) : i ≤ w.table.affects.length := by
  have hlen := congrArg List.length h.take
  rw [List.length_take, List.length_take, min_eq_left h.le] at hlen
  omega

/-- The entry that the next pass handles is the one that was there at the start. -/
theorem Running.getElem? {i : ℕ} (h : w.Running (i + 1)) :
    ∃ a, w.table.affects[i]? = some a ∧ w.start[i]? = some a := by
  have hlt : i < w.start.length := h.le
  have hget : w.table.affects[i]? = w.start[i]? := by
    rw [← List.getElem?_take_of_lt (Nat.lt_succ_self i), h.take,
      List.getElem?_take_of_lt (Nat.lt_succ_self i)]
  exact ⟨w.start[i], hget.trans (List.getElem?_eq_getElem hlt), List.getElem?_eq_getElem hlt⟩

theorem Running.pass {i a : ℕ} {t : AffectTable} (h : w.Running (i + 1))
    (ha : w.table.affects[i]? = some a)
    (ht : t.affects = w.table.affects ∨ t.affects = w.table.affects.eraseIdx i) :
    Running { w with table := t, handled := w.handled ++ [a] } i where
  le := Nat.le_of_succ_le h.le
  take := by
    have htake : t.affects.take i = w.table.affects.take i := by
      rcases ht with ht | ht <;> rw [ht]
      exact take_eraseIdx le_rfl
    have hmin : i ⊓ (i + 1) = i := min_eq_left (Nat.le_succ i)
    have hsub := congrArg (List.take i) h.take
    rw [List.take_take, List.take_take, hmin] at hsub
    exact htake.trans hsub
  handled := by
    obtain ⟨a', ha', hs⟩ := h.getElem?
    obtain rfl : a' = a := Option.some.inj (ha'.symm.trans ha)
    obtain ⟨hlt, hget⟩ := List.getElem?_eq_some_iff.mp hs
    rw [h.handled, List.drop_eq_getElem_cons hlt, hget, List.reverse_cons]

theorem Safe.keep (h : w.Safe) {t : AffectTable} (hfresh : t.Fresh)
    (hahead : t.ahead.Sublist w.table.ahead)
    (htake : ∀ i ∈ t.ahead, i ≤ w.table.affects.length →
      t.affects.take i = w.table.affects.take i) :
    Safe { w with table := t } where
  fresh := hfresh
  found := h.found
  order := h.order
  start := h.start
  single := hahead.length_le.trans h.single
  running i hi := by
    have hrun := h.running i (hahead.subset hi)
    exact ⟨hrun.le, (htake i hi hrun.length_le).trans hrun.take, hrun.handled⟩

theorem Safe.begin (h : w.Safe) {t : AffectTable} {n : ℕ} (hfresh : t.Fresh)
    (haffects : t.affects = w.table.affects) (hahead : t.ahead = [n])
    (hn : n = w.table.affects.length) :
    Safe { w with table := t, start := w.table.affects, handled := [] } where
  fresh := hfresh
  found := h.found
  order := List.nil_prefix
  start := h.fresh.nodup.sublist (List.sublist_append_right _ _)
  single := by simp [hahead]
  running i hi := by
    obtain rfl : i = n := by simpa [hahead] using hi
    exact ⟨hn.le, congrArg (List.take i) haffects, by simp [hn]⟩

theorem note_go {birth : Birth} {rest : List Frame} (hstack : w.table.stack = f :: rest)
    (hf : ∀ dt i, f ≠ .update dt (i + 1)) (t' : AffectTable) :
    w.note (.go birth) t' = { w with table := t' } := by
  unfold note
  rw [hstack]
  cases f with
  | update dt i =>
      cases i with
      | zero => rfl
      | succ i => exact absurd rfl (hf dt i)
  | _ => rfl

/-- One step of a frame, whichever is on top. -/
theorem Safe.resumed (h : w.Safe) {birth : Birth} {rest : List Frame}
    (hok : w.Spares (.go birth)) (hstack : w.table.stack = f :: rest) (hfresh : t'.Fresh)
    (hr : Resumed { w.table with stack := rest } t' f) : (w.note (.go birth) t').Safe := by
  have hold : w.table.ahead = f.ahead ++ rest.flatMap Frame.ahead := by simp [ahead, hstack]
  have hsub : (rest.flatMap Frame.ahead).Sublist w.table.ahead :=
    hold ▸ List.sublist_append_right _ _
  cases hr with
  | quiet gs haffects hnext hst hadding hahead hf =>
      have hnote : ∀ dt i, f ≠ .update dt (i + 1) := by
        rintro dt i rfl
        simp [Frame.ahead] at hf
      have hnew : t'.ahead = rest.flatMap Frame.ahead := by
        rw [ahead, hst, List.flatMap_append, hahead]
        rfl
      rw [note_go hstack hnote]
      exact h.keep hfresh (hnew ▸ hsub) fun i _ _ => by rw [haffects]
  | made gs haffects hnext hst hadding hahead hf =>
      have hnote : ∀ dt i, f ≠ .update dt (i + 1) := by
        rintro dt i rfl
        cases hf.2
      have hnew : t'.ahead = rest.flatMap Frame.ahead := by
        rw [ahead, hst, List.flatMap_append, hahead]
        rfl
      rw [note_go hstack hnote]
      exact h.keep hfresh (hnew ▸ hsub) fun i _ _ => by rw [haffects]
  | insert a hf haffects hnext hst =>
      subst hf
      have hnew : t'.ahead = rest.flatMap Frame.ahead := by rw [ahead, hst]
      rw [note_go hstack nofun]
      refine h.keep hfresh (hnew ▸ hsub) fun i _ hi => ?_
      rw [haffects]
      exact List.take_append_of_le_length hi
  | remove why j hf haffects hnext hst =>
      subst hf
      have hnew : t'.ahead = rest.flatMap Frame.ahead := by
        rw [ahead, hst]
        rfl
      simp only [Spares, hstack] at hok
      rw [note_go hstack nofun]
      refine h.keep hfresh (hnew ▸ hsub) fun i hi _ => ?_
      rw [haffects]
      exact take_eraseIdx (hok i (hsub.subset (hnew ▸ hi)))
  | clear hf haffects hnext hst =>
      subst hf
      have hnew : t'.ahead = rest.flatMap Frame.ahead := by rw [ahead, hst]
      simp only [Spares, hstack] at hok
      rw [note_go hstack nofun]
      refine h.keep hfresh (hnew ▸ hsub) fun i hi _ => ?_
      rw [hok i (hsub.subset (hnew ▸ hi)), List.take_zero, List.take_zero]
  | pass dt i a gs hf ha hnext haffects hst hhooks =>
      subst hf
      have hrest : rest.flatMap Frame.ahead = [] := by
        have hsingle := h.single
        rw [hold, List.length_append] at hsingle
        exact List.length_eq_zero_iff.mp (Nat.le_zero.mp (Nat.le_of_add_le_add_left hsingle))
      have hnew : t'.ahead = [i] := by
        rw [ahead, hst, List.flatMap_append, flatMap_ahead_of_isHook hhooks]
        simp [Frame.ahead, hrest]
      have hrun : w.Running (i + 1) := h.running _ (by simp [hold, Frame.ahead])
      have ha' : w.table.affects[i]? = some a := ha
      have hpass := hrun.pass ha' haffects
      simp only [note, hstack, ha']
      refine ⟨hfresh, h.found, ?_, h.start, by simp [hnew], fun j hj => ?_⟩
      · rw [hpass.handled, List.reverse_prefix]
        exact List.drop_suffix _ _
      · obtain rfl : j = i := by simpa [hnew] using hj
        exact hpass

theorem Safe.step (h : w.Safe) {l : Label} (hok : w.Spares l) (hs : w.step l = some w') :
    w'.Safe := by
  have hmap : ∃ t, w.table.step l = some t ∧ w' = w.note l t ∧
      ∀ dt, l = .invoke (.update dt) → w.table.stack = [] := by
    unfold Tick.step at hs
    split at hs
    · cases hs
    · rename_i hne
      obtain ⟨t, ht, rfl⟩ := Option.map_eq_some_iff.mp hs
      refine ⟨t, ht, rfl, fun dt hl => ?_⟩
      cases hstack : w.table.stack with
      | nil => rfl
      | cons g rest => exact (hne dt g rest hl hstack).elim
  obtain ⟨t, ht, rfl, hfirst⟩ := hmap
  have hfresh : t.Fresh := h.fresh.step ht
  cases step_cases ht with
  | invoke op hpush =>
      subst hpush
      cases op with
      | update dt =>
          refine h.begin hfresh rfl ?_ rfl
          simp [ahead, push, hfirst dt rfl, Op.frame, Frame.ahead]
      | _ => exact h.keep hfresh (List.Sublist.refl _) fun _ _ _ => rfl
  | ret rest hstack hret =>
      subst hret
      refine h.keep hfresh ?_ fun _ _ _ => rfl
      rw [ahead, ahead, hstack]
      exact List.Sublist.refl _
  | raise habort =>
      subst habort
      exact h.keep hfresh (List.nil_sublist _) fun _ _ _ => rfl
  | go birth f rest hstack hr => exact h.resumed hok hstack hfresh hr
  | failed birth f rest msg hstack he habort =>
      subst habort
      have hnote : ∀ dt i, f ≠ .update dt (i + 1) := by
        rintro dt i rfl
        -- the entry is there, so that the pass of an update raises no error
        have hrun : w.Running (i + 1) := h.running _ (by simp [ahead, hstack, Frame.ahead])
        obtain ⟨a, ha, -⟩ := hrun.getElem?
        simp only [resume, ha] at he
        split at he <;> cases he
      rw [note_go hstack hnote]
      exact h.keep hfresh (List.nil_sublist _) fun _ _ _ => rfl

/-- In every run in which nothing is taken out in front of an update, no update indexes a missing
entry, and each handles the entries that it began with, from the last on, at most once. -/
theorem update_once (owner : ℕ) (h : (system owner).Runs Spares w) :
    w.missed = false ∧ w.handled.Nodup ∧ w.handled <+: w.start.reverse := by
  have hinit : Safe (system owner).init :=
    ⟨⟨List.nodup_nil, by simp [system, adding, AffectTable.new]⟩, rfl, List.nil_prefix,
      List.nodup_nil,
      by simp [system, ahead, AffectTable.new], by simp [system, ahead, AffectTable.new]⟩
  have hsafe : w.Safe := h.invariant hinit fun _ _ _ hs hok hstep => hs.step hok hstep
  exact ⟨hsafe.found, (List.nodup_reverse.mpr hsafe.start).sublist hsafe.order.sublist, hsafe.order⟩

instance (w : Tick) (l : Label) : Decidable (w.Spares l) := by
  unfold Spares
  split
  · split <;> infer_instance
  · infer_instance

def plain : Birth := ⟨1, 0, false⟩

/-- A stun of skill 8, and behind it a damage of skill 7 that ticks every second for ten seconds. -/
def stunned : List Label :=
  [.invoke (.buildAffects (some 1) [⟨.ctrl, [1, 0, 0, 10]⟩] 8), .go plain, .go plain, .go plain,
    .go plain, .invoke (.buildAffects (some 1) [⟨.damage, [0, 1, 30, 1, 10]⟩] 7), .go plain,
    .go plain, .go plain, .go plain, .go plain]

/-- The first pass of an update leaves for `calAffect`. -/
def hit : List Label := [.invoke (.update 30), .go plain]

theorem update_once_stunned :
    ∃ w, (system 0).Runs Spares w ∧ w.start = [0, 1] ∧ w.handled = [1, 0] ∧ w.missed = false := by
  have hrun : (((system 0).guarded Spares).run (system 0).init
      (stunned ++ hit ++ [.ret, .go plain, .go plain])).map (fun w => (w.start, w.handled))
        = some ([0, 1], [1, 0]) := by decide +kernel
  obtain ⟨w, hw, hpair⟩ := Option.map_eq_some_iff.mp hrun
  obtain ⟨hstart, hhandled⟩ := Prod.mk.inj hpair
  have hruns : (system 0).Runs Spares w := System.Runs.of_guarded_run _ .init hw
  exact ⟨w, hruns, hstart, hhandled, (update_once 0 hruns).1⟩

/-- The damage kills and `onDead` clears the table; or it leads to the removal of skill 8. -/
theorem update_not_once :
    (∃ w, (system 0).Reachable w ∧ w.missed = true) ∧
    (∃ w, (system 0).Reachable w ∧ w.start = [0, 1] ∧ w.handled = [1, 1]) := by
  have hclear : ((system 0).run (system 0).init (stunned ++ hit ++
      [.invoke .clear, .go plain, .go plain, .go plain, .ret, .go plain])).map Tick.missed
        = some true := by decide +kernel
  have hremove : ((system 0).run (system 0).init (stunned ++ hit ++
      [.invoke (.removeBySkillId 8), .go plain, .go plain, .go plain, .go plain, .ret,
        .go plain])).map
        (fun w => (w.start, w.handled)) = some ([0, 1], [1, 1]) := by decide +kernel
  constructor
  · obtain ⟨w, hw, hmissed⟩ := Option.map_eq_some_iff.mp hclear
    exact ⟨w, System.reachable_of_run _ hw, hmissed⟩
  · obtain ⟨w, hw, hpair⟩ := Option.map_eq_some_iff.mp hremove
    exact ⟨w, System.reachable_of_run _ hw, (Prod.mk.inj hpair).1, (Prod.mk.inj hpair).2⟩

end Tick

end AffectTable

end GameServer.Affects
