import Mathlib.Tactic
import GameServer.SaveThreadRows

/-!
# The answer of `saveall`

An `addevent` call that returned is covered by a completed statement, by a pending event or by the
event the saver holds; the poll of `saveall` does not see the last of the three. The number of an
event is the call that put it into the queue.
-/

namespace GameServer.SaveThread

open SaveQueue FormatSql Transition

variable {load : Evaluate} {redis : Record → Option Fields} {row : Record → Option String}
variable {s t : State} {refs : List ℕ} {pending : List Event}

/-- The saver holds an event of record `r`. -/
def Holds (s : State) (r : Record) : Prop := ∃ cmd, s.saver.cmd? = some cmd ∧ cmd.record = r

/-- Every `addevent` call is covered by a completed statement, by a pending event that was put into
the queue no later, or by the event the saver holds. -/
structure Tracked (s : State) (pending : List Event) : Prop where
  alive : s.saver ≠ .dead
  added : ∀ n r, s.added[n]? = some r → n < s.saved r ∨
    (r ∈ pending.map Event.record ∧ s.since r ≤ n) ∨ (Holds s r ∧ s.popSince ≤ n ∧ n < s.popMark)
  held : ∀ r, Holds s r →
    s.added[s.popSince]? = some r ∧ s.saved r ≤ s.popSince ∧ s.popSince < s.popMark
  waiting : ∀ r ∈ pending.map Event.record, s.added[s.since r]? = some r
  waiting_free : ∀ r ∈ pending.map Event.record, ¬ Holds s r → s.saved r ≤ s.since r
  waiting_held : ∀ r ∈ pending.map Event.record, Holds s r → s.popMark ≤ s.since r
  saved_le : ∀ r, s.saved r ≤ s.added.length
  popMark_le : s.popMark ≤ s.added.length

namespace Tracked

/-- Only what the saver holds, the calls and their numbers matter. -/
theorem congr (h : Tracked s pending) (halive : t.saver ≠ .dead)
    (hcmd : t.saver.cmd? = s.saver.cmd?) (hadded : t.added = s.added) (hsaved : t.saved = s.saved)
    (hsince : t.since = s.since) (hps : t.popSince = s.popSince) (hpm : t.popMark = s.popMark) :
    Tracked t pending := by
  have hholds : ∀ r, Holds t r ↔ Holds s r := fun r => by rw [Holds, Holds, hcmd]
  exact {
    alive := halive
    added := by simpa only [hholds, hadded, hsaved, hsince, hps, hpm] using h.added
    held := by simpa only [hholds, hadded, hsaved, hsince, hps, hpm] using h.held
    waiting := by simpa only [hadded, hsince] using h.waiting
    waiting_free := by simpa only [hholds, hsaved, hsince] using h.waiting_free
    waiting_held := by simpa only [hholds, hsince, hpm] using h.waiting_held
    saved_le := by simpa only [hsaved, hadded] using h.saved_le
    popMark_le := by simpa only [hpm, hadded] using h.popMark_le }

theorem pushed_of_waiting (href : Refines s.dbcmd refs pending) (r : Record) {r' : Record}
    (hr' : r' ∈ pending.map Event.record) : s.pushed r r' = s.since r' := by
  rw [State.pushed]
  split_ifs with hop
  · rw [Function.update_of_ne]
    rintro rfl
    exact href.opevent_none.mp hop hr'
  · rfl

/-- A new record gets the number of this call. -/
theorem pushed_cases (href : Refines s.dbcmd refs pending) (r : Record) {type : EventType}
    {r' : Record} (hr' : r' ∈ (addPending pending ⟨r.1, r.2, type⟩).map Event.record) :
    (r' ∈ pending.map Event.record ∧ s.pushed r r' = s.since r') ∨
      (r' = r ∧ s.pushed r r' = s.added.length) := by
  by_cases hp : r' ∈ pending.map Event.record
  · exact .inl ⟨hp, pushed_of_waiting href r hp⟩
  · obtain rfl : r' = r := ((mem_addPending_records _ _ _).mp hr').resolve_right hp
    refine .inr ⟨rfl, ?_⟩
    rw [State.pushed, if_pos (href.opevent_none.mpr hp), Function.update_self]

theorem addevent (h : Tracked s pending) (href : Refines s.dbcmd refs pending) (r : Record)
    (type : EventType) (dbcmd : Dbcmd) (updates : List (Record × EventType)) :
    Tracked { s with dbcmd, updates, since := s.pushed r, added := s.added ++ [r] }
      (addPending pending ⟨r.1, r.2, type⟩) := by
  have hmem : ∀ r', r' ∈ (addPending pending ⟨r.1, r.2, type⟩).map Event.record ↔
      r' = r ∨ r' ∈ pending.map Event.record := fun r' => mem_addPending_records _ _ _
  have hnew : (s.added ++ [r])[s.added.length]? = some r := by simp
  have hold : ∀ {n : ℕ} {r' : Record}, s.added[n]? = some r' → (s.added ++ [r])[n]? = some r' := by
    intro n r' hn
    rw [List.getElem?_append_left (List.getElem?_eq_some_iff.mp hn).1]
    exact hn
  refine { alive := h.alive, added := ?_, held := ?_, waiting := ?_, waiting_free := ?_,
           waiting_held := ?_, saved_le := ?_, popMark_le := ?_ }
  · intro n r' hn
    dsimp only at hn ⊢
    rcases Nat.lt_or_ge n s.added.length with hlt | hge
    · rw [List.getElem?_append_left hlt] at hn
      rcases h.added n r' hn with hc | ⟨hr', hc⟩ | hc
      · exact Or.inl hc
      · exact Or.inr (Or.inl ⟨(hmem r').mpr (Or.inr hr'),
          (pushed_of_waiting href r hr').trans_le hc⟩)
      · exact Or.inr (Or.inr hc)
    · have hlen := (List.getElem?_eq_some_iff.mp hn).1
      rw [List.length_append, List.length_singleton] at hlen
      have hn' : n = s.added.length := by omega
      rw [hn', hnew, Option.some.injEq] at hn
      subst hn
      have hr := (hmem r).mpr (Or.inl rfl)
      refine Or.inr (Or.inl ⟨hr, ?_⟩)
      rcases pushed_cases href r hr with ⟨hp, heq⟩ | ⟨-, heq⟩
      · have := (List.getElem?_eq_some_iff.mp (h.waiting r hp)).1
        rw [heq]
        omega
      · rw [heq]
        exact hge
  · intro r' hr'
    obtain ⟨h₁, h₂, h₃⟩ := h.held r' hr'
    exact ⟨hold h₁, h₂, h₃⟩
  · intro r' hr'
    dsimp only
    rcases pushed_cases href r hr' with ⟨hp, heq⟩ | ⟨rfl, heq⟩
    · rw [heq]
      exact hold (h.waiting r' hp)
    · rw [heq]
      exact hnew
  · intro r' hr' hfree
    dsimp only
    rcases pushed_cases href r hr' with ⟨hp, heq⟩ | ⟨-, heq⟩
    · rw [heq]
      exact h.waiting_free r' hp hfree
    · rw [heq]
      exact h.saved_le r'
  · intro r' hr' hheld
    dsimp only
    rcases pushed_cases href r hr' with ⟨hp, heq⟩ | ⟨-, heq⟩
    · rw [heq]
      exact h.waiting_held r' hp hheld
    · rw [heq]
      exact h.popMark_le
  · intro r'
    have := h.saved_le r'
    simp only [List.length_append, List.length_singleton]
    omega
  · have := h.popMark_le
    simp only [List.length_append, List.length_singleton]
    omega

theorem not_holds_sleeping (hs : s.saver = .sleeping) (r : Record) : ¬ Holds s r := by
  rintro ⟨cmd, hcmd, -⟩
  rw [hs] at hcmd
  cases hcmd

theorem take {cmd : Event} {rest : List Event} (h : Tracked s (cmd :: rest))
    (hnodup : ((cmd :: rest).map Event.record).Nodup) (hs : s.saver = .sleeping) (dbcmd : Dbcmd)
    (left : ℕ) : Tracked (s.take dbcmd cmd left) rest := by
  have hholds : ∀ r, Holds (s.take dbcmd cmd left) r ↔ cmd.record = r := by
    intro r
    rw [Holds, take_cmd?]
    simp
  have hmem : cmd.record ∈ (cmd :: rest).map Event.record := by simp
  have hrest : ∀ r ∈ rest.map Event.record, r ∈ (cmd :: rest).map Event.record ∧
      cmd.record ≠ r := by
    intro r hr
    rw [List.map_cons, List.nodup_cons] at hnodup
    exact ⟨List.mem_cons_of_mem _ hr, fun heq => hnodup.1 (heq ▸ hr)⟩
  have hcmd := h.waiting _ hmem
  refine { alive := take_ne_dead s dbcmd cmd left, added := ?_, held := ?_, waiting := ?_,
           waiting_free := ?_, waiting_held := ?_, saved_le := h.saved_le, popMark_le := le_rfl }
  · intro n r hn
    have hlen : n < s.added.length := (List.getElem?_eq_some_iff.mp hn).1
    rcases h.added n r hn with hc | ⟨hr, hc⟩ | ⟨hc, -⟩
    · exact Or.inl hc
    · rw [List.map_cons, List.mem_cons] at hr
      rcases hr with rfl | hr
      · exact Or.inr (Or.inr ⟨(hholds _).mpr rfl, hc, hlen⟩)
      · exact Or.inr (Or.inl ⟨hr, hc⟩)
    · exact absurd hc (not_holds_sleeping hs r)
  · intro r hr
    rw [hholds] at hr
    subst hr
    exact ⟨hcmd, h.waiting_free _ hmem (not_holds_sleeping hs _),
      (List.getElem?_eq_some_iff.mp hcmd).1⟩
  · exact fun r hr => h.waiting r (hrest r hr).1
  · exact fun r hr _ => h.waiting_free r (hrest r hr).1 (not_holds_sleeping hs r)
  · exact fun r hr hheld => absurd ((hholds r).mp hheld) (hrest r hr).2

theorem save (h : Tracked s pending) {cmd : Event} {left : ℕ} {stmt : Statement}
    (hs : s.saver = .querying cmd stmt left) : Tracked (s.save cmd.record stmt) pending := by
  have hholds : ∀ r, Holds s r ↔ cmd.record = r := fun r => by simp [Holds, hs, Saver.cmd?]
  have hsaved : ∀ r, (s.save cmd.record stmt).saved r =
      if r = cmd.record then s.popMark else s.saved r := fun r => Function.update_apply _ _ _ _
  have hfree : ∀ r, ¬ Holds (s.save cmd.record stmt) r := fun r => not_holds_sleeping rfl r
  refine { alive := by simp [State.save], added := ?_, held := ?_, waiting := h.waiting,
           waiting_free := ?_, waiting_held := ?_, saved_le := ?_, popMark_le := h.popMark_le }
  · intro n r hn
    rw [hsaved]
    rcases h.added n r hn with hc | hc | ⟨hr, -, hc⟩
    · left
      split_ifs with heq
      · subst heq
        have := h.held _ ((hholds _).mpr rfl)
        omega
      · exact hc
    · exact Or.inr (Or.inl hc)
    · exact Or.inl (by rw [if_pos ((hholds r).mp hr).symm]; exact hc)
  · exact fun r hr => absurd hr (hfree r)
  · intro r hr _
    rw [hsaved]
    split_ifs with heq
    · exact h.waiting_held r hr ((hholds r).mpr heq.symm)
    · exact h.waiting_free r hr (fun hheld => heq ((hholds r).mp hheld).symm)
  · exact fun r _ hheld => absurd hheld (hfree r)
  · intro r
    rw [hsaved]
    split_ifs
    · exact h.popMark_le
    · exact h.saved_le r

theorem round (h : Tracked s pending) (hs : s.saver = .sleeping)
    (href : Refines s.dbcmd refs pending) (left : ℕ) :
    ∃ refs' pending', Refines (s.round left).dbcmd refs' pending' ∧
      Tracked (s.round left) pending' := by
  rcases round_cases href left with hr | ⟨cmd, rest, left', dbcmd, refs', rfl, href', hr⟩
  · rw [hr]
    exact ⟨refs, pending, href, h.congr (by simp) (by rw [hs]) rfl rfl rfl rfl rfl⟩
  · rw [hr]
    exact ⟨refs', rest, href', h.take href.records_nodup hs dbcmd left'⟩

end Tracked

theorem tracked_step {l : Label} (href : Refines s.dbcmd refs pending) (h : Tracked s pending)
    (hok : SaveOk load s l) (hst : step load s l = some t) :
    ∃ refs' pending', Refines t.dbcmd refs' pending' ∧ Tracked t pending' := by
  obtain ⟨hsucc, hwrit⟩ := hok
  cases l with
  | update r type =>
      cases hst
      exact ⟨refs, pending, href, h.congr h.alive rfl rfl rfl rfl rfl rfl⟩
  | write r unit =>
      simp only [step] at hst
      split_ifs at hst with hr
      cases hst
      exact ⟨refs, pending, href, h.congr (written_ne_dead r h.alive) (written_cmd? r _)
        rfl rfl rfl rfl rfl⟩
  | addevent r type =>
      simp only [step] at hst
      split_ifs at hst with hr
      cases hst
      obtain ⟨refs', href'⟩ := href.addevent ⟨r.1, r.2, type⟩
      exact ⟨refs', _, href', h.addevent href r type _ _⟩
  | wake =>
      simp only [step] at hst
      split_ifs at hst with hs
      cases hst
      exact h.round hs href _
  | loaded reply =>
      simp only [step] at hst
      cases hs : s.saver with
      | loading cmd left clean =>
          rw [hs] at hst
          cases reply with
          | none => exact absurd rfl hsucc
          | some unit =>
              cases hsql : formatsql load cmd.key cmd.table (s.unit cmd.record clean unit) with
              | none =>
                  have := (formatsql_isSome load cmd.key _ _).mpr (hwrit cmd left clean hs)
                  rw [hsql] at this
                  cases this
              | some sql =>
                  simp only [hsql, Option.some.injEq] at hst
                  subst hst
                  exact ⟨refs, pending, href, h.congr (by simp) (by rw [hs]; rfl)
                    rfl rfl rfl rfl rfl⟩
      | _ => rw [hs] at hst; cases hst
  | queried reply =>
      simp only [step] at hst
      cases hs : s.saver with
      | querying cmd stmt left =>
          have hreply : reply = .ok := hsucc
          rw [hs, hreply] at hst
          cases hst
          exact (h.save hs).round rfl href left
      | _ => rw [hs] at hst; cases hst
  | saveall =>
      cases hst
      exact ⟨refs, pending, href, h.congr h.alive rfl rfl rfl rfl rfl rfl⟩
  | poll i =>
      simp only [step] at hst
      cases hp : s.polls[i]? with
      | none => rw [hp] at hst; cases hst
      | some mark =>
          rw [hp] at hst
          dsimp only at hst
          split_ifs at hst <;> cases hst
          · exact ⟨refs, pending, href, h.congr h.alive rfl rfl rfl rfl rfl rfl⟩
          · exact ⟨refs, pending, href, h⟩

theorem tracked_runs (hs : (saveThread load redis row).Runs (SaveOk load) s) :
    ∃ refs pending, Refines s.dbcmd refs pending ∧ Tracked s pending := by
  refine System.Runs.invariant (P := fun s => ∃ refs pending, Refines s.dbcmd refs pending ∧
    Tracked s pending) ?_ (fun s l t hP hok hst => ?_) hs
  · refine ⟨[], [], .empty, ?_⟩
    have hfree : ∀ r, ¬ Holds (saveThread load redis row).init r :=
      Tracked.not_holds_sleeping rfl
    exact {
      alive := by simp [saveThread]
      added := fun n r hn => by simp [saveThread] at hn
      held := fun r hr => absurd hr (hfree r)
      waiting := fun r hr => by cases hr
      waiting_free := fun r hr => by cases hr
      waiting_held := fun r hr => by cases hr
      saved_le := fun _ => le_rfl
      popMark_le := le_rfl }
  · obtain ⟨refs, pending, href, h⟩ := hP
    exact tracked_step href h hok hst

/-- With the queue empty, the calls before `mark` are completed unless the saver still holds an
event from before it. -/
theorem Tracked.completed_iff (h : Tracked s []) {mark : ℕ} (hmark : mark ≤ s.added.length) :
    (∀ n < mark, Completed s n) ↔ ¬ HoldsBefore s mark := by
  constructor
  · rintro hall ⟨hcmd, hlt⟩
    obtain ⟨cmd, hcmd⟩ := Option.ne_none_iff_exists'.mp hcmd
    obtain ⟨hadd, hle, -⟩ := h.held cmd.record ⟨cmd, hcmd, rfl⟩
    obtain ⟨r, hr, hn⟩ := hall _ hlt
    rw [hadd, Option.some.injEq] at hr
    subst hr
    omega
  · intro hnot n hn
    have hlen : n < s.added.length := by omega
    refine ⟨s.added[n], List.getElem?_eq_getElem hlen, ?_⟩
    rcases h.added n _ (List.getElem?_eq_getElem hlen) with hc | ⟨hr, -⟩ | ⟨⟨cmd, hcmd, -⟩, hc, -⟩
    · exact hc
    · cases hr
    · exact absurd ⟨by rw [hcmd]; simp, by omega⟩ hnot

@[simp] theorem round_saved (s : State) (left : ℕ) : (s.round left).saved = s.saved := by
  cases left with
  | zero => rfl
  | succ left => rw [State.round]; split <;> rfl

@[simp] theorem round_added (s : State) (left : ℕ) : (s.round left).added = s.added := by
  cases left with
  | zero => rfl
  | succ left => rw [State.round]; split <;> rfl

@[simp] theorem round_polls (s : State) (left : ℕ) : (s.round left).polls = s.polls := by
  cases left with
  | zero => rfl
  | succ left => rw [State.round]; split <;> rfl

@[simp] theorem round_answered (s : State) (left : ℕ) :
    (s.round left).answered = s.answered := by
  cases left with
  | zero => rfl
  | succ left => rw [State.round]; split <;> rfl

/-- What a step does to the calls, the threads of `saveall` and their answers. -/
inductive History (s t : State) : Label → Prop
  | other {l : Label} : t.polls = s.polls → t.answered = s.answered → History s t l
  | saveall : t.polls = s.polls ++ [t.added.length] → t.answered = s.answered →
      History s t .saveall
  | answer {i mark : ℕ} : s.polls[i]? = some mark → s.dbcmd.tail - s.dbcmd.head = 0 →
      t.polls = s.polls.eraseIdx i → t.answered = s.answered ++ [mark] → History s t (.poll i)

theorem step_history {l : Label} (hst : step load s l = some t) : History s t l := by
  cases l with
  | update r type => cases hst; exact .other rfl rfl
  | write r unit =>
      simp only [step] at hst
      split_ifs at hst
      cases hst
      exact .other rfl rfl
  | addevent r type =>
      simp only [step] at hst
      split_ifs at hst
      cases hst
      exact .other rfl rfl
  | wake =>
      simp only [step] at hst
      split_ifs at hst
      cases hst
      exact .other (round_polls _ _) (round_answered _ _)
  | loaded reply =>
      simp only [step] at hst
      split at hst
      · split at hst
        · cases hst
          exact .other rfl rfl
        · split at hst <;> cases hst <;> exact .other rfl rfl
      · cases hst
  | queried reply =>
      simp only [step] at hst
      split at hst
      · split at hst
        · cases hst
          exact .other (round_polls _ _) (round_answered _ _)
        · split at hst
          · cases hst
            exact .other (round_polls _ _) (round_answered _ _)
          · cases hst
            exact .other rfl rfl
        · cases hst
          exact .other rfl rfl
      · cases hst
  | saveall => cases hst; exact .saveall rfl rfl
  | poll i =>
      simp only [step] at hst
      cases hp : s.polls[i]? with
      | none => rw [hp] at hst; cases hst
      | some mark =>
          rw [hp] at hst
          dsimp only at hst
          split_ifs at hst with hempty <;> cases hst
          · exact .answer hp hempty rfl rfl
          · exact .other rfl rfl

/-- Calls are only added, and a call once completed stays so. -/
theorem step_completed {l : Label} (h : Tracked s pending) (hst : step load s l = some t) :
    s.added.length ≤ t.added.length ∧ ∀ n, Completed s n → Completed t n := by
  have hsame : t.added = s.added → t.saved = s.saved →
      s.added.length ≤ t.added.length ∧ ∀ n, Completed s n → Completed t n := by
    intro hadd hsav
    rw [hadd]
    exact ⟨le_rfl, fun n ⟨r, hr, hn⟩ => ⟨r, hadd ▸ hr, hsav ▸ hn⟩⟩
  cases l with
  | update r type => cases hst; exact hsame rfl rfl
  | write r unit =>
      simp only [step] at hst
      split_ifs at hst
      cases hst
      exact hsame rfl rfl
  | addevent r type =>
      simp only [step] at hst
      split_ifs at hst
      cases hst
      refine ⟨by simp, fun n ⟨r', hr', hn⟩ => ⟨r', ?_, hn⟩⟩
      dsimp only
      rw [List.getElem?_append_left (List.getElem?_eq_some_iff.mp hr').1]
      exact hr'
  | wake =>
      simp only [step] at hst
      split_ifs at hst
      cases hst
      exact hsame (round_added _ _) (round_saved _ _)
  | loaded reply =>
      simp only [step] at hst
      split at hst
      · split at hst
        · cases hst
          exact hsame rfl rfl
        · split at hst <;> cases hst <;> exact hsame rfl rfl
      · cases hst
  | queried reply =>
      simp only [step] at hst
      split at hst
      next cmd stmt left hs =>
        split at hst
        · cases hst
          refine ⟨by simp [State.save], fun n ⟨r, hr, hn⟩ => ⟨r,
            by simpa [State.save] using hr, ?_⟩⟩
          rw [round_saved]
          simp only [State.save, Function.update_apply]
          split_ifs with heq
          · -- the statement completed now was begun after all those completed before
            have := h.held r ⟨cmd, by rw [hs]; rfl, heq.symm⟩
            omega
          · exact hn
        · split at hst
          · cases hst
            exact hsame (round_added _ _) (round_saved _ _)
          · cases hst
            exact hsame rfl rfl
        · cases hst
          exact hsame rfl rfl
      next => cases hst
  | saveall => cases hst; exact hsame rfl rfl
  | poll i =>
      simp only [step] at hst
      split at hst
      · cases hst
      · split_ifs at hst <;> cases hst <;> exact hsame rfl rfl

theorem polls_le_runs (hs : (saveThread load redis row).Runs (SaveOk load) s) :
    ∀ mark ∈ s.polls, mark ≤ s.added.length := by
  induction hs with
  | init => intro mark hmark; cases hmark
  | @step s t l hs hok hst ih =>
      obtain ⟨refs, pending, -, h⟩ := tracked_runs hs
      have hlen := (step_completed h hst).1
      intro mark hmark
      cases step_history hst with
      | other hp heq => exact (ih mark (hp ▸ hmark)).trans hlen
      | saveall hp heq =>
          rw [hp, List.mem_append, List.mem_singleton] at hmark
          rcases hmark with hmark | rfl
          · exact (ih mark hmark).trans hlen
          · exact le_rfl
      | answer _ _ hp heq =>
          exact (ih mark (List.mem_of_mem_eraseIdx (hp ▸ hmark))).trans hlen

theorem answers_runs (hs : (saveThread load redis row).Runs (FlushOk load) s) :
    ∀ mark ∈ s.answered, ∀ n < mark, Completed s n := by
  induction hs with
  | init => intro mark hmark; cases hmark
  | @step s t l hs hok hst ih =>
      have hsave := hs.mono fun _ _ hok => hok.1
      obtain ⟨refs, pending, href, h⟩ := tracked_runs hsave
      have hcomp := (step_completed h hst).2
      intro m hm n hn
      cases step_history hst with
      | other _ heq => exact hcomp n (ih m (heq ▸ hm) n hn)
      | saveall _ heq => exact hcomp n (ih m (heq ▸ hm) n hn)
      | @answer i mark hmark hempty _ heq =>
          have htail := href.tail_eq
          have hht : s.dbcmd.head = s.dbcmd.tail := by omega
          rw [heq, List.mem_append, List.mem_singleton] at hm
          rcases hm with hm | rfl
          · exact hcomp n (ih m hm n hn)
          · have hnil : pending = [] := href.head_eq_tail.mp hht
            subst hnil
            have hle := polls_le_runs hsave m (List.mem_of_getElem? hmark)
            exact hcomp n ((h.completed_iff hle).mpr (hok.2 i m rfl hmark hht) n hn)

/-- In every run whose polls do not overlook the event the saver holds, `saveall` answers only when
every call that had returned before it is completed; and a poll that sees the queue empty is right
exactly when the saver holds no event from before. -/
theorem saveall_answer_completed (load : Evaluate) (redis : Record → Option Fields)
    (row : Record → Option String) :
    (∀ s, (saveThread load redis row).Runs (FlushOk load) s →
      ∀ mark ∈ s.answered, ∀ n < mark, Completed s n) ∧
    (∀ s, (saveThread load redis row).Runs (SaveOk load) s → s.dbcmd.head = s.dbcmd.tail →
      ∀ mark ∈ s.polls, (∀ n < mark, Completed s n) ↔ ¬ HoldsBefore s mark) := by
  refine ⟨fun s hs => answers_runs hs, fun s hs hempty mark hmark => ?_⟩
  obtain ⟨refs, pending, href, h⟩ := tracked_runs hs
  have hnil : pending = [] := href.head_eq_tail.mp hempty
  subst hnil
  exact h.completed_iff (polls_le_runs hs mark hmark)

theorem flushOk_upToLoad (load : Evaluate) (r : Record) (unit : Option Fields) :
    ∀ l ∈ upToLoad r unit, ∀ s, FlushOk load s l := by
  simp [upToLoad, FlushOk, SaveOk, Succeeds, LoadsWritable]

/-- `saveall` called after the record was saved. -/
theorem saveall_answer_completed_account :
    ∃ s t, step (fun _ => none) s (.poll 0) = some t ∧
      ((∀ n < 1, Completed s n) ↔ ¬ HoldsBefore s 1) ∧ t.answered = [1] ∧ Completed t 0 := by
  let unit := some (Fields.cons (.name "gold") (.number "5") .nil)
  have hload : (saveThread (fun _ => none) (fun _ => some .nil) (fun _ => none)).Runs
      (FlushOk fun _ => none) _ :=
    .of_run .init (flushOk_upToLoad _ (.account, "a") unit) rfl
  have hquery := hload.step (i := Label.loaded (some unit))
    ⟨⟨by simp [Succeeds], by intro _ _ _ h; cases h; rfl⟩, by simp⟩ rfl
  have hsaved := hquery.step (i := Label.queried .ok) ⟨⟨rfl, trivial⟩, by simp⟩ rfl
  have hasked := hsaved.step (i := Label.saveall) ⟨⟨trivial, trivial⟩, by simp⟩ rfl
  have hrun := hasked.step (i := Label.poll 0)
    ⟨⟨trivial, trivial⟩, fun _ _ _ _ _ h => h.1 rfl⟩ rfl
  have hall := saveall_answer_completed (fun _ => none) (fun _ => some .nil) (fun _ => none)
  exact ⟨_, _, rfl, hall.2 _ (hasked.mono fun _ _ hok => hok.1) rfl 1 (by decide), rfl,
    hall.1 _ hrun 1 (by decide) 0 (by decide)⟩

/-- The saver has popped the only event and waits for its load when `saveall` is called; the poll
sees an empty queue and answers with nothing written. -/
theorem saveall_answers_early :
    ¬ ∀ (load : Evaluate) (redis : Record → Option Fields) (row : Record → Option String)
      (s : State), (saveThread load redis row).Runs (fun _ l => Succeeds l) s →
        ∀ mark ∈ s.answered, ∀ n < mark, Completed s n := by
  intro hclaim
  have hrun : (saveThread (fun _ => none) (fun _ => some .nil) (fun _ => none)).Runs
      (fun _ l => Succeeds l) _ :=
    .of_run .init (by simp [upToLoad, Succeeds])
      (rfl : System.run _ _ (upToLoad (.account, "a") (some .nil) ++ [.saveall, .poll 0]) = some _)
  obtain ⟨r, -, hlt⟩ := hclaim _ _ _ _ hrun 1 (by decide) 0 (by decide)
  exact absurd hlt (Nat.not_lt_zero 0)

end GameServer.SaveThread
