import GameServer.EventStamp

/-!
# When no query is lost

What is true of the queries is true event by event: a step on one event leaves the others alone, as
long as the responses of a list were asked for its event. `clear_coroutine` forgets `newClientReq`:
with a response that waits, the next advance kills the coroutine and later queries are never
answered.
-/

namespace GameServer.EventStamp

open Transition

variable {v v' : Entity} {asked asked' : List (ℤ × ℤ)} {event e : ℤ} {s s' : State}

/-! ## Single operations -/

/-- An event with a handler. -/
def Handled (event : ℤ) : Prop :=
  event = EventStampType.Move ∨ event = EventStampType.Stats ∨ event = EventStampType.Hp_Mp

instance (event : ℤ) : Decidable (Handled event) := inferInstanceAs (Decidable (_ ∨ _))

namespace Entity

theorem exists_handle (h : Handled event) : ∃ r, v.handle event = some r := by
  unfold handle
  rcases h with h | h | h
  · rw [if_pos h]
    exact ⟨_, rfl⟩
  · by_cases hmove : event = EventStampType.Move
    · rw [if_pos hmove]
      exact ⟨_, rfl⟩
    · rw [if_neg hmove, if_pos h]
      exact ⟨_, rfl⟩
  · subst h
    exact ⟨_, rfl⟩

theorem lookup_of_waiting (h : v.waiting event ≠ []) :
    v.coroutineResponse.lookup event = some (v.waiting event) := by
  unfold waiting at h ⊢
  cases hlookup : v.coroutineResponse.lookup event with
  | none => simp [hlookup] at h
  | some responses => rfl

theorem waiting_insert (responses : List ℕ) :
    ({ v with coroutineResponse := v.coroutineResponse.insert event responses }
      : Entity).waiting e = if e = event then responses else v.waiting e := by
  unfold waiting
  by_cases he : e = event
  · subst he
    simp [AList.lookup_insert]
  · simp [AList.lookup_insert_ne he, he]

theorem onRespClientEventStamp_eq : v.onRespClientEventStamp event =
    { v with maskHpMpChange :=
        if event = EventStampType.Hp_Mp then 0 else v.maskHpMpChange } := by
  unfold onRespClientEventStamp
  split <;> rfl

theorem respond_eq {r : Reply} (hpool : v.coroutinePool event = some .suspended)
    (hwaiting : v.waiting event ≠ []) (hr : v.handle event = some r) :
    v.respond event = { v with
      newClientReq := Function.update v.newClientReq event false
      answers := v.answers ++ (v.waiting event).map fun q => (q, r)
      coroutineResponse := v.coroutineResponse.insert event []
      maskHpMpChange := if event = EventStampType.Hp_Mp then 0 else v.maskHpMpChange } := by
  have hlookup := lookup_of_waiting hwaiting
  have hhandle : ({ v with newClientReq := Function.update v.newClientReq event false }
      : Entity).handle event = some r := hr
  rw [respond, onRespClientEventStamp_eq]
  simp only [respClientEventStamp, if_pos hpool, hhandle, hlookup]

theorem waiting_createHandleCoroutine (event e : ℤ) (response : ℕ) :
    (v.createHandleCoroutine event response).waiting e =
      if e = event then v.waiting event ++ [response] else v.waiting e :=
  waiting_insert (v := { v with coroutinePool := _ }) _

theorem coroutinePool_createHandleCoroutine (response : ℕ)
    (h : v.coroutinePool event ≠ some .dead) :
    (v.createHandleCoroutine event response).coroutinePool event = some .suspended := by
  unfold createHandleCoroutine
  cases hpool : v.coroutinePool event with
  | none => simp
  | some co =>
      cases co with
      | suspended => simp [hpool]
      | dead => exact absurd hpool h

theorem coroutinePool_createHandleCoroutine_of_ne (response : ℕ) (h : e ≠ event) :
    (v.createHandleCoroutine event response).coroutinePool e = v.coroutinePool e := by
  unfold createHandleCoroutine
  dsimp only
  split
  · exact Function.update_of_ne h _ _
  · rfl

end Entity

/-! ## One event -/

/-- The queries of one event wait with a coroutine that lives, or were answered once. -/
structure Kept (v : Entity) (asked : List (ℤ × ℤ)) (e : ℤ) : Prop where
  made : v.waiting e ≠ [] → v.coroutinePool e = some .suspended
  alive : v.coroutinePool e ≠ some .dead
  owner : ∀ n ∈ v.waiting e, ∃ stamp, asked[n]? = some (e, stamp)
  once : ∀ (n : ℕ) (stamp : ℤ), asked[n]? = some (e, stamp) →
    (v.answers.map Prod.fst).count n + (v.waiting e).count n = 1

/-- Besides, the flag says whether somebody waits, and those who wait have seen the last stamp. -/
structure Slot (v : Entity) (asked : List (ℤ × ℤ)) (e : ℤ) : Prop extends
    Kept v asked e where
  flag : v.newClientReq e = true ↔ v.waiting e ≠ []
  seen : ∀ n ∈ v.waiting e, ∀ stamp, asked[n]? = some (e, stamp) →
    (v.serverEventStamps e : ℤ) ≤ stamp

theorem Slot.other (h : Slot v asked e)
    (hstamp : v'.serverEventStamps e = v.serverEventStamps e)
    (hflag : v'.newClientReq e = v.newClientReq e)
    (hpool : v'.coroutinePool e = v.coroutinePool e)
    (hwaiting : v'.waiting e = v.waiting e)
    (hasked : ∀ (n : ℕ) (stamp : ℤ), asked'[n]? = some (e, stamp) ↔ asked[n]? = some (e, stamp))
    (hanswers : ∀ (n : ℕ) (stamp : ℤ), asked[n]? = some (e, stamp) →
      (v'.answers.map Prod.fst).count n = (v.answers.map Prod.fst).count n) :
    Slot v' asked' e where
  made hne := by
    rw [hwaiting] at hne
    exact hpool.trans (h.made hne)
  alive := hpool ▸ h.alive
  owner n hn := by
    rw [hwaiting] at hn
    obtain ⟨stamp, hstamp⟩ := h.owner n hn
    exact ⟨stamp, (hasked n stamp).mpr hstamp⟩
  once n stamp hn := by
    have hold := (hasked n stamp).mp hn
    rw [hanswers n stamp hold, hwaiting]
    exact h.once n stamp hold
  flag := by
    rw [hflag, hwaiting]
    exact h.flag
  seen n hn stamp hget := by
    rw [hwaiting] at hn
    rw [hstamp]
    exact h.seen n hn stamp ((hasked n stamp).mp hget)

theorem count_answered (r : Reply) (responses : List ℕ) (answers : List (ℕ × Reply)) (n : ℕ) :
    ((answers ++ responses.map fun q => (q, r)).map Prod.fst).count n =
      (answers.map Prod.fst).count n + responses.count n := by
  have hfst : (responses.map fun q => (q, r)).map Prod.fst = responses := by
    rw [List.map_map]
    exact List.map_id responses
  rw [List.map_append, List.count_append, hfst]

theorem Kept.respond (h : Kept v asked event) (hhandled : Handled event)
    (hwaiting : v.waiting event ≠ []) : Slot (v.respond event) asked event := by
  obtain ⟨r, hr⟩ := Entity.exists_handle (v := v) hhandled
  rw [Entity.respond_eq (h.made hwaiting) hwaiting hr]
  have hnone : ∀ answers flags mask, ({ v with
      newClientReq := flags, answers, maskHpMpChange := mask
      coroutineResponse := v.coroutineResponse.insert event [] } : Entity).waiting event = [] := by
    intro answers flags mask
    simp [Entity.waiting, AList.lookup_insert]
  refine ⟨⟨?_, h.alive, ?_, fun n stamp hn => ?_⟩, ?_, ?_⟩
  · simp [hnone]
  · simp [hnone]
  · rw [hnone, count_answered]
    exact h.once n stamp hn
  · simp [hnone]
  · simp [hnone]

theorem Slot.respond_other (h : Slot v asked e) (hne : e ≠ event)
    (hkept : Kept v asked' event) (hasked : ∀ (n : ℕ) (stamp : ℤ),
      asked'[n]? = some (e, stamp) ↔ asked[n]? = some (e, stamp)) (hhandled : Handled event)
    (hwaiting : v.waiting event ≠ []) : Slot (v.respond event) asked' e := by
  obtain ⟨r, hr⟩ := Entity.exists_handle (v := v) hhandled
  rw [Entity.respond_eq (hkept.made hwaiting) hwaiting hr]
  refine h.other rfl (Function.update_of_ne hne _ _) rfl ?_ hasked fun n stamp hn => ?_
  · simp [Entity.waiting, AList.lookup_insert_ne hne]
  · have hnot : n ∉ v.waiting event := by
      intro hmem
      obtain ⟨stamp', hstamp'⟩ := hkept.owner n hmem
      rw [(hasked n stamp).mpr hn] at hstamp'
      exact hne (congrArg Prod.fst (Option.some.inj hstamp'))
    rw [count_answered, List.count_eq_zero.mpr hnot, add_zero]

/-! ## All events -/

structure Invariant (v : Entity) (asked : List (ℤ × ℤ)) : Prop where
  slot : ∀ e, Slot v asked e
  bounded : ∀ n ∈ v.answers.map Prod.fst, n < asked.length

theorem Invariant.respond (hkept : Kept v asked event) (hhandled : Handled event)
    (hwaiting : v.waiting event ≠ []) (hother : ∀ e ≠ event, Slot v asked e)
    (hbounded : ∀ n ∈ v.answers.map Prod.fst, n < asked.length) :
    Invariant (v.respond event) asked := by
  refine ⟨fun e => ?_, ?_⟩
  · by_cases he : e = event
    · exact he ▸ hkept.respond hhandled hwaiting
    · exact (hother e he).respond_other he hkept (fun _ _ => Iff.rfl) hhandled hwaiting
  · obtain ⟨r, hr⟩ := Entity.exists_handle (v := v) hhandled
    rw [Entity.respond_eq (hkept.made hwaiting) hwaiting hr]
    intro n hn
    rw [List.map_append, List.mem_append] at hn
    rcases hn with hn | hn
    · exact hbounded n hn
    · simp only [List.map_map, List.mem_map, Function.comp_apply] at hn
      obtain ⟨q, hq, rfl⟩ := hn
      obtain ⟨stamp, hstamp⟩ := hkept.owner q hq
      exact (List.getElem?_eq_some_iff.mp hstamp).1

theorem Invariant.advance (h : Invariant v asked) (event : ℤ)
    (hok : v.newClientReq event = true → Handled event) :
    Invariant (v.advanceEventStamp event) asked := by
  have hkept : ∀ stamps, Kept { v with serverEventStamps := stamps } asked event := fun _ =>
    ⟨(h.slot event).made, (h.slot event).alive, (h.slot event).owner, (h.slot event).once⟩
  have hother : ∀ e ≠ event, Slot { v with
      serverEventStamps := Function.update v.serverEventStamps event
        (v.serverEventStamps event + 1) } asked e := fun e he =>
    (h.slot e).other (Function.update_of_ne he _ _) rfl rfl rfl (fun _ _ => Iff.rfl)
      fun _ _ _ => rfl
  unfold Entity.advanceEventStamp
  dsimp only
  split
  · next hflag =>
      exact .respond (hkept _) (hok hflag) ((h.slot event).flag.mp hflag) hother h.bounded
  · next hflag =>
      have hnil : v.waiting event = [] := by
        by_contra hne
        exact hflag ((h.slot event).flag.mpr hne)
      refine ⟨fun e => ?_, h.bounded⟩
      by_cases he : e = event
      · subst he
        refine ⟨hkept _, (h.slot e).flag, fun n hn => ?_⟩
        have hmem : n ∈ v.waiting e := hn
        rw [hnil] at hmem
        cases hmem
      · exact hother e he

/-! ## Queries -/

theorem getElem?_concat_iff {q : ℤ × ℤ} {stamp : ℤ} {n : ℕ} (hne : q.1 ≠ e) :
    (asked ++ [q])[n]? = some (e, stamp) ↔ asked[n]? = some (e, stamp) := by
  rw [List.getElem?_append]
  split
  · exact Iff.rfl
  · next hge =>
      rw [List.getElem?_eq_none (not_lt.mp hge)]
      constructor
      · intro h
        rw [List.getElem?_singleton] at h
        split at h
        · exact absurd (congrArg Prod.fst (Option.some.inj h)) hne
        · cases h
      · intro h
        cases h

theorem Invariant.lt_of_waiting (h : Invariant v asked) {n : ℕ} (hn : n ∈ v.waiting e) :
    n < asked.length := by
  obtain ⟨stamp, hstamp⟩ := (h.slot e).owner n hn
  exact (List.getElem?_eq_some_iff.mp hstamp).1

theorem Invariant.kept_create (h : Invariant v asked) (event stamp : ℤ) :
    Kept (v.createHandleCoroutine event asked.length) (asked ++ [(event, stamp)]) event := by
  have hpool := Entity.coroutinePool_createHandleCoroutine asked.length (h.slot event).alive
  refine ⟨fun _ => hpool, by simp [hpool], fun n hn => ?_, fun n stamp' hn => ?_⟩
  · rw [Entity.waiting_createHandleCoroutine, if_pos rfl, List.mem_append,
      List.mem_singleton] at hn
    rcases hn with hn | rfl
    · obtain ⟨stamp', hstamp'⟩ := (h.slot event).owner n hn
      refine ⟨stamp', ?_⟩
      rw [List.getElem?_append_left (h.lt_of_waiting hn)]
      exact hstamp'
    · exact ⟨stamp, List.getElem?_concat_length⟩
  · rw [Entity.waiting_createHandleCoroutine, if_pos rfl, List.count_append]
    have hanswers : (v.createHandleCoroutine event asked.length).answers = v.answers := rfl
    rw [hanswers]
    rw [List.getElem?_append] at hn
    split at hn
    · next hlt =>
        have hne : asked.length ≠ n := by omega
        have hone := (h.slot event).once n stamp' hn
        rw [List.count_singleton, if_neg (by simpa using hne)]
        omega
    · next hge =>
        have hlen : n = asked.length := by
          rw [List.getElem?_singleton] at hn
          split at hn
          · omega
          · cases hn
        subst hlen
        have hnot : asked.length ∉ v.answers.map Prod.fst := fun hmem =>
          lt_irrefl _ (h.bounded _ hmem)
        have hnot' : asked.length ∉ v.waiting event := fun hmem =>
          lt_irrefl _ (h.lt_of_waiting hmem)
        rw [List.count_eq_zero.mpr hnot, List.count_eq_zero.mpr hnot', List.count_singleton_self]

theorem Invariant.slot_create (h : Invariant v asked) {event stamp : ℤ} (he : e ≠ event) :
    Slot (v.createHandleCoroutine event asked.length) (asked ++ [(event, stamp)]) e := by
  refine (h.slot e).other rfl rfl (Entity.coroutinePool_createHandleCoroutine_of_ne _ he) ?_
    (fun n stamp' => getElem?_concat_iff (Ne.symm he)) fun _ _ _ => rfl
  rw [Entity.waiting_createHandleCoroutine, if_neg he]

theorem Invariant.query (h : Invariant v asked) (event stamp : ℤ)
    (hok : v.serverEventStamps event > stamp → Handled event) :
    Invariant (v.query_event_func event stamp asked.length) (asked ++ [(event, stamp)]) := by
  have hkept := h.kept_create event stamp
  have hwaiting : (v.createHandleCoroutine event asked.length).waiting event ≠ [] := by
    rw [Entity.waiting_createHandleCoroutine, if_pos rfl]
    simp
  have hbounded : ∀ n ∈ v.answers.map Prod.fst, n < (asked ++ [(event, stamp)]).length := by
    intro n hn
    have hlt := h.bounded n hn
    rw [List.length_append]
    omega
  unfold Entity.query_event_func Entity.checkeventStamp
  split
  · next hlate => exact .respond hkept (hok hlate) hwaiting (fun _ he => h.slot_create he) hbounded
  · next hlate =>
      refine ⟨fun e => ?_, hbounded⟩
      by_cases he : e = event
      · subst he
        refine ⟨⟨hkept.made, hkept.alive, hkept.owner, hkept.once⟩, ?_, fun n hn stamp' hget => ?_⟩
        · simp only [Function.update_self, true_iff]
          exact hwaiting
        · have hmem : n ∈ (v.createHandleCoroutine e asked.length).waiting e := hn
          rw [Entity.waiting_createHandleCoroutine, if_pos rfl, List.mem_append,
            List.mem_singleton] at hmem
          rcases hmem with hmem | rfl
          · rw [List.getElem?_append_left (h.lt_of_waiting hmem)] at hget
            exact (h.slot e).seen n hmem stamp' hget
          · rw [List.getElem?_concat_length] at hget
            obtain rfl := congrArg Prod.snd (Option.some.inj hget)
            exact not_lt.mp hlate
      · refine (h.slot_create he).other rfl (Function.update_of_ne he _ _) rfl rfl
          (fun _ _ => Iff.rfl) fun _ _ _ => rfl

/-! ## Clearing -/

theorem Invariant.waiting_nil (h : Invariant v asked) (hidle : ∀ q ∈ asked, v.waiting q.1 = [])
    (e : ℤ) : v.waiting e = [] := by
  by_contra hne
  obtain ⟨n, hn⟩ := List.exists_mem_of_ne_nil _ hne
  obtain ⟨stamp, hstamp⟩ := (h.slot e).owner n hn
  exact hne (hidle _ (List.mem_of_getElem? hstamp))

theorem Invariant.clear_answers (h : Invariant v asked)
    (hidle : ∀ q ∈ asked, v.waiting q.1 = []) : v.clear_coroutine.answers = v.answers := by
  have hentries : (v.coroutineResponse.entries.flatMap fun e =>
      e.2.map fun q => (q, Reply.none)) = [] := by
    rw [List.flatMap_eq_nil_iff]
    intro entry hentry
    have hlookup : v.coroutineResponse.lookup entry.1 = some entry.2 :=
      AList.mem_lookup_iff.mpr hentry
    have hempty := h.waiting_nil hidle entry.1
    simp only [Entity.waiting, hlookup, Option.getD_some] at hempty
    rw [hempty, List.map_nil]
  rw [Entity.clear_coroutine, hentries, List.append_nil]

theorem Invariant.clear (h : Invariant v asked) (hidle : ∀ q ∈ asked, v.waiting q.1 = []) :
    Invariant v.clear_coroutine asked := by
  have hanswers := h.clear_answers hidle
  have hwaiting : ∀ e, v.clear_coroutine.waiting e = v.waiting e := by
    intro e
    rw [h.waiting_nil hidle e]
    simp [Entity.waiting, Entity.clear_coroutine, AList.lookup_empty]
  refine ⟨fun e => (h.slot e).other rfl rfl rfl (hwaiting e) (fun _ _ => Iff.rfl) ?_, ?_⟩
  · rw [hanswers]
    exact fun _ _ _ => rfl
  · rw [hanswers]
    exact h.bounded

/-! ## Runs -/

/-- An answer is given only where a handler is defined, and nobody waits when the table of responses
is cleared. -/
def OK (s : State) : Label → Prop
  | .query event stamp => s.entity.serverEventStamps event > stamp → Handled event
  | .advance event => s.entity.newClientReq event = true → Handled event
  | .clear => ∀ q ∈ s.asked, s.entity.waiting q.1 = []

/-- The flags say who waits, those who wait have seen the last stamp, each response waits or was
called once, and what is behind the stamp was answered. -/
structure NeverLost (s : State) : Prop where
  flag : ∀ e, s.entity.newClientReq e = true ↔ s.entity.waiting e ≠ []
  pending : ∀ e, ∀ n ∈ s.entity.waiting e, ∃ stamp, s.asked[n]? = some (e, stamp) ∧
    (s.entity.serverEventStamps e : ℤ) ≤ stamp
  once : ∀ (n : ℕ) (e stamp : ℤ), s.asked[n]? = some (e, stamp) →
    (s.entity.answers.map Prod.fst).count n + (s.entity.waiting e).count n = 1
  answered : ∀ (n : ℕ) (e stamp : ℤ), s.asked[n]? = some (e, stamp) →
    stamp < s.entity.serverEventStamps e → (s.entity.answers.map Prod.fst).count n = 1

theorem Invariant.neverLost (h : Invariant s.entity s.asked) : NeverLost s := by
  refine ⟨fun e => (h.slot e).flag, fun e n hn => ?_,
    fun n e stamp hn => (h.slot e).once n stamp hn, fun n e stamp hn hlt => ?_⟩
  · obtain ⟨stamp, hstamp⟩ := (h.slot e).owner n hn
    exact ⟨stamp, hstamp, (h.slot e).seen n hn stamp hstamp⟩
  · have hnot : n ∉ s.entity.waiting e := fun hmem =>
      absurd ((h.slot e).seen n hmem stamp hn) (not_le.mpr hlt)
    have hone := (h.slot e).once n stamp hn
    rwa [List.count_eq_zero.mpr hnot, add_zero] at hone

theorem Invariant.step {l : Label} (h : Invariant s.entity s.asked) (hok : OK s l) :
    Invariant (s.step l).entity (s.step l).asked := by
  cases l with
  | query event stamp => exact h.query event stamp hok
  | advance event => exact h.advance event hok
  | clear => exact h.clear hok

theorem Invariant.init (hp mp shield : ℚ) : Invariant (create hp mp shield) [] :=
  ⟨fun e => ⟨⟨by simp [create, Entity.waiting], by simp [create], by simp [create, Entity.waiting],
    by simp⟩, by simp [create, Entity.waiting], by simp⟩, by simp [create]⟩

/-- Where nobody waits when the responses are cleared, and events that are answered have a handler,
no query is lost. -/
theorem never_lost (hp mp shield : ℚ) (h : (system hp mp shield).Runs OK s) : NeverLost s := by
  apply Invariant.neverLost
  apply h.invariant (P := fun s => Invariant s.entity s.asked) (Invariant.init hp mp shield)
  intro s l t hs hok ht
  exact Option.some.inj ht ▸ hs.step hok

instance (s : State) (l : Label) : Decidable (OK s l) := by
  cases l with
  | query event stamp => exact inferInstanceAs (Decidable (_ → _))
  | advance event => exact inferInstanceAs (Decidable (_ → _))
  | clear => exact inferInstanceAs (Decidable (∀ q ∈ s.asked, _))

/-- Two clients wait for the health, it changes, one of them is late with the next query; the death
comes behind it. -/
def shared : List Label :=
  [.query 4 0, .query 4 0, .advance 4, .query 4 0, .clear]

theorem never_lost_shared : ∃ s, (system 100 50 0).Runs OK s ∧ NeverLost s ∧
    s.entity.answers.length = 3 := by
  have hrun : (((system 100 50 0).guarded OK).run (system 100 50 0).init shared).map
      (fun s => s.entity.answers.length) = some 3 := by
    decide +kernel
  obtain ⟨s, hs, hlength⟩ := Option.map_eq_some_iff.mp hrun
  have hruns := System.Runs.of_guarded_run _ .init hs
  exact ⟨s, hruns, never_lost 100 50 0 hruns, hlength⟩

/-- A client waits, the entity dies and is cleared, its health changes: the query behind it is never
answered. -/
theorem query_unanswered : ∃ s, (system 100 50 0).Reachable s ∧ s.asked[1]? = some (4, 0) ∧
    0 < s.entity.serverEventStamps 4 ∧ (s.entity.answers.map Prod.fst).count 1 = 0 ∧
    ¬ NeverLost s := by
  have hrun : ((system 100 50 0).run (system 100 50 0).init
      [.query 4 0, .clear, .advance 4, .query 4 0]).map (fun s => (s.asked[1]?,
        s.entity.serverEventStamps 4, (s.entity.answers.map Prod.fst).count 1)) =
      some (some (4, 0), 1, 0) := by
    decide +kernel
  obtain ⟨s, hs, hread⟩ := Option.map_eq_some_iff.mp hrun
  simp only [Prod.mk.injEq] at hread
  obtain ⟨hasked, hstamp, hcount⟩ := hread
  refine ⟨s, System.reachable_of_run _ hs, hasked, by omega, hcount, fun h => ?_⟩
  have hanswered := h.answered 1 4 0 hasked (by omega)
  omega

end GameServer.EventStamp
