import GameServer.SaveQueue

/-!
# Representation and order of the pending events

`Refines` relates the queue to the list of pending events through the references held in its
slots. `push`, `pop` and `addevent` act on that list as on a first-in first-out queue with at most
one event for each record. No table name is a prefix of another, so the unseparated text
`table..key` determines the record.
-/

namespace GameServer.SaveQueue

open Transition

theorem name_prefix_eq {t t' : Table} (h : t.name.toList <+: t'.name.toList) : t = t' := by
  cases t <;> cases t' <;> first | rfl | exact absurd h (by decide)

theorem index_injective : Function.Injective index := by
  rintro ⟨t, k⟩ ⟨t', k'⟩ h
  have hl : t.name.toList ++ k.toList = t'.name.toList ++ k'.toList := by
    simpa only [index, String.toList_append] using congrArg String.toList h
  -- of two prefixes of one text the shorter is a prefix of the longer
  have ht : t = t' := by
    rcases List.prefix_or_prefix_of_prefix (List.prefix_append _ _)
      (hl ▸ List.prefix_append t'.name.toList k'.toList) with hp | hp
    · exact name_prefix_eq hp
    · exact (name_prefix_eq hp).symm
  subst ht
  have hk := List.append_cancel_left hl
  rw [String.toList_inj] at hk
  rw [hk]

/-- The references in the slots, and the events behind them. -/
structure Refines (s : Dbcmd) (refs : List ℕ) (pending : List Event) : Prop where
  tail_eq : s.tail = s.head + refs.length
  slot_eq : ∀ i, s.slot i = if s.head ≤ i then refs[i - s.head]? else none
  nodup : refs.Nodup
  events_eq : refs.map (s.events[·]?) = pending.map some
  opevent_eq : ∀ text v, s.opevent text = some v ↔
    v ∈ refs ∧ ∃ e, s.events[v]? = some e ∧ index e.record = text

variable {s : Dbcmd} {refs : List ℕ} {pending : List Event}

namespace Refines

theorem length_eq (h : Refines s refs pending) : refs.length = pending.length := by
  simpa using congrArg List.length h.events_eq

theorem lookup (h : Refines s refs pending) (k : ℕ) :
    (refs[k]?).bind (s.events[·]?) = pending[k]? := by
  have hk := congrArg (fun l : List (Option Event) => l[k]?) h.events_eq
  simp only [List.getElem?_map] at hk
  cases hr : refs[k]? with
  | none =>
      cases hp : pending[k]? with
      | none => rfl
      | some e => simp [hr, hp] at hk
  | some v =>
      cases hp : pending[k]? with
      | none => simp [hr, hp] at hk
      | some e => simpa [hr, hp] using hk

theorem mem_pending (h : Refines s refs pending) {e : Event} :
    e ∈ pending ↔ ∃ v ∈ refs, s.events[v]? = some e := by
  have hm : some e ∈ refs.map (s.events[·]?) ↔ some e ∈ pending.map some := by rw [h.events_eq]
  simpa [eq_comm] using hm.symm

theorem opevent_of_mem (h : Refines s refs pending) {v : ℕ} {e : Event} (hv : v ∈ refs)
    (he : s.events[v]? = some e) : s.opevent (index e.record) = some v :=
  (h.opevent_eq _ _).mpr ⟨hv, e, he, rfl⟩

/-- Two references to events of one record are one reference. -/
theorem ref_unique (h : Refines s refs pending) {v v' : ℕ} {e e' : Event} (hv : v ∈ refs)
    (hv' : v' ∈ refs) (he : s.events[v]? = some e) (he' : s.events[v']? = some e')
    (hr : e.record = e'.record) : v = v' := by
  have h₁ := h.opevent_of_mem hv he
  rw [hr, h.opevent_of_mem hv' he'] at h₁
  exact (Option.some.inj h₁).symm

theorem valid (h : Refines s refs pending) {v : ℕ} (hv : v ∈ refs) :
    ∃ e ∈ pending, s.events[v]? = some e := by
  have hm : s.events[v]? ∈ pending.map some := h.events_eq ▸ List.mem_map_of_mem hv
  obtain ⟨e, he, heq⟩ := List.mem_map.mp hm
  exact ⟨e, he, heq.symm⟩

theorem opevent_none (h : Refines s refs pending) {r : Record} :
    s.opevent (index r) = none ↔ r ∉ pending.map Event.record := by
  constructor
  · intro hn hr
    obtain ⟨e, he, rfl⟩ := List.mem_map.mp hr
    obtain ⟨v, hv, hve⟩ := h.mem_pending.mp he
    rw [h.opevent_of_mem hv hve] at hn
    cases hn
  · intro hr
    by_contra hn
    obtain ⟨v, hv⟩ := Option.ne_none_iff_exists'.mp hn
    obtain ⟨hmem, e, he, hidx⟩ := (h.opevent_eq _ _).mp hv
    exact hr (List.mem_map.mpr ⟨e, h.mem_pending.mpr ⟨v, hmem, he⟩, index_injective hidx⟩)

theorem records_nodup (h : Refines s refs pending) : (pending.map Event.record).Nodup := by
  rw [List.nodup_iff_getElem?_ne_getElem?]
  intro i j hij hj heq
  rw [List.length_map] at hj
  have hi : i < pending.length := hij.trans hj
  rw [List.getElem?_map, List.getElem?_map, List.getElem?_eq_getElem hi,
    List.getElem?_eq_getElem hj, Option.map_some, Option.map_some, Option.some.injEq] at heq
  have hri : i < refs.length := h.length_eq ▸ hi
  have hrj : j < refs.length := h.length_eq ▸ hj
  have ei : s.events[refs[i]]? = some pending[i] := by
    simpa [List.getElem?_eq_getElem hri, List.getElem?_eq_getElem hi] using h.lookup i
  have ej : s.events[refs[j]]? = some pending[j] := by
    simpa [List.getElem?_eq_getElem hrj, List.getElem?_eq_getElem hj] using h.lookup j
  have hv := h.ref_unique (List.getElem_mem hri) (List.getElem_mem hrj) ei ej heq
  exact absurd ((List.Nodup.getElem_inj_iff h.nodup).mp hv) hij.ne

theorem represents (h : Refines s refs pending) : Represents s pending where
  tail_eq := by rw [h.tail_eq, h.length_eq]
  slot_eq i := by
    rw [h.slot_eq]
    split_ifs
    · exact h.lookup _
    · rfl
  opevent_eq text := by
    cases ht : s.opevent text with
    | none =>
        symm
        rw [Option.bind_none, List.find?_eq_none]
        intro e he hidx
        obtain ⟨v, hv, hve⟩ := h.mem_pending.mp he
        have := (h.opevent_eq text v).mpr ⟨hv, e, hve, by simpa using hidx⟩
        rw [ht] at this
        cases this
    | some v =>
        obtain ⟨hv, e, he, hidx⟩ := (h.opevent_eq text v).mp ht
        rw [Option.bind_some, he]
        cases hf : pending.find? (fun e => index e.record = text) with
        | none =>
            have hmem := h.mem_pending.mpr ⟨v, hv, he⟩
            simpa [hidx] using List.find?_eq_none.mp hf e hmem
        | some e' =>
            -- the event found has the same text, hence the same reference
            obtain ⟨v', hv', he'⟩ := h.mem_pending.mp (List.mem_of_find?_eq_some hf)
            have hidx' : index e'.record = text := by simpa using List.find?_some hf
            have hvv := h.ref_unique hv hv' he he' (index_injective (hidx.trans hidx'.symm))
            rw [hvv, he'] at he
            exact he.symm
  shared i v e hi he := by
    rw [h.slot_eq] at hi
    split_ifs at hi
    exact h.opevent_of_mem (List.mem_of_getElem? hi) he

theorem empty : Refines {} [] [] where
  tail_eq := rfl
  slot_eq i := by simp
  nodup := List.nodup_nil
  events_eq := rfl
  opevent_eq text v := by simp

theorem head_eq_tail (h : Refines s refs pending) : s.head = s.tail ↔ pending = [] := by
  rw [h.tail_eq, h.length_eq, ← List.length_eq_zero_iff]
  omega

end Refines

/-! ## The queue operations on the list of pending events -/

/-- `addevent` on the pending events: a waiting event of the record takes the new type, otherwise
the event is put last. -/
def addPending (pending : List Event) (e : Event) : List Event :=
  if e.record ∈ pending.map Event.record
  then pending.map (fun old => if old.record = e.record then { old with type := e.type } else old)
  else pending ++ [e]

namespace Refines

theorem addevent_waiting {e : Event} {v : ℕ} (h : Refines s refs pending)
    (hv : s.opevent (index e.record) = some v) :
    Refines (s.addevent e) refs (pending.map
      (fun old => if old.record = e.record then { old with type := e.type } else old)) := by
  obtain ⟨hmem, old, hold, hidx⟩ := (h.opevent_eq _ _).mp hv
  have hrec : old.record = e.record := index_injective hidx
  have hs : s.addevent e = { s with
      events := s.events.modify v (fun old => { old with type := e.type }) } := by
    simp only [Dbcmd.addevent, hv]
  rw [hs]
  -- the object changed is the one of the record, and only its type changes
  have hget : ∀ w ∈ refs, ∀ x, s.events[w]? = some x →
      (s.events.modify v (fun old => { old with type := e.type }))[w]? =
        some (if x.record = e.record then { x with type := e.type } else x) := by
    intro w hw x hx
    rw [List.getElem?_modify, hx]
    by_cases hvw : v = w
    · subst hvw
      rw [hold, Option.some.injEq] at hx
      subst hx
      simp [hrec]
    · have hne : x.record ≠ e.record :=
        fun heq => hvw (h.ref_unique hmem hw hold hx (hrec.trans heq.symm))
      simp [hvw, hne]
  refine ⟨h.tail_eq, h.slot_eq, h.nodup, ?_, ?_⟩
  · refine List.ext_getElem? (fun k => ?_)
    have hk := h.lookup k
    simp only [List.getElem?_map]
    cases hr : refs[k]? with
    | none =>
        rw [hr, Option.bind_none] at hk
        rw [← hk]
        rfl
    | some w =>
        obtain ⟨x, -, hx⟩ := h.valid (List.mem_of_getElem? hr)
        rw [hr, Option.bind_some, hx] at hk
        rw [← hk, Option.map_some, Option.map_some, Option.map_some,
          hget w (List.mem_of_getElem? hr) x hx]
  · intro text w
    rw [h.opevent_eq]
    refine and_congr_right (fun hw => ?_)
    obtain ⟨x, -, hx⟩ := h.valid hw
    rw [hx, hget w hw x hx]
    simp only [Option.some.injEq, exists_eq_left']
    by_cases hxr : x.record = e.record
    · rw [if_pos hxr]
      rfl
    · rw [if_neg hxr]

theorem addevent_new {e : Event} (h : Refines s refs pending)
    (hn : s.opevent (index e.record) = none) :
    Refines (s.addevent e) (refs ++ [s.events.length]) (pending ++ [e]) := by
  have hs : s.addevent e =
      Dbcmd.push { s with events := s.events ++ [e] } s.events.length e := by
    simp only [Dbcmd.addevent, hn, Dbcmd.alloc]
  rw [hs, Dbcmd.push]
  have hlt : ∀ w ∈ refs, w < s.events.length := by
    intro w hw
    obtain ⟨x, -, hx⟩ := h.valid hw
    exact (List.getElem?_eq_some_iff.mp hx).1
  have hold : ∀ w ∈ refs, (s.events ++ [e])[w]? = s.events[w]? :=
    fun w hw => List.getElem?_append_left (hlt w hw)
  have hfresh : s.events.length ∉ refs := fun hm => (hlt _ hm).false
  refine ⟨?_, ?_, ?_, ?_, ?_⟩
  · have := h.tail_eq
    simp only [List.length_append, List.length_singleton]
    omega
  · intro i
    dsimp only
    rw [Function.update_apply, h.slot_eq i]
    have ht := h.tail_eq
    by_cases hi : i = s.tail
    · have hk : i - s.head = refs.length := by omega
      rw [if_pos hi, if_pos (by omega), hk]
      simp
    · rw [if_neg hi]
      by_cases hle : s.head ≤ i
      · rw [if_pos hle, if_pos hle]
        rcases Nat.lt_or_ge (i - s.head) refs.length with hlen | hlen
        · rw [List.getElem?_append_left hlen]
        · rw [List.getElem?_eq_none hlen, List.getElem?_eq_none]
          rw [List.length_append, List.length_singleton]
          omega
      · rw [if_neg hle, if_neg hle]
  · rw [List.nodup_append]
    exact ⟨h.nodup, List.nodup_singleton _, fun a ha b hb heq =>
      hfresh (List.mem_singleton.mp hb ▸ heq ▸ ha)⟩
  · rw [List.map_append, List.map_append, ← h.events_eq, List.map_congr_left hold]
    simp
  · intro text w
    dsimp only
    rw [Function.update_apply, List.mem_append, List.mem_singleton]
    by_cases ht : text = index e.record
    · subst ht
      rw [if_pos rfl, Option.some.injEq]
      constructor
      · rintro rfl
        exact ⟨Or.inr rfl, e, by simp, rfl⟩
      · rintro ⟨hw | rfl, x, hx, hidx⟩
        · -- an older reference would have been found in `opevent`
          rw [hold w hw] at hx
          rw [(h.opevent_eq _ w).mpr ⟨hw, x, hx, hidx⟩] at hn
          cases hn
        · rfl
    · rw [if_neg ht, h.opevent_eq]
      constructor
      · rintro ⟨hw, x, hx, hidx⟩
        exact ⟨Or.inl hw, x, (hold w hw).trans hx, hidx⟩
      · rintro ⟨hw | rfl, x, hx, hidx⟩
        · exact ⟨hw, x, (hold w hw).symm.trans hx, hidx⟩
        · have hxe : e = x := by simpa using hx
          exact absurd (hxe ▸ hidx).symm ht

theorem addevent (h : Refines s refs pending) (e : Event) :
    ∃ refs', Refines (s.addevent e) refs' (addPending pending e) := by
  cases hv : s.opevent (index e.record) with
  | none =>
      rw [addPending, if_neg (h.opevent_none.mp hv)]
      exact ⟨_, h.addevent_new hv⟩
  | some v =>
      have hmem : e.record ∈ pending.map Event.record := by
        by_contra hn
        rw [h.opevent_none.mpr hn] at hv
        cases hv
      rw [addPending, if_pos hmem]
      exact ⟨_, h.addevent_waiting hv⟩

theorem pop_nil (h : Refines s refs []) : s.pop = some (s, none) := by
  rw [Dbcmd.pop, if_pos (h.head_eq_tail.mpr rfl)]

theorem pop_cons {e : Event} {rest : List Event} (h : Refines s refs (e :: rest)) :
    ∃ s' refs', s.pop = some (s', some e) ∧ Refines s' refs' rest := by
  cases refs with
  | nil => exact absurd h.length_eq (by simp)
  | cons v refs =>
      have hne : s.head ≠ s.tail := fun heq => by cases h.head_eq_tail.mp heq
      have hslot : s.slot s.head = some v := by rw [h.slot_eq, if_pos le_rfl]; simp
      have hev : s.events[v]? = some e := by simpa using h.lookup 0
      have hv : v ∉ refs := (List.nodup_cons.mp h.nodup).1
      have htail := h.tail_eq
      rw [List.length_cons] at htail
      have hpop : Refines { s with
          slot := Function.update s.slot s.head none
          opevent := Function.update s.opevent (index e.record) none
          head := s.head + 1 } refs rest := by
        refine ⟨by dsimp only; omega, ?_, (List.nodup_cons.mp h.nodup).2, ?_, ?_⟩
        · intro i
          dsimp only
          rw [Function.update_apply, h.slot_eq i]
          by_cases hi : i = s.head
          · rw [if_pos hi, if_neg (by omega)]
          · rw [if_neg hi]
            by_cases hle : s.head ≤ i
            · have hk : i - s.head = (i - (s.head + 1)) + 1 := by omega
              rw [if_pos hle, if_pos (by omega), hk, List.getElem?_cons_succ]
            · rw [if_neg hle, if_neg (by omega)]
        · have := h.events_eq
          simp only [List.map_cons, List.cons.injEq] at this
          exact this.2
        · intro text w
          dsimp only
          rw [Function.update_apply]
          by_cases ht : text = index e.record
          · rw [if_pos ht]
            refine iff_of_false (by simp) ?_
            rintro ⟨hw, x, hx, hidx⟩
            have := h.ref_unique (List.mem_cons_of_mem _ hw) List.mem_cons_self hx hev
              (index_injective (hidx.trans ht))
            exact hv (this ▸ hw)
          · rw [if_neg ht, h.opevent_eq, List.mem_cons]
            refine ⟨?_, fun ⟨hw, hx⟩ => ⟨Or.inr hw, hx⟩⟩
            rintro ⟨rfl | hw, x, hx, hidx⟩
            · rw [hev, Option.some.injEq] at hx
              exact absurd (hx ▸ hidx).symm ht
            · exact ⟨hw, x, hx, hidx⟩
      have hs : s.pop = some (if s.head + 1 = s.tail
          then { s with
            slot := Function.update s.slot s.head none
            opevent := Function.update s.opevent (index e.record) none
            head := 1
            tail := 1 }
          else { s with
            slot := Function.update s.slot s.head none
            opevent := Function.update s.opevent (index e.record) none
            head := s.head + 1 }, some e) := by
        simp only [Dbcmd.pop, if_neg hne, hslot, hev, Option.bind_eq_bind, Option.bind_some]
        split_ifs <;> rfl
      refine ⟨_, refs, hs, ?_⟩
      split_ifs with hlast
      · -- nothing is left, so both indices return to 1
        have hnil : rest = [] := hpop.head_eq_tail.mp hlast
        subst hnil
        have hrefs : refs = [] := List.length_eq_zero_iff.mp hpop.length_eq
        subst hrefs
        refine ⟨rfl, fun i => ?_, hpop.nodup, hpop.events_eq, hpop.opevent_eq⟩
        have hi := hpop.slot_eq i
        simp only [List.getElem?_nil, ite_self] at hi ⊢
        exact hi
      · exact hpop

end Refines

/-! ## The pending events and the history -/

theorem latestType_append (h : List Entry) (entry : Entry) (r : Record) :
    latestType (h ++ [entry]) r = match entry with
      | .added e => if e.record = r then some e.type else latestType h r
      | .popped e => if e.record = r then none else latestType h r
      | .nothing => latestType h r := by
  rw [latestType, List.foldl_append]
  rfl

theorem firstInserted_append (h : List Entry) (entry : Entry) :
    firstInserted (h ++ [entry]) = match entry with
      | .added e =>
          if e.record ∈ firstInserted h then firstInserted h else firstInserted h ++ [e.record]
      | .popped e => (firstInserted h).erase e.record
      | .nothing => firstInserted h := by
  rw [firstInserted, List.foldl_append]
  rfl

theorem split_append_singleton {α : Type*} {h before after : List α} {x y : α}
    (heq : h ++ [x] = before ++ y :: after) :
    (h = before ∧ x = y) ∨ ∃ after', h = before ++ y :: after' := by
  rcases List.eq_nil_or_concat after with rfl | ⟨after', z, rfl⟩
  · have := List.append_inj' heq rfl
    exact Or.inl ⟨this.1, by simpa using this.2⟩
  · have heq' : h ++ [x] = (before ++ y :: after') ++ [z] := by simpa using heq
    exact Or.inr ⟨after', (List.append_inj' heq' rfl).1⟩

theorem PopsInOrder.append {h : List Entry} {entry : Entry} (hp : PopsInOrder h)
    (hpopped : ∀ e, entry = .popped e →
      (firstInserted h).head? = some e.record ∧ latestType h e.record = some e.type)
    (hnothing : entry = .nothing → firstInserted h = []) : PopsInOrder (h ++ [entry]) := by
  refine ⟨fun before e after heq => ?_, fun before after heq => ?_⟩
  · rcases split_append_singleton heq with ⟨rfl, hx⟩ | ⟨after', ha⟩
    · exact hpopped e hx
    · exact hp.1 before e after' ha
  · rcases split_append_singleton heq with ⟨rfl, hx⟩ | ⟨after', ha⟩
    · exact hnothing hx
    · exact hp.2 before after' ha

/-- The pending events are those the history calls for. -/
structure Follows (h : List Entry) (pending : List Event) : Prop where
  order : pending.map Event.record = firstInserted h
  nodup : (pending.map Event.record).Nodup
  latest : ∀ e ∈ pending, latestType h e.record = some e.type
  absent : ∀ r, r ∉ pending.map Event.record → latestType h r = none
  pops : PopsInOrder h

variable {h : List Entry}

theorem addPending_records (pending : List Event) (e : Event) :
    (addPending pending e).map Event.record =
      if e.record ∈ pending.map Event.record then pending.map Event.record
      else pending.map Event.record ++ [e.record] := by
  rw [addPending]
  split_ifs
  · rw [List.map_map]
    refine List.map_congr_left (fun x _ => ?_)
    rw [Function.comp_apply]
    split_ifs <;> rfl
  · rw [List.map_append]
    rfl

theorem addPending_mem {pending : List Event} {e x : Event} (hx : x ∈ addPending pending e) :
    (x.record = e.record ∧ x.type = e.type) ∨ (x.record ≠ e.record ∧ x ∈ pending) := by
  rw [addPending] at hx
  split_ifs at hx with hmem
  · obtain ⟨old, hold, rfl⟩ := List.mem_map.mp hx
    by_cases heq : old.record = e.record
    · rw [if_pos heq]
      exact Or.inl ⟨heq, rfl⟩
    · rw [if_neg heq]
      exact Or.inr ⟨heq, hold⟩
  · rcases List.mem_append.mp hx with hx | hx
    · exact Or.inr ⟨fun heq => hmem (heq ▸ List.mem_map_of_mem hx), hx⟩
    · rw [List.mem_singleton.mp hx]
      exact Or.inl ⟨rfl, rfl⟩

namespace Follows

theorem addevent (hf : Follows h pending) (e : Event) :
    Follows (h ++ [.added e]) (addPending pending e) where
  order := by rw [addPending_records, firstInserted_append, hf.order]
  nodup := by
    rw [addPending_records]
    split_ifs with hmem
    · exact hf.nodup
    · rw [List.nodup_append]
      exact ⟨hf.nodup, List.nodup_singleton _, fun a ha b hb heq =>
        hmem (List.mem_singleton.mp hb ▸ heq ▸ ha)⟩
  latest x hx := by
    rw [latestType_append]
    rcases addPending_mem hx with ⟨hr, ht⟩ | ⟨hr, hx⟩
    · simp [hr, ht]
    · simp [Ne.symm hr, hf.latest x hx]
  absent r hr := by
    rw [addPending_records] at hr
    rw [latestType_append]
    by_cases heq : e.record = r
    · split_ifs at hr with hmem
      · exact absurd (heq ▸ hmem) hr
      · exact absurd (by simp [heq]) hr
    · have hr' : r ∉ pending.map Event.record := by
        split_ifs at hr with hmem
        · exact hr
        · exact fun hm => hr (List.mem_append_left _ hm)
      simp [heq, hf.absent r hr']
  pops := hf.pops.append (fun _ he => by cases he) (fun he => by cases he)

theorem pop_nil (hf : Follows h []) : Follows (h ++ [.nothing]) [] where
  order := by rw [firstInserted_append, ← hf.order]
  nodup := hf.nodup
  latest e he := by cases he
  absent r hr := by rw [latestType_append]; exact hf.absent r hr
  pops := hf.pops.append (fun _ he => by cases he) (fun _ => hf.order.symm)

theorem pop_cons {e : Event} {rest : List Event} (hf : Follows h (e :: rest)) :
    Follows (h ++ [.popped e]) rest := by
  have hnd := List.nodup_cons.mp (List.map_cons ▸ hf.nodup)
  refine ⟨?_, hnd.2, fun x hx => ?_, fun r hr => ?_, ?_⟩
  · rw [firstInserted_append, ← hf.order]
    simp
  · have hne : e.record ≠ x.record := fun heq => hnd.1 (heq ▸ List.mem_map_of_mem hx)
    rw [latestType_append]
    simp [hne, hf.latest x (List.mem_cons_of_mem _ hx)]
  · rw [latestType_append]
    by_cases heq : e.record = r
    · simp [heq]
    · have hr' : r ∉ (e :: rest).map Event.record := by
        rw [List.map_cons, List.mem_cons, not_or]
        exact ⟨fun h => heq h.symm, hr⟩
      simp [heq, hf.absent r hr']
  · refine hf.pops.append (fun x hx => ?_) (fun hx => by cases hx)
    cases hx
    exact ⟨by simp [← hf.order], hf.latest e List.mem_cons_self⟩

end Follows

/-- What holds after any sequence of operations. -/
def Correct (s : Traced) : Prop :=
  ∃ refs pending, Refines s.queue refs pending ∧ Follows s.history pending

theorem Correct.init : Correct {} :=
  ⟨[], [], .empty, rfl, List.nodup_nil, fun _ he => absurd he List.not_mem_nil, fun _ _ => rfl,
    fun before e after heq => absurd heq (by simp), fun before after heq => absurd heq (by simp)⟩

/-- No operation fails, and each keeps the queue correct. -/
theorem Correct.step {s : Traced} (hs : Correct s) (op : Op) :
    ∃ t, s.step op = some t ∧ Correct t := by
  obtain ⟨refs, pending, href, hfol⟩ := hs
  cases op with
  | addevent e =>
      obtain ⟨refs', href'⟩ := href.addevent e
      exact ⟨_, rfl, refs', _, href', hfol.addevent e⟩
  | pop =>
      cases pending with
      | nil =>
          refine ⟨⟨s.queue, s.history ++ [.nothing]⟩, ?_, refs, [], href, hfol.pop_nil⟩
          simp [Traced.step, href.pop_nil]
      | cons e rest =>
          obtain ⟨q, refs', hpop, href'⟩ := href.pop_cons
          refine ⟨⟨q, s.history ++ [.popped e]⟩, ?_, refs', rest, href', hfol.pop_cons⟩
          simp [Traced.step, hpop]

theorem history_step {s t : Traced} {op : Op} (h : s.step op = some t) :
    t.history.map Entry.op = s.history.map Entry.op ++ [op] := by
  cases op with
  | addevent e =>
      obtain rfl := Option.some.inj h
      rw [List.map_append]
      rfl
  | pop =>
      obtain ⟨⟨q, popped⟩, -, rfl⟩ := Option.map_eq_some_iff.mp h
      rw [List.map_append]
      cases popped <;> rfl

theorem Correct.run {s : Traced} (hs : Correct s) (ops : List Op) :
    ∃ t, queue.run s ops = some t ∧ Correct t ∧
      t.history.map Entry.op = s.history.map Entry.op ++ ops := by
  induction ops generalizing s with
  | nil => exact ⟨s, rfl, hs, (List.append_nil _).symm⟩
  | cons op ops ih =>
      obtain ⟨u, hu, hcu⟩ := hs.step op
      obtain ⟨t, ht, hct, hops⟩ := ih hcu
      refine ⟨t, ?_, hct, ?_⟩
      · rw [System.run_cons, show queue.step s op = some u from hu]
        exact ht
      · rw [hops, history_step hu, List.append_assoc]
        rfl

/-- Every sequence of calls succeeds and leaves the queue holding exactly the pending events: one
for each record, in the order of first insertion, with the type last added. -/
theorem queue_represents_pending (ops : List Op) :
    ∃ s, queue.run queue.init ops = some s ∧ s.history.map Entry.op = ops ∧
      ∃ pending, Represents s.queue pending ∧
      pending.map Event.record = firstInserted s.history ∧
      (pending.map Event.record).Nodup ∧
      (∀ e ∈ pending, latestType s.history e.record = some e.type) ∧
      (∀ r, r ∉ pending.map Event.record → latestType s.history r = none) ∧
      PopsInOrder s.history ∧
      (s.queue.head = s.queue.tail ↔ pending = []) ∧
      Function.Injective index := by
  obtain ⟨s, hs, ⟨refs, pending, href, hfol⟩, hops⟩ := Correct.init.run ops
  exact ⟨s, hs, hops, pending, href.represents, hfol.order, hfol.nodup, hfol.latest, hfol.absent,
    hfol.pops, href.head_eq_tail, index_injective⟩

end GameServer.SaveQueue
