import GameServer.MatchStep
import Mathlib.Data.List.Sort

/-!
# A tick of the keep list

`updateKeeplist` walks down the indices that `keep_list` had at the start. A match on the way may
take entries that the loop has not come to; then the indices ahead hold other entries, or none.
`handleMatch` returns at once here.
-/

namespace GameServer.Match

/-- What `table.sort` makes of a list by descending index. -/
structure TableSort where
  sort : (Player → ℕ) → List Player → List Player
  perm : ∀ index l, (sort index l).Perm l
  sorted : ∀ index l, (sort index l).Pairwise fun a b => index b ≤ index a

/-- What happens to a player in a tick: its time gets `dt`, it goes on to `addtoStictlist`, it is in
a match. -/
inductive Event
  | added (p : Player)
  | moved (p : Player)
  | taken (p : Player)
  deriving DecidableEq

/-- The events stand in the order in which they happen. -/
structure Tick where
  service : Service
  events : List Event

namespace Service

variable (sort : TableSort) (dt : ℤ) (s : Service) (i : ℕ) (p : Player)

/-- `p.time > listTimeouts["keep"]` behind `p.time = p.time + dt`. -/
def exceeds : Prop := s.listTimeouts.keep < (s.vars p).time + dt

instance : Decidable (s.exceeds dt p) := inferInstanceAs (Decidable (_ < _))

def wait : Service := s.setVars p { s.vars p with time := (s.vars p).time + dt }

def leave : Service :=
  { s with keep_list := s.keep_list.eraseIdx i }.setVars p
    { s.vars p with time := 0, failNum := 0 }

def addtoStictlist (loop : Loop) : Option Service :=
  s.stepStictlist p loop (sort.sort
    (fun v => (s.marked p (s.range p eloStrict) v).index_list)
    ((s.found p (s.range p eloStrict)).take (MATCH_NUM - 1)))

/-- Who is in the match, for a search that found one, behind `handleMatch`. -/
def handleMatch : Service × List Player :=
  match s.running with
  | some ⟨some (.handleMatch t), loop⟩ =>
    ({ s with
        vars := assign s.vars t
        nowInMatchers := fun account =>
          if account ∈ (t.map fun v : Player => v.account) then false
          else s.nowInMatchers account }.run
      ⟨none, loop⟩, t)
  | _ => (s, [])

end Service

namespace Tick

variable (sort : TableSort) (dt : ℤ)

/-- One round of the loop; `none` is an index of `nil`. -/
def round (i : ℕ) (a : Tick) : Option Tick := do
  let p ← a.service.keep_list[i]?
  if a.service.exceeds dt p then do
    let s ← (a.service.leave i p).addtoStictlist sort p (.updateKeeplist i)
    let (s, t) := s.handleMatch
    return ⟨s, a.events ++ [.added p, .moved p] ++ t.map .taken⟩
  else return ⟨a.service.wait dt p, a.events ++ [.added p]⟩

def updateKeeplist : ℕ → Tick → Option Tick
  | 0, a => some a
  | i + 1, a => (a.round sort dt i).bind (updateKeeplist i)

end Tick

namespace Service

variable (sort : TableSort) (dt : ℤ) (s : Service) (p : Player)

def keepTick : Option Tick := Tick.updateKeeplist sort dt s.keep_list.length ⟨s, []⟩

/-- A match took the player before it went on. -/
def TakenFirst (events : List Event) (p : Player) : Prop :=
  (events.find? fun e => e = .taken p ∨ e = .moved p) = some (.taken p)

/-- Every entry of `keep_list` that is still there or went on got `dt` once, and those over the
timeout went on unless a match took them before. -/
structure KeepTicked (a : Tick) : Prop where
  added : ∀ p ∈ s.keep_list, (p ∈ a.service.queue ∨ .moved p ∈ a.events) →
    a.events.count (.added p) = 1
  time : ∀ p ∈ s.keep_list, p ∈ a.service.queue → .moved p ∉ a.events →
    (a.service.vars p).time = (s.vars p).time + dt
  moved : ∀ p, .moved p ∈ a.events ↔
    p ∈ s.keep_list ∧ s.exceeds dt p ∧ ¬ TakenFirst a.events p

/-- Those with whom a strict search makes a match. -/
def partners : List Player :=
  if (s.found p (s.range p eloStrict)).length < MATCH_NUM - 1 then []
  else (s.found p (s.range p eloStrict)).take (MATCH_NUM - 1)

end Service

namespace Tick

variable (sort : TableSort) (dt : ℤ)

/-- No match takes an entry that the loop has not come to. -/
def Spares : ℕ → Tick → Prop
  | 0, _ => True
  | i + 1, a =>
    (∀ p ∈ a.service.keep_list[i]?, a.service.exceeds dt p →
      ∀ v ∈ (a.service.leave i p).partners p, v ∉ a.service.keep_list.take i) ∧
    ∀ b ∈ a.round sort dt i, Spares i b

instance decidableSpares : ∀ i a, Decidable (Spares sort dt i a)
  | 0, _ => isTrue trivial
  | i + 1, _ =>
    have := decidableSpares i
    inferInstanceAs (Decidable ((∀ p ∈ _, _ → ∀ v ∈ _, v ∉ _) ∧ ∀ b ∈ _, Spares sort dt i b))

end Tick

/-! ## The search -/

namespace Service

variable {s s' : Service} {sort : TableSort} {dt : ℤ} {i : ℕ} {p v : Player} {loop : Loop}

/-- The loop of the source with its own `dt`. -/
theorem stepLoop_updateKeeplist (hp : s.keep_list[i]? = some p) :
    s.stepLoop (.updateKeeplist (i + 1)) =
      if s.exceeds Match.dt p then
        (s.leave i p).run ⟨some (.addtoStictlist p), .updateKeeplist i⟩
      else (s.wait Match.dt p).run ⟨none, .updateKeeplist i⟩ := by
  simp only [stepLoop, hp, exceeds]
  rfl

theorem Apart.queue_nodup (h : s.Apart) : s.queue.Nodup := by
  have hperm : (s.strict_list ++ s.keep_list ++ s.loose_list).Perm s.queue :=
    List.perm_append_comm.append_right _
  exact hperm.nodup_iff.mp h.append_nodup

theorem time_mark (p : Player) (r : ℤ) (q : Queue) (vars : Player → Vars) (l : List Player) (i : ℕ)
    (v : Player) : (mark p r q vars l i v).time = (vars v).time := by
  induction l generalizing vars i with
  | nil => rfl
  | cons u l ih =>
      rw [mark, ih]
      split
      · by_cases hv : v = u
        · rw [hv, Function.update_self]
        · rw [Function.update_of_ne hv]
      · rfl

theorem time_marked (s : Service) (p : Player) (r : ℤ) (v : Player) :
    (s.marked p r v).time = (s.vars v).time := by
  rw [marked, time_mark, time_mark, time_mark]

theorem time_assign (vars : Player → Vars) (t : List Player) (v : Player) :
    (assign vars t v).time = (vars v).time := by
  rw [assign]
  generalize t.zipIdx = l
  induction l generalizing vars with
  | nil => rfl
  | cons m l ih =>
      rw [List.foldl_cons, ih]
      by_cases hv : v = m.1
      · rw [hv, Function.update_self]
      · rw [Function.update_of_ne hv]

/-- What a search in the tick leaves. -/
structure Searched (s : Service) (p : Player) (s' : Service) (t : List Player) : Prop where
  keep_list : s'.keep_list = s.keep_list.filter fun v => v ∉ s.partners p
  strict_list : ∀ v ∈ s'.strict_list, v ∈ s.strict_list ∨ v = p
  loose_list : s'.loose_list ⊆ s.loose_list
  nodup : p ∉ s.queue → s'.queue.Nodup
  listTimeouts : s'.listTimeouts = s.listTimeouts
  time : ∀ v, (s'.vars v).time = (s.vars v).time
  taken : ∀ v ∈ t, v = p ∨ v ∈ s.partners p

theorem exists_searched (sort : TableSort) (h : s.queue.Nodup) (p : Player) (loop : Loop) :
    ∃ s₁, s.addtoStictlist sort p loop = some s₁ ∧
      s.Searched p s₁.handleMatch.1 s₁.handleMatch.2 := by
  by_cases hfew : (s.found p (s.range p eloStrict)).length < MATCH_NUM - 1
  · have hpartners : s.partners p = [] := if_pos hfew
    refine ⟨_, if_pos hfew, ?_, ?_, ?_, ?_, rfl, ?_, nofun⟩
    · rw [hpartners]
      simp [handleMatch, run, enlist, setVars, setList]
    · intro v hv
      obtain hv | hv := List.mem_append.mp hv
      · exact .inl hv
      · exact .inr (List.mem_singleton.mp hv)
    · exact fun v hv => hv
    · intro hp
      have hperm : (s.keep_list ++ (s.strict_list ++ [p]) ++ s.loose_list).Perm (p :: s.queue) := by
        rw [queue, ← List.append_assoc, List.append_assoc _ [p]]
        exact List.perm_middle
      exact hperm.nodup_iff.mpr (List.nodup_cons.mpr ⟨hp, h⟩)
    · intro v
      change (Function.update (s.marked p (s.range p eloStrict)) p _ v).time = _
      by_cases hv : v = p
      · subst hv
        rw [Function.update_self]
        exact time_marked s v _ v
      · rw [Function.update_of_ne hv]
        exact time_marked s p _ v
  · have hpartners : s.partners p = (s.found p (s.range p eloStrict)).take (MATCH_NUM - 1) :=
      if_neg hfew
    let order := sort.sort (fun v => (s.marked p (s.range p eloStrict) v).index_list)
      ((s.found p (s.range p eloStrict)).take (MATCH_NUM - 1))
    have horder : s.Sorts p order := ⟨sort.perm _ _, sort.sorted _ _⟩
    have hmem : ∀ v, v ∈ order ↔ v ∈ s.partners p := fun v => by
      rw [hpartners]
      exact horder.1.mem_iff
    refine ⟨_, step_of_sorts _ (apart_of_nodup h) hfew horder, ?_, ?_, ?_, ?_, rfl, ?_, ?_⟩
    · exact List.filter_congr fun v _ => decide_eq_decide.mpr (not_congr (hmem v))
    · exact fun v hv => .inl (List.mem_of_mem_filter hv)
    · exact fun v hv => List.mem_of_mem_filter hv
    · intro _
      have hqueue := h.filter fun v => decide (v ∉ order)
      rw [queue, List.filter_append, List.filter_append] at hqueue
      exact hqueue
    · intro v
      exact (time_assign _ _ v).trans (time_marked s p _ v)
    · intro v hv
      obtain hv | hv := List.mem_append.mp hv
      · exact .inr ((hmem v).mp hv)
      · exact .inl (List.mem_singleton.mp hv)

theorem queue_leave (hp : s.keep_list[i]? = some p) : (p :: (s.leave i p).queue).Perm s.queue := by
  obtain ⟨hi, rfl⟩ := List.getElem?_eq_some_iff.mp hp
  have hperm : (s.keep_list[i] :: s.keep_list.eraseIdx i).Perm s.keep_list :=
    (List.getElem_cons_eraseIdx_perm hi)
  exact (hperm.append_right s.strict_list).append_right s.loose_list

theorem TakenFirst.of_append {events new : List Event}
    (h : TakenFirst (events ++ new) p) :
    TakenFirst events p ∨ .moved p ∉ events ∧ TakenFirst new p := by
  rw [TakenFirst, List.find?_append] at h
  cases hfind : events.find? fun e => e = .taken p ∨ e = .moved p with
  | some e =>
      rw [hfind, Option.some_or] at h
      exact .inl (hfind.trans h)
  | none =>
      rw [hfind, Option.none_or] at h
      refine .inr ⟨fun hmem => ?_, h⟩
      simpa using List.find?_eq_none.mp hfind _ hmem

end Service

namespace Tick

open Service

variable {sort : TableSort} {dt : ℤ} {i : ℕ} {p u : Player} {s : Service} {a b : Tick}

/-! ## Rounds -/

/-- The tick of `s` with `i` entries ahead, as long as no match took one of these. -/
structure Going (dt : ℤ) (s : Service) (i : ℕ) (a : Tick) : Prop where
  nodup : a.service.queue.Nodup
  le : i ≤ s.keep_list.length
  keep_list : ∃ rest, a.service.keep_list = s.keep_list.take i ++ rest ∧
    rest ⊆ s.keep_list.drop i
  strict_list : ∀ v ∈ a.service.strict_list, v ∈ s.strict_list ∨ .moved v ∈ a.events
  loose_list : a.service.loose_list ⊆ s.loose_list
  listTimeouts : a.service.listTimeouts = s.listTimeouts
  ahead : ∀ v ∈ s.keep_list.take i, (a.service.vars v).time = (s.vars v).time
  behind : ∀ v ∈ s.keep_list.drop i, .moved v ∉ a.events →
    (a.service.vars v).time = (s.vars v).time + dt
  added : ∀ v, a.events.count (.added v) = if v ∈ s.keep_list.drop i then 1 else 0
  moved : ∀ v, .moved v ∈ a.events ↔ v ∈ s.keep_list.drop i ∧ s.exceeds dt v
  taken : ∀ v ∈ s.keep_list, TakenFirst a.events v → ¬ s.exceeds dt v

theorem going_start (dt : ℤ) (h : s.Apart) : Going dt s s.keep_list.length ⟨s, []⟩ where
  nodup := h.queue_nodup
  le := le_rfl
  keep_list := ⟨[], by simp, nofun⟩
  strict_list _ hv := .inl hv
  loose_list _ hv := hv
  listTimeouts := rfl
  ahead _ _ := rfl
  behind v hv := by simp at hv
  added v := by simp
  moved v := by simp
  taken v _ h := by cases h

/-- The entry of a round is the one that was there at the start. -/
theorem Going.entry (h : Going dt s (i + 1) a) :
    ∃ p, s.keep_list[i]? = some p ∧ a.service.keep_list[i]? = some p ∧
      s.keep_list.drop i = p :: s.keep_list.drop (i + 1) ∧
      s.keep_list.take (i + 1) = s.keep_list.take i ++ [p] := by
  have hi : i < s.keep_list.length := h.le
  obtain ⟨rest, hkeep, -⟩ := h.keep_list
  refine ⟨s.keep_list[i], List.getElem?_eq_getElem hi, ?_, List.drop_eq_getElem_cons hi,
    (List.take_append_getElem hi).symm⟩
  rw [hkeep, List.getElem?_append_left (by rw [List.length_take]; omega),
    List.getElem?_take_of_lt (Nat.lt_succ_self i), List.getElem?_eq_getElem hi]

theorem Going.exceeds_iff (h : Going dt s (i + 1) a) (hp : p ∈ s.keep_list.take (i + 1)) :
    a.service.exceeds dt p ↔ s.exceeds dt p := by
  rw [exceeds, exceeds, h.listTimeouts, h.ahead p hp]

theorem Going.take_eq (h : Going dt s (i + 1) a) :
    a.service.keep_list.take i = s.keep_list.take i := by
  obtain ⟨rest, hkeep, -⟩ := h.keep_list
  rw [hkeep, List.take_append_of_le_length (by rw [List.length_take]; have := h.le; omega),
    List.take_take, Nat.min_eq_left (Nat.le_succ i)]

theorem round_wait (sort : TableSort) (hp : a.service.keep_list[i]? = some p)
    (hexceeds : ¬ a.service.exceeds dt p) :
    a.round sort dt i = some ⟨a.service.wait dt p, a.events ++ [.added p]⟩ := by
  simp only [round, hp, Option.bind_eq_bind, Option.bind_some, if_neg hexceeds, Option.pure_def]

theorem round_leave {s₁ : Service} (hp : a.service.keep_list[i]? = some p)
    (hexceeds : a.service.exceeds dt p)
    (hs : (a.service.leave i p).addtoStictlist sort p (.updateKeeplist i) = some s₁) :
    a.round sort dt i = some ⟨s₁.handleMatch.1,
      a.events ++ [.added p, .moved p] ++ s₁.handleMatch.2.map .taken⟩ := by
  simp only [round, hp, Option.bind_eq_bind, Option.bind_some, if_pos hexceeds, Option.pure_def, hs]

theorem count_added_taken (t : List Player) (v : Player) :
    (t.map Event.taken).count (.added v) = 0 :=
  List.count_eq_zero.mpr fun h => by
    obtain ⟨_, _, h⟩ := List.mem_map.mp h
    cases h

theorem going_wait (hs : s.keep_list.Nodup) (h : Going dt s (i + 1) a)
    (hp : s.keep_list[i]? = some p) (hexceeds : ¬ s.exceeds dt p) :
    Going dt s i ⟨a.service.wait dt p, a.events ++ [.added p]⟩ := by
  obtain ⟨p', hp', hkeep, hdrop, htake⟩ := h.entry
  obtain rfl := Option.some.inj (hp'.symm.trans hp)
  have hsplit := List.take_append_drop i s.keep_list
  rw [← hsplit, hdrop] at hs
  obtain ⟨-, hdropnodup, hdisj⟩ := List.nodup_append'.mp hs
  have hp_take : p' ∉ s.keep_list.take i := fun hmem => hdisj hmem List.mem_cons_self
  have hp_drop : p' ∉ s.keep_list.drop (i + 1) := (List.nodup_cons.mp hdropnodup).1
  have hother : ∀ v, v ≠ p' → ((a.service.wait dt p').vars v).time = (a.service.vars v).time :=
    fun v hv => congrArg Vars.time (Function.update_of_ne hv _ _)
  refine ⟨h.nodup, Nat.le_of_succ_le h.le, ?_, ?_, h.loose_list, h.listTimeouts, ?_, ?_, ?_, ?_, ?_⟩
  · obtain ⟨rest, hkeep, hrest⟩ := h.keep_list
    refine ⟨p' :: rest, ?_, ?_⟩
    · change a.service.keep_list = _
      rw [hkeep, htake, List.append_assoc, List.singleton_append]
    · rw [hdrop]
      exact List.cons_subset_cons _ hrest
  · exact fun v hv => (h.strict_list v hv).imp_right fun hmem => List.mem_append_left _ hmem
  · intro v hv
    rw [hother v (ne_of_mem_of_not_mem hv hp_take)]
    exact h.ahead v (htake ▸ List.mem_append_left _ hv)
  · intro v hv hmoved
    rw [hdrop, List.mem_cons] at hv
    obtain rfl | hv := hv
    · have htime := h.ahead v (htake ▸ List.mem_append_right _ List.mem_cons_self)
      rw [← htime]
      change (Function.update a.service.vars v _ v).time = _
      rw [Function.update_self]
    · rw [hother v (ne_of_mem_of_not_mem hv hp_drop)]
      exact h.behind v hv fun hmem => hmoved (List.mem_append_left _ hmem)
  · intro v
    rw [List.count_append, h.added, hdrop]
    by_cases hv : v = p'
    · subst hv
      simp [hp_drop]
    · have hne : p' ≠ v := Ne.symm hv
      simp [hv, hne]
  · intro v
    have hevents : .moved v ∈ a.events ++ [.added p'] ↔ .moved v ∈ a.events := by simp
    rw [hevents, h.moved, hdrop, List.mem_cons]
    refine ⟨fun ⟨hv, hex⟩ => ⟨.inr hv, hex⟩, fun ⟨hv, hex⟩ => ⟨hv.resolve_left ?_, hex⟩⟩
    rintro rfl
    exact hexceeds hex
  · intro v hv htaken
    obtain htaken | ⟨-, htaken⟩ := htaken.of_append
    · exact h.taken v hv htaken
    · simp [TakenFirst] at htaken

/-- What a round with a search leaves, whomever the match takes. -/
theorem exists_leave (sort : TableSort) (h : Going dt s (i + 1) a) (hp : s.keep_list[i]? = some p)
    (hexceeds : s.exceeds dt p) :
    ∃ b t, a.round sort dt i = some b ∧
      b.events = a.events ++ [.added p, .moved p] ++ t.map .taken ∧
      (a.service.leave i p).Searched p b.service t ∧ p ∉ (a.service.leave i p).queue := by
  obtain ⟨p', hp', hkeep, -, htake⟩ := h.entry
  obtain rfl := Option.some.inj (hp'.symm.trans hp)
  have hperm := queue_leave hkeep
  obtain ⟨hmem, hnodup⟩ := List.nodup_cons.mp (hperm.nodup_iff.mpr h.nodup)
  obtain ⟨s₁, hs₁, hsearched⟩ := exists_searched sort hnodup p' (.updateKeeplist i)
  refine ⟨_, _, round_leave hkeep ?_ hs₁, rfl, hsearched, hmem⟩
  exact (h.exceeds_iff (htake ▸ List.mem_append_right _ List.mem_cons_self)).mpr hexceeds

theorem keep_list_leave (h : Going dt s (i + 1) a) (hp : s.keep_list[i]? = some p) :
    ∃ rest, (a.service.leave i p).keep_list = s.keep_list.take i ++ rest ∧
      rest ⊆ s.keep_list.drop (i + 1) := by
  obtain ⟨p', hp', -, -, htake⟩ := h.entry
  obtain rfl := Option.some.inj (hp'.symm.trans hp)
  obtain ⟨rest, hkeep, hrest⟩ := h.keep_list
  refine ⟨rest, ?_, hrest⟩
  have hlength : (s.keep_list.take i).length = i := by
    rw [List.length_take, Nat.min_eq_left (Nat.le_of_succ_le h.le)]
  change a.service.keep_list.eraseIdx i = _
  rw [hkeep, htake, List.append_assoc, List.singleton_append,
    List.eraseIdx_append_of_length_le hlength.le, hlength, Nat.sub_self, List.eraseIdx_cons_zero]

theorem going_leave {t : List Player} (hs : s.keep_list.Nodup) (h : Going dt s (i + 1) a)
    (hp : s.keep_list[i]? = some p) (hexceeds : s.exceeds dt p)
    (hevents : b.events = a.events ++ [.added p, .moved p] ++ t.map .taken)
    (hsearched : (a.service.leave i p).Searched p b.service t)
    (hleft : p ∉ (a.service.leave i p).queue)
    (hspares : ∀ v ∈ (a.service.leave i p).partners p, v ∉ s.keep_list.take i) :
    Going dt s i b := by
  obtain ⟨p', hp', hkeep, hdrop, htake⟩ := h.entry
  obtain rfl := Option.some.inj (hp'.symm.trans hp)
  have hsplit := List.take_append_drop i s.keep_list
  rw [← hsplit, hdrop] at hs
  obtain ⟨-, hdropnodup, hdisj⟩ := List.nodup_append'.mp hs
  have hp_take : p' ∉ s.keep_list.take i := fun hmem => hdisj hmem List.mem_cons_self
  have hp_drop : p' ∉ s.keep_list.drop (i + 1) := (List.nodup_cons.mp hdropnodup).1
  have htime : ∀ v, v ≠ p' → (b.service.vars v).time = (a.service.vars v).time := fun v hv =>
    (hsearched.time v).trans (congrArg Vars.time (Function.update_of_ne hv _ _))
  have hmoved : .moved p' ∈ b.events := by simp [hevents]
  have hold : ∀ e ∈ a.events, e ∈ b.events := fun e he => by simp [hevents, he]
  have hnew : ∀ v, .moved v ∈ b.events ↔ .moved v ∈ a.events ∨ v = p' := by simp [hevents]
  refine ⟨hsearched.nodup hleft, Nat.le_of_succ_le h.le, ?_, ?_, ?_, ?_, ?_, ?_, ?_, ?_, ?_⟩
  · obtain ⟨rest, hleave, hrest⟩ := keep_list_leave h hp
    refine ⟨rest.filter fun v => v ∉ (a.service.leave i p').partners p', ?_, ?_⟩
    · rw [hsearched.keep_list, hleave, List.filter_append, List.filter_eq_self.mpr]
      exact fun v hv => decide_eq_true fun hmem => hspares v hmem hv
    · rw [hdrop]
      exact fun v hv => List.mem_cons_of_mem _ (hrest (List.mem_of_mem_filter hv))
  · intro v hv
    obtain hv | rfl := hsearched.strict_list v hv
    · exact (h.strict_list v hv).imp_right fun hmem => hold _ hmem
    · exact .inr hmoved
  · exact fun v hv => h.loose_list (hsearched.loose_list hv)
  · exact hsearched.listTimeouts.trans h.listTimeouts
  · intro v hv
    rw [htime v (ne_of_mem_of_not_mem hv hp_take)]
    exact h.ahead v (htake ▸ List.mem_append_left _ hv)
  · intro v hv hstays
    have hne : v ≠ p' := fun heq => hstays (heq ▸ hmoved)
    rw [hdrop, List.mem_cons] at hv
    rw [htime v hne]
    exact h.behind v (hv.resolve_left hne) fun hmem => hstays (hold _ hmem)
  · intro v
    rw [hevents, List.count_append, List.count_append, count_added_taken, h.added, hdrop]
    by_cases hv : v = p'
    · subst hv
      simp [hp_drop]
    · have hne : p' ≠ v := Ne.symm hv
      simp [hv, hne]
  · intro v
    rw [hnew, h.moved, hdrop, List.mem_cons]
    constructor
    · rintro (⟨hv, hex⟩ | rfl)
      · exact ⟨.inr hv, hex⟩
      · exact ⟨.inl rfl, hexceeds⟩
    · rintro ⟨rfl | hv, hex⟩
      · exact .inr rfl
      · exact .inl ⟨hv, hex⟩
  · intro v hv htaken
    rw [hevents, List.append_assoc] at htaken
    obtain htaken | ⟨hstays, htaken⟩ := htaken.of_append
    · exact h.taken v hv htaken
    -- whoever is over the timeout behind the loop has gone on, and those ahead are spared
    intro hex
    have hmem := List.mem_of_find?_eq_some htaken
    have hin : v ∈ t := by simpa using hmem
    obtain rfl | hpartner := hsearched.taken v hin
    · simp [TakenFirst] at htaken
    · rw [← hsplit, hdrop] at hv
      obtain hv | hv := List.mem_append.mp hv
      · exact hspares v hpartner hv
      · obtain rfl | hv := List.mem_cons.mp hv
        · simp [TakenFirst] at htaken
        · exact hstays ((h.moved v).mpr ⟨hv, hex⟩)

/-! ## The whole tick -/

theorem going_updateKeeplist (hs : s.keep_list.Nodup) (h : Going dt s i a)
    (hspares : a.Spares sort dt i) :
    ∃ b, a.updateKeeplist sort dt i = some b ∧ Going dt s 0 b := by
  induction i generalizing a with
  | zero => exact ⟨a, rfl, h⟩
  | succ i ih =>
      obtain ⟨p, hp, hkeep, -, htake⟩ := h.entry
      have hiff := h.exceeds_iff (htake ▸ List.mem_append_right _ List.mem_cons_self)
      obtain ⟨hpartners, hrest⟩ := hspares
      by_cases hexceeds : s.exceeds dt p
      · obtain ⟨b, t, hround, hevents, hsearched, hleft⟩ := exists_leave sort h hp hexceeds
        have hfree := hpartners p hkeep (hiff.mpr hexceeds)
        rw [h.take_eq] at hfree
        obtain ⟨c, hc, hgoing⟩ := ih (going_leave hs h hp hexceeds hevents hsearched hleft hfree)
          (hrest b hround)
        exact ⟨c, by rw [updateKeeplist, hround, Option.bind_some, hc], hgoing⟩
      · have hround := round_wait sort hkeep fun hex => hexceeds (hiff.mp hex)
        obtain ⟨c, hc, hgoing⟩ := ih (going_wait hs h hp hexceeds) (hrest _ hround)
        exact ⟨c, by rw [updateKeeplist, hround, Option.bind_some, hc], hgoing⟩

theorem Going.keepTicked (h : Going dt s 0 a) :
    s.KeepTicked dt a ∧ ∀ v, a.events.count (.added v) ≤ 1 := by
  have hadded := h.added
  have hmoved := h.moved
  have hbehind := h.behind
  simp only [List.drop_zero] at hadded hmoved hbehind
  refine ⟨⟨fun p hp _ => by rw [hadded, if_pos hp], fun p hp _ hstays => hbehind p hp hstays,
    fun p => ?_⟩, fun v => ?_⟩
  · rw [hmoved]
    exact ⟨fun ⟨hp, hex⟩ => ⟨hp, hex, fun htaken => h.taken p hp htaken hex⟩,
      fun ⟨hp, hex, _⟩ => ⟨hp, hex⟩⟩
  · rw [hadded]
    split_ifs
    · exact le_rfl
    · exact Nat.zero_le 1

theorem events_of_round (h : a.round sort dt i = some b) :
    ∃ p new, a.service.keep_list[i]? = some p ∧ b.events = a.events ++ .added p :: new := by
  simp only [round, Option.bind_eq_bind, Option.bind_eq_some_iff, Option.pure_def] at h
  obtain ⟨p, hp, h⟩ := h
  split_ifs at h
  · obtain ⟨s₁, -, h⟩ := Option.bind_eq_some_iff.mp h
    obtain rfl := Option.some.inj h
    exact ⟨p, _, hp, by rw [List.append_assoc]; rfl⟩
  · obtain rfl := Option.some.inj h
    exact ⟨p, [], hp, rfl⟩

theorem count_le_of_updateKeeplist (e : Event) (h : a.updateKeeplist sort dt i = some b) :
    a.events.count e ≤ b.events.count e := by
  induction i generalizing a with
  | zero => exact (Option.some.inj h ▸ le_rfl)
  | succ i ih =>
      obtain ⟨c, hround, h⟩ := Option.bind_eq_some_iff.mp h
      obtain ⟨p, new, -, hevents⟩ := events_of_round hround
      refine le_trans ?_ (ih h)
      rw [hevents, List.count_append]
      exact Nat.le_add_right _ _

/-- The rest of the tick indexes a missing entry, or adds `dt` twice to one. -/
def Fails (sort : TableSort) (dt : ℤ) (s : Service) (i : ℕ) (a : Tick) : Prop :=
  a.updateKeeplist sort dt i = none ∨ ∃ b p, a.updateKeeplist sort dt i = some b ∧
    p ∈ s.keep_list ∧ 2 ≤ b.events.count (.added p)

/-- Behind a match that took an entry ahead, the next index holds an entry that the loop has come
to, or none. -/
theorem fails_of_partner {t : List Player} {v : Player} (h : Going dt s (i + 1) a)
    (hp : s.keep_list[i]? = some p)
    (hevents : b.events = a.events ++ [.added p, .moved p] ++ t.map .taken)
    (hsearched : (a.service.leave i p).Searched p b.service t)
    (hv : v ∈ (a.service.leave i p).partners p) (hahead : v ∈ s.keep_list.take i) :
    Fails sort dt s i b := by
  obtain ⟨rest, hleave, hrest⟩ := keep_list_leave h hp
  cases i with
  | zero => simp at hahead
  | succ i =>
      cases hu : b.service.keep_list[i]? with
      | none =>
          left
          rw [updateKeeplist, round, hu]
          rfl
      | some u =>
          have hmem : u ∈ rest := by
            rw [hsearched.keep_list, hleave, List.filter_append,
              List.getElem?_append_right] at hu
            · exact List.mem_of_mem_filter (List.mem_of_getElem? hu)
            · have hlt : ((s.keep_list.take (i + 1)).filter fun v =>
                  v ∉ (a.service.leave (i + 1) p).partners p).length <
                    (s.keep_list.take (i + 1)).length :=
                List.length_filter_lt_length_iff_exists.mpr ⟨v, hahead, by simpa using hv⟩
              have hlength := List.length_take_le (i + 1) s.keep_list
              omega
          have hdrop := hrest hmem
          have hcount : 1 ≤ b.events.count (.added u) := by
            rw [hevents, List.append_assoc, List.count_append, h.added, if_pos hdrop]
            exact Nat.le_add_right _ _
          cases hround : b.round sort dt i with
          | none =>
              left
              rw [updateKeeplist, hround]
              rfl
          | some c =>
              obtain ⟨p', new, hp', hevents'⟩ := events_of_round hround
              obtain rfl := Option.some.inj (hu.symm.trans hp')
              have htwice : 2 ≤ c.events.count (.added u) := by
                rw [hevents', List.count_append, List.count_cons_self]
                omega
              rw [Fails, updateKeeplist, hround, Option.bind_some]
              cases hlast : c.updateKeeplist sort dt i with
              | none => exact .inl rfl
              | some d =>
                  exact .inr ⟨d, u, rfl, List.mem_of_mem_drop hdrop,
                    htwice.trans (count_le_of_updateKeeplist _ hlast)⟩

theorem fails_of_not_spares (hs : s.keep_list.Nodup) (h : Going dt s i a)
    (hspares : ¬ a.Spares sort dt i) : Fails sort dt s i a := by
  induction i generalizing a with
  | zero => exact absurd trivial hspares
  | succ i ih =>
      obtain ⟨p, hp, hkeep, -, htake⟩ := h.entry
      have hiff := h.exceeds_iff (htake ▸ List.mem_append_right _ List.mem_cons_self)
      have hnext : ∀ b, a.round sort dt i = some b → Fails sort dt s i b →
          Fails sort dt s (i + 1) a := fun b hround hfails => by
        rw [Fails, updateKeeplist, hround, Option.bind_some]
        exact hfails
      by_cases hexceeds : s.exceeds dt p
      · obtain ⟨b, t, hround, hevents, hsearched, hleft⟩ := exists_leave sort h hp hexceeds
        refine hnext b hround ?_
        by_cases hfree : ∀ v ∈ (a.service.leave i p).partners p, v ∉ s.keep_list.take i
        · refine ih (going_leave hs h hp hexceeds hevents hsearched hleft hfree) fun hrest => ?_
          refine hspares ⟨fun q hq _ => ?_, fun c hc => ?_⟩
          · obtain rfl := Option.some.inj (hkeep.symm.trans hq)
            rwa [h.take_eq]
          · exact Option.some.inj (hround.symm.trans hc) ▸ hrest
        · simp only [not_forall, not_not] at hfree
          obtain ⟨v, hv, hahead⟩ := hfree
          exact fails_of_partner h hp hevents hsearched hv hahead
      · have hround := round_wait sort hkeep fun hex => hexceeds (hiff.mp hex)
        refine hnext _ hround (ih (going_wait hs h hp hexceeds) fun hrest => ?_)
        refine hspares ⟨fun q hq hex => ?_, fun c hc => ?_⟩
        · obtain rfl := Option.some.inj (hkeep.symm.trans hq)
          exact absurd (hiff.mp hex) hexceeds
        · exact Option.some.inj (hround.symm.trans hc) ▸ hrest

end Tick

namespace Service

open Tick

/-- A tick goes through `keep_list` as it should, and adds `dt` to nobody twice, if and only if no
match takes an entry that the loop has not come to. -/
theorem keepTick_iff (sort : TableSort) (dt : ℤ) (s : Service) (h : s.Apart) :
    (∃ a, s.keepTick sort dt = some a ∧ s.KeepTicked dt a ∧
        ∀ p, a.events.count (.added p) ≤ 1) ↔
      Tick.Spares sort dt s.keep_list.length ⟨s, []⟩ := by
  have hstart := going_start dt h
  refine ⟨fun ⟨a, ha, _, honce⟩ => ?_, fun hspares => ?_⟩
  · by_contra hspares
    obtain hnone | ⟨b, p, hb, -, htwice⟩ :=
      fails_of_not_spares (h.nodup .keep_list) hstart hspares
    · cases hnone.symm.trans ha
    · obtain rfl := Option.some.inj (hb.symm.trans ha)
      exact absurd (honce p) (by omega)
  · obtain ⟨a, ha, hgoing⟩ := going_updateKeeplist (h.nodup .keep_list) hstart hspares
    exact ⟨a, ha, hgoing.keepTicked⟩

/-- Insertion by descending index. -/
def insertion : TableSort where
  sort index l := l.insertionSort fun a b => index b ≤ index a
  perm _ l := List.perm_insertionSort _ l
  sorted index l := List.pairwise_insertionSort (fun a b => index b ≤ index a) l

/-- The sixth player is over its timeout in `keep_list`. -/
def waiting (keep_list : List Player) : Service :=
  { start with
    keep_list
    vars := fun p => ⟨if p.ref = 6 then 1000 else 0, 0, 0, none, 0, none⟩ }

def five : List Player := (List.range 5).map fun n => playerOf n 1000 1

theorem keepTick_last : ∃ a, (waiting (playerOf 6 1000 1 :: five)).keepTick insertion 200 = some a ∧
    (waiting (playerOf 6 1000 1 :: five)).KeepTicked 200 a ∧
    ∀ p, a.events.count (.added p) ≤ 1 :=
  (keepTick_iff insertion 200 (waiting (playerOf 6 1000 1 :: five))
    (apart_of_nodup (by decide +kernel))).mpr (by decide +kernel)

/-- The sixth player goes on first and makes a match with the others: the next index is missing. -/
theorem keepTick_missing : ¬ ∃ a,
    (waiting (five ++ [playerOf 6 1000 1])).keepTick insertion 200 = some a ∧
      (waiting (five ++ [playerOf 6 1000 1])).KeepTicked 200 a := by
  have hnone : ((waiting (five ++ [playerOf 6 1000 1])).keepTick insertion 200).isNone = true := by
    decide +kernel
  rintro ⟨a, ha, -⟩
  rw [ha] at hnone
  cases hnone

end Service

end GameServer.Match
