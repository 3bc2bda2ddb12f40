import GameServer.SessionRuns

/-!
# Where a session is

The invariant of all services together, with what a step does to it in pieces: what is taken out of
a place is in no place (`hand`), until it is put into the next one or its session is over.
-/

namespace GameServer.Sessions

open Transition

/-- The coroutine has to answer the session. -/
def Lua.Handles (l : Lua) (c a s : ℕ) : Prop :=
  l.sessionCoroutineAddress c = some a ∧ l.sessionCoroutineId c = some s ∧
    l.sessionResponse c = false

/-- The closure has to answer the session. -/
def Lua.Opens (l : Lua) (r a s : ℕ) : Prop := l.responders[r]? = some ⟨s, a, .pack⟩

/-- The session of service `a` is in this place. -/
def World.Holds (w : World) (a s : ℕ) : Stage → Prop
  | .ticks => (a, s) ∈ w.timers
  | .sent b => ∃ m, .request a s m ∈ w.inbox b
  | .handled b c => (w.lua b).Handles c a s
  | .opened b r => (w.lua b).Opens r a s
  | .answered => ∃ m, .response s m ∈ w.inbox a
  | .none | .over => False

def Stage.Early : Stage → Prop
  | .answered | .over => False
  | _ => True

/-- The service that has to answer -/
def Stage.server : Stage → Option ℕ
  | .sent b | .handled b _ | .opened b _ => some b
  | _ => Option.none

structure Call.Ok (call : Call) : Prop where
  once : call.answers.length ≤ 1
  server : ∀ b m, (b, m) ∈ call.answers → call.server = some b
  told : call.outcomes.length ≤ 1
  outcome : ∀ c o, (c, o) ∈ call.outcomes → call.caller = some c ∧
    ∀ m, o = some m → ∃ b, call.answers = [(b, m)]
  early : call.stage.Early → call.answers = []
  stage : ∀ b, call.stage.server = some b → call.server = some b
  ticks : call.stage = .ticks → call.caller = none

/-- What a service knows and what is written about its sessions -/
structure Linked (l : Lua) (calls : ℕ → Call) : Prop where
  zero : calls 0 = .unused
  fresh : ∀ s, l.sessionId < s → calls s = .unused
  calling : ∀ c s, l.spot c = .calls s → (calls s).caller = some c ∧ (calls s).outcomes = []
  waiting : ∀ c s, (l.spot c).waits = some s → l.spot c ≠ .calls s → (calls s).caller = none
  errors : ∀ s ∈ l.errorQueue, (calls s).caller ≠ none
  watching : ∀ s, l.watchingSession s ≠ none → (calls s).caller ≠ none
  late : ∀ c s, l.spot c = .calls s → (calls s).stage = .over → (calls s).answers = []

structure Lawful (lua : ℕ → Lua) (calls : ℕ → ℕ → Call) : Prop where
  ok : ∀ a, (lua a).Ok
  linked : ∀ a, Linked (lua a) (calls a)
  book : ∀ a s, (calls a s).Ok

def Message.asks : Message → Option (ℕ × ℕ)
  | .request source session _ => if session = 0 then none else some (source, session)
  | _ => none

def Message.replies : Message → Option ℕ
  | .response session _ => if session = 0 then none else some session
  | _ => none

/-- The mailboxes and the timer -/
structure Boxes (w : World) (hand : Option (ℕ × ℕ)) : Prop where
  timers : w.timers.Nodup
  asks : ∀ b, ((w.inbox b).filterMap Message.asks).Nodup
  replies : ∀ a, ((w.inbox a).filterMap Message.replies).Nodup
  reply : ∀ a s m, .response s m ∈ w.inbox a → s ≠ 0 → (w.calls a s).caller ≠ none →
    ∃ b, (w.calls a s).answers = [(b, m)]
  kept : ∀ a s, w.alive a = true → (w.calls a s).stage = .answered →
    (∃ m, .response s m ∈ w.inbox a) ∨ hand = some (a, s)
  dead : ∀ a, w.alive a = false → w.inbox a = []

def Tokens (w : World) (hand : Option (ℕ × ℕ)) : Prop :=
  ∀ a s p, s ≠ 0 → w.Holds a s p → (w.calls a s).stage = p ∧ hand ≠ some (a, s)

structure Inv (w : World) (hand : Option (ℕ × ℕ)) : Prop where
  lawful : Lawful w.lua w.calls
  boxes : Boxes w hand
  tokens : Tokens w hand

/-! ## The operations -/

section

variable {w w' : World} {a b c s r frames dest : ℕ} {l l' : Lua} {f : Call → Call} {m : Message}
  {hand : Option (ℕ × ℕ)} {msg : Payload} {p : Stage}

@[simp] theorem push_lua : (w.push a m).lua = w.lua := by
  unfold World.push
  split_ifs <;> rfl

@[simp] theorem push_calls : (w.push a m).calls = w.calls := by
  unfold World.push
  split_ifs <;> rfl

@[simp] theorem push_timers : (w.push a m).timers = w.timers := by
  unfold World.push
  split_ifs <;> rfl

@[simp] theorem push_alive : (w.push a m).alive = w.alive := by
  unfold World.push
  split_ifs <;> rfl

@[simp] theorem mark_lua : (w.mark a s f).lua = w.lua := by
  unfold World.mark
  split_ifs <;> rfl

@[simp] theorem mark_inbox : (w.mark a s f).inbox = w.inbox := by
  unfold World.mark
  split_ifs <;> rfl

@[simp] theorem mark_timers : (w.mark a s f).timers = w.timers := by
  unfold World.mark
  split_ifs <;> rfl

@[simp] theorem mark_alive : (w.mark a s f).alive = w.alive := by
  unfold World.mark
  split_ifs <;> rfl

@[simp] theorem mark_zero : w.mark a 0 f = w := if_pos rfl

theorem mark_self (hs : s ≠ 0) : (w.mark a s f).calls a s = f (w.calls a s) := by
  unfold World.mark
  rw [if_neg hs]
  simp

theorem mark_of_ne (h : (b, r) ≠ (a, s)) : (w.mark a s f).calls b r = w.calls b r := by
  unfold World.mark
  split_ifs
  · rfl
  · obtain rfl | hb := eq_or_ne b a
    · have hr : r ≠ s := fun hr => h (hr ▸ rfl)
      simp [hr]
    · simp [hb]

theorem mem_push (h : w.alive a = true) : m ∈ (w.push a m).inbox a := by
  unfold World.push
  rw [if_pos h]
  simp

/-- A message is in a mailbox when it was there or has just come. -/
theorem mem_inbox_push {m' : Message} (h : m' ∈ (w.push a m).inbox b) :
    m' ∈ w.inbox b ∨ b = a ∧ m' = m ∧ w.alive a = true := by
  unfold World.push at h
  split_ifs at h with halive
  · obtain rfl | hb := eq_or_ne b a
    · simp only [Function.update_self, List.mem_append, List.mem_singleton] at h
      exact h.imp id fun hm => ⟨rfl, hm, halive⟩
    · simp only [Function.update_of_ne hb] at h
      exact .inl h
  · exact .inl h

theorem push_mono {m' : Message} (h : m' ∈ w.inbox b) : m' ∈ (w.push a m).inbox b := by
  unfold World.push
  split_ifs
  · obtain rfl | hb := eq_or_ne b a
    · simp [h]
    · simpa [hb] using h
  · exact h

/-! ### The variables -/

theorem Lawful.set (h : Lawful w.lua w.calls) (hok : l.Ok) {calls : ℕ → Call}
    (hlinked : Linked l calls) (hbook : ∀ s, (calls s).Ok) :
    Lawful (Function.update w.lua a l) (Function.update w.calls a calls) where
  ok b := by
    obtain rfl | hb := eq_or_ne b a
    · rwa [Function.update_self]
    · rw [Function.update_of_ne hb]
      exact h.ok b
  linked b := by
    obtain rfl | hb := eq_or_ne b a
    · rwa [Function.update_self, Function.update_self]
    · rw [Function.update_of_ne hb, Function.update_of_ne hb]
      exact h.linked b
  book b s := by
    obtain rfl | hb := eq_or_ne b a
    · rw [Function.update_self]
      exact hbook s
    · rw [Function.update_of_ne hb]
      exact h.book b s

theorem Lawful.setLua (h : Lawful w.lua w.calls) (hok : l.Ok) (hlinked : Linked l (w.calls a)) :
    Lawful (w.setLua a l).lua (w.setLua a l).calls := by
  have hset := h.set (a := a) hok hlinked (h.book a)
  rwa [Function.update_eq_self] at hset

theorem Lawful.used (h : Lawful w.lua w.calls) (hused : (w.calls a s).stage ≠ .none) :
    s ≤ (w.lua a).sessionId := by
  by_contra hlt
  rw [(h.linked a).fresh s (by omega)] at hused
  exact hused rfl

/-- The variables of a service change, with what its coroutines wait for. -/
theorem Linked.change {calls : ℕ → Call} (h : Linked l calls)
    (hsession : l.sessionId ≤ l'.sessionId)
    (hspot : ∀ c s, (l'.spot c).waits = some s → l'.spot c = l.spot c ∨
      if l'.spot c = .calls s then
        (calls s).caller = some c ∧ (calls s).outcomes = [] ∧ (calls s).answers = []
      else (calls s).caller = none)
    (herrors : ∀ s ∈ l'.errorQueue, s ∈ l.errorQueue ∨ l.watchingSession s ≠ none)
    (hwatching : ∀ s, l'.watchingSession s ≠ none →
      l.watchingSession s ≠ none ∨ (calls s).caller ≠ none) : Linked l' calls where
  zero := h.zero
  fresh s hs := h.fresh s (by omega)
  calling c s hc := by
    have hwaits : (l'.spot c).waits = some s := by rw [hc]; rfl
    rcases hspot c s hwaits with heq | hnew
    · exact h.calling c s (heq ▸ hc)
    · rw [if_pos hc] at hnew
      exact ⟨hnew.1, hnew.2.1⟩
  waiting c s hwaits hne := by
    rcases hspot c s hwaits with heq | hnew
    · rw [heq] at hwaits hne
      exact h.waiting c s hwaits hne
    · rwa [if_neg hne] at hnew
  errors s hs := (herrors s hs).elim (h.errors s) (h.watching s)
  watching s hs := (hwatching s hs).elim (h.watching s) id
  late c s hc hover := by
    have hwaits : (l'.spot c).waits = some s := by rw [hc]; rfl
    rcases hspot c s hwaits with heq | hnew
    · exact h.late c s (heq ▸ hc) hover
    · rw [if_pos hc] at hnew
      exact hnew.2.2

theorem Lawful.mark (h : Lawful w.lua w.calls) (hs : s ≤ (w.lua a).sessionId)
    (hok : s ≠ 0 → (f (w.calls a s)).Ok)
    (hcaller : (f (w.calls a s)).caller = (w.calls a s).caller ∨
      (f (w.calls a s)).caller ≠ none ∧ ∀ c, ((w.lua a).spot c).waits ≠ some s)
    (hcalls : ∀ c, (w.lua a).spot c = .calls s → (f (w.calls a s)).outcomes = [] ∧
      ((f (w.calls a s)).stage = .over → (f (w.calls a s)).answers = [])) :
    Lawful (w.mark a s f).lua (w.mark a s f).calls := by
  by_cases hzero : s = 0
  · subst hzero
    rwa [mark_zero]
  have hlinked := h.linked a
  have hcalls' : (w.mark a s f).calls = Function.update w.calls a
      (Function.update (w.calls a) s (f (w.calls a s))) := by
    unfold World.mark
    rw [if_neg hzero]
  have hkept : ∀ r, (w.calls a r).caller ≠ none →
      (Function.update (w.calls a) s (f (w.calls a s)) r).caller ≠ none := by
    intro r hr
    obtain rfl | hne := eq_or_ne r s
    · rw [Function.update_self]
      rcases hcaller with heq | hnew
      · rwa [heq]
      · exact hnew.1
    · rwa [Function.update_of_ne hne]
  have hlinked' : Linked (w.lua a) (Function.update (w.calls a) s (f (w.calls a s))) := {
    zero := by
      rw [Function.update_of_ne (Ne.symm hzero)]
      exact hlinked.zero
    fresh := by
      intro r hr
      rw [Function.update_of_ne (by omega)]
      exact hlinked.fresh r hr
    calling := by
      intro c r hc
      obtain rfl | hne := eq_or_ne r s
      · rw [Function.update_self]
        refine ⟨?_, (hcalls c hc).1⟩
        rcases hcaller with heq | hnew
        · rw [heq]
          exact (hlinked.calling c r hc).1
        · refine absurd ?_ (hnew.2 c)
          rw [hc]
          rfl
      · rw [Function.update_of_ne hne]
        exact hlinked.calling c r hc
    waiting := by
      intro c r hwaits hc
      obtain rfl | hne := eq_or_ne r s
      · rw [Function.update_self]
        rcases hcaller with heq | hnew
        · rw [heq]
          exact hlinked.waiting c r hwaits hc
        · exact absurd hwaits (hnew.2 c)
      · rw [Function.update_of_ne hne]
        exact hlinked.waiting c r hwaits hc
    errors := fun r hr => hkept r (hlinked.errors r hr)
    watching := fun r hr => hkept r (hlinked.watching r hr)
    late := by
      intro c r hc hover
      obtain rfl | hne := eq_or_ne r s
      · rw [Function.update_self] at hover ⊢
        exact (hcalls c hc).2 hover
      · rw [Function.update_of_ne hne] at hover ⊢
        exact hlinked.late c r hc hover }
  have hbook : ∀ r, (Function.update (w.calls a) s (f (w.calls a s)) r).Ok := by
    intro r
    obtain rfl | hne := eq_or_ne r s
    · rw [Function.update_self]
      exact hok hzero
    · rw [Function.update_of_ne hne]
      exact h.book a r
  have hset := h.set (a := a) (h.ok a) hlinked' hbook
  rw [hcalls', mark_lua]
  rwa [Function.update_eq_self] at hset

/-! ### The places -/

theorem Tokens.mono (h : Tokens w hand) (hcalls : w'.calls = w.calls)
    (hholds : ∀ b r q, r ≠ 0 → w'.Holds b r q → w.Holds b r q) : Tokens w' hand := by
  intro b r q hr hq
  rw [hcalls]
  exact h b r q hr (hholds b r q hr hq)

/-- What is taken out of its place is nowhere. -/
theorem Tokens.take (h : Tokens w none) (hcalls : w'.calls = w.calls)
    (hholds : ∀ b r q, r ≠ 0 → w'.Holds b r q → w.Holds b r q) (hp : s ≠ 0 → w.Holds a s p)
    (hgone : s ≠ 0 → ¬ w'.Holds a s p) : Tokens w' (some (a, s)) := by
  intro b r q hr hq
  have hq' := h b r q hr (hholds b r q hr hq)
  refine ⟨hcalls ▸ hq'.1, ?_⟩
  intro heq
  obtain ⟨rfl, rfl⟩ := Prod.mk.inj (Option.some.inj heq)
  have hp' := (h a s p hr (hp hr)).1
  rw [hq'.1] at hp'
  subst hp'
  exact hgone hr hq

theorem Tokens.put (h : Tokens w (some (a, s))) (hcalls : w'.calls = w.calls)
    (hp : s ≠ 0 → (w.calls a s).stage = p)
    (hholds : ∀ b r q, r ≠ 0 → w'.Holds b r q → w.Holds b r q ∨ b = a ∧ r = s ∧ q = p) :
    Tokens w' none := by
  intro b r q hr hq
  rw [hcalls]
  refine ⟨?_, nofun⟩
  rcases hholds b r q hr hq with hold | ⟨rfl, rfl, rfl⟩
  · exact (h b r q hr hold).1
  · exact hp hr

theorem Tokens.nowhere (h : Tokens w (some (a, s))) (hs : s ≠ 0) : ¬ w.Holds a s p :=
  fun hp => (h a s p hs hp).2 rfl

theorem setLua_holds {P : ℕ → ℕ → Stage → Prop}
    (hhandles : ∀ c b s, l.Handles c b s → (w.lua a).Handles c b s ∨ P b s (.handled a c))
    (hopens : ∀ r b s, l.Opens r b s → (w.lua a).Opens r b s ∨ P b s (.opened a r))
    {q : Stage} (hq : (w.setLua a l).Holds b r q) : w.Holds b r q ∨ P b r q := by
  cases q with
  | ticks => exact .inl hq
  | sent d => exact .inl hq
  | answered => exact .inl hq
  | handled d c =>
      obtain rfl | hd := eq_or_ne d a
      · apply hhandles
        simpa [World.Holds, World.setLua] using hq
      · apply Or.inl
        simpa [World.Holds, World.setLua, hd] using hq
  | opened d x =>
      obtain rfl | hd := eq_or_ne d a
      · apply hopens
        simpa [World.Holds, World.setLua] using hq
      · apply Or.inl
        simpa [World.Holds, World.setLua, hd] using hq
  | _ => exact hq.elim

theorem mark_holds : (w.mark a s f).Holds = w.Holds := by
  funext b r q
  cases q <;> simp [World.Holds]

theorem push_holds {q : Stage} (hq : (w.push a m).Holds b r q) : w.Holds b r q ∨
    (∃ msg, m = .request b r msg ∧ q = .sent a) ∨
      ∃ msg, m = .response r msg ∧ b = a ∧ q = .answered := by
  cases q with
  | sent d =>
      obtain ⟨msg, hm⟩ := hq
      rcases mem_inbox_push hm with hold | ⟨rfl, rfl, -⟩
      · exact .inl ⟨msg, hold⟩
      · exact .inr (.inl ⟨msg, rfl, rfl⟩)
  | answered =>
      obtain ⟨msg, hm⟩ := hq
      rcases mem_inbox_push hm with hold | ⟨rfl, rfl, -⟩
      · exact .inl ⟨msg, hold⟩
      · exact .inr (.inr ⟨msg, rfl, rfl, rfl⟩)
  | ticks => exact .inl (by simpa [World.Holds] using hq)
  | handled d c => exact .inl (by simpa [World.Holds] using hq)
  | opened d x => exact .inl (by simpa [World.Holds] using hq)
  | _ => exact hq.elim

/-! ### The mailboxes -/

theorem asks_request (hs : s ≠ 0) : (Message.request a s msg).asks = some (a, s) := if_neg hs

theorem replies_response (hs : s ≠ 0) : (Message.response s msg).replies = some s := if_neg hs

theorem Message.of_asks (h : m.asks = some (a, s)) : ∃ msg, m = .request a s msg := by
  cases m with
  | request source session msg =>
      simp only [Message.asks] at h
      split_ifs at h
      obtain ⟨rfl, rfl⟩ := Prod.mk.inj (Option.some.inj h)
      exact ⟨msg, rfl⟩
  | _ => cases h

theorem Message.of_replies (h : m.replies = some s) : ∃ msg, m = .response s msg := by
  cases m with
  | response session msg =>
      simp only [Message.replies] at h
      split_ifs at h
      obtain rfl := Option.some.inj h
      exact ⟨msg, rfl⟩
  | _ => cases h

theorem Boxes.weaken (h : Boxes w none) : Boxes w hand :=
  { h with kept := fun b r halive hr => (h.kept b r halive hr).imp id nofun }

theorem Boxes.push (h : Boxes w hand)
    (hasks : ∀ m' ∈ w.inbox a, m.asks ≠ none → m'.asks ≠ m.asks)
    (hreplies : ∀ m' ∈ w.inbox a, m.replies ≠ none → m'.replies ≠ m.replies)
    (hreply : ∀ s msg, m = .response s msg → s ≠ 0 → (w.calls a s).caller ≠ none →
      ∃ b, (w.calls a s).answers = [(b, msg)]) : Boxes (w.push a m) hand := by
  have hnodup : ∀ {β : Type} (g : Message → Option β),
      (∀ b, ((w.inbox b).filterMap g).Nodup) →
      (∀ m' ∈ w.inbox a, g m ≠ none → g m' ≠ g m) →
      ∀ b, (((w.push a m).inbox b).filterMap g).Nodup := by
    intro β g hg hm b
    unfold World.push
    split_ifs
    · obtain rfl | hb := eq_or_ne b a
      · simp only [Function.update_self, List.filterMap_append]
        cases hgm : g m with
        | none =>
            rw [List.filterMap_cons_none hgm]
            simpa using hg b
        | some x =>
            rw [List.filterMap_cons_some hgm]
            apply List.Nodup.append (hg b) (List.nodup_singleton x)
            simp only [List.disjoint_singleton, List.mem_filterMap, not_exists,
              not_and]
            intro m' hm'
            rw [← hgm]
            exact hm m' hm' (by rw [hgm]; nofun)
      · simpa [hb] using hg b
    · exact hg b
  exact {
    timers := by simpa using h.timers
    asks := hnodup _ h.asks hasks
    replies := hnodup _ h.replies hreplies
    reply := by
      intro b r msg hm hr hcaller
      rw [push_calls] at hcaller ⊢
      rcases mem_inbox_push hm with hold | ⟨rfl, heq, -⟩
      · exact h.reply b r msg hold hr hcaller
      · exact hreply r msg heq.symm hr hcaller
    kept := by
      intro b r halive hr
      rw [push_calls] at hr
      rw [push_alive] at halive
      exact (h.kept b r halive hr).imp (fun ⟨msg, hm⟩ => ⟨msg, push_mono hm⟩) id
    dead := by
      intro b halive
      rw [push_alive] at halive
      unfold World.push
      split_ifs with ha
      · have hb : b ≠ a := by
          rintro rfl
          rw [halive] at ha
          cases ha
        simpa [hb] using h.dead b halive
      · exact h.dead b halive }

namespace Inv

theorem release (h : Inv w (some (a, s))) (hstage : (w.calls a s).stage ≠ .answered) :
    Inv w none where
  lawful := h.lawful
  boxes := { h.boxes with
    kept := by
      intro b r halive hr
      rcases h.boxes.kept b r halive hr with hm | heq
      · exact .inl hm
      · obtain ⟨rfl, rfl⟩ := Prod.mk.inj (Option.some.inj heq)
        exact absurd hr hstage }
  tokens b r q hr hq := ⟨(h.tokens b r q hr hq).1, nofun⟩

/-- A session that is not used yet is nowhere. -/
theorem grab (h : Inv w none) (hstage : (w.calls a s).stage = .none) : Inv w (some (a, s)) where
  lawful := h.lawful
  boxes := { h.boxes with
    kept := fun b r halive hr => (h.boxes.kept b r halive hr).imp id nofun }
  tokens b r q hr hq := by
    refine ⟨(h.tokens b r q hr hq).1, ?_⟩
    intro heq
    obtain ⟨rfl, rfl⟩ := Prod.mk.inj (Option.some.inj heq)
    have hnone := (h.tokens a s q hr hq).1
    rw [hstage] at hnone
    subst hnone
    exact hq

theorem setLua (h : Inv w hand) (hok : l.Ok) (hlinked : Linked l (w.calls a))
    (hhandles : ∀ c b s, l.Handles c b s → (w.lua a).Handles c b s)
    (hopens : ∀ r b s, l.Opens r b s → (w.lua a).Opens r b s) : Inv (w.setLua a l) hand where
  lawful := h.lawful.setLua hok hlinked
  boxes :=
    ⟨h.boxes.timers, h.boxes.asks, h.boxes.replies, h.boxes.reply, h.boxes.kept, h.boxes.dead⟩
  tokens := h.tokens.mono rfl fun _ _ _ _ hq =>
    (setLua_holds (P := fun _ _ _ => False) (fun c b s hc => .inl (hhandles c b s hc))
      (fun r b s hr => .inl (hopens r b s hr)) hq).resolve_right id

/-- A coroutine or a closure no longer has to answer. -/
theorem takeLua (h : Inv w none) (hok : l.Ok) (hlinked : Linked l (w.calls a))
    (hhandles : ∀ c b s, l.Handles c b s → (w.lua a).Handles c b s)
    (hopens : ∀ r b s, l.Opens r b s → (w.lua a).Opens r b s) (hp : s ≠ 0 → w.Holds b s p)
    (hgone : s ≠ 0 → ¬ (w.setLua a l).Holds b s p) : Inv (w.setLua a l) (some (b, s)) where
  lawful := h.lawful.setLua hok hlinked
  boxes :=
    have hboxes : Boxes w (some (b, s)) := h.boxes.weaken
    ⟨hboxes.timers, hboxes.asks, hboxes.replies, hboxes.reply, hboxes.kept, hboxes.dead⟩
  tokens := h.tokens.take rfl (fun _ _ _ _ hq =>
    (setLua_holds (P := fun _ _ _ => False) (fun c b s hc => .inl (hhandles c b s hc))
      (fun r b s hr => .inl (hopens r b s hr)) hq).resolve_right id) hp hgone

theorem putLua (h : Inv w (some (b, s))) (hok : l.Ok) (hlinked : Linked l (w.calls a))
    (hp : s ≠ 0 → (w.calls b s).stage = p) (hstage : (w.calls b s).stage ≠ .answered)
    (hhandles : ∀ c x r, l.Handles c x r →
      (w.lua a).Handles c x r ∨ x = b ∧ r = s ∧ .handled a c = p)
    (hopens : ∀ d x r, l.Opens d x r → (w.lua a).Opens d x r ∨ x = b ∧ r = s ∧ .opened a d = p) :
    Inv (w.setLua a l) none where
  lawful := h.lawful.setLua hok hlinked
  boxes :=
    have hboxes := (h.release hstage).boxes
    ⟨hboxes.timers, hboxes.asks, hboxes.replies, hboxes.reply, hboxes.kept, hboxes.dead⟩
  tokens := h.tokens.put rfl hp fun _ _ _ _ hq =>
    setLua_holds (P := fun x r q => x = b ∧ r = s ∧ q = p) hhandles hopens hq

/-- While a session is in no place its history is written; its outcomes are written at any time. -/
theorem mark (h : Inv w hand) (hs : s ≤ (w.lua a).sessionId) (hok : s ≠ 0 → (f (w.calls a s)).Ok)
    (hcaller : (f (w.calls a s)).caller = (w.calls a s).caller ∨
      (f (w.calls a s)).caller ≠ none ∧ ∀ c, ((w.lua a).spot c).waits ≠ some s)
    (hcalls : ∀ c, (w.lua a).spot c = .calls s → (f (w.calls a s)).outcomes = [] ∧
      ((f (w.calls a s)).stage = .over → (f (w.calls a s)).answers = []))
    (hkeeps : hand = some (a, s) ∨ (f (w.calls a s)).stage = (w.calls a s).stage ∧
      (f (w.calls a s)).answers = (w.calls a s).answers ∧
        (f (w.calls a s)).caller = (w.calls a s).caller) :
    Inv (w.mark a s f) hand where
  lawful := h.lawful.mark hs hok hcaller hcalls
  boxes := {
    timers := by simpa using h.boxes.timers
    asks := by simpa using h.boxes.asks
    replies := by simpa using h.boxes.replies
    reply := by
      intro b r m hm hr hcaller
      rw [mark_inbox] at hm
      by_cases heq : (b, r) = (a, s)
      · obtain ⟨rfl, rfl⟩ := Prod.mk.inj heq
        rcases hkeeps with hhand | ⟨-, hanswers, hcaller'⟩
        · exact absurd hhand (h.tokens b r .answered hr ⟨m, hm⟩).2
        · rw [mark_self hr, hcaller'] at hcaller
          rw [mark_self hr, hanswers]
          exact h.boxes.reply b r m hm hr hcaller
      · rw [mark_of_ne heq] at hcaller ⊢
        exact h.boxes.reply b r m hm hr hcaller
    kept := by
      intro b r halive hr
      rw [mark_alive] at halive
      rw [mark_inbox]
      by_cases heq : (b, r) = (a, s)
      · rcases hkeeps with hhand | ⟨hstage, -⟩
        · exact .inr (hhand.trans (congrArg some heq.symm))
        · obtain ⟨rfl, rfl⟩ := Prod.mk.inj heq
          apply h.boxes.kept b r halive
          rw [← hr]
          by_cases hzero : r = 0
          · rw [hzero, mark_zero]
          · rw [mark_self hzero, hstage]
      · rw [mark_of_ne heq] at hr
        exact h.boxes.kept b r halive hr
    dead := by simpa using h.boxes.dead }
  tokens := by
    intro b r q hr hq
    rw [mark_holds] at hq
    have hheld := h.tokens b r q hr hq
    refine ⟨?_, hheld.2⟩
    by_cases heq : (b, r) = (a, s)
    · obtain ⟨rfl, rfl⟩ := Prod.mk.inj heq
      rw [mark_self hr]
      rcases hkeeps with hhand | ⟨hstage, -⟩
      · exact absurd hhand hheld.2
      · rw [hstage]
        exact hheld.1
    · rw [mark_of_ne heq]
      exact hheld.1

/-- A message that nobody has to answer, and that is no answer -/
theorem pushFree (h : Inv w hand) (hasks : m.asks = none) (hreplies : m.replies = none) :
    Inv (w.push a m) hand where
  lawful := by simpa using h.lawful
  boxes := by
    apply h.boxes.push (fun _ _ hne => absurd hasks hne) fun _ _ hne => absurd hreplies hne
    rintro s msg rfl hs -
    rw [replies_response hs] at hreplies
    cases hreplies
  tokens := by
    apply h.tokens.mono push_calls
    intro b r q hr hq
    rcases push_holds hq with hold | ⟨msg, rfl, -⟩ | ⟨msg, rfl, -⟩
    · exact hold
    · rw [asks_request hr] at hasks
      cases hasks
    · rw [replies_response hr] at hreplies
      cases hreplies

theorem pushRequest (h : Inv w (some (a, s))) (hstage : s ≠ 0 → (w.calls a s).stage = .sent b)
    (hnot : (w.calls a s).stage ≠ .answered) : Inv (w.push b (.request a s msg)) none where
  lawful := by simpa using h.lawful
  boxes := by
    apply (h.release hnot).boxes.push _ (fun _ _ hne => absurd rfl hne) fun _ _ heq => by cases heq
    intro m' hm' hne heq
    have hs : s ≠ 0 := by
      rintro rfl
      exact hne rfl
    rw [asks_request hs] at heq
    obtain ⟨msg', rfl⟩ := Message.of_asks heq
    exact h.tokens.nowhere hs (p := .sent b) ⟨msg', hm'⟩
  tokens := by
    apply h.tokens.put push_calls hstage
    intro x r q hr hq
    rcases push_holds hq with hold | ⟨msg', heq, hsent⟩ | ⟨msg', heq, -⟩
    · exact .inl hold
    · obtain ⟨rfl, rfl, -⟩ := Message.request.inj heq
      exact .inr ⟨rfl, rfl, hsent⟩
    · cases heq

/-- The answer goes to the mailbox of the caller. -/
theorem pushResponse (h : Inv w (some (a, s))) (halive : w.alive a = true)
    (hstage : s ≠ 0 → (w.calls a s).stage = .answered)
    (hreply : s ≠ 0 → (w.calls a s).caller ≠ none → ∃ b, (w.calls a s).answers = [(b, msg)]) :
    Inv (w.push a (.response s msg)) none where
  lawful := by simpa using h.lawful
  boxes := by
    have hboxes : Boxes (w.push a (.response s msg)) (some (a, s)) := by
      apply h.boxes.push (fun _ _ hne => absurd rfl hne)
      · intro m' hm' hne heq
        have hs : s ≠ 0 := by
          rintro rfl
          exact hne rfl
        rw [replies_response hs] at heq
        obtain ⟨msg', rfl⟩ := Message.of_replies heq
        exact h.tokens.nowhere hs (p := .answered) ⟨msg', hm'⟩
      · intro r msg' heq hr hcaller
        obtain ⟨rfl, rfl⟩ := Message.response.inj heq
        exact hreply hr hcaller
    exact { hboxes with
      kept := by
        intro b r hb hr
        rcases hboxes.kept b r hb hr with hm | heq
        · exact .inl hm
        · obtain ⟨rfl, rfl⟩ := Prod.mk.inj (Option.some.inj heq)
          exact .inl ⟨msg, mem_push halive⟩ }
  tokens := by
    apply h.tokens.put push_calls hstage
    intro x r q hr hq
    rcases push_holds hq with hold | ⟨msg', heq, -⟩ | ⟨msg', heq, rfl, hanswered⟩
    · exact .inl hold
    · cases heq
    · obtain ⟨rfl, -⟩ := Message.response.inj heq
      exact .inr ⟨rfl, rfl, hanswered⟩

theorem putTimer (h : Inv w (some (a, s))) (hs : s ≠ 0) (hstage : (w.calls a s).stage = .ticks) :
    Inv { w with timers := w.timers ++ [(a, s)] } none where
  lawful := h.lawful
  boxes :=
    have hboxes := (h.release (by rw [hstage]; nofun)).boxes
    { hboxes with
      timers := by
        apply List.Nodup.append hboxes.timers (List.nodup_singleton _)
        rw [List.disjoint_singleton]
        exact h.tokens.nowhere hs (p := .ticks) }
  tokens := by
    refine h.tokens.put rfl (fun _ => hstage) ?_
    intro b r q hr hq
    cases q with
    | ticks =>
        rcases List.mem_append.mp hq with hold | hnew
        · exact .inl hold
        · obtain ⟨rfl, rfl⟩ := Prod.mk.inj (List.mem_singleton.mp hnew)
          exact .inr ⟨rfl, rfl, rfl⟩
    | _ => exact .inl hq

theorem takeTimer (h : Inv w none) (hmem : (a, s) ∈ w.timers) :
    Inv { w with timers := w.timers.erase (a, s) } (some (a, s)) where
  lawful := h.lawful
  boxes :=
    have hboxes : Boxes w (some (a, s)) := h.boxes.weaken
    { hboxes with timers := hboxes.timers.erase _ }
  tokens := by
    refine h.tokens.take (p := .ticks) rfl ?_ (fun _ => hmem) ?_
    · intro b r q hr hq
      cases q with
      | ticks => exact List.mem_of_mem_erase hq
      | _ => exact hq
    · intro _ hticks
      exact h.boxes.timers.not_mem_erase hticks

theorem kill (h : Inv w none) : Inv (w.kill a) none where
  lawful := h.lawful
  boxes := {
    timers := h.boxes.timers
    asks := by
      intro b
      obtain rfl | hb := eq_or_ne b a
      · simp [World.kill]
      · simpa [World.kill, hb] using h.boxes.asks b
    replies := by
      intro b
      obtain rfl | hb := eq_or_ne b a
      · simp [World.kill]
      · simpa [World.kill, hb] using h.boxes.replies b
    reply := by
      intro b r m hm
      obtain rfl | hb := eq_or_ne b a
      · simp [World.kill] at hm
      · apply h.boxes.reply b r m
        simpa [World.kill, hb] using hm
    kept := by
      intro b r halive hr
      obtain rfl | hb := eq_or_ne b a
      · simp [World.kill] at halive
      · have hkept := h.boxes.kept b r (by simpa [World.kill, hb] using halive) hr
        simpa [World.kill, hb] using hkept
    dead := by
      intro b halive
      obtain rfl | hb := eq_or_ne b a
      · simp [World.kill]
      · have hdead := h.boxes.dead b (by simpa [World.kill, hb] using halive)
        simpa [World.kill, hb] using hdead }
  tokens := by
    refine h.tokens.mono rfl ?_
    intro b r q hr hq
    have hmem : ∀ {d m}, m ∈ (w.kill a).inbox d → m ∈ w.inbox d := by
      intro d m hm
      obtain rfl | hd := eq_or_ne d a
      · simp [World.kill] at hm
      · simpa [World.kill, hd] using hm
    cases q with
    | sent d => exact hq.imp fun _ hm => hmem hm
    | answered => exact hq.imp fun _ hm => hmem hm
    | _ => exact hq

end Inv

/-- The session that a message stands for -/
def Message.token (a : ℕ) : Message → Option (ℕ × ℕ)
  | .request source session _ => some (source, session)
  | .response session _ => some (a, session)
  | .error _ _ => none

/-- `a` takes the first message out of its mailbox. -/
def World.pop (w : World) (a : ℕ) (rest : List Message) : World :=
  { w with inbox := Function.update w.inbox a rest }

section

variable {rest : List Message}

theorem mem_pop {m' : Message} (hinbox : w.inbox a = m :: rest)
    (h : m' ∈ (w.pop a rest).inbox b) : m' ∈ w.inbox b := by
  obtain rfl | hb := eq_or_ne b a
  · rw [hinbox]
    apply List.mem_cons_of_mem
    simpa [World.pop] using h
  · simpa [World.pop, hb] using h

theorem nodup_pop {β : Type} {g : Message → Option β} (hinbox : w.inbox a = m :: rest)
    (h : ∀ b, ((w.inbox b).filterMap g).Nodup) :
    ∀ b, (((w.pop a rest).inbox b).filterMap g).Nodup := by
  intro b
  obtain rfl | hb := eq_or_ne b a
  · have ha := h b
    rw [hinbox] at ha
    have hsub := ((List.sublist_cons_self m rest).filterMap g).nodup ha
    simpa [World.pop] using hsub
  · simpa [World.pop, hb] using h b

/-- What is alone in the mailbox is not in it any more. -/
theorem not_mem_pop {β : Type} {g : Message → Option β} {x : β} (hinbox : w.inbox a = m :: rest)
    (h : ∀ b, ((w.inbox b).filterMap g).Nodup) (hx : g m = some x) :
    ∀ m' ∈ (w.pop a rest).inbox a, g m' ≠ some x := by
  intro m' hm' hx'
  have ha := h a
  rw [hinbox, List.filterMap_cons_some hx] at ha
  have hmem : m' ∈ rest := by simpa [World.pop] using hm'
  exact (List.nodup_cons.mp ha).1 (List.mem_filterMap.mpr ⟨m', hmem, hx'⟩)

theorem pop_holds (hinbox : w.inbox a = m :: rest) {q : Stage}
    (hq : (w.pop a rest).Holds b r q) : w.Holds b r q := by
  cases q with
  | sent d => exact hq.imp fun _ hm => mem_pop hinbox hm
  | answered => exact hq.imp fun _ hm => mem_pop hinbox hm
  | _ => exact hq

theorem Inv.pop (h : Inv w none) (hinbox : w.inbox a = m :: rest) :
    Inv (w.pop a rest) (m.token a) where
  lawful := h.lawful
  boxes := {
    timers := h.boxes.timers
    asks := nodup_pop hinbox h.boxes.asks
    replies := nodup_pop hinbox h.boxes.replies
    reply := fun b r msg hm => h.boxes.reply b r msg (mem_pop hinbox hm)
    kept := by
      intro b r halive hr
      rcases h.boxes.kept b r halive hr with ⟨msg, hm⟩ | heq
      · obtain rfl | hb := eq_or_ne b a
        · rw [hinbox, List.mem_cons] at hm
          rcases hm with rfl | hm
          · exact .inr rfl
          · exact .inl ⟨msg, by simpa [World.pop] using hm⟩
        · exact .inl ⟨msg, by simpa [World.pop, hb] using hm⟩
      · cases heq
    dead := by
      intro b halive
      apply List.eq_nil_iff_forall_not_mem.mpr
      intro m' hm'
      have hmem := mem_pop hinbox hm'
      rw [h.boxes.dead b halive] at hmem
      cases hmem }
  tokens := by
    have hmono : ∀ b r q, r ≠ 0 → (w.pop a rest).Holds b r q → w.Holds b r q :=
      fun _ _ _ _ hq => pop_holds hinbox hq
    cases m with
    | request source session msg =>
        refine h.tokens.take (p := .sent a) rfl hmono ?_ ?_
        · intro _
          exact ⟨msg, by rw [hinbox]; exact List.mem_cons_self⟩
        · rintro hs ⟨msg', hm'⟩
          exact not_mem_pop hinbox h.boxes.asks (asks_request hs) _ hm' (asks_request hs)
    | response session msg =>
        refine h.tokens.take (p := .answered) rfl hmono ?_ ?_
        · intro _
          exact ⟨msg, by rw [hinbox]; exact List.mem_cons_self⟩
        · rintro hs ⟨msg', hm'⟩
          exact not_mem_pop hinbox h.boxes.replies (replies_response hs) _ hm' (replies_response hs)
    | error source session => exact h.tokens.mono rfl hmono

end

end

end GameServer.Sessions
