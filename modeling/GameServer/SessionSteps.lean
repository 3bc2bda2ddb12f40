import GameServer.SessionTokens

/-!
# Every step keeps the sessions

What a coroutine does, what `suspend` does after it, a message that is dispatched and the timer:
each keeps `Inv`, and with it every run in which no counter of sessions runs over.
-/

namespace GameServer.Sessions

open Transition

section

variable {w : World} {a b c s r frames dest : ℕ} {l l' : Lua} {f : Call → Call} {m : Message}
  {hand : Option (ℕ × ℕ)} {msg : Payload} {p : Stage} {calls : ℕ → Call}

/-! ## The order of two operations -/

theorem mark_push : (w.push b m).mark a s f = (w.mark a s f).push b m := by
  unfold World.mark World.push
  split_ifs <;> rfl

theorem mark_setLua : (w.setLua b l).mark a s f = (w.mark a s f).setLua b l := by
  unfold World.mark World.setLua
  split_ifs <;> rfl

theorem setLua_setLua : (w.setLua a l).setLua a l' = w.setLua a l' := by
  unfold World.setLua
  simp

theorem setLua_push_mark : ((w.setLua a l').push b m).mark a s f =
    (((w.setLua a l).mark a s f).setLua a l').push b m := by
  rw [mark_push, mark_setLua, mark_setLua, setLua_setLua]

theorem setLua_sessionId (h : l.sessionId = (w.lua a).sessionId) :
    ((w.setLua a l).lua b).sessionId = (w.lua b).sessionId := by
  obtain rfl | hb := eq_or_ne b a
  · simp [World.setLua, h]
  · simp [World.setLua, hb]

theorem setLua_lua : (w.setLua a l).lua a = l := Function.update_self _ _ _

/-! ## The variables of a service -/

theorem Linked.quiet (h : Linked l calls) (hsession : l'.sessionId = l.sessionId)
    (hspot : ∀ c, l'.spot c = l.spot c ∨ (l'.spot c).waits = none)
    (herrors : ∀ s ∈ l'.errorQueue, s ∈ l.errorQueue ∨ l.watchingSession s ≠ none)
    (hwatching : ∀ s, l'.watchingSession s ≠ none → l.watchingSession s ≠ none) :
    Linked l' calls := by
  apply h.change hsession.ge _ herrors fun s hs => .inl (hwatching s hs)
  intro c s hwaits
  rcases hspot c with heq | hnone
  · exact .inl heq
  · rw [hnone] at hwaits
    cases hwaits

theorem spot_update {spots : ℕ → Spot} {spot : Spot} (hspot : spot.waits = none) (d : ℕ) :
    Function.update spots c spot d = spots d ∨ (Function.update spots c spot d).waits = none := by
  obtain rfl | hd := eq_or_ne d c
  · exact .inr (by rwa [Function.update_self])
  · exact .inl (Function.update_of_ne hd _ _)

/-- Only the spot of a coroutine that does not wait changes, and what no session depends on. -/
theorem Linked.setSpot (h : Linked l calls) {spot : Spot} (hspot : spot.waits = none)
    (hsession : l'.sessionId = l.sessionId) (hspots : l'.spot = Function.update l.spot c spot)
    (herrors : l'.errorQueue = l.errorQueue)
    (hwatching : ∀ s, l'.watchingSession s ≠ none → l.watchingSession s ≠ none) :
    Linked l' calls := by
  apply h.quiet hsession _ _ hwatching
  · intro d
    rw [hspots]
    exact spot_update hspot d
  · intro s hs
    exact .inl (herrors ▸ hs)

theorem Linked.parks (h : Linked l calls) {spot : Spot} (hspot : spot.waits = some s)
    (hnew : if spot = .calls s then
        (calls s).caller = some c ∧ (calls s).outcomes = [] ∧ (calls s).answers = []
      else (calls s).caller = none)
    (hsession : l.sessionId ≤ l'.sessionId) (hspots : l'.spot = Function.update l.spot c spot)
    (herrors : l'.errorQueue = l.errorQueue)
    (hwatching : ∀ r, l'.watchingSession r ≠ none →
      l.watchingSession r ≠ none ∨ (calls r).caller ≠ none) : Linked l' calls := by
  apply h.change hsession _ (fun r hr => .inl (herrors ▸ hr)) hwatching
  intro d r hwaits
  rw [hspots] at hwaits ⊢
  obtain rfl | hd := eq_or_ne d c
  · rw [Function.update_self] at hwaits ⊢
    obtain rfl : s = r := Option.some.inj (hspot.symm.trans hwaits)
    exact .inr hnew
  · exact .inl (Function.update_of_ne hd _ _)

theorem Linked.same (h : Linked l calls) (hsession : l'.sessionId = l.sessionId)
    (hspots : l'.spot = l.spot) (herrors : l'.errorQueue = l.errorQueue)
    (hwatching : l'.watchingSession = l.watchingSession) : Linked l' calls := by
  apply h.quiet hsession (fun d => .inl (by rw [hspots])) (fun s hs => .inl (herrors ▸ hs))
  intro s hs
  rwa [hwatching] at hs

theorem releaseWatching_eq (address : Option ℕ) :
    ∃ v, l.releaseWatching address = { l with watchingService := v } := by
  cases address with
  | none => exact ⟨_, rfl⟩
  | some address =>
      simp only [Lua.releaseWatching]
      split <;> exact ⟨_, rfl⟩

theorem errorDispatch_eq (s b : ℕ) (order : List ℕ) : ∃ v dead errors,
    l.errorDispatch s b order = { l with
      watchingService := v
      deadService := dead
      errorQueue := errors
      ctl := .wakeups 0 } ∧
    ∀ r ∈ errors, r ∈ l.errorQueue ∨ r ∈ order ∨ l.watchingSession r ≠ none := by
  unfold Lua.errorDispatch
  simp only
  split_ifs with hzero hwatched
  · obtain ⟨v, hv⟩ := releaseWatching_eq (l := { l.watch b with
      deadService := Function.update l.deadService b true
      errorQueue := l.errorQueue ++ order }) (some b)
    refine ⟨v, _, _, congrArg (fun l => { l with ctl := .wakeups 0 }) hv, ?_⟩
    intro r hr
    exact (List.mem_append.mp hr).imp id .inl
  · obtain ⟨v, hv⟩ := releaseWatching_eq (l := { l.watch b with
      errorQueue := l.errorQueue ++ [s] }) (some b)
    refine ⟨v, _, _, congrArg (fun l => { l with ctl := .wakeups 0 }) hv, ?_⟩
    intro r hr
    refine (List.mem_append.mp hr).imp id fun hs => .inr ?_
    rw [List.mem_singleton.mp hs]
    exact Option.isSome_iff_ne_none.mp hwatched
  · obtain ⟨v, hv⟩ := releaseWatching_eq (l := l.watch b) (some b)
    exact ⟨v, _, _, congrArg (fun l => { l with ctl := .wakeups 0 }) hv, fun r hr => .inl hr⟩

theorem resume_handles : (l.resume c frames).Handles = l.Handles := by
  unfold Lua.resume
  split <;> rfl

theorem resume_opens : (l.resume c frames).Opens = l.Opens := by
  unfold Lua.resume
  split <;> rfl

theorem resume_sessionId : (l.resume c frames).sessionId = l.sessionId := by
  unfold Lua.resume
  split <;> rfl

theorem of_update_none {g : ℕ → Option ℕ} (h : Function.update g s none r ≠ none) : g r ≠ none := by
  obtain rfl | hne := eq_or_ne r s
  · rw [Function.update_self] at h
    exact absurd rfl h
  · rwa [Function.update_of_ne hne] at h

theorem Linked.resume (h : Linked l calls) : Linked (l.resume c frames) calls := by
  unfold Lua.resume
  split
  · exact h.setSpot (rfl : Spot.runs.waits = none) rfl rfl rfl fun _ hr => of_update_none hr
  · exact h.setSpot (rfl : Spot.runs.waits = none) rfl rfl rfl fun _ hr => hr
  · exact h.setSpot (rfl : Spot.runs.waits = none) rfl rfl rfl fun _ hr => hr
  · exact h.setSpot (rfl : Spot.runs.waits = none) rfl rfl rfl fun _ hr => hr
  · exact h.same rfl rfl rfl rfl

/-- A session that is not in the table does not get into it. -/
theorem resume_slot (h : ∀ d, l.sessionIdCoroutine s ≠ some (.co d)) (d : ℕ) :
    (l.resume c frames).sessionIdCoroutine s ≠ some (.co d) := by
  unfold Lua.resume
  split
  · exact h d
  · split_ifs
    · exact h d
    · next r _ _ _ =>
        simp only
        obtain rfl | hne := eq_or_ne s r
        · rw [Function.update_self]
          nofun
        · rw [Function.update_of_ne hne]
          exact h d
  · exact h d
  · exact h d
  · exact h d

/-- With a session that is not in the table nobody waits. -/
theorem Lua.Ok.nobody (h : l.Ok) (hs : ∀ d, l.sessionIdCoroutine s ≠ some (.co d)) (d : ℕ) :
    (l.spot d).waits ≠ some s := fun hd => hs d ((h.slot s d).mpr hd)

theorem Lua.Ok.forget (h : l.Ok) (hs : ∀ d, l.sessionIdCoroutine s ≠ some (.co d)) :
    (l.forget s).Ok where
  slot := by
    intro r d
    simp only [Lua.forget]
    obtain rfl | hne := eq_or_ne r s
    · rw [Function.update_self]
      exact iff_of_false nofun (h.nobody hs d)
    · rw [Function.update_of_ne hne]
      exact h.slot r d
  bound := by
    intro r hr
    simp only [Lua.forget] at hr
    obtain rfl | hne := eq_or_ne r s
    · rw [Function.update_self] at hr
      exact absurd rfl hr
    · rw [Function.update_of_ne hne] at hr
      exact h.bound r hr
  sleeps := h.sleeps
  forked := h.forked
  forks := h.forks
  runs := h.runs

theorem newSession_eq (h : l.sessionId + 1 < 2 ^ 31) : l.newSession = l.sessionId + 1 := if_pos h

theorem Lua.Ok.newSession (h : l.Ok) : ({ l with sessionId := l.sessionId + 1 } : Lua).Ok where
  slot := h.slot
  bound s hs := by
    have hle := h.bound s hs
    simp only
    omega
  sleeps := h.sleeps
  forked := h.forked
  forks := h.forks
  runs := h.runs

/-! ## A session goes on -/

/-- `b` has to answer a session of `a`, and nobody has yet. -/
structure Owed (w : World) (b a s : ℕ) : Prop where
  early : (w.calls a s).stage.Early
  used : s ≤ (w.lua a).sessionId
  server : s ≠ 0 → (w.calls a s).server = some b

namespace Inv

theorem unused (h : Inv w hand) (hs : (w.lua a).sessionId < s) : w.calls a s = .unused :=
  (h.lawful.linked a).fresh s hs

theorem zero (h : Inv w hand) : w.calls a 0 = .unused := (h.lawful.linked a).zero

/-- Who has to answer, or the timer, has a session that is in use. -/
theorem early (h : Inv w none) (hp : s ≠ 0 → w.Holds a s p) (hearly : p.Early) :
    (w.calls a s).stage.Early ∧ (s ≠ 0 → (w.calls a s).stage = p) ∧
      s ≤ (w.lua a).sessionId := by
  by_cases hs : s = 0
  · subst hs
    rw [h.zero]
    exact ⟨trivial, fun hs => absurd rfl hs, Nat.zero_le _⟩
  have hstage := (h.tokens a s p hs (hp hs)).1
  refine ⟨by rwa [hstage], fun _ => hstage, h.lawful.used ?_⟩
  rintro hnone
  rw [hnone] at hstage
  subst hstage
  exact hp hs

theorem stage (h : Inv w (some (a, s))) (hearly : (w.calls a s).stage.Early)
    (hs : s ≤ (w.lua a).sessionId)
    (hserver : s ≠ 0 → ∀ b, p.server = some b → (w.calls a s).server = some b)
    (hticks : p = .ticks → (w.calls a s).caller = none) : Inv (w.stage a s p) (some (a, s)) := by
  have hcall := h.lawful.book a s
  have hanswers := hcall.early hearly
  apply h.mark hs _ (.inl rfl) _ (.inl rfl)
  · intro hzero
    exact ⟨hcall.once, hcall.server, hcall.told, hcall.outcome, fun _ => hanswers,
      hserver hzero, hticks⟩
  · intro d hd
    exact ⟨((h.lawful.linked a).calling d s hd).2, fun _ => hanswers⟩

theorem stage_ne (h : Inv (w.stage a s p) hand) (hp : p ≠ .answered) :
    ((w.stage a s p).calls a s).stage ≠ .answered := by
  by_cases hs : s = 0
  · subst hs
    rw [h.zero]
    nofun
  · unfold World.stage
    rwa [mark_self hs]

/-- The session goes to a coroutine or a closure of `b`. -/
theorem putStage (h : Inv w (some (a, s))) (howed : Owed w b a s) (hok : l.Ok)
    (hlinked : ∀ calls, Linked (w.lua b) calls → Linked l calls) (hserver : p.server = some b)
    (hhandles : ∀ c x r, l.Handles c x r →
      (w.lua b).Handles c x r ∨ x = a ∧ r = s ∧ .handled b c = p)
    (hopens : ∀ d x r, l.Opens d x r → (w.lua b).Opens d x r ∨ x = a ∧ r = s ∧ .opened b d = p) :
    Inv ((w.setLua b l).stage a s p) none := by
  have hticks : p ≠ .ticks := by
    rintro rfl
    cases hserver
  have hanswered : p ≠ .answered := by
    rintro rfl
    cases hserver
  have hstage := h.stage (p := p) howed.early howed.used (fun hs d hd => by
    rw [howed.server hs, ← hserver, hd]) fun heq => absurd heq hticks
  have hself : s ≠ 0 → ((w.stage a s p).calls a s).stage = p :=
    fun hs => congrArg Call.stage (mark_self hs)
  have hput := hstage.putLua hok (hlinked _ (by
    have hlawful := hstage.lawful.linked b
    unfold World.stage at hlawful ⊢
    rwa [mark_lua] at hlawful)) hself (hstage.stage_ne hanswered) (by
      unfold World.stage
      rwa [mark_lua]) (by
      unfold World.stage
      rwa [mark_lua])
  unfold World.stage at hput ⊢
  rwa [← mark_setLua] at hput

theorem dismiss (h : Inv w (some (a, s))) (hearly : (w.calls a s).stage.Early)
    (hs : s ≤ (w.lua a).sessionId) : Inv (w.stage a s .over) none := by
  have hstage := h.stage (p := .over) hearly hs nofun nofun
  exact hstage.release (hstage.stage_ne nofun)

theorem answer (h : Inv w (some (a, s))) (howed : Owed w b a s) (msg : Payload) (fits : Bool) :
    Inv (w.answer b a s msg fits) none := by
  have hcall := h.lawful.book a s
  have hanswers := hcall.early howed.early
  unfold World.answer
  split
  · next halive =>
      rw [mark_push]
      have hmark := h.mark (f := fun call =>
        { call with stage := .answered, answers := call.answers ++ [(b, msg)] }) howed.used (by
          intro hzero
          simp only [hanswers, List.nil_append]
          refine ⟨le_rfl, ?_, hcall.told, ?_, fun hfalse => hfalse.elim, nofun, nofun⟩
          · intro d m hm
            obtain ⟨rfl, rfl⟩ := Prod.mk.inj (List.mem_singleton.mp hm)
            exact howed.server hzero
          · intro c o ho
            refine ⟨(hcall.outcome c o ho).1, ?_⟩
            intro m hm
            obtain ⟨d, hd⟩ := (hcall.outcome c o ho).2 m hm
            rw [hanswers] at hd
            cases hd) (.inl rfl) (by
          intro d hd
          exact ⟨((h.lawful.linked a).calling d s hd).2, nofun⟩) (.inl rfl)
      apply hmark.pushResponse
      · rw [mark_alive]
        exact halive.1
      · intro hzero
        rw [mark_self hzero]
      · intro hzero _
        rw [mark_self hzero]
        exact ⟨b, by rw [hanswers]; rfl⟩
  · exact (h.pushFree rfl rfl).dismiss (by simpa using howed.early) (by simpa using howed.used)

theorem startTimer (h : Inv w none) (hs : s ≠ 0) (hsession : s ≤ (w.lua a).sessionId)
    (hunused : w.calls a s = .unused) : Inv (w.startTimer a s) none := by
  have hhand := h.grab (a := a) (s := s) (by rw [hunused]; rfl)
  have hstage := hhand.stage (p := .ticks) (by rw [hunused]; trivial) hsession nofun
    fun _ => by rw [hunused]; rfl
  have hput := hstage.putTimer hs (by unfold World.stage; rw [mark_self hs])
  simpa [World.startTimer, World.stage] using hput

theorem goes (h : Inv w hand) (hok : l.Ok) (hlinked : Linked l (w.calls a))
    (hhandles : l.Handles = (w.lua a).Handles) (hopens : l.Opens = (w.lua a).Opens) :
    Inv (w.setLua a l) hand :=
  h.setLua hok hlinked (fun _ _ _ hh => hhandles ▸ hh) fun _ _ _ ho => hopens ▸ ho

/-! ## What a coroutine does -/

section

variable (h : Inv w none) (hctl : (w.lua a).ctl = .runs c frames)

include h

/-- The coroutine that runs does not go on after an error. -/
theorem stick (hok : l.Ok) (hlinked : Linked l (w.calls a)) (hruns : l.ctl = .runs c frames)
    (hhandles : ∀ c b s, l.Handles c b s → (w.lua a).Handles c b s)
    (hopens : ∀ r b s, l.Opens r b s → (w.lua a).Opens r b s) :
    Inv (w.setLua a (l.stick c)) none :=
  h.setLua (hok.stick hruns)
    (hlinked.setSpot (rfl : Spot.stuck.waits = none) rfl rfl rfl fun _ hs => hs) hhandles hopens

include hctl

theorem call (hcounts : (w.lua a).sessionId + 1 < 2 ^ 31) (dest : ℕ) (msg : Payload) :
    Inv (w.call a c frames dest msg) none := by
  have hok := h.lawful.ok a
  obtain ⟨s, hs⟩ : ∃ s, s = (w.lua a).sessionId + 1 := ⟨_, rfl⟩
  have hnew : Inv (w.setLua a { w.lua a with sessionId := s }) none :=
    h.goes (hs ▸ hok.newSession) ((h.lawful.linked a).change (hs ▸ Nat.le_succ _)
      (fun _ _ _ => .inl rfl) (fun _ hs => .inl hs) fun _ hs => .inl hs) rfl rfl
  unfold World.call
  simp only [newSession_eq hcounts, ← hs]
  split
  · next halive =>
      have hunused : w.calls a s = .unused := h.unused (by omega)
      have hhand := hnew.grab (a := a) (s := s) (congrArg Call.stage hunused)
      have hmark := hhand.mark (f := fun _ => ⟨some c, some dest, .sent dest, [], []⟩)
        (by rw [setLua_lua])
        (fun _ => ⟨Nat.zero_le _, nofun, Nat.zero_le _, nofun, fun _ => rfl, fun b hb => hb, nofun⟩)
        (.inr ⟨nofun, by
          intro d
          rw [setLua_lua]
          exact hok.nobody (by rw [hs, hok.next_free]; nofun) d⟩) (fun _ _ => ⟨rfl, nofun⟩)
        (.inl rfl)
      have hself := mark_self (w := w.setLua a { w.lua a with sessionId := s }) (a := a) (s := s)
        (f := fun _ => ⟨some c, some dest, .sent dest, [], []⟩) (by omega)
      have hlinked := hmark.lawful.linked a
      rw [mark_lua, setLua_lua] at hlinked
      rw [setLua_push_mark]
      apply Inv.pushRequest
      · apply hmark.goes
        · exact hok.park hctl (rfl : (Spot.calls s).waits = some s) hs rfl rfl rfl rfl nofun
            (hok.sleeps_park hctl)
        · refine hlinked.parks (rfl : (Spot.calls s).waits = some s) ?_ le_rfl rfl rfl ?_
          · rw [if_pos rfl, hself]
            exact ⟨rfl, rfl, rfl⟩
          · intro r hr
            obtain rfl | hne := eq_or_ne r s
            · rw [hself]
              exact .inr nofun
            · exact .inl (by simpa [hne] using hr)
        · rw [mark_lua, setLua_lua]
          rfl
        · rw [mark_lua, setLua_lua]
          rfl
      · intro _
        exact congrArg Call.stage hself
      · intro hanswered
        have hsent := congrArg Call.stage hself
        cases hanswered.symm.trans hsent
  · exact hnew

/-- `sleep` and `wait` -/
theorem rests (hs : s = (w.lua a).sessionId + 1) (timer : Bool) :
    Inv (w.setLua a { (w.lua a).park c s (.sleeps s timer) frames with
      sessionId := s
      sleepSession := Function.update (w.lua a).sleepSession c (some s) }) none := by
  have hok := h.lawful.ok a
  have hunused : w.calls a s = .unused := h.unused (by omega)
  apply h.goes
  · refine hok.park hctl (rfl : (Spot.sleeps s timer).waits = some s) hs rfl rfl rfl rfl nofun ?_
    intro d r hd
    obtain rfl | hne := eq_or_ne d c
    · simp only [Function.update_self, Option.some.injEq] at hd
      subst hd
      exact ⟨timer, Function.update_self _ _ _⟩
    · simp only [Function.update_of_ne hne] at hd
      exact hok.sleeps_park hctl d r hd
  · refine (h.lawful.linked a).parks (rfl : (Spot.sleeps s timer).waits = some s) ?_ ?_ rfl rfl
      fun _ hr => .inl hr
    · rw [if_neg nofun, hunused]
      rfl
    · simp only
      omega
  · rfl
  · rfl

theorem sleep (hcounts : (w.lua a).sessionId + 1 < 2 ^ 31) : Inv (w.sleep a c frames) none := by
  unfold World.sleep
  simp only [newSession_eq hcounts]
  apply (h.rests hctl rfl true).startTimer (Nat.succ_ne_zero _)
  · rw [setLua_lua]
  · exact h.unused (Nat.lt_succ_self _)

theorem wait (hcounts : (w.lua a).sessionId + 1 < 2 ^ 31) : Inv (w.wait a c frames) none := by
  unfold World.wait
  simp only [newSession_eq hcounts]
  exact h.rests hctl rfl false

omit hctl

theorem timeout {co : ℕ} (hcounts : (w.lua a).sessionId + 1 < 2 ^ 31)
    (hfree : (w.lua a).Free co) : Inv (w.timeout a co) none := by
  have hok := h.lawful.ok a
  obtain ⟨hwaits, hforked, -⟩ := Lua.Ok.free_waits hfree
  obtain ⟨s, hs⟩ : ∃ s, s = (w.lua a).sessionId + 1 := ⟨_, rfl⟩
  have hunused : w.calls a s = .unused := h.unused (by omega)
  have hnone : (w.lua a).sessionIdCoroutine s = none := by rw [hs, hok.next_free]
  unfold World.timeout
  simp only [newSession_eq hcounts, ← hs, if_pos hnone]
  apply Inv.startTimer _ (by omega)
  · rw [setLua_lua]
  · exact hunused
  · apply h.goes
    · refine hok.create hfree (nofun : Spot.timed s ≠ .runs)
        (slots_enter hok.slot hnone hwaits rfl) ?_ rfl rfl rfl (hok.forked_update hforked) hok.forks
      intro r hr
      obtain rfl | hne := eq_or_ne r s
      · simp only
        omega
      · have hle := hok.bound r (by simpa [hne] using hr)
        simp only
        omega
    · refine (h.lawful.linked a).parks (rfl : (Spot.timed s).waits = some s) ?_ ?_ rfl rfl
        fun _ hr => .inl hr
      · rw [if_neg nofun, hunused]
        rfl
      · simp only
        omega
    · rfl
    · rfl

theorem fork {co : ℕ} (hfree : (w.lua a).Free co) : Inv (w.fork a co) none := by
  have hok := h.lawful.ok a
  obtain ⟨hwaits, hforked, -⟩ := Lua.Ok.free_waits hfree
  have hqueued := hok.not_queued hforked
  apply h.goes
  · refine hok.create hfree (nofun : Spot.forked ≠ .runs) (slots_same hok.slot hwaits rfl) hok.bound
      rfl rfl rfl ?_ ?_
    · intro d hd
      rcases List.mem_append.mp hd with hold | hnew
      · exact hok.forked_update hforked d hold
      · rw [List.mem_singleton.mp hnew]
        exact Function.update_self _ _ _
    · apply List.Nodup.append hok.forks (List.nodup_singleton co)
      rwa [List.disjoint_singleton]
  · exact (h.lawful.linked a).setSpot (rfl : Spot.forked.waits = none) rfl rfl rfl fun _ hr => hr
  · rfl
  · rfl

theorem wakeup (co : ℕ) : Inv (w.wakeup a co) none := by
  unfold World.wakeup
  simp only
  split
  · exact h.goes ((h.lawful.ok a).congr rfl rfl rfl rfl rfl rfl)
      ((h.lawful.linked a).same rfl rfl rfl rfl) rfl rfl
  · exact h

omit h in
/-- A closure or a coroutine of `a` has to answer a session. -/
theorem owed (h : Inv w none) {address session : ℕ} (hheld : w.Holds address session p)
    (hearly : p.Early) (hserver : p.server = some a) (hl : l.sessionId = (w.lua a).sessionId) :
    Owed (w.setLua a l) a address session := by
  obtain ⟨hstage, hgoes, hsession⟩ := h.early (fun _ => hheld) hearly
  refine ⟨hstage, by rwa [setLua_sessionId hl], ?_⟩
  intro hzero
  exact (h.lawful.book address session).stage a (by rw [hgoes hzero, hserver])

theorem responds {address session : ℕ}
    (haddress : (w.lua a).sessionCoroutineAddress c = some address)
    (hid : (w.lua a).sessionCoroutineId c = some session)
    (hresponse : ¬ (w.lua a).sessionResponse c = true)
    (hl : l = { w.lua a with
      sessionResponse := Function.update (w.lua a).sessionResponse c true }) :
    Inv (w.setLua a l) (some (address, session)) ∧ Owed (w.setLua a l) a address session := by
  subst hl
  have hheld : w.Holds address session (.handled a c) :=
    ⟨haddress, hid, Bool.eq_false_iff.mpr hresponse⟩
  refine ⟨?_, h.owed hheld trivial rfl rfl⟩
  refine h.takeLua ((h.lawful.ok a).congr rfl rfl rfl rfl rfl rfl)
    ((h.lawful.linked a).same rfl rfl rfl rfl) ?_ (fun _ _ _ ho => ho) (fun _ => hheld) ?_
  · rintro d b s ⟨hd, hds, hdr⟩
    refine ⟨hd, hds, ?_⟩
    obtain rfl | hne := eq_or_ne d c
    · simp at hdr
    · simpa [hne] using hdr
  · rintro - ⟨-, -, hdr⟩
    rw [setLua_lua] at hdr
    simp at hdr

include hctl

theorem ret (msg : Payload) (fits : Bool) : Inv (w.ret a c msg fits) none := by
  have hok := h.lawful.ok a
  have hlinked := h.lawful.linked a
  unfold World.ret
  simp only
  split
  · exact h.stick hok hlinked hctl (fun _ _ _ hh => hh) fun _ _ _ ho => ho
  · next hresponse =>
      split
      · next address session haddress hid =>
          obtain ⟨htaken, howed⟩ := h.responds haddress hid hresponse rfl
          split
          · exact htaken.dismiss howed.early howed.used
          · exact htaken.answer howed msg fits
      · refine h.stick (hok.congr rfl rfl rfl rfl rfl rfl) (hlinked.same rfl rfl rfl rfl) hctl ?_
          fun _ _ _ ho => ho
        rintro d b s ⟨hd, hds, hdr⟩
        refine ⟨hd, hds, ?_⟩
        obtain rfl | hne := eq_or_ne d c
        · simp at hdr
        · simpa [Lua.stick, Lua.setSpot, hne] using hdr

theorem response : Inv (w.response a c) none := by
  have hok := h.lawful.ok a
  have hlinked := h.lawful.linked a
  have hstick := h.stick hok hlinked hctl (fun _ _ _ hh => hh) fun _ _ _ ho => ho
  unfold World.response
  simp only
  split
  · exact hstick
  · next hresponse =>
      split
      · next address session haddress hid =>
          split
          · obtain ⟨htaken, howed⟩ := h.responds haddress hid hresponse rfl
            have hput := htaken.putStage (l := { (w.lua a).watch address with
                sessionResponse := Function.update (w.lua a).sessionResponse c true
                responders := (w.lua a).responders ++ [⟨session, address, .pack⟩] })
              (p := .opened a (w.lua a).responders.length) howed (hok.congr rfl rfl rfl rfl rfl rfl)
              (fun calls hcalls => by
                rw [setLua_lua] at hcalls
                exact hcalls.same rfl rfl rfl rfl) rfl
              (fun d x r hd => .inl (by rwa [setLua_lua])) (by
                intro d x r hd
                rw [setLua_lua]
                unfold Lua.Opens at hd ⊢
                simp only [List.getElem?_append] at hd
                split at hd
                · exact .inl hd
                · next hlt =>
                    have hzero : d - (w.lua a).responders.length = 0 := by
                      by_contra hne
                      rw [List.getElem?_eq_none (by simp; omega)] at hd
                      cases hd
                    rw [hzero] at hd
                    simp only [List.getElem?_cons_zero, Option.some.injEq,
                      Responder.mk.injEq] at hd
                    obtain rfl : d = (w.lua a).responders.length := by omega
                    exact .inr ⟨hd.2.1.symm, hd.1.symm, rfl⟩)
            rwa [setLua_setLua] at hput
          · exact hstick
      · exact hstick

omit hctl

omit h in
theorem close_eq {p : Responder} (g : Fn) (released : Bool) : ∃ v, w.close a r p g released =
    w.setLua a { w.lua a with
      watchingService := v
      responders := (w.lua a).responders.set r { p with f := g } } := by
  unfold World.close
  obtain ⟨v, hv⟩ := releaseWatching_eq (l := w.lua a) (some p.address)
  cases released with
  | true => exact ⟨v, by simp only [if_true, hv]⟩
  | false => exact ⟨_, rfl⟩

omit h in
/-- A closure that is closed has nothing to answer. -/
theorem close_opens {p : Responder} {g : Fn} (hg : g ≠ .pack) {d x s : ℕ}
    (ho : ((w.lua a).responders.set r { p with f := g })[d]? = some ⟨s, x, .pack⟩) :
    d ≠ r ∧ (w.lua a).Opens d x s := by
  rw [List.getElem?_set] at ho
  split at ho
  · next heq =>
      split at ho
      · exact absurd (congrArg Responder.f (Option.some.inj ho)) hg
      · cases ho
  · next hne => exact ⟨Ne.symm hne, ho⟩

theorem close {p : Responder} {g : Fn} (hg : g ≠ .pack) (released : Bool) :
    Inv (w.close a r p g released) none := by
  obtain ⟨v, hv⟩ := close_eq (w := w) (a := a) (r := r) (p := p) g released
  rw [hv]
  exact h.setLua ((h.lawful.ok a).congr rfl rfl rfl rfl rfl rfl)
    ((h.lawful.linked a).same rfl rfl rfl rfl) (fun _ _ _ hh => hh)
    fun _ _ _ ho => (close_opens hg ho).2

theorem closes {p : Responder} {g : Fn} (hr : (w.lua a).responders[r]? = some p)
    (hp : p.f = .pack) (hg : g ≠ .pack) (released : Bool) :
    Inv (w.close a r p g released) (some (p.address, p.session)) ∧
      Owed (w.close a r p g released) a p.address p.session := by
  obtain ⟨v, hv⟩ := close_eq (w := w) (a := a) (r := r) (p := p) g released
  have hheld : w.Holds p.address p.session (.opened a r) := by
    simp only [World.Holds, Lua.Opens]
    rw [hr, ← hp]
  rw [hv]
  refine ⟨?_, h.owed hheld trivial rfl rfl⟩
  refine h.takeLua ((h.lawful.ok a).congr rfl rfl rfl rfl rfl rfl)
    ((h.lawful.linked a).same rfl rfl rfl rfl) (fun _ _ _ hh => hh)
    (fun _ _ _ ho => (close_opens hg ho).2) (fun _ => hheld) ?_
  intro _ ho
  simp only [World.Holds, setLua_lua] at ho
  exact (close_opens hg ho).1 rfl

theorem respond {p : Responder} (hr : (w.lua a).responders[r]? = some p) (msg : Option Payload)
    (fits : Bool) : Inv (w.respond a r p msg fits) none := by
  unfold World.respond
  split
  · exact h
  · exact h.close (nofun : Fn.nil ≠ .pack) false
  · next hpack =>
      obtain ⟨hclosed, howed⟩ := h.closes hr hpack (nofun : Fn.nil ≠ .pack) true
      simp only
      split
      · exact hclosed.dismiss howed.early howed.used
      · cases msg with
        | some msg => exact hclosed.answer howed msg fits
        | none =>
            apply (hclosed.pushFree rfl rfl).dismiss
            · simpa using howed.early
            · simpa using howed.used

theorem test {p : Responder} (hr : (w.lua a).responders[r]? = some p) :
    Inv (w.test a r p) none := by
  unfold World.test
  split
  · simp only
    split
    · next hpack =>
        obtain ⟨hclosed, howed⟩ := h.closes hr hpack (nofun : Fn.false ≠ .pack) true
        exact hclosed.dismiss howed.early howed.used
    · exact h.close (nofun : Fn.false ≠ .pack) true
  · exact h

include hctl

theorem finish : Inv (w.setLua a ((w.lua a).finish c frames)) none := by
  obtain ⟨v, hv⟩ := releaseWatching_eq (l := w.lua a) ((w.lua a).sessionCoroutineAddress c)
  unfold Lua.finish
  rw [hv]
  refine h.setLua ((h.lawful.ok a).stop hctl (rfl : Spot.pooled.waits = none) nofun rfl rfl rfl rfl
    nofun rfl) ((h.lawful.linked a).setSpot (rfl : Spot.pooled.waits = none) rfl rfl rfl
      fun _ hs => hs) ?_ fun _ _ _ ho => ho
  rintro d b s ⟨hd, hds, hdr⟩
  obtain rfl | hne := eq_or_ne d c
  · simp at hd
  · exact ⟨by simpa [hne] using hd, by simpa [hne] using hds, by simpa [hne] using hdr⟩

theorem raise : Inv (w.raise a c) none := by
  have hraise : Inv (w.setLua a ((w.lua a).raise c)) none := by
    refine h.setLua ((h.lawful.ok a).raise hctl) ((h.lawful.linked a).setSpot
      (rfl : Spot.stuck.waits = none) rfl rfl rfl fun _ hs => hs) ?_ fun _ _ _ ho => ho
    rintro d b s ⟨hd, hds, hdr⟩
    obtain rfl | hne := eq_or_ne d c
    · simp [Lua.raise] at hd
    · exact ⟨by simpa [Lua.raise, hne] using hd, by simpa [Lua.raise, hne] using hds, hdr⟩
  unfold World.raise
  simp only
  split
  · split
    · exact hraise
    · exact hraise.pushFree rfl rfl
  · exact hraise

theorem act {x : Action} {w' : World} (hcounts : Counts w (.act a x))
    (hact : w.act a c frames x = some w') : Inv w' none := by
  cases x with
  | send dest msg =>
      obtain rfl := Option.some.inj hact
      exact h.pushFree rfl rfl
  | call dest msg =>
      obtain rfl := Option.some.inj hact
      exact h.call hctl (hcounts rfl) dest msg
  | sleep =>
      obtain rfl := Option.some.inj hact
      exact h.sleep hctl (hcounts rfl)
  | wait =>
      obtain rfl := Option.some.inj hact
      exact h.wait hctl (hcounts rfl)
  | timeout co =>
      simp only [World.act] at hact
      split_ifs at hact with hfree
      obtain rfl := Option.some.inj hact
      exact h.timeout (hcounts rfl) hfree
  | fork co =>
      simp only [World.act] at hact
      split_ifs at hact with hfree
      obtain rfl := Option.some.inj hact
      exact h.fork hfree
  | wakeup co =>
      obtain rfl := Option.some.inj hact
      exact h.wakeup co
  | ret msg fits =>
      obtain rfl := Option.some.inj hact
      exact h.ret hctl msg fits
  | response =>
      obtain rfl := Option.some.inj hact
      exact h.response hctl
  | respond r msg fits =>
      simp only [World.act] at hact
      split at hact
      · next p hr =>
          obtain rfl := Option.some.inj hact
          exact h.respond hr msg fits
      · cases hact
  | test r =>
      simp only [World.act] at hact
      split at hact
      · next p hr =>
          obtain rfl := Option.some.inj hact
          exact h.test hr
      · cases hact
  | finish =>
      obtain rfl := Option.some.inj hact
      exact h.finish hctl
  | raise =>
      obtain rfl := Option.some.inj hact
      exact h.raise hctl

end

/-! ## What `suspend` does after it -/

section

variable (h : Inv w hand) (hstill : (w.lua a).ctl.Still)

include h

/-- A coroutine is told how its call has ended, when it no longer waits. -/
theorem tells (hnobody : ∀ d, ((w.lua a).spot d).waits ≠ some s)
    (hcaller : (w.calls a s).caller = some c) (houtcomes : (w.calls a s).outcomes = [])
    {msg : Option Payload} (hmsg : ∀ m, msg = some m → ∃ b, (w.calls a s).answers = [(b, m)]) :
    Inv (w.mark a s fun call => { call with outcomes := call.outcomes ++ [(c, msg)] }) hand := by
  have hcall := h.lawful.book a s
  have hused : s ≤ (w.lua a).sessionId := by
    by_contra hlt
    rw [h.unused (by omega)] at hcaller
    cases hcaller
  apply h.mark hused _ (.inl rfl) _ (.inr ⟨rfl, rfl, rfl⟩)
  · intro _
    simp only [houtcomes, List.nil_append]
    refine ⟨hcall.once, hcall.server, le_rfl, ?_, hcall.early, hcall.stage, hcall.ticks⟩
    intro d o ho
    obtain ⟨rfl, rfl⟩ := Prod.mk.inj (List.mem_singleton.mp ho)
    exact ⟨hcaller, hmsg⟩
  · intro d hd
    refine absurd ?_ (hnobody d)
    rw [hd]
    rfl

include hstill

/-- A coroutine that waits with a session is resumed, and told how its call has ended. -/
theorem resumes (hs : (w.lua a).sessionIdCoroutine s = some (.co c)) {x : Option Slot}
    (hx : ∀ d, x ≠ some (.co d)) (hid : l.sessionIdCoroutine =
      Function.update (w.lua a).sessionIdCoroutine s x)
    (hsession : l.sessionId = (w.lua a).sessionId) (hspots : l.spot = (w.lua a).spot)
    (hfork : l.forkQueue = (w.lua a).forkQueue) (hsleep : l.sleepSession = (w.lua a).sleepSession)
    (hlinked : Linked l (w.calls a)) (hhandles : l.Handles = (w.lua a).Handles)
    (hopens : l.Opens = (w.lua a).Opens) (frames : ℕ) :
    Inv (w.setLua a (l.resume c frames)) hand ∧
      ∀ d, ((l.resume c frames).spot d).waits ≠ some s := by
  have hok := (h.lawful.ok a).resume hstill hs hx hid hsession hspots hfork hsleep frames
  refine ⟨h.goes hok hlinked.resume ?_ ?_, ?_⟩
  · rw [resume_handles, hhandles]
  · rw [resume_opens, hopens]
  · apply hok.nobody
    apply resume_slot
    intro d
    rw [hid, Function.update_self]
    exact hx d

end

/-- What a coroutine is told comes before it is resumed. -/
theorem told_setLua {msg : Option Payload} : (w.told a c s msg).setLua a l =
    if (w.lua a).spot c = .calls s then
      (w.setLua a l).mark a s fun call => { call with outcomes := call.outcomes ++ [(c, msg)] }
    else w.setLua a l := by
  unfold World.told
  split_ifs
  · rw [mark_setLua]
  · rfl

section

variable (h : Inv w none) (hstill : (w.lua a).ctl.Still)

include h hstill

theorem wake {choice : Option ℕ} {w' : World} (hw : w.wake a frames choice = some w') :
    Inv w' none := by
  have hok := h.lawful.ok a
  have hlinked := h.lawful.linked a
  cases choice with
  | none =>
      simp only [World.wake] at hw
      split_ifs at hw
      obtain rfl := Option.some.inj hw
      exact h.goes (hok.goes hstill nofun) (hlinked.same rfl rfl rfl rfl) rfl rfl
  | some c =>
      simp only [World.wake] at hw
      split_ifs at hw
      split at hw
      · next s hs =>
          obtain rfl := Option.some.inj hw
          obtain ⟨timer, hsleeps⟩ := hok.sleeps c s hs
          have hslot := (hok.slot s c).mpr (by rw [hsleeps]; rfl)
          exact (h.resumes hstill hslot (nofun : ∀ d, some Slot.BREAK ≠ some (.co d))
            (l := { w.lua a with
              wakeupSession := (w.lua a).wakeupSession.erase c
              sessionIdCoroutine :=
                Function.update (w.lua a).sessionIdCoroutine s (some .BREAK) })
            rfl rfl rfl rfl rfl (hlinked.same rfl rfl rfl rfl) rfl rfl (frames + 1)).1
      · obtain rfl := Option.some.inj hw
        have hgoes := hok.goes hstill (nofun : Ctl.Still (.errors frames))
        exact h.goes (hgoes.congr rfl rfl rfl rfl rfl rfl)
          (hlinked.same rfl rfl rfl rfl) rfl rfl

theorem fail (frames : ℕ) : Inv (w.fail a frames) none := by
  have hok := h.lawful.ok a
  have hlinked := h.lawful.linked a
  unfold World.fail
  simp only
  split
  · refine h.goes (hok.goes hstill ?_) (hlinked.same rfl rfl rfl rfl) rfl rfl
    split_ifs <;> nofun
  · next s queue hqueue =>
      have hquiet : ∀ {l : Lua}, l.sessionId = (w.lua a).sessionId → l.spot = (w.lua a).spot →
          l.errorQueue = queue → l.watchingSession = (w.lua a).watchingSession →
          Linked l (w.calls a) := by
        intro l hsession hspots herrors hwatching
        apply hlinked.quiet hsession (fun d => .inl (by rw [hspots])) _ fun r hr => hwatching ▸ hr
        intro r hr
        rw [herrors] at hr
        rw [hqueue]
        exact .inl (List.mem_cons_of_mem _ hr)
      split
      · next c hslot =>
          obtain ⟨hresumed, hnobody⟩ :=
            h.resumes hstill hslot (nofun : ∀ d, none ≠ some (Slot.co d))
            (l := { (w.lua a).forget s with errorQueue := queue }) rfl rfl rfl rfl rfl
            (hquiet rfl rfl rfl rfl) rfl rfl frames
          rw [told_setLua]
          split
          · next hcalls =>
              obtain ⟨hcaller, houtcomes⟩ := hlinked.calling c s hcalls
              exact hresumed.tells (by rwa [setLua_lua]) hcaller houtcomes nofun
          · exact hresumed
      · next hnot =>
          have hforget : ({ (w.lua a).forget s with errorQueue := queue } : Lua).Ok :=
            (hok.forget hnot).congr rfl rfl rfl rfl rfl rfl
          exact h.goes (hforget.goes hstill nofun) (hquiet rfl rfl rfl rfl) rfl rfl

theorem forks {choice : Option ℕ} {w' : World} (hw : w.forks a choice = some w') :
    Inv w' none := by
  have hok := h.lawful.ok a
  have hlinked := h.lawful.linked a
  cases choice with
  | none =>
      simp only [World.forks] at hw
      split_ifs at hw
      obtain rfl := Option.some.inj hw
      exact h.goes (hok.goes hstill nofun) (hlinked.same rfl rfl rfl rfl) rfl rfl
  | some c =>
      simp only [World.forks] at hw
      split_ifs at hw with hc
      obtain rfl := Option.some.inj hw
      refine h.goes (hok.resume_forked hstill hc 0) (Linked.resume (hlinked.same rfl rfl rfl rfl))
        ?_ ?_
      · rw [resume_handles]
        rfl
      · rw [resume_opens]
        rfl

end

/-! ## Messages -/

/-- The answer of a session that nobody waits for any more -/
theorem ends (h : Inv w (some (a, s))) (hs : s ≤ (w.lua a).sessionId)
    (hnobody : ∀ d, ((w.lua a).spot d).waits ≠ some s) : Inv (w.stage a s .over) none := by
  have hcall := h.lawful.book a s
  have hmark : Inv (w.stage a s .over) (some (a, s)) := by
    apply h.mark hs _ (.inl rfl) _ (.inl rfl)
    · intro _
      exact ⟨hcall.once, hcall.server, hcall.told, hcall.outcome, fun hfalse => hfalse.elim, nofun,
        nofun⟩
    · intro d hd
      refine absurd ?_ (hnobody d)
      rw [hd]
      rfl
  exact hmark.release (hmark.stage_ne nofun)

theorem stage_setLua : (w.stage a s p).setLua b l = (w.setLua b l).stage a s p := mark_setLua.symm

section

variable (h : Inv w none) (hstill : (w.lua a).ctl.Still) {rest : List Message}

include h hstill

theorem dispatch_response (hinbox : w.inbox a = .response s msg :: rest) {order : List ℕ}
    {w' : World} (hw : (w.pop a rest).dispatch a c order (.response s msg) = some w') :
    Inv w' none := by
  have hpop := h.pop hinbox
  have hok := h.lawful.ok a
  have hlinked := h.lawful.linked a
  have hmem : Message.response s msg ∈ w.inbox a := by
    rw [hinbox]
    exact List.mem_cons_self
  have hused : s ≤ (w.lua a).sessionId := by
    by_cases hzero : s = 0
    · omega
    · apply h.lawful.used
      rw [(h.tokens a s .answered hzero ⟨msg, hmem⟩).1]
      nofun
  simp only [World.dispatch] at hw
  split at hw
  · next hslot =>
      obtain rfl := Option.some.inj hw
      rw [stage_setLua]
      apply Inv.ends _ (by rwa [setLua_lua])
      · rw [setLua_lua]
        exact hok.nobody (by
          intro d hd
          cases hslot.symm.trans hd)
      · exact hpop.goes (hok.goes hstill nofun) (hlinked.same rfl rfl rfl rfl) rfl rfl
  · next hslot =>
      obtain rfl := Option.some.inj hw
      have hnot : ∀ d, (w.lua a).sessionIdCoroutine s ≠ some (.co d) := by
        intro d hd
        cases hslot.symm.trans hd
      have hforget := hok.forget hnot
      rw [stage_setLua]
      apply Inv.ends _ (by rwa [setLua_lua])
      · rw [setLua_lua]
        exact hok.nobody hnot
      · exact hpop.goes (hforget.goes hstill nofun) (hlinked.same rfl rfl rfl rfl) rfl rfl
  · next d hslot =>
      obtain rfl := Option.some.inj hw
      obtain ⟨hresumed, hnobody⟩ := hpop.resumes (a := a) hstill hslot
        (nofun : ∀ d, none ≠ some (Slot.co d)) (l := (w.lua a).forget s) rfl rfl rfl rfl rfl
        (hlinked.same rfl rfl rfl rfl) rfl rfl 0
      have hends := hresumed.ends (by rwa [setLua_lua, resume_sessionId]) (by rwa [setLua_lua])
      rw [told_setLua, stage_setLua]
      split
      · next hcalls =>
          unfold World.stage at hcalls
          rw [mark_lua] at hcalls
          obtain ⟨hcaller, houtcomes⟩ := hlinked.calling d s hcalls
          have hzero : s ≠ 0 := by
            rintro rfl
            rw [h.zero] at hcaller
            cases hcaller
          have hself := mark_self (w := (w.pop a rest).setLua a (((w.lua a).forget s).resume d 0))
            (a := a) (f := fun call => { call with stage := .over }) hzero
          unfold World.stage at hends ⊢
          apply hends.tells
          · rwa [mark_lua, setLua_lua]
          · rw [hself]
            exact hcaller
          · rw [hself]
            exact houtcomes
          · intro m hm
            obtain rfl := Option.some.inj hm
            rw [hself]
            exact h.boxes.reply a s msg hmem hzero (by rw [hcaller]; nofun)
      · exact hends

theorem dispatch_request {b : ℕ} (hinbox : w.inbox a = .request b s msg :: rest) {order : List ℕ}
    {w' : World} (hw : (w.pop a rest).dispatch a c order (.request b s msg) = some w') :
    Inv w' none := by
  have hpop := h.pop hinbox
  have hok := h.lawful.ok a
  have hmem : Message.request b s msg ∈ w.inbox a := by
    rw [hinbox]
    exact List.mem_cons_self
  have hheld : w.Holds b s (.sent a) := ⟨msg, hmem⟩
  obtain ⟨hearly, hgoes, hsession⟩ := h.early (fun _ => hheld) trivial
  have howed : Owed (w.pop a rest) a b s := by
    refine ⟨hearly, hsession, fun hzero => ?_⟩
    exact (h.lawful.book b s).stage a (by rw [hgoes hzero]; rfl)
  simp only [World.dispatch] at hw
  split_ifs at hw with hfree
  obtain rfl := Option.some.inj hw
  apply hpop.putStage howed (hok.handle hstill hfree b s) _ rfl
  · rintro d x r ⟨hd, hr, hresponse⟩
    obtain rfl | hne := eq_or_ne d c
    · simp only [Lua.handle, Function.update_self, Option.some.injEq] at hd hr
      exact .inr ⟨hd.symm, hr.symm, rfl⟩
    · simp only [Lua.handle, Function.update_of_ne hne] at hd hr
      exact .inl ⟨hd, hr, hresponse⟩
  · exact fun _ _ _ ho => .inl ho
  · intro calls hcalls
    exact hcalls.setSpot (rfl : Spot.runs.waits = none) rfl rfl rfl fun _ hr => hr

theorem dispatch_error {b : ℕ} (hinbox : w.inbox a = .error b s :: rest) {order : List ℕ}
    {w' : World} (hw : (w.pop a rest).dispatch a c order (.error b s) = some w') :
    Inv w' none := by
  have hpop := h.pop hinbox
  have hok := h.lawful.ok a
  have hlinked := h.lawful.linked a
  simp only [World.dispatch] at hw
  split_ifs at hw with horder
  obtain rfl := Option.some.inj hw
  obtain ⟨v, dead, errors, heq, herrors⟩ := errorDispatch_eq (l := w.lua a) s b order
  have hwatched : ∀ r ∈ errors, r ∈ (w.lua a).errorQueue ∨ (w.lua a).watchingSession r ≠ none := by
    intro r hr
    rcases herrors r hr with hold | hmem | hsome
    · exact .inl hold
    · have hwatched := horder.mem_iff.mp hmem
      simp only [Lua.watched, List.mem_filter, decide_eq_true_eq] at hwatched
      refine .inr ?_
      intro hnone
      cases hnone.symm.trans hwatched.2
    · exact .inr hsome
  have hgoes := hok.goes hstill (nofun : Ctl.Still (.wakeups 0))
  have hlua : (w.pop a rest).lua a = w.lua a := rfl
  rw [hlua, heq]
  exact hpop.goes (hgoes.congr rfl rfl rfl rfl rfl rfl)
    (hlinked.quiet rfl (fun _ => .inl rfl) hwatched fun _ hr => hr) rfl rfl

end

theorem tick (h : Inv w none) (hmem : (a, s) ∈ w.timers) : Inv (w.tick a s) none := by
  have htaken := h.takeTimer hmem
  obtain ⟨hearly, hgoes, hsession⟩ :=
    h.early (a := a) (s := s) (p := .ticks) (fun _ => hmem) trivial
  unfold World.tick
  simp only
  split
  · next halive =>
      have hcall := h.lawful.book a s
      have hmark := htaken.stage (p := .answered) hearly hsession nofun nofun
      have hself : s ≠ 0 → (({ w with timers := w.timers.erase (a, s) } : World).stage a s
          .answered).calls a s = { w.calls a s with stage := .answered } := mark_self
      unfold World.stage at hmark hself ⊢
      rw [mark_push]
      apply hmark.pushResponse
      · rwa [mark_alive]
      · intro hzero
        rw [hself hzero]
      · intro hzero hcaller
        rw [hself hzero] at hcaller
        exact absurd (hcall.ticks (hgoes hzero)) hcaller
  · next hdead =>
      unfold World.push
      rw [if_neg (by simpa using hdead)]
      exact htaken.dismiss hearly hsession

theorem step (h : Inv w none) {i : Label} {w' : World} (hcounts : Counts w i)
    (hstep : step w i = some w') : Inv w' none := by
  cases i with
  | act a x =>
      simp only [Sessions.step] at hstep
      split at hstep
      · next hctl => exact h.act hctl hcounts hstep
      · cases hstep
  | wake a choice =>
      simp only [Sessions.step] at hstep
      split at hstep
      · next hctl => exact h.wake (by rw [hctl]; nofun) hstep
      · cases hstep
  | fail a =>
      simp only [Sessions.step] at hstep
      split at hstep
      · next frames _ hctl =>
          obtain rfl := Option.some.inj hstep
          exact h.fail (by rw [hctl]; nofun) frames
      · cases hstep
  | forks a choice =>
      simp only [Sessions.step] at hstep
      split at hstep
      · next hctl => exact h.forks (by rw [hctl]; nofun) hstep
      · cases hstep
  | receive a c order =>
      simp only [Sessions.step] at hstep
      split at hstep
      · next m rest _ hctl hinbox =>
          have hstill : (w.lua a).ctl.Still := by
            rw [hctl]
            nofun
          cases m with
          | request b s msg => exact h.dispatch_request hstill hinbox hstep
          | response s msg => exact h.dispatch_response hstill hinbox hstep
          | error b s => exact h.dispatch_error hstill hinbox hstep
      · cases hstep
  | tick a s =>
      simp only [Sessions.step] at hstep
      split_ifs at hstep with hmem
      obtain rfl := Option.some.inj hstep
      exact h.tick hmem
  | error a b s =>
      obtain rfl := Option.some.inj hstep
      exact h.pushFree rfl rfl
  | kill a =>
      obtain rfl := Option.some.inj hstep
      exact h.kill

end Inv

/-! ## Every run -/

theorem start_ok : Lua.start.Ok where
  slot := by
    intro s c
    simp only [Lua.start]
    obtain rfl | hs := eq_or_ne s 1
    · rw [Function.update_self]
      obtain rfl | hc := eq_or_ne c 0
      · rw [Function.update_self]
        exact iff_of_true rfl rfl
      · rw [Function.update_of_ne hc]
        exact iff_of_false (fun heq => hc (Slot.co.inj (Option.some.inj heq)).symm) nofun
    · rw [Function.update_of_ne hs]
      refine iff_of_false nofun ?_
      obtain rfl | hc := eq_or_ne c 0
      · rw [Function.update_self]
        exact fun heq => hs (Option.some.inj heq).symm
      · rw [Function.update_of_ne hc]
        nofun
  bound := by
    intro s hs
    simp only [Lua.start] at hs ⊢
    obtain rfl | hne := eq_or_ne s 1
    · omega
    · rw [Function.update_of_ne hne] at hs
      exact absurd rfl hs
  sleeps := nofun
  forked := nofun
  forks := List.nodup_nil
  runs := by
    intro c
    refine iff_of_false ?_ nofun
    simp only [Lua.start]
    obtain rfl | hc := eq_or_ne c 0
    · rw [Function.update_self]
      nofun
    · rw [Function.update_of_ne hc]
      nofun

theorem start_inv (services : List ℕ) : Inv (start services) none where
  lawful := {
    ok := fun _ => start_ok
    linked := by
      intro a
      refine ⟨?_, ?_, ?_, fun _ _ _ _ => rfl, nofun, nofun, fun _ _ _ _ => rfl⟩
      · simp [start, Call.unused]
      · intro s hs
        have hne : s ≠ 1 := by
          rintro rfl
          exact absurd hs (Nat.lt_irrefl 1)
        simp [start, hne, Call.unused]
      · intro c s hc
        refine absurd hc ?_
        simp only [start, Lua.start]
        obtain rfl | hne := eq_or_ne c 0
        · rw [Function.update_self]
          nofun
        · rw [Function.update_of_ne hne]
          nofun
    book := by
      intro a s
      refine ⟨Nat.zero_le _, nofun, Nat.zero_le _, nofun, fun _ => rfl, ?_, fun _ => rfl⟩
      intro b hb
      simp only [start] at hb
      split_ifs at hb <;> cases hb }
  boxes := {
    timers := by
      apply (List.nodup_dedup services).map
      exact fun a b heq => (Prod.mk.inj heq).1
    asks := fun _ => List.nodup_nil
    replies := fun _ => List.nodup_nil
    reply := nofun
    kept := by
      intro a s _ hs
      simp only [start] at hs
      split_ifs at hs
    dead := fun _ _ => rfl }
  tokens := by
    intro a s q _ hq
    refine ⟨?_, nofun⟩
    cases q with
    | ticks =>
        simp only [World.Holds, start, List.mem_map, List.mem_dedup, Prod.mk.injEq] at hq
        obtain ⟨b, hb, rfl, rfl⟩ := hq
        simp [start, hb]
    | sent b =>
        obtain ⟨m, hm⟩ := hq
        cases hm
    | answered =>
        obtain ⟨m, hm⟩ := hq
        cases hm
    | handled b c => cases hq.1
    | opened b r => cases hq
    | _ => exact hq.elim

theorem inv_of_runs {services : List ℕ} (h : (system services).Runs Counts w) : Inv w none :=
  h.invariant (P := fun w => Inv w none) (start_inv services)
    fun _ _ _ hinv hcounts hstep => hinv.step hcounts hstep

end

/-- The end of a message in which nothing is left to do -/
def rest (a : ℕ) : List Label := [.act a .finish, .wake a none, .fail a, .forks a none]

/-- Two coroutines of service 1 call service 2, which answers the second call first. -/
def crossing : List Label :=
  [.tick 2 1, .receive 2 0 []] ++ rest 2 ++
  [.tick 1 1, .receive 1 0 [], .act 1 (.fork 1), .act 1 (.fork 2), .act 1 .finish, .wake 1 none,
    .fail 1, .forks 1 (some 1), .act 1 (.call 2 [1]), .wake 1 none, .fail 1, .forks 1 (some 2),
    .act 1 (.call 2 [2]), .wake 1 none, .fail 1, .forks 1 none,
    .receive 2 0 [], .act 2 .response] ++ rest 2 ++
  [.receive 2 0 [], .act 2 .response, .act 2 (.respond 1 (some [9]) true),
    .act 2 (.respond 0 (some [8]) true)] ++ rest 2 ++ [.receive 1 0 []] ++ rest 1

theorem crossing_run : ∃ w, (system [1, 2]).Runs Counts w ∧ w.alive 1 = true ∧
    (w.lua 1).spot 1 = .calls 2 ∧ (w.calls 1 2).answers = [(2, [8])] :=
  ⟨_, System.Runs.of_guarded_run crossing .init rfl, rfl, rfl, rfl⟩

theorem crossed_run : ∃ w, (system [1, 2]).Runs Counts w ∧
    (w.calls 1 2).outcomes = [(1, some [8])] ∧ (w.calls 1 3).outcomes = [(2, some [9])] :=
  ⟨_, System.Runs.of_guarded_run (crossing ++ [.receive 1 0 []]) .init rfl, rfl, rfl⟩

/-- As long as no counter of sessions runs over, a request is answered at most once, by the service
that was called. The caller is told once how
its call has ended, and when it is told an answer this is the one that was given. -/
theorem own_answer {services : List ℕ} {w : World} (h : (system services).Runs Counts w) (a s : ℕ) :
    (w.calls a s).answers.length ≤ 1 ∧ (w.calls a s).outcomes.length ≤ 1 ∧
      (∀ b m, (b, m) ∈ (w.calls a s).answers → (w.calls a s).server = some b) ∧
      ∀ c o, (c, o) ∈ (w.calls a s).outcomes → (w.calls a s).caller = some c ∧
        ∀ m, o = some m → ∃ b, (w.calls a s).server = some b ∧
          (w.calls a s).answers = [(b, m)] := by
  have hcall := (inv_of_runs h).lawful.book a s
  refine ⟨hcall.once, hcall.told, hcall.server, ?_⟩
  intro c o ho
  obtain ⟨hcaller, hanswers⟩ := hcall.outcome c o ho
  refine ⟨hcaller, ?_⟩
  intro m hm
  obtain ⟨b, hb⟩ := hanswers m hm
  exact ⟨b, hcall.server b m (by rw [hb]; exact List.mem_singleton_self _), hb⟩

theorem own_answer_crossed : ∃ w, (system [1, 2]).Runs Counts w ∧
    (∃ b, (w.calls 1 2).server = some b ∧ (w.calls 1 2).answers = [(b, [8])]) ∧
      ∃ b, (w.calls 1 3).server = some b ∧ (w.calls 1 3).answers = [(b, [9])] := by
  obtain ⟨w, hw, hfirst, hsecond⟩ := crossed_run
  refine ⟨w, hw, ?_, ?_⟩
  · apply ((own_answer hw 1 2).2.2.2 1 (some [8]) _).2 [8] rfl
    rw [hfirst]
    exact List.mem_singleton_self _
  · apply ((own_answer hw 1 3).2.2.2 2 (some [9]) _).2 [9] rfl
    rw [hsecond]
    exact List.mem_singleton_self _

/-- The answer that a coroutine waits for is not lost: it is in the mailbox. -/
theorem answer_kept {services : List ℕ} {w : World} (h : (system services).Runs Counts w)
    {a b c s : ℕ} {m : Payload} (halive : w.alive a = true) (hc : (w.lua a).spot c = .calls s)
    (hm : (b, m) ∈ (w.calls a s).answers) : .response s m ∈ w.inbox a := by
  have hinv := inv_of_runs h
  have hcall := hinv.lawful.book a s
  have hlinked := hinv.lawful.linked a
  have hcaller : (w.calls a s).caller ≠ none := by
    rw [(hlinked.calling c s hc).1]
    nofun
  have hzero : s ≠ 0 := by
    rintro rfl
    rw [hinv.zero] at hcaller
    exact hcaller rfl
  have hstage : (w.calls a s).stage = .answered := by
    by_contra hne
    by_cases hover : (w.calls a s).stage = .over
    · rw [hlinked.late c s hc hover] at hm
      cases hm
    · have hearly : (w.calls a s).stage.Early := by
        cases hp : (w.calls a s).stage with
        | answered => exact absurd hp hne
        | ticks | sent | handled | opened => trivial
        | _ => first | exact absurd hp hover | trivial
      rw [hcall.early hearly] at hm
      cases hm
  rcases hinv.boxes.kept a s halive hstage with ⟨m', hm'⟩ | hhand
  · obtain ⟨b', hb'⟩ := hinv.boxes.reply a s m' hm' hzero hcaller
    rw [hb'] at hm
    obtain ⟨rfl, rfl⟩ := Prod.mk.inj (List.mem_singleton.mp hm)
    exact hm'
  · cases hhand

theorem answer_kept_crossing : ∃ w, (system [1, 2]).Runs Counts w ∧
    (w.lua 1).spot 1 = .calls 2 ∧ .response 2 [8] ∈ w.inbox 1 := by
  obtain ⟨w, hw, halive, hcalls, hanswers⟩ := crossing_run
  refine ⟨w, hw, hcalls, ?_⟩
  apply answer_kept hw halive hcalls (b := 2)
  rw [hanswers]
  exact List.mem_singleton_self _

/-- The table of sessions is exact: an entry is the coroutine that waits with the session. At most
one coroutine runs, and the next session is not in the table yet. -/
theorem session_exact {services : List ℕ} {w : World} (h : (system services).Runs Counts w)
    (a : ℕ) :
    (∀ s c, (w.lua a).sessionIdCoroutine s = some (.co c) ↔
      ((w.lua a).spot c).waits = some s) ∧
    (∀ c d, (w.lua a).spot c = .runs → (w.lua a).spot d = .runs → c = d) ∧
      (w.lua a).sessionIdCoroutine ((w.lua a).sessionId + 1) = none := by
  have hok := (inv_of_runs h).lawful.ok a
  refine ⟨hok.slot, ?_, hok.next_free⟩
  intro c d hc hd
  obtain ⟨frames, hctl⟩ := (hok.runs d).mp hd
  exact hok.runs_eq hctl hc

theorem session_exact_crossing : ∃ w, (system [1, 2]).Runs Counts w ∧
    (w.lua 1).spot 1 = .calls 2 ∧ (w.lua 1).sessionIdCoroutine 2 = some (.co 1) := by
  obtain ⟨w, hw, -, hcalls, -⟩ := crossing_run
  refine ⟨w, hw, hcalls, ?_⟩
  apply ((session_exact hw 1).1 2 1).mpr
  rw [hcalls]
  rfl

end GameServer.Sessions
