import GameServer.Sessions

/-!
# Everyone gets the answer to what they asked

In a service a session stands for the one coroutine that waits with it (`Lua.Ok`). Between the
services a session is in one place only (`Holds`): with the timer, in the mailbox of the service
that was called, with the coroutine or the closure that has to answer, or as the answer in the
mailbox of the caller. A step takes it from one place and puts it into the next.
-/

namespace GameServer.Sessions

open Transition

/-! ## One service -/

/-- The session with which a coroutine waits -/
def Spot.waits : Spot → Option ℕ
  | .timed session | .calls session | .sleeps session _ => some session
  | _ => none

structure Lua.Ok (l : Lua) : Prop where
  slot : ∀ s c, l.sessionIdCoroutine s = some (.co c) ↔ (l.spot c).waits = some s
  bound : ∀ s, l.sessionIdCoroutine s ≠ none → 0 < s ∧ s ≤ l.sessionId
  sleeps : ∀ c s, l.sleepSession c = some s → ∃ timer, l.spot c = .sleeps s timer
  forked : ∀ c ∈ l.forkQueue, l.spot c = .forked
  forks : l.forkQueue.Nodup
  runs : ∀ c, l.spot c = .runs ↔ ∃ frames, l.ctl = .runs c frames

/-- No coroutine runs. -/
def Ctl.Still (ctl : Ctl) : Prop := ∀ c frames, ctl ≠ .runs c frames

namespace Lua.Ok

variable {l l' : Lua} {c d s frames : ℕ} {spot : Spot}

theorem congr (h : l.Ok) (hid : l'.sessionIdCoroutine = l.sessionIdCoroutine)
    (hsession : l'.sessionId = l.sessionId) (hsleep : l'.sleepSession = l.sleepSession)
    (hfork : l'.forkQueue = l.forkQueue) (hspot : l'.spot = l.spot) (hctl : l'.ctl = l.ctl) :
    l'.Ok where
  slot := by rw [hid, hspot]; exact h.slot
  bound := by rw [hid, hsession]; exact h.bound
  sleeps := by rw [hsleep, hspot]; exact h.sleeps
  forked := by rw [hfork, hspot]; exact h.forked
  forks := by rw [hfork]; exact h.forks
  runs := by rw [hspot, hctl]; exact h.runs

theorem still (h : l.Ok) (hctl : l.ctl.Still) (c : ℕ) : l.spot c ≠ .runs := by
  intro hc
  obtain ⟨frames, hruns⟩ := (h.runs c).mp hc
  exact hctl c frames hruns

theorem runs_of_ctl (h : l.Ok) (hctl : l.ctl = .runs c frames) : l.spot c = .runs :=
  (h.runs c).mpr ⟨frames, hctl⟩

theorem runs_eq (h : l.Ok) (hctl : l.ctl = .runs c frames) (hd : l.spot d = .runs) : d = c := by
  obtain ⟨frames', hruns⟩ := (h.runs d).mp hd
  rw [hctl] at hruns
  exact (Ctl.runs.inj hruns).1.symm

theorem next_free (h : l.Ok) : l.sessionIdCoroutine (l.sessionId + 1) = none := by
  by_contra hne
  have hle := (h.bound _ hne).2
  omega

/-- Between two coroutines the service goes from one thing to the next. -/
theorem goes (h : l.Ok) (hctl : l.ctl.Still) {ctl : Ctl} (hctl' : ctl.Still) :
    ({ l with ctl := ctl } : Lua).Ok where
  slot := h.slot
  bound := h.bound
  sleeps := h.sleeps
  forked := h.forked
  forks := h.forks
  runs c := ⟨fun hc => absurd hc (h.still hctl c), fun ⟨frames, hruns⟩ =>
    absurd hruns (hctl' c frames)⟩

end Lua.Ok

section Slots

variable {idCo : ℕ → Option Slot} {spots : ℕ → Spot} {c s : ℕ} {spot : Spot} {x : Option Slot}

/-- A coroutine that waits with no session goes where it waits with none. -/
theorem slots_same (h : ∀ s d, idCo s = some (.co d) ↔ (spots d).waits = some s)
    (hc : (spots c).waits = none) (hspot : spot.waits = none) (s d : ℕ) :
    idCo s = some (.co d) ↔ (Function.update spots c spot d).waits = some s := by
  rw [h]
  obtain rfl | hne := eq_or_ne d c
  · rw [Function.update_self, hc, hspot]
  · rw [Function.update_of_ne hne]

theorem slots_enter (h : ∀ s d, idCo s = some (.co d) ↔ (spots d).waits = some s)
    (hfree : idCo s = none) (hc : (spots c).waits = none) (hspot : spot.waits = some s)
    (s' d : ℕ) : Function.update idCo s (some (.co c)) s' = some (.co d) ↔
      (Function.update spots c spot d).waits = some s' := by
  obtain rfl | hs := eq_or_ne s' s
  · rw [Function.update_self]
    obtain rfl | hne := eq_or_ne d c
    · rw [Function.update_self, hspot]
      exact iff_of_true rfl rfl
    · rw [Function.update_of_ne hne, ← h, hfree]
      exact iff_of_false (fun heq => hne (Slot.co.inj (Option.some.inj heq)).symm) nofun
  · rw [Function.update_of_ne hs, h]
    obtain rfl | hne := eq_or_ne d c
    · rw [Function.update_self, hc, hspot]
      exact iff_of_false nofun fun heq => hs (Option.some.inj heq).symm
    · rw [Function.update_of_ne hne]

theorem slots_leave (h : ∀ s d, idCo s = some (.co d) ↔ (spots d).waits = some s)
    (hx : ∀ d, x ≠ some (.co d)) (hc : (spots c).waits = some s) (hspot : spot.waits = none)
    (s' d : ℕ) : Function.update idCo s x s' = some (.co d) ↔
      (Function.update spots c spot d).waits = some s' := by
  obtain rfl | hs := eq_or_ne s' s
  · rw [Function.update_self]
    refine iff_of_false (hx d) ?_
    obtain rfl | hne := eq_or_ne d c
    · rw [Function.update_self, hspot]
      nofun
    · rw [Function.update_of_ne hne, ← h]
      intro hd
      have hcs := (h s' c).mpr hc
      rw [hcs] at hd
      exact hne (Slot.co.inj (Option.some.inj hd)).symm
  · rw [Function.update_of_ne hs, h]
    obtain rfl | hne := eq_or_ne d c
    · rw [Function.update_self, hc, hspot]
      exact iff_of_false (fun heq => hs (Option.some.inj heq).symm) nofun
    · rw [Function.update_of_ne hne]

end Slots

namespace Lua.Ok

variable {l l' : Lua} {c d s frames : ℕ} {spot : Spot}

theorem free_waits (hfree : l.Free c) : (l.spot c).waits = none ∧ l.spot c ≠ .forked ∧
    l.spot c ≠ .runs := by
  rcases hfree with hc | hc <;> rw [hc] <;> exact ⟨rfl, nofun, nofun⟩

theorem not_queued (h : l.Ok) (hc : l.spot c ≠ .forked) : c ∉ l.forkQueue :=
  fun hmem => hc (h.forked c hmem)

/-- Where the spot of one coroutine changes, the queue of forks stays right. -/
theorem forked_update (h : l.Ok) (hc : l.spot c ≠ .forked) :
    ∀ d ∈ l.forkQueue, Function.update l.spot c spot d = .forked := by
  intro d hd
  have hne : d ≠ c := fun heq => h.not_queued hc (heq ▸ hd)
  rw [Function.update_of_ne hne]
  exact h.forked d hd

/-- The coroutine that runs goes to where it does not run. -/
theorem runs_park (h : l.Ok) (hctl : l.ctl = .runs c frames) (hspot : spot ≠ .runs) {ctl : Ctl}
    (hctl' : ctl.Still) (d : ℕ) :
    Function.update l.spot c spot d = .runs ↔ ∃ frames, ctl = .runs d frames := by
  refine iff_of_false (fun hd => ?_) fun ⟨frames, hruns⟩ => hctl' d frames hruns
  obtain rfl | hne := eq_or_ne d c
  · rw [Function.update_self] at hd
    exact hspot hd
  · rw [Function.update_of_ne hne] at hd
    exact hne (h.runs_eq hctl hd)

theorem waits_of_runs (h : l.Ok) (hctl : l.ctl = .runs c frames) : (l.spot c).waits = none := by
  rw [h.runs_of_ctl hctl]
  rfl

theorem forked_of_runs (h : l.Ok) (hctl : l.ctl = .runs c frames) : l.spot c ≠ .forked := by
  rw [h.runs_of_ctl hctl]
  nofun

theorem sleeps_park (h : l.Ok) (hctl : l.ctl = .runs c frames) {spot : Spot} :
    ∀ d s, l.sleepSession d = some s →
      ∃ timer, Function.update l.spot c spot d = .sleeps s timer := by
  intro d s hd
  obtain ⟨timer, hsleeps⟩ := h.sleeps d s hd
  have hne : d ≠ c := by
    rintro rfl
    rw [h.runs_of_ctl hctl] at hsleeps
    cases hsleeps
  exact ⟨timer, by rw [Function.update_of_ne hne, hsleeps]⟩

/-- The coroutine that runs yields with the next session. -/
theorem park (h : l.Ok) (hctl : l.ctl = .runs c frames) (hspot : spot.waits = some s)
    (hs : s = l.sessionId + 1) (hid : l'.sessionIdCoroutine =
      Function.update l.sessionIdCoroutine s (some (.co c))) (hsession : l'.sessionId = s)
    (hspots : l'.spot = Function.update l.spot c spot) (hfork : l'.forkQueue = l.forkQueue)
    (hctl' : l'.ctl.Still)
    (hsleep : ∀ d s, l'.sleepSession d = some s → ∃ timer, l'.spot d = .sleeps s timer) :
    l'.Ok where
  slot := by
    rw [hid, hspots]
    exact slots_enter h.slot (hs ▸ h.next_free) (h.waits_of_runs hctl) hspot
  bound := by
    intro s' hne
    rw [hsession]
    rw [hid] at hne
    obtain rfl | hs' := eq_or_ne s' s
    · omega
    · rw [Function.update_of_ne hs'] at hne
      have hle := h.bound s' hne
      omega
  sleeps := hsleep
  forked := by
    rw [hfork, hspots]
    exact h.forked_update (h.forked_of_runs hctl)
  forks := hfork ▸ h.forks
  runs := by
    rw [hspots]
    apply h.runs_park hctl _ hctl'
    rintro rfl
    cases hspot

theorem stop (h : l.Ok) (hctl : l.ctl = .runs c frames) (hspot : spot.waits = none)
    (hruns : spot ≠ .runs) (hid : l'.sessionIdCoroutine = l.sessionIdCoroutine)
    (hsession : l'.sessionId = l.sessionId) (hspots : l'.spot = Function.update l.spot c spot)
    (hfork : l'.forkQueue = l.forkQueue) (hctl' : l'.ctl.Still)
    (hsleep : l'.sleepSession = l.sleepSession) : l'.Ok where
  slot := by
    rw [hid, hspots]
    exact slots_same h.slot (h.waits_of_runs hctl) hspot
  bound := by
    rw [hid, hsession]
    exact h.bound
  sleeps := by
    rw [hsleep, hspots]
    exact h.sleeps_park hctl
  forked := by
    rw [hfork, hspots]
    exact h.forked_update (h.forked_of_runs hctl)
  forks := hfork ▸ h.forks
  runs := by
    rw [hspots]
    exact h.runs_park hctl hruns hctl'

theorem stick (h : l.Ok) (hctl : l.ctl = .runs c frames) : (l.stick c).Ok :=
  h.stop hctl (rfl : Spot.stuck.waits = none) nofun rfl rfl rfl rfl nofun rfl

theorem raise (h : l.Ok) (hctl : l.ctl = .runs c frames) : (l.raise c).Ok :=
  h.stop hctl (rfl : Spot.stuck.waits = none) nofun rfl rfl rfl rfl nofun rfl

/-- A new coroutine gets something to do while another one runs or none does. -/
theorem create (h : l.Ok) (hfree : l.Free d) (hspot : spot ≠ .runs)
    (hslot : ∀ s c, l'.sessionIdCoroutine s = some (.co c) ↔ (l'.spot c).waits = some s)
    (hbound : ∀ s, l'.sessionIdCoroutine s ≠ none → 0 < s ∧ s ≤ l'.sessionId)
    (hspots : l'.spot = Function.update l.spot d spot)
    (hsleep : l'.sleepSession = l.sleepSession) (hctl : l'.ctl = l.ctl)
    (hforked : ∀ c ∈ l'.forkQueue, l'.spot c = .forked) (hforks : l'.forkQueue.Nodup) :
    l'.Ok where
  slot := hslot
  bound := hbound
  sleeps := by
    intro c s hc
    rw [hsleep] at hc
    obtain ⟨timer, hsleeps⟩ := h.sleeps c s hc
    have hne : c ≠ d := by
      rintro rfl
      rcases hfree with hc | hc <;> rw [hc] at hsleeps <;> cases hsleeps
    exact ⟨timer, by rw [hspots, Function.update_of_ne hne, hsleeps]⟩
  forked := hforked
  forks := hforks
  runs := by
    intro c
    rw [hctl, ← h.runs, hspots]
    obtain rfl | hne := eq_or_ne c d
    · rw [Function.update_self]
      exact iff_of_false hspot (free_waits hfree).2.2
    · rw [Function.update_of_ne hne]

theorem begins (h : l.Ok) (hctl : l.ctl.Still)
    (hslot : ∀ s d, l'.sessionIdCoroutine s = some (.co d) ↔ (l'.spot d).waits = some s)
    (hbound : ∀ s, l'.sessionIdCoroutine s ≠ none → 0 < s ∧ s ≤ l'.sessionId)
    (hspots : l'.spot = Function.update l.spot c .runs) (hctl' : l'.ctl = .runs c frames)
    (hsleep : ∀ d s, l'.sleepSession d = some s → d ≠ c ∧ l.sleepSession d = some s)
    (hfork : ∀ d ∈ l'.forkQueue, d ≠ c ∧ d ∈ l.forkQueue) (hforks : l'.forkQueue.Nodup) :
    l'.Ok where
  slot := hslot
  bound := hbound
  sleeps := by
    intro d s hd
    obtain ⟨hne, hd⟩ := hsleep d s hd
    obtain ⟨timer, hsleeps⟩ := h.sleeps d s hd
    exact ⟨timer, by rw [hspots, Function.update_of_ne hne, hsleeps]⟩
  forked := by
    intro d hd
    obtain ⟨hne, hd⟩ := hfork d hd
    rw [hspots, Function.update_of_ne hne]
    exact h.forked d hd
  forks := hforks
  runs := by
    intro d
    rw [hspots, hctl']
    obtain rfl | hne := eq_or_ne d c
    · rw [Function.update_self]
      exact iff_of_true rfl ⟨frames, rfl⟩
    · rw [Function.update_of_ne hne]
      exact iff_of_false (h.still hctl d) fun ⟨_, hruns⟩ => hne (Ctl.runs.inj hruns).1.symm

theorem bound_update (h : l.Ok) (x : Option Slot) (hs : l.sessionIdCoroutine s ≠ none) :
    ∀ s', Function.update l.sessionIdCoroutine s x s' ≠ none → 0 < s' ∧ s' ≤ l.sessionId := by
  intro s' hne
  obtain rfl | hss := eq_or_ne s' s
  · exact h.bound s' hs
  · rw [Function.update_of_ne hss] at hne
    exact h.bound s' hne

theorem awake (h : l.Ok) (hc : ∀ s timer, l.spot c ≠ .sleeps s timer)
    (hd : l.sleepSession d = some s) : d ≠ c ∧ l.sleepSession d = some s := by
  refine ⟨?_, hd⟩
  rintro rfl
  obtain ⟨timer, hsleeps⟩ := h.sleeps d s hd
  exact hc s timer hsleeps

/-- A coroutine that waits is resumed when its session is taken out of the table. -/
theorem resume (h : l.Ok) (hctl : l.ctl.Still) (hs : l.sessionIdCoroutine s = some (.co c))
    {x : Option Slot} (hx : ∀ d, x ≠ some (.co d)) (hid : l'.sessionIdCoroutine =
      Function.update l.sessionIdCoroutine s x) (hsession : l'.sessionId = l.sessionId)
    (hspots : l'.spot = l.spot) (hfork : l'.forkQueue = l.forkQueue)
    (hsleep : l'.sleepSession = l.sleepSession) (frames : ℕ) : (l'.resume c frames).Ok := by
  have hwaits := (h.slot s c).mp hs
  have hsome : l.sessionIdCoroutine s ≠ none := by rw [hs]; nofun
  have hcforked : l.spot c ≠ .forked := by
    intro hc
    rw [hc] at hwaits
    cases hwaits
  have hbegins : ∀ {l'' : Lua} {x : Option Slot}, (∀ d, x ≠ some (.co d)) →
      l''.sessionIdCoroutine = Function.update l.sessionIdCoroutine s x →
      l''.sessionId = l.sessionId → l''.spot = Function.update l.spot c .runs →
      l''.ctl = .runs c frames → l''.forkQueue = l.forkQueue →
      (∀ d s, l''.sleepSession d = some s → d ≠ c ∧ l.sleepSession d = some s) → l''.Ok := by
    intro l'' x hx hid hsession hspots hctl' hfork hsleep
    apply h.begins hctl _ _ hspots hctl' hsleep
    · intro d hd
      rw [hfork] at hd
      exact ⟨fun heq => h.not_queued hcforked (heq ▸ hd), hd⟩
    · exact hfork ▸ h.forks
    · rw [hid, hspots]
      exact slots_leave h.slot hx hwaits rfl
    · rw [hid, hsession]
      exact h.bound_update x hsome
  obtain ⟨sessionId, idCo, _, _, _, _, _, sleepSession, _, _, _, _, forkQueue, spots, _⟩ := l'
  simp only at hid hsession hspots hfork hsleep
  subst hid hsession hspots hfork hsleep
  unfold Lua.resume
  simp only
  split
  · next s' hspot =>
      have hawake : ∀ d s, l.sleepSession d = some s → d ≠ c ∧ l.sleepSession d = some s :=
        fun d s hd => h.awake (by rw [hspot]; nofun) hd
      exact hbegins hx rfl rfl rfl rfl rfl hawake
  · next s' timer hspot =>
      obtain rfl : s' = s := by
        rw [hspot] at hwaits
        exact Option.some.inj hwaits
      have hsleeps : ∀ d s, Function.update l.sleepSession c none d = some s →
          d ≠ c ∧ l.sleepSession d = some s := by
        intro d s hd
        obtain rfl | hne := eq_or_ne d c
        · rw [Function.update_self] at hd
          cases hd
        · rw [Function.update_of_ne hne] at hd
          exact ⟨hne, hd⟩
      cases timer with
      | true => exact hbegins hx rfl rfl rfl rfl rfl hsleeps
      | false =>
          exact hbegins (x := none) nofun (Function.update_idem _ _ _) rfl rfl rfl rfl hsleeps
  · next s' hspot =>
      have hawake : ∀ d s, l.sleepSession d = some s → d ≠ c ∧ l.sleepSession d = some s :=
        fun d s hd => h.awake (by rw [hspot]; nofun) hd
      exact hbegins hx rfl rfl rfl rfl rfl hawake
  · next hspot => exact absurd hspot hcforked
  · next hcalls hsleeps htimed hforked =>
      cases hspot : l.spot c with
      | timed s' => exact absurd hspot (htimed s')
      | calls s' => exact absurd hspot (hcalls s')
      | sleeps s' timer => exact absurd hspot (hsleeps s' timer)
      | unborn | pooled | forked | runs | stuck =>
          rw [hspot] at hwaits
          cases hwaits

theorem resume_forked (h : l.Ok) (hctl : l.ctl.Still) (hc : c ∈ l.forkQueue) (frames : ℕ) :
    (({ l with forkQueue := l.forkQueue.erase c } : Lua).resume c frames).Ok := by
  have hspot := h.forked c hc
  unfold Lua.resume
  simp only [hspot]
  have hwaits : (l.spot c).waits = none := by rw [hspot]; rfl
  have hawake : ∀ d s, l.sleepSession d = some s → d ≠ c ∧ l.sleepSession d = some s :=
    fun d s hd => h.awake (by rw [hspot]; nofun) hd
  exact h.begins hctl (slots_same h.slot hwaits rfl) h.bound rfl rfl hawake
    (fun d hd => h.forks.mem_erase_iff.mp hd) (h.forks.erase c)

theorem handle (h : l.Ok) (hctl : l.ctl.Still) (hfree : l.Free c) (source session : ℕ) :
    (l.handle c source session).Ok := by
  obtain ⟨hwaits, hforked, -⟩ := free_waits hfree
  have hawake : ∀ d s, l.sleepSession d = some s → d ≠ c ∧ l.sleepSession d = some s := by
    intro d s hd
    apply h.awake _ hd
    rcases hfree with hc | hc <;> rw [hc] <;> nofun
  exact h.begins hctl (slots_same h.slot hwaits rfl) h.bound rfl rfl hawake
    (fun d hd => ⟨fun heq => h.not_queued hforked (heq ▸ hd), hd⟩) h.forks

end Lua.Ok

end GameServer.Sessions
