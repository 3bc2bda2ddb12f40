import GameServer.Cooperative

/-!
# The start of a battle

A room waits until all players have loaded, for six seconds at most. A handler of `loadingRes`
counts the players that have loaded and calls each agent it counts; who starts the battle tells
every player first. The guard `last_update_time` is set behind these calls, so a second handler may
pass it. Where none does, the battle starts once: the last player to load counts all of them.
-/

namespace GameServer.BattleStart

open Cooperative Coroutine Transition

/-- The players come before everything that is made later; two more entities are the buildings. -/
structure Room (n : ℕ) where
  loadProgress : Fin n → ℤ
  lastUpdateTime : Option ℕ
  now : ℕ
  /-- The entities besides the players and the buildings. -/
  others : ℕ
  /-- History: the six seconds are over; how often `updateMapEvent` and `SpawnNpcManager.init` were
  started. -/
  fired : Bool
  updates : ℕ
  spawns : ℕ

/-- Where a handler waits for an agent: in the loop that counts, with the players to come and the
number so far, in the loop that tells all players, or in `playerReConnect`. -/
inductive Place (n : ℕ)
  | counting (rest : List (Fin n)) (num : ℕ)
  | broadcast
  | reconnect
  deriving DecidableEq

variable {n : ℕ}

abbrev Code (n : ℕ) (α : Type) := Coroutine (Room n) (Place n) α

namespace Room

def setLoadProgress (s : Room n) (p : Fin n) (percent : ℤ) : Room n :=
  { s with loadProgress := Function.update s.loadProgress p percent }

/-- What `waitForLoadingCompleted` does behind its calls. -/
def start (s : Room n) : Room n :=
  { s with
    loadProgress := fun _ => 100
    updates := s.updates + 1
    lastUpdateTime := some s.now
    spawns := s.spawns + 1 }

end Room

def sendToAllPlayersExt : Code n Unit :=
  (List.finRange n).forM fun _ => Coroutine.call .broadcast

def waitForLoadingCompleted : Code n Unit := do
  let s ← get
  Coroutine.when s.lastUpdateTime.isNone do
    sendToAllPlayersExt
    modify Room.start

/-- The number of players that have loaded. -/
def loaded : List (Fin n) → ℕ → Code n ℕ
  | [], num => pure num
  | p :: rest, num => do
    let s ← get
    if s.loadProgress p ≥ 100 then
      Coroutine.call (.counting rest (num + 1))
      loaded rest (num + 1)
    else loaded rest num

/-- The calls of an agent: six, and one for each pet. -/
def playerReConnect (pets : ℕ) : Code n Unit :=
  (List.range (6 + pets)).forM fun _ => Coroutine.call .reconnect

def loadingRes (p : Fin n) (percent : ℤ) (pets : ℕ) : Code n Unit := do
  let s ← get
  if s.loadProgress p ≥ 100 then playerReConnect pets
  else
    modify (Room.setLoadProgress · p percent)
    let num ← loaded (List.finRange n) 0
    let s ← get
    Coroutine.when (num = n + s.others) waitForLoadingCompleted

/-- The timeout that the room sets when it starts. -/
def timeout : Code n Unit := do
  let s ← get
  Coroutine.when (s.fired = false) do
    modify fun s => { s with fired := true }
    waitForLoadingCompleted

inductive Request (n : ℕ)
  | loadingRes (p : Fin n) (percent : ℤ) (pets : ℕ)
  | timeout

/-- Time passes; where the update loop runs, it takes notice and changes the entities. -/
structure Tick where
  now : ℕ
  others : ℕ

def Tick.run (e : Tick) (s : Room n) : Room n :=
  if s.lastUpdateTime.isSome then
    { s with now := e.now, lastUpdateTime := some e.now, others := e.others }
  else { s with now := e.now }

def server (n : ℕ) : Server (Room n) (Place n) (Request n) Tick where
  handle
    | .loadingRes p percent pets => loadingRes p percent pets
    | .timeout => timeout
  outside := Tick.run

/-- A room with its players and buildings. -/
def room (n now : ℕ) : Room n := ⟨fun _ => 0, none, now, 0, false, 0, 0⟩

/-! ## One start -/

/-- Nobody who passes the guard of `waitForLoadingCompleted` finds another in its calls. -/
def guard (n : ℕ) : Server.Guard (Room n) (Place n) (Request n) Tick where
  request s m
    | .loadingRes _ _ _ => True
    | .timeout => s.fired = false → s.lastUpdateTime = none → .broadcast ∉ m
  resume s m
    | .counting rest num => s.lastUpdateTime = none → (∀ p ∈ rest, s.loadProgress p < 100) →
      num = n + s.others → .broadcast ∉ m
    | _ => True
  outside _ _ _ := True

/-- The battle starts once at most, and has started where all players have loaded or the time is
over and no handler waits. -/
structure Once (s : Room n) (m : Multiset (Place n)) : Prop where
  atMost : s.updates ≤ 1 ∧ s.spawns ≤ 1
  exactly : (s.fired = true ∨ 0 < n ∧ ∀ p, 100 ≤ s.loadProgress p) → m = 0 →
    s.updates = 1 ∧ s.spawns = 1

/-- A handler that will start the battle if all players have loaded. -/
def Ready : Place n → Prop
  | .counting rest num => rest.length + num = n
  | .broadcast => True
  | .reconnect => False

/-- `ready` says that the handler that runs will start the battle. -/
structure Sound (ready : Prop) (s : Room n) (m : Multiset (Place n)) : Prop where
  updates : s.updates = if s.lastUpdateTime.isSome then 1 else 0
  spawns : s.spawns = s.updates
  others : s.lastUpdateTime = none → s.others = 0
  once : m.count .broadcast + s.updates ≤ 1
  loaded : s.lastUpdateTime = none → 0 < n → (∀ p, 100 ≤ s.loadProgress p) →
    ready ∨ ∃ place ∈ m, Ready place
  fired : s.lastUpdateTime = none → s.fired = true → .broadcast ∈ m

def Inv (s : Room n) (m : Multiset (Place n)) : Prop := Sound False s m

variable {ready ready' : Prop} {s : Room n} {m : Multiset (Place n)} {place : Place n}
  {rest : List (Fin n)} {num : ℕ}

theorem Inv.starts (h : Inv s m) : Once s m := by
  have hle : s.updates ≤ 1 := by
    rw [h.updates]
    split <;> omega
  refine ⟨⟨hle, h.spawns ▸ hle⟩, fun hdone hm => ?_⟩
  subst hm
  cases htime : s.lastUpdateTime with
  | none =>
      rcases hdone with hfired | ⟨hn, hall⟩
      · exact absurd (h.fired htime hfired) (Multiset.notMem_zero _)
      · rcases h.loaded htime hn hall with hfalse | ⟨place, hplace, -⟩
        · exact hfalse.elim
        · exact absurd hplace (Multiset.notMem_zero _)
  | some t =>
      have hone : s.updates = 1 := by simp [h.updates, htime]
      exact ⟨hone, h.spawns.trans hone⟩

/-- A handler waits at a place that is not a broadcast. -/
theorem Sound.wait (h : Sound ready s m) (hplace : place ≠ .broadcast)
    (hready : ready → Ready place) : Inv s (place ::ₘ m) where
  updates := h.updates
  spawns := h.spawns
  others := h.others
  once := by
    rw [Multiset.count_cons_of_ne (Ne.symm hplace)]
    exact h.once
  loaded htime hn hall := by
    rcases h.loaded htime hn hall with hr | ⟨other, hother, hr⟩
    · exact .inr ⟨place, Multiset.mem_cons_self _ _, hready hr⟩
    · exact .inr ⟨other, Multiset.mem_cons_of_mem hother, hr⟩
  fired htime hfired := Multiset.mem_cons_of_mem (h.fired htime hfired)

theorem Inv.resume (h : Inv s (place ::ₘ m)) (hplace : place ≠ .broadcast)
    (hready : Ready place → ready) : Sound ready s m where
  updates := h.updates
  spawns := h.spawns
  others := h.others
  once := by
    have honce := h.once
    rwa [Multiset.count_cons_of_ne (Ne.symm hplace)] at honce
  loaded htime hn hall := by
    rcases h.loaded htime hn hall with hfalse | ⟨other, hother, hr⟩
    · exact hfalse.elim
    · rcases Multiset.mem_cons.mp hother with rfl | hmem
      · exact .inl (hready hr)
      · exact .inr ⟨other, hmem, hr⟩
  fired htime hfired :=
    (Multiset.mem_cons.mp (h.fired htime hfired)).resolve_left (Ne.symm hplace)

/-! ## Handlers -/

theorem Inv.started (h : Inv s (.broadcast ::ₘ m)) : Inv s.start m := by
  have honce := h.once
  rw [Multiset.count_cons_self] at honce
  refine ⟨?_, ?_, fun htime => ?_, ?_, fun htime => ?_, fun htime => ?_⟩
  · change s.updates + 1 = 1
    omega
  · exact congrArg (· + 1) h.spawns
  · cases htime
  · change m.count .broadcast + (s.updates + 1) ≤ 1
    omega
  · cases htime
  · cases htime

theorem broadcast_safe (h : Inv s (.broadcast ::ₘ m)) :
    (do sendToAllPlayersExt; modify Room.start : Code n Unit).Safe Inv (guard n).resume
      (fun _ => Inv) s m := by
  refine safe_bind.mpr (Safe.mono (safe_forM (P := fun s m => Inv s (.broadcast ::ₘ m))
    (fun p _ s m hs => ?_) h) fun _ s m hs => ?_)
  · exact safe_call.mpr ⟨hs, fun _ _ hs _ => hs⟩
  · exact safe_modify.mpr hs.started

theorem waitForLoadingCompleted_safe (h : s.lastUpdateTime = none → Inv s (.broadcast ::ₘ m))
    (h' : s.lastUpdateTime ≠ none → Inv s m) :
    waitForLoadingCompleted.Safe Inv (guard n).resume (fun _ => Inv) s m := by
  refine safe_bind.mpr (safe_get.mpr ?_)
  unfold Coroutine.when
  split
  · next htime => exact broadcast_safe (h (Option.isNone_iff_eq_none.mp htime))
  · next htime => exact h' fun hnone => htime (Option.isNone_iff_eq_none.mpr hnone)

theorem Sound.enter (h : Sound ready s m) (htime : s.lastUpdateTime = none)
    (hfree : .broadcast ∉ m) : Inv s (.broadcast ::ₘ m) where
  updates := h.updates
  spawns := h.spawns
  others := h.others
  once := by
    rw [Multiset.count_cons_self, Multiset.count_eq_zero.mpr hfree, h.updates, htime]
    simp
  loaded _ _ _ := .inr ⟨.broadcast, Multiset.mem_cons_self _ _, trivial⟩
  fired _ _ := Multiset.mem_cons_self _ _

theorem loaded_safe
    (h : Sound (rest.length + num = n) s m)
    (hfree : s.lastUpdateTime = none → (∀ p ∈ rest, s.loadProgress p < 100) →
      num = n + s.others → .broadcast ∉ m) :
    (loaded rest num).Safe Inv (guard n).resume (fun num s m => Sound (num = n) s m ∧
      (s.lastUpdateTime = none → num = n + s.others → .broadcast ∉ m)) s m := by
  induction rest generalizing num s m with
  | nil =>
      rw [List.length_nil, Nat.zero_add] at h
      exact ⟨h, fun htime hnum => hfree htime (by simp) hnum⟩
  | cons p rest ih =>
      refine safe_bind.mpr (safe_get.mpr ?_)
      split
      · refine safe_bind.mpr (safe_call.mpr ⟨h.wait (by simp) fun hr => ?_, fun s m hs hok => ?_⟩)
        · simp only [List.length_cons] at hr
          unfold Ready
          omega
        · exact ih (hs.resume (by simp) fun hr => hr) hok
      · next hp =>
          refine ih ⟨h.updates, h.spawns, h.others, h.once, fun _ _ hall => ?_, h.fired⟩ ?_
          · exact absurd (hall p) hp
          · intro htime hrest hnum
            refine hfree htime (fun q hq => ?_) hnum
            rcases List.mem_cons.mp hq with rfl | hq
            · exact not_le.mp hp
            · exact hrest q hq

theorem playerReConnect_safe (pets : ℕ) (h : Inv s m) :
    (playerReConnect pets).Safe Inv (guard n).resume (fun _ => Inv) s m := by
  refine safe_forM (fun _ _ s m hs => safe_call.mpr ⟨?_, fun s m hs _ => ?_⟩) h
  · exact Sound.wait hs (by simp) False.elim
  · exact hs.resume (by simp) id

theorem loadingRes_safe (p : Fin n) (percent : ℤ) (pets : ℕ) (h : Inv s m) :
    (loadingRes p percent pets).Safe Inv (guard n).resume (fun _ => Inv) s m := by
  refine safe_bind.mpr (safe_get.mpr ?_)
  split
  · exact playerReConnect_safe pets h
  · refine safe_bind.mpr (safe_modify.mpr (safe_bind.mpr ((loaded_safe ?_ ?_).mono ?_)))
    · refine ⟨h.updates, h.spawns, h.others, h.once, fun _ _ _ => .inl ?_, h.fired⟩
      simp
    · intro _ _ hnum
      have hpos := p.pos
      omega
    · rintro num s m ⟨hs, hfree⟩
      refine safe_bind.mpr (safe_get.mpr ?_)
      unfold Coroutine.when
      split
      · next hnum =>
          refine waitForLoadingCompleted_safe (fun htime => hs.enter htime (hfree htime hnum))
            fun htime => ?_
          exact ⟨hs.updates, hs.spawns, hs.others, hs.once, fun hnone => absurd hnone htime,
            hs.fired⟩
      · next hnum =>
          refine ⟨hs.updates, hs.spawns, hs.others, hs.once, fun htime hn hall => ?_, hs.fired⟩
          refine (hs.loaded htime hn hall).imp_left fun heq => hnum ?_
          rw [hs.others htime, Nat.add_zero]
          exact heq

theorem timeout_safe (h : Inv s m) (hguard : (guard n).request s m .timeout) :
    timeout.Safe Inv (guard n).resume (fun _ => Inv) s m := by
  refine safe_bind.mpr (safe_get.mpr ?_)
  unfold Coroutine.when
  split
  · next hfired =>
      refine safe_bind.mpr (safe_modify.mpr (waitForLoadingCompleted_safe (fun htime => ?_)
        fun htime => ?_))
      · have hfree := hguard hfired htime
        have henter := h.enter htime hfree
        exact ⟨henter.updates, henter.spawns, henter.others, henter.once, henter.loaded,
          fun _ _ => Multiset.mem_cons_self _ _⟩
      · exact ⟨h.updates, h.spawns, h.others, h.once, h.loaded, fun hnone => absurd hnone htime⟩
  · exact h

theorem Inv.tick (h : Inv s m) (e : Tick) : Inv (e.run s) m := by
  unfold Tick.run
  split
  · next htime =>
      refine ⟨?_, h.spawns, fun hnone => ?_, h.once, fun hnone => ?_, fun hnone => ?_⟩
      · rw [h.updates, if_pos htime]
        rfl
      all_goals cases hnone
  · exact ⟨h.updates, h.spawns, h.others, h.once, h.loaded, h.fired⟩

theorem Inv.init (n now : ℕ) : Inv (room n now) 0 := by
  refine ⟨rfl, rfl, fun _ => rfl, by simp [room], fun _ hn hall => ?_, fun _ hfired => ?_⟩
  · have hzero := hall ⟨0, hn⟩
    simp [room] at hzero
  · cases hfired

/-- Where no handler passes the guard while another tells the players, the battle starts once. -/
theorem battle_starts_once (n now : ℕ) {p : Pool (Room n) (Place n)}
    (h : ((server n).system (room n now)).Runs (guard n).Admits p) : Once p.shared p.places := by
  apply Inv.starts
  apply Server.invariant Inv (Inv.init n now) (fun s m r hs hr => ?_)
    (fun s m e hs _ => hs.tick e) h
  cases r with
  | loadingRes p percent pets => exact loadingRes_safe p percent pets hs
  | timeout => exact timeout_safe hs hr

instance (s : Room n) (m : Multiset (Place n)) (r : Request n) :
    Decidable ((guard n).request s m r) := by
  cases r with
  | loadingRes p percent pets => exact .isTrue trivial
  | timeout => exact inferInstanceAs (Decidable (_ → _))

instance (s : Room n) (m : Multiset (Place n)) (place : Place n) :
    Decidable ((guard n).resume s m place) := by
  cases place with
  | counting rest num => exact inferInstanceAs (Decidable (_ → _))
  | broadcast | reconnect => exact .isTrue trivial

instance (s : Room n) (m : Multiset (Place n)) (e : Tick) : Decidable ((guard n).outside s m e) :=
  .isTrue trivial

/-- Two players load, one after the other, and the battle starts before the timeout. -/
def patient : List (Cooperative.Label (Request 2) Tick) :=
  [.request (.loadingRes 0 100 0), .resume 0, .request (.loadingRes 1 100 0), .resume 0, .resume 0,
    .resume 0, .resume 0, .request .timeout]

theorem battle_starts_once_patient : ∃ p,
    ((server 2).system (room 2 0)).Runs (guard 2).Admits p ∧ Once p.shared p.places ∧
      p.shared.updates = 1 := by
  have hrun : ((((server 2).system (room 2 0)).guarded (guard 2).Admits).run
      ⟨room 2 0, []⟩ patient).map (fun p => p.shared.updates) = some 1 := by
    decide +kernel
  obtain ⟨p, hp, hupdates⟩ := Option.map_eq_some_iff.mp hrun
  have hruns := System.Runs.of_guarded_run _ .init hp
  exact ⟨p, hruns, battle_starts_once 2 0 hruns, hupdates⟩

/-- The six seconds end while the players are told. -/
theorem battle_starts_twice : ∃ p, ((server 1).system (room 1 0)).Reachable p ∧
    p.shared.updates = 2 ∧ p.shared.spawns = 2 ∧ ¬ Once p.shared p.places := by
  have hrun : (((server 1).system (room 1 0)).run ⟨room 1 0, []⟩
      [.request (.loadingRes 0 100 0), .resume 0, .request .timeout, .resume 0, .resume 0]).map
      (fun p => (p.shared.updates, p.shared.spawns)) = some (2, 2) := by
    decide +kernel
  obtain ⟨p, hp, hread⟩ := Option.map_eq_some_iff.mp hrun
  obtain ⟨hupdates, hspawns⟩ := Prod.mk.inj hread
  refine ⟨p, System.reachable_of_run _ hp, hupdates, hspawns, fun h => ?_⟩
  have hle := h.atMost.1
  omega

end GameServer.BattleStart
