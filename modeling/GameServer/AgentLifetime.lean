import GameServer.WiredRuns
import GameServer.AgentCount

/-!
# How long agents live

An agent without a connection starts with `ref_connect = 1`, as one with a connection does, so an
agent of a robot is never told to disconnect. Where no such agent is made, and nobody is handed an
agent that counts nothing any more, an agent lives as long as it has a connection or a room.
-/

namespace GameServer.Watchdog

open Cooperative Coroutine Transition

variable {s s' : Game} {m : Multiset Place} {p : Place} {fd : Fd} {a : Address} {k : Account}
  {account : Account} {room : Room}

/-! ## Conditions -/

/-- A `roomend` is going over the accounts. -/
def Wait.looping : Wait → Bool
  | .unseating _ _ _ _ | .unseated _ _ _ _ _ => true
  | _ => false

/-- No robots come in, and an agent that counts nothing gets no room and no connection. What an
agent counts last does not end while somebody is about to hand it something else. An account gets a
room when it has none, and a room ends after its players are in. No table gets a key while a loop
goes over it. -/
def lasting : Server.Guard Game Place Request Outside where
  request s _
    | .authAi _ => False
    | .roomstart players => ∀ a ∈ players, 0 < (s.agents a).refConnect
    | _ => True
  resume s m place :=
    match place.wait with
    | .answered _ account offLinetime =>
      offLinetime < 90 → ∀ a ∈ s.roomAgent account, 0 < (s.agents a).refConnect
    | .release _ a => (s.agents a).refConnect = 1 → ¬ Owed m a
    | .unseating _ _ a _ => (s.agents a).refConnect = 1 → ¬ Owed m a
    | .userEnter _ _ _ => ∀ p ∈ m, p.entry = none
    | .roomstart _ (a :: _) => s.roomAccount.lookup (s.agents a).account = none ∧
      ∀ p ∈ m, p.wait.looping = false
    | .seated _ (a :: _) => s.roomAccount.lookup (s.agents a).account = none ∧
      ∀ p ∈ m, p.wait.looping = false
    | .roomend room => ∀ p ∈ m, ∀ c ∈ p.wait.coming, c.1 ≠ room
    | _ => True
  outside _ _ _ := True

/-- The conditions at a place, where the wiring holds. -/
def lastingly : Game → Multiset Place → Place → Prop := (lasting.within Wired).resume

/-! ## The invariant -/

structure Lasting (s : Game) (m : Multiset Place) : Prop where
  rooms : Rooms s m
  counted : Counted s m

/-- Nothing at the place concerns rooms or counts. -/
def Wait.Quiet : Wait → Prop
  | .found _ _ | .returning _ _ | .exiting _ | .released _ _ => False
  | .roomstart _ _ | .seating _ _ _ | .seated _ _ | .roomend _ => False
  | .unseating _ _ _ _ | .unseated _ _ _ _ _ => False
  | _ => True

theorem Wait.Quiet.roomless {w : Wait} (h : w.Quiet) : w.Roomless := by
  cases w <;> trivial

theorem Wait.Quiet.owed {w : Wait} (h : w.Quiet) : w.owed = [] := by
  cases w <;> first | rfl | exact h.elim

theorem Wait.Quiet.tells {w : Wait} (h : w.Quiet) : w.tells = none := by
  cases w <;> first | rfl | exact h.elim

theorem Wait.Quiet.stays {w : Wait} (h : w.Quiet) (a : Address) : w ≠ .exiting a := by
  rintro rfl
  exact h

theorem Lasting.add (h : Lasting s m) (hp : p.wait.Quiet) : Lasting s (p ::ₘ m) := by
  refine ⟨h.rooms.add hp.roomless, h.counted.add (fun a ha => ?_) hp.tells fun a hwait => ?_⟩
  · rw [hp.owed] at ha
    exact absurd ha List.not_mem_nil
  · exact absurd hwait (hp.stays a)

theorem Lasting.leave (h : Lasting s (p ::ₘ m)) (hp : p.wait.Roomless)
    (htells : p.wait.tells = none) : Lasting s m :=
  ⟨h.rooms.leave hp, h.counted.drop htells⟩

theorem Lasting.drop (h : Lasting s (p ::ₘ m)) (hp : p.wait.Quiet) : Lasting s m :=
  h.leave hp.roomless hp.tells

/-- Tables change that neither rooms nor counts depend on. -/
structure Aside (s s' : Game) : Prop where
  agents : s'.agents = s.agents
  counted : s'.counted = s.counted
  held : s'.held = s.held
  nextFd : s'.nextFd = s.nextFd
  agentfd : ∀ fd a, s'.agentfd fd = some a → s.agentfd fd = some a
  rooms : SameRooms s s'

theorem sameAccounts_of (h : ∀ a, (s'.agents a).account = (s.agents a).account) :
    SameAccounts s s' m :=
  ⟨fun _ a _ => h a, fun _ _ a _ => h a⟩

theorem Lasting.aside (h : Lasting s m) (hs : Aside s s') : Lasting s' m := by
  refine ⟨h.rooms.calm hs.rooms (sameAccounts_of fun a => by rw [hs.agents]), ?_⟩
  exact h.counted.calm fun a =>
    sameCount_of hs.agents hs.counted hs.held hs.rooms.seat hs.nextFd hs.agentfd

theorem aside_forget (fd : Fd) : Aside s (s.forget fd) := by
  refine ⟨rfl, rfl, rfl, rfl, fun f a hmap => ?_, ⟨rfl, rfl, rfl, rfl, rfl⟩⟩
  have hmap' : (if f = fd then none else s.agentfd f) = some a :=
    (Function.update_apply _ _ _ _).symm.trans hmap
  split at hmap'
  · cases hmap'
  · exact hmap'

theorem aside_kick (fd : Fd) : Aside s (s.kick fd) := by
  unfold Game.kick
  split <;> exact ⟨rfl, rfl, rfl, rfl, fun _ _ => id, ⟨rfl, rfl, rfl, rfl, rfl⟩⟩

theorem Rooms.setAgent {v : Agent} (h : Rooms s m) (hv : v.account = (s.agents a).account) :
    Rooms (s.setAgent a v) m := by
  refine h.calm ⟨rfl, rfl, rfl, rfl, rfl⟩ (sameAccounts_of fun b => ?_)
  rw [setAgent_agents]
  split
  · next hb => rw [hb, hv]
  · rfl

theorem Rooms.release (h : Rooms s m) (fd : Fd) : Rooms (s.release fd a) m := by
  have haccount : ∀ b, ((s.release fd a).agents b).account = (s.agents b).account :=
    addConnectRef_account (-1)
  exact h.calm ⟨rfl, rfl, rfl, rfl, rfl⟩ (sameAccounts_of haccount)

/-! ## Closing -/

theorem closeAgent_lasting {entry : Option Entry} (h : Lasting s m) :
    (closeAgent fd entry).Safe Lasting lastingly (fun _ => Lasting) s m := by
  refine safe_bind.mpr (safe_get.mpr (safe_bind.mpr (safe_modify.mpr ?_)))
  have hforget := h.aside (aside_forget fd)
  cases s.agentfd fd with
  | none => exact hforget
  | some a =>
      refine safe_bind.mpr (safe_call.mpr ⟨hforget.add trivial, fun s₁ m₁ h₁ _ => ?_⟩)
      have hkick := (h₁.drop trivial).aside (aside_kick fd)
      refine safe_bind.mpr (safe_modify.mpr (safe_bind.mpr (safe_call.mpr
        ⟨hkick.add trivial, fun s₂ m₂ h₂ ok₂ => ?_⟩)))
      have hrole : Wait.role fd (.release fd a) = some (.leaving a) := if_pos rfl
      obtain ⟨-, -, hcounted, hheld⟩ := (ok₂.2.stage fd).holds hrole
      have hdrop := h₂.drop trivial
      refine safe_bind.mpr (alive_safe (fun _ => hdrop) fun _ => safe_bind.mpr (safe_modify.mpr
        (safe_bind.mpr (safe_get.mpr (safe_bind.mpr (safe_call.mpr
          ⟨⟨(hdrop.rooms.release fd).add trivial, ?_⟩, fun s₃ m₃ h₃ ok₃ => ?_⟩))))))
      · exact hdrop.counted.release (ok₂.2.lt_of_role hrole) hcounted hheld
          (ok₂.2.born.counted fd a hcounted) ok₂.1
      · unfold Coroutine.when
        split
        · next href =>
            have htells : Wait.tells (.released a _) = some a := if_pos href
            obtain ⟨hzero, hstarted⟩ := (h₃.counted a).tells (tells_cons.mpr (.inl htells))
            have hgone := h₃.counted.gone ok₃.2 hstarted hzero
            exact ⟨(h₃.rooms.leave trivial).setAgent rfl, h₃.counted.tell htells hgone⟩
        · next href => exact h₃.leave trivial (if_neg href)

theorem kickSelf_lasting (h : Lasting s m) :
    (kickSelf a).Safe Lasting lastingly (fun _ => Lasting) s m := by
  refine safe_bind.mpr (safe_get.mpr ?_)
  cases (s.agents a).userFd with
  | none => exact h
  | some fd =>
      exact safe_bind.mpr (safe_call.mpr ⟨h.add trivial, fun s₁ m₁ h₁ _ =>
        closeAgent_lasting (h₁.drop trivial)⟩)

theorem socketClosed_lasting (h : Lasting s m) :
    (socketClosed fd).Safe Lasting lastingly (fun _ => Lasting) s m := by
  refine safe_bind.mpr (safe_get.mpr ?_)
  unfold Coroutine.when
  split
  · have haside : Aside s (s.disconnected fd) :=
      ⟨rfl, rfl, rfl, rfl, fun _ _ => id, ⟨rfl, rfl, rfl, rfl, rfl⟩⟩
    exact safe_bind.mpr (safe_modify.mpr (safe_bind.mpr (safe_call.mpr
      ⟨(h.aside haside).add trivial, fun s₁ m₁ h₁ _ => closeAgent_lasting (h₁.drop trivial)⟩)))
  · exact h

theorem disconnect_lasting (h : Lasting s m) :
    (disconnect a).Safe Lasting lastingly (fun _ => Lasting) s m := by
  have hexit : ∀ {s m}, Lasting s m → (s.agents a).told = true → Lasting (s.exit a) m :=
    fun h htold => ⟨h.rooms.setAgent rfl, h.counted.exit htold⟩
  refine safe_bind.mpr (safe_get.mpr ?_)
  unfold Coroutine.when
  split
  · next htold =>
      split
      · refine safe_bind.mpr (safe_call.mpr ⟨⟨h.rooms.add trivial, ?_⟩, fun s₁ m₁ h₁ _ => ?_⟩)
        · refine h.counted.add (fun b hb => absurd hb List.not_mem_nil) rfl fun b hwait => ?_
          obtain rfl := Wait.exiting.inj hwait
          exact htold.1
        · have htold₁ := (h₁.counted a).exits (exits_cons.mpr (.inl rfl))
          exact safe_modify.mpr (hexit (h₁.leave trivial rfl) htold₁)
      · exact safe_bind.mpr (hexit h htold.1)
  · exact h

/-! ## Logins -/

theorem forward_lasting (h : Lasting s m) :
    (forward fd a).Safe Lasting lastingly (fun _ => Lasting) s m := by
  refine safe_bind.mpr (safe_call.mpr ⟨h.add trivial, fun s₁ m₁ h₁ _ =>
    safe_bind.mpr (safe_get.mpr ?_)⟩)
  have hdrop := h₁.drop trivial
  cases s₁.connection fd with
  | some c =>
      exact hdrop.aside ⟨rfl, rfl, rfl, rfl, fun _ _ => id, ⟨rfl, rfl, rfl, rfl, rfl⟩⟩
  | none =>
      exact safe_bind.mpr (safe_call.mpr ⟨hdrop.add trivial, fun s₂ m₂ h₂ _ =>
        kickSelf_lasting (h₂.drop trivial)⟩)

theorem Lasting.seatless (h : Lasting s m) (hborn : Born s m) (hnew : (s.agents a).started = false)
    (k : Account) : s.seat k ≠ some a := by
  intro hseat
  obtain ⟨room, hregistered⟩ := (h.rooms.seat k).of_seat hseat
  exact Bool.false_ne_true (hnew.symm.trans (hborn.roomAgent k a hregistered.agent))

theorem start_lasting (h : Lasting s m) :
    (Start a (some fd)).Safe Lasting lastingly (fun _ => Lasting) s m := by
  refine safe_bind.mpr (safe_call.mpr ⟨h.add trivial, fun s₁ m₁ h₁ ok₁ =>
    safe_bind.mpr (safe_modify.mpr (forward_lasting ⟨?_, ?_⟩))⟩)
  · have haccount : ∀ b, ((s₁.start a (some fd)).agents b).account = (s₁.agents b).account := by
      intro b
      rw [start_agents]
      split
      · next hb => rw [hb]
      · rfl
    exact (h₁.drop trivial).rooms.calm ⟨rfl, rfl, rfl, rfl, rfl⟩ (sameAccounts_of haccount)
  · have hrole : Wait.role fd (.starting a (some fd)) = some (.counting a) := if_pos rfl
    obtain ⟨-, -, hcounted, -⟩ := (ok₁.2.stage fd).holds hrole
    have hnew := ok₁.2.born.unstarted.2
    refine (h₁.drop trivial).counted.start (ok₁.2.lt_of_role hrole) hcounted hnew (fun f hf => ?_)
      (h₁.seatless ok₁.2.born hnew)
    exact Bool.false_ne_true (hnew.symm.trans (ok₁.2.born.counted f a hf))

/-- An agent is made, and nobody speaks of it. -/
theorem Lasting.newservice (h : Lasting s m) (hborn : Born s m) (account : Account)
    (o : Option Fd) : Lasting (s.newservice account o) m := by
  have hkept : ∀ b, (s.agents b).started = true →
      ((s.newservice account o).agents b).account = (s.agents b).account := by
    intro b hb
    rw [newservice_agents, if_neg]
    rintro rfl
    exact Bool.false_ne_true (hborn.unborn.symm.trans hb)
  refine ⟨h.rooms.calm ⟨rfl, rfl, rfl, rfl, rfl⟩ ⟨fun k b hb => ?_, fun q hq b hb => ?_⟩, ?_⟩
  · exact hkept b (hborn.roomAgent k b hb)
  · exact hkept b (hborn.owed q hq b hb)
  · exact h.counted.newservice account o (h.seatless hborn hborn.unborn)

theorem enterNew_lasting (h : Lasting s m) :
    (enterNew (some fd) account).Safe Lasting lastingly (fun _ => Lasting) s m := by
  refine safe_bind.mpr (safe_call.mpr ⟨h.add trivial,
    fun s₁ m₁ h₁ ok₁ => safe_bind.mpr (safe_get.mpr
    (safe_bind.mpr (safe_modify.mpr (safe_bind.mpr (start_lasting ?_)))))⟩)
  have hmade := (h₁.newservice ok₁.2.born account (some fd)).drop trivial
  refine ⟨hmade.rooms.calm ⟨rfl, rfl, rfl, rfl, rfl⟩ (sameAccounts_of fun _ => rfl),
    hmade.counted.setAgentfd ?_⟩
  rw [newservice_agents, if_pos rfl]
  exact (h₁.counted s₁.nextAgent).untold ok₁.2.born.unborn

theorem enterAgain_lasting (h : Lasting s m) (hpos : 0 < (s.agents a).refConnect) :
    (enterAgain fd a).Safe Lasting lastingly (fun _ => Lasting) s m := by
  have howed : ∀ {w : Wait}, w.owed = [a] → ∀ {s : Game}, 0 < (s.agents a).refConnect →
      ∀ b ∈ w.owed, 0 < (s.agents b).refConnect := by
    intro w hw s hpos b hb
    rw [hw] at hb
    exact List.mem_singleton.mp hb ▸ hpos
  refine safe_bind.mpr (safe_call.mpr ⟨⟨h.rooms.add trivial, h.counted.add (howed rfl hpos) rfl
    fun b hwait => (by cases hwait)⟩, fun s₁ m₁ h₁ _ => safe_bind.mpr (safe_modify.mpr ?_)⟩)
  have hpos₁ := (h₁.counted a).owed (owed_cons.mpr (.inl (List.mem_singleton_self a)))
  have hdrop := h₁.leave trivial rfl
  have hmapped : Lasting (s₁.setAgentfd fd a) m₁ :=
    ⟨hdrop.rooms.calm ⟨rfl, rfl, rfl, rfl, rfl⟩ (sameAccounts_of fun _ => rfl),
      hdrop.counted.setAgentfd ((h₁.counted a).alive hpos₁).1⟩
  refine safe_bind.mpr (safe_call.mpr ⟨⟨hmapped.rooms.add trivial, hmapped.counted.add
    (howed rfl hpos₁) rfl fun b hwait => (by cases hwait)⟩, fun s₂ m₂ h₂ ok₂ => ?_⟩)
  have hdrop₂ := h₂.leave trivial rfl
  refine safe_bind.mpr (alive_safe (fun _ => hdrop₂) fun _ => safe_bind.mpr (safe_modify.mpr
    (forward_lasting ⟨?_, ?_⟩)))
  · have haccount : ∀ b, ((s₂.reconnect a fd).agents b).account = (s₂.agents b).account := by
      intro b
      change ((s₂.setAgent a _).agents b).account = _
      rw [setAgent_agents]
      split
      · next hb => rw [hb]
      · rfl
    exact hdrop₂.rooms.calm ⟨rfl, rfl, rfl, rfl, rfl⟩ (sameAccounts_of haccount)
  · have hrole : Wait.role fd (.returning a fd) = some (.counting a) := if_pos rfl
    obtain ⟨-, -, hcounted, -⟩ := (ok₂.2.stage fd).holds hrole
    have hpos₂ := (h₂.counted a).owed (owed_cons.mpr (.inl (List.mem_singleton_self a)))
    exact hdrop₂.counted.reconnect (ok₂.2.lt_of_role hrole) hcounted hpos₂

theorem getAgent_lasting (h : Lasting s m) :
    (getAgent fd account).Safe Lasting lastingly (fun agent s m =>
      Lasting s m ∧ ∀ a, agent = some a → 0 < (s.agents a).refConnect) s m := by
  refine safe_bind.mpr (safe_get.mpr ?_)
  cases s.roomAccount.lookup account with
  | none => exact ⟨h, fun a ha => by cases ha⟩
  | some map =>
      refine safe_bind.mpr (safe_call.mpr ⟨h.add trivial, fun s₁ m₁ h₁ _ =>
        safe_bind.mpr (safe_get.mpr ?_)⟩)
      have hdrop := h₁.drop trivial
      cases s₁.rooms map with
      | none => exact hdrop
      | some players =>
          cases s₁.offLineTime map account with
          | none => exact hdrop
          | some offLinetime =>
              refine safe_bind.mpr (safe_call.mpr ⟨hdrop.add trivial, fun s₂ m₂ h₂ ok₂ =>
                safe_bind.mpr (safe_get.mpr ⟨h₂.drop trivial, fun a ha => ?_⟩)⟩)
              split at ha
              · next htime => exact ok₂.1 htime a ha
              · cases ha

theorem auth_lasting (h : Lasting s m) (hfresh : s.counted s.nextFd = none) :
    (auth account).Safe Lasting lastingly (fun _ => Lasting) s m := by
  have hconnect : Lasting s.connect m :=
    ⟨h.rooms.calm ⟨rfl, rfl, rfl, rfl, rfl⟩ (sameAccounts_of fun _ => rfl),
      h.counted.connect hfresh⟩
  refine safe_bind.mpr (safe_get.mpr (safe_bind.mpr (safe_modify.mpr (safe_bind.mpr (safe_call.mpr
    ⟨hconnect.add trivial, fun s₁ m₁ h₁ _ => safe_bind.mpr
      ((getAgent_lasting (h₁.drop trivial)).mono ?_)⟩)))))
  rintro (_ | a) s₂ m₂ ⟨h₂, hagent⟩
  · exact enterNew_lasting h₂
  · exact enterAgain_lasting h₂ (hagent a rfl)

/-! ## Entering -/

theorem closeOthers_lasting {origin : Fd} {keys : List Fd} (h : Lasting s m) :
    (closeOthers account fd origin keys).Safe Lasting lastingly (fun _ => Lasting) s m := by
  induction keys generalizing s m with
  | nil => exact h
  | cons k rest ih =>
      refine safe_bind.mpr (safe_get.mpr (safe_bind.mpr ?_))
      unfold Coroutine.when
      split
      · exact (closeAgent_lasting h).mono fun _ _ _ => ih
      · exact ih h

variable {order : Order}

theorem userEnter_lasting {origin : Fd} (h : Lasting s m) :
    (userEnter order account fd origin).Safe Lasting lastingly (fun _ => Lasting) s m := by
  have haside : ∀ {s : Game}, Aside s s.scan :=
    ⟨rfl, rfl, rfl, rfl, fun _ _ => id, ⟨rfl, rfl, rfl, rfl, rfl⟩⟩
  have henter : ∀ {s : Game}, Aside s (s.enter account fd origin) :=
    ⟨rfl, rfl, rfl, rfl, fun _ _ => id, ⟨rfl, rfl, rfl, rfl, rfl⟩⟩
  refine safe_bind.mpr (safe_call.mpr ⟨h.add trivial, fun s₁ m₁ h₁ _ => safe_bind.mpr (safe_get.mpr
    (safe_bind.mpr (safe_modify.mpr (safe_bind.mpr ?_))))⟩)
  exact (closeOthers_lasting ((h₁.drop trivial).aside haside)).mono fun _ _ _ hpost =>
    safe_modify.mpr (hpost.aside henter)

theorem enterGame_lasting (h : Lasting s m) :
    (enterGame order fd).Safe Lasting lastingly (fun _ => Lasting) s m := by
  refine safe_bind.mpr (safe_get.mpr ?_)
  split
  · next a _ =>
      unfold Coroutine.when
      split
      · refine safe_bind.mpr (safe_call.mpr ⟨h.add trivial, fun s₁ m₁ h₁ _ => ?_⟩)
        have hdrop := h₁.drop trivial
        refine safe_bind.mpr (alive_safe (fun _ => hdrop) fun _ => safe_bind.mpr (safe_get.mpr ?_))
        dsimp only
        split
        · cases (s₁.agents a).fd with
          | none => exact hdrop
          | some userFd => exact userEnter_lasting hdrop
        · exact hdrop
      · exact h
  · exact h

/-! ## Rooms -/

theorem Counted.rooms {players : Room → Option (List Address)} {nextRoom : ℕ}
    {roomAccount : AList fun _ : Account => Room} {roomAgent : Account → Option Address} {scans : ℕ}
    (h : Counted s m) : Counted { s with
      rooms := players, nextRoom := nextRoom, roomAccount := roomAccount, roomAgent := roomAgent,
      scans := scans } m :=
  h.calm fun _ => sameCount_of rfl rfl rfl rfl rfl fun _ _ => id

/-- A handler that registers players goes on from a place where they are named. -/
theorem seatAll_lasting {players : List Address} (h : Lasting s (p ::ₘ m))
    (hturn : ∀ k, p.wait.turn s k = none) (hcoming : p.wait.coming = some (room, players))
    (hending : p.wait.ending = none) (htells : p.wait.tells = none)
    (hfree : ∀ a rest, players = a :: rest → s.roomAccount.lookup (s.agents a).account = none) :
    (seatAll room players).Safe Lasting lastingly (fun _ => Lasting) s m := by
  induction players generalizing s m p with
  | nil =>
      refine ⟨h.rooms.drop hturn (fun room' rest hrest => ?_) (fun _ _ _ hclears => ?_)
        fun room' hwait => ?_, h.counted.drop htells⟩
      · exact (Prod.mk.inj (Option.some.inj (hrest.symm.trans hcoming))).2
      · exact Option.some_ne_none _ (hclears.ending.symm.trans hending)
      · rw [hwait] at hending
        cases hending
  | cons a rest ih =>
      have howed : ∀ b ∈ a :: rest, 0 < (s.agents b).refConnect := fun b hb =>
        (h.counted b).owed (owed_cons.mpr (.inl (Wait.owed_of_coming hcoming b hb)))
      have hseated := h.rooms.setRoom hturn hcoming hending (hfree a rest rfl)
      have hcounted : Counted (s.setRoom room a) m := (h.counted.drop htells).rooms
      refine safe_bind.mpr (safe_modify.mpr (safe_bind.mpr (safe_call.mpr ⟨⟨hseated,
        hcounted.add howed rfl fun b hwait => (by cases hwait)⟩, fun s₁ m₁ h₁ _ => ?_⟩)))
      have hpos := (h₁.counted a).owed (owed_cons.mpr (.inl List.mem_cons_self))
      have halive := ((h₁.counted a).alive hpos).2
      obtain ⟨-, -, hseat⟩ := (h₁.rooms.seat (s₁.agents a).account).holds
        (t := .sitting room a) (if_pos rfl)
      have hsit := h₁.counted.sit hpos hseat
      refine safe_bind.mpr (alive_safe (fun hexited => ?_) fun _ => safe_bind.mpr (safe_modify.mpr
        (safe_bind.mpr (safe_call.mpr ⟨⟨h₁.rooms.sit, ?_⟩, fun s₂ m₂ h₂ ok₂ => ?_⟩))))
      · exact absurd (halive.symm.trans hexited) Bool.false_ne_true
      · refine (hsit.drop rfl).add (fun b hb => ?_) rfl fun b hwait => by cases hwait
        exact (hsit b).owed (owed_cons.mpr (.inl (List.mem_cons_of_mem a hb)))
      · refine ih h₂ (fun _ => rfl) rfl rfl rfl fun b rest' hrest => ?_
        subst hrest
        exact ok₂.1.1

theorem roomstart_lasting {players : List Address} (h : Lasting s m)
    (hpos : ∀ a ∈ players, 0 < (s.agents a).refConnect) :
    (roomstart players).Safe Lasting lastingly (fun _ => Lasting) s m := by
  refine safe_bind.mpr (safe_get.mpr ?_)
  unfold Coroutine.when
  split
  · have hcounted : Counted (s.openRoom players) m := h.counted.rooms
    refine safe_bind.mpr (safe_modify.mpr (safe_bind.mpr (safe_call.mpr ⟨⟨h.rooms.openRoom players,
      hcounted.add hpos rfl fun b hwait => (by cases hwait)⟩, fun s₁ m₁ h₁ ok₁ => ?_⟩)))
    refine seatAll_lasting h₁ (fun _ => rfl) rfl rfl rfl fun a rest hplayers => ?_
    subst hplayers
    exact ok₁.1.1
  · exact h

theorem clearAll_lasting {keys : List Account} (h : Clearing s m room keys)
    (hcounted : Counted s m) :
    (clearAll room keys).Safe Lasting lastingly (fun _ => Lasting) s m := by
  induction keys generalizing s m with
  | nil => exact ⟨h.done, hcounted⟩
  | cons k rest ih =>
      refine safe_bind.mpr (safe_get.mpr (safe_bind.mpr ?_))
      unfold Coroutine.when
      split
      · next hroom =>
          obtain ⟨-, a, hregistered, -⟩ := h.taken hroom
          rw [hregistered.agent]
          refine safe_bind.mpr (safe_call.mpr ⟨⟨h.unseat hroom hregistered.agent,
            hcounted.add (fun b hb => absurd hb List.not_mem_nil) rfl
            fun b hwait => (by cases hwait)⟩, fun s₁ m₁ h₁ ok₁ => ?_⟩)
          obtain ⟨-, hregistered₁, hseat₁⟩ := (h₁.rooms.seat k).holds
            (t := .rising room a) (if_pos rfl)
          have hpos : 0 < (s₁.agents a).refConnect := by
            have hone : s₁.seats a = 1 := if_pos (by rw [hregistered₁.account, hseat₁])
            have hcount := (h₁.counted a).count
            omega
          have halive := ((h₁.counted a).alive hpos).2
          have hstarted := ok₁.2.born.roomAgent k a hregistered₁.agent
          refine safe_bind.mpr (alive_safe (fun hexited => ?_) fun _ => safe_bind.mpr
            (safe_modify.mpr
            (safe_bind.mpr (safe_get.mpr (safe_bind.mpr (safe_call.mpr ⟨⟨h₁.rooms.rise _,
              (h₁.counted.drop rfl).rise hseat₁ hregistered₁.account hstarted ok₁.1⟩,
              fun s₂ m₂ h₂ ok₂ => ?_⟩))))))
          · exact absurd (halive.symm.trans hexited) Bool.false_ne_true
          · obtain ⟨-, hregistered₂, -⟩ := (h₂.rooms.seat k).holds
              (t := .clearing room a) (if_pos rfl)
            refine safe_bind.mpr (safe_get.mpr (safe_bind.mpr ?_))
            split
            · next href =>
                have htells : Wait.tells (.unseated room k a _ rest) = some a := if_pos href
                obtain ⟨hzero, hstarted₂⟩ := (h₂.counted a).tells (tells_cons.mpr (.inl htells))
                have hgone := h₂.counted.gone ok₂.2 hstarted₂ hzero
                have htold : Rooms (s₂.tell a) _ := h₂.rooms.setAgent rfl
                rw [hregistered₂.agent]
                exact ih htold.clearRoom (h₂.counted.tell htells hgone).rooms
            · next href => exact ih h₂.rooms.clearRoom (h₂.counted.drop (if_neg href)).rooms
      · next hroom => exact ih (h.skip hroom) hcounted

theorem roomend_lasting (h : Lasting s m) :
    (roomend order room).Safe Lasting lastingly (fun _ => Lasting) s m := by
  refine safe_bind.mpr (safe_get.mpr ?_)
  unfold Coroutine.when
  split
  · next hopen =>
      obtain ⟨players, hplayers⟩ := Option.isSome_iff_exists.mp hopen
      have hcounted : Counted (s.closeRoom room) m := h.counted.rooms
      refine safe_bind.mpr (safe_modify.mpr
        (safe_bind.mpr (safe_call.mpr ⟨⟨h.rooms.closeRoom hplayers,
        hcounted.add (fun b hb => absurd hb List.not_mem_nil) rfl fun b hwait => (by cases hwait)⟩,
        fun s₁ m₁ h₁ ok₁ => safe_bind.mpr (safe_get.mpr (safe_bind.mpr (safe_modify.mpr ?_)))⟩)))
      refine clearAll_lasting ⟨h₁.rooms.calm ⟨rfl, rfl, rfl, rfl, rfl⟩
        (sameAccounts_of fun _ => rfl),
        fun k hk => ?_, fun q hq rest hcoming => ?_⟩ (h₁.counted.drop rfl).rooms
      · refine (order.accounts_perm s₁.scans s₁.roomAccount.keys).mem_iff.mpr ?_
        exact AList.mem_keys.mp (AList.lookup_isSome.mp (Option.isSome_iff_exists.mpr ⟨room, hk⟩))
      · exact ok₁.1 q hq _ hcoming rfl
  · exact h

/-! ## Runs -/

theorem lasting_of_runs {pool : Pool Game Place}
    (h : ((server order).system nobody).Runs lasting.Admits pool) :
    Lasting pool.shared pool.places := by
  have hwithin := Server.runs_within h fun _ hq => wired_of_reachable hq.reachable
  refine Server.invariant (G := lasting.within Wired) Lasting ⟨?_, fun a => ?_⟩
    (fun s m r hs hok => ?_) (fun s m e hs hok => ?_) hwithin
  · exact ⟨fun k => .rest rfl (.free rfl rfl rfl), fun room players hrooms => (by cases hrooms),
      fun k room hroom => (by cases hroom), fun p hp => absurd hp (Multiset.notMem_zero p),
      fun room => Nat.zero_le _, fun room _ => ⟨rfl, fun k hk => (by cases hk),
        fun p hp => absurd hp (Multiset.notMem_zero p)⟩⟩
  · have hnone : ∀ {P : Place → Prop}, ¬ ∃ p ∈ (0 : Multiset Place), P p := fun ⟨p, hp, _⟩ =>
      Multiset.notMem_zero p hp
    exact ⟨rfl, fun hm => absurd hm hnone, fun htold => (by cases htold),
      fun hexited => (by cases hexited), fun hm => absurd hm hnone, fun hm => absurd hm hnone,
      fun hstarted => (by cases hstarted), fun htold => (by cases htold)⟩
  · cases r with
    | auth account => exact auth_lasting hs (hok.2.fresh s.nextFd le_rfl).2.2
    | authAi name => exact hok.1.elim
    | enterGame fd => exact enterGame_lasting hs
    | socketClosed fd => exact socketClosed_lasting hs
    | kickSelf a => exact kickSelf_lasting hs
    | disconnect a => exact disconnect_lasting hs
    | roomstart players => exact roomstart_lasting hs hok.1
    | roomend room => exact roomend_lasting hs
  · have haside : Aside s (e.run s) := by
      cases e <;> exact ⟨rfl, rfl, rfl, rfl, fun _ _ => id, ⟨rfl, rfl, rfl, rfl, rfl⟩⟩
    exact hs.aside haside

/-! ## The number of connections and rooms -/

/-- The connections that map to the agent. -/
def Game.fds (s : Game) (a : Address) : Finset Fd :=
  (Finset.range s.nextFd).filter fun fd => s.agentfd fd = some a

/-- The agent is in a room that runs. -/
def Game.InRoom (s : Game) (a : Address) : Prop := ∃ room < s.nextRoom, a ∈ (s.rooms room).getD []

instance (s : Game) (a : Address) : Decidable (s.InRoom a) :=
  inferInstanceAs (Decidable (∃ room < s.nextRoom, _))

def Game.number (s : Game) (a : Address) : ℕ := (s.fds a).card + if s.InRoom a then 1 else 0

theorem Wait.owed_of_turn {w : Wait} (h : w.turn s k = some (.sitting room a)) : a ∈ w.owed := by
  cases w <;> simp only [Wait.turn, Option.ite_none_right_eq_some, Option.some.injEq,
    Turn.sitting.injEq, reduceCtorEq, and_false] at h
  obtain ⟨-, -, rfl⟩ := h
  exact List.mem_cons_self

theorem Wait.ending_of_turn {w : Wait} (h : w.turn s k = some (.clearing room a)) :
    w.ending = some room := by
  cases w <;> simp only [Wait.turn, Option.ite_none_right_eq_some, Option.some.injEq,
    Turn.clearing.injEq, reduceCtorEq, and_false] at h
  obtain ⟨-, rfl, -⟩ := h
  rfl

theorem exists_room (h : s.InRoom a) : ∃ room players, s.rooms room = some players ∧
    a ∈ players := by
  obtain ⟨room, -, hmem⟩ := h
  cases hrooms : s.rooms room with
  | none =>
      rw [hrooms] at hmem
      exact absurd hmem List.not_mem_nil
  | some players =>
      rw [hrooms] at hmem
      exact ⟨room, players, hrooms, hmem⟩

theorem Counts.pos_of_seat (h : Counts s m a) (hseat : s.seat (s.agents a).account = some a) :
    0 < (s.agents a).refConnect := by
  have hone : s.seats a = 1 := if_pos hseat
  have hcount := h.count
  omega

/-- An agent in a room that runs counts it, or will. -/
theorem Lasting.pos_of_inRoom (h : Lasting s m) (hroom : s.InRoom a) :
    0 < (s.agents a).refConnect := by
  obtain ⟨room, players, hrooms, ha⟩ := exists_room hroom
  rcases h.rooms.players room players hrooms a ha with hregistered | ⟨p, hp, rest, hcoming, hrest⟩
  · rcases h.rooms.seat (s.agents a).account with ⟨-, hsettled⟩ | ⟨t, hturns, hholds⟩
    · cases hsettled with
      | free hnone _ _ =>
          exact absurd (hregistered.room.symm.trans hnone) (Option.some_ne_none room)
      | taken room' b hb hseat =>
          obtain rfl := Option.some.inj (hb.agent.symm.trans hregistered.agent)
          exact (h.counted b).pos_of_seat hseat
    · have hmem : t ∈ turns s m (s.agents a).account := hturns ▸ Multiset.mem_singleton_self t
      obtain ⟨q, hq, hturn⟩ := (Multiset.mem_filterMap _ _).mp hmem
      cases t with
      | sitting room' b =>
          obtain rfl := Option.some.inj (hholds.1.agent.symm.trans hregistered.agent)
          exact (h.counted b).owed ⟨q, hq, Wait.owed_of_turn hturn⟩
      | rising room' b =>
          obtain rfl := Option.some.inj (hholds.1.agent.symm.trans hregistered.agent)
          exact (h.counted b).pos_of_seat hholds.2
      | clearing room' b =>
          obtain rfl := Option.some.inj (hholds.1.room.symm.trans hregistered.room)
          have hclosed := (h.rooms.closed hq (Wait.ending_of_turn hturn)).1
          exact absurd (hrooms.symm.trans hclosed) (Option.some_ne_none players)
  · exact (h.counted a).owed ⟨p, hp, Wait.owed_of_coming hcoming a hrest⟩

/-- An agent that was told to disconnect has no connection and no room. -/
theorem Lasting.number_of_told (h : Lasting s m) (htold : (s.agents a).told = true) :
    s.number a = 0 := by
  have hfds : s.fds a = ∅ :=
    Finset.filter_eq_empty_iff.mpr fun fd _ hmap => (h.counted a).gone htold fd hmap
  have hroom : ¬ s.InRoom a := by
    intro hroom
    have hpos := h.pos_of_inRoom hroom
    have hzero := ((h.counted a).told htold).1
    omega
  unfold Game.number
  rw [hfds, Finset.card_empty, if_neg hroom]

/-- Where nobody waits, an agent counts the connections that map to it. -/
theorem Lasting.counts_iff (h : Lasting s 0) (hwired : Wired s 0) (a : Address)
    (hfd : fd ∈ Finset.range s.nextFd) :
    s.counted fd = some a ∧ s.held fd = true ↔ s.agentfd fd = some a := by
  have hnone : ∀ {o : Option Address}, o = none → o ≠ some a := fun ho hsome =>
    Option.some_ne_none a (hsome.symm.trans ho)
  rcases hwired.stage fd with ⟨-, hrests⟩ | ⟨r, hroles, -⟩
  · cases hrests with
    | idle hagentfd hcounted =>
        exact iff_of_false (fun hand => hnone hcounted hand.1) (hnone hagentfd)
    | lost b hagentfd _ _ hexited =>
        exact absurd hagentfd ((h.counted b).gone ((h.counted b).exited hexited) fd)
    | mapped b hagentfd hcounted hheld =>
        rw [hagentfd, hcounted]
        exact and_iff_left hheld
    | kept b _ hcounted hheld hexited =>
        have hzero := ((h.counted b).told ((h.counted b).exited hexited)).1
        have hpos : 0 < s.clients b :=
          Finset.card_pos.mpr ⟨fd, Finset.mem_filter.mpr ⟨hfd, hcounted, hheld⟩⟩
        have hcount := (h.counted b).count
        omega
    | gone b hagentfd _ hheld =>
        refine iff_of_false (fun hand => ?_) (hnone hagentfd)
        exact Bool.false_ne_true (hheld.symm.trans hand.2)
  · exact absurd hroles.symm (Multiset.singleton_ne_zero r)

theorem Lasting.clients_eq (h : Lasting s 0) (hwired : Wired s 0) (a : Address) :
    s.clients a = (s.fds a).card :=
  congrArg Finset.card (Finset.filter_congr fun _ hfd => h.counts_iff hwired a hfd)

/-- Where nobody waits, an agent counts the room that it is in. -/
theorem Lasting.seats_eq (h : Lasting s 0) (a : Address) :
    s.seats a = if s.InRoom a then 1 else 0 := by
  refine if_congr ⟨fun hseat => ?_, fun hroom => ?_⟩ rfl rfl
  · obtain ⟨room, hregistered⟩ := (h.rooms.seat (s.agents a).account).of_seat hseat
    rcases h.rooms.keys _ room hregistered.room with ⟨players, hrooms, b, hb, hagent⟩ | ⟨p, hp, -⟩
    · obtain rfl := Option.some.inj (hagent.symm.trans hregistered.agent)
      refine ⟨room, ?_, ?_⟩
      · by_contra hge
        have hnone := (h.rooms.fresh room (not_lt.mp hge)).1
        exact Option.some_ne_none players (hrooms.symm.trans hnone)
      · rw [hrooms]
        exact hb
    · exact absurd hp (Multiset.notMem_zero p)
  · obtain ⟨room, players, hrooms, ha⟩ := exists_room hroom
    rcases h.rooms.players room players hrooms a ha with hregistered | ⟨p, hp, -⟩
    · rcases h.rooms.seat (s.agents a).account with ⟨-, hsettled⟩ | ⟨t, hturns, -⟩
      · cases hsettled with
        | free hnone _ _ =>
            exact absurd (hregistered.room.symm.trans hnone) (Option.some_ne_none room)
        | taken room' b hb hseat =>
            obtain rfl := Option.some.inj (hb.agent.symm.trans hregistered.agent)
            exact hseat
      · exact absurd hturns.symm (Multiset.singleton_ne_zero t)
    · exact absurd hp (Multiset.notMem_zero p)

/-- What holds of an agent where nobody waits. Its connections are open for the gate, which hears
when they are closed. -/
structure Lifetime (s : Game) (a : Address) : Prop where
  count : (s.agents a).refConnect = s.number a
  told : (s.agents a).told = true ↔ s.number a = 0
  heard : ∀ fd ∈ s.fds a, (s.connection fd).isSome = true ∧ s.atGate fd = true

theorem Lasting.lifetime (h : Lasting s 0) (hwired : Wired s 0) (ha : a < s.nextAgent) :
    Lifetime s a := by
  have hcount : (s.agents a).refConnect = s.number a := by
    unfold Game.number
    rw [(h.counted a).count, h.clients_eq hwired, h.seats_eq, Nat.cast_add]
  refine ⟨hcount, ⟨h.number_of_told, fun hzero => ?_⟩, fun fd hfd => ?_⟩
  · have hstarted : (s.agents a).started = true := by
      by_contra hnot
      have hone := hwired.born.starts a
      rw [Multiset.countP_zero, if_pos ⟨ha, Bool.eq_false_of_not_eq_true hnot⟩] at hone
      exact zero_ne_one hone
    rw [hzero] at hcount
    exact ((h.counted a).idle hstarted hcount).resolve_right fun ⟨p, hp, _⟩ =>
      Multiset.notMem_zero p hp
  · obtain ⟨hrange, hmap⟩ := Finset.mem_filter.mp hfd
    have hserved := hwired.served fd a hmap ((h.counts_iff hwired a hrange).mpr hmap).1
    have hopen : s.connection fd ≠ none := fun hnone =>
      Multiset.notMem_zero _ (hserved.closed hnone)
    refine ⟨Option.isSome_iff_ne_none.mpr hopen, ?_⟩
    rcases hserved.heard with hgate | hforward
    · exact hgate.resolve_right hopen
    · exact absurd hforward (Multiset.notMem_zero _)

/-- An agent is told to disconnect when it has no connection and no room, and not before: in every
state of a run it holds of the agents that were told, and of every agent where nobody waits. -/
theorem agent_lifetime {pool : Pool Game Place}
    (h : ((server order).system nobody).Runs lasting.Admits pool) :
    (∀ a, (pool.shared.agents a).told = true → pool.shared.number a = 0) ∧
      (pool.places = 0 → ∀ a < pool.shared.nextAgent, Lifetime pool.shared a) := by
  have hlasting := lasting_of_runs h
  refine ⟨fun a => hlasting.number_of_told, fun hplaces a ha => ?_⟩
  have hwired := wired_of_reachable h.reachable
  rw [hplaces] at hlasting hwired
  exact hlasting.lifetime hwired ha

instance (m : Multiset Place) (a : Address) : Decidable (Owed m a) :=
  Multiset.decidableExistsMultiset

instance (s : Game) (m : Multiset Place) (r : Request) : Decidable (lasting.request s m r) := by
  cases r with
  | authAi name => exact .isFalse id
  | roomstart players => exact inferInstanceAs (Decidable (∀ a ∈ players, _))
  | _ => exact .isTrue trivial

instance (s : Game) (m : Multiset Place) (p : Place) : Decidable (lasting.resume s m p) := by
  obtain ⟨w, -⟩ := p
  cases w with
  | answered fd account offLinetime => exact inferInstanceAs (Decidable (_ → ∀ a ∈ _, _))
  | release fd a => exact inferInstanceAs (Decidable (_ → _))
  | unseating room k a rest => exact inferInstanceAs (Decidable (_ → _))
  | userEnter account fd origin => exact inferInstanceAs (Decidable (∀ p ∈ m, _))
  | roomstart room players =>
      cases players with
      | nil => exact .isTrue trivial
      | cons a rest => exact inferInstanceAs (Decidable (_ ∧ _))
  | seated room players =>
      cases players with
      | nil => exact .isTrue trivial
      | cons a rest => exact inferInstanceAs (Decidable (_ ∧ _))
  | roomend room => exact inferInstanceAs (Decidable (∀ p ∈ m, ∀ c ∈ _, _))
  | _ => exact .isTrue trivial

instance (s : Game) (m : Multiset Place) (e : Outside) : Decidable (lasting.outside s m e) :=
  .isTrue trivial

/-- A request, and the calls that it waits for. -/
def answered (r : Request) (n : ℕ) : List (Cooperative.Label Request Outside) :=
  .request r :: List.replicate n (.resume 0)

/-- A player hangs up in a room and comes back; the room ends, and the player hangs up. -/
def rejoined : List (Cooperative.Label Request Outside) :=
  login "10" ++ answered (.roomstart [0]) 3 ++
    .outside (.hangup 0) :: answered (.socketClosed 0) 4 ++
    answered (.auth "10") 6 ++ answered (.roomend 0) 3 ++
    .outside (.hangup 1) :: answered (.socketClosed 1) 4

theorem agent_lifetime_match : ∃ pool, ((server asListed).system nobody).Runs lasting.Admits pool ∧
    (pool.shared.agents 0).told = true ∧ pool.shared.number 0 = 0 ∧ Lifetime pool.shared 0 := by
  have hrun : ((((server asListed).system nobody).guarded lasting.Admits).run ⟨nobody, []⟩
      rejoined).map (fun pool => (pool.places.card, pool.shared.nextAgent,
        (pool.shared.agents 0).told)) = some (0, 1, true) := by
    decide +kernel
  obtain ⟨pool, hpool, hread⟩ := Option.map_eq_some_iff.mp hrun
  obtain ⟨hplaces, hnext, htold⟩ : pool.places.card = 0 ∧ pool.shared.nextAgent = 1 ∧
      (pool.shared.agents 0).told = true := by simpa using hread
  have hruns := System.Runs.of_guarded_run _ .init hpool
  obtain ⟨hnumber, hlifetime⟩ := agent_lifetime hruns
  refine ⟨pool, hruns, htold, hnumber 0 htold, hlifetime (Multiset.card_eq_zero.mp hplaces) 0 ?_⟩
  rw [hnext]
  exact one_pos

/-- A robot plays in a room, and is not told to disconnect when the room ends. -/
theorem robot_stays : ∃ pool, ((server asListed).system nobody).Reachable pool ∧
    pool.places = 0 ∧ 0 < pool.shared.nextAgent ∧ (pool.shared.agents 0).refConnect = 1 ∧
      pool.shared.number 0 = 0 ∧ (pool.shared.agents 0).told = false ∧
        ¬ Lifetime pool.shared 0 := by
  have hrun : (((server asListed).system nobody).run ⟨nobody, []⟩
      (answered (.authAi "robot") 2 ++ answered (.roomstart [0]) 3 ++ answered (.roomend 0) 3)).map
      (fun pool => (pool.places.card, pool.shared.nextAgent, (pool.shared.agents 0).refConnect,
        pool.shared.number 0, (pool.shared.agents 0).told)) = some (0, 1, 1, 0, false) := by
    decide +kernel
  obtain ⟨pool, hpool, hread⟩ := Option.map_eq_some_iff.mp hrun
  obtain ⟨hplaces, hnext, href, hnumber, htold⟩ : pool.places.card = 0 ∧ pool.shared.nextAgent = 1 ∧
      (pool.shared.agents 0).refConnect = 1 ∧ pool.shared.number 0 = 0 ∧
        (pool.shared.agents 0).told = false := by simpa using hread
  refine ⟨pool, System.reachable_of_run _ hpool, Multiset.card_eq_zero.mp hplaces, ?_, href,
    hnumber, htold, fun hlifetime => ?_⟩
  · rw [hnext]
    exact one_pos
  · exact Bool.false_ne_true (htold.symm.trans (hlifetime.told.mpr hnumber))

end GameServer.Watchdog
