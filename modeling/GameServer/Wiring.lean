import GameServer.Watchdog

/-!
# The wiring of connections

What holds in every run. A connection is at one stage of its way: a login works on it, an agent is
to count it, the watchdog knows it with the agent that counts it, a close is on its way to the
agent, or nobody has to do with it any more.
-/

namespace GameServer.Watchdog

open Cooperative Coroutine Transition

variable {s s' : Game} {m m' : Multiset Place} {p p' : Place} {fd : Fd} {a : Address}

/-! ## Tables -/

theorem setAgent_agents (v : Agent) (b : Address) :
    (s.setAgent a v).agents b = if b = a then v else s.agents b := Function.update_apply _ _ _ _

theorem newservice_agents (account : Account) (o : Option Fd) (b : Address) :
    (s.newservice account o).agents b =
      if b = s.nextAgent then
        { s.agents s.nextAgent with account := account, isAi := o.isNone, fd := o }
      else s.agents b := Function.update_apply _ _ _ _

theorem start_agents (o : Option Fd) (b : Address) : (s.start a o).agents b =
    if b = a then { s.agents a with started := true, userFd := o, refConnect := 1 }
    else s.agents b := by
  cases o <;> exact setAgent_agents _ b

/-- A start leaves the other tables as they are. -/
theorem start_same (o : Option Fd) : (s.start a o).agentfd = s.agentfd ∧
    (s.start a o).agentAccount = s.agentAccount ∧ (s.start a o).connection = s.connection ∧
    (s.start a o).atGate = s.atGate ∧ (s.start a o).roomAgent = s.roomAgent ∧
    (s.start a o).nextFd = s.nextFd ∧ (s.start a o).nextAgent = s.nextAgent := by
  cases o <;> exact ⟨rfl, rfl, rfl, rfl, rfl, rfl, rfl⟩

theorem start_counted {o : Option Fd} {f : Fd} {b : Address}
    (h : (s.start a o).counted f = some b) :
    s.counted f = some b ∨ o = some f ∧ b = a := by
  cases o with
  | none => exact .inl h
  | some fd =>
      have hcount : (s.start a (some fd)).counted f = if f = fd then some a else s.counted f :=
        Function.update_apply _ _ _ _
      rw [hcount] at h
      split at h
      · next hf => exact .inr ⟨by rw [hf], (Option.some.inj h).symm⟩
      · exact .inl h

theorem setRoom_roomAgent (room : Room) (k : Account) :
    (s.setRoom room a).roomAgent k = if k = (s.agents a).account then some a else s.roomAgent k :=
  Function.update_apply _ _ _ _

theorem clearRoom_roomAgent (k k' : Account) :
    (s.clearRoom k).roomAgent k' = if k' = k then none else s.roomAgent k' :=
  Function.update_apply _ _ _ _

/-! ## Stages -/

/-- What a handler at a place is about to do with a connection. -/
inductive Role
  | login
  | counting (a : Address)
  | leaving (a : Address)

def Wait.role (fd : Fd) : Wait → Option Role
  | .asked f _ | .seeking f _ _ | .answered f _ _ | .found f _ => if f = fd then some .login
    else none
  | .making f _ => if f = some fd then some .login else none
  | .starting a f => if f = some fd then some (.counting a) else none
  | .returning a f => if f = fd then some (.counting a) else none
  | .kick f a | .release f a => if f = fd then some (.leaving a) else none
  | _ => none

def roles (m : Multiset Place) (fd : Fd) : Multiset Role := m.filterMap fun p => p.wait.role fd

theorem roles_cons_none (h : p.wait.role fd = none) : roles (p ::ₘ m) fd = roles m fd :=
  Multiset.filterMap_cons_none _ _ h

theorem roles_cons_some {r : Role} (h : p.wait.role fd = some r) :
    roles (p ::ₘ m) fd = r ::ₘ roles m fd := Multiset.filterMap_cons_some _ _ _ h

/-- What the tables say of a connection at which a handler works. -/
def Role.Holds (s : Game) (fd : Fd) : Role → Prop
  | .login => s.agentfd fd = none ∧ s.counted fd = none ∧ s.connection fd = some ⟨none, true⟩
  | .counting a => s.agentfd fd = some a ∧ s.counted fd = none ∧ s.connection fd = some ⟨none, true⟩
  | .leaving a => s.agentfd fd = none ∧ s.counted fd = some a ∧ s.held fd = true

/-- What they say of another connection. The agents of `lost` and `kept` exited before they could
count the connection, or its end. -/
inductive Rests (s : Game) (fd : Fd) : Prop
  | idle (hagentfd : s.agentfd fd = none) (hcounted : s.counted fd = none)
  | lost (a : Address) (hagentfd : s.agentfd fd = some a) (hcounted : s.counted fd = none)
      (hstarted : (s.agents a).started = true) (hexited : (s.agents a).exited = true)
  | mapped (a : Address) (hagentfd : s.agentfd fd = some a) (hcounted : s.counted fd = some a)
      (hheld : s.held fd = true)
  | kept (a : Address) (hagentfd : s.agentfd fd = none) (hcounted : s.counted fd = some a)
      (hheld : s.held fd = true) (hexited : (s.agents a).exited = true)
  | gone (a : Address) (hagentfd : s.agentfd fd = none) (hcounted : s.counted fd = some a)
      (hheld : s.held fd = false)

def Stage (s : Game) (m : Multiset Place) (fd : Fd) : Prop :=
  (roles m fd = 0 ∧ Rests s fd) ∨ ∃ r, roles m fd = {r} ∧ r.Holds s fd

/-- A handler works at the connection, and no other does. -/
theorem Stage.holds {r : Role} (h : Stage s (p ::ₘ m) fd) (hp : p.wait.role fd = some r) :
    roles m fd = 0 ∧ r.Holds s fd := by
  unfold Stage at h
  rw [roles_cons_some hp] at h
  rcases h with ⟨hzero, -⟩ | ⟨r', hsingle, hholds⟩
  · exact absurd hzero (Multiset.cons_ne_zero)
  · obtain ⟨rfl, hm⟩ := Multiset.singleton_eq_cons_iff _ |>.mp hsingle.symm
    exact ⟨hm, hholds⟩

theorem Stage.rest (hroles : roles m fd = 0) (h : Rests s fd) : Stage s m fd := .inl ⟨hroles, h⟩

theorem Stage.work {r : Role} (hp : p.wait.role fd = some r) (hroles : roles m fd = 0)
    (h : r.Holds s fd) : Stage s (p ::ₘ m) fd := by
  refine .inr ⟨r, ?_, h⟩
  rw [roles_cons_some hp, hroles]
  rfl

/-- The tables say the same of the connection. -/
structure SameAt (s s' : Game) (fd : Fd) : Prop where
  agentfd : s'.agentfd fd = s.agentfd fd
  counted : s'.counted fd = s.counted fd
  held : s'.held fd = s.held fd
  connection : s.counted fd = none → s'.connection fd = s.connection fd
  started : ∀ a, (s.agents a).started = true → (s'.agents a).started = true
  exited : ∀ a, (s.agents a).exited = true → (s'.agents a).exited = true

theorem Stage.congr (h : Stage s m fd) (hs : SameAt s s' fd) (hroles : roles m' fd = roles m fd) :
    Stage s' m' fd := by
  rcases h with ⟨hzero, hrests⟩ | ⟨r, hsingle, hholds⟩
  · refine .inl ⟨hroles.trans hzero, ?_⟩
    cases hrests with
    | idle hagentfd hcounted =>
        exact .idle (hs.agentfd.trans hagentfd) (hs.counted.trans hcounted)
    | lost a hagentfd hcounted hstarted hexited =>
        exact .lost a (hs.agentfd.trans hagentfd) (hs.counted.trans hcounted)
          (hs.started a hstarted) (hs.exited a hexited)
    | mapped a hagentfd hcounted hheld =>
        exact .mapped a (hs.agentfd.trans hagentfd) (hs.counted.trans hcounted)
          (hs.held.trans hheld)
    | kept a hagentfd hcounted hheld hexited =>
        exact .kept a (hs.agentfd.trans hagentfd) (hs.counted.trans hcounted) (hs.held.trans hheld)
          (hs.exited a hexited)
    | gone a hagentfd hcounted hheld =>
        exact .gone a (hs.agentfd.trans hagentfd) (hs.counted.trans hcounted) (hs.held.trans hheld)
  · refine .inr ⟨r, hroles.trans hsingle, ?_⟩
    cases r with
    | login =>
        exact ⟨hs.agentfd.trans hholds.1, hs.counted.trans hholds.2.1,
          (hs.connection hholds.2.1).trans hholds.2.2⟩
    | counting a =>
        exact ⟨hs.agentfd.trans hholds.1, hs.counted.trans hholds.2.1,
          (hs.connection hholds.2.1).trans hholds.2.2⟩
    | leaving a =>
        exact ⟨hs.agentfd.trans hholds.1, hs.counted.trans hholds.2.1, hs.held.trans hholds.2.2⟩

/-! ## The invariant -/

def Wait.names : Wait → List Fd
  | .closing fd | .userEnter _ fd _ => [fd]
  | _ => []

/-- The connections that a place will hand to the watchdog. -/
def Place.names (p : Place) : List Fd := p.wait.names ++ p.entry.toList.map Entry.fd

/-- The agent that is about to start. -/
def Wait.newAgent : Wait → Option Address
  | .starting a _ => some a
  | _ => none

def Place.Starts (a : Address) (p : Place) : Prop := p.wait.newAgent = some a

instance (a : Address) (p : Place) : Decidable (p.Starts a) := inferInstanceAs (Decidable (_ = _))

/-- The agents that the handler at a place will count in. -/
def Wait.owed : Wait → List Address
  | .found _ a | .returning a _ => [a]
  | .roomstart _ players => players
  | .seating _ a rest => a :: rest
  | .seated _ rest => rest
  | _ => []

/-- Who names a connection has it from the agent that has counted it. -/
structure Known (s : Game) (m : Multiset Place) : Prop where
  userFd : ∀ a fd, (s.agents a).userFd = some fd → s.counted fd = some a
  fd : ∀ a fd, (s.agents a).started = true → (s.agents a).fd = some fd → s.counted fd = some a
  atGate : ∀ fd, s.atGate fd = true → s.counted fd ≠ none
  agent : ∀ fd a serving, s.connection fd = some ⟨some a, serving⟩ → s.counted fd = some a
  account : ∀ fd ∈ s.agentAccount, s.counted fd ≠ none
  names : ∀ p ∈ m, ∀ fd ∈ p.names, s.counted fd ≠ none
  forward : ∀ p ∈ m, ∀ fd a, p.wait = .forward fd a → s.counted fd = some a

/-- Agents start once. -/
structure Born (s : Game) (m : Multiset Place) : Prop where
  starts : ∀ a, m.countP (Place.Starts a) =
    if a < s.nextAgent ∧ (s.agents a).started = false then 1 else 0
  fd : ∀ p ∈ m, ∀ a fd, p.wait = .starting a fd → (s.agents a).fd = fd
  started : ∀ a, (s.agents a).started = true → a < s.nextAgent
  counted : ∀ fd a, s.counted fd = some a → (s.agents a).started = true
  owed : ∀ p ∈ m, ∀ a ∈ p.wait.owed, (s.agents a).started = true
  roomAgent : ∀ k a, s.roomAgent k = some a → (s.agents a).started = true

/-- The watchdog hears of the end of a connection that it knows. -/
structure Served (s : Game) (m : Multiset Place) (fd : Fd) (a : Address) : Prop where
  heard : (s.atGate fd = true ∨ s.connection fd = none) ∨ ⟨.forward fd a, none⟩ ∈ m
  closed : s.connection fd = none → ⟨.closing fd, none⟩ ∈ m
  serving : ∀ c, s.connection fd = some c → c.serving = true

structure Wired (s : Game) (m : Multiset Place) : Prop where
  stage : ∀ fd, Stage s m fd
  fresh : ∀ fd, s.nextFd ≤ fd → roles m fd = 0 ∧ s.agentfd fd = none ∧ s.counted fd = none
  known : Known s m
  born : Born s m
  served : ∀ fd a, s.agentfd fd = some a → s.counted fd = some a → Served s m fd a

/-! ## Parts of the invariant -/

theorem Known.tail (h : Known s (p ::ₘ m)) : Known s m :=
  ⟨h.userFd, h.fd, h.atGate, h.agent, h.account,
    fun q hq => h.names q (Multiset.mem_cons_of_mem hq),
    fun q hq => h.forward q (Multiset.mem_cons_of_mem hq)⟩

theorem Known.cons (h : Known s m) (hnames : ∀ fd ∈ p.names, s.counted fd ≠ none)
    (hforward : ∀ fd a, p.wait = .forward fd a → s.counted fd = some a) : Known s (p ::ₘ m) := by
  refine ⟨h.userFd, h.fd, h.atGate, h.agent, h.account, fun q hq => ?_, fun q hq => ?_⟩
  · rcases Multiset.mem_cons.mp hq with rfl | hq
    · exact hnames
    · exact h.names q hq
  · rcases Multiset.mem_cons.mp hq with rfl | hq
    · exact hforward
    · exact h.forward q hq

/-- More connections are counted, and who names another connection has counted it. -/
theorem Known.step (h : Known s m)
    (hcounted : ∀ fd a, s.counted fd = some a → s'.counted fd = some a)
    (huserFd : ∀ a fd, (s'.agents a).userFd = some fd →
      (s.agents a).userFd = some fd ∨ s'.counted fd = some a)
    (hfd : ∀ a fd, (s'.agents a).started = true → (s'.agents a).fd = some fd →
      (s.agents a).started = true ∧ (s.agents a).fd = some fd ∨ s'.counted fd = some a)
    (hatGate : ∀ fd, s'.atGate fd = true → s.atGate fd = true ∨ s'.counted fd ≠ none)
    (hagent : ∀ fd a serving, s'.connection fd = some ⟨some a, serving⟩ →
      (∃ serving, s.connection fd = some ⟨some a, serving⟩) ∨ s'.counted fd = some a)
    (haccount : ∀ fd ∈ s'.agentAccount, fd ∈ s.agentAccount ∨ s'.counted fd ≠ none) :
    Known s' m := by
  have hsome : ∀ fd, s.counted fd ≠ none → s'.counted fd ≠ none := by
    intro fd hne
    obtain ⟨a, ha⟩ := Option.ne_none_iff_exists'.mp hne
    rw [hcounted fd a ha]
    exact Option.some_ne_none a
  refine ⟨fun a fd huser => ?_, fun a fd hstarted hclient => ?_, fun fd hgate => ?_,
    fun fd a serving hc => ?_, fun fd hkey => ?_, fun q hq fd hname => ?_,
    fun q hq fd a hwait => ?_⟩
  · exact (huserFd a fd huser).elim (fun hold => hcounted fd a (h.userFd a fd hold)) id
  · exact (hfd a fd hstarted hclient).elim (fun hold => hcounted fd a (h.fd a fd hold.1 hold.2)) id
  · exact (hatGate fd hgate).elim (fun hold => hsome fd (h.atGate fd hold)) id
  · refine (hagent fd a serving hc).elim (fun ⟨serving, hold⟩ => ?_) id
    exact hcounted fd a (h.agent fd a serving hold)
  · exact (haccount fd hkey).elim (fun hold => hsome fd (h.account fd hold)) id
  · exact hsome fd (h.names q hq fd hname)
  · exact hcounted fd a (h.forward q hq fd a hwait)

theorem Born.tail (h : Born s (p ::ₘ m)) (hnew : p.wait.newAgent = none) : Born s m := by
  refine ⟨fun a => ?_, fun q hq => h.fd q (Multiset.mem_cons_of_mem hq), h.started, h.counted,
    fun q hq => h.owed q (Multiset.mem_cons_of_mem hq), h.roomAgent⟩
  rw [← h.starts a, Multiset.countP_cons_of_neg _ (by simp [Place.Starts, hnew])]

theorem Born.cons (h : Born s m) (hnew : p.wait.newAgent = none)
    (howed : ∀ a ∈ p.wait.owed, (s.agents a).started = true) : Born s (p ::ₘ m) := by
  refine ⟨fun a => ?_, fun q hq => ?_, h.started, h.counted, fun q hq => ?_, h.roomAgent⟩
  · rw [Multiset.countP_cons_of_neg _ (by simp [Place.Starts, hnew]), h.starts a]
  · rcases Multiset.mem_cons.mp hq with rfl | hq
    · intro a fd hwait
      rw [hwait] at hnew
      cases hnew
    · exact h.fd q hq
  · rcases Multiset.mem_cons.mp hq with rfl | hq
    · exact howed
    · exact h.owed q hq

/-- Agents that have started count connections and get rooms. -/
theorem Born.step (h : Born s m) (hnextAgent : s'.nextAgent = s.nextAgent)
    (hfd : ∀ a, (s'.agents a).fd = (s.agents a).fd)
    (hstarted : ∀ a, (s'.agents a).started = (s.agents a).started)
    (hcounted : ∀ fd a, s'.counted fd = some a →
      s.counted fd = some a ∨ (s.agents a).started = true)
    (hroomAgent : ∀ k a, s'.roomAgent k = some a →
      s.roomAgent k = some a ∨ (s.agents a).started = true) : Born s' m := by
  refine ⟨fun a => ?_, fun p hp a fd hwait => ?_, fun a ha => ?_, fun fd a hc => ?_,
    fun p hp a ha => ?_, fun k a hroom => ?_⟩
  · rw [h.starts, hnextAgent, hstarted]
  · rw [hfd]
    exact h.fd p hp a fd hwait
  · rw [hnextAgent]
    rw [hstarted] at ha
    exact h.started a ha
  · rw [hstarted]
    exact (hcounted fd a hc).elim (h.counted fd a) id
  · rw [hstarted]
    exact h.owed p hp a ha
  · rw [hstarted]
    exact (hroomAgent k a hroom).elim (h.roomAgent k a) id

theorem Served.congr (h : Served s m fd a) (hconnection : s'.connection fd = s.connection fd)
    (hatGate : s.atGate fd = true → s'.atGate fd = true)
    (hforward : (⟨.forward fd a, none⟩ : Place) ∈ m → (⟨.forward fd a, none⟩ : Place) ∈ m')
    (hclosing : (⟨.closing fd, none⟩ : Place) ∈ m → (⟨.closing fd, none⟩ : Place) ∈ m') :
    Served s' m' fd a := by
  refine ⟨?_, fun hnone => ?_, fun c hc => ?_⟩
  · rw [hconnection]
    exact h.heard.imp (Or.imp_left hatGate) hforward
  · rw [hconnection] at hnone
    exact hclosing (h.closed hnone)
  · rw [hconnection] at hc
    exact h.serving c hc

/-! ## Places -/

/-- Nothing depends on this place but by its role. -/
def Wait.Still : Wait → Prop
  | .starting _ _ | .forward _ _ | .closing _ => False
  | _ => True

theorem Wait.Still.newAgent {w : Wait} (h : w.Still) : w.newAgent = none := by
  cases w <;> first | rfl | exact h.elim

/-- A handler may come to this place. -/
structure Place.Admitted (s : Game) (p : Place) : Prop where
  names : ∀ fd ∈ p.names, s.counted fd ≠ none
  owed : ∀ a ∈ p.wait.owed, (s.agents a).started = true
  forward : ∀ fd a, p.wait = .forward fd a → s.counted fd = some a
  newAgent : p.wait.newAgent = none

theorem mem_of_still (hstill : p.wait.Still) {w : Wait} (hw : ¬ w.Still)
    (hmem : (⟨w, none⟩ : Place) ∈ p ::ₘ m) : (⟨w, none⟩ : Place) ∈ m := by
  rcases Multiset.mem_cons.mp hmem with rfl | hmem
  · exact absurd hstill hw
  · exact hmem

theorem sameAt_refl (s : Game) (fd : Fd) : SameAt s s fd :=
  ⟨rfl, rfl, rfl, fun _ => rfl, fun _ => id, fun _ => id⟩

theorem Wired.drop (h : Wired s (p ::ₘ m)) (hstill : p.wait.Still)
    (hrole : ∀ fd, p.wait.role fd = none) : Wired s m := by
  have hroles : ∀ fd, roles m fd = roles (p ::ₘ m) fd := fun fd => (roles_cons_none (hrole fd)).symm
  refine ⟨fun fd => (h.stage fd).congr (sameAt_refl s fd) (hroles fd), fun fd hfd => ?_,
    h.known.tail, h.born.tail hstill.newAgent, fun fd a hmap hc => ?_⟩
  · rw [hroles fd]
    exact h.fresh fd hfd
  · exact (h.served fd a hmap hc).congr rfl id (mem_of_still hstill id) (mem_of_still hstill id)

/-- A handler comes to a place without a role. -/
theorem Wired.add (h : Wired s m) (hrole : ∀ fd, p.wait.role fd = none) (hp : p.Admitted s) :
    Wired s (p ::ₘ m) := by
  refine ⟨fun fd => (h.stage fd).congr (sameAt_refl s fd) (roles_cons_none (hrole fd)),
    fun fd hfd => ?_,
    h.known.cons hp.names hp.forward, h.born.cons hp.newAgent hp.owed, fun fd a hmap hc => ?_⟩
  · rw [roles_cons_none (hrole fd)]
    exact h.fresh fd hfd
  · exact (h.served fd a hmap hc).congr rfl id Multiset.mem_cons_of_mem Multiset.mem_cons_of_mem

/-- A handler leaves a place and comes to another with the same role. -/
theorem Wired.replace (h : Wired s (p ::ₘ m)) (hstill : p.wait.Still)
    (hrole : ∀ fd, p'.wait.role fd = p.wait.role fd) (hp' : p'.Admitted s) :
    Wired s (p' ::ₘ m) := by
  have hroles : ∀ fd, roles (p' ::ₘ m) fd = roles (p ::ₘ m) fd := by
    intro fd
    cases hr : p.wait.role fd with
    | none => rw [roles_cons_none hr, roles_cons_none ((hrole fd).trans hr)]
    | some r => rw [roles_cons_some hr, roles_cons_some ((hrole fd).trans hr)]
  refine ⟨fun fd => (h.stage fd).congr (sameAt_refl s fd) (hroles fd), fun fd hfd => ?_,
    h.known.tail.cons hp'.names hp'.forward,
    (h.born.tail hstill.newAgent).cons hp'.newAgent hp'.owed, fun fd a hmap hc => ?_⟩
  · rw [hroles fd]
    exact h.fresh fd hfd
  · exact (h.served fd a hmap hc).congr rfl id
      (fun hmem => Multiset.mem_cons_of_mem (mem_of_still hstill id hmem))
      fun hmem => Multiset.mem_cons_of_mem (mem_of_still hstill id hmem)

/-! ## Changes that leave the connections alone -/

/-- Nothing changes that the wiring reads, or it changes for less. -/
structure Calm (s s' : Game) : Prop where
  agentfd : s'.agentfd = s.agentfd
  account : ∀ fd ∈ s'.agentAccount, fd ∈ s.agentAccount ∨ s.counted fd ≠ none
  connection : s'.connection = s.connection
  atGate : s'.atGate = s.atGate
  counted : s'.counted = s.counted
  held : s'.held = s.held
  nextFd : s'.nextFd = s.nextFd
  nextAgent : s'.nextAgent = s.nextAgent
  fd : ∀ a, (s'.agents a).fd = (s.agents a).fd
  started : ∀ a, (s'.agents a).started = (s.agents a).started
  userFd : ∀ a fd, (s'.agents a).userFd = some fd → (s.agents a).userFd = some fd
  exited : ∀ a, (s.agents a).exited = true → (s'.agents a).exited = true
  roomAgent : ∀ k a, s'.roomAgent k = some a →
    s.roomAgent k = some a ∨ (s.agents a).started = true

theorem Wired.calm (h : Wired s m) (hs : Calm s s') : Wired s' m := by
  have hcounted : ∀ fd a, s.counted fd = some a → s'.counted fd = some a := by
    intro fd a hc
    rwa [hs.counted]
  refine ⟨fun fd => ?_, fun fd hfd => ?_, ?_, ?_, fun fd a hmap hc => ?_⟩
  · refine (h.stage fd).congr ⟨?_, ?_, ?_, fun _ => ?_, fun a ha => ?_, hs.exited⟩ rfl
    · rw [hs.agentfd]
    · rw [hs.counted]
    · rw [hs.held]
    · rw [hs.connection]
    · rwa [hs.started]
  · rw [hs.agentfd, hs.counted]
    rw [hs.nextFd] at hfd
    exact h.fresh fd hfd
  · refine h.known.step hcounted (fun a fd huser => .inl (hs.userFd a fd huser))
      (fun a fd hstarted hfd => ?_) (fun fd hgate => ?_) (fun fd a serving hc => ?_)
        fun fd hfd => ?_
    · rw [hs.started] at hstarted
      rw [hs.fd] at hfd
      exact .inl ⟨hstarted, hfd⟩
    · rw [hs.atGate] at hgate
      exact .inl hgate
    · rw [hs.connection] at hc
      exact .inl ⟨serving, hc⟩
    · rw [hs.counted]
      exact hs.account fd hfd
  · refine h.born.step hs.nextAgent hs.fd hs.started (fun fd a hc => ?_) hs.roomAgent
    rw [hs.counted] at hc
    exact .inl hc
  · rw [hs.agentfd] at hmap
    rw [hs.counted] at hc
    refine (h.served fd a hmap hc).congr ?_ (fun hgate => ?_) id id
    · rw [hs.connection]
    · rwa [hs.atGate]

/-- An agent changes in its count and in what it was told, or loses its client. -/
theorem calm_setAgent {v : Agent} (hfd : v.fd = (s.agents a).fd)
    (hstarted : v.started = (s.agents a).started)
    (huserFd : v.userFd = (s.agents a).userFd ∨ v.userFd = none)
    (hexited : (s.agents a).exited = true → v.exited = true) : Calm s (s.setAgent a v) := by
  refine ⟨rfl, fun _ => .inl, rfl, rfl, rfl, rfl, rfl, rfl, fun b => ?_, fun b => ?_,
    fun b fd hb => ?_, fun b hb => ?_, fun _ _ => .inl⟩
  · rw [setAgent_agents]
    split
    · next h => rw [h, hfd]
    · rfl
  · rw [setAgent_agents]
    split
    · next h => rw [h, hstarted]
    · rfl
  · rw [setAgent_agents] at hb
    split at hb
    · next h =>
        subst h
        rcases huserFd with heq | hnone
        · rwa [heq] at hb
        · rw [hnone] at hb
          cases hb
    · exact hb
  · rw [setAgent_agents]
    split
    · next h => exact hexited (h ▸ hb)
    · exact hb

theorem Calm.trans {s'' : Game} (h : Calm s s') (h' : Calm s' s'') : Calm s s'' := by
  refine ⟨h'.agentfd.trans h.agentfd, fun fd hfd => ?_, h'.connection.trans h.connection,
    h'.atGate.trans h.atGate, h'.counted.trans h.counted, h'.held.trans h.held,
    h'.nextFd.trans h.nextFd, h'.nextAgent.trans h.nextAgent, fun a => (h'.fd a).trans (h.fd a),
    fun a => (h'.started a).trans (h.started a), fun a fd hfd => h.userFd a fd (h'.userFd a fd hfd),
    fun a ha => h'.exited a (h.exited a ha), fun k a hroom => ?_⟩
  · rcases h'.account fd hfd with hfd | hcounted
    · exact h.account fd hfd
    · exact .inr (h.counted ▸ hcounted)
  · rcases h'.roomAgent k a hroom with hroom | hstarted
    · exact h.roomAgent k a hroom
    · exact .inr (h.started a ▸ hstarted)

theorem calm_addConnectRef (a : Address) (r : ℤ) : Calm s (s.addConnectRef a r) :=
  calm_setAgent rfl rfl (.inl rfl) id

theorem calm_tell (a : Address) : Calm s (s.tell a) := calm_setAgent rfl rfl (.inl rfl) id

theorem calm_exit (a : Address) : Calm s (s.exit a) :=
  calm_setAgent rfl rfl (.inr rfl) fun _ => rfl

/-- Tables that have nothing to do with connections change. -/
theorem calm_rest {connected : Fd → Bool} {roomAccount : AList fun _ : Account => Room}
    {rooms : Room → Option (List Address)} {offLineTime : Room → Account → Option ℚ} {nextRoom : ℕ}
    {scans : ℕ} {seat : Account → Option Address} {entered : List Entrance} :
    Calm s { s with
      connected := connected, roomAccount := roomAccount, rooms := rooms, offLineTime :=
        offLineTime,
      nextRoom := nextRoom, scans := scans, seat := seat, entered := entered } :=
  ⟨rfl, fun _ => .inl, rfl, rfl, rfl, rfl, rfl, rfl, fun _ => rfl, fun _ => rfl, fun _ _ => id,
    fun _ => id, fun _ _ => .inl⟩

theorem calm_sit (a : Address) : Calm s (s.sit a) := (calm_addConnectRef a 1).trans calm_rest

theorem calm_rise (k : Account) (a : Address) : Calm s (s.rise k a) :=
  (calm_addConnectRef a (-1)).trans calm_rest

theorem calm_setRoom {room : Room} (ha : (s.agents a).started = true) :
    Calm s (s.setRoom room a) := by
  refine ⟨rfl, fun _ => .inl, rfl, rfl, rfl, rfl, rfl, rfl, fun _ => rfl, fun _ => rfl,
    fun _ _ => id, fun _ => id, fun k b hroom => ?_⟩
  rw [setRoom_roomAgent] at hroom
  split at hroom
  · exact .inr (Option.some.inj hroom ▸ ha)
  · exact .inl hroom

theorem calm_clearRoom (k : Account) : Calm s (s.clearRoom k) := by
  refine ⟨rfl, fun _ => .inl, rfl, rfl, rfl, rfl, rfl, rfl, fun _ => rfl, fun _ => rfl,
    fun _ _ => id, fun _ => id, fun k' b hroom => ?_⟩
  rw [clearRoom_roomAgent] at hroom
  split at hroom
  · cases hroom
  · exact .inl hroom

theorem calm_enter {account : Account} {origin : Fd} (hfd : s.counted fd ≠ none) :
    Calm s (s.enter account fd origin) := by
  refine ⟨rfl, fun f hf => ?_, rfl, rfl, rfl, rfl, rfl, rfl, fun _ => rfl, fun _ => rfl,
    fun _ _ => id, fun _ => id, fun _ _ => .inl⟩
  rcases (AList.mem_insert _).mp hf with rfl | hf
  · exact .inr hfd
  · exact .inl hf

/-! ## Steps of one connection -/

theorem stages_at (h : ∀ f, Stage s m f) (hs : ∀ f, f ≠ fd → SameAt s s' f)
    (hroles : ∀ f, f ≠ fd → roles m' f = roles m f)
    (hfd : Stage s' m' fd) : ∀ f, Stage s' m' f := by
  intro f
  by_cases hf : f = fd
  · exact hf ▸ hfd
  · exact (h f).congr (hs f hf) (hroles f hf)

/-- The place has a role for one connection only. -/
def Wait.At (fd : Fd) (w : Wait) : Prop := ∀ f, f ≠ fd → w.role f = none

theorem roles_replace (hp : p.wait.At fd) (hp' : p'.wait.At fd) {f : Fd} (hf : f ≠ fd) :
    roles (p' ::ₘ m) f = roles (p ::ₘ m) f := by
  rw [roles_cons_none (hp f hf), roles_cons_none (hp' f hf)]

theorem Wired.connect (h : Wired s m) (account : Account) :
    Wired s.connect (⟨.asked s.nextFd account, none⟩ ::ₘ m) := by
  obtain ⟨hroles, hagentfd, hcounted⟩ := h.fresh s.nextFd le_rfl
  have hat : Wait.At s.nextFd (.asked s.nextFd account) := fun f hf => if_neg (Ne.symm hf)
  have hconnection : ∀ f, f ≠ s.nextFd → s.connect.connection f = s.connection f := fun f hf =>
    Function.update_of_ne hf _ _
  have hnew : s.connect.connection s.nextFd = some ⟨none, true⟩ := Function.update_self _ _ _
  refine ⟨stages_at h.stage (fun f hf => ?_) (fun f hf => roles_cons_none (hat f hf))
    (.work (if_pos rfl) hroles ⟨hagentfd, hcounted, hnew⟩), fun f hf => ?_, ?_, ?_,
    fun f a hmap hc => ?_⟩
  · exact ⟨rfl, rfl, rfl, fun _ => hconnection f hf, fun _ => id, fun _ => id⟩
  · have hlt : s.nextFd < f := hf
    rw [roles_cons_none (hat f hlt.ne')]
    exact h.fresh f hlt.le
  · have hknown : Known s.connect m := by
      refine h.known.step (fun _ _ => id) (fun _ _ => .inl) (fun _ _ hs hf => .inl ⟨hs, hf⟩)
        (fun _ => .inl) (fun f a serving hc => ?_) fun _ => .inl
      by_cases hf : f = s.nextFd
      · rw [hf, hnew] at hc
        cases hc
      · rw [hconnection f hf] at hc
        exact .inl ⟨serving, hc⟩
    exact hknown.cons (fun f hf => absurd hf List.not_mem_nil) fun f a hwait => by cases hwait
  · have hborn : Born s.connect m :=
      h.born.step rfl (fun _ => rfl) (fun _ => rfl) (fun _ _ => .inl) fun _ _ => .inl
    exact hborn.cons rfl fun a ha => absurd ha List.not_mem_nil
  · have hf : f ≠ s.nextFd := by
      rintro rfl
      exact Option.some_ne_none a (hmap.symm.trans hagentfd)
    exact (h.served f a hmap hc).congr (hconnection f hf) id Multiset.mem_cons_of_mem
      Multiset.mem_cons_of_mem

theorem Wired.lt_of_role {r : Role} (h : Wired s (p ::ₘ m)) (hrole : p.wait.role fd = some r) :
    fd < s.nextFd := by
  by_contra hge
  have hroles := (h.fresh fd (not_lt.mp hge)).1
  rw [roles_cons_some hrole] at hroles
  exact Multiset.cons_ne_zero hroles

theorem Wired.lt_of_counted (h : Wired s m) (hcounted : s.counted fd ≠ none) : fd < s.nextFd := by
  by_contra hge
  exact hcounted (h.fresh fd (not_lt.mp hge)).2.2

/-- The parts of the invariant behind a step of one connection. -/
theorem Wired.step (h : Wired s m) (hfd : fd < s.nextFd) (hnextFd : s'.nextFd = s.nextFd)
    (hs : ∀ f, f ≠ fd → SameAt s s' f) (hroles : ∀ f, f ≠ fd → roles m' f = roles m f)
    (hstage : Stage s' m' fd) (hknown : Known s' m') (hborn : Born s' m')
    (hserved : ∀ f a, s'.agentfd f = some a → s'.counted f = some a → Served s' m' f a) :
    Wired s' m' := by
  refine ⟨stages_at h.stage hs hroles hstage, fun f hf => ?_, hknown, hborn, hserved⟩
  rw [hnextFd] at hf
  have hne : f ≠ fd := (hfd.trans_le hf).ne'
  rw [hroles f hne, (hs f hne).agentfd, (hs f hne).counted]
  exact h.fresh f hf

theorem at_of_if {r : Role} (hw : ∀ f, p.wait.role f = if fd = f then some r else none) :
    p.wait.At fd := fun f hf => (hw f).trans (if_neg (Ne.symm hf))

/-- A login or a count is given up, or an agent cannot count the end of a connection. -/
theorem Wired.abandon {r : Role} (h : Wired s (p ::ₘ m)) (hstill : p.wait.Still)
    (hrole : ∀ f, p.wait.role f = if fd = f then some r else none)
    (hrests : r.Holds s fd → Rests s fd) : Wired s m := by
  have hrole_fd : p.wait.role fd = some r := (hrole fd).trans (if_pos rfl)
  obtain ⟨hzero, hholds⟩ := (h.stage fd).holds hrole_fd
  refine h.step (h.lt_of_role hrole_fd) rfl (fun f _ => sameAt_refl s f)
    (fun f hf => (roles_cons_none (at_of_if hrole f hf)).symm) (.rest hzero (hrests hholds))
      h.known.tail
    (h.born.tail hstill.newAgent) fun f a hmap hc => ?_
  exact (h.served f a hmap hc).congr rfl id (mem_of_still hstill id) (mem_of_still hstill id)

/-- The watchdog knows the connection of an agent that is in a room. -/
theorem Wired.again (h : Wired s (⟨.found fd a, none⟩ ::ₘ m)) :
    Wired (s.setAgentfd fd a) (⟨.returning a fd, none⟩ ::ₘ m) := by
  have hrole : Wait.role fd (.found fd a) = some .login := if_pos rfl
  obtain ⟨hzero, hagentfd, hcounted, hconnection⟩ := (h.stage fd).holds hrole
  have hself : (s.setAgentfd fd a).agentfd fd = some a := Function.update_self _ _ _
  have hother : ∀ f, f ≠ fd → (s.setAgentfd fd a).agentfd f = s.agentfd f := fun f hf =>
    Function.update_of_ne hf _ _
  refine h.step (h.lt_of_role hrole) rfl (fun f hf => ?_)
    (fun f hf => roles_replace (at_of_if fun _ => rfl) (at_of_if fun _ => rfl) hf)
    (.work (r := .counting a) (if_pos rfl) hzero ⟨hself, hcounted, hconnection⟩) ?_ ?_
    fun f b hmap hc => ?_
  · exact ⟨hother f hf, rfl, rfl, fun _ => rfl, fun _ => id, fun _ => id⟩
  · have hknown : Known (s.setAgentfd fd a) m :=
      ⟨h.known.userFd, h.known.fd, h.known.atGate, h.known.agent, h.known.account,
        h.known.tail.names, h.known.tail.forward⟩
    exact hknown.cons (fun f hf => absurd hf List.not_mem_nil) fun f b hwait => by cases hwait
  · have hborn : Born (s.setAgentfd fd a) m :=
      (h.born.tail rfl).step rfl (fun _ => rfl) (fun _ => rfl) (fun _ _ => .inl) fun _ _ => .inl
    refine hborn.cons rfl fun b hb => ?_
    exact h.born.owed _ (Multiset.mem_cons_self _ _) b hb
  · have hf : f ≠ fd := by
      rintro rfl
      exact Option.some_ne_none b (hc.symm.trans hcounted)
    rw [hother f hf] at hmap
    refine (h.served f b hmap hc).congr rfl id (fun hmem => ?_) fun hmem => ?_
    · exact Multiset.mem_cons_of_mem (mem_of_still (p := ⟨.found fd a, none⟩) trivial id hmem)
    · exact Multiset.mem_cons_of_mem (mem_of_still (p := ⟨.found fd a, none⟩) trivial id hmem)

theorem countP_starting (a : Address) (o : Option Fd) :
    (⟨.starting a o, none⟩ ::ₘ m).countP (Place.Starts a) = m.countP (Place.Starts a) + 1 :=
  Multiset.countP_cons_of_pos _ (by rfl)

theorem countP_starting_of_ne {b : Address} (hb : b ≠ a) (o : Option Fd) :
    (⟨.starting a o, none⟩ ::ₘ m).countP (Place.Starts b) = m.countP (Place.Starts b) :=
  Multiset.countP_cons_of_neg _ fun h => hb (Option.some.inj h).symm

theorem Born.unborn (h : Born s m) : (s.agents s.nextAgent).started = false := by
  by_contra htrue
  exact absurd (h.started _ (Bool.eq_true_of_not_eq_false htrue)) (lt_irrefl _)

theorem Born.make {account : Account} {o : Option Fd}
    (h : Born s (⟨.making o account, none⟩ ::ₘ m)) :
    Born (s.newservice account o) (⟨.starting s.nextAgent o, none⟩ ::ₘ m) := by
  have hstarted : ∀ b, ((s.newservice account o).agents b).started = (s.agents b).started := by
    intro b
    rw [newservice_agents]
    split
    · next hb => rw [hb]
    · rfl
  have ht := h.tail rfl
  refine ⟨fun b => ?_, fun q hq b f hwait => ?_, fun b hb => ?_, fun f b hc => ?_,
    fun q hq b hb => ?_, fun k b hroom => ?_⟩
  · have hcount := ht.starts b
    rw [hstarted b]
    by_cases hb : b = s.nextAgent
    · subst hb
      rw [if_neg fun hlt => lt_irrefl _ hlt.1] at hcount
      rw [countP_starting, hcount, if_pos ⟨Nat.lt_succ_self _, h.unborn⟩]
    · rw [countP_starting_of_ne hb, hcount]
      have hlt : b < s.nextAgent + 1 ↔ b < s.nextAgent :=
        Nat.lt_succ_iff_lt_or_eq.trans (or_iff_left hb)
      exact if_congr (and_congr_left fun _ => hlt.symm) rfl rfl
  · rcases Multiset.mem_cons.mp hq with rfl | hq
    · obtain ⟨rfl, rfl⟩ := Wait.starting.inj hwait
      rw [newservice_agents, if_pos rfl]
    · rw [newservice_agents, if_neg, ht.fd q hq b f hwait]
      rintro rfl
      have hpos : 0 < m.countP (Place.Starts s.nextAgent) :=
        Multiset.countP_pos.mpr ⟨q, hq, by simp [Place.Starts, hwait, Wait.newAgent]⟩
      rw [ht.starts, if_neg fun hlt => lt_irrefl _ hlt.1] at hpos
      exact lt_irrefl _ hpos
  · rw [hstarted] at hb
    exact (ht.started b hb).trans (Nat.lt_succ_self _)
  · rw [hstarted]
    exact ht.counted f b hc
  · rw [hstarted]
    rcases Multiset.mem_cons.mp hq with rfl | hq
    · exact absurd hb List.not_mem_nil
    · exact ht.owed q hq b hb
  · rw [hstarted]
    exact ht.roomAgent k b hroom

theorem Born.unstarted {o : Option Fd} (h : Born s (⟨.starting a o, none⟩ ::ₘ m)) :
    a < s.nextAgent ∧ (s.agents a).started = false := by
  have hcount := h.starts a
  rw [countP_starting] at hcount
  by_contra hnot
  rw [if_neg hnot] at hcount
  omega

theorem Born.start {o : Option Fd} (h : Born s (⟨.starting a o, none⟩ ::ₘ m)) :
    Born (s.start a o) m := by
  obtain ⟨-, -, -, -, hroomAgent, -, hnextAgent⟩ := start_same (s := s) (a := a) o
  have hstarted : ∀ b, ((s.start a o).agents b).started =
      if b = a then true else (s.agents b).started := by
    intro b
    rw [start_agents]
    split <;> rfl
  have hmono : ∀ b, (s.agents b).started = true → ((s.start a o).agents b).started = true := by
    intro b hb
    rw [hstarted]
    split
    · rfl
    · exact hb
  have hnew := h.unstarted
  have hcount := h.starts a
  rw [countP_starting, if_pos hnew] at hcount
  refine ⟨fun b => ?_, fun q hq b f hwait => ?_, fun b hb => ?_, fun f b hc => ?_,
    fun q hq b hb => hmono b (h.owed q (Multiset.mem_cons_of_mem hq) b hb), fun k b hroom => ?_⟩
  · rw [hnextAgent, hstarted]
    by_cases hb : b = a
    · subst hb
      rw [if_pos rfl, if_neg (by simp)]
      omega
    · rw [if_neg hb, ← h.starts b, countP_starting_of_ne hb]
  · have hfd := h.fd q (Multiset.mem_cons_of_mem hq) b f hwait
    rw [start_agents]
    split
    · next hb => rw [← hb, hfd]
    · exact hfd
  · rw [hnextAgent]
    rw [hstarted] at hb
    split at hb
    · next hba => exact hba ▸ hnew.1
    · exact h.started b hb
  · rcases start_counted hc with hold | ⟨-, rfl⟩
    · exact hmono b (h.counted f b hold)
    · rw [hstarted, if_pos rfl]
  · rw [hroomAgent] at hroom
    exact hmono b (h.roomAgent k b hroom)

/-- The tables of connections are as they are when an agent is made. -/
theorem Known.make (h : Known s m) (account : Account) (o : Option Fd)
    (hunborn : (s.agents s.nextAgent).started = false) : Known (s.newservice account o) m := by
  refine h.step (fun _ _ => id) (fun a fd huser => ?_) (fun a fd hstarted hfd => ?_) (fun _ => .inl)
    (fun _ _ serving hc => .inl ⟨serving, hc⟩) fun _ => .inl
  · rw [newservice_agents] at huser
    split at huser
    · next ha => exact .inl (ha ▸ huser)
    · exact .inl huser
  · rw [newservice_agents] at hstarted hfd
    split at hstarted
    · exact absurd (hunborn.symm.trans hstarted) Bool.false_ne_true
    · next ha =>
        rw [if_neg ha] at hfd
        exact .inl ⟨hstarted, hfd⟩

theorem sameAt_newservice (account : Account) (o : Option Fd) (fd : Fd) :
    SameAt s (s.newservice account o) fd := by
  refine ⟨rfl, rfl, rfl, fun _ => rfl, fun a ha => ?_, fun a ha => ?_⟩
  · rw [newservice_agents]
    split
    · next h => exact h ▸ ha
    · exact ha
  · rw [newservice_agents]
    split
    · next h => exact h ▸ ha
    · exact ha

theorem Wired.makeAi {account : Account} (h : Wired s (⟨.making none account, none⟩ ::ₘ m)) :
    Wired (s.newservice account none) (⟨.starting s.nextAgent none, none⟩ ::ₘ m) := by
  have hroles : ∀ fd, roles (⟨.starting s.nextAgent none, none⟩ ::ₘ m) fd =
      roles (⟨.making none account, none⟩ ::ₘ m) fd := by
    intro fd
    rw [roles_cons_none (p := ⟨.making none account, none⟩) rfl, roles_cons_none rfl]
  refine ⟨fun fd => (h.stage fd).congr (sameAt_newservice account none fd) (hroles fd),
    fun fd hfd => ?_, ?_, h.born.make, fun fd a hmap hc => ?_⟩
  · rw [hroles fd]
    exact h.fresh fd hfd
  · have hknown := h.known.tail.make account none h.born.unborn
    exact hknown.cons (fun f hf => absurd hf List.not_mem_nil) fun f b hwait => by cases hwait
  · refine (h.served fd a hmap hc).congr rfl id (fun hmem => ?_) fun hmem => ?_
    · exact Multiset.mem_cons_of_mem (mem_of_still (p := ⟨.making none account, none⟩)
        trivial id hmem)
    · exact Multiset.mem_cons_of_mem (mem_of_still (p := ⟨.making none account, none⟩)
        trivial id hmem)

/-- An agent is made for a connection, and the watchdog knows both. -/
theorem Wired.make {account : Account} (h : Wired s (⟨.making (some fd) account, none⟩ ::ₘ m)) :
    Wired ((s.newservice account (some fd)).setAgentfd fd s.nextAgent)
      (⟨.starting s.nextAgent (some fd), none⟩ ::ₘ m) := by
  have hrole : Wait.role fd (.making (some fd) account) = some .login := if_pos rfl
  obtain ⟨hzero, hagentfd, hcounted, hconnection⟩ := (h.stage fd).holds hrole
  have hself : ((s.newservice account (some fd)).setAgentfd fd s.nextAgent).agentfd fd =
      some s.nextAgent := Function.update_self _ _ _
  have hother : ∀ f, f ≠ fd →
      ((s.newservice account (some fd)).setAgentfd fd s.nextAgent).agentfd f = s.agentfd f :=
    fun f hf => Function.update_of_ne hf _ _
  have hat : Wait.At fd (.making (some fd) account) := fun f hf =>
    if_neg fun heq => hf (Option.some.inj heq).symm
  have hat' : Wait.At fd (.starting s.nextAgent (some fd)) := fun f hf =>
    if_neg fun heq => hf (Option.some.inj heq).symm
  refine h.step (h.lt_of_role hrole) rfl (fun f hf => ?_) (fun f hf => roles_replace hat hat' hf)
    (.work (r := .counting s.nextAgent) (if_pos rfl) hzero ⟨hself, hcounted, hconnection⟩) ?_ ?_
    fun f b hmap hc => ?_
  · have hsame := sameAt_newservice (s := s) account (some fd) f
    exact ⟨hother f hf, rfl, rfl, fun _ => rfl, hsame.started, hsame.exited⟩
  · have hmade := h.known.tail.make account (some fd) h.born.unborn
    have hknown : Known ((s.newservice account (some fd)).setAgentfd fd s.nextAgent) m :=
      ⟨hmade.userFd, hmade.fd, hmade.atGate, hmade.agent, hmade.account, hmade.names, hmade.forward⟩
    exact hknown.cons (fun f hf => absurd hf List.not_mem_nil) fun f b hwait => by cases hwait
  · have hmade := h.born.make
    exact ⟨hmade.starts, hmade.fd, hmade.started, hmade.counted, hmade.owed, hmade.roomAgent⟩
  · have hf : f ≠ fd := by
      rintro rfl
      exact Option.some_ne_none b (hc.symm.trans hcounted)
    rw [hother f hf] at hmap
    refine (h.served f b hmap hc).congr rfl id (fun hmem => ?_) fun hmem => ?_
    · exact Multiset.mem_cons_of_mem (mem_of_still (p := ⟨.making (some fd) account, none⟩)
        trivial id hmem)
    · exact Multiset.mem_cons_of_mem (mem_of_still (p := ⟨.making (some fd) account, none⟩)
        trivial id hmem)

/-- What `Start` leaves of who names connections. -/
theorem Known.start {o : Option Fd} (h : Known s m) (hfd : (s.agents a).fd = o)
    (hcounted : ∀ fd, o = some fd → s.counted fd = none) : Known (s.start a o) m := by
  obtain ⟨-, haccount, hconnection, hatGate, -, -, -⟩ := start_same (s := s) (a := a) o
  have hself : ∀ fd, o = some fd → (s.start a o).counted fd = some a := by
    rintro fd rfl
    exact Function.update_self _ _ _
  refine h.step (fun fd b hc => ?_) (fun b fd huser => ?_) (fun b fd hstarted hclient => ?_)
    (fun fd hgate => ?_) (fun fd b serving hc => ?_) fun fd hkey => ?_
  · cases o with
    | none => exact hc
    | some f =>
        have hne : fd ≠ f := by
          rintro rfl
          exact Option.some_ne_none b (hc.symm.trans (hcounted fd rfl))
        exact (Function.update_of_ne hne _ _).trans hc
  · rw [start_agents] at huser
    split at huser
    · next hb => exact .inr (hb ▸ hself fd huser)
    · exact .inl huser
  · rw [start_agents] at hstarted hclient
    split at hclient
    · next hb => exact .inr (hb ▸ hself fd (hfd.symm.trans hclient))
    · next hb =>
        rw [if_neg hb] at hstarted
        exact .inl ⟨hstarted, hclient⟩
  · rw [hatGate] at hgate
    exact .inl hgate
  · rw [hconnection] at hc
    exact .inl ⟨serving, hc⟩
  · rw [haccount] at hkey
    exact .inl hkey

theorem sameAt_start {o : Option Fd} {f : Fd} (hf : o ≠ some f) : SameAt s (s.start a o) f := by
  have hkept : ∀ b, (s.agents b).started = true → ((s.start a o).agents b).started = true := by
    intro b hb
    rw [start_agents]
    split
    · rfl
    · exact hb
  have hkept' : ∀ b, (s.agents b).exited = true → ((s.start a o).agents b).exited = true := by
    intro b hb
    rw [start_agents]
    split
    · next h => exact h ▸ hb
    · exact hb
  cases o with
  | none => exact ⟨rfl, rfl, rfl, fun _ => rfl, hkept, hkept'⟩
  | some fd =>
      have hne : f ≠ fd := fun h => hf (congrArg some h.symm)
      exact ⟨rfl, Function.update_of_ne hne _ _, Function.update_of_ne hne _ _, fun _ => rfl, hkept,
        hkept'⟩

theorem Wired.startAi (h : Wired s (⟨.starting a none, none⟩ ::ₘ m)) :
    Wired (s.start a none) m := by
  have hroles : ∀ fd, roles m fd = roles (⟨.starting a none, none⟩ ::ₘ m) fd := fun fd =>
    (roles_cons_none rfl).symm
  have hfd := h.born.fd _ (Multiset.mem_cons_self _ _) a none rfl
  refine ⟨fun fd => (h.stage fd).congr (sameAt_start (Option.some_ne_none fd).symm) (hroles fd),
    fun fd hf => ?_,
    h.known.tail.start hfd (fun fd hnone => by cases hnone), h.born.start, fun fd b hmap hc => ?_⟩
  · rw [hroles fd]
    exact h.fresh fd hf
  · have hmem : ∀ q : Place, q ≠ ⟨.starting a none, none⟩ → q ∈ ⟨.starting a none, none⟩ ::ₘ m →
        q ∈ m := fun q hne hq => (Multiset.mem_cons.mp hq).resolve_left hne
    exact (h.served fd b hmap hc).congr rfl id (hmem _ (by simp)) (hmem _ (by simp))

/-- An agent counts the connection, and the gate is to hand it over. -/
theorem Wired.take {w : Wait} (h : Wired s (⟨w, none⟩ ::ₘ m))
    (hrole : ∀ f, w.role f = if fd = f then some (.counting a) else none)
    (hw : (∀ f b, w ≠ .forward f b) ∧ ∀ f, w ≠ .closing f) (hnextFd : s'.nextFd = s.nextFd)
    (hs : ∀ f, f ≠ fd → SameAt s s' f) (hagentfd : s'.agentfd = s.agentfd)
    (hconnection : s'.connection = s.connection) (hatGate : s'.atGate = s.atGate)
    (hcounted : s'.counted fd = some a) (hheld : s'.held fd = true) (hknown : Known s' m)
    (hborn : Born s' m) : Wired s' (⟨.forward fd a, none⟩ ::ₘ m) := by
  have hfd : Wait.role fd w = some (.counting a) := (hrole fd).trans (if_pos rfl)
  obtain ⟨hzero, hmap, -, hnew⟩ := (h.stage fd).holds hfd
  have hroles : ∀ f, f ≠ fd → roles (⟨.forward fd a, none⟩ ::ₘ m) f =
      roles (⟨w, none⟩ ::ₘ m) f := by
    intro f hf
    exact roles_replace (at_of_if hrole) (fun _ _ => rfl) hf
  refine h.step (h.lt_of_role hfd) hnextFd hs hroles (.rest ?_ (.mapped a ?_ hcounted hheld)) ?_ ?_
    fun f b hmap' hc => ?_
  · rw [roles_cons_none rfl, hzero]
  · rw [hagentfd, hmap]
  · refine hknown.cons (fun f hf => absurd hf List.not_mem_nil) fun f b hwait => ?_
    obtain ⟨rfl, rfl⟩ := Wait.forward.inj hwait
    exact hcounted
  · exact hborn.cons rfl fun b hb => absurd hb List.not_mem_nil
  · by_cases hf : f = fd
    · subst hf
      obtain rfl := Option.some.inj (hc.symm.trans hcounted)
      refine ⟨.inr (Multiset.mem_cons_self _ _), fun hnone => ?_, fun c hsome => ?_⟩
      · rw [hconnection, hnew] at hnone
        cases hnone
      · rw [hconnection, hnew] at hsome
        exact Option.some.inj hsome ▸ rfl
    · rw [hagentfd] at hmap'
      rw [(hs f hf).counted] at hc
      have hmem : ∀ w', w' ≠ w → (⟨w', none⟩ : Place) ∈ ⟨w, none⟩ ::ₘ m →
          (⟨w', none⟩ : Place) ∈ ⟨.forward fd a, none⟩ ::ₘ m := by
        intro w' hne hq
        refine Multiset.mem_cons_of_mem ((Multiset.mem_cons.mp hq).resolve_left fun heq => hne ?_)
        exact (Place.mk.inj heq).1
      refine (h.served f b hmap' hc).congr (by rw [hconnection])
        (fun hgate => by rwa [hatGate]) ?_ ?_
      · exact hmem _ (hw.1 f b).symm
      · exact hmem _ (hw.2 f).symm

theorem Wired.start (h : Wired s (⟨.starting a (some fd), none⟩ ::ₘ m)) :
    Wired (s.start a (some fd)) (⟨.forward fd a, none⟩ ::ₘ m) := by
  have hrole : ∀ f, Wait.role f (.starting a (some fd)) = if fd = f then some (.counting a)
      else none := by
    intro f
    simp [Wait.role]
  obtain ⟨-, -, hcounted, -⟩ := (h.stage fd).holds (p := ⟨.starting a (some fd), none⟩)
    ((hrole fd).trans (if_pos rfl))
  have hfd := h.born.fd _ (Multiset.mem_cons_self _ _) a (some fd) rfl
  refine h.take hrole ⟨by simp, by simp⟩ rfl (fun f hf => sameAt_start ?_) rfl rfl rfl
    (Function.update_self _ _ _) (Function.update_self _ _ _) (h.known.tail.start hfd ?_)
      h.born.start
  · exact fun heq => hf (Option.some.inj heq).symm
  · rintro f heq
    obtain rfl := Option.some.inj heq
    exact hcounted

theorem reconnect_agents (fd : Fd) (b : Address) : (s.reconnect a fd).agents b =
    if b = a then
      { s.agents a with userFd := some fd, refConnect := (s.agents a).refConnect + 1 }
    else s.agents b := setAgent_agents _ b

theorem Wired.reconnect (h : Wired s (⟨.returning a fd, none⟩ ::ₘ m)) :
    Wired (s.reconnect a fd) (⟨.forward fd a, none⟩ ::ₘ m) := by
  have hrole : ∀ f, Wait.role f (.returning a fd) = if fd = f then some (.counting a) else none :=
    fun _ => rfl
  obtain ⟨-, -, hcounted, -⟩ := (h.stage fd).holds (p := ⟨.returning a fd, none⟩)
    ((hrole fd).trans (if_pos rfl))
  have hself : (s.reconnect a fd).counted fd = some a := Function.update_self _ _ _
  have hother : ∀ f, f ≠ fd → (s.reconnect a fd).counted f = s.counted f := fun f hf =>
    Function.update_of_ne hf _ _
  have hstarted : ∀ b, ((s.reconnect a fd).agents b).started = (s.agents b).started := by
    intro b
    rw [reconnect_agents]
    split
    · next hb => rw [hb]
    · rfl
  have hclient : ∀ b, ((s.reconnect a fd).agents b).fd = (s.agents b).fd := by
    intro b
    rw [reconnect_agents]
    split
    · next hb => rw [hb]
    · rfl
  have ha : (s.agents a).started = true :=
    h.born.owed _ (Multiset.mem_cons_self _ _) a (List.mem_singleton_self a)
  refine h.take hrole ⟨by simp, by simp⟩ rfl (fun f hf => ?_) rfl rfl rfl hself
    (Function.update_self _ _ _) ?_ ?_
  · refine ⟨rfl, hother f hf, Function.update_of_ne hf _ _, fun _ => rfl, fun b hb => ?_,
      fun b hb => ?_⟩
    · rwa [hstarted]
    · rw [reconnect_agents]
      split
      · next hba => exact hba ▸ hb
      · exact hb
  · refine h.known.tail.step (fun f b hc => ?_) (fun b f huser => ?_) (fun b f hs hf => ?_)
      (fun _ => .inl) (fun _ _ serving hc => .inl ⟨serving, hc⟩) fun _ => .inl
    · have hne : f ≠ fd := by
        rintro rfl
        exact Option.some_ne_none b (hc.symm.trans hcounted)
      exact (hother f hne).trans hc
    · rw [reconnect_agents] at huser
      split at huser
      · next hb =>
          obtain rfl := Option.some.inj huser
          exact .inr (hb ▸ hself)
      · exact .inl huser
    · rw [hstarted] at hs
      rw [hclient] at hf
      exact .inl ⟨hs, hf⟩
  · refine (h.born.tail rfl).step rfl hclient hstarted (fun f b hc => ?_) fun _ _ => .inl
    by_cases hf : f = fd
    · rw [hf, hself] at hc
      exact .inr (Option.some.inj hc ▸ ha)
    · rw [hother f hf] at hc
      exact .inl hc

theorem mem_of_ne {q : Place} (hq : q ∈ p ::ₘ m) (hne : q ≠ p) : q ∈ m :=
  (Multiset.mem_cons.mp hq).resolve_left hne

/-- What the watchdog says of a connection that an agent has counted. -/
theorem Wired.mapped (h : Wired s m) (hmap : s.agentfd fd = some a)
    (hcounted : s.counted fd ≠ none) :
    roles m fd = 0 ∧ s.counted fd = some a ∧ s.held fd = true := by
  rcases h.stage fd with ⟨hzero, hrests⟩ | ⟨r, -, hholds⟩
  · cases hrests with
    | idle hagentfd _ => exact absurd (hmap.symm.trans hagentfd) (Option.some_ne_none a)
    | lost b _ hnone _ _ => exact absurd hnone hcounted
    | mapped b hagentfd hc hheld =>
        obtain rfl := Option.some.inj (hmap.symm.trans hagentfd)
        exact ⟨hzero, hc, hheld⟩
    | kept b hagentfd _ _ _ => exact absurd (hmap.symm.trans hagentfd) (Option.some_ne_none a)
    | gone b hagentfd _ _ => exact absurd (hmap.symm.trans hagentfd) (Option.some_ne_none a)
  · cases r with
    | login => exact absurd hholds.2.1 hcounted
    | counting b => exact absurd hholds.2.1 hcounted
    | leaving b => exact absurd (hmap.symm.trans hholds.1) (Option.some_ne_none a)

theorem role_counting {w : Wait} (h : w.role fd = some (.counting a)) :
    w.newAgent = some a ∨ a ∈ w.owed := by
  unfold Wait.role at h
  split at h <;> try cases h
  all_goals
    split at h
    · simp_all [Wait.newAgent, Wait.owed]
    · cases h

theorem Wired.lt_of_mapped (h : Wired s m) (hmap : s.agentfd fd = some a) : a < s.nextAgent := by
  rcases h.stage fd with ⟨-, hrests⟩ | ⟨r, hroles, hholds⟩
  · cases hrests with
    | idle hagentfd _ => exact absurd (hmap.symm.trans hagentfd) (Option.some_ne_none a)
    | lost b hagentfd _ hstarted _ =>
        obtain rfl := Option.some.inj (hmap.symm.trans hagentfd)
        exact h.born.started a hstarted
    | mapped b hagentfd hc _ =>
        obtain rfl := Option.some.inj (hmap.symm.trans hagentfd)
        exact h.born.started a (h.born.counted fd a hc)
    | kept b hagentfd _ _ _ => exact absurd (hmap.symm.trans hagentfd) (Option.some_ne_none a)
    | gone b hagentfd _ _ => exact absurd (hmap.symm.trans hagentfd) (Option.some_ne_none a)
  · have hmem : r ∈ roles m fd := hroles ▸ Multiset.mem_singleton_self r
    obtain ⟨p, hp, hrole⟩ := (Multiset.mem_filterMap _ _).mp hmem
    cases r with
    | login => exact absurd (hmap.symm.trans hholds.1) (Option.some_ne_none a)
    | leaving b => exact absurd (hmap.symm.trans hholds.1) (Option.some_ne_none a)
    | counting b =>
        obtain rfl := Option.some.inj (hmap.symm.trans hholds.1)
        rcases role_counting hrole with hnew | howed
        · have hpos : 0 < m.countP (Place.Starts a) := Multiset.countP_pos.mpr ⟨p, hp, hnew⟩
          by_contra hge
          rw [h.born.starts, if_neg fun hlt => hge hlt.1] at hpos
          exact lt_irrefl 0 hpos
        · exact h.born.started a (h.born.owed p hp a howed)

theorem Wired.forward {c : Connection} (h : Wired s (⟨.forward fd a, none⟩ ::ₘ m))
    (hc : s.connection fd = some c) : Wired (s.forward fd a c) m := by
  have hcounted : s.counted fd = some a :=
    h.known.forward _ (Multiset.mem_cons_self _ _) fd a rfl
  have hsome : s.counted fd ≠ none := hcounted ▸ Option.some_ne_none a
  have hself : (s.forward fd a c).connection fd = some { c with agent := some a } :=
    Function.update_self _ _ _
  have hother : ∀ f, f ≠ fd → (s.forward fd a c).connection f = s.connection f := fun f hf =>
    Function.update_of_ne hf _ _
  have hgate : (s.forward fd a c).atGate fd = (s.atGate fd || c.serving) :=
    Function.update_self _ _ _
  have hgate' : ∀ f, f ≠ fd → (s.forward fd a c).atGate f = s.atGate f := fun f hf =>
    Function.update_of_ne hf _ _
  have hsame : ∀ f, SameAt s (s.forward fd a c) f := fun f =>
    ⟨rfl, rfl, rfl, fun hnone => hother f fun hf => hsome (hf ▸ hnone), fun _ => id, fun _ => id⟩
  refine h.step (h.lt_of_counted hsome) rfl (fun f _ => hsame f)
    (fun f _ => (roles_cons_none rfl).symm)
      ((h.stage fd).congr (hsame fd) (roles_cons_none rfl).symm)
    ?_ ?_ fun f b hmap hb => ?_
  · refine h.known.tail.step (fun _ _ => id) (fun _ _ => .inl) (fun _ _ hs hf => .inl ⟨hs, hf⟩)
      (fun f hatGate => ?_) (fun f b serving hagent => ?_) fun _ => .inl
    · by_cases hf : f = fd
      · exact .inr (hf ▸ hsome)
      · rw [hgate' f hf] at hatGate
        exact .inl hatGate
    · by_cases hf : f = fd
      · rw [hf, hself, Option.some.injEq, Connection.mk.injEq, Option.some.injEq] at hagent
        obtain ⟨rfl, -⟩ := hagent
        exact .inr (hf ▸ hcounted)
      · rw [hother f hf] at hagent
        exact .inl ⟨serving, hagent⟩
  · exact (h.born.tail rfl).step rfl (fun _ => rfl) (fun _ => rfl) (fun _ _ => .inl) fun _ _ => .inl
  · have hserved := h.served f b hmap hb
    by_cases hf : f = fd
    · subst hf
      have hserving := hserved.serving c hc
      refine ⟨.inl (.inl ?_), fun hnone => ?_, fun c' hc' => ?_⟩
      · rw [hgate, hserving, Bool.or_true]
      · rw [hself] at hnone
        cases hnone
      · rw [hself] at hc'
        exact Option.some.inj hc' ▸ hserving
    · refine hserved.congr (hother f hf) (fun hatGate => (hgate' f hf).trans hatGate)
        (fun hmem => ?_)
        fun hmem => mem_of_ne hmem (by simp)
      exact mem_of_ne hmem fun heq => hf (Wait.forward.inj (Place.mk.inj heq).1).1

/-- The gate does not have the connection any more. -/
theorem Wired.fail (h : Wired s (⟨.forward fd a, none⟩ ::ₘ m)) (hc : s.connection fd = none) :
    Wired s m := by
  have hroles : ∀ f, roles m f = roles (⟨.forward fd a, none⟩ ::ₘ m) f := fun f =>
    (roles_cons_none rfl).symm
  refine ⟨fun f => (h.stage f).congr (sameAt_refl s f) (hroles f), fun f hf => ?_, h.known.tail,
    h.born.tail rfl, fun f b hmap hb => ?_⟩
  · rw [hroles f]
    exact h.fresh f hf
  · have hserved := h.served f b hmap hb
    by_cases hf : f = fd
    · subst hf
      exact ⟨.inl (.inr hc), fun hnone => mem_of_ne (hserved.closed hnone) (by simp),
        hserved.serving⟩
    · refine hserved.congr rfl id (fun hmem => ?_) fun hmem => mem_of_ne hmem (by simp)
      exact mem_of_ne hmem fun heq => hf (Wait.forward.inj (Place.mk.inj heq).1).1

/-- The watchdog does not know the connection that is to be closed. -/
theorem Wired.unwatch (h : Wired s (⟨.closing fd, none⟩ ::ₘ m)) (hnone : s.agentfd fd = none) :
    Wired (s.forget fd) m := by
  have hroles : ∀ f, roles m f = roles (⟨.closing fd, none⟩ ::ₘ m) f := fun f =>
    (roles_cons_none rfl).symm
  have hm : Wired s m := by
    refine ⟨fun f => (h.stage f).congr (sameAt_refl s f) (hroles f), fun f hf => ?_, h.known.tail,
      h.born.tail rfl, fun f b hmap hb => ?_⟩
    · rw [hroles f]
      exact h.fresh f hf
    · have hf : f ≠ fd := by
        rintro rfl
        exact Option.some_ne_none b (hmap.symm.trans hnone)
      refine (h.served f b hmap hb).congr rfl id (fun hmem => mem_of_ne hmem (by simp))
        fun hmem => ?_
      exact mem_of_ne hmem fun heq => hf (Wait.closing.inj (Place.mk.inj heq).1)
  refine hm.calm ⟨?_, fun f hf => .inl (AList.mem_erase.mp hf).2, rfl, rfl, rfl, rfl, rfl, rfl,
    fun _ => rfl, fun _ => rfl, fun _ _ => id, fun _ => id, fun _ _ => .inl⟩
  change Function.update s.agentfd fd none = s.agentfd
  rw [← hnone, Function.update_eq_self]

/-- The watchdog forgets a connection, and its agent is to hear of that. -/
theorem Wired.leave {entry : Option Entry} (h : Wired s (⟨.closing fd, none⟩ ::ₘ m))
    (hmap : s.agentfd fd = some a) (hentry : ∀ e, entry = some e → s.counted e.fd ≠ none) :
    Wired (s.forget fd) (⟨.kick fd a, entry⟩ ::ₘ m) := by
  have hsome : s.counted fd ≠ none :=
    h.known.names _ (Multiset.mem_cons_self _ _) fd (List.mem_singleton_self fd)
  obtain ⟨hzero, hcounted, hheld⟩ := h.mapped hmap hsome
  rw [roles_cons_none rfl] at hzero
  have hself : (s.forget fd).agentfd fd = none := Function.update_self _ _ _
  have hother : ∀ f, f ≠ fd → (s.forget fd).agentfd f = s.agentfd f := fun f hf =>
    Function.update_of_ne hf _ _
  have hat : Wait.At fd (.kick fd a) := fun f hf => if_neg (Ne.symm hf)
  refine h.step (h.lt_of_counted hsome) rfl (fun f hf => ?_) (fun f hf => ?_)
    (.work (r := .leaving a) (if_pos rfl) hzero ⟨hself, hcounted, hheld⟩) ?_ ?_
      fun f b hmap' hb => ?_
  · exact ⟨hother f hf, rfl, rfl, fun _ => rfl, fun _ => id, fun _ => id⟩
  · exact roles_replace (fun _ _ => rfl) hat hf
  · have hknown : Known (s.forget fd) m :=
      h.known.tail.step (fun _ _ => id) (fun _ _ => .inl) (fun _ _ hs hf => .inl ⟨hs, hf⟩)
        (fun _ => .inl) (fun _ _ serving hc => .inl ⟨serving, hc⟩)
        fun f hf => .inl (AList.mem_erase.mp hf).2
    refine hknown.cons (fun f hf => ?_) fun f b hwait => by cases hwait
    obtain ⟨e, he, rfl⟩ := List.mem_map.mp hf
    exact hentry e (Option.mem_toList.mp he)
  · have hborn : Born (s.forget fd) m :=
      (h.born.tail rfl).step rfl (fun _ => rfl) (fun _ => rfl) (fun _ _ => .inl) fun _ _ => .inl
    exact hborn.cons rfl fun b hb => absurd hb List.not_mem_nil
  · have hf : f ≠ fd := by
      rintro rfl
      exact Option.some_ne_none b (hmap'.symm.trans hself)
    rw [hother f hf] at hmap'
    refine (h.served f b hmap' hb).congr rfl id (fun hmem => ?_) fun hmem => ?_
    · exact Multiset.mem_cons_of_mem (mem_of_ne hmem (by simp))
    · refine Multiset.mem_cons_of_mem (mem_of_ne hmem fun heq => hf ?_)
      exact Wait.closing.inj (Place.mk.inj heq).1

/-- The gate closes a connection that the watchdog does not know any more. -/
theorem Wired.kicked {agent : Option Address} (h : Wired s m)
    (hc : s.connection fd = some ⟨agent, true⟩) (hcounted : s.counted fd ≠ none)
    (hmap : s.agentfd fd = none) : Wired { s with
      connection := Function.update s.connection fd (some ⟨agent, false⟩)
      connected := Function.update s.connected fd false
      atGate := Function.update s.atGate fd true } m := by
  have hsame : ∀ f, SameAt s { s with
      connection := Function.update s.connection fd (some ⟨agent, false⟩)
      connected := Function.update s.connected fd false
      atGate := Function.update s.atGate fd true } f := by
    refine fun f => ⟨rfl, rfl, rfl, fun hnone => ?_, fun _ => id, fun _ => id⟩
    have hf : f ≠ fd := by
      rintro rfl
      exact hcounted hnone
    exact Function.update_of_ne hf _ _
  refine h.step (h.lt_of_counted hcounted) rfl (fun f _ => hsame f) (fun _ _ => rfl)
    ((h.stage fd).congr (hsame fd) rfl) ?_ ?_ fun f b hmap' hb => ?_
  · refine h.known.step (fun _ _ => id) (fun _ _ => .inl) (fun _ _ hs hf => .inl ⟨hs, hf⟩)
      (fun f hgate => ?_) (fun f b serving hagent => ?_) fun _ => .inl
    · by_cases hf : f = fd
      · exact .inr (hf ▸ hcounted)
      · exact .inl ((Function.update_of_ne hf _ _).symm.trans hgate)
    · by_cases hf : f = fd
      · subst hf
        have hagent' := (Function.update_self f _ _).symm.trans hagent
        rw [Option.some.injEq, Connection.mk.injEq] at hagent'
        exact .inl ⟨true, hc.trans (by rw [hagent'.1])⟩
      · exact .inl ⟨serving, (Function.update_of_ne hf _ _).symm.trans hagent⟩
  · exact h.born.step rfl (fun _ => rfl) (fun _ => rfl) (fun _ _ => .inl) fun _ _ => .inl
  · have hf : f ≠ fd := by
      rintro rfl
      exact Option.some_ne_none b (hmap'.symm.trans hmap)
    exact (h.served f b hmap' hb).congr (Function.update_of_ne hf _ _)
      (fun hgate => (Function.update_of_ne hf _ _).trans hgate) id id

/-- The gate closes the connection, or has done so. -/
theorem Wired.kick {entry : Option Entry} (h : Wired s (⟨.kick fd a, entry⟩ ::ₘ m)) :
    Wired (s.kick fd) (⟨.release fd a, entry⟩ ::ₘ m) := by
  have hrole : Wait.role fd (.kick fd a) = some (.leaving a) := if_pos rfl
  obtain ⟨-, hmap, hcounted, -⟩ := (h.stage fd).holds hrole
  have hnames := h.known.names _ (Multiset.mem_cons_self _ _)
  have hreplace : Wired s (⟨.release fd a, entry⟩ ::ₘ m) := by
    refine h.replace trivial (fun _ => rfl) ⟨hnames, fun b hb => ?_, fun f b hwait => ?_, rfl⟩
    · exact absurd hb List.not_mem_nil
    · cases hwait
  unfold Game.kick
  split
  · next agent hc => exact hreplace.kicked hc (hcounted ▸ Option.some_ne_none a) hmap
  · exact hreplace

/-- The agent does not count the connection any more. -/
theorem Wired.release {entry : Option Entry} (h : Wired s (⟨.release fd a, entry⟩ ::ₘ m)) :
    Wired (s.release fd a) m := by
  have hrole : Wait.role fd (.release fd a) = some (.leaving a) := if_pos rfl
  obtain ⟨hzero, hmap, hcounted, hheld⟩ := (h.stage fd).holds hrole
  have hcalm : Calm s (s.addConnectRef a (-1)) := calm_addConnectRef a (-1)
  have hstarted : ∀ b, ((s.release fd a).agents b).started = (s.agents b).started := hcalm.started
  have hclient : ∀ b, ((s.release fd a).agents b).fd = (s.agents b).fd := hcalm.fd
  refine h.step (h.lt_of_role hrole) rfl (fun f hf => ?_)
    (fun f hf => (roles_cons_none (p := ⟨.release fd a, entry⟩) (if_neg (Ne.symm hf))).symm)
    (.rest hzero (.gone a hmap hcounted (Function.update_self _ _ _))) ?_ ?_ fun f b hmap' hb => ?_
  · exact ⟨rfl, rfl, Function.update_of_ne hf _ _, fun _ => rfl, fun b hb => (hstarted b).trans hb,
      hcalm.exited⟩
  · refine h.known.tail.step (fun _ _ => id) (fun b f huser => .inl (hcalm.userFd b f huser))
      (fun b f hs hf => ?_) (fun _ => .inl) (fun _ _ serving hc => .inl ⟨serving, hc⟩) fun _ => .inl
    rw [hstarted] at hs
    rw [hclient] at hf
    exact .inl ⟨hs, hf⟩
  · exact (h.born.tail rfl).step rfl hclient hstarted (fun _ _ => .inl) fun _ _ => .inl
  · exact (h.served f b hmap' hb).congr rfl id (fun hmem => mem_of_ne hmem (by simp))
      fun hmem => mem_of_ne hmem (by simp)

/-- The gate hears that the socket of a connection is closed. -/
theorem Wired.hear (h : Wired s m) (hgate : s.atGate fd = true) :
    Wired (s.disconnected fd) (⟨.closing fd, none⟩ ::ₘ m) := by
  have hsome := h.known.atGate fd hgate
  have hself : (s.disconnected fd).connection fd = none := Function.update_self _ _ _
  have hother : ∀ f, f ≠ fd → (s.disconnected fd).connection f = s.connection f := fun f hf =>
    Function.update_of_ne hf _ _
  have hsame : ∀ f, SameAt s (s.disconnected fd) f := fun f =>
    ⟨rfl, rfl, rfl, fun hnone => hother f fun hf => hsome (hf ▸ hnone), fun _ => id, fun _ => id⟩
  refine h.step (h.lt_of_counted hsome) rfl (fun f _ => hsame f) (fun f _ => roles_cons_none rfl)
    ((h.stage fd).congr (hsame fd) (roles_cons_none rfl)) ?_ ?_ fun f b hmap hb => ?_
  · have hknown : Known (s.disconnected fd) m := by
      refine h.known.step (fun _ _ => id) (fun _ _ => .inl) (fun _ _ hs hf => .inl ⟨hs, hf⟩)
        (fun _ => .inl) (fun f b serving hc => ?_) fun _ => .inl
      by_cases hf : f = fd
      · rw [hf, hself] at hc
        cases hc
      · rw [hother f hf] at hc
        exact .inl ⟨serving, hc⟩
    refine hknown.cons (fun f hf => ?_) fun f b hwait => by cases hwait
    obtain rfl := List.mem_singleton.mp hf
    exact hsome
  · have hborn : Born (s.disconnected fd) m :=
      h.born.step rfl (fun _ => rfl) (fun _ => rfl) (fun _ _ => .inl) fun _ _ => .inl
    exact hborn.cons rfl fun b hb => absurd hb List.not_mem_nil
  · by_cases hf : f = fd
    · subst hf
      refine ⟨.inl (.inr hself), fun _ => Multiset.mem_cons_self _ _, fun c hc => ?_⟩
      rw [hself] at hc
      cases hc
    · exact (h.served f b hmap hb).congr (hother f hf) id Multiset.mem_cons_of_mem
        Multiset.mem_cons_of_mem

end GameServer.Watchdog
