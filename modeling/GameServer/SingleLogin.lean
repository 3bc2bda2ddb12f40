import GameServer.WiredRuns

/-!
# One login for an account

`userEnter` closes what is registered for the account and registers the `fd` with which the agent
was started. That is the connection of the request where the agent was not reconnected, and the
connection stays open where it has not entered before.
-/

namespace GameServer.Watchdog

open Cooperative Coroutine Transition

variable {s s' : Game} {m : Multiset Place} {p : Place} {fd : Fd} {a : Address}
  {account : Account}

/-! ## Conditions -/

/-- The connection of the `enterGame` that is under way at a place. -/
def Place.origin (p : Place) : Option Fd :=
  match p.wait with
  | .enterGame _ fd => some fd
  | .userEnter _ _ origin => some origin
  | _ => p.entry.map Entry.origin

def Place.Enters (fd : Fd) (p : Place) : Prop := p.origin = some fd

instance (fd : Fd) (p : Place) : Decidable (p.Enters fd) := inferInstanceAs (Decidable (_ = _))

/-- A `userEnter` is closing a connection. -/
def Place.Closes (p : Place) : Prop := p.entry.isSome = true

instance (p : Place) : Decidable p.Closes := inferInstanceAs (Decidable (_ = _))

/-- No other `userEnter` of the account is closing connections. -/
def Apart (account : Account) (m : Multiset Place) : Prop :=
  ∀ p ∈ m, ∀ e ∈ p.entry, e.account ≠ account

/-- A connection enters once, while the watchdog knows it, with the agent that was started for it.
Nobody closes it until `userEnter` is through. Then every other connection of the account has
entered, no other `userEnter` is closing connections, and no agent of the account comes in
meanwhile. -/
def single : Server.Guard Game Place Request Outside where
  request s m
    | .enterGame fd => (s.agentfd fd).isSome = true ∧ s.agentAccount.lookup fd = none ∧
      ∀ p ∈ m, p.origin ≠ some fd
    | _ => True
  resume s m place :=
    match place.wait with
    | .enterGame a fd => (s.agents a).fd = some fd
    | .userEnter account _ origin => (∀ p ∈ m, p.entry = none) ∧
      ∀ fd < s.nextFd, fd ≠ origin → ∀ a ∈ s.agentfd fd, (s.agents a).account = account →
        s.agentAccount.lookup fd = some account
    | .closing fd => ∀ p ∈ m, p.origin ≠ some fd
    | .found _ a => Apart (s.agents a).account m
    | .making (some _) account => Apart account m
    | _ => True
  outside _ m
    | .hangup fd => ∀ p ∈ m, p.origin ≠ some fd
    | .offLine _ => True

/-! ## The invariant -/

/-- The connection is open, the watchdog knows it, and it has not entered. -/
structure Up (s : Game) (fd : Fd) : Prop where
  connected : s.connected fd = true
  serving : ∃ agent, s.connection fd = some ⟨agent, true⟩
  mapped : s.agentfd fd ≠ none
  fresh : s.agentAccount.lookup fd = none

/-- The connection belongs to an agent of the account. -/
def Owns (s : Game) (account : Account) (fd : Fd) : Prop :=
  ∃ a, s.agentfd fd = some a ∧ (s.agents a).account = account

/-- A `userEnter` registers the connection of the request, and goes on to all others of the
account. -/
structure Closes (s : Game) (e : Entry) : Prop where
  fd : e.fd = e.origin
  owns : Owns s e.account e.origin
  others : ∀ fd, fd ≠ e.origin → Owns s e.account fd →
    s.agentAccount.lookup fd = some e.account ∧ fd ∈ e.rest

/-- The connection is open and registered, and no other maps to an agent of the account. -/
structure Entrance.Single (e : Entrance) : Prop where
  connected : e.tables.connected e.origin = true
  serving : ∃ agent, e.tables.connection e.origin = some ⟨agent, true⟩
  owned : ∃ a, e.tables.agentfd e.origin = some a ∧ (e.tables.agents a).account = e.account
  registered : e.tables.agentAccount.lookup e.origin = some e.account
  alone : ∀ fd a, e.tables.agentfd fd = some a → (e.tables.agents a).account = e.account →
    fd = e.origin

structure Entering (s : Game) (m : Multiset Place) : Prop where
  up : ∀ p ∈ m, ∀ fd, p.origin = some fd → Up s fd
  sent : ∀ p ∈ m, ∀ a fd, p.wait = .enterGame a fd → s.agentfd fd = some a
  asked : ∀ p ∈ m, ∀ account fd origin, p.wait = .userEnter account fd origin →
    fd = origin ∧ Owns s account origin
  closing : ∀ p ∈ m, ∀ e, p.entry = some e → p.origin = some e.origin ∧ Closes s e
  origins : ∀ fd, m.countP (Place.Enters fd) ≤ 1
  entries : m.countP Place.Closes ≤ 1
  single : ∀ e ∈ s.entered, e.Single

/-! ## Changes -/

/-- A change that keeps the connections that are entering, the agents' accounts and the registered
connections, and adds no connection of an account that a `userEnter` works for. -/
theorem Entering.step (h : Entering s m)
    (hup : ∀ fd, (∃ p ∈ m, p.origin = some fd) → Up s fd → Up s' fd ∧ s'.agentfd fd = s.agentfd fd)
    (haccount : ∀ fd a, s.agentfd fd = some a → (s'.agents a).account = (s.agents a).account)
    (hothers : ∀ fd a, s'.agentfd fd = some a → s.agentfd fd = some a ∧
      s'.agentAccount.lookup fd = s.agentAccount.lookup fd ∨ Apart (s'.agents a).account m)
    (hentered : s'.entered = s.entered) : Entering s' m := by
  have howns : ∀ p ∈ m, ∀ fd, p.origin = some fd → ∀ account, Owns s account fd →
      Owns s' account fd := by
    rintro p hp fd horigin account ⟨a, hmap, hacc⟩
    have hkept := (hup fd ⟨p, hp, horigin⟩ (h.up p hp fd horigin)).2
    exact ⟨a, hkept.trans hmap, (haccount fd a hmap).trans hacc⟩
  refine ⟨fun p hp fd horigin => (hup fd ⟨p, hp, horigin⟩ (h.up p hp fd horigin)).1,
    fun p hp a fd hwait => ?_, fun p hp account fd origin hwait => ?_, fun p hp e he => ?_,
    h.origins, h.entries, hentered ▸ h.single⟩
  · have horigin : p.origin = some fd := by
      unfold Place.origin
      rw [hwait]
    rw [(hup fd ⟨p, hp, horigin⟩ (h.up p hp fd horigin)).2]
    exact h.sent p hp a fd hwait
  · obtain ⟨hfd, howned⟩ := h.asked p hp account fd origin hwait
    refine ⟨hfd, howns p hp origin ?_ account howned⟩
    unfold Place.origin
    rw [hwait]
  · obtain ⟨horigin, hcloses⟩ := h.closing p hp e he
    refine ⟨horigin, hcloses.fd, howns p hp e.origin horigin e.account hcloses.owns, ?_⟩
    rintro fd hne ⟨a, hmap, hacc⟩
    rcases hothers fd a hmap with ⟨hold, hlookup⟩ | hapart
    · rw [hlookup]
      exact hcloses.others fd hne ⟨a, hold, (haccount fd a hold).symm.trans hacc⟩
    · exact absurd hacc.symm (hapart p hp e he)

/-- Places that have nothing to do with `enterGame` do not count. -/
def Wait.Mute (w : Wait) : Prop := Place.origin ⟨w, none⟩ = none

theorem Wait.Mute.origin {w : Wait} (h : w.Mute) (entry : Option Entry) :
    Place.origin ⟨w, entry⟩ = entry.map Entry.origin := by
  cases w <;> first | rfl | cases h

theorem Entering.tail (h : Entering s (p ::ₘ m)) : Entering s m := by
  refine ⟨fun q hq => h.up q (Multiset.mem_cons_of_mem hq),
    fun q hq => h.sent q (Multiset.mem_cons_of_mem hq),
    fun q hq => h.asked q (Multiset.mem_cons_of_mem hq),
    fun q hq => h.closing q (Multiset.mem_cons_of_mem hq), fun fd => ?_, ?_, h.single⟩
  · exact (Multiset.countP_le_of_le _ (Multiset.le_cons_self m p)).trans (h.origins fd)
  · exact (Multiset.countP_le_of_le _ (Multiset.le_cons_self m p)).trans h.entries

/-- No place of another `enterGame` has the connection, where one has it. -/
theorem Entering.others (h : Entering s (p ::ₘ m)) (horigin : p.origin = some fd) :
    ∀ q ∈ m, q.origin ≠ some fd := by
  intro q hq heq
  have hle := h.origins fd
  rw [Multiset.countP_cons_of_pos _ (show p.Enters fd from horigin)] at hle
  have hpos : 0 < m.countP (Place.Enters fd) := Multiset.countP_pos.mpr ⟨q, hq, heq⟩
  omega

theorem Entering.alone (h : Entering s (p ::ₘ m)) {e : Entry} (he : p.entry = some e) :
    ∀ q ∈ m, q.entry = none := by
  intro q hq
  by_contra hne
  have hsome : q.entry.isSome = true := Option.isSome_iff_ne_none.mpr hne
  have hle := h.entries
  have hp : p.Closes := by
    unfold Place.Closes
    rw [he]
    rfl
  rw [Multiset.countP_cons_of_pos _ hp] at hle
  have hpos : 0 < m.countP Place.Closes := Multiset.countP_pos.mpr ⟨q, hq, hsome⟩
  omega

/-- A place that is not that of another `enterGame`. -/
theorem Entering.cons (h : Entering s m) (hup : ∀ fd, p.origin = some fd → Up s fd)
    (hsent : ∀ a fd, p.wait = .enterGame a fd → s.agentfd fd = some a)
    (hasked : ∀ account fd origin, p.wait = .userEnter account fd origin →
      fd = origin ∧ Owns s account origin)
    (hclosing : ∀ e, p.entry = some e → p.origin = some e.origin ∧ Closes s e)
    (horigins : ∀ fd, p.origin = some fd → ∀ q ∈ m, q.origin ≠ some fd)
    (hentries : p.entry.isSome = true → ∀ q ∈ m, q.entry = none) : Entering s (p ::ₘ m) := by
  refine ⟨fun q hq => ?_, fun q hq => ?_, fun q hq => ?_, fun q hq => ?_, fun fd => ?_, ?_,
    h.single⟩
  · rcases Multiset.mem_cons.mp hq with rfl | hq
    · exact hup
    · exact h.up q hq
  · rcases Multiset.mem_cons.mp hq with rfl | hq
    · exact hsent
    · exact h.sent q hq
  · rcases Multiset.mem_cons.mp hq with rfl | hq
    · exact hasked
    · exact h.asked q hq
  · rcases Multiset.mem_cons.mp hq with rfl | hq
    · exact hclosing
    · exact h.closing q hq
  · by_cases horigin : p.Enters fd
    · rw [Multiset.countP_cons_of_pos _ horigin]
      have hzero : m.countP (Place.Enters fd) = 0 :=
        Multiset.countP_eq_zero.mpr (horigins fd horigin)
      omega
    · rw [Multiset.countP_cons_of_neg _ horigin]
      exact h.origins fd
  · by_cases hentry : p.Closes
    · rw [Multiset.countP_cons_of_pos _ hentry]
      have hzero : m.countP Place.Closes = 0 := by
        refine Multiset.countP_eq_zero.mpr fun q hq => ?_
        unfold Place.Closes
        rw [hentries hentry q hq]
        exact Bool.false_ne_true
      omega
    · rw [Multiset.countP_cons_of_neg _ hentry]
      exact h.entries

/-- What a `userEnter` that runs keeps. -/
structure Runs (s : Game) (m : Multiset Place) (e : Entry) : Prop where
  up : Up s e.origin
  closes : Closes s e
  others : ∀ p ∈ m, p.origin ≠ some e.origin
  alone : ∀ p ∈ m, p.entry = none

theorem Entering.runs {w : Wait} {e : Entry} (h : Entering s (⟨w, some e⟩ ::ₘ m)) : Runs s m e := by
  obtain ⟨horigin, hcloses⟩ := h.closing _ (Multiset.mem_cons_self _ _) e rfl
  exact ⟨h.up _ (Multiset.mem_cons_self _ _) e.origin horigin, hcloses, h.others horigin,
    h.alone rfl⟩

/-- A handler comes to a place that is silent about `enterGame` but for the `userEnter` that it is
part of. -/
theorem Entering.park {w : Wait} {entry : Option Entry} (h : Entering s m) (hmute : w.Mute)
    (hruns : ∀ e, entry = some e → Runs s m e) : Entering s (⟨w, entry⟩ ::ₘ m) := by
  have horigin : ∀ fd, Place.origin ⟨w, entry⟩ = some fd → ∃ e, entry = some e ∧ e.origin = fd := by
    intro fd hfd
    rw [hmute.origin] at hfd
    exact Option.map_eq_some_iff.mp hfd
  refine h.cons (fun fd hfd => ?_) (fun a fd hwait => ?_) (fun account fd origin hwait => ?_)
    (fun e he => ?_) (fun fd hfd => ?_) fun hsome => ?_
  · obtain ⟨e, he, rfl⟩ := horigin fd hfd
    exact (hruns e he).up
  · dsimp only at hwait
    subst hwait
    cases hmute
  · dsimp only at hwait
    subst hwait
    cases hmute
  · refine ⟨?_, (hruns e he).closes⟩
    rw [hmute.origin, show entry = some e from he]
    rfl
  · obtain ⟨e, he, rfl⟩ := horigin fd hfd
    exact (hruns e he).others
  · obtain ⟨e, he⟩ := Option.isSome_iff_exists.mp hsome
    exact (hruns e he).alone

/-- What `enterGame` reads does not change. -/
structure Untouched (s s' : Game) : Prop where
  connected : s'.connected = s.connected
  connection : s'.connection = s.connection
  agentfd : s'.agentfd = s.agentfd
  agentAccount : s'.agentAccount = s.agentAccount
  account : ∀ a, (s'.agents a).account = (s.agents a).account
  entered : s'.entered = s.entered

theorem Entering.untouched (h : Entering s m) (hs : Untouched s s') : Entering s' m := by
  refine h.step (fun fd _ hup => ⟨⟨?_, ?_, ?_, ?_⟩, ?_⟩) (fun _ a _ => hs.account a)
    (fun fd a hmap => .inl ⟨?_, ?_⟩) hs.entered
  · rw [hs.connected]
    exact hup.connected
  · rw [hs.connection]
    exact hup.serving
  · rw [hs.agentfd]
    exact hup.mapped
  · rw [hs.agentAccount]
    exact hup.fresh
  · rw [hs.agentfd]
  · rwa [hs.agentfd] at hmap
  · rw [hs.agentAccount]

theorem untouched_setAgent {v : Agent} (hv : v.account = (s.agents a).account) :
    Untouched s (s.setAgent a v) := by
  refine ⟨rfl, rfl, rfl, rfl, fun b => ?_, rfl⟩
  rw [setAgent_agents]
  split
  · next hb => rw [hb, hv]
  · rfl

/-- A connection that is not entering changes, and no agent comes to it. -/
theorem Entering.away (h : Entering s m) (hfd : ∀ p ∈ m, p.origin ≠ some fd)
    (hup : ∀ f, f ≠ fd → Up s f → Up s' f) (hagentfd : ∀ f, f ≠ fd → s'.agentfd f = s.agentfd f)
    (hlookup : ∀ f, f ≠ fd → s'.agentAccount.lookup f = s.agentAccount.lookup f)
    (hmap : ∀ a, s'.agentfd fd = some a → s.agentfd fd = some a ∧
      s'.agentAccount.lookup fd = s.agentAccount.lookup fd)
    (haccount : ∀ a, (s'.agents a).account = (s.agents a).account)
    (hentered : s'.entered = s.entered) :
    Entering s' m := by
  refine h.step ?_ (fun _ a _ => haccount a) (fun f a hf => .inl ?_) hentered
  · rintro f ⟨p, hp, horigin⟩ hupf
    have hne : f ≠ fd := fun heq => hfd p hp (heq ▸ horigin)
    exact ⟨hup f hne hupf, hagentfd f hne⟩
  · by_cases hne : f = fd
    · subst hne
      exact hmap a hf
    · exact ⟨(hagentfd f hne).symm.trans hf, hlookup f hne⟩

theorem Entering.ne_of_unmapped (h : Entering s m) (hnone : s.agentfd fd = none) :
    ∀ p ∈ m, p.origin ≠ some fd :=
  fun p hp horigin => (h.up p hp fd horigin).mapped hnone

theorem Entering.ne_of_registered (h : Entering s m) (hsome : s.agentAccount.lookup fd ≠ none) :
    ∀ p ∈ m, p.origin ≠ some fd :=
  fun p hp horigin => hsome (h.up p hp fd horigin).fresh

/-- A handler goes from one place to another that are silent about `enterGame`. -/
theorem Entering.rewait {w w' : Wait} {entry : Option Entry} (h : Entering s (⟨w, entry⟩ ::ₘ m))
    (hmute : w'.Mute) : Entering s (⟨w', entry⟩ ::ₘ m) := by
  refine h.tail.park hmute fun e he => ?_
  subst he
  exact h.runs

theorem Entering.runs_of {w : Wait} {entry : Option Entry} (h : Entering s (⟨w, entry⟩ ::ₘ m)) :
    ∀ e, entry = some e → Runs s m e := by
  rintro e rfl
  exact h.runs

theorem Up.forget {f : Fd} (h : Up s f) (hf : f ≠ fd) : Up (s.forget fd) f := by
  have hother : (s.forget fd).agentfd f = s.agentfd f := Function.update_of_ne hf _ _
  refine ⟨h.connected, h.serving, ?_, (AList.lookup_erase_ne hf).trans h.fresh⟩
  rw [hother]
  exact h.mapped

theorem Entering.forget (h : Entering s m) (hfd : ∀ p ∈ m, p.origin ≠ some fd) :
    Entering (s.forget fd) m := by
  have hself : (s.forget fd).agentfd fd = none := Function.update_self _ _ _
  refine h.away hfd (fun f hf hup => hup.forget hf) (fun f hf => Function.update_of_ne hf _ _)
    (fun f hf => AList.lookup_erase_ne hf) (fun a hmap => ?_) (fun _ => rfl) rfl
  exact absurd (hmap.symm.trans hself) (Option.some_ne_none a)

theorem Entering.kick (h : Entering s m) (hnone : s.agentfd fd = none) :
    Entering (s.kick fd) m := by
  have hfd := h.ne_of_unmapped hnone
  unfold Game.kick
  split
  · refine h.away hfd (fun f hf hup => ?_) (fun _ _ => rfl) (fun _ _ => rfl)
      (fun a hmap => ⟨hmap, rfl⟩) (fun _ => rfl) rfl
    obtain ⟨agent, hagent⟩ := hup.serving
    exact ⟨(Function.update_of_ne hf _ _).trans hup.connected,
      ⟨agent, (Function.update_of_ne hf _ _).trans hagent⟩, hup.mapped, hup.fresh⟩
  · exact h

theorem Entering.disconnected (h : Entering s m) (hclosed : s.connected fd = false) :
    Entering (s.disconnected fd) m := by
  have hfd : ∀ p ∈ m, p.origin ≠ some fd := fun p hp horigin =>
    Bool.false_ne_true (hclosed.symm.trans (h.up p hp fd horigin).connected)
  refine h.away hfd (fun f hf hup => ?_) (fun _ _ => rfl) (fun _ _ => rfl)
    (fun a hmap => ⟨hmap, rfl⟩) (fun _ => rfl) rfl
  obtain ⟨agent, hagent⟩ := hup.serving
  exact ⟨hup.connected, ⟨agent, (Function.update_of_ne hf _ _).trans hagent⟩, hup.mapped, hup.fresh⟩

theorem Entering.hangup (h : Entering s m) (hfd : ∀ p ∈ m, p.origin ≠ some fd) :
    Entering { s with connected := Function.update s.connected fd false } m := by
  refine h.away hfd (fun f hf hup => ?_) (fun _ _ => rfl) (fun _ _ => rfl)
    (fun a hmap => ⟨hmap, rfl⟩) (fun _ => rfl) rfl
  exact ⟨(Function.update_of_ne hf _ _).trans hup.connected, hup.serving, hup.mapped, hup.fresh⟩

theorem Entering.connect (h : Entering s m) (hfresh : s.agentfd s.nextFd = none) :
    Entering s.connect m := by
  have hfd := h.ne_of_unmapped hfresh
  refine h.away hfd (fun f hf hup => ?_) (fun _ _ => rfl) (fun _ _ => rfl)
    (fun a hmap => ⟨hmap, rfl⟩) (fun _ => rfl) rfl
  obtain ⟨agent, hagent⟩ := hup.serving
  exact ⟨(Function.update_of_ne hf _ _).trans hup.connected,
    ⟨agent, (Function.update_of_ne hf _ _).trans hagent⟩, hup.mapped, hup.fresh⟩

theorem Entering.forward {c : Connection} (h : Entering s m) (hc : s.connection fd = some c) :
    Entering (s.forward fd a c) m := by
  refine h.step (fun f _ hup => ⟨⟨hup.connected, ?_, hup.mapped, hup.fresh⟩, rfl⟩)
    (fun _ _ _ => rfl) (fun f b hmap => .inl ⟨hmap, rfl⟩) rfl
  obtain ⟨agent, hagent⟩ := hup.serving
  by_cases hf : f = fd
  · subst hf
    obtain rfl := Option.some.inj (hc.symm.trans hagent)
    exact ⟨some a, Function.update_self _ _ _⟩
  · exact ⟨agent, (Function.update_of_ne hf _ _).trans hagent⟩

/-- An agent comes to a connection, and no `userEnter` is closing those of its account. -/
theorem Entering.setAgentfd (h : Entering s m) (hnone : s.agentfd fd = none)
    (hapart : Apart (s.agents a).account m) : Entering (s.setAgentfd fd a) m := by
  have hother : ∀ f, f ≠ fd → (s.setAgentfd fd a).agentfd f = s.agentfd f := fun f hf =>
    Function.update_of_ne hf _ _
  refine h.step ?_ (fun _ _ _ => rfl) (fun f b hmap => ?_) rfl
  · rintro f ⟨p, hp, horigin⟩ hup
    have hne : f ≠ fd := by
      rintro rfl
      exact hup.mapped hnone
    exact ⟨⟨hup.connected, hup.serving, (hother f hne).symm ▸ hup.mapped, hup.fresh⟩, hother f hne⟩
  · by_cases hf : f = fd
    · have hself : (s.setAgentfd fd a).agentfd f = some a := hf ▸ Function.update_self _ _ _
      obtain rfl := Option.some.inj (hself.symm.trans hmap)
      exact .inr hapart
    · exact .inl ⟨(hother f hf).symm.trans hmap, rfl⟩

theorem Entering.newservice (h : Entering s m) (account : Account) (o : Option Fd)
    (hborn : ∀ fd a, s.agentfd fd = some a → a < s.nextAgent) :
    Entering (s.newservice account o) m := by
  have hkept : ∀ a, a < s.nextAgent → (s.newservice account o).agents a = s.agents a := by
    intro a ha
    rw [newservice_agents, if_neg ha.ne]
  refine h.step (fun fd _ hup => ⟨⟨hup.connected, hup.serving, hup.mapped, hup.fresh⟩, rfl⟩)
    (fun fd a hmap => ?_) (fun fd a hmap => .inl ⟨hmap, rfl⟩) rfl
  rw [hkept a (hborn fd a hmap)]

theorem untouched_start (o : Option Fd) : Untouched s (s.start a o) := by
  have haccount : ∀ b, ((s.start a o).agents b).account = (s.agents b).account := by
    intro b
    rw [start_agents]
    split
    · next hb => rw [hb]
    · rfl
  cases o <;> exact ⟨rfl, rfl, rfl, rfl, haccount, rfl⟩

theorem untouched_reconnect (fd : Fd) : Untouched s (s.reconnect a fd) := by
  have haccount := (untouched_setAgent (s := s) (a := a) (v := { s.agents a with
    userFd := some fd, refConnect := (s.agents a).refConnect + 1 }) rfl).account
  exact ⟨rfl, rfl, rfl, rfl, haccount, rfl⟩

theorem untouched_addConnectRef (r : ℤ) : Untouched s (s.addConnectRef a r) :=
  untouched_setAgent rfl

theorem untouched_release (fd : Fd) : Untouched s (s.release fd a) :=
  ⟨rfl, rfl, rfl, rfl, (untouched_addConnectRef (s := s) (a := a) (-1)).account, rfl⟩

/-- A `userEnter` is through. -/
theorem Entering.enter {fd origin : Fd} (h : Entering s m)
    (hruns : Runs s m ⟨account, fd, origin, []⟩) : Entering (s.enter account fd origin) m := by
  obtain ⟨hup, ⟨hfd, ⟨a, hmap, hacc⟩, hothers⟩, horigin, halone⟩ := hruns
  obtain rfl : fd = origin := hfd
  have hsingle : Entrance.Single ⟨account, fd,
      { s.toTables with agentAccount := s.agentAccount.insert fd account }⟩ := by
    refine ⟨hup.connected, hup.serving, ⟨a, hmap, hacc⟩, AList.lookup_insert _,
      fun f b hb hbacc => ?_⟩
    by_contra hne
    exact absurd (hothers f hne ⟨b, hb, hbacc⟩).2 List.not_mem_nil
  refine ⟨fun p hp f hf => ?_, h.sent, h.asked, fun p hp e he => ?_, h.origins, h.entries,
    fun e he => ?_⟩
  · have hupf := h.up p hp f hf
    have hne : f ≠ fd := by
      rintro rfl
      exact horigin p hp hf
    exact ⟨hupf.connected, hupf.serving, hupf.mapped, (AList.lookup_insert_ne hne).trans hupf.fresh⟩
  · rw [halone p hp] at he
    cases he
  · rcases List.mem_append.mp he with hold | hnew
    · exact h.single e hold
    · exact List.mem_singleton.mp hnew ▸ hsingle

/-! ## Handlers -/

/-- The conditions at a place, where the wiring holds. -/
def orderly : Game → Multiset Place → Place → Prop := (single.within Wired).resume

theorem closeAgent_single {entry : Option Entry} (h : Entering s m)
    (hfd : ∀ p ∈ m, p.origin ≠ some fd) (hruns : ∀ e, entry = some e → Runs (s.forget fd) m e) :
    (closeAgent fd entry).Safe Entering orderly
      (fun _ s m => Entering s m ∧ ∀ e, entry = some e → Runs s m e) s m := by
  refine safe_bind.mpr (safe_get.mpr (safe_bind.mpr (safe_modify.mpr ?_)))
  have hforget := h.forget hfd
  cases s.agentfd fd with
  | none => exact ⟨hforget, hruns⟩
  | some a =>
      refine safe_bind.mpr (safe_call.mpr ⟨hforget.park rfl hruns, fun s₁ m₁ h₁ ok₁ => ?_⟩)
      have hrole : Wait.role fd (.kick fd a) = some (.leaving a) := if_pos rfl
      have hnone : s₁.agentfd fd = none := ((ok₁.2.stage fd).holds hrole).2.1
      refine safe_bind.mpr (safe_modify.mpr (safe_bind.mpr (safe_call.mpr
        ⟨(h₁.kick hnone).rewait rfl, fun s₂ m₂ h₂ _ => safe_bind.mpr (alive_safe (fun _ => h₂.tail)
          fun _ => ?_)⟩)))
      refine safe_bind.mpr (safe_modify.mpr (safe_bind.mpr (safe_get.mpr (safe_bind.mpr
        (safe_call.mpr ⟨(h₂.untouched (untouched_release fd)).rewait rfl, fun s₃ m₃ h₃ _ => ?_⟩)))))
      unfold Coroutine.when
      split
      · have htold := h₃.untouched (untouched_setAgent (a := a)
          (v := { s₃.agents a with told := true }) rfl)
        exact ⟨htold.tail, htold.runs_of⟩
      · exact ⟨h₃.tail, h₃.runs_of⟩

theorem kickSelf_single (h : Entering s m) :
    (kickSelf a).Safe Entering orderly (fun _ => Entering) s m := by
  refine safe_bind.mpr (safe_get.mpr ?_)
  cases (s.agents a).userFd with
  | none => exact h
  | some fd =>
      refine safe_bind.mpr (safe_call.mpr
        ⟨h.park rfl fun e he => (by cases he), fun s₁ m₁ h₁ ok₁ => ?_⟩)
      exact (closeAgent_single h₁.tail ok₁.1 fun e he => by cases he).mono
        fun _ _ _ hpost => hpost.1

theorem socketClosed_single (h : Entering s m) :
    (socketClosed fd).Safe Entering orderly (fun _ => Entering) s m := by
  refine safe_bind.mpr (safe_get.mpr ?_)
  unfold Coroutine.when
  split
  · next hclosed =>
      refine safe_bind.mpr (safe_modify.mpr (safe_bind.mpr (safe_call.mpr
        ⟨(h.disconnected hclosed.2).park rfl fun e he => (by cases he), fun s₁ m₁ h₁ ok₁ => ?_⟩)))
      exact (closeAgent_single h₁.tail ok₁.1 fun e he => by cases he).mono
        fun _ _ _ hpost => hpost.1
  · exact h

theorem forward_single (h : Entering s m) :
    (forward fd a).Safe Entering orderly (fun _ => Entering) s m := by
  refine safe_bind.mpr (safe_call.mpr ⟨h.park rfl fun e he => (by cases he), fun s₁ m₁ h₁ _ =>
    safe_bind.mpr (safe_get.mpr ?_)⟩)
  cases hc : s₁.connection fd with
  | some c => exact h₁.tail.forward hc
  | none =>
      exact safe_bind.mpr (safe_call.mpr ⟨h₁.rewait rfl, fun s₂ m₂ h₂ _ => kickSelf_single h₂.tail⟩)

theorem start_single {o : Option Fd} (h : Entering s m) :
    (Start a o).Safe Entering orderly (fun _ => Entering) s m := by
  refine safe_bind.mpr (safe_call.mpr ⟨h.park rfl fun e he => (by cases he), fun s₁ m₁ h₁ _ =>
    safe_bind.mpr (safe_modify.mpr ?_)⟩)
  have hstart := h₁.tail.untouched (untouched_start (a := a) o)
  cases o with
  | none => exact hstart
  | some fd => exact forward_single hstart

theorem enterNew_single {o : Option Fd} (h : Entering s m) :
    (enterNew o account).Safe Entering orderly (fun _ => Entering) s m := by
  refine safe_bind.mpr (safe_call.mpr ⟨h.park rfl fun e he => (by cases he), fun s₁ m₁ h₁ ok₁ =>
    safe_bind.mpr (safe_get.mpr (safe_bind.mpr (safe_modify.mpr (safe_bind.mpr ?_))))⟩)
  have hmade := h₁.tail.newservice account o fun fd a => ok₁.2.lt_of_mapped
  cases o with
  | none => exact start_single hmade
  | some fd =>
      have hrole : Wait.role fd (.making (some fd) account) = some .login := if_pos rfl
      have hnone : s₁.agentfd fd = none := ((ok₁.2.stage fd).holds hrole).2.1
      refine start_single (hmade.setAgentfd hnone ?_)
      rw [newservice_agents, if_pos rfl]
      exact ok₁.1

theorem enterAgain_single (h : Entering s m) :
    (enterAgain fd a).Safe Entering orderly (fun _ => Entering) s m := by
  refine safe_bind.mpr (safe_call.mpr ⟨h.park rfl fun e he => (by cases he), fun s₁ m₁ h₁ ok₁ =>
    safe_bind.mpr (safe_modify.mpr ?_)⟩)
  have hrole : Wait.role fd (.found fd a) = some .login := if_pos rfl
  have hnone : s₁.agentfd fd = none := ((ok₁.2.stage fd).holds hrole).2.1
  have hmapped := h₁.tail.setAgentfd hnone ok₁.1
  refine safe_bind.mpr (safe_call.mpr ⟨hmapped.park rfl fun e he => (by cases he),
    fun s₂ m₂ h₂ _ => ?_⟩)
  exact safe_bind.mpr (alive_safe (fun _ => h₂.tail) fun _ => safe_bind.mpr (safe_modify.mpr
    (forward_single (h₂.tail.untouched (untouched_reconnect fd)))))

theorem getAgent_single (h : Entering s m) :
    (getAgent fd account).Safe Entering orderly (fun _ => Entering) s m := by
  refine safe_bind.mpr (safe_get.mpr ?_)
  cases s.roomAccount.lookup account with
  | none => exact h
  | some map =>
      refine safe_bind.mpr (safe_call.mpr ⟨h.park rfl fun e he => (by cases he), fun s₁ m₁ h₁ _ =>
        safe_bind.mpr (safe_get.mpr ?_)⟩)
      cases s₁.rooms map with
      | none => exact h₁.tail
      | some players =>
          cases s₁.offLineTime map account with
          | none => exact h₁.tail
          | some offLinetime =>
              exact safe_bind.mpr (safe_call.mpr ⟨h₁.rewait rfl, fun s₂ m₂ h₂ _ => h₂.tail⟩)

theorem auth_single (h : Entering s m) (hfresh : s.agentfd s.nextFd = none) :
    (auth account).Safe Entering orderly (fun _ => Entering) s m := by
  refine safe_bind.mpr (safe_get.mpr (safe_bind.mpr (safe_modify.mpr (safe_bind.mpr (safe_call.mpr
    ⟨(h.connect hfresh).park rfl fun e he => (by cases he), fun s₁ m₁ h₁ _ => safe_bind.mpr
      ((getAgent_single h₁.tail).mono ?_)⟩)))))
  rintro (_ | a) s₂ m₂ h₂
  · exact enterNew_single h₂
  · exact enterAgain_single h₂

/-! ## Handlers that have nothing to do with `enterGame` -/

def mute : Set Place := {p | p.wait.Mute ∧ p.entry = none}

theorem entering_mute (hp : p ∈ mute) : Entering s (p ::ₘ m) ↔ Entering s m := by
  obtain ⟨w, entry⟩ := p
  obtain ⟨hmute, hentry⟩ := hp
  refine ⟨Entering.tail, fun h => h.park hmute fun e he => ?_⟩
  exact absurd (he.symm.trans hentry) (Option.some_ne_none e)

/-- A handler that waits at mute places and touches nothing keeps the invariant. -/
theorem stays_single {t : Code Unit} (ht : t.Stays mute Untouched True) (h : Entering s m) :
    t.Safe Entering orderly (fun _ => Entering) s m :=
  (ht s).safe_apart (fun _ hp _ _ => entering_mute hp) (fun _ _ _ hs h => h.untouched hs) h

theorem mute_stays {w : Wait} (hw : w.Mute) : (wait w).Stays mute Untouched True :=
  stays_call ⟨hw, rfl⟩

theorem stays_alive (a : Address) : (alive a).Stays mute Untouched True :=
  stays_get_bind fun s => stays_when (fun _ => stays_raise trivial) s

theorem disconnect_stays (a : Address) : (disconnect a).Stays mute Untouched True := by
  refine stays_get_bind fun s => stays_when (fun _ => ?_) s
  refine (stays_when fun _ => mute_stays (by rfl)).bind fun _ => stays_modify fun s => ?_
  exact untouched_setAgent rfl

theorem untouched_sit : Untouched s (s.sit a) :=
  ⟨rfl, rfl, rfl, rfl, (untouched_addConnectRef (s := s) (a := a) 1).account, rfl⟩

theorem untouched_rise (k : Account) : Untouched s (s.rise k a) :=
  ⟨rfl, rfl, rfl, rfl, (untouched_addConnectRef (s := s) (a := a) (-1)).account, rfl⟩

theorem seatAll_stays (room : Room) (players : List Address) :
    (seatAll room players).Stays mute Untouched True := by
  induction players with
  | nil => exact stays_pure ()
  | cons a rest ih =>
      refine (stays_modify fun s => by exact ⟨rfl, rfl, rfl, rfl, fun _ => rfl, rfl⟩).bind
        fun _ => ?_
      refine (mute_stays (by rfl)).bind fun _ => (stays_alive a).bind fun _ => ?_
      refine (stays_modify fun s => untouched_sit).bind fun _ => ?_
      exact (mute_stays (by rfl)).bind fun _ => ih

theorem roomstart_stays (players : List Address) :
    (roomstart players).Stays mute Untouched True := by
  refine stays_get_bind fun s => stays_when (fun _ => ?_) s
  refine (stays_modify fun s => by exact ⟨rfl, rfl, rfl, rfl, fun _ => rfl, rfl⟩).bind fun _ => ?_
  exact (mute_stays (by rfl)).bind fun _ => seatAll_stays _ players

theorem clearAll_stays (room : Room) (keys : List Account) :
    (clearAll room keys).Stays mute Untouched True := by
  induction keys with
  | nil => exact stays_pure ()
  | cons k rest ih =>
      have hclear : (modify (Game.clearRoom · k) : Code PUnit).Stays mute Untouched True :=
        stays_modify fun s => by exact ⟨rfl, rfl, rfl, rfl, fun _ => rfl, rfl⟩
      refine stays_get_bind fun s => Stays.bind (stays_when fun _ => ?_) (fun _ => ih) s
      cases s.roomAgent k with
      | none => exact stays_raise trivial
      | some a =>
          refine (mute_stays (by rfl)).bind fun _ => (stays_alive a).bind fun _ => ?_
          refine (stays_modify fun s => untouched_rise k).bind fun _ => stays_get_bind fun s => ?_
          refine Stays.bind (mute_stays (by rfl)) (fun _ => stays_get_bind fun s => ?_) s
          refine Stays.bind (stays_when fun _ => ?_) (fun _ => hclear) s
          cases s.roomAgent k with
          | none => exact stays_raise trivial
          | some b => exact stays_modify fun s => untouched_setAgent rfl

variable {order : Order}

theorem roomend_stays (room : Room) : (roomend order room).Stays mute Untouched True := by
  refine stays_get_bind fun s => stays_when (fun _ => ?_) s
  refine (stays_modify fun s => by exact ⟨rfl, rfl, rfl, rfl, fun _ => rfl, rfl⟩).bind fun _ => ?_
  refine (mute_stays (by rfl)).bind fun _ => stays_get_bind fun s => ?_
  refine Stays.bind (stays_modify fun s => by exact ⟨rfl, rfl, rfl, rfl, fun _ => rfl, rfl⟩)
    (fun _ => ?_) s
  exact clearAll_stays room _

/-! ## `enterGame` -/

variable {origin : Fd}

/-- A connection of the account that is not registered, or another connection, is passed over. -/
theorem Runs.skip {k : Fd} {rest : List Fd} (h : Runs s m ⟨account, fd, origin, k :: rest⟩)
    (hk : s.agentAccount.lookup k ≠ some account) : Runs s m ⟨account, fd, origin, rest⟩ := by
  refine ⟨h.up, ⟨h.closes.fd, h.closes.owns, fun f hf howns => ?_⟩, h.others, h.alone⟩
  obtain ⟨hlookup, hmem⟩ := h.closes.others f hf howns
  refine ⟨hlookup, (List.mem_cons.mp hmem).resolve_left ?_⟩
  rintro rfl
  exact hk hlookup

theorem Runs.forget {k : Fd} {rest : List Fd} (h : Runs s m ⟨account, fd, origin, k :: rest⟩)
    (hk : k ≠ origin) : Runs (s.forget k) m ⟨account, fd, origin, rest⟩ := by
  have hother : ∀ f, f ≠ k → (s.forget k).agentfd f = s.agentfd f := fun f hf =>
    Function.update_of_ne hf _ _
  have hself : (s.forget k).agentfd k = none := Function.update_self _ _ _
  obtain ⟨a, hmap, haccount⟩ := h.closes.owns
  refine ⟨h.up.forget hk.symm, ⟨h.closes.fd, ⟨a, (hother origin hk.symm).trans hmap, haccount⟩, ?_⟩,
    h.others, h.alone⟩
  rintro f hf ⟨b, hb, hbaccount⟩
  have hfk : f ≠ k := by
    rintro rfl
    exact Option.some_ne_none b (hb.symm.trans hself)
  rw [hother f hfk] at hb
  obtain ⟨hlookup, hmem⟩ := h.closes.others f hf ⟨b, hb, hbaccount⟩
  exact ⟨(AList.lookup_erase_ne hfk).trans hlookup, (List.mem_cons.mp hmem).resolve_left hfk⟩

theorem closeOthers_single {keys : List Fd} (h : Entering s m)
    (hruns : Runs s m ⟨account, fd, origin, keys⟩) :
    (closeOthers account fd origin keys).Safe Entering orderly
      (fun _ s m => Entering s m ∧ Runs s m ⟨account, fd, origin, []⟩) s m := by
  induction keys generalizing s m with
  | nil => exact ⟨h, hruns⟩
  | cons k rest ih =>
      refine safe_bind.mpr (safe_get.mpr (safe_bind.mpr ?_))
      unfold Coroutine.when
      split
      · next hk =>
          have hne : k ≠ origin := by
            rintro rfl
            exact Option.some_ne_none account (hk.symm.trans hruns.up.fresh)
          refine (closeAgent_single h (h.ne_of_registered
            (hk ▸ Option.some_ne_none account)) ?_).mono
            fun _ s₁ m₁ hpost => ih hpost.1 (hpost.2 _ rfl)
          rintro e he
          obtain rfl := Option.some.inj he
          exact hruns.forget hne
      · next hk => exact ih h (hruns.skip hk)

/-- Every other connection of the account has entered when the loop begins, so the loop comes to
it. -/
theorem Closes.begin (order : Order) (hwired : Wired s m) (hfd : fd = origin)
    (howns : Owns s account origin)
    (hothers : ∀ f < s.nextFd, f ≠ origin → ∀ a ∈ s.agentfd f, (s.agents a).account = account →
      s.agentAccount.lookup f = some account) :
    Closes s ⟨account, fd, origin, order.fds s.scans s.agentAccount.keys⟩ := by
  refine ⟨hfd, howns, ?_⟩
  rintro f hf ⟨a, hmap, haccount⟩
  have hlt : f < s.nextFd := by
    by_contra hge
    exact Option.some_ne_none a (hmap.symm.trans (hwired.fresh f (not_lt.mp hge)).2.1)
  have hlookup := hothers f hlt hf a hmap haccount
  refine ⟨hlookup, (order.fds_perm s.scans s.agentAccount.keys).mem_iff.mpr ?_⟩
  exact AList.mem_keys.mp (AList.lookup_isSome.mp (by rw [hlookup]; rfl))

theorem userEnter_single (h : Entering s m) (hup : Up s origin) (howns : Owns s account origin)
    (hothers : ∀ p ∈ m, p.origin ≠ some origin) :
    (userEnter order account origin origin).Safe Entering orderly (fun _ => Entering) s m := by
  refine safe_bind.mpr (safe_call.mpr ⟨?_, fun s₁ m₁ h₁ ok₁ => safe_bind.mpr (safe_get.mpr
    (safe_bind.mpr (safe_modify.mpr (safe_bind.mpr ?_))))⟩)
  · refine h.cons (fun f hf => ?_) (fun a f hwait => (by cases hwait)) (fun k f o hwait => ?_)
      (fun e he => (by cases he)) (fun f hf => ?_) fun hsome => (by cases hsome)
    · exact Option.some.inj hf ▸ hup
    · obtain ⟨rfl, rfl, rfl⟩ := Wait.userEnter.inj hwait
      exact ⟨rfl, howns⟩
    · exact Option.some.inj hf ▸ hothers
  · obtain ⟨-, howns₁⟩ := h₁.asked _ (Multiset.mem_cons_self _ _) account origin origin rfl
    have hup₁ := h₁.up _ (Multiset.mem_cons_self _ _) origin rfl
    have hscan : Untouched s₁ s₁.scan := ⟨rfl, rfl, rfl, rfl, fun _ => rfl, rfl⟩
    have hcloses := Closes.begin order ok₁.2 rfl howns₁ ok₁.1.2
    refine (closeOthers_single (h₁.tail.untouched hscan) ⟨?_, ?_, h₁.others rfl, ok₁.1.1⟩).mono
      fun _ _ _ hpost => safe_modify.mpr (hpost.1.enter hpost.2)
    · exact ⟨hup₁.connected, hup₁.serving, hup₁.mapped, hup₁.fresh⟩
    · exact ⟨rfl, hcloses.owns, hcloses.others⟩

theorem enterGame_single (h : Entering s m) (hwired : Wired s m)
    (hmapped : (s.agentfd fd).isSome = true) (hfresh : s.agentAccount.lookup fd = none)
    (hothers : ∀ p ∈ m, p.origin ≠ some fd) :
    (enterGame order fd).Safe Entering orderly (fun _ => Entering) s m := by
  refine safe_bind.mpr (safe_get.mpr ?_)
  split
  · next a hc =>
      unfold Coroutine.when
      split
      · next hconnected =>
          have hmap : s.agentfd fd = some a := by
            obtain ⟨b, hb⟩ := Option.isSome_iff_exists.mp hmapped
            have hcounted := hwired.known.agent fd a true hc
            have hb' := (hwired.mapped hb (hcounted ▸ Option.some_ne_none a)).2.1
            rw [hb, ← hb', hcounted]
          refine safe_bind.mpr (safe_call.mpr ⟨?_, fun s₁ m₁ h₁ ok₁ => safe_bind.mpr (alive_safe
            (fun _ => h₁.tail) fun _ => safe_bind.mpr (safe_get.mpr ?_))⟩)
          · refine h.cons (fun f hf => ?_) (fun b f hwait => ?_)
              (fun k f o hwait => (by cases hwait))
              (fun e he => (by cases he)) (fun f hf => ?_) fun hsome => (by cases hsome)
            · obtain rfl := Option.some.inj hf
              exact ⟨hconnected, ⟨some a, hc⟩, hmap ▸ Option.some_ne_none a, hfresh⟩
            · obtain ⟨rfl, rfl⟩ := Wait.enterGame.inj hwait
              exact hmap
            · exact Option.some.inj hf ▸ hothers
          · have hfd : (s₁.agents a).fd = some fd := ok₁.1
            have hmap₁ := h₁.sent _ (Multiset.mem_cons_self _ _) a fd rfl
            have hup₁ := h₁.up _ (Multiset.mem_cons_self _ _) fd rfl
            dsimp only
            split
            · rw [hfd]
              exact userEnter_single h₁.tail hup₁ ⟨a, hmap₁, rfl⟩ (h₁.others rfl)
            · exact h₁.tail
      · exact h
  · exact h

/-! ## Runs -/

theorem entering_of_runs {pool : Pool Game Place}
    (h : ((server order).system nobody).Runs single.Admits pool) :
    Entering pool.shared pool.places := by
  have hwithin := Server.runs_within h fun _ hq => wired_of_reachable hq.reachable
  refine Server.invariant (G := single.within Wired) Entering ?_ (fun s m r hs hok => ?_)
    (fun s m e hs hok => ?_) hwithin
  · exact ⟨fun p hp => absurd hp (Multiset.notMem_zero p),
      fun p hp => absurd hp (Multiset.notMem_zero p),
      fun p hp => absurd hp (Multiset.notMem_zero p),
      fun p hp => absurd hp (Multiset.notMem_zero p),
      fun fd => Nat.zero_le 1, Nat.zero_le 1, fun e he => absurd he List.not_mem_nil⟩
  · cases r with
    | auth account => exact auth_single hs (hok.2.fresh s.nextFd le_rfl).2.1
    | authAi name => exact enterNew_single hs
    | enterGame fd => exact enterGame_single hs hok.2 hok.1.1 hok.1.2.1 hok.1.2.2
    | socketClosed fd => exact socketClosed_single hs
    | kickSelf a => exact kickSelf_single hs
    | disconnect a => exact stays_single (disconnect_stays a) hs
    | roomstart players => exact stays_single (roomstart_stays players) hs
    | roomend room => exact stays_single (roomend_stays room) hs
  · cases e with
    | hangup fd => exact hs.hangup hok.1
    | offLine offLineTime => exact hs.untouched ⟨rfl, rfl, rfl, rfl, fun _ => rfl, rfl⟩

/-- Every `userEnter` that is through has registered the connection of its request, which is open,
and no other maps to an agent of the account. -/
theorem userEnter_single_login {pool : Pool Game Place}
    (h : ((server order).system nobody).Runs single.Admits pool) :
    ∀ e ∈ pool.shared.entered, e.Single := (entering_of_runs h).single

instance (account : Account) (m : Multiset Place) : Decidable (Apart account m) :=
  inferInstanceAs (Decidable (∀ p ∈ m, ∀ e ∈ p.entry, _))

instance (s : Game) (m : Multiset Place) (r : Request) : Decidable (single.request s m r) :=
  match r with
  | .enterGame _ => inferInstanceAs (Decidable (_ ∧ _))
  | .auth _ | .authAi _ | .socketClosed _ | .kickSelf _ | .disconnect _ | .roomstart _
  | .roomend _ => .isTrue trivial

instance (s : Game) (m : Multiset Place) (p : Place) : Decidable (single.resume s m p) :=
  match p with
  | ⟨.enterGame _ _, _⟩ => inferInstanceAs (Decidable (_ = _))
  | ⟨.userEnter _ _ _, _⟩ => inferInstanceAs (Decidable (_ ∧ _))
  | ⟨.closing _, _⟩ => inferInstanceAs (Decidable (∀ p ∈ m, _))
  | ⟨.found _ _, _⟩ => inferInstanceAs (Decidable (Apart _ m))
  | ⟨.making (some _) account, _⟩ => inferInstanceAs (Decidable (Apart account m))
  | ⟨.making none _, _⟩ | ⟨.asked _ _, _⟩ | ⟨.seeking _ _ _, _⟩ | ⟨.answered _ _ _, _⟩
  | ⟨.starting _ _, _⟩ | ⟨.returning _ _, _⟩ | ⟨.forward _ _, _⟩ | ⟨.failed _, _⟩ | ⟨.kick _ _, _⟩
  | ⟨.release _ _, _⟩ | ⟨.released _ _, _⟩ | ⟨.exiting _, _⟩ | ⟨.roomstart _ _, _⟩
  | ⟨.seating _ _ _, _⟩ | ⟨.seated _ _, _⟩ | ⟨.roomend _, _⟩ | ⟨.unseating _ _ _ _, _⟩
  | ⟨.unseated _ _ _ _ _, _⟩ => .isTrue trivial

instance (s : Game) (m : Multiset Place) (e : Outside) : Decidable (single.outside s m e) :=
  match e with
  | .hangup _ => inferInstanceAs (Decidable (∀ p ∈ m, _))
  | .offLine _ => .isTrue trivial

/-- Two connections of an account enter, and the second closes the first. -/
theorem userEnter_single_login_twice : ∃ pool,
    ((server asListed).system nobody).Runs single.Admits pool ∧
      pool.shared.entered.map Entrance.origin = [0, 1] ∧ ∀ e ∈ pool.shared.entered, e.Single := by
  have hrun : ((((server asListed).system nobody).guarded single.Admits).run ⟨nobody, []⟩
      (login "10" ++ [.request (.enterGame 0), .resume 0, .resume 0] ++ login "10" ++
        .request (.enterGame 1) :: List.replicate 5 (.resume 0))).map
      (fun pool => pool.shared.entered.map Entrance.origin) = some [0, 1] := by
    decide +kernel
  obtain ⟨pool, hpool, horigins⟩ := Option.map_eq_some_iff.mp hrun
  have hruns := System.Runs.of_guarded_run _ .init hpool
  exact ⟨pool, hruns, horigins, userEnter_single_login hruns⟩

/-- `enterGame` is sent twice: the second `userEnter` closes the connection of its own request. -/
theorem userEnter_closes_own : ∃ pool, ((server asListed).system nobody).Reachable pool ∧
    ∃ e ∈ pool.shared.entered, e.tables.connected e.origin = false ∧ ¬ e.Single := by
  have hrun : (((server asListed).system nobody).run ⟨nobody, []⟩
      (login "10" ++ [.request (.enterGame 0), .resume 0, .resume 0, .request (.enterGame 0)] ++
        List.replicate 5 (.resume 0))).map
      (fun pool => pool.shared.entered.map fun e => e.tables.connected e.origin) =
        some [true, false] := by
    decide +kernel
  obtain ⟨pool, hpool, hconnected⟩ := Option.map_eq_some_iff.mp hrun
  have hmem : false ∈ pool.shared.entered.map fun e => e.tables.connected e.origin := by
    rw [hconnected]
    exact List.mem_cons_of_mem _ (List.mem_singleton_self false)
  obtain ⟨e, he, hclosed⟩ := List.mem_map.mp hmem
  exact ⟨pool, System.reachable_of_run _ hpool, e, he, hclosed, fun hsingle =>
    Bool.false_ne_true (hclosed.symm.trans hsingle.connected)⟩

end GameServer.Watchdog
