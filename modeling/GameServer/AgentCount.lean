import GameServer.RoomSeats

/-!
# What an agent counts

`ref_connect` of an agent is the number of connections that it counts, and one more while it counts
a room. An agent that is told to disconnect counts nothing, and nobody is about to hand it
something.
-/

namespace GameServer.Watchdog

open Cooperative Coroutine Transition

variable {s s' : Game} {m m' : Multiset Place} {p : Place} {fd : Fd} {a b : Address}
  {k : Account}

/-! ## Numbers -/

/-- The connections that the agent counts. -/
def Game.clients (s : Game) (a : Address) : ℕ :=
  ((Finset.range s.nextFd).filter fun fd => s.counted fd = some a ∧ s.held fd = true).card

def Game.seats (s : Game) (a : Address) : ℕ :=
  if s.seat (s.agents a).account = some a then 1 else 0

theorem card_filter_add_one {n i : ℕ} {P Q : ℕ → Prop} [DecidablePred P] [DecidablePred Q]
    (hi : i < n) (hother : ∀ j, j ≠ i → (Q j ↔ P j)) (hP : ¬ P i) (hQ : Q i) :
    ((Finset.range n).filter Q).card = ((Finset.range n).filter P).card + 1 := by
  have hnot : i ∉ (Finset.range n).filter P := fun hmem => hP (Finset.mem_filter.mp hmem).2
  rw [← Finset.card_insert_of_notMem hnot]
  congr 1
  ext j
  rw [Finset.mem_insert, Finset.mem_filter, Finset.mem_filter]
  by_cases hj : j = i
  · subst hj
    exact ⟨fun _ => .inl rfl, fun _ => ⟨Finset.mem_range.mpr hi, hQ⟩⟩
  · rw [hother j hj]
    exact ⟨.inr, fun hmem => hmem.resolve_left hj⟩

theorem clients_count (hfd : fd < s.nextFd) (hcounted : s.counted fd = none) (b : Address) :
    (s.count fd a).clients b = s.clients b + if b = a then 1 else 0 := by
  have hself : (s.count fd a).counted fd = some a := Function.update_self _ _ _
  have hheld : (s.count fd a).held fd = true := Function.update_self _ _ _
  have hother : ∀ f, f ≠ fd → ((s.count fd a).counted f = some b ∧ (s.count fd a).held f = true ↔
      s.counted f = some b ∧ s.held f = true) := by
    intro f hf
    have hc : (s.count fd a).counted f = s.counted f := Function.update_of_ne hf _ _
    have hh : (s.count fd a).held f = s.held f := Function.update_of_ne hf _ _
    rw [hc, hh]
  have hnot : ¬ (s.counted fd = some b ∧ s.held fd = true) := fun hand =>
    Option.some_ne_none b (hand.1.symm.trans hcounted)
  by_cases hb : b = a
  · subst hb
    rw [if_pos rfl]
    exact card_filter_add_one hfd hother hnot ⟨hself, hheld⟩
  · rw [if_neg hb, Nat.add_zero]
    refine congrArg Finset.card (Finset.filter_congr fun f _ => ?_)
    by_cases hf : f = fd
    · subst hf
      refine iff_of_false (fun hand => hb ?_) hnot
      exact (Option.some.inj (hself.symm.trans hand.1)).symm
    · exact hother f hf

theorem clients_release (hfd : fd < s.nextFd) (hcounted : s.counted fd = some a)
    (hheld : s.held fd = true) (b : Address) :
    (s.release fd a).clients b + (if b = a then 1 else 0) = s.clients b := by
  have hself : (s.release fd a).held fd = false := Function.update_self _ _ _
  have hother : ∀ f, f ≠ fd → (s.counted f = some b ∧ s.held f = true ↔
      (s.release fd a).counted f = some b ∧ (s.release fd a).held f = true) := by
    intro f hf
    have hh : (s.release fd a).held f = s.held f := Function.update_of_ne hf _ _
    rw [hh]
    exact Iff.rfl
  have hnot : ¬ ((s.release fd a).counted fd = some b ∧ (s.release fd a).held fd = true) :=
    fun hand => Bool.false_ne_true (hself.symm.trans hand.2)
  by_cases hb : b = a
  · subst hb
    rw [if_pos rfl]
    exact (card_filter_add_one hfd hother hnot ⟨hcounted, hheld⟩).symm
  · rw [if_neg hb, Nat.add_zero]
    refine congrArg Finset.card (Finset.filter_congr fun f _ => ?_)
    by_cases hf : f = fd
    · subst hf
      refine iff_of_false hnot fun hand => hb ?_
      exact (Option.some.inj (hcounted.symm.trans hand.1)).symm
    · exact (hother f hf).symm

/-! ## Places -/

/-- The agent that will be told to disconnect. -/
def Wait.tells : Wait → Option Address
  | .released a ref => if ref ≤ 0 then some a else none
  | .unseated _ _ a ref _ => if ref ≤ 0 then some a else none
  | _ => none

def Owed (m : Multiset Place) (a : Address) : Prop := ∃ p ∈ m, a ∈ p.wait.owed

def Tells (m : Multiset Place) (a : Address) : Prop := ∃ p ∈ m, p.wait.tells = some a

def Exits (m : Multiset Place) (a : Address) : Prop := ∃ p ∈ m, p.wait = .exiting a

theorem exists_cons {P : Place → Prop} : (∃ q ∈ p ::ₘ m, P q) ↔ P p ∨ ∃ q ∈ m, P q := by
  simp only [Multiset.mem_cons, or_and_right, exists_or, exists_eq_left]

theorem owed_cons : Owed (p ::ₘ m) a ↔ a ∈ p.wait.owed ∨ Owed m a := exists_cons

theorem tells_cons : Tells (p ::ₘ m) a ↔ p.wait.tells = some a ∨ Tells m a := exists_cons

theorem exits_cons : Exits (p ::ₘ m) a ↔ p.wait = .exiting a ∨ Exits m a := exists_cons

/-! ## The invariant -/

structure Counts (s : Game) (m : Multiset Place) (a : Address) : Prop where
  count : (s.agents a).refConnect = s.clients a + s.seats a
  owed : Owed m a → 0 < (s.agents a).refConnect
  told : (s.agents a).told = true → (s.agents a).refConnect = 0 ∧ (s.agents a).started = true
  exited : (s.agents a).exited = true → (s.agents a).told = true
  tells : Tells m a → (s.agents a).refConnect = 0 ∧ (s.agents a).started = true
  exits : Exits m a → (s.agents a).told = true
  idle : (s.agents a).started = true → (s.agents a).refConnect = 0 →
    (s.agents a).told = true ∨ Tells m a
  gone : (s.agents a).told = true → ∀ fd, s.agentfd fd ≠ some a

def Counted (s : Game) (m : Multiset Place) : Prop := ∀ a, Counts s m a

/-- The agent counts the same, and nobody hands it a connection when it was told to disconnect. -/
structure SameCount (s s' : Game) (a : Address) : Prop where
  refConnect : (s'.agents a).refConnect = (s.agents a).refConnect
  told : (s'.agents a).told = (s.agents a).told
  exited : (s'.agents a).exited = (s.agents a).exited
  started : (s'.agents a).started = (s.agents a).started
  number : s'.clients a + s'.seats a = s.clients a + s.seats a
  agentfd : ∀ fd, s'.agentfd fd = some a → s.agentfd fd = some a ∨ (s.agents a).told = false

theorem Counts.congr (h : Counts s m a) (hs : SameCount s s' a) (howed : Owed m' a → Owed m a)
    (htells : Tells m' a ↔ Tells m a) (hexits : Exits m' a → Exits m a) : Counts s' m' a := by
  refine ⟨?_, fun hm => ?_, fun htold => ?_, fun hexited => ?_, fun hm => ?_, fun hm => ?_,
    fun hstarted hzero => ?_, fun htold fd hmap => ?_⟩
  · rw [hs.refConnect, h.count, ← Nat.cast_add, ← Nat.cast_add, hs.number]
  · rw [hs.refConnect]
    exact h.owed (howed hm)
  · rw [hs.refConnect, hs.started]
    exact h.told (hs.told.symm.trans htold)
  · rw [hs.told]
    exact h.exited (hs.exited.symm.trans hexited)
  · rw [hs.refConnect, hs.started]
    exact h.tells (htells.mp hm)
  · rw [hs.told]
    exact h.exits (hexits hm)
  · rw [hs.told, htells]
    exact h.idle (hs.started.symm.trans hstarted) (hs.refConnect.symm.trans hzero)
  · rw [hs.told] at htold
    rcases hs.agentfd fd hmap with hold | huntold
    · exact h.gone htold fd hold
    · exact Bool.false_ne_true (huntold.symm.trans htold)

theorem Counted.calm (h : Counted s m) (hs : ∀ a, SameCount s s' a) : Counted s' m := fun a =>
  (h a).congr (hs a) id Iff.rfl id

theorem Counted.add (h : Counted s m) (howed : ∀ a ∈ p.wait.owed, 0 < (s.agents a).refConnect)
    (htells : p.wait.tells = none) (hexits : ∀ a, p.wait = .exiting a → (s.agents a).told = true) :
    Counted s (p ::ₘ m) := by
  intro a
  have hnot : p.wait.tells ≠ some a := fun hsome =>
    Option.some_ne_none a (hsome.symm.trans htells)
  refine ⟨(h a).count, fun hm => ?_, (h a).told, (h a).exited, fun hm => ?_, fun hm => ?_,
    fun hstarted hzero => ?_, (h a).gone⟩
  · exact (owed_cons.mp hm).elim (howed a) (h a).owed
  · exact (h a).tells ((tells_cons.mp hm).resolve_left hnot)
  · exact (exits_cons.mp hm).elim (hexits a) (h a).exits
  · exact ((h a).idle hstarted hzero).imp_right fun hm => tells_cons.mpr (.inr hm)

theorem Counted.drop (h : Counted s (p ::ₘ m)) (htells : p.wait.tells = none) : Counted s m := by
  intro a
  have hnot : p.wait.tells ≠ some a := fun hsome =>
    Option.some_ne_none a (hsome.symm.trans htells)
  refine ⟨(h a).count, fun hm => (h a).owed (owed_cons.mpr (.inr hm)), (h a).told, (h a).exited,
    fun hm => (h a).tells (tells_cons.mpr (.inr hm)),
    fun hm => (h a).exits (exits_cons.mpr (.inr hm)), fun hstarted hzero => ?_, (h a).gone⟩
  exact ((h a).idle hstarted hzero).imp_right fun hm => (tells_cons.mp hm).resolve_left hnot

/-- An agent that is about to be handed something has not exited. -/
theorem Counts.alive (h : Counts s m a) (hpos : 0 < (s.agents a).refConnect) :
    (s.agents a).told = false ∧ (s.agents a).exited = false := by
  have htold : (s.agents a).told = false := by
    by_contra hnot
    have hzero := (h.told (Bool.eq_true_of_not_eq_false hnot)).1
    omega
  refine ⟨htold, ?_⟩
  by_contra hnot
  exact Bool.false_ne_true (htold.symm.trans (h.exited (Bool.eq_true_of_not_eq_false hnot)))

theorem Counts.untold (h : Counts s m a) (hstarted : (s.agents a).started = false) :
    (s.agents a).told = false := by
  by_contra hnot
  have hold := (h.told (Bool.eq_true_of_not_eq_false hnot)).2
  exact Bool.false_ne_true (hstarted.symm.trans hold)

/-! ## An agent counts more, or less -/

/-- An agent that counts something counts one thing more. -/
theorem Counted.more (h : Counted s m) (hs : ∀ b, b ≠ a → SameCount s s' b)
    (hpos : 0 < (s.agents a).refConnect)
    (hrefConnect : (s'.agents a).refConnect = (s.agents a).refConnect + 1)
    (htold : (s'.agents a).told = (s.agents a).told)
    (hexited : (s'.agents a).exited = (s.agents a).exited)
    (hnumber : s'.clients a + s'.seats a = s.clients a + s.seats a + 1) : Counted s' m := by
  intro b
  by_cases hb : b = a
  · subst hb
    have hcount := (h b).count
    obtain ⟨huntold, halive⟩ := (h b).alive hpos
    refine ⟨by omega, fun _ => by omega, fun hnow => ?_, fun hnow => ?_, fun hm => ?_, fun hm => ?_,
      fun _ hzero => by omega, fun hnow => ?_⟩
    · exact absurd (huntold.symm.trans (htold.symm.trans hnow)) Bool.false_ne_true
    · exact absurd (halive.symm.trans (hexited.symm.trans hnow)) Bool.false_ne_true
    · have hzero := ((h b).tells hm).1
      omega
    · exact htold.trans ((h b).exits hm)
    · exact absurd (huntold.symm.trans (htold.symm.trans hnow)) Bool.false_ne_true
  · exact (h b).congr (hs b hb) id Iff.rfl id

/-- An agent counts one thing less, and waits for the answer to be read. -/
theorem Counted.less (h : Counted s m) (hs : ∀ b, b ≠ a → SameCount s s' b)
    (hrefConnect : (s'.agents a).refConnect = (s.agents a).refConnect - 1)
    (htold : (s'.agents a).told = (s.agents a).told)
    (hexited : (s'.agents a).exited = (s.agents a).exited)
    (hstarted : (s'.agents a).started = true)
    (hnumber : s'.clients a + s'.seats a + 1 = s.clients a + s.seats a)
    (howed : (s.agents a).refConnect = 1 → ¬ Owed m a) (hp : p.wait.owed = [])
    (htells : p.wait.tells = if (s'.agents a).refConnect ≤ 0 then some a else none)
    (hexits : ∀ b, p.wait ≠ .exiting b) : Counted s' (p ::ₘ m) := by
  have hcount := (h a).count
  intro b
  have hm_owed : Owed (p ::ₘ m) b → Owed m b := fun hm => by
    refine (owed_cons.mp hm).resolve_left ?_
    rw [hp]
    exact List.not_mem_nil
  have hm_exits : Exits (p ::ₘ m) b → Exits m b :=
    fun hm => (exits_cons.mp hm).resolve_left (hexits b)
  by_cases hb : b = a
  · subst hb
    have hpos : 0 < (s.agents b).refConnect := by omega
    obtain ⟨huntold, halive⟩ := (h b).alive hpos
    refine ⟨by omega, fun hm => ?_, fun hnow => ?_, fun hnow => ?_, fun hm => ?_, fun hm => ?_,
      fun _ hzero => ?_, fun hnow => ?_⟩
    · by_contra hnot
      exact howed (by omega) (hm_owed hm)
    · exact absurd (huntold.symm.trans (htold.symm.trans hnow)) Bool.false_ne_true
    · exact absurd (halive.symm.trans (hexited.symm.trans hnow)) Bool.false_ne_true
    · rcases tells_cons.mp hm with hself | hm
      · rw [htells, Option.ite_none_right_eq_some] at hself
        exact ⟨by omega, hstarted⟩
      · have hzero := ((h b).tells hm).1
        omega
    · exact htold.trans ((h b).exits (hm_exits hm))
    · refine .inr (tells_cons.mpr (.inl ?_))
      rw [htells, if_pos hzero.le]
    · exact absurd (huntold.symm.trans (htold.symm.trans hnow)) Bool.false_ne_true
  · refine (h b).congr (hs b hb) hm_owed (tells_cons.trans (or_iff_right ?_)) hm_exits
    rw [htells]
    split
    · exact fun heq => hb (Option.some.inj heq).symm
    · exact fun heq => by cases heq

/-! ## Steps -/

theorem addConnectRef_agents (r : ℤ) (b : Address) : (s.addConnectRef a r).agents b =
    if b = a then { s.agents a with refConnect := (s.agents a).refConnect + r } else s.agents b :=
  setAgent_agents _ b

/-- An agent that keeps its account keeps its seat. -/
theorem seats_congr {v : Agent} (hagents : ∀ b, s'.agents b = if b = a then v else s.agents b)
    (haccount : v.account = (s.agents a).account) (hseat : s'.seat = s.seat) (b : Address) :
    s'.seats b = s.seats b := by
  unfold Game.seats
  rw [hagents, hseat]
  split
  · next hb => rw [hb, haccount]
  · rfl

theorem sit_seats (hseat : s.seat (s.agents a).account = none) (b : Address) :
    (s.sit a).seats b = s.seats b + if b = a then 1 else 0 := by
  have haccount : ((s.sit a).agents b).account = (s.agents b).account := addConnectRef_account 1 b
  unfold Game.seats
  rw [haccount, sit_seat]
  by_cases hb : b = a
  · subst hb
    rw [if_pos rfl, if_pos rfl, if_pos rfl, hseat, if_neg (Option.some_ne_none b).symm]
  · rw [if_neg hb, Nat.add_zero]
    split
    · next hk =>
        rw [hk, hseat, if_neg fun heq => hb (Option.some.inj heq).symm,
          if_neg (Option.some_ne_none b).symm]
    · rfl

theorem rise_seats (hseat : s.seat k = some a) (haccount : (s.agents a).account = k) (b : Address) :
    (s.rise k a).seats b + (if b = a then 1 else 0) = s.seats b := by
  have hkept : ((s.rise k a).agents b).account = (s.agents b).account :=
    addConnectRef_account (-1) b
  unfold Game.seats
  rw [hkept, rise_seat]
  by_cases hb : b = a
  · subst hb
    rw [haccount, if_pos rfl, if_pos rfl, if_neg (Option.some_ne_none b).symm, if_pos hseat]
  · rw [if_neg hb, Nat.add_zero]
    split
    · next hk =>
        rw [hk, hseat, if_neg (Option.some_ne_none b).symm,
          if_neg fun heq => hb (Option.some.inj heq).symm]
    · rfl

theorem SameCount.other (hb : b ≠ a) (hagents : s'.agents b = s.agents b)
    (hclients : s'.clients b = s.clients b + if b = a then 1 else 0)
    (hseats : s'.seats b = s.seats b) (hagentfd : s'.agentfd = s.agentfd) : SameCount s s' b := by
  refine ⟨by rw [hagents], by rw [hagents], by rw [hagents], by rw [hagents], ?_, fun fd hmap => ?_⟩
  · rw [hclients, hseats, if_neg hb, Nat.add_zero]
  · rw [hagentfd] at hmap
    exact .inl hmap

theorem Counted.reconnect (h : Counted s m) (hfd : fd < s.nextFd) (hcounted : s.counted fd = none)
    (hpos : 0 < (s.agents a).refConnect) : Counted (s.reconnect a fd) m := by
  have hagents : ∀ b, (s.reconnect a fd).agents b = if b = a then { s.agents a with
      userFd := some fd, refConnect := (s.agents a).refConnect + 1 } else s.agents b :=
    setAgent_agents _
  have hclients := clients_count (a := a) hfd hcounted
  have hself := hagents a
  rw [if_pos rfl] at hself
  have hseats : ∀ b, (s.reconnect a fd).seats b = s.seats b := seats_congr hagents rfl rfl
  refine h.more (fun b hb => ?_) hpos (by rw [hself]) (by rw [hself]) (by rw [hself]) ?_
  · exact .other hb ((hagents b).trans (if_neg hb)) (hclients b) (hseats b) rfl
  · have hnumber : (s.reconnect a fd).clients a = s.clients a + 1 :=
      (hclients a).trans (by rw [if_pos rfl])
    rw [hnumber, hseats]
    omega

theorem Counted.sit (h : Counted s m) (hpos : 0 < (s.agents a).refConnect)
    (hseat : s.seat (s.agents a).account = none) : Counted (s.sit a) m := by
  have hagents : ∀ b, (s.sit a).agents b = _ := addConnectRef_agents 1
  have hself := hagents a
  rw [if_pos rfl] at hself
  refine h.more (fun b hb => ?_) hpos (by rw [hself]) (by rw [hself]) (by rw [hself]) ?_
  · refine .other hb ((hagents b).trans (if_neg hb)) ?_ ?_ rfl
    · rw [if_neg hb]
      rfl
    · rw [sit_seats hseat, if_neg hb, Nat.add_zero]
  · rw [sit_seats hseat, if_pos rfl]
    rfl

theorem Counted.release {entry : Option Entry} (h : Counted s m) (hfd : fd < s.nextFd)
    (hcounted : s.counted fd = some a) (hheld : s.held fd = true)
    (hstarted : (s.agents a).started = true) (howed : (s.agents a).refConnect = 1 → ¬ Owed m a) :
    Counted (s.release fd a)
      (⟨.released a ((s.release fd a).agents a).refConnect, entry⟩ ::ₘ m) := by
  have hagents : ∀ b, (s.release fd a).agents b = _ := addConnectRef_agents (-1)
  have hclients := clients_release hfd hcounted hheld
  have hself := hagents a
  rw [if_pos rfl] at hself
  have hseats : ∀ b, (s.release fd a).seats b = s.seats b := seats_congr hagents rfl rfl
  refine h.less (fun b hb => ?_) (by rw [hself]; rfl) (by rw [hself]) (by rw [hself])
    (by rw [hself]; exact hstarted) ?_ howed rfl rfl (by simp)
  · refine .other hb ((hagents b).trans (if_neg hb)) ?_ (hseats b) rfl
    have hb' := hclients b
    rw [if_neg hb, Nat.add_zero] at hb'
    rw [if_neg hb, Nat.add_zero, hb']
  · have hnumber := hclients a
    rw [if_pos rfl] at hnumber
    rw [hseats]
    omega

theorem Counted.rise {room : Room} {rest : List Account} (h : Counted s m)
    (hseat : s.seat k = some a) (haccount : (s.agents a).account = k)
    (hstarted : (s.agents a).started = true) (howed : (s.agents a).refConnect = 1 → ¬ Owed m a) :
    Counted (s.rise k a)
      (⟨.unseated room k a ((s.rise k a).agents a).refConnect rest, none⟩ ::ₘ m) := by
  have hagents : ∀ b, (s.rise k a).agents b = _ := addConnectRef_agents (-1)
  have hseats := rise_seats hseat haccount
  have hself := hagents a
  rw [if_pos rfl] at hself
  refine h.less (fun b hb => ?_) (by rw [hself]; rfl) (by rw [hself]) (by rw [hself])
    (by rw [hself]; exact hstarted) ?_ howed rfl rfl (by simp)
  · refine .other hb ((hagents b).trans (if_neg hb)) ?_ ?_ rfl
    · rw [if_neg hb]
      rfl
    · have hb' := hseats b
      rwa [if_neg hb, Nat.add_zero] at hb'
  · have hnumber := hseats a
    rw [if_pos rfl] at hnumber
    have hclients : (s.rise k a).clients a = s.clients a := rfl
    rw [hclients]
    omega

/-- An agent starts, and counts the connection that it was made for. -/
theorem Counted.start (h : Counted s m) (hfd : fd < s.nextFd) (hcounted : s.counted fd = none)
    (hnew : (s.agents a).started = false) (hclients : ∀ f, s.counted f ≠ some a)
    (hseat : ∀ k, s.seat k ≠ some a) : Counted (s.start a (some fd)) m := by
  have hagents : ∀ b, (s.start a (some fd)).agents b = _ := start_agents (s := s) (a := a) (some fd)
  have hnumber : ∀ b, (s.start a (some fd)).clients b = s.clients b + if b = a then 1 else 0 :=
    clients_count hfd hcounted
  have hseats : ∀ b, (s.start a (some fd)).seats b = s.seats b := seats_congr hagents rfl rfl
  intro b
  by_cases hb : b = a
  · subst hb
    have hself := hagents b
    rw [if_pos rfl] at hself
    have hzero : s.clients b = 0 :=
      Finset.card_eq_zero.mpr (Finset.filter_eq_empty_iff.mpr fun f _ hand => hclients f hand.1)
    have hnoseat : s.seats b = 0 := if_neg (hseat _)
    have huntold := (h b).untold hnew
    have hnot : ∀ {P : Prop}, (s.agents b).started = true → P := fun hstarted =>
      absurd (hnew.symm.trans hstarted) Bool.false_ne_true
    refine ⟨?_, fun _ => ?_, fun htold => ?_, fun hexited => ?_, fun hm => hnot ((h b).tells hm).2,
      fun hm => ?_, fun _ hz => ?_, fun htold => ?_⟩
    · rw [hself, hnumber, hseats, hzero, hnoseat, if_pos rfl]
      rfl
    · rw [hself]
      exact one_pos
    · rw [hself] at htold
      exact absurd (huntold.symm.trans htold) Bool.false_ne_true
    · rw [hself] at hexited
      exact absurd (huntold.symm.trans ((h b).exited hexited)) Bool.false_ne_true
    · exact absurd (huntold.symm.trans ((h b).exits hm)) Bool.false_ne_true
    · rw [hself] at hz
      exact absurd hz one_ne_zero
    · rw [hself] at htold
      exact absurd (huntold.symm.trans htold) Bool.false_ne_true
  · exact (h b).congr (.other hb ((hagents b).trans (if_neg hb)) (hnumber b) (hseats b) rfl) id
      Iff.rfl id

/-- What the watchdog says of an agent that counts nothing. -/
theorem Counted.gone (h : Counted s m) (hwired : Wired s m) (hstarted : (s.agents a).started = true)
    (hzero : (s.agents a).refConnect = 0) : ∀ fd, s.agentfd fd ≠ some a := by
  intro fd hmap
  rcases hwired.stage fd with ⟨-, hrests⟩ | ⟨r, hroles, hholds⟩
  · cases hrests with
    | idle hagentfd _ => exact Option.some_ne_none a (hmap.symm.trans hagentfd)
    | lost b hagentfd _ _ hexited =>
        obtain rfl := Option.some.inj (hmap.symm.trans hagentfd)
        exact (h a).gone ((h a).exited hexited) fd hmap
    | mapped b hagentfd hcounted hheld =>
        obtain rfl := Option.some.inj (hmap.symm.trans hagentfd)
        have hlt : fd < s.nextFd := hwired.lt_of_counted (hcounted ▸ Option.some_ne_none a)
        have hpos : 0 < s.clients a := Finset.card_pos.mpr
          ⟨fd, Finset.mem_filter.mpr ⟨Finset.mem_range.mpr hlt, hcounted, hheld⟩⟩
        have hcount := (h a).count
        omega
    | kept b hagentfd _ _ _ => exact Option.some_ne_none a (hmap.symm.trans hagentfd)
    | gone b hagentfd _ _ => exact Option.some_ne_none a (hmap.symm.trans hagentfd)
  · have hmem : r ∈ roles m fd := hroles ▸ Multiset.mem_singleton_self r
    obtain ⟨p, hp, hrole⟩ := (Multiset.mem_filterMap _ _).mp hmem
    cases r with
    | login => exact Option.some_ne_none a (hmap.symm.trans hholds.1)
    | leaving b => exact Option.some_ne_none a (hmap.symm.trans hholds.1)
    | counting b =>
        obtain rfl := Option.some.inj (hmap.symm.trans hholds.1)
        rcases role_counting hrole with hnew | howed
        · have hpos : 0 < m.countP (Place.Starts a) := Multiset.countP_pos.mpr ⟨p, hp, hnew⟩
          rw [hwired.born.starts, if_neg fun hand => ?_] at hpos
          · exact lt_irrefl 0 hpos
          · exact Bool.false_ne_true (hand.2.symm.trans hstarted)
        · have hpos := (h a).owed ⟨p, hp, howed⟩
          omega

/-- An agent that counts nothing is told to disconnect. -/
theorem Counted.tell (h : Counted s (p ::ₘ m)) (htells : p.wait.tells = some a)
    (hgone : ∀ fd, s.agentfd fd ≠ some a) : Counted (s.tell a) m := by
  have hagents : ∀ b, (s.tell a).agents b = _ := setAgent_agents (s := s) (a := a)
    { s.agents a with told := true }
  intro b
  have hb := h b
  have hseats : (s.tell a).seats b = s.seats b := seats_congr hagents rfl rfl b
  by_cases heq : b = a
  · subst heq
    have hself := hagents b
    rw [if_pos rfl] at hself
    obtain ⟨hzero, hstarted⟩ := hb.tells (tells_cons.mpr (.inl htells))
    have hcount := hb.count
    refine ⟨?_, fun hm => ?_, fun _ => ?_, fun _ => ?_, fun _ => ?_, fun _ => ?_,
      fun _ _ => .inl ?_, fun _ => hgone⟩
    · rw [hself, hseats]
      exact hcount
    · rw [hself]
      exact hb.owed (owed_cons.mpr (.inr hm))
    · rw [hself]
      exact ⟨hzero, hstarted⟩
    · rw [hself]
    · rw [hself]
      exact ⟨hzero, hstarted⟩
    · rw [hself]
    · rw [hself]
  · have hother := (hagents b).trans (if_neg heq)
    refine hb.congr (.other heq hother (by rw [if_neg heq]; rfl) hseats rfl)
      (fun hm => owed_cons.mpr (.inr hm)) ?_ fun hm => exits_cons.mpr (.inr hm)
    rw [tells_cons, htells]
    exact (or_iff_right fun hsome => heq (Option.some.inj hsome).symm).symm

theorem Counted.exit (h : Counted s m) (htold : (s.agents a).told = true) :
    Counted (s.exit a) m := by
  have hagents : ∀ b, (s.exit a).agents b = _ := setAgent_agents (s := s) (a := a)
    { s.agents a with exited := true, userFd := none }
  have hseats : ∀ b, (s.exit a).seats b = s.seats b := seats_congr hagents rfl rfl
  intro b
  by_cases heq : b = a
  · subst heq
    have hself := hagents b
    rw [if_pos rfl] at hself
    have hb := h b
    refine ⟨?_, fun hm => ?_, fun _ => ?_, fun _ => ?_, fun hm => ?_, fun _ => ?_,
      fun _ _ => .inl ?_, fun _ => hb.gone htold⟩
    · rw [hself, hseats]
      exact hb.count
    · rw [hself]
      exact hb.owed hm
    · rw [hself]
      exact hb.told htold
    · rw [hself]
      exact htold
    · rw [hself]
      exact hb.tells hm
    · rw [hself]
      exact htold
    · rw [hself]
      exact htold
  · have hother := (hagents b).trans (if_neg heq)
    exact (h b).congr (.other heq hother (by rw [if_neg heq]; rfl) (hseats b) rfl) id Iff.rfl id

/-! ## Changes of other tables -/

/-- What agents count is the same, and the watchdog knows no more connections. -/
theorem sameCount_of (hagents : s'.agents = s.agents) (hcounted : s'.counted = s.counted)
    (hheld : s'.held = s.held) (hseat : s'.seat = s.seat) (hnextFd : s'.nextFd = s.nextFd)
    (hagentfd : ∀ fd a, s'.agentfd fd = some a → s.agentfd fd = some a) : SameCount s s' a := by
  refine ⟨by rw [hagents], by rw [hagents], by rw [hagents], by rw [hagents], ?_,
    fun fd hmap => .inl (hagentfd fd a hmap)⟩
  unfold Game.clients Game.seats
  rw [hagents, hcounted, hheld, hseat, hnextFd]

theorem Counted.connect (h : Counted s m) (hfresh : s.counted s.nextFd = none) :
    Counted s.connect m := by
  refine h.calm fun a => ⟨rfl, rfl, rfl, rfl, ?_, fun fd hmap => .inl hmap⟩
  have hclients : s.connect.clients a = s.clients a := by
    unfold Game.clients
    have hnot : ¬ (s.connect.counted s.nextFd = some a ∧ s.connect.held s.nextFd = true) :=
      fun hand =>
      Option.some_ne_none a (hand.1.symm.trans hfresh)
    change ((Finset.range (s.nextFd + 1)).filter _).card = _
    rw [Finset.range_add_one, Finset.filter_insert, if_neg hnot]
    rfl
  rw [hclients]
  rfl

theorem Counted.setAgentfd (h : Counted s m) (huntold : (s.agents a).told = false) :
    Counted (s.setAgentfd fd a) m := by
  refine h.calm fun b => ⟨rfl, rfl, rfl, rfl, rfl, fun f hmap => ?_⟩
  have hmap' : (if f = fd then some a else s.agentfd f) = some b :=
    (Function.update_apply _ _ _ _).symm.trans hmap
  split at hmap'
  · exact .inr (Option.some.inj hmap' ▸ huntold)
  · exact .inl hmap'

theorem Counted.newservice (h : Counted s m) (account : Account) (o : Option Fd)
    (hseat : ∀ k, s.seat k ≠ some s.nextAgent) : Counted (s.newservice account o) m := by
  refine h.calm fun b => ?_
  have hagents := newservice_agents (s := s) account o b
  have hseats : (s.newservice account o).seats b = s.seats b := by
    unfold Game.seats
    have hsame : (s.newservice account o).seat = s.seat := rfl
    rw [hsame, hagents]
    split
    · next hb => rw [hb, if_neg (hseat _), if_neg (hseat _)]
    · rfl
  refine ⟨?_, ?_, ?_, ?_, congrArg (s.clients b + ·) hseats, fun fd hmap => .inl hmap⟩ <;>
    rw [hagents] <;> split <;> first | rfl | (next hb => rw [hb])

end GameServer.Watchdog
