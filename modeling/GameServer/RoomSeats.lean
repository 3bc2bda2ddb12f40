import GameServer.Wiring

/-!
# Seats in rooms

The server manager registers the players of a room one by one and lets each agent count the room,
and takes them out again one by one. An account is at one stage of that, as a connection is.
-/

namespace GameServer.Watchdog

open Cooperative Coroutine Transition

/-! ## One place replaced -/

section Replaced

variable {α : Type*} {P : α → Prop} {p p' : α} {m : Multiset α}

theorem exists_mem_cons_imp (hp : P p → P p') (h : ∃ q ∈ p ::ₘ m, P q) :
    ∃ q ∈ p' ::ₘ m, P q := by
  obtain ⟨q, hq, h⟩ := h
  rcases Multiset.mem_cons.mp hq with rfl | hq
  · exact ⟨p', Multiset.mem_cons_self _ _, hp h⟩
  · exact ⟨q, Multiset.mem_cons_of_mem hq, h⟩

theorem exists_mem_of_cons (hp : ¬ P p) (h : ∃ q ∈ p ::ₘ m, P q) : ∃ q ∈ m, P q := by
  obtain ⟨q, hq, h⟩ := h
  rcases Multiset.mem_cons.mp hq with rfl | hq
  · exact absurd h hp
  · exact ⟨q, hq, h⟩

end Replaced

/-! ## Places of rooms -/

/-- What a handler at a place is about to do with the seat of an account. -/
inductive Turn
  | sitting (room : Room) (a : Address)
  | rising (room : Room) (a : Address)
  | clearing (room : Room) (a : Address)

def Turn.room : Turn → Room
  | .sitting room _ | .rising room _ | .clearing room _ => room

variable {s s' : Game} {m m' : Multiset Place} {p p' : Place} {a : Address} {k : Account}
  {room : Room}

def Wait.turn (s : Game) (k : Account) : Wait → Option Turn
  | .seating room a _ => if (s.agents a).account = k then some (.sitting room a) else none
  | .unseating room k' a _ => if k' = k then some (.rising room a) else none
  | .unseated room k' a _ _ => if k' = k then some (.clearing room a) else none
  | _ => none

def turns (s : Game) (m : Multiset Place) (k : Account) : Multiset Turn :=
  m.filterMap fun p => p.wait.turn s k

/-- The players that are still to be registered. -/
def Wait.coming : Wait → Option (Room × List Address)
  | .roomstart room players => some (room, players)
  | .seating room _ rest => some (room, rest)
  | .seated room rest => some (room, rest)
  | _ => none

/-- The room whose players are taken out. -/
def Wait.ending : Wait → Option Room
  | .roomend room => some room
  | .unseating room _ _ _ => some room
  | .unseated room _ _ _ _ => some room
  | _ => none

/-- The handler will come to the account. -/
def Wait.Clears (room : Room) (k : Account) : Wait → Prop
  | .roomend room' => room' = room
  | .unseating room' k' _ rest => room' = room ∧ k ∈ k' :: rest
  | .unseated room' k' _ _ rest => room' = room ∧ k ∈ k' :: rest
  | _ => False

def Place.Ends (room : Room) (p : Place) : Prop := p.wait.ending = some room

instance (room : Room) (p : Place) : Decidable (p.Ends room) := inferInstanceAs (Decidable (_ = _))

theorem Wait.Clears.ending {w : Wait} (h : w.Clears room k) : w.ending = some room := by
  cases w <;> simp_all [Wait.Clears, Wait.ending]

/-- The handler has nothing to do with rooms, or waits for an agent to be counted. -/
def Wait.Roomless : Wait → Prop
  | .roomstart _ _ | .seating _ _ _ | .seated _ _ | .roomend _ => False
  | .unseating _ _ _ _ | .unseated _ _ _ _ _ => False
  | _ => True

theorem Wait.Roomless.turn {w : Wait} (h : w.Roomless) (s : Game) (k : Account) :
    w.turn s k = none := by
  cases w <;> first | rfl | exact h.elim

theorem Wait.Roomless.coming {w : Wait} (h : w.Roomless) : w.coming = none := by
  cases w <;> first | rfl | exact h.elim

theorem Wait.Roomless.ending {w : Wait} (h : w.Roomless) : w.ending = none := by
  cases w <;> first | rfl | exact h.elim

/-- A place speaks of the accounts of the agents that it will count only. -/
theorem Wait.turn_congr {w : Wait}
    (h : ∀ a ∈ w.owed, (s'.agents a).account = (s.agents a).account) (k : Account) :
    w.turn s' k = w.turn s k := by
  cases w with
  | seating room a rest =>
      dsimp only [Wait.turn]
      rw [h a List.mem_cons_self]
  | _ => rfl

theorem turns_cons_none (h : p.wait.turn s k = none) : turns s (p ::ₘ m) k = turns s m k :=
  Multiset.filterMap_cons_none _ _ h

theorem turns_cons_some {t : Turn} (h : p.wait.turn s k = some t) :
    turns s (p ::ₘ m) k = t ::ₘ turns s m k := Multiset.filterMap_cons_some _ _ _ h

theorem turns_congr
    (h : ∀ p ∈ m, ∀ a ∈ p.wait.owed, (s'.agents a).account = (s.agents a).account) (k : Account) :
    turns s' m k = turns s m k := by
  induction m using Multiset.induction with
  | empty => rfl
  | cons p m ih =>
      have hturn := Wait.turn_congr (h p (Multiset.mem_cons_self p m)) k
      have hm := ih fun q hq => h q (Multiset.mem_cons_of_mem hq)
      cases ht : p.wait.turn s k with
      | none => rw [turns_cons_none ht, turns_cons_none (hturn.trans ht), hm]
      | some t => rw [turns_cons_some ht, turns_cons_some (hturn.trans ht), hm]

/-! ## Stages of an account -/

/-- The account is registered for the room with the agent. -/
structure Registered (s : Game) (k : Account) (room : Room) (a : Address) : Prop where
  room : s.roomAccount.lookup k = some room
  agent : s.roomAgent k = some a
  account : (s.agents a).account = k

def Turn.Holds (s : Game) (k : Account) : Turn → Prop
  | .sitting room a => Registered s k room a ∧ s.seat k = none
  | .rising room a => Registered s k room a ∧ s.seat k = some a
  | .clearing room a => Registered s k room a ∧ s.seat k = none

inductive Settled (s : Game) (k : Account) : Prop
  | free (hroom : s.roomAccount.lookup k = none) (hagent : s.roomAgent k = none)
      (hseat : s.seat k = none)
  | taken (room : Room) (a : Address) (h : Registered s k room a) (hseat : s.seat k = some a)

def Seat (s : Game) (m : Multiset Place) (k : Account) : Prop :=
  (turns s m k = 0 ∧ Settled s k) ∨ ∃ t, turns s m k = {t} ∧ t.Holds s k

/-- A handler works at the seat, and no other does. -/
theorem Seat.holds {t : Turn} (h : Seat s (p ::ₘ m) k) (hp : p.wait.turn s k = some t) :
    turns s m k = 0 ∧ t.Holds s k := by
  unfold Seat at h
  rw [turns_cons_some hp] at h
  rcases h with ⟨hzero, -⟩ | ⟨t', hsingle, hholds⟩
  · exact absurd hzero Multiset.cons_ne_zero
  · obtain ⟨rfl, hm⟩ := Multiset.singleton_eq_cons_iff _ |>.mp hsingle.symm
    exact ⟨hm, hholds⟩

theorem Seat.rest (hturns : turns s m k = 0) (h : Settled s k) : Seat s m k := .inl ⟨hturns, h⟩

theorem Seat.work {t : Turn} (hp : p.wait.turn s k = some t) (hturns : turns s m k = 0)
    (h : t.Holds s k) : Seat s (p ::ₘ m) k := by
  refine .inr ⟨t, ?_, h⟩
  rw [turns_cons_some hp, hturns]
  rfl

/-- The tables say the same of the account. -/
structure SameSeat (s s' : Game) (k : Account) : Prop where
  room : s'.roomAccount.lookup k = s.roomAccount.lookup k
  agent : s'.roomAgent k = s.roomAgent k
  seat : s'.seat k = s.seat k
  account : ∀ a, s.roomAgent k = some a → (s'.agents a).account = (s.agents a).account

theorem Registered.congr (h : Registered s k room a) (hs : SameSeat s s' k) :
    Registered s' k room a :=
  ⟨hs.room.trans h.room, hs.agent.trans h.agent, (hs.account a h.agent).trans h.account⟩

theorem Turn.Holds.congr {t : Turn} (h : t.Holds s k) (hs : SameSeat s s' k) : t.Holds s' k := by
  cases t <;> exact ⟨h.1.congr hs, hs.seat.trans h.2⟩

theorem Seat.congr (h : Seat s m k) (hs : SameSeat s s' k) (hturns : turns s' m' k = turns s m k) :
    Seat s' m' k := by
  rcases h with ⟨hzero, hsettled⟩ | ⟨t, hsingle, hholds⟩
  · refine .inl ⟨hturns.trans hzero, ?_⟩
    cases hsettled with
    | free hroom hagent hseat =>
        exact .free (hs.room.trans hroom) (hs.agent.trans hagent) (hs.seat.trans hseat)
    | taken room a h hseat => exact .taken room a (h.congr hs) (hs.seat.trans hseat)
  · exact .inr ⟨t, hturns.trans hsingle, hholds.congr hs⟩

/-- An account is in all tables or in none. -/
theorem Seat.registered (h : Seat s m k) :
    (s.roomAccount.lookup k = none ∧ s.roomAgent k = none ∧ s.seat k = none) ∨
      ∃ room a, Registered s k room a ∧ (s.seat k = none ∨ s.seat k = some a) := by
  rcases h with ⟨-, hsettled⟩ | ⟨t, -, hholds⟩
  · cases hsettled with
    | free hroom hagent hseat => exact .inl ⟨hroom, hagent, hseat⟩
    | taken room a h hseat => exact .inr ⟨room, a, h, .inr hseat⟩
  · cases t with
    | sitting room a => exact .inr ⟨room, a, hholds.1, .inl hholds.2⟩
    | rising room a => exact .inr ⟨room, a, hholds.1, .inr hholds.2⟩
    | clearing room a => exact .inr ⟨room, a, hholds.1, .inl hholds.2⟩

theorem Seat.of_seat (h : Seat s m k) (hseat : s.seat k = some a) :
    ∃ room, Registered s k room a := by
  rcases h.registered with ⟨-, -, hnone⟩ | ⟨room, b, hr, hnone | hsome⟩
  · exact absurd (hseat.symm.trans hnone) (Option.some_ne_none a)
  · exact absurd (hseat.symm.trans hnone) (Option.some_ne_none a)
  · obtain rfl := Option.some.inj (hseat.symm.trans hsome)
    exact ⟨room, hr⟩

/-! ## The invariant -/

structure Rooms (s : Game) (m : Multiset Place) : Prop where
  seat : ∀ k, Seat s m k
  /-- The players of a room that runs are registered, or will be. -/
  players : ∀ room players, s.rooms room = some players → ∀ a ∈ players,
    Registered s (s.agents a).account room a ∨
      ∃ p ∈ m, ∃ rest, p.wait.coming = some (room, rest) ∧ a ∈ rest
  /-- Who is registered plays in the room, or will be taken out. -/
  keys : ∀ k room, s.roomAccount.lookup k = some room →
    (∃ players, s.rooms room = some players ∧ ∃ a ∈ players, s.roomAgent k = some a) ∨
      ∃ p ∈ m, p.wait.Clears room k
  coming : ∀ p ∈ m, ∀ room rest, p.wait.coming = some (room, rest) →
    (∃ players, s.rooms room = some players ∧ rest ⊆ players) ∨ ∃ q ∈ m, q.wait = .roomend room
  ending : ∀ room, m.countP (Place.Ends room) ≤
    if s.rooms room = none ∧ room < s.nextRoom then 1 else 0
  fresh : ∀ room, s.nextRoom ≤ room → s.rooms room = none ∧
    (∀ k, s.roomAccount.lookup k ≠ some room) ∧
      ∀ p ∈ m, ∀ rest, p.wait.coming ≠ some (room, rest)

theorem Rooms.closed (h : Rooms s m) (hp : p ∈ m) (hends : p.wait.ending = some room) :
    s.rooms room = none ∧ room < s.nextRoom := by
  by_contra hnot
  have hle := h.ending room
  rw [if_neg hnot] at hle
  have hpos : 0 < m.countP (Place.Ends room) := Multiset.countP_pos.mpr ⟨p, hp, hends⟩
  omega

/-- One handler takes out the players of a room. -/
theorem Rooms.ends_alone (h : Rooms s (p ::ₘ m)) (hends : p.wait.ending = some room) :
    ∀ q ∈ m, q.wait.ending ≠ some room := by
  intro q hq heq
  have hle := h.ending room
  rw [if_pos (h.closed (Multiset.mem_cons_self p m) hends),
    Multiset.countP_cons_of_pos _ (show p.Ends room from hends)] at hle
  have hpos : 0 < m.countP (Place.Ends room) := Multiset.countP_pos.mpr ⟨q, hq, heq⟩
  omega

/-- No players come in while others are taken out. -/
theorem Rooms.apart (h : Rooms s (p ::ₘ m)) (hends : p.wait.ending = some room)
    (hp : p.wait ≠ .roomend room) : ∀ q ∈ m, ∀ rest, q.wait.coming ≠ some (room, rest) := by
  intro q hq rest hcoming
  rcases h.coming q (Multiset.mem_cons_of_mem hq) room rest hcoming with
    ⟨players, hrooms, -⟩ | ⟨q', hq', hroomend⟩
  · have hclosed := (h.closed (Multiset.mem_cons_self p m) hends).1
    exact Option.some_ne_none players (hrooms.symm.trans hclosed)
  · rcases Multiset.mem_cons.mp hq' with rfl | hq'
    · exact hp hroomend
    · exact h.ends_alone hends q' hq' (by rw [hroomend]; rfl)

/-! ## Changes that leave rooms alone -/

structure SameRooms (s s' : Game) : Prop where
  roomAccount : s'.roomAccount = s.roomAccount
  roomAgent : s'.roomAgent = s.roomAgent
  seat : s'.seat = s.seat
  rooms : s'.rooms = s.rooms
  nextRoom : s'.nextRoom = s.nextRoom

/-- The agents that rooms speak of keep their accounts. -/
structure SameAccounts (s s' : Game) (m : Multiset Place) : Prop where
  registered : ∀ k a, s.roomAgent k = some a → (s'.agents a).account = (s.agents a).account
  owed : ∀ p ∈ m, ∀ a ∈ p.wait.owed, (s'.agents a).account = (s.agents a).account

theorem Wait.owed_of_coming {w : Wait} {rest : List Address}
    (h : w.coming = some (room, rest)) : ∀ a ∈ rest, a ∈ w.owed := by
  intro a ha
  cases w <;> simp only [Wait.coming, Option.some.injEq, Prod.mk.injEq, reduceCtorEq] at h
  · exact h.2 ▸ ha
  · exact List.mem_cons_of_mem _ (h.2 ▸ ha)
  · exact h.2 ▸ ha

theorem Rooms.calm (h : Rooms s m) (hs : SameRooms s s') (haccount : SameAccounts s s' m) :
    Rooms s' m := by
  have hseat : ∀ k, SameSeat s s' k := fun k =>
    ⟨by rw [hs.roomAccount], by rw [hs.roomAgent], by rw [hs.seat], haccount.registered k⟩
  refine ⟨fun k => (h.seat k).congr (hseat k) (turns_congr haccount.owed k),
    fun room players hrooms a ha => ?_, fun k room hroom => ?_, fun p hp room rest hcoming => ?_,
    fun room => ?_, fun room hroom => ?_⟩
  · rw [hs.rooms] at hrooms
    rcases h.players room players hrooms a ha with hregistered | ⟨p, hp, rest, hcoming, hrest⟩
    · refine .inl ?_
      rw [haccount.registered _ a hregistered.agent]
      exact hregistered.congr (hseat _)
    · exact .inr ⟨p, hp, rest, hcoming, hrest⟩
  · rw [hs.rooms, hs.roomAgent]
    rw [hs.roomAccount] at hroom
    exact h.keys k room hroom
  · rw [hs.rooms]
    exact h.coming p hp room rest hcoming
  · rw [hs.rooms, hs.nextRoom]
    exact h.ending room
  · rw [hs.rooms, hs.roomAccount]
    rw [hs.nextRoom] at hroom
    exact h.fresh room hroom

/-- A handler comes to a place that has nothing to do with rooms. -/
theorem Rooms.add (h : Rooms s m) (hp : p.wait.Roomless) : Rooms s (p ::ₘ m) := by
  refine ⟨fun k => (h.seat k).congr ⟨rfl, rfl, rfl, fun _ _ => rfl⟩ (turns_cons_none (hp.turn s k)),
    fun room players hrooms a ha => ?_, fun k room hroom => ?_, fun q hq room rest hcoming => ?_,
    fun room => ?_, fun room hroom => ?_⟩
  · refine (h.players room players hrooms a ha).imp_right ?_
    exact fun ⟨q, hq, hrest⟩ => ⟨q, Multiset.mem_cons_of_mem hq, hrest⟩
  · refine (h.keys k room hroom).imp_right ?_
    exact fun ⟨q, hq, hclears⟩ => ⟨q, Multiset.mem_cons_of_mem hq, hclears⟩
  · rcases Multiset.mem_cons.mp hq with rfl | hq
    · exact absurd (hcoming.symm.trans hp.coming) (Option.some_ne_none _)
    · refine (h.coming q hq room rest hcoming).imp_right ?_
      exact fun ⟨q', hq', hroomend⟩ => ⟨q', Multiset.mem_cons_of_mem hq', hroomend⟩
  · have hnot : ¬ p.Ends room := fun hends =>
      Option.some_ne_none room (hends.symm.trans hp.ending)
    rw [Multiset.countP_cons_of_neg _ hnot]
    exact h.ending room
  · obtain ⟨hrooms, hlookup, hplaces⟩ := h.fresh room hroom
    refine ⟨hrooms, hlookup, fun q hq rest hcoming => ?_⟩
    rcases Multiset.mem_cons.mp hq with rfl | hq
    · exact Option.some_ne_none _ (hcoming.symm.trans hp.coming)
    · exact hplaces q hq rest hcoming

/-- A handler ends, at a place where nothing is left to be done. -/
theorem Rooms.drop (h : Rooms s (p ::ₘ m)) (hturn : ∀ k, p.wait.turn s k = none)
    (hcoming : ∀ room rest, p.wait.coming = some (room, rest) → rest = [])
    (hclears : ∀ room k, s.roomAccount.lookup k = some room → ¬ p.wait.Clears room k)
    (hroomend : ∀ room, p.wait = .roomend room →
      ∀ q ∈ m, ∀ rest, q.wait.coming ≠ some (room, rest)) : Rooms s m := by
  refine ⟨fun k => (h.seat k).congr ⟨rfl, rfl, rfl, fun _ _ => rfl⟩
    (turns_cons_none (hturn k)).symm,
    fun room players hrooms a ha => ?_, fun k room hroom => ?_, fun q hq room rest hrest => ?_,
    fun room => ?_, fun room hroom => ?_⟩
  · refine (h.players room players hrooms a ha).imp_right (exists_mem_of_cons ?_)
    rintro ⟨rest, hrest, hmem⟩
    rw [hcoming room rest hrest] at hmem
    exact List.not_mem_nil hmem
  · exact (h.keys k room hroom).imp_right (exists_mem_of_cons (hclears room k hroom))
  · refine (h.coming q (Multiset.mem_cons_of_mem hq) room rest hrest).imp_right ?_
    exact exists_mem_of_cons fun hwait => hroomend room hwait q hq rest hrest
  · exact (Multiset.countP_le_of_le _ (Multiset.le_cons_self m p)).trans (h.ending room)
  · obtain ⟨hrooms, hlookup, hplaces⟩ := h.fresh room hroom
    exact ⟨hrooms, hlookup, fun q hq => hplaces q (Multiset.mem_cons_of_mem hq)⟩

theorem Rooms.leave (h : Rooms s (p ::ₘ m)) (hp : p.wait.Roomless) : Rooms s m := by
  refine h.drop (hp.turn s) (fun room rest hrest => ?_) (fun room k _ hclears => ?_)
    fun room hwait => ?_
  · exact absurd (hrest.symm.trans hp.coming) (Option.some_ne_none _)
  · exact Option.some_ne_none room (hclears.ending.symm.trans hp.ending)
  · rw [hwait] at hp
    exact hp.elim

/-! ## Steps of rooms -/

theorem Seat.of_free (h : Seat s m k) (hroom : s.roomAccount.lookup k = none) :
    turns s m k = 0 ∧ s.roomAgent k = none ∧ s.seat k = none := by
  rcases h with ⟨hzero, hsettled⟩ | ⟨t, -, hholds⟩
  · cases hsettled with
    | free _ hagent hseat => exact ⟨hzero, hagent, hseat⟩
    | taken room a h _ => exact absurd (h.room.symm.trans hroom) (Option.some_ne_none room)
  · cases t <;> exact absurd (hholds.1.room.symm.trans hroom) (Option.some_ne_none _)

theorem Rooms.openRoom (h : Rooms s m) (players : List Address) :
    Rooms (s.openRoom players) (⟨.roomstart s.nextRoom players, none⟩ ::ₘ m) := by
  have hself : (s.openRoom players).rooms s.nextRoom = some players := Function.update_self _ _ _
  have hother : ∀ room, room ≠ s.nextRoom → (s.openRoom players).rooms room = s.rooms room :=
    fun room hroom => Function.update_of_ne hroom _ _
  have hmem : ∀ {q}, q ∈ m → q ∈ (⟨.roomstart s.nextRoom players, none⟩ : Place) ::ₘ m :=
    Multiset.mem_cons_of_mem
  refine ⟨fun k => (h.seat k).congr ⟨rfl, rfl, rfl, fun _ _ => rfl⟩ (turns_cons_none rfl),
    fun room l hrooms a ha => ?_, fun k room hroom => ?_, fun q hq room rest hcoming => ?_,
    fun room => ?_, fun room hroom => ?_⟩
  · by_cases hroom : room = s.nextRoom
    · subst hroom
      obtain rfl := Option.some.inj (hself.symm.trans hrooms)
      exact .inr ⟨_, Multiset.mem_cons_self _ _, players, rfl, ha⟩
    · rw [hother room hroom] at hrooms
      rcases h.players room l hrooms a ha with hregistered | ⟨q, hq, hrest⟩
      · exact .inl ⟨hregistered.room, hregistered.agent, rfl⟩
      · exact .inr ⟨q, hmem hq, hrest⟩
  · have hne : room ≠ s.nextRoom := by
      rintro rfl
      exact (h.fresh s.nextRoom le_rfl).2.1 k hroom
    rw [hother room hne]
    exact (h.keys k room hroom).imp_right fun ⟨q, hq, hclears⟩ => ⟨q, hmem hq, hclears⟩
  · rcases Multiset.mem_cons.mp hq with rfl | hq
    · obtain ⟨rfl, rfl⟩ := Prod.mk.inj (Option.some.inj hcoming)
      exact .inl ⟨players, hself, List.Subset.refl _⟩
    · have hne : room ≠ s.nextRoom := by
        rintro rfl
        exact (h.fresh s.nextRoom le_rfl).2.2 q hq rest hcoming
      rw [hother room hne]
      refine (h.coming q hq room rest hcoming).imp_right ?_
      exact fun ⟨q', hq', hwait⟩ => ⟨q', hmem hq', hwait⟩
  · rw [Multiset.countP_cons_of_neg _ (by simp [Place.Ends, Wait.ending])]
    have hle := h.ending room
    by_cases hne : room = s.nextRoom
    · subst hne
      rw [if_neg fun hlt => lt_irrefl _ hlt.2] at hle
      exact hle.trans (Nat.zero_le _)
    · rw [hother room hne]
      refine hle.trans (le_of_eq (if_congr (and_congr_right fun _ => ?_) rfl rfl))
      exact (Nat.lt_succ_iff_lt_or_eq.trans (or_iff_left hne)).symm
  · have hlt : s.nextRoom < room := hroom
    obtain ⟨hrooms, hlookup, hplaces⟩ := h.fresh room hlt.le
    refine ⟨(hother room hlt.ne').trans hrooms, hlookup, fun q hq rest hcoming => ?_⟩
    rcases Multiset.mem_cons.mp hq with rfl | hq
    · exact hlt.ne (Prod.mk.inj (Option.some.inj hcoming)).1
    · exact hplaces q hq rest hcoming

theorem Rooms.closeRoom (h : Rooms s m) {players : List Address}
    (hopen : s.rooms room = some players) :
    Rooms (s.closeRoom room) (⟨.roomend room, none⟩ ::ₘ m) := by
  have hself : (s.closeRoom room).rooms room = none := Function.update_self _ _ _
  have hother : ∀ r, r ≠ room → (s.closeRoom room).rooms r = s.rooms r :=
    fun r hr => Function.update_of_ne hr _ _
  have hmem : ∀ {q}, q ∈ m → q ∈ (⟨.roomend room, none⟩ : Place) ::ₘ m := Multiset.mem_cons_of_mem
  have hlt : room < s.nextRoom := by
    by_contra hge
    exact Option.some_ne_none players (hopen.symm.trans (h.fresh room (not_lt.mp hge)).1)
  refine ⟨fun k => (h.seat k).congr ⟨rfl, rfl, rfl, fun _ _ => rfl⟩ (turns_cons_none rfl),
    fun r l hrooms a ha => ?_, fun k r hr => ?_, fun q hq r rest hcoming => ?_, fun r => ?_,
    fun r hr => ?_⟩
  · have hne : r ≠ room := by
      rintro rfl
      exact Option.some_ne_none l (hrooms.symm.trans hself)
    rw [hother r hne] at hrooms
    rcases h.players r l hrooms a ha with hregistered | ⟨q, hq, hrest⟩
    · exact .inl ⟨hregistered.room, hregistered.agent, rfl⟩
    · exact .inr ⟨q, hmem hq, hrest⟩
  · by_cases hne : r = room
    · exact .inr ⟨_, Multiset.mem_cons_self _ _, hne.symm⟩
    · rw [hother r hne]
      exact (h.keys k r hr).imp_right fun ⟨q, hq, hclears⟩ => ⟨q, hmem hq, hclears⟩
  · rcases Multiset.mem_cons.mp hq with rfl | hq
    · cases hcoming
    · by_cases hne : r = room
      · exact .inr ⟨_, Multiset.mem_cons_self _ _, congrArg Wait.roomend hne.symm⟩
      · rw [hother r hne]
        refine (h.coming q hq r rest hcoming).imp_right ?_
        exact fun ⟨q', hq', hwait⟩ => ⟨q', hmem hq', hwait⟩
  · have hle := h.ending r
    by_cases hne : r = room
    · subst hne
      rw [if_neg fun hnone => Option.some_ne_none players (hopen.symm.trans hnone.1)] at hle
      rw [Multiset.countP_cons_of_pos _ (show Place.Ends r ⟨.roomend r, none⟩ from rfl),
        if_pos ⟨hself, hlt⟩]
      omega
    · have hnot : ¬ Place.Ends r ⟨.roomend room, none⟩ := fun hends =>
        hne (Option.some.inj hends).symm
      rw [Multiset.countP_cons_of_neg _ hnot, hother r hne]
      exact hle
  · obtain ⟨hrooms, hlookup, hplaces⟩ := h.fresh r hr
    have hne : r ≠ room := (hlt.trans_le hr).ne'
    refine ⟨(hother r hne).trans hrooms, hlookup, fun q hq rest hcoming => ?_⟩
    rcases Multiset.mem_cons.mp hq with rfl | hq
    · cases hcoming
    · exact hplaces q hq rest hcoming

theorem setRoom_lookup (k : Account) : (s.setRoom room a).roomAccount.lookup k =
    if k = (s.agents a).account then some room else s.roomAccount.lookup k := by
  split
  · next h => exact h ▸ AList.lookup_insert _
  · next h => exact AList.lookup_insert_ne h

theorem Rooms.setRoom {rest : List Address} (h : Rooms s (p ::ₘ m))
    (hturn : ∀ k, p.wait.turn s k = none)
    (hcoming : p.wait.coming = some (room, a :: rest)) (hending : p.wait.ending = none)
    (hfree : s.roomAccount.lookup (s.agents a).account = none) :
    Rooms (s.setRoom room a) (⟨.seating room a rest, none⟩ ::ₘ m) := by
  have hseat : ∀ k, k ≠ (s.agents a).account → SameSeat s (s.setRoom room a) k := fun k hk =>
    ⟨(setRoom_lookup k).trans (if_neg hk), (setRoom_roomAgent room k).trans (if_neg hk), rfl,
      fun _ _ => rfl⟩
  have hregistered : Registered (s.setRoom room a) (s.agents a).account room a :=
    ⟨(setRoom_lookup _).trans (if_pos rfl), (setRoom_roomAgent room _).trans (if_pos rfl), rfl⟩
  have hnone : ∀ room' b, Registered s (s.agents b).account room' b →
      Registered (s.setRoom room a) (s.agents b).account room' b := by
    refine fun room' b hb => hb.congr (hseat _ fun hk => ?_)
    exact Option.some_ne_none room' (hb.room.symm.trans (hk ▸ hfree))
  have hmem : ∀ {q}, q ∈ m → q ∈ (⟨.seating room a rest, none⟩ : Place) ::ₘ m :=
    Multiset.mem_cons_of_mem
  refine ⟨fun k => ?_, fun room' l hrooms b hb => ?_, fun k room' hroom => ?_,
    fun q hq room' rest' hcoming' => ?_, fun room' => ?_, fun room' hroom => ?_⟩
  · by_cases hk : k = (s.agents a).account
    · subst hk
      obtain ⟨hturns, hagent, hnoseat⟩ := (h.seat (s.agents a).account).of_free hfree
      rw [turns_cons_none (hturn _)] at hturns
      refine .work (t := .sitting room a) (if_pos rfl) ?_ ⟨hregistered, hnoseat⟩
      exact (turns_congr (fun _ _ _ _ => rfl) _).trans hturns
    · refine (h.seat k).congr (hseat k hk) ?_
      have hturn' : Wait.turn (s.setRoom room a) k (.seating room a rest) = none :=
        if_neg (Ne.symm hk)
      rw [turns_cons_none (hturn k), turns_cons_none hturn']
      exact turns_congr (fun _ _ _ _ => rfl) k
  · rcases h.players room' l hrooms b hb with hold | ⟨q, hq, rest', hrest, hmem'⟩
    · exact .inl (hnone room' b hold)
    · rcases Multiset.mem_cons.mp hq with rfl | hq
      · obtain ⟨rfl, rfl⟩ := Prod.mk.inj (Option.some.inj (hrest.symm.trans hcoming))
        rcases List.mem_cons.mp hmem' with rfl | hmem'
        · exact .inl hregistered
        · exact .inr ⟨_, Multiset.mem_cons_self _ _, rest, rfl, hmem'⟩
      · exact .inr ⟨q, hmem hq, rest', hrest, hmem'⟩
  · rw [setRoom_lookup] at hroom
    rw [setRoom_roomAgent]
    split at hroom
    · next hk =>
        obtain rfl := Option.some.inj hroom
        rw [if_pos hk]
        rcases h.coming p (Multiset.mem_cons_self p m) room _ hcoming with
          ⟨players, hrooms, hsub⟩ | ⟨q, hq, hwait⟩
        · exact .inl ⟨players, hrooms, a, hsub List.mem_cons_self, rfl⟩
        · rcases Multiset.mem_cons.mp hq with rfl | hq
          · rw [hwait] at hending
            cases hending
          · refine .inr ⟨q, hmem hq, ?_⟩
            rw [hwait]
            rfl
    · next hk =>
        rw [if_neg hk]
        refine (h.keys k room' hroom).imp_right (exists_mem_cons_imp fun hclears => ?_)
        exact absurd (hclears.ending.symm.trans hending) (Option.some_ne_none _)
  · have hroomend : (∃ q ∈ p ::ₘ m, q.wait = .roomend room') →
        ∃ q ∈ (⟨.seating room a rest, none⟩ : Place) ::ₘ m, q.wait = .roomend room' := by
      refine exists_mem_cons_imp fun hwait => ?_
      rw [hwait] at hending
      cases hending
    rcases Multiset.mem_cons.mp hq with rfl | hq
    · obtain ⟨rfl, rfl⟩ := Prod.mk.inj (Option.some.inj hcoming')
      refine (h.coming p (Multiset.mem_cons_self p m) room _ hcoming).imp ?_ hroomend
      exact fun ⟨players, hrooms, hsub⟩ =>
        ⟨players, hrooms, fun b hb => hsub (List.mem_cons_of_mem a hb)⟩
    · exact (h.coming q (Multiset.mem_cons_of_mem hq) room' rest' hcoming').imp_right hroomend
  · have hle := h.ending room'
    rw [Multiset.countP_cons_of_neg _ (by simp [Place.Ends, hending])] at hle
    rw [Multiset.countP_cons_of_neg _ (by simp [Place.Ends, Wait.ending])]
    exact hle
  · obtain ⟨hrooms, hlookup, hplaces⟩ := h.fresh room' hroom
    have hne : room ≠ room' := by
      rintro rfl
      exact hplaces p (Multiset.mem_cons_self p m) _ hcoming
    refine ⟨hrooms, fun k hk => ?_, fun q hq rest' hcoming' => ?_⟩
    · rw [setRoom_lookup] at hk
      split at hk
      · exact hne (Option.some.inj hk)
      · exact hlookup k hk
    · rcases Multiset.mem_cons.mp hq with rfl | hq
      · exact hne (Prod.mk.inj (Option.some.inj hcoming')).1
      · exact hplaces q (Multiset.mem_cons_of_mem hq) rest' hcoming'

/-- A handler goes on to another place, and only seats change. -/
theorem Rooms.move (h : Rooms s (p ::ₘ m)) (hroomAccount : s'.roomAccount = s.roomAccount)
    (hroomAgent : s'.roomAgent = s.roomAgent) (hrooms : s'.rooms = s.rooms)
    (hnextRoom : s'.nextRoom = s.nextRoom)
    (haccount : ∀ a, (s'.agents a).account = (s.agents a).account)
    (hseat : ∀ k, Seat s' (p' ::ₘ m) k) (hcoming : p'.wait.coming = p.wait.coming)
    (hending : p'.wait.ending = p.wait.ending)
    (hclears : ∀ room k, s.roomAccount.lookup k = some room → p.wait.Clears room k →
      p'.wait.Clears room k)
    (hroomend : ∀ room, p.wait = .roomend room →
      ∀ q ∈ m, ∀ rest, q.wait.coming ≠ some (room, rest))
    (halone : ∀ room rest, p.wait.coming = some (room, rest) → p.wait.ending = none) :
    Rooms s' (p' ::ₘ m) := by
  refine ⟨hseat, fun room l hl a ha => ?_, fun k room hroom => ?_, fun q hq room rest hrest => ?_,
    fun room => ?_, fun room hroom => ?_⟩
  · rw [hrooms] at hl
    rcases h.players room l hl a ha with hold | ⟨q, hq, rest, hrest, hmem⟩
    · refine .inl ⟨?_, ?_, rfl⟩
      · rw [hroomAccount, haccount]
        exact hold.room
      · rw [hroomAgent, haccount]
        exact hold.agent
    · refine .inr (exists_mem_cons_imp ?_ ⟨q, hq, rest, hrest, hmem⟩)
      exact fun ⟨rest, hrest, hmem⟩ => ⟨rest, hcoming.trans hrest, hmem⟩
  · rw [hroomAccount] at hroom
    rw [hrooms, hroomAgent]
    exact (h.keys k room hroom).imp_right (exists_mem_cons_imp (hclears room k hroom))
  · rw [hrooms]
    rcases Multiset.mem_cons.mp hq with rfl | hq
    · rw [hcoming] at hrest
      refine (h.coming p (Multiset.mem_cons_self _ _) room rest hrest).imp_right ?_
      refine exists_mem_cons_imp fun hwait => ?_
      have hnone := halone room rest hrest
      rw [hwait] at hnone
      cases hnone
    · refine (h.coming q (Multiset.mem_cons_of_mem hq) room rest hrest).imp_right ?_
      exact exists_mem_cons_imp fun hwait => absurd hrest (hroomend room hwait q hq rest)
  · have hle := h.ending room
    rw [hrooms, hnextRoom]
    by_cases hends : p.Ends room
    · rw [Multiset.countP_cons_of_pos _ (show p'.Ends room from hending.trans hends)]
      rwa [Multiset.countP_cons_of_pos _ hends] at hle
    · have hends' : ¬ p'.Ends room := fun heq => hends (hending.symm.trans heq)
      rw [Multiset.countP_cons_of_neg _ hends']
      rwa [Multiset.countP_cons_of_neg _ hends] at hle
  · rw [hnextRoom] at hroom
    rw [hrooms, hroomAccount]
    obtain ⟨hnone, hlookup, hplaces⟩ := h.fresh room hroom
    refine ⟨hnone, hlookup, fun q hq rest hrest => ?_⟩
    rcases Multiset.mem_cons.mp hq with rfl | hq
    · exact hplaces p (Multiset.mem_cons_self _ _) rest (hcoming.symm.trans hrest)
    · exact hplaces q (Multiset.mem_cons_of_mem hq) rest hrest

theorem addConnectRef_account (r : ℤ) (b : Address) :
    ((s.addConnectRef a r).agents b).account = (s.agents b).account := by
  unfold Game.addConnectRef
  rw [setAgent_agents]
  split
  · next h => rw [h]
  · rfl

theorem sit_seat (k : Account) :
    (s.sit a).seat k = if k = (s.agents a).account then some a else s.seat k :=
  Function.update_apply _ _ _ _

theorem rise_seat (k k' : Account) : (s.rise k a).seat k' = if k' = k then none else s.seat k' :=
  Function.update_apply _ _ _ _

/-- A handler goes on to another place, and one seat changes. -/
theorem seats_at (h : ∀ k', Seat s (p ::ₘ m) k') (hs : ∀ k', k' ≠ k → SameSeat s s' k')
    (haccount : ∀ a, (s'.agents a).account = (s.agents a).account)
    (hp : ∀ k', k' ≠ k → p.wait.turn s k' = none) (hp' : ∀ k', k' ≠ k → p'.wait.turn s' k' = none)
    (hk : Seat s' (p' ::ₘ m) k) : ∀ k', Seat s' (p' ::ₘ m) k' := by
  intro k'
  by_cases hne : k' = k
  · exact hne ▸ hk
  · refine (h k').congr (hs k' hne) ?_
    rw [turns_cons_none (hp k' hne), turns_cons_none (hp' k' hne)]
    exact turns_congr (fun _ _ b _ => haccount b) k'

theorem Rooms.sit {rest : List Address} (h : Rooms s (⟨.seating room a rest, none⟩ ::ₘ m)) :
    Rooms (s.sit a) (⟨.seated room rest, none⟩ ::ₘ m) := by
  have haccount : ∀ b, ((s.sit a).agents b).account = (s.agents b).account :=
    addConnectRef_account 1
  obtain ⟨hturns, hregistered, -⟩ := (h.seat (s.agents a).account).holds
    (t := .sitting room a) (if_pos rfl)
  refine h.move rfl rfl rfl rfl haccount (seats_at (k := (s.agents a).account) h.seat ?_ haccount
    (fun k hk => if_neg (Ne.symm hk)) (fun _ _ => rfl) ?_) rfl rfl (fun _ _ _ => False.elim)
    (fun room' hwait => by cases hwait) fun _ _ _ => rfl
  · exact fun k hk => ⟨rfl, rfl, (sit_seat k).trans (if_neg hk), fun b _ => haccount b⟩
  · refine .rest ?_ (.taken room a ⟨hregistered.room, hregistered.agent, haccount a⟩ ?_)
    · rw [turns_cons_none rfl]
      exact (turns_congr (fun _ _ b _ => haccount b) _).trans hturns
    · exact (sit_seat _).trans (if_pos rfl)

/-- An agent does not count its room any more. -/
theorem Rooms.rise {rest : List Account} (h : Rooms s (⟨.unseating room k a rest, none⟩ ::ₘ m))
    (ref : ℤ) : Rooms (s.rise k a) (⟨.unseated room k a ref rest, none⟩ ::ₘ m) := by
  have haccount : ∀ b, ((s.rise k a).agents b).account = (s.agents b).account :=
    addConnectRef_account (-1)
  obtain ⟨hturns, hregistered, -⟩ := (h.seat k).holds (t := .rising room a) (if_pos rfl)
  refine h.move rfl rfl rfl rfl haccount (seats_at (k := k) h.seat ?_ haccount
    (fun k' hk => if_neg (Ne.symm hk)) (fun k' hk => if_neg (Ne.symm hk)) ?_) rfl rfl
    (fun _ _ _ => id) (fun room' hwait => by cases hwait) fun _ _ hcoming => by cases hcoming
  · exact fun k' hk => ⟨rfl, rfl, (rise_seat k k').trans (if_neg hk), fun b _ => haccount b⟩
  · refine .work (t := .clearing room a) (if_pos rfl) ?_
      ⟨⟨hregistered.room, hregistered.agent, (haccount a).trans hregistered.account⟩, ?_⟩
    · exact (turns_congr (fun _ _ b _ => haccount b) _).trans hturns
    · exact (rise_seat k k).trans (if_pos rfl)

/-! ## The loop of `roomend` -/

/-- The loop has the keys before it, and nobody else works at the room. -/
structure Clearing (s : Game) (m : Multiset Place) (room : Room) (keys : List Account) : Prop where
  rooms : Rooms s (⟨.roomend room, none⟩ ::ₘ m)
  keys : ∀ k, s.roomAccount.lookup k = some room → k ∈ keys
  apart : ∀ q ∈ m, ∀ rest, q.wait.coming ≠ some (room, rest)

theorem Turn.Holds.lookup {t : Turn} (h : t.Holds s k) : s.roomAccount.lookup k = some t.room := by
  cases t <;> exact h.1.room

theorem Wait.of_turn {w : Wait} {t : Turn} (h : w.turn s k = some t) :
    (∃ rest, w.coming = some (t.room, rest)) ∨ w.ending = some t.room := by
  cases w <;> simp only [Wait.turn, Option.ite_none_right_eq_some, Option.some.injEq,
    reduceCtorEq] at h
  · obtain ⟨-, rfl⟩ := h
    exact .inl ⟨_, rfl⟩
  · obtain ⟨-, rfl⟩ := h
    exact .inr rfl
  · obtain ⟨-, rfl⟩ := h
    exact .inr rfl

/-- The loop finds an account of its room counted. -/
theorem Clearing.taken {keys : List Account} (h : Clearing s m room keys)
    (hroom : s.roomAccount.lookup k = some room) :
    turns s m k = 0 ∧ ∃ a, Registered s k room a ∧ s.seat k = some a := by
  have hseat := h.rooms.seat k
  unfold Seat at hseat
  rw [turns_cons_none rfl] at hseat
  rcases hseat with ⟨hzero, hsettled⟩ | ⟨t, hsingle, hholds⟩
  · cases hsettled with
    | free hnone _ _ => exact absurd (hroom.symm.trans hnone) (Option.some_ne_none room)
    | taken room' a hregistered hsome =>
        obtain rfl := Option.some.inj (hroom.symm.trans hregistered.room)
        exact ⟨hzero, a, hregistered, hsome⟩
  · have hmem : t ∈ turns s m k := hsingle ▸ Multiset.mem_singleton_self t
    obtain ⟨q, hq, hturn⟩ := (Multiset.mem_filterMap _ _).mp hmem
    obtain rfl : room = t.room := Option.some.inj (hroom.symm.trans hholds.lookup)
    rcases Wait.of_turn hturn with ⟨rest, hcoming⟩ | hending
    · exact absurd hcoming (h.apart q hq rest)
    · exact absurd hending (h.rooms.ends_alone rfl q hq)

theorem Clearing.skip {keys : List Account} (h : Clearing s m room (k :: keys))
    (hroom : s.roomAccount.lookup k ≠ some room) : Clearing s m room keys := by
  refine ⟨h.rooms, fun k' hk' => (List.mem_cons.mp (h.keys k' hk')).resolve_left ?_, h.apart⟩
  rintro rfl
  exact hroom hk'

/-- The loop comes to an account of its room. -/
theorem Clearing.unseat {keys : List Account} (h : Clearing s m room (k :: keys))
    (hroom : s.roomAccount.lookup k = some room) (hagent : s.roomAgent k = some a) :
    Rooms s (⟨.unseating room k a keys, none⟩ ::ₘ m) := by
  obtain ⟨hturns, b, hregistered, hseat⟩ := h.taken hroom
  obtain rfl := Option.some.inj (hagent.symm.trans hregistered.agent)
  refine h.rooms.move rfl rfl rfl rfl (fun _ => rfl) (seats_at (k := k) h.rooms.seat
    (fun _ _ => ⟨rfl, rfl, rfl, fun _ _ => rfl⟩) (fun _ => rfl) (fun _ _ => rfl)
    (fun k' hk => if_neg (Ne.symm hk)) ?_) rfl rfl (fun room' k' hk' hclears => ?_)
    (fun room' hwait => ?_) fun _ _ hcoming => by cases hcoming
  · exact .work (t := .rising room a) (if_pos rfl) hturns ⟨hregistered, hseat⟩
  · obtain rfl : room = room' := hclears
    exact ⟨rfl, h.keys k' hk'⟩
  · obtain rfl := Wait.roomend.inj hwait
    exact h.apart

theorem clearRoom_lookup (k' : Account) : (s.clearRoom k).roomAccount.lookup k' =
    if k' = k then none else s.roomAccount.lookup k' := by
  split
  · next h => exact h ▸ AList.lookup_erase _ _
  · next h => exact AList.lookup_erase_ne h

/-- An account is not registered any more, and the loop goes on. -/
theorem Rooms.clearRoom {rest : List Account} {ref : ℤ}
    (h : Rooms s (⟨.unseated room k a ref rest, none⟩ ::ₘ m)) :
    Clearing (s.clearRoom k) m room rest := by
  obtain ⟨hturns, hregistered, hseat⟩ := (h.seat k).holds (t := .clearing room a) (if_pos rfl)
  have hclosed : s.rooms room = none ∧ room < s.nextRoom :=
    h.closed (Multiset.mem_cons_self _ m) rfl
  have hapart : ∀ q ∈ m, ∀ rest, q.wait.coming ≠ some (room, rest) := h.apart rfl (by simp)
  have hsame : ∀ k', k' ≠ k → SameSeat s (s.clearRoom k) k' := fun k' hk =>
    ⟨(clearRoom_lookup k').trans (if_neg hk), (clearRoom_roomAgent k k').trans (if_neg hk), rfl,
      fun _ _ => rfl⟩
  have hkept : ∀ {k' room'}, (s.clearRoom k).roomAccount.lookup k' = some room' →
      k' ≠ k ∧ s.roomAccount.lookup k' = some room' := by
    intro k' room' hroom
    rw [clearRoom_lookup] at hroom
    split at hroom
    · cases hroom
    · next hk => exact ⟨hk, hroom⟩
  have hmem : ∀ {q}, q ∈ m → q ∈ (⟨.roomend room, none⟩ : Place) ::ₘ m := Multiset.mem_cons_of_mem
  refine ⟨⟨?_, fun room' l hrooms b hb => ?_, fun k' room' hroom => ?_,
    fun q hq room' rest' hcoming => ?_, fun room' => ?_, fun room' hroom => ?_⟩,
    fun k' hroom => ?_, hapart⟩
  · refine seats_at (k := k) h.seat hsame (fun _ => rfl) (fun k' hk => if_neg (Ne.symm hk))
      (fun _ _ => rfl) (.rest ?_ (.free ?_ ?_ hseat))
    · rw [turns_cons_none rfl]
      exact (turns_congr (fun _ _ _ _ => rfl) k).trans hturns
    · exact (clearRoom_lookup k).trans (if_pos rfl)
    · exact (clearRoom_roomAgent k k).trans (if_pos rfl)
  · have hne : room' ≠ room := by
      rintro rfl
      exact Option.some_ne_none l (hrooms.symm.trans hclosed.1)
    rcases h.players room' l hrooms b hb with hold | ⟨q, hq, hrest⟩
    · refine .inl (hold.congr (hsame _ fun hk => hne ?_))
      exact Option.some.inj (hold.room.symm.trans (hk ▸ hregistered.room))
    · refine .inr (exists_mem_cons_imp ?_ ⟨q, hq, hrest⟩)
      rintro ⟨_, hcoming, -⟩
      cases hcoming
  · obtain ⟨hk, hroom⟩ := hkept hroom
    rw [clearRoom_roomAgent, if_neg hk]
    exact (h.keys k' room' hroom).imp_right (exists_mem_cons_imp And.left)
  · rcases Multiset.mem_cons.mp hq with rfl | hq
    · cases hcoming
    · refine (h.coming q (Multiset.mem_cons_of_mem hq) room' rest' hcoming).imp_right ?_
      exact exists_mem_cons_imp fun hwait => nomatch hwait
  · have hle := h.ending room'
    by_cases hends : room = room'
    · subst hends
      rw [Multiset.countP_cons_of_pos _ (show Place.Ends room ⟨.roomend room, none⟩ from rfl)]
      rwa [Multiset.countP_cons_of_pos _ (by rfl)] at hle
    · have hnot : ¬ Place.Ends room' ⟨.roomend room, none⟩ := fun heq => hends (Option.some.inj heq)
      have hnot' : ¬ Place.Ends room' ⟨.unseated room k a ref rest, none⟩ := hnot
      rw [Multiset.countP_cons_of_neg _ hnot]
      rwa [Multiset.countP_cons_of_neg _ hnot'] at hle
  · obtain ⟨hrooms, hlookup, hplaces⟩ := h.fresh room' hroom
    refine ⟨hrooms, fun k' hk' => hlookup k' (hkept hk').2, fun q hq rest' hcoming => ?_⟩
    rcases Multiset.mem_cons.mp hq with rfl | hq
    · cases hcoming
    · exact hplaces q (Multiset.mem_cons_of_mem hq) rest' hcoming
  · obtain ⟨hk, hroom⟩ := hkept hroom
    rcases h.keys k' room hroom with ⟨players, hrooms, -⟩ | ⟨q, hq, hclears⟩
    · exact absurd (hrooms.symm.trans hclosed.1) (Option.some_ne_none players)
    · rcases Multiset.mem_cons.mp hq with rfl | hq
      · exact (List.mem_cons.mp hclears.2).resolve_left hk
      · exact absurd hclears.ending (h.ends_alone rfl q hq)

theorem Clearing.done (h : Clearing s m room []) : Rooms s m := by
  refine h.rooms.drop (fun _ => rfl) (fun _ _ hcoming => by cases hcoming)
    (fun room' k hroom hclears => ?_) fun room' hwait => ?_
  · obtain rfl : room = room' := hclears
    exact List.not_mem_nil (h.keys k hroom)
  · obtain rfl := Wait.roomend.inj hwait
    exact h.apart

end GameServer.Watchdog
