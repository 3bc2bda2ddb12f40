import GameServer.Agent
import GameServer.Transition

/-!
# The stars that players give

One account to which stars are given: its stored record, the agents that were started for it with
what they have loaded, its entry in the server manager, and the requests and updates that are on
their way. A request waits for the server manager, which waits for the room, and then for the agent
or for the database. Of the reads of a load, the one of `star` decides what it returns, so a load is
one step.
-/

namespace GameServer.Stars

open Transition Goods Agent

/-- The fields of the stored record that a load reads. -/
inductive Field
  | nick
  | password
  | gold
  | money
  | exp
  | topexp
  | star
  | icon
  | flag
  | version
  | aexp
  | exploretimes
  | buyboxtimes
  | refreshtime
  deriving DecidableEq

inductive Value
  | int (v : ℤ)
  | str (v : String)
  deriving DecidableEq

abbrev Fields := Field → Option Value

/-- The field-value pairs of one `hmset`. -/
abbrev Packed := List (Field × Value)

namespace Fields

variable (unit : Fields)

/-- A field as a number. -/
def int (f : Field) : Option ℤ :=
  match unit f with
  | some (.int v) => some v
  | _ => none

def set (f : Field) (v : Value) : Fields := Function.update unit f (some v)

/-- `table.packdb` with the names of fields -/
def packdb (fields : List Field) : Packed := fields.filterMap fun f => (unit f).map (f, ·)

def hmset (values : Packed) : Fields := values.foldl (fun unit p => unit.set p.1 p.2) unit

/-- Redis counts from zero where the field is missing, and refuses what does not fit 64 bits. -/
def hincrby (f : Field) (inc : ℤ) : Option Fields :=
  match unit f with
  | none => some (unit.set f (.int inc))
  | some (.int v) =>
    if -2 ^ 63 ≤ v + inc ∧ v + inc < 2 ^ 63 then some (unit.set f (.int (v + inc))) else none
  | some (.str _) => none

/-- `account.load` of a record that exists -/
def load (tomorrow : ℤ) : Fields
  | .exploretimes => (unit .exploretimes).or (some (.int 20))
  | .buyboxtimes => (unit .buyboxtimes).or (some (.int 20))
  | .refreshtime => (unit .refreshtime).or (some (.int tomorrow))
  | f => unit f

/-- What `account.create` stores. -/
def create (nick password icon version : String) (tomorrow : ℤ) : Fields
  | .nick => some (.str nick)
  | .password => some (.str password)
  | .icon => some (.str icon)
  | .version => some (.str version)
  | .exploretimes | .buyboxtimes => some (.int 20)
  | .refreshtime => some (.int tomorrow)
  | .gold | .money | .exp | .topexp | .flag | .star | .aexp => some (.int 0)

@[simp] theorem set_self (f : Field) (v : Value) : (unit.set f v) f = some v :=
  Function.update_self f _ unit

theorem set_other {f g : Field} (h : g ≠ f) (v : Value) : (unit.set f v) g = unit g :=
  Function.update_of_ne h _ unit

end Fields

/-- A method of the account: the unit after it and the updates that it asks the database for, or an
error where it counts with what is no number. -/
abbrev Method := Fields → Option (Fields × List Packed)

namespace Account

/-- The fields that a method has just set are stored. -/
def saved (unit : Fields) (fields : List Field) : Option (Fields × List Packed) :=
  some (unit, [unit.packdb fields])

def setText (f : Field) (v : String) : Method := fun unit => saved (unit.set f (.str v)) [f]

def setNickName : String → Method := setText .nick

def setIcon : String → Method := setText .icon

def setFlag (flag : ℤ) : Method := fun unit => saved (unit.set .flag (.int flag)) [.flag]

def addClamped (f : Field) (v : ℤ) : Method := fun unit =>
  if v = 0 then some (unit, [])
  else do
    let old ← unit.int f
    saved (unit.set f (.int (mClamp (wrap (old + v)) 0 maxint32))) [f]

def addGold : ℤ → Method := addClamped .gold

def addMoney : ℤ → Method := addClamped .money

def addAExp : ℤ → Method := addClamped .aexp

def addExp (exp : ℤ) : Method := fun unit =>
  if exp = 0 then some (unit, [])
  else do
    let old ← unit.int .exp
    let top ← unit.int .topexp
    let nv := mClamp (wrap (old + exp)) 0 maxint32
    let unit := if top < nv then unit.set .topexp (.int nv) else unit
    saved (unit.set .exp (.int nv)) [.exp, .topexp]

def refreshTimes (now tomorrow : ℤ) : Method := fun unit => do
  let refreshtime ← unit.int .refreshtime
  if refreshtime < now then
    saved (((unit.set .exploretimes (.int 20)).set .buyboxtimes (.int 20)).set .refreshtime
      (.int tomorrow)) [.exploretimes, .buyboxtimes]
  else some (unit, [])

def addTimes (f : Field) (now tomorrow time : ℤ) : Method := fun unit =>
  if time = 0 then some (unit, [])
  else do
    let (unit, refreshed) ← refreshTimes now tomorrow unit
    let old ← unit.int f
    let (unit, added) ← saved (unit.set f (.int (wrap (old + time)))) [f]
    some (unit, refreshed ++ added)

def addExploreTimes : ℤ → ℤ → ℤ → Method := addTimes .exploretimes

def addBuyBoxTimes : ℤ → ℤ → ℤ → Method := addTimes .buyboxtimes

/-- `addStar(num)`: nothing is stored. -/
def addStar (num : ℤ) (unit : Fields) : Option Fields := do
  let star ← unit.int .star
  some (unit.set .star (.int (wrap (star + num))))

end Account

/-- The methods that store what they change. -/
inductive Call
  | setNickName (nick : String)
  | setIcon (icon : String)
  | setFlag (flag : ℤ)
  | addGold (gold : ℤ)
  | addMoney (money : ℤ)
  | addAExp (exp : ℤ)
  | addExp (exp : ℤ)
  | refreshTimes (now tomorrow : ℤ)
  | addExploreTimes (now tomorrow time : ℤ)
  | addBuyBoxTimes (now tomorrow time : ℤ)
  deriving DecidableEq

def Call.method : Call → Method
  | .setNickName nick => Account.setNickName nick
  | .setIcon icon => Account.setIcon icon
  | .setFlag flag => Account.setFlag flag
  | .addGold gold => Account.addGold gold
  | .addMoney money => Account.addMoney money
  | .addAExp exp => Account.addAExp exp
  | .addExp exp => Account.addExp exp
  | .refreshTimes now tomorrow => Account.refreshTimes now tomorrow
  | .addExploreTimes now tomorrow time => Account.addExploreTimes now tomorrow time
  | .addBuyBoxTimes now tomorrow time => Account.addBuyBoxTimes now tomorrow time

abbrev Address := ℕ

/-- Where a `givePlayerStar` of the agent `self` is: in `getAgent`, which waits for the room, or
with what `getAgent` has returned. -/
inductive Request
  | seeking (self : Address)
  | found (self : Address) (agent : Option Address)
  deriving DecidableEq

/-- `agents` are those of the account: started, loaded or none. `roomAgent` is the entry of the
account, which comes and goes with the one in `roomAccount`. `taken` is history: how many of the
processed requests an agent took. -/
structure Server where
  record : Fields
  agents : Address → Option (Option Fields)
  roomAgent : Option Address
  requests : List Request
  updates : List Packed
  processed : ℕ
  taken : ℕ

inductive Label
  /-- `REQUEST.givePlayerStar` of any agent -/
  | givePlayerStar (self : Address)
  /-- The room answers `getOffLineTime`, or raises an error. -/
  | offLineTime (k : ℕ) (time : Option ℚ)
  | give (k : ℕ)
  | start (a : Address)
  | enterGame (a : Address) (tomorrow : ℤ)
  | exit (a : Address)
  | roomstart (a : Address)
  | roomend
  | call (a : Address) (c : Call)
  | update (k : ℕ)
  deriving DecidableEq

namespace Server

variable (s : Server)

/-- `hincrby(accountid, "star", 1)` -/
def giveStored : Server :=
  match s.record.hincrby .star 1 with
  | some record => { s with record := record, processed := s.processed + 1 }
  | none => s

/-- `CMD.givePlayerStar` of the agent `a`; an agent that has exited or has no star raises an
error. -/
def giveAgent (a : Address) : Server :=
  match (s.agents a).bind fun unit => unit.bind (Account.addStar 1) with
  | some unit =>
    { s with
      agents := Function.update s.agents a (some (some unit))
      processed := s.processed + 1
      taken := s.taken + 1 }
  | none => s

/-- The rest of `REQUEST.givePlayerStar` once `getAgent` has returned. -/
def give (self : Address) : Option Address → Server
  | some agent => if agent = self then s else s.giveAgent agent
  | none => s.giveStored

def step : Label → Option Server
  | .givePlayerStar self =>
    let request := if s.roomAgent = none then .found self none else .seeking self
    some { s with requests := s.requests ++ [request] }
  | .offLineTime k time =>
    match s.requests[k]? with
    | some (.seeking self) =>
      some { s with
        requests := match time with
          | some offLinetime =>
            s.requests.set k (.found self (if offLinetime < 90 then s.roomAgent else none))
          | none => s.requests.eraseIdx k }
    | _ => none
  | .give k =>
    match s.requests[k]? with
    | some (.found self agent) =>
      some ({ s with requests := s.requests.eraseIdx k }.give self agent)
    | _ => none
  | .start a =>
    if s.agents a = none then some { s with agents := Function.update s.agents a (some none) }
    else none
  | .enterGame a tomorrow =>
    match s.agents a with
    | some none =>
      some { s with agents := Function.update s.agents a (some (some (s.record.load tomorrow))) }
    | _ => none
  | .exit a => some { s with agents := Function.update s.agents a none }
  | .roomstart a => if s.agents a = none then none else some { s with roomAgent := some a }
  | .roomend => some { s with roomAgent := none }
  | .call a c => do
    let unit ← ← s.agents a
    let (unit, sent) ← c.method unit
    some { s with
      agents := Function.update s.agents a (some (some unit))
      updates := s.updates ++ sent }
  | .update k => do
    let values ← s.updates[k]?
    some { s with record := s.record.hmset values, updates := s.updates.eraseIdx k }

end Server

def server (record : Fields) : System Server Label where
  init :=
    { record := record
      agents := fun _ => none
      roomAgent := none
      requests := []
      updates := []
      processed := 0
      taken := 0 }
  step := Server.step

/-! ## What is stored -/

namespace Fields

variable {unit : Fields}

theorem mem_packdb {fields : List Field} {p : Field × Value} (h : p ∈ unit.packdb fields) :
    p.1 ∈ fields := by
  obtain ⟨f, hf, hp⟩ := List.mem_filterMap.mp h
  obtain ⟨v, -, rfl⟩ := Option.map_eq_some_iff.mp hp
  exact hf

/-- An `hmset` leaves the fields that it does not name. -/
theorem hmset_other {values : Packed} {f : Field} (h : ∀ p ∈ values, p.1 ≠ f) :
    unit.hmset values f = unit f := by
  induction values generalizing unit with
  | nil => rfl
  | cons p values ih =>
      have hrest := @ih (unit.set p.1 p.2) fun q hq => h q (List.mem_cons_of_mem _ hq)
      exact hrest.trans (unit.set_other (h p List.mem_cons_self).symm p.2)

theorem hincrby_of_int {f : Field} {v inc : ℤ} {unit' : Fields} (h : unit f = some (.int v))
    (hinc : unit.hincrby f inc = some unit') : unit' f = some (.int (v + inc)) := by
  simp only [hincrby, h, Option.ite_none_right_eq_some, Option.some.injEq] at hinc
  obtain ⟨-, rfl⟩ := hinc
  exact unit.set_self f _

end Fields

/-- No update names the star. -/
def Starless (sent : List Packed) : Prop := ∀ values ∈ sent, ∀ p ∈ values, p.1 ≠ Field.star

theorem Starless.append {sent sent' : List Packed} (h : Starless sent) (h' : Starless sent') :
    Starless (sent ++ sent') := fun values hv =>
  (List.mem_append.mp hv).elim (h values) (h' values)

def Method.Starless (m : Method) : Prop :=
  ∀ unit unit' sent, m unit = some (unit', sent) → Stars.Starless sent

namespace Account

theorem saved_starless {unit unit' : Fields} {fields : List Field} {sent : List Packed}
    (hf : Field.star ∉ fields) (h : saved unit fields = some (unit', sent)) : Starless sent := by
  cases h
  intro values hv p hp hstar
  rw [List.mem_singleton.mp hv] at hp
  exact hf (hstar ▸ Fields.mem_packdb hp)

theorem setText_starless {f : Field} (hf : f ≠ .star) (v : String) :
    (setText f v).Starless := fun _ _ _ h => saved_starless (by simpa using hf.symm) h

theorem setFlag_starless (flag : ℤ) : (setFlag flag).Starless :=
  fun _ _ _ h => saved_starless (by simp) h

theorem addClamped_starless {f : Field} (hf : f ≠ .star) (v : ℤ) : (addClamped f v).Starless := by
  intro unit unit' sent h
  unfold addClamped at h
  split_ifs at h
  · cases h
    simp [Starless]
  · obtain ⟨old, -, h⟩ := Option.bind_eq_some_iff.mp h
    exact saved_starless (by simpa using hf.symm) h

theorem addExp_starless (exp : ℤ) : (addExp exp).Starless := by
  intro unit unit' sent h
  unfold addExp at h
  split_ifs at h
  · cases h
    simp [Starless]
  · obtain ⟨old, -, h⟩ := Option.bind_eq_some_iff.mp h
    obtain ⟨top, -, h⟩ := Option.bind_eq_some_iff.mp h
    exact saved_starless (by simp) h

theorem refreshTimes_starless (now tomorrow : ℤ) : (refreshTimes now tomorrow).Starless := by
  intro unit unit' sent h
  obtain ⟨old, -, h⟩ := Option.bind_eq_some_iff.mp h
  split_ifs at h
  · exact saved_starless (by simp) h
  · cases h
    simp [Starless]

theorem addTimes_starless {f : Field} (hf : f ≠ .star) (now tomorrow time : ℤ) :
    (addTimes f now tomorrow time).Starless := by
  intro unit unit' sent h
  unfold addTimes at h
  split_ifs at h
  · cases h
    simp [Starless]
  · obtain ⟨⟨u, refreshed⟩, hr, h⟩ := Option.bind_eq_some_iff.mp h
    obtain ⟨old, -, h⟩ := Option.bind_eq_some_iff.mp h
    obtain ⟨⟨u', added⟩, ha, h⟩ := Option.bind_eq_some_iff.mp h
    cases h
    exact (refreshTimes_starless now tomorrow _ _ _ hr).append
      (saved_starless (by simpa using hf.symm) ha)

end Account

theorem Call.starless (c : Call) : c.method.Starless := by
  cases c with
  | setNickName nick => exact Account.setText_starless (by decide) nick
  | setIcon icon => exact Account.setText_starless (by decide) icon
  | setFlag flag => exact Account.setFlag_starless flag
  | addGold gold => exact Account.addClamped_starless (by decide) gold
  | addMoney money => exact Account.addClamped_starless (by decide) money
  | addAExp exp => exact Account.addClamped_starless (by decide) exp
  | addExp exp => exact Account.addExp_starless exp
  | refreshTimes now tomorrow => exact Account.refreshTimes_starless now tomorrow
  | addExploreTimes now tomorrow time =>
      exact Account.addTimes_starless (by decide) now tomorrow time
  | addBuyBoxTimes now tomorrow time =>
      exact Account.addTimes_starless (by decide) now tomorrow time

namespace Server

variable {s t : Server} {v : ℤ}

/-- The stored star counts the requests that no agent took; `v` is what it was at first. -/
structure Kept (v : ℤ) (s : Server) : Prop where
  star : s.record .star = some (.int (v + (s.processed - s.taken)))
  starless : Starless s.updates

theorem Kept.give (hs : Kept v s) (self : Address) (agent : Option Address) :
    Kept v (s.give self agent) := by
  cases agent with
  | some a =>
      simp only [Server.give]
      split_ifs
      · exact hs
      · unfold giveAgent
        split
        · refine ⟨hs.star.trans ?_, hs.starless⟩
          push_cast
          congr 2
          ring
        · exact hs
  | none =>
      simp only [Server.give, giveStored]
      split
      · rename_i record hr
        refine ⟨(Fields.hincrby_of_int hs.star hr).trans ?_, hs.starless⟩
        push_cast
        congr 2
        ring
      · exact hs

theorem Kept.step {l : Label} (hs : Kept v s) (h : s.step l = some t) : Kept v t := by
  cases l with
  | givePlayerStar self | exit a | roomend =>
      cases h
      exact ⟨hs.star, hs.starless⟩
  | offLineTime k time =>
      simp only [Server.step] at h
      split at h <;> cases h
      exact ⟨hs.star, hs.starless⟩
  | give k =>
      simp only [Server.step] at h
      split at h
      · cases h
        have hrest : Kept v { s with requests := s.requests.eraseIdx k } := ⟨hs.star, hs.starless⟩
        exact hrest.give _ _
      · cases h
  | start a | roomstart a =>
      simp only [Server.step, Option.ite_none_right_eq_some, Option.ite_none_left_eq_some,
        Option.some.injEq] at h
      obtain ⟨-, rfl⟩ := h
      exact ⟨hs.star, hs.starless⟩
  | enterGame a tomorrow =>
      simp only [Server.step] at h
      split at h <;> cases h
      exact ⟨hs.star, hs.starless⟩
  | call a c =>
      obtain ⟨loaded, -, h⟩ := Option.bind_eq_some_iff.mp h
      obtain ⟨unit, -, h⟩ := Option.bind_eq_some_iff.mp h
      obtain ⟨⟨unit', sent⟩, hc, h⟩ := Option.bind_eq_some_iff.mp h
      cases h
      exact ⟨hs.star, hs.starless.append (c.starless _ _ _ hc)⟩
  | update k =>
      obtain ⟨values, hk, h⟩ := Option.bind_eq_some_iff.mp h
      cases h
      have hvalues := hs.starless values (List.mem_of_getElem? hk)
      exact ⟨(Fields.hmset_other hvalues).trans hs.star,
        fun values' hv => hs.starless values' (List.mem_of_mem_eraseIdx hv)⟩

/-- When the room answers, it says ninety seconds or more, or the entry of the account is gone, or
it is the giver's own. -/
def OutOfRoom (s : Server) : Label → Prop
  | .offLineTime k time => ∀ self t, s.requests[k]? = some (.seeking self) → time = some t →
    t < 90 →
      s.roomAgent = none ∨ s.roomAgent = some self
  | _ => True

/-- No request is on its way to an agent that will take it. -/
structure Untaken (s : Server) : Prop where
  taken : s.taken = 0
  found : ∀ self agent, .found self (some agent) ∈ s.requests → agent = self

theorem Untaken.step {l : Label} (hs : Untaken s) (hl : OutOfRoom s l) (h : s.step l = some t) :
    Untaken t := by
  obtain ⟨htaken, hfound⟩ := hs
  cases l with
  | givePlayerStar self =>
      cases h
      refine ⟨htaken, fun self' agent hm => ?_⟩
      rcases List.mem_append.mp hm with hm | hm
      · exact hfound self' agent hm
      · split_ifs at hm <;> simp at hm
  | offLineTime k time =>
      simp only [Server.step] at h
      split at h <;> cases h
      rename_i self hk
      refine ⟨htaken, fun self' agent hm => ?_⟩
      cases time with
      | none => exact hfound self' agent (List.mem_of_mem_eraseIdx hm)
      | some time =>
          rcases List.mem_or_eq_of_mem_set hm with hm | hm
          · exact hfound self' agent hm
          · split_ifs at hm with ht <;> injection hm with hself hagent
            · rcases hl self time hk rfl ht with hr | hr
              · simp [hr] at hagent
              · rw [hr, Option.some.injEq] at hagent
                rw [hagent, hself]
            · cases hagent
  | give k =>
      simp only [Server.step] at h
      split at h <;> cases h
      rename_i self agent hk
      have hrest : ∀ self' a, .found self' (some a) ∈ s.requests.eraseIdx k → a = self' :=
        fun self' a hm => hfound self' a (List.mem_of_mem_eraseIdx hm)
      cases agent with
      | some a =>
          have ha := hfound self a (List.mem_of_getElem? hk)
          simp only [Server.give, if_pos ha]
          exact ⟨htaken, hrest⟩
      | none =>
          simp only [Server.give, giveStored]
          split <;> exact ⟨htaken, hrest⟩
  | exit a | roomend =>
      cases h
      exact ⟨htaken, hfound⟩
  | start a | roomstart a =>
      simp only [Server.step, Option.ite_none_right_eq_some, Option.ite_none_left_eq_some,
        Option.some.injEq] at h
      obtain ⟨-, rfl⟩ := h
      exact ⟨htaken, hfound⟩
  | enterGame a tomorrow =>
      simp only [Server.step] at h
      split at h <;> cases h
      exact ⟨htaken, hfound⟩
  | call a c =>
      obtain ⟨loaded, -, h⟩ := Option.bind_eq_some_iff.mp h
      obtain ⟨unit, -, h⟩ := Option.bind_eq_some_iff.mp h
      obtain ⟨⟨unit', sent⟩, -, h⟩ := Option.bind_eq_some_iff.mp h
      cases h
      exact ⟨htaken, hfound⟩
  | update k =>
      obtain ⟨values, -, h⟩ := Option.bind_eq_some_iff.mp h
      cases h
      exact ⟨htaken, hfound⟩

end Server

section Load

variable {record : Fields} {v : ℤ} {s : Server}

theorem kept_of_reachable (hv : record .star = some (.int v)) (hs : (server record).Reachable s) :
    s.Kept v :=
  hs.invariant ⟨by simpa [server] using hv, by simp [Starless, server]⟩
    (fun _ _ _ hs _ h => hs.step h)

/-- A load returns every star that was given as long as no request finds the account in a room; in
general it misses those that an agent took. -/
theorem givePlayerStar_conserved (hv : record .star = some (.int v)) (tomorrow : ℤ) :
    (∀ s, (server record).Runs Server.OutOfRoom s →
      s.record.load tomorrow .star = some (.int (v + s.processed))) ∧
    (∀ s, (server record).Reachable s →
      (s.record.load tomorrow .star = some (.int (v + s.processed)) ↔ s.taken = 0)) := by
  have hexact : ∀ s, (server record).Reachable s →
      (s.record.load tomorrow .star = some (.int (v + s.processed)) ↔ s.taken = 0) := by
    intro s hs
    change s.record .star = _ ↔ _
    rw [(kept_of_reachable hv hs).star, Option.some.injEq, Value.int.injEq]
    omega
  refine ⟨fun s hs => (hexact s hs.reachable).mpr ?_, hexact⟩
  have huntaken : s.Untaken := hs.invariant (P := Server.Untaken) ⟨rfl, by simp [server]⟩
    (fun _ _ _ hs hok h => hs.step hok h)
  exact huntaken.taken

def newAccount : Fields := .create "bob" "123456" "1000.icon" "1.0.0" 86400

/-- One star is given to an account that is offline. -/
theorem givePlayerStar_conserved_offline :
    ((server newAccount).init.giveStored).record.load 86400 .star = some (.int 1) := by
  have hrun : (server newAccount).run (server newAccount).init [.givePlayerStar 9, .give 0] =
      some (server newAccount).init.giveStored := rfl
  have hruns : (server newAccount).Runs Server.OutOfRoom (server newAccount).init.giveStored :=
    .of_run .init (by simp [Server.OutOfRoom]) hrun
  exact (@givePlayerStar_conserved newAccount 0 rfl 86400).1 _ hruns

/-- The account is in a room, and its agent takes the star. -/
theorem givePlayerStar_not_conserved : ¬ ∀ s, (server newAccount).Reachable s →
    ∀ tomorrow, s.record.load tomorrow .star = some (.int (0 + s.processed)) := by
  intro h
  obtain ⟨t, hrun, hp, hstar⟩ : ∃ t, (server newAccount).run (server newAccount).init
      [.start 1, .enterGame 1 86400, .roomstart 1, .givePlayerStar 9, .offLineTime 0 (some 0),
        .give 0]
        = some t ∧ t.processed = 1 ∧ t.record .star = some (.int 0) := ⟨_, rfl, rfl, rfl⟩
  have hload : t.record .star = _ := h t (System.reachable_of_run _ hrun) 86400
  rw [hstar, hp] at hload
  cases hload

end Load

end GameServer.Stars
