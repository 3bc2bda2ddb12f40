import GameServer.Quotas
import GameServer.RecordRoundTrip
import GameServer.SpecialOffer

/-!
# The daily quotas across sessions

A login rebuilds the account from the store. The reset of the quotas stores the two numbers but not
the time until which they count, so the store keeps the time it was created with, and an account
that was reset today comes back due for another reset. One request runs at a time; the clock may
move wherever a request waits.
-/

namespace GameServer.DailyQuota

open Goods Agent Transition Shop
open Records (Field Fields Hash Value packdb tonumber tonumber_repr)
open Player.Quotas (Quota)

/-- `Time.tomorrow()` by the time of the call: the midnight that comes next. -/
structure Calendar where
  tomorrow : ℤ → ℤ
  lt_tomorrow (now : ℤ) : now < tomorrow now
  tomorrow_eq {now later : ℤ} (h : now ≤ later) (h' : later < tomorrow now) :
    tomorrow later = tomorrow now

/-- Days of 86400 seconds. -/
def Calendar.utc : Calendar where
  tomorrow now := now - now % 86400 + 86400
  lt_tomorrow now := by omega
  tomorrow_eq h h' := by omega

/-! ## The account in the store -/

def gold : Field := .other "gold"
def money : Field := .other "money"
def exploretimes : Field := .other "exploretimes"
def buyboxtimes : Field := .other "buyboxtimes"
def refreshtime : Field := .other "refreshtime"

def fields (unit : Account) : Fields := fun f =>
  if f = gold then some (.number unit.gold)
  else if f = money then some (.number unit.money)
  else if f = exploretimes then some (.number unit.exploretimes)
  else if f = buyboxtimes then some (.number unit.buyboxtimes)
  else if f = refreshtime then some (.number unit.refreshtime)
  else none

def hmset (hash : Hash) (written : Fields) : Hash := fun f =>
  ((written f).map Value.tostring).or (hash f)

/-- A new account, as `account.create` writes it. -/
def born (c : Calendar) (now : ℤ) : Account where
  gold := ⟨0, zero_balance⟩
  money := ⟨0, zero_balance⟩
  exploretimes := 20
  buyboxtimes := 20
  refreshtime := c.tomorrow now

/-- `account.create` -/
def create (c : Calendar) (now : ℤ) : Hash := hmset (fun _ => none) (fields (born c now))

/-- `account.update` -/
def update (hash : Hash) (unit : Account) (names : List Field) : Option Hash :=
  (packdb (fields unit) names).map (hmset hash)

def balance? (n : ℤ) : Option Balance := if h : 0 ≤ n ∧ n ≤ maxint32 then some ⟨n, h⟩ else none

/-- `account.load` -/
def load (c : Calendar) (now : ℤ) (hash : Hash) : Option Account := do
  let gold ← ((hash gold).bind tonumber).bind balance?
  let money ← ((hash money).bind tonumber).bind balance?
  let exploretimes ← tonumber ((hash exploretimes).getD (20 : ℤ).repr)
  let buyboxtimes ← tonumber ((hash buyboxtimes).getD (20 : ℤ).repr)
  let refreshtime ← tonumber ((hash refreshtime).getD (c.tomorrow now).repr)
  some { gold, money, exploretimes, buyboxtimes, refreshtime }

/-! ## The account of a player -/

/-- What happened, and when. -/
inductive Event
  | reset (time : ℤ)
  | box (time num : ℤ)
  | refresh (time : ℤ)
  deriving DecidableEq

def Event.time : Event → ℤ
  | .reset time => time
  | .box time _ => time
  | .refresh time => time

/-- Where a request waits: a login before `onEnterGame`, a purchase and a refresh behind the check
of the quota. -/
inductive Underway
  | enterGame
  | box (num : ℤ)
  | refresh
  deriving DecidableEq

/-- `unit` is the account in memory; of a player who is away, the account that was left. `log` is
history. -/
structure State where
  now : ℤ
  unit : Account
  online : Bool
  stored : Hash
  underway : Option Underway
  log : List Event

abbrev Code := StateT State Option

variable (c : Calendar)

def env (now : ℤ) : Env := { quiet with now, tomorrow := c.tomorrow now }

/-- A call of `account.update` -/
def save (names : List Field) : Code Unit := fun s =>
  (update s.stored s.unit names).map fun stored => ((), { s with stored })

def refreshTimes : Code Unit := do
  let s ← get
  if s.unit.refreshtime < s.now then
    set { s with
      unit := s.unit.refreshTimes (env c s.now)
      log := s.log ++ [Event.reset s.now] }
    save [exploretimes, buyboxtimes]

def haveExploreTimes : Code Bool := do
  refreshTimes c
  let s ← get
  return (s.unit.haveExploreTimes (env c s.now)).2

def addExploreTimes (time : ℤ) : Code Unit := do
  if time = 0 then return
  refreshTimes c
  modify fun s => { s with unit := s.unit.addExploreTimes (env c s.now) time }
  save [exploretimes]

def haveBuyBoxTimes (time : ℤ) : Code Bool := do
  refreshTimes c
  let s ← get
  return (s.unit.haveBuyBoxTimes (env c s.now) time).2

def addBuyBoxTimes (time : ℤ) : Code Unit := do
  if time = 0 then return
  refreshTimes c
  modify fun s => { s with unit := s.unit.addBuyBoxTimes (env c s.now) time }
  save [buyboxtimes]

/-- The request goes on from where it waits. -/
def proceed : Underway → Code Unit
  | .enterGame => refreshTimes c
  | .box num => do
      addBuyBoxTimes c (wrap (-num))
      modify fun s => { s with log := s.log ++ [.box s.now num] }
  | .refresh => do
      addExploreTimes c (-1)
      modify fun s => { s with log := s.log ++ [.refresh s.now] }

inductive Label
  /-- The clock goes on. -/
  | tick (now : ℤ)
  | login
  | logout
  | buyBox (num : ℤ)
  | exploreRefresh
  /-- The balances change, and are stored. -/
  | balances (gold money : Balance)
  /-- The request under way goes on. -/
  | proceed
  /-- The request under way ends with an error. -/
  | fail

def step (s : State) : Label → Option State
  | .tick now => if s.now ≤ now then some { s with now } else none
  | .login =>
      if s.online then none
      else do
        let unit ← load c s.now s.stored
        some { s with unit, online := true, underway := some .enterGame }
  | .logout => if s.online ∧ s.underway = none then some { s with online := false } else none
  | .buyBox num =>
      if s.online ∧ s.underway = none ∧ 1 ≤ num then do
        let (have_, s) ← haveBuyBoxTimes c num s
        some { s with underway := if have_ then some (.box num) else none }
      else none
  | .exploreRefresh =>
      if s.online ∧ s.underway = none then do
        let (have_, s) ← haveExploreTimes c s
        some { s with underway := if have_ then some .refresh else none }
      else none
  | .balances gold' money' =>
      if s.online then do
        let s := { s with unit := { s.unit with gold := gold', money := money' } }
        let ((), s) ← save [gold, money] s
        some s
      else none
  | .proceed => do
      let ((), s) ← proceed c (← s.underway) s
      some { s with underway := none }
  | .fail => if s.underway.isSome then some { s with underway := none } else none

/-- An account from its creation on. -/
def system (now : ℤ) : System State Label where
  init := ⟨now, born c now, false, create c now, none, []⟩
  step := step c

/-! ## What a period may hold -/

/-- The instants behind one midnight up to the next. -/
def Within (midnight time : ℤ) : Prop := midnight < time ∧ time ≤ c.tomorrow midnight

instance (midnight time : ℤ) : Decidable (Within c midnight time) :=
  inferInstanceAs (Decidable (_ ∧ _))

def count (p : Event → Bool) (log : List Event) (midnight : ℤ) : ℕ :=
  log.countP fun e => p e && decide (Within c midnight e.time)

def Event.isReset : Event → Bool
  | .reset _ => true
  | _ => false

def Event.isBox : Event → Bool
  | .box _ _ => true
  | _ => false

def Event.isRefresh : Event → Bool
  | .refresh _ => true
  | _ => false

/-- One reset, and the purchases and refreshes of one quota. -/
structure Daily (log : List Event) (midnight : ℤ) : Prop where
  resets : count c Event.isReset log midnight ≤ 1
  boxes : count c Event.isBox log midnight ≤ 20
  refreshes : count c Event.isRefresh log midnight ≤ 20

/-- The next look at the quotas resets them. -/
def Due (s : State) : Prop := s.unit.refreshtime < s.now

instance (s : State) : Decidable (Due s) := inferInstanceAs (Decidable (_ < _))

/-- A login finds a time that has passed only when the time that was left has passed as well. -/
def Kept (s : State) : Label → Prop
  | .login => ∀ time ∈ (s.stored refreshtime).bind tonumber, time < s.now → Due s
  | _ => True

/-! ## The store holds the account, but for the time -/

/-- An account in the store. -/
def image (unit : Account) : Hash := fun f => (fields unit f).map Value.tostring

variable {c} {s s' : State} {unit unit' old : Account} {names : List Field} {m : ℤ}
  {k : Quota} {e : Event} {log : List Event}

theorem create_eq (now : ℤ) : create c now = image (born c now) := funext fun f => by
  change ((fields _ f).map Value.tostring).or none = (fields _ f).map Value.tostring
  exact Option.or_none

theorem balance?_coe (b : Balance) : balance? b = some b := dif_pos b.2

theorem load_image (now : ℤ) (unit : Account) : load c now (image unit) = some unit := by
  have hgold : image unit gold = some (unit.gold : ℤ).repr := rfl
  have hmoney : image unit money = some (unit.money : ℤ).repr := rfl
  have hexplore : image unit exploretimes = some unit.exploretimes.repr := rfl
  have hbox : image unit buyboxtimes = some unit.buyboxtimes.repr := rfl
  have htime : image unit refreshtime = some unit.refreshtime.repr := rfl
  simp only [load, hgold, hmoney, hexplore, hbox, htime, Option.bind_some, Option.getD_some,
    tonumber_repr, balance?_coe, Option.bind_eq_bind]

/-- An update of some fields, when the other fields are stored already. -/
theorem update_image (hne : names ≠ [])
    (hsome : ∀ f ∈ names, fields unit f = fields unit' f ∧ (fields unit' f).isSome)
    (hother : ∀ f ∉ names, fields old f = fields unit' f) :
    update (image old) unit names = some (image unit') := by
  have hpack : packdb (fields unit) names = some fun f => if f ∈ names then fields unit f
      else none := by
    rw [packdb, if_neg hne, if_pos]
    intro f hf
    rw [(hsome f hf).1]
    exact (hsome f hf).2
  rw [update, hpack, Option.map_some]
  congr 1
  funext f
  by_cases hf : f ∈ names
  · obtain ⟨heq, hval⟩ := hsome f hf
    obtain ⟨v, hv⟩ := Option.isSome_iff_exists.mp hval
    simp only [hmset, image, if_pos hf, heq, hv, Option.map_some, Option.some_or]
  · simp only [hmset, image, if_neg hf, Option.map_none, Option.none_or, hother f hf]

/-! ## Sums over the log -/

/-- What an event takes off a quota. -/
def amount : Quota → Event → ℤ
  | .buyboxtimes, .box _ num => num
  | .exploretimes, .refresh _ => 1
  | _, _ => 0

variable (c) in
/-- What was taken off a quota in a period. -/
def spent (k : Quota) (log : List Event) (midnight : ℤ) : ℤ :=
  (log.map fun e => if Within c midnight e.time then amount k e else 0).sum

theorem spent_append : spent c k (log ++ [e]) m =
    spent c k log m + if Within c m e.time then amount k e else 0 := by
  simp [spent]

theorem count_append {p : Event → Bool} : count c p (log ++ [e]) m =
    count c p log m + if p e ∧ Within c m e.time then 1 else 0 := by
  simp [count, List.countP_append, List.countP_cons]

theorem spent_eq_zero (h : ∀ e ∈ log, e.time ≤ m) : spent c k log m = 0 := by
  refine List.sum_eq_zero fun x hx => ?_
  obtain ⟨e, he, rfl⟩ := List.mem_map.mp hx
  exact if_neg fun hin => absurd hin.1 (not_lt.mpr (h e he))

theorem count_eq_zero {p : Event → Bool} (h : ∀ e ∈ log, e.time ≤ m) : count c p log m = 0 := by
  refine List.countP_eq_zero.mpr fun e he hin => ?_
  have hwithin := of_decide_eq_true (Bool.and_eq_true_iff.mp hin).2
  exact absurd hwithin.1 (not_lt.mpr (h e he))

/-- When each counted event takes something, there are at most as many as was taken. -/
theorem count_le_spent {p : Event → Bool} (hnum : ∀ e ∈ log, 0 ≤ amount k e)
    (hp : ∀ e ∈ log, p e → 1 ≤ amount k e) : (count c p log m : ℤ) ≤ spent c k log m := by
  induction log with
  | nil => exact le_rfl
  | cons e log ih =>
      have hlog := ih (fun e he => hnum e (List.mem_cons_of_mem _ he))
        (fun e he => hp e (List.mem_cons_of_mem _ he))
      have hzero := hnum e List.mem_cons_self
      have hone := hp e List.mem_cons_self
      simp only [count, spent, List.countP_cons, List.map_cons, List.sum_cons] at hlog ⊢
      by_cases hin : Within c m e.time
      · by_cases hpe : p e
        · have := hone hpe
          simp [hin, hpe]
          omega
        · simp [hin, hpe]
          omega
      · simp [hin]
        omega

/-! ## The invariant -/

variable (c) in
/-- The quota that the next look finds. -/
def fresh (k : Quota) (s : State) : ℤ := k.value (s.unit.refreshTimes (env c s.now))

variable (c) in
/-- A request that waits has been promised what it is going to take. -/
def Claimed (s : State) : Underway → Prop
  | .enterGame => True
  | .box num => 1 ≤ num ∧ num ≤ fresh c .buyboxtimes s
  | .refresh => 1 ≤ fresh c .exploretimes s

variable (c) in
/-- `opened` is about the periods that have not ended yet. -/
structure Inv (s : State) : Prop where
  midnight : ∃ t, s.unit.refreshtime = c.tomorrow t
  stored : ∃ t, s.stored = image { s.unit with refreshtime := c.tomorrow t } ∧
    c.tomorrow t ≤ s.unit.refreshtime
  times : ∀ e ∈ s.log, e.time ≤ s.now
  nums : ∀ e ∈ s.log, ∀ time num, e = .box time num → 1 ≤ num
  range : ∀ k : Quota, 0 ≤ k.value s.unit ∧ k.value s.unit ≤ 20
  opened : ∀ m, s.now ≤ c.tomorrow m → (∀ k, spent c k s.log m + fresh c k s ≤ 20) ∧
    (Due s → count c Event.isReset s.log m = 0)
  past : ∀ m, count c Event.isReset s.log m ≤ 1 ∧ ∀ k, spent c k s.log m ≤ 20
  claimed : ∀ r ∈ s.underway, Claimed c s r

theorem Calendar.tomorrow_le {t : ℤ} (h : m < c.tomorrow t) : c.tomorrow m ≤ c.tomorrow t := by
  have hm := c.lt_tomorrow m
  have ht := c.lt_tomorrow t
  rcases le_or_gt t m with htm | htm
  · exact (c.tomorrow_eq htm h).le
  · rcases le_or_gt (c.tomorrow m) t with hle | hlt
    · omega
    · exact (c.tomorrow_eq htm.le hlt).ge

theorem refreshTimes_of_due (h : Due s) : s.unit.refreshTimes (env c s.now) =
    { s.unit with exploretimes := 20, buyboxtimes := 20, refreshtime := c.tomorrow s.now } :=
  if_pos h

theorem refreshTimes_of_not_due (h : ¬ Due s) : s.unit.refreshTimes (env c s.now) = s.unit :=
  if_neg h

theorem fresh_of_due (h : Due s) : fresh c k s = 20 := by
  rw [fresh, refreshTimes_of_due h]
  cases k <;> rfl

theorem fresh_of_not_due (h : ¬ Due s) : fresh c k s = k.value s.unit := by
  rw [fresh, refreshTimes_of_not_due h]

theorem Inv.fresh_le (h : Inv c s) (k : Quota) :
    k.value s.unit ≤ fresh c k s ∧ fresh c k s ≤ 20 := by
  have hrange := h.range k
  by_cases hdue : Due s
  · rw [fresh_of_due hdue]
    omega
  · rw [fresh_of_not_due hdue]
    omega

/-- Nothing has happened in the period that begins when the quotas fall due. -/
theorem Inv.none_yet (h : Inv c s) {now : ℤ} (hnow : s.now ≤ now) (hdue : s.unit.refreshtime < now)
    (hm : now ≤ c.tomorrow m) :
    (∀ k, spent c k s.log m ≤ 0) ∧ count c Event.isReset s.log m = 0 := by
  by_cases hbefore : Due s
  · obtain ⟨hspent, hreset⟩ := h.opened m (hnow.trans hm)
    refine ⟨fun k => ?_, hreset hbefore⟩
    have hk := hspent k
    rw [fresh_of_due hbefore] at hk
    omega
  · obtain ⟨t, ht⟩ := h.midnight
    have hlast : s.unit.refreshtime ≤ m := by
      by_contra hlt
      have hle := Calendar.tomorrow_le (ht ▸ not_le.mp hlt)
      omega
    have htimes : ∀ e ∈ s.log, e.time ≤ m := fun e he =>
      (h.times e he).trans ((not_lt.mp hbefore).trans hlast)
    exact ⟨fun k => (spent_eq_zero htimes).le, count_eq_zero htimes⟩

/-! ## One step -/

theorem Claimed.mono {r : Underway} (h : Claimed c s r)
    (hfresh : ∀ k, fresh c k s ≤ fresh c k s') : Claimed c s' r := by
  cases r with
  | enterGame => trivial
  | box num => exact ⟨h.1, h.2.trans (hfresh _)⟩
  | refresh => exact le_trans h (hfresh _)

/-- What leaves the quotas, the clock and the log alone. -/
theorem Inv.of_same (h : Inv c s) (hnow : s'.now = s.now) (hlog : s'.log = s.log)
    (hvalue : ∀ k : Quota, k.value s'.unit = k.value s.unit)
    (htime : s'.unit.refreshtime = s.unit.refreshtime)
    (hstored : ∃ t, s'.stored = image { s'.unit with refreshtime := c.tomorrow t } ∧
      c.tomorrow t ≤ s.unit.refreshtime)
    (hclaimed : ∀ r ∈ s'.underway, Claimed c s r) : Inv c s' := by
  have hdue : Due s' ↔ Due s := by rw [Due, Due, hnow, htime]
  have hfresh : ∀ k, fresh c k s' = fresh c k s := fun k => by
    by_cases hd : Due s
    · rw [fresh_of_due hd, fresh_of_due (hdue.mpr hd)]
    · rw [fresh_of_not_due hd, fresh_of_not_due (hdue.not.mpr hd), hvalue]
  exact {
    midnight := htime ▸ h.midnight
    stored := htime ▸ hstored
    times := by
      rw [hlog, hnow]
      exact h.times
    nums := hlog ▸ h.nums
    range := fun k => hvalue k ▸ h.range k
    opened := fun m hm => by
      rw [hlog, hdue]
      simp only [hfresh]
      exact h.opened m (hnow ▸ hm)
    past := hlog ▸ h.past
    claimed := fun r hr => (hclaimed r hr).mono fun k => (hfresh k).ge }

theorem Inv.tick (h : Inv c s) {now : ℤ} (hnow : s.now ≤ now) : Inv c { s with now } := by
  have hfresh : ∀ k, fresh c k s ≤ fresh c k { s with now } := fun k => by
    by_cases hd : Due { s with now }
    · rw [fresh_of_due hd]
      exact (h.fresh_le k).2
    · have hbefore : ¬ Due s := fun hdue => hd (lt_of_lt_of_le hdue hnow)
      rw [fresh_of_not_due hd, fresh_of_not_due hbefore]
  refine { h with times := fun e he => (h.times e he).trans hnow, opened := fun m hm => ?_,
                  claimed := fun r hr => (h.claimed r hr).mono hfresh }
  by_cases hd : Due { s with now }
  · obtain ⟨hspent, hreset⟩ := h.none_yet hnow hd hm
    refine ⟨fun k => ?_, fun _ => hreset⟩
    rw [fresh_of_due hd]
    exact add_le_of_nonpos_left (hspent k)
  · have hbefore : ¬ Due s := fun hdue => hd (lt_of_lt_of_le hdue hnow)
    refine ⟨fun k => ?_, fun hdue => absurd hdue hd⟩
    have hk := (h.opened m (hnow.trans hm)).1 k
    rw [fresh_of_not_due hbefore] at hk
    rwa [fresh_of_not_due hd]

/-- The time comes back as it was stored; when it has passed, so had the one that was left. -/
theorem Inv.login (h : Inv c s) (hkept : Kept s .login)
    (hload : load c s.now s.stored = some unit) :
    Inv c { s with unit, online := true, underway := some .enterGame } := by
  obtain ⟨t, hstored, hle⟩ := h.stored
  rw [hstored, load_image, Option.some.injEq] at hload
  subst hload
  set s' : State := { s with
    unit := { s.unit with refreshtime := c.tomorrow t }, online := true,
    underway := some .enterGame } with hs'
  have hdue : Due s' ↔ Due s := by
    refine ⟨fun hlt => hkept (c.tomorrow t) ?_ hlt, fun hd => lt_of_le_of_lt hle hd⟩
    have htime : s.stored refreshtime = some (c.tomorrow t).repr := by rw [hstored]; rfl
    rw [htime, Option.bind_some]
    exact tonumber_repr _
  have hvalue : ∀ k : Quota, k.value s'.unit = k.value s.unit := fun k => by cases k <;> rfl
  have hfresh : ∀ k, fresh c k s' = fresh c k s := fun k => by
    by_cases hd : Due s
    · rw [fresh_of_due hd, fresh_of_due (hdue.mpr hd)]
    · rw [fresh_of_not_due hd, fresh_of_not_due (hdue.not.mpr hd), hvalue]
  exact {
    midnight := ⟨t, rfl⟩
    stored := ⟨t, hstored, le_rfl⟩
    times := h.times
    nums := h.nums
    range := fun k => hvalue k ▸ h.range k
    opened := fun m hm => by
      obtain ⟨hspent, hreset⟩ := h.opened m hm
      exact ⟨fun k => hfresh k ▸ hspent k, fun hd => hreset (hdue.mp hd)⟩
    past := h.past
    claimed := fun r hr => by
      cases hr
      trivial }

variable (c) in
/-- The state behind a reset; the store keeps its time. -/
def resetAt (s : State) (t : ℤ) : State := { s with
  unit := s.unit.refreshTimes (env c s.now)
  stored := image { s.unit.refreshTimes (env c s.now) with refreshtime := c.tomorrow t }
  log := s.log ++ [.reset s.now] }

theorem refreshTimes_eq {t : ℤ} (hdue : Due s)
    (hstored : s.stored = image { s.unit with refreshtime := c.tomorrow t }) :
    refreshTimes c s = some ((), resetAt c s t) := by
  have hrun : refreshTimes c s = (update s.stored (s.unit.refreshTimes (env c s.now))
      [exploretimes, buyboxtimes]).map fun stored => ((), { resetAt c s t with stored }) := by
    change (if s.unit.refreshtime < s.now then _ else _ : Code Unit) s = _
    rw [if_pos (show s.unit.refreshtime < s.now from hdue)]
    rfl
  have hsave : update s.stored (s.unit.refreshTimes (env c s.now)) [exploretimes, buyboxtimes] =
      some (resetAt c s t).stored := by
    rw [resetAt, hstored, refreshTimes_of_due hdue]
    refine update_image (by simp) ?_ fun f hf => ?_
    · simp [fields, gold, money, exploretimes, buyboxtimes]
    · simp only [List.mem_cons, List.not_mem_nil, or_false, not_or] at hf
      simp only [fields, if_neg hf.1, if_neg hf.2]
  rw [hrun, hsave]
  rfl

theorem resetAt_not_due (hdue : Due s) (t : ℤ) : ¬ Due (resetAt c s t) := by
  have htime : (resetAt c s t).unit.refreshtime = c.tomorrow s.now :=
    congrArg Account.refreshtime (refreshTimes_of_due hdue)
  rw [Due, htime]
  exact not_lt.mpr (c.lt_tomorrow s.now).le

theorem Inv.reset (h : Inv c s) (hdue : Due s) {t : ℤ} (ht : c.tomorrow t ≤ s.unit.refreshtime) :
    Inv c (resetAt c s t) := by
  have hunit := refreshTimes_of_due (c := c) hdue
  have htime : (resetAt c s t).unit.refreshtime = c.tomorrow s.now :=
    congrArg Account.refreshtime hunit
  have hvalue : ∀ k : Quota, k.value (resetAt c s t).unit = 20 := fun k => by
    rw [resetAt, hunit]
    cases k <;> rfl
  have hspent : ∀ k m, spent c k (resetAt c s t).log m = spent c k s.log m := fun k m => by
    have hzero : amount k (.reset s.now) = 0 := by cases k <;> rfl
    rw [resetAt, spent_append, hzero, ite_self, add_zero]
  have hfresh : ∀ k, fresh c k (resetAt c s t) = fresh c k s := fun k => by
    rw [fresh_of_not_due (resetAt_not_due hdue t), hvalue, fresh_of_due hdue]
  exact {
    midnight := ⟨s.now, htime⟩
    stored := ⟨t, rfl, by
      rw [htime]
      exact ht.trans ((le_of_lt hdue).trans (c.lt_tomorrow s.now).le)⟩
    times := fun e he => by
      rcases List.mem_append.mp he with he | he
      · exact h.times e he
      · exact (congrArg Event.time (List.mem_singleton.mp he)).le
    nums := fun e he time num heq => by
      rcases List.mem_append.mp he with he | he
      · exact h.nums e he time num heq
      · exact absurd ((List.mem_singleton.mp he).symm.trans heq) (by simp)
    range := fun k => by
      rw [hvalue]
      omega
    opened := fun m hm => ⟨fun k => by
      rw [hspent, hfresh]
      exact (h.opened m hm).1 k, fun hd => absurd hd (resetAt_not_due hdue t)⟩
    past := fun m => by
      refine ⟨?_, fun k => hspent k m ▸ (h.past m).2 k⟩
      rw [resetAt, count_append]
      split_ifs with hin
      · rw [(h.none_yet le_rfl hdue hin.2.2).2]
      · exact (h.past m).1
    claimed := fun r hr => (h.claimed r hr).mono fun k => (hfresh k).ge }

/-- The quotas are up to date behind `refreshTimes`. -/
theorem Inv.upToDate (h : Inv c s) : ∃ s', refreshTimes c s = some ((), s') ∧ Inv c s' ∧
    ¬ Due s' ∧ s'.unit = s.unit.refreshTimes (env c s.now) ∧ s'.now = s.now ∧
    s'.underway = s.underway ∧ s'.online = s.online := by
  by_cases hdue : Due s
  · obtain ⟨t, hstored, hle⟩ := h.stored
    exact ⟨resetAt c s t, refreshTimes_eq hdue hstored, h.reset hdue hle, resetAt_not_due hdue t,
      rfl, rfl, rfl, rfl⟩
  · refine ⟨s, ?_, h, hdue, (refreshTimes_of_not_due hdue).symm, rfl, rfl, rfl⟩
    change (if s.unit.refreshtime < s.now then _ else _ : Code Unit) s = _
    rw [if_neg (show ¬ s.unit.refreshtime < s.now from hdue)]
    rfl

theorem Inv.spend (h : Inv c s) (hdue : ¬ Due s) {stored : Hash} (htime : e.time = s.now)
    (hreset : e.isReset = false) (hnum : ∀ time num, e = .box time num → 1 ≤ num)
    (hvalue : ∀ k : Quota, k.value unit = k.value s.unit - amount k e)
    (hzero : ∀ k, 0 ≤ amount k e) (hle : ∀ k, amount k e ≤ k.value s.unit)
    (hrefresh : unit.refreshtime = s.unit.refreshtime)
    (hstored : ∃ t, stored = image { unit with refreshtime := c.tomorrow t } ∧
      c.tomorrow t ≤ s.unit.refreshtime) :
    Inv c { s with unit, stored, log := s.log ++ [e], underway := none } := by
  have hdue' : ¬ Due { s with unit, stored, log := s.log ++ [e], underway := none } := by
    rw [Due, hrefresh]
    exact hdue
  have hopen : ∀ k m, s.now ≤ c.tomorrow m → spent c k s.log m + k.value s.unit ≤ 20 :=
    fun k m hm => fresh_of_not_due hdue ▸ (h.opened m hm).1 k
  have hspent : ∀ k m, spent c k (s.log ++ [e]) m ≤ spent c k s.log m + amount k e := fun k m => by
    rw [spent_append]
    have := hzero k
    split_ifs <;> omega
  exact {
    midnight := hrefresh ▸ h.midnight
    stored := hrefresh ▸ hstored
    times := fun e' he => by
      rcases List.mem_append.mp he with he | he
      · exact h.times e' he
      · exact List.mem_singleton.mp he ▸ htime.le
    nums := fun e' he time num heq => by
      rcases List.mem_append.mp he with he | he
      · exact h.nums e' he time num heq
      · exact hnum time num ((List.mem_singleton.mp he).symm.trans heq)
    range := fun k => by
      have hrange := h.range k
      have hamount := hzero k
      have hthere := hle k
      rw [hvalue]
      omega
    opened := fun m hm => ⟨fun k => by
      have hk := hopen k m hm
      have hsum := hspent k m
      rw [fresh_of_not_due hdue', hvalue]
      dsimp only
      omega, fun hd => absurd hd hdue'⟩
    past := fun m => by
      refine ⟨?_, fun k => ?_⟩
      · rw [count_append, hreset]
        simpa using (h.past m).1
      · rw [spent_append, htime]
        split_ifs with hin
        · have hk := hopen k m hin.2
          have hthere := hle k
          omega
        · have hk := (h.past m).2 k
          omega
    claimed := fun r hr => nomatch hr }

theorem Inv.saved (h : Inv c s) (f : Field) (unit : Account)
    (hsome : ∀ time, fields unit f = fields { unit with refreshtime := time } f ∧
      (fields { unit with refreshtime := time } f).isSome)
    (hother : ∀ f' ≠ f, ∀ time, fields { s.unit with refreshtime := time } f' =
      fields { unit with refreshtime := time } f') :
    ∃ stored, update s.stored unit [f] = some stored ∧
      ∃ t, stored = image { unit with refreshtime := c.tomorrow t } ∧
        c.tomorrow t ≤ s.unit.refreshtime := by
  obtain ⟨t, hstored, htime⟩ := h.stored
  refine ⟨_, ?_, t, rfl, htime⟩
  rw [hstored]
  refine update_image (by simp) (fun f' hf => ?_) fun f' hf => ?_
  · exact List.mem_singleton.mp hf ▸ hsome _
  · exact hother f' (fun heq => hf (List.mem_singleton.mpr heq)) _

theorem proceed_box {num : ℤ} (hnum : num ≠ 0) (hneg : wrap (-num) = -num) :
    proceed c (.box num) s = (refreshTimes c s).bind fun r =>
      (update r.2.stored (r.2.unit.addBuyBoxTimes (env c r.2.now) (-num)) [buyboxtimes]).bind
        fun stored => some ((), { r.2 with
          unit := r.2.unit.addBuyBoxTimes (env c r.2.now) (-num), stored,
          log := r.2.log ++ [.box r.2.now num] }) := by
  rw [proceed, addBuyBoxTimes, hneg, if_neg (by omega)]
  change Option.bind (Option.bind (refreshTimes c s) _) _ = _
  rw [Option.bind_assoc]
  refine Option.bind_congr fun r _ => ?_
  obtain ⟨⟨⟩, s₁⟩ := r
  change Option.bind (save [buyboxtimes] { s₁ with
    unit := s₁.unit.addBuyBoxTimes (env c s₁.now) (-num) }) _ = _
  rw [save, Option.bind_map]
  rfl

theorem proceed_refresh :
    proceed c .refresh s = (refreshTimes c s).bind fun r =>
      (update r.2.stored (r.2.unit.addExploreTimes (env c r.2.now) (-1)) [exploretimes]).bind
        fun stored => some ((), { r.2 with
          unit := r.2.unit.addExploreTimes (env c r.2.now) (-1), stored,
          log := r.2.log ++ [.refresh r.2.now] }) := by
  rw [proceed, addExploreTimes, if_neg (by omega)]
  change Option.bind (Option.bind (refreshTimes c s) _) _ = _
  rw [Option.bind_assoc]
  refine Option.bind_congr fun r _ => ?_
  obtain ⟨⟨⟩, s₁⟩ := r
  change Option.bind (save [exploretimes] { s₁ with
    unit := s₁.unit.addExploreTimes (env c s₁.now) (-1) }) _ = _
  rw [save, Option.bind_map]
  rfl

theorem Inv.box (h : Inv c s) {num : ℤ} (hclaimed : Claimed c s (.box num)) :
    ∃ s', proceed c (.box num) s = some ((), s') ∧ Inv c { s' with underway := none } ∧
      s'.unit = { s.unit.refreshTimes (env c s.now) with
        buyboxtimes := (s.unit.refreshTimes (env c s.now)).buyboxtimes - num } ∧
      .box s.now num ∈ s'.log := by
  obtain ⟨s₁, hrun, h₁, hdue, hunit, hnow, -⟩ := h.upToDate
  obtain ⟨hone, hle⟩ := hclaimed
  have hthere : num ≤ s₁.unit.buyboxtimes := by
    rw [fresh, ← hunit] at hle
    exact hle
  have htwenty : s₁.unit.buyboxtimes ≤ 20 := (h₁.range .buyboxtimes).2
  have htaken : s₁.unit.addBuyBoxTimes (env c s₁.now) (-num) =
      { s₁.unit with buyboxtimes := s₁.unit.buyboxtimes - num } := by
    rw [Account.addBuyBoxTimes, if_neg (by omega), refreshTimes_of_not_due hdue]
    dsimp only
    rw [← Int.sub_eq_add_neg, wrap_of_range (by omega) (by omega)]
  obtain ⟨stored, hsave, hstored⟩ := h₁.saved buyboxtimes
    { s₁.unit with buyboxtimes := s₁.unit.buyboxtimes - num }
    (fun time => by simp [fields, gold, money, exploretimes, buyboxtimes])
    (fun f' hf time => by simp only [fields, if_neg hf])
  refine ⟨{ s₁ with
    unit := { s₁.unit with buyboxtimes := s₁.unit.buyboxtimes - num }, stored
    log := s₁.log ++ [.box s₁.now num] }, ?_, h₁.spend hdue rfl rfl ?_ ?_ ?_ ?_ rfl hstored,
    by rw [hunit], by simp [hnow]⟩
  · rw [proceed_box (by omega) (wrap_of_range (by omega) (by omega)), hrun, Option.bind_some,
      htaken, hsave]
    rfl
  · rintro _ _ ⟨⟩
    exact hone
  · intro k
    cases k
    · exact (sub_zero _).symm
    · rfl
  · intro k
    cases k
    · exact le_rfl
    · exact le_trans zero_le_one hone
  · intro k
    cases k
    · exact (h₁.range .exploretimes).1
    · exact hthere

theorem Inv.refresh (h : Inv c s) (hclaimed : Claimed c s .refresh) :
    ∃ s', proceed c .refresh s = some ((), s') ∧ Inv c { s' with underway := none } := by
  obtain ⟨s₁, hrun, h₁, hdue, hunit, -⟩ := h.upToDate
  have hthere : 1 ≤ s₁.unit.exploretimes := by
    have hle : 1 ≤ fresh c .exploretimes s := hclaimed
    rw [fresh, ← hunit] at hle
    exact hle
  have htwenty : s₁.unit.exploretimes ≤ 20 := (h₁.range .exploretimes).2
  have htaken : s₁.unit.addExploreTimes (env c s₁.now) (-1) =
      { s₁.unit with exploretimes := s₁.unit.exploretimes - 1 } := by
    rw [Account.addExploreTimes, if_neg (by omega), refreshTimes_of_not_due hdue]
    dsimp only
    rw [← Int.sub_eq_add_neg, wrap_of_range (by omega) (by omega)]
  obtain ⟨stored, hsave, hstored⟩ := h₁.saved exploretimes
    { s₁.unit with exploretimes := s₁.unit.exploretimes - 1 }
    (fun time => by simp [fields, gold, money, exploretimes])
    (fun f' hf time => by simp only [fields, if_neg hf])
  refine ⟨{ s₁ with
    unit := { s₁.unit with exploretimes := s₁.unit.exploretimes - 1 }, stored
    log := s₁.log ++ [.refresh s₁.now] }, ?_, h₁.spend hdue rfl rfl ?_ ?_ ?_ ?_ rfl hstored⟩
  · rw [proceed_refresh, hrun, Option.bind_some, htaken, hsave]
    rfl
  · rintro _ _ ⟨⟩
  · intro k
    cases k
    · rfl
    · exact (sub_zero _).symm
  · intro k
    cases k
    · exact zero_le_one
    · exact le_rfl
  · intro k
    cases k
    · exact hthere
    · exact (h₁.range .buyboxtimes).1

theorem Inv.buyBox (h : Inv c s) {num : ℤ} (hnum : 1 ≤ num) : ∃ s',
    haveBuyBoxTimes c num s = some ((s.unit.haveBuyBoxTimes (env c s.now) num).2, s') ∧
      Inv c { s' with underway :=
        if (s.unit.haveBuyBoxTimes (env c s.now) num).2 then some (.box num) else none } ∧
      s'.unit = s.unit.refreshTimes (env c s.now) ∧ s'.now = s.now ∧ s'.online = s.online := by
  obtain ⟨s₁, hrun, h₁, hdue, hunit, hnow, -, honline⟩ := h.upToDate
  refine ⟨s₁, ?_, ?_, hunit, hnow, honline⟩
  · change Option.bind (refreshTimes c s) _ = _
    rw [hrun]
    change some ((s₁.unit.haveBuyBoxTimes (env c s₁.now) num).2, s₁) = _
    rw [Account.haveBuyBoxTimes, refreshTimes_of_not_due hdue, hunit, Account.haveBuyBoxTimes]
  · refine h₁.of_same rfl rfl (fun _ => rfl) rfl h₁.stored fun r hr => ?_
    split_ifs at hr with hhave
    · cases hr
      have hrange : 0 ≤ s₁.unit.buyboxtimes := (h₁.range .buyboxtimes).1
      rw [Account.haveBuyBoxTimes, ← hunit, decide_eq_true_iff] at hhave
      refine ⟨hnum, ?_⟩
      rw [fresh_of_not_due hdue]
      change num ≤ s₁.unit.buyboxtimes
      omega
    · cases hr

theorem Inv.exploreRefresh (h : Inv c s) : ∃ b s', haveExploreTimes c s = some (b, s') ∧
    Inv c { s' with underway := if b then some .refresh else none } := by
  obtain ⟨s₁, hrun, h₁, hdue, -⟩ := h.upToDate
  refine ⟨(s₁.unit.haveExploreTimes (env c s₁.now)).2, s₁, ?_, ?_⟩
  · change Option.bind (refreshTimes c s) _ = _
    rw [hrun]
    rfl
  · refine h₁.of_same rfl rfl (fun _ => rfl) rfl h₁.stored fun r hr => ?_
    split_ifs at hr with hhave
    · cases hr
      have hrange : 0 ≤ s₁.unit.exploretimes := (h₁.range .exploretimes).1
      rw [Account.haveExploreTimes, refreshTimes_of_not_due hdue, decide_eq_true_iff] at hhave
      change 1 ≤ fresh c .exploretimes s₁
      rw [fresh_of_not_due hdue]
      change 1 ≤ s₁.unit.exploretimes
      omega
    · cases hr

theorem Inv.balances (h : Inv c s) (gold' money' : Balance) : ∃ s',
    save [gold, money] { s with unit := { s.unit with gold := gold', money := money' } } =
      some ((), s') ∧ Inv c s' ∧ s'.unit = { s.unit with gold := gold', money := money' } ∧
      s'.now = s.now ∧ s'.underway = s.underway := by
  obtain ⟨t, hstored, htime⟩ := h.stored
  have hsave : update s.stored { s.unit with gold := gold', money := money' } [gold, money] =
      some (image { s.unit with gold := gold', money := money', refreshtime := c.tomorrow t }) := by
    rw [hstored]
    refine update_image (by simp) ?_ fun f hf => ?_
    · simp [fields, gold, money]
    · simp only [List.mem_cons, List.not_mem_nil, or_false, not_or] at hf
      simp only [fields, if_neg hf.1, if_neg hf.2]
  refine ⟨{ s with
    unit := { s.unit with gold := gold', money := money' }
    stored := image { s.unit with
      gold := gold', money := money', refreshtime := c.tomorrow t } }, ?_, ?_, rfl, rfl, rfl⟩
  · rw [save, hsave]
    rfl
  · refine h.of_same rfl rfl (fun k => ?_) rfl ⟨t, rfl, htime⟩ h.claimed
    cases k <;> rfl

theorem Inv.step (h : Inv c s) {l : Label} (hkept : Kept s l)
    (hstep : DailyQuota.step c s l = some s') : Inv c s' := by
  cases l with
  | tick now =>
      simp only [DailyQuota.step, Option.ite_none_right_eq_some, Option.some.injEq] at hstep
      obtain ⟨hnow, rfl⟩ := hstep
      exact h.tick hnow
  | login =>
      simp only [DailyQuota.step, Option.ite_none_left_eq_some, Option.bind_eq_bind,
        Option.bind_eq_some_iff, Option.some.injEq] at hstep
      obtain ⟨-, unit, hload, rfl⟩ := hstep
      exact h.login hkept hload
  | logout =>
      simp only [DailyQuota.step, Option.ite_none_right_eq_some, Option.some.injEq] at hstep
      obtain ⟨-, rfl⟩ := hstep
      exact h.of_same rfl rfl (fun _ => rfl) rfl h.stored h.claimed
  | buyBox num =>
      obtain ⟨⟨-, -, hnum⟩, hstep⟩ := Option.ite_none_right_eq_some.mp hstep
      obtain ⟨s₁, hrun, h₁, -⟩ := h.buyBox hnum
      rw [hrun] at hstep
      cases hstep
      exact h₁
  | exploreRefresh =>
      obtain ⟨-, hstep⟩ := Option.ite_none_right_eq_some.mp hstep
      obtain ⟨b, s₁, hrun, h₁⟩ := h.exploreRefresh
      rw [hrun] at hstep
      cases hstep
      exact h₁
  | balances gold' money' =>
      obtain ⟨-, hstep⟩ := Option.ite_none_right_eq_some.mp hstep
      obtain ⟨s₁, hrun, h₁, -⟩ := h.balances gold' money'
      rw [hrun] at hstep
      cases hstep
      exact h₁
  | proceed =>
      obtain ⟨r, hr, hstep⟩ := Option.bind_eq_some_iff.mp hstep
      have hclaimed := h.claimed r hr
      cases r with
      | enterGame =>
          obtain ⟨s₁, hrun, h₁, -⟩ := h.upToDate
          rw [show DailyQuota.proceed c .enterGame s = some ((), s₁) from hrun] at hstep
          cases hstep
          exact h₁.of_same rfl rfl (fun _ => rfl) rfl h₁.stored fun r hr => nomatch hr
      | box num =>
          obtain ⟨s₁, hrun, h₁, -⟩ := h.box hclaimed
          rw [hrun] at hstep
          cases hstep
          exact h₁
      | refresh =>
          obtain ⟨s₁, hrun, h₁⟩ := h.refresh hclaimed
          rw [hrun] at hstep
          cases hstep
          exact h₁
  | fail =>
      simp only [DailyQuota.step, Option.ite_none_right_eq_some, Option.some.injEq] at hstep
      obtain ⟨-, rfl⟩ := hstep
      exact h.of_same rfl rfl (fun _ => rfl) rfl h.stored fun r hr => nomatch hr

theorem inv_system (now : ℤ) : Inv c (system c now).init where
  midnight := ⟨now, rfl⟩
  stored := ⟨now, create_eq now, le_rfl⟩
  times := by simp [system]
  nums := by simp [system]
  range k := by cases k <;> exact (by decide : (0 : ℤ) ≤ 20 ∧ (20 : ℤ) ≤ 20)
  opened m _ := by
    have hnot : ¬ Due (system c now).init := not_lt.mpr (c.lt_tomorrow now).le
    refine ⟨fun k => ?_, fun hdue => absurd hdue hnot⟩
    rw [fresh_of_not_due hnot]
    cases k <;> exact (by decide : (0 : ℤ) + 20 ≤ 20)
  past m := ⟨Nat.zero_le _, fun k => (by decide : (0 : ℤ) ≤ 20)⟩
  claimed r hr := nomatch hr

/-! ## Every run -/

theorem Inv.daily (h : Inv c s) (midnight : ℤ) : Daily c s.log midnight := by
  obtain ⟨hresets, hspent⟩ := h.past midnight
  have hnum : ∀ k, ∀ e ∈ s.log, 0 ≤ amount k e := fun k e he => by
    cases e with
    | reset => cases k <;> exact le_rfl
    | box time num =>
        have hone := h.nums _ he time num rfl
        cases k
        · exact le_rfl
        · exact (by omega : 0 ≤ num)
    | refresh =>
        cases k
        · exact zero_le_one
        · exact le_rfl
  have hboxes : (count c Event.isBox s.log midnight : ℤ) ≤ spent c .buyboxtimes s.log midnight :=
    count_le_spent (hnum _) fun e he hbox => by
      cases e with
      | box time num => exact h.nums _ he time num rfl
      | _ => cases hbox
  have hrefreshes : (count c Event.isRefresh s.log midnight : ℤ) ≤
      spent c .exploretimes s.log midnight :=
    count_le_spent (hnum _) fun e _ hrefresh => by
      cases e with
      | refresh => exact le_rfl
      | _ => cases hrefresh
  have hbox := hspent .buyboxtimes
  have hexplore := hspent .exploretimes
  exact ⟨hresets, by omega, by omega⟩

/-- When no login brings back a time that has passed already, each period has one reset at most, and
the purchases and refreshes of one quota. -/
theorem quotas_daily (c : Calendar) (start : ℤ) {s : State}
    (h : (system c start).Runs Kept s) (now : ℤ) : Daily c s.log (c.tomorrow now) :=
  (System.Runs.invariant (inv_system start) (fun _ _ _ hs hkept hstep => hs.step hkept hstep)
    h).daily _

theorem step_login (s : State) (unit : Account) (hoff : s.online = false)
    (hstored : s.stored = image unit) :
    step c s .login = some { s with unit, online := true, underway := some .enterGame } := by
  rw [step, hoff, hstored, load_image]
  rfl

theorem step_enterGame {t : ℤ} (hunder : s.underway = some .enterGame) (hdue : Due s)
    (hstored : s.stored = image { s.unit with refreshtime := c.tomorrow t }) :
    step c s .proceed = some { resetAt c s t with underway := none } := by
  rw [step, hunder]
  change Option.bind (refreshTimes c s) _ = _
  rw [refreshTimes_eq hdue hstored]
  rfl

/-- The account comes in on the second day. -/
def comes : State :=
  { (system .utc 0).init with now := 90000, online := true, underway := some .enterGame }

theorem runs_comes : (system .utc 0).Runs Kept comes := by
  have htick : (system .utc 0).Runs Kept { (system .utc 0).init with now := 90000 } :=
    .step (i := .tick 90000) .init trivial rfl
  refine .step (i := .login) htick (fun _ _ _ => (by decide : (86400 : ℤ) < 90000)) ?_
  exact step_login { (system .utc 0).init with now := 90000 } (born .utc 0) rfl (create_eq 0)

/-- A reset and the purchase of five on the second day. -/
theorem quotas_daily_second : ∃ s, (system .utc 0).Runs Kept s ∧
    s.log = [.reset 90000, .box 90000 5] ∧ Daily .utc s.log (Calendar.utc.tomorrow 0) := by
  have hrun : ∃ s, (system .utc 0).run comes [.proceed, .buyBox 5, .proceed] = some s ∧
      s.log = [.reset 90000, .box 90000 5] := ⟨_, rfl, rfl⟩
  obtain ⟨s, hrun, hlog⟩ := hrun
  have hruns := runs_comes.of_run (fun i hi u => by
    simp only [List.mem_cons, List.not_mem_nil, or_false] at hi
    rcases hi with rfl | rfl | rfl <;> trivial) hrun
  exact ⟨s, hruns, hlog, quotas_daily .utc 0 hruns 0⟩

/-- It leaves, and comes back at once. -/
def away : State := { resetAt .utc comes 0 with underway := none, online := false }

def back : State := { away with
  unit := { away.unit with refreshtime := Calendar.utc.tomorrow 0 }, online := true,
  underway := some .enterGame }

/-- Who comes in twice a day has the quotas reset twice. -/
theorem login_resets_again : ¬ ∀ (c : Calendar) (start : ℤ) (s : State),
    (system c start).Reachable s → ∀ now, Daily c s.log (c.tomorrow now) := fun hall => by
  have hdue : Due comes := by decide
  have hfirst : (system .utc 0).Reachable { resetAt .utc comes 0 with underway := none } :=
    .step (i := .proceed) runs_comes.reachable trivial (step_enterGame rfl hdue (create_eq 0))
  have haway : (system .utc 0).Reachable away := .step (i := .logout) hfirst trivial rfl
  have hback : (system .utc 0).Reachable back :=
    .step (i := .login) haway trivial (step_login away back.unit rfl rfl)
  have hsecond : (system .utc 0).Reachable { resetAt .utc back 0 with underway := none } :=
    .step (i := .proceed) hback trivial (step_enterGame rfl (by decide) rfl)
  have hresets := (hall .utc 0 _ hsecond 0).resets
  exact absurd hresets (by decide)

/-! ## Purchases in the shop are purchases here -/

theorem refreshTimes_congr {game : Env} (a : Account) (hnow : game.now = s.now)
    (htomorrow : game.tomorrow = c.tomorrow s.now) :
    a.refreshTimes game = a.refreshTimes (env c s.now) := by
  simp only [Account.refreshTimes, hnow, htomorrow]
  rfl

theorem pay_quotas (a : Account) (shopDat : ShopRow) (cost : ℤ) :
    (pay a shopDat cost).exploretimes = a.exploretimes ∧
      (pay a shopDat cost).buyboxtimes = a.buyboxtimes ∧
      (pay a shopDat cost).refreshtime = a.refreshtime := by
  unfold pay
  split_ifs
  · exact AgentService.addGold_quotas a _
  · exact AgentService.addMoney_quotas a _
  · exact ⟨rfl, rfl, rfl⟩

/-- Behind the delivery of boxes, the quota and the balances are all that changed. -/
theorem deliver_account {game : Env} {user user' : User} {shopDat : ShopRow} {atype num : ℤ}
    {ids : List ℤ} (hthree : shopDat.n32Type = 3)
    (h : deliver game shopDat atype num user = some (ids, user')) :
    ∃ gold money, user'.account =
      Account.addBuyBoxTimes game { user.account with gold, money } (wrap (-num)) := by
  rw [deliver, if_neg (by omega), if_pos hthree] at h
  obtain ⟨⟨items, u₁⟩, hopened, h₁⟩ := Option.bind_eq_some_iff.mp h
  obtain ⟨⟨_, u₂⟩, hadd, h₂⟩ := Option.bind_eq_some_iff.mp h₁
  have hhanded := (SpecialOffer.handed_opened hopened).trans (SpecialOffer.handed_addItems hadd)
  cases h₂
  refine ⟨u₂.account.gold, u₂.account.money, ?_⟩
  have hsame : ({ user.account with gold := u₂.account.gold, money := u₂.account.money } :
    Account) =
      u₂.account := by
    simp only [← hhanded.exploretimes, ← hhanded.buyboxtimes, ← hhanded.refreshtime]
  rw [hsame]

theorem pay_account (a : Account) (shopDat : ShopRow) (cost : ℤ) (gold money : Balance) :
    { pay a shopDat cost with gold, money } = { a with gold, money } := by
  obtain ⟨hexplore, hbox, htime⟩ := pay_quotas a shopDat cost
  simp only [hexplore, hbox, htime]

/-- An amount that is there is taken off without wrapping. -/
theorem Inv.addBuyBoxTimes_eq (h : Inv c s) {game : Env} {num : ℤ} (hnow : game.now = s.now)
    (htomorrow : game.tomorrow = c.tomorrow s.now) (hclaimed : Claimed c s (.box num)) :
    s.unit.addBuyBoxTimes game (wrap (-num)) = { s.unit.refreshTimes (env c s.now) with
      buyboxtimes := (s.unit.refreshTimes (env c s.now)).buyboxtimes - num } := by
  obtain ⟨hone, hle⟩ := hclaimed
  have htwenty := (h.fresh_le .buyboxtimes).2
  have hthere : num ≤ (s.unit.refreshTimes (env c s.now)).buyboxtimes := hle
  have hmost : (s.unit.refreshTimes (env c s.now)).buyboxtimes ≤ 20 := htwenty
  rw [wrap_of_range (by omega) (by omega), Account.addBuyBoxTimes, if_neg (by omega),
    refreshTimes_congr _ hnow htomorrow]
  dsimp only
  rw [← Int.sub_eq_add_neg, wrap_of_range (by omega) (by omega)]

/-- A purchase of boxes in the shop runs through these steps, and the account is the same. -/
theorem buyShopItem_run {game : Env} {user : User} {shopDat : ShopRow} {id num : ℤ} {out : Outcome}
    (start : ℤ) (h : Inv c s) (honline : s.online = true) (hidle : s.underway = none)
    (hunit : user.account = s.unit) (hnow : game.now = s.now)
    (htomorrow : game.tomorrow = c.tomorrow s.now)
    (hrow : game.data.shopRepository id = some shopDat)
    (hthree : shopDat.n32Type = 3) (hnum : 1 ≤ num)
    (hbuy : buyShopItem game user id num = some out) :
    ∃ labels s', (system c start).run s labels = some s' ∧ s'.unit = out.user.account ∧
      (out.reply.errorCode = 0 → .box s.now num ∈ s'.log) := by
  have hfresh : user.account.refreshTimes game = s.unit.refreshTimes (env c s.now) := by
    rw [hunit, refreshTimes_congr _ hnow htomorrow]
  obtain ⟨s₁, hrun₁, h₁, hunit₁, hnow₁, honline₁⟩ := h.buyBox hnum
  have hstep₁ : (system c start).step s (.buyBox num) = some { s₁ with
      underway := if (s.unit.haveBuyBoxTimes (env c s.now) num).2 then some (.box num)
        else none } := by
    change step c s (.buyBox num) = _
    rw [step, if_pos ⟨honline, hidle, hnum⟩, hrun₁]
    rfl
  have hhave : (user.account.haveBuyBoxTimes game num).2 =
      (s.unit.haveBuyBoxTimes (env c s.now) num).2 := by
    rw [Account.haveBuyBoxTimes, Account.haveBuyBoxTimes, hfresh]
  cases hc : counter game user shopDat with
  | none =>
      simp only [buyShopItem, hrow, hc, Option.bind_eq_bind, Option.bind_some,
        Option.bind_none] at hbuy
      cases hbuy
  | some r =>
      obtain ⟨atype, hasBuy⟩ := r
      rw [buyShopItem_eq num hrow hc] at hbuy
      cases hchk : checks game user shopDat hasBuy (costPrice shopDat hasBuy num) num with
      | some code =>
          rw [hchk] at hbuy
          cases hbuy
          exact ⟨[], s, rfl, hunit.symm, fun hok => absurd hok (checks_ne_zero hchk)⟩
      | none =>
          rw [hchk] at hbuy
          dsimp only at hbuy
          split_ifs at hbuy with hquota
          · cases hbuy
            rw [hhave] at hquota
            rw [if_neg (by rw [hquota.2]; decide)] at hstep₁
            refine ⟨[.buyBox num], { s₁ with underway := none }, ?_, ?_,
              fun hok => absurd hok (by norm_num)⟩
            · rw [System.run_cons, hstep₁]
              rfl
            · exact hunit₁.trans hfresh.symm
          · obtain ⟨⟨ids, user'⟩, hdeliver, hout⟩ := Option.map_eq_some_iff.mp hbuy
            cases hout
            have hcan : (s.unit.haveBuyBoxTimes (env c s.now) num).2 = true := by
              rw [← hhave]
              exact Bool.not_eq_false _ ▸ fun hno => hquota ⟨hthree, hno⟩
            rw [if_pos hcan] at hstep₁ h₁
            obtain ⟨gold', money', haccount⟩ := deliver_account hthree hdeliver
            rw [paidUser_account, if_pos hthree, hfresh, ← hunit₁, pay_account] at haccount
            obtain ⟨s₂, hrun₂, h₂, hunit₂, hnow₂, hunder₂⟩ := h₁.balances gold' money'
            have hclaimed := h₂.claimed _ hunder₂
            have hnow₂' : s₂.now = s.now := hnow₂.trans hnow₁
            obtain ⟨s₃, hrun₃, -, hunit₃, hlog₃⟩ := h₂.box hclaimed
            refine ⟨[.buyBox num, .balances gold' money', .proceed], { s₃ with underway := none },
              ?_, ?_, fun _ => hnow₂' ▸ hlog₃⟩
            · have hstep₂ : (system c start).step { s₁ with underway := some (.box num) }
                  (.balances gold' money') = some s₂ := by
                change step c _ (.balances gold' money') = _
                rw [step, if_pos (honline₁.trans honline)]
                exact congrArg (Option.bind · fun r => some r.2) hrun₂
              have hstep₃ : (system c start).step s₂ .proceed =
                  some { s₃ with underway := none } := by
                change step c s₂ .proceed = _
                rw [step, hunder₂]
                change Option.bind (proceed c (.box num) s₂) _ = _
                rw [hrun₃]
                rfl
              rw [System.run_cons, hstep₁, Option.bind_some, System.run_cons, hstep₂,
                Option.bind_some, System.run_cons, hstep₃, Option.bind_some, System.run_nil]
            · have htaken := h₂.addBuyBoxTimes_eq (hnow.trans hnow₂'.symm)
                (by rw [htomorrow, hnow₂']) hclaimed
              rw [hunit₂] at htaken hunit₃
              exact (hunit₃.trans htaken.symm).trans haccount.symm

end GameServer.DailyQuota
