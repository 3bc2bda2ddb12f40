import GameServer.Agent
import GameServer.Transition

/-!
# Activity counters across a reload

The counters of an account live in the agent and in a hash of the store. A new unit is written as a
whole and `setValue` writes both fields, but `addValue` on a unit that exists writes the value alone
although it changes the expiry too. A reload therefore sees the last value with an older expiry.
-/

namespace GameServer.ActivityReload

open Goods Agent Transition

/-- The values of the table `ActivityAccountType`. -/
def ActivityAccountType : List ℤ := [1001, 1002, 1003, 2001, 2002, 3001, 4001, 4002, 4003, 4004]

/-- The fields that `activity.load` reads as numbers. Every `activity.update` writes the value. -/
structure Hash where
  value : ℤ
  expire : Option ℤ
  deriving DecidableEq

/-- The counters of an account in the agent and in the store, by type. -/
structure Account where
  now : ℤ
  units : Activitys
  stored : ℤ → Option Hash

namespace Account

variable (env : Env) (s : Account)

def clock : Env := { env with now := s.now }

def getValue (atype : ℤ) : ℤ := s.units.getValue (s.clock env) atype

/-- `activity.update` of a whole unit. -/
def update (atype : ℤ) (unit : Activity) : Account :=
  { s with stored := Function.update s.stored atype (some ⟨unit.value, some unit.expire⟩) }

/-- `activity.update` of the field `value`. -/
def updateValue (atype : ℤ) (unit : Activity) : Account :=
  { s with
    stored := Function.update s.stored atype
      (some ⟨unit.value, (s.stored atype).bind Hash.expire⟩) }

def addValue (atype val : ℤ) (expire : Option ℤ) : Account :=
  let units := s.units.addValue (s.clock env) atype val expire
  match units atype with
  | none => { s with units }
  | some unit =>
    if (s.units atype).isSome then { s with units }.updateValue atype unit
    else { s with units }.update atype unit

/-- The two branches of `setValue` write the same hash. -/
def setValue (atype val : ℤ) (expire : Option ℤ) : Account :=
  let unit : Activity := { value := val, expire := expire.getD maxint32 }
  { s with units := Function.update s.units atype (some unit) }.update atype unit

/-- What `loadAccount` keeps of a stored hash; a hash without an expiry is an error. -/
def kept (atype : ℤ) : Option (Option Activity) :=
  match s.stored atype with
  | none => some none
  | some hash => do
    let expire ← hash.expire
    some (if expire > s.now then some { value := hash.value, expire } else none)

/-- The loop of `loadAccount`. -/
def loadEach : List ℤ → Activitys → Option Activitys
  | [], units => some units
  | atype :: rest, units => do
    let unit ← s.kept atype
    loadEach rest (if unit.isSome then Function.update units atype unit else units)

def loadAccount : Option Account := do
  let units ← s.loadEach ActivityAccountType fun _ => none
  some { s with units }

end Account

/-- Calls on the counters, time that passes, and a logout with the login after it. -/
inductive Event
  | addValue (atype val : ℤ) (expire : Option ℤ)
  | setValue (atype val : ℤ) (expire : Option ℤ)
  | pass (seconds : ℕ)
  | reload

variable {env : Env} {s s' : Account} {e : Event} {atype a val start : ℤ} {expire : Option ℤ}

def Account.step (env : Env) (s : Account) : Event → Option Account
  | .addValue atype val expire => some (s.addValue env atype val expire)
  | .setValue atype val expire => some (s.setValue atype val expire)
  | .pass seconds => some { s with now := s.now + seconds }
  | .reload => s.loadAccount

/-- An account whose counters were never written. -/
def counters (env : Env) (start : ℤ) : System Account Event where
  init := { now := start, units := fun _ => none, stored := fun _ => none }
  step := Account.step env

/-! ## What the store holds of the units in memory -/

/-- The store has the value of every unit, with some expiry, and what it holds of other types is
over. -/
structure Mirrored (s : Account) : Prop where
  unit : ∀ atype unit, s.units atype = some unit →
    ∃ end', s.stored atype = some ⟨unit.value, some end'⟩
  other : ∀ atype hash, s.units atype = none → s.stored atype = some hash →
    ∃ end', hash.expire = some end' ∧ (atype ∈ ActivityAccountType → end' ≤ s.now)

theorem Mirrored.init : Mirrored (counters env start).init where
  unit _ _ h := nomatch h
  other _ _ _ h := nomatch h

theorem addValue_of_none (h : s.units atype = none) :
    s.addValue env atype val expire =
      ({ s with
          units := Function.update s.units atype (some ⟨val, expire.getD maxinteger⟩) } :
        Account).update atype ⟨val, expire.getD maxinteger⟩ := by
  simp [Account.addValue, Activitys.addValue, h]

theorem addValue_of_some (env : Env) (val : ℤ) (expire : Option ℤ) {unit : Activity}
    (h : s.units atype = some unit) :
    ∃ value, s.addValue env atype val expire =
      ({ s with
          units := Function.update s.units atype (some ⟨value, expire.getD maxinteger⟩) } :
        Account).updateValue atype ⟨value, expire.getD maxinteger⟩ := by
  refine ⟨wrap ((if unit.expire ≤ s.now then 0 else unit.value) + val), ?_⟩
  simp [Account.addValue, Activitys.addValue, Account.clock, h]
  rfl

/-- A unit that is put in memory and in the store keeps the two in agreement. -/
theorem Mirrored.put (hs : Mirrored s) {unit : Activity} {end' : ℤ} :
    Mirrored { s with
      units := Function.update s.units atype (some unit)
      stored := Function.update s.stored atype (some ⟨unit.value, some end'⟩) } where
  unit a held h := by
    by_cases ha : a = atype
    · subst ha
      simp only [Function.update_self, Option.some.injEq] at h ⊢
      exact ⟨end', by rw [h]⟩
    · simp only [Function.update_of_ne ha] at h ⊢
      exact hs.unit a held h
  other a hash h hstored := by
    by_cases ha : a = atype
    · simp [ha] at h
    · simp only [Function.update_of_ne ha] at h hstored
      exact hs.other a hash h hstored

theorem Mirrored.addValue (hs : Mirrored s) : Mirrored (s.addValue env atype val expire) := by
  cases h : s.units atype with
  | none =>
      rw [addValue_of_none h]
      exact hs.put
  | some unit =>
      obtain ⟨value, heq⟩ := addValue_of_some env val expire h
      obtain ⟨end', hstored⟩ := hs.unit atype unit h
      rw [heq]
      simp only [Account.updateValue, hstored, Option.bind_some]
      exact hs.put

/-! ## The loop of `loadAccount` -/

/-- The unit of a type that a login finds in the store. -/
def Account.remaining (s : Account) (atype : ℤ) : Option Activity := (s.kept atype).getD none

theorem Mirrored.dated (hs : Mirrored s) {hash : Hash} (hstored : s.stored atype = some hash) :
    ∃ end', hash.expire = some end' := by
  cases h : s.units atype with
  | none =>
      obtain ⟨end', hend, -⟩ := hs.other atype hash h hstored
      exact ⟨end', hend⟩
  | some unit =>
      obtain ⟨end', hend⟩ := hs.unit atype unit h
      rw [hend, Option.some.injEq] at hstored
      exact ⟨end', by rw [← hstored]⟩

theorem Mirrored.kept (hs : Mirrored s) (atype : ℤ) :
    s.kept atype = some (s.remaining atype) := by
  unfold Account.remaining Account.kept
  cases hstored : s.stored atype with
  | none => rfl
  | some hash =>
      obtain ⟨end', hend⟩ := hs.dated hstored
      simp [hend]

theorem loadEach_eq (hkept : ∀ a, s.kept a = some (s.remaining a)) (l : List ℤ)
    (units : Activitys) :
    s.loadEach l units =
      some fun a => if a ∈ l ∧ (s.remaining a).isSome then s.remaining a else units a := by
  induction l generalizing units with
  | nil => simp [Account.loadEach]
  | cons atype rest ih =>
      rw [Account.loadEach, hkept, Option.bind_eq_bind, Option.bind_some, ih]
      congr 1
      funext a
      by_cases ha : a = atype
      · subst ha
        cases s.remaining a <;> simp
      · cases s.remaining atype <;> simp [ha]

/-- A login in agreement succeeds and takes over what is left in the store of the types of the
table. -/
theorem Mirrored.loadAccount (hs : Mirrored s) :
    s.loadAccount = some { s with
      units := fun a => if a ∈ ActivityAccountType then s.remaining a else none } := by
  rw [Account.loadAccount, loadEach_eq hs.kept, Option.bind_eq_bind, Option.bind_some]
  congr 2
  funext a
  cases s.remaining a <;> simp

theorem remaining_eq_some {unit : Activity} :
    s.remaining atype = some unit ↔
      s.stored atype = some ⟨unit.value, some unit.expire⟩ ∧ s.now < unit.expire := by
  unfold Account.remaining Account.kept
  cases hstored : s.stored atype with
  | none => simp
  | some hash =>
      obtain ⟨value, expire⟩ := hash
      obtain ⟨value', expire'⟩ := unit
      cases expire with
      | none => simp
      | some end' =>
          by_cases hlive : s.now < end' <;> simp [hlive]
          · rintro - rfl
            exact hlive
          · rintro - rfl
            omega

theorem Mirrored.reload (hs : Mirrored s) :
    Mirrored { s with
      units := fun a => if a ∈ ActivityAccountType then s.remaining a else none } where
  unit a unit h := by
    simp only [Option.ite_none_right_eq_some] at h
    exact ⟨unit.expire, (remaining_eq_some.mp h.2).1⟩
  other a hash h hstored := by
    obtain ⟨end', hend⟩ := hs.dated hstored
    refine ⟨end', hend, fun ha => ?_⟩
    by_contra hlive
    have hleft : s.remaining a = some ⟨hash.value, end'⟩ := by
      apply remaining_eq_some.mpr
      exact ⟨by rw [← hend]; exact hstored, not_le.mp hlive⟩
    simp [ha, hleft] at h

/-! ## Every run -/

theorem Mirrored.step (hs : Mirrored s) (hstep : s.step env e = some s') : Mirrored s' := by
  cases e with
  | addValue atype val expire =>
      cases hstep
      exact hs.addValue
  | setValue atype val expire =>
      cases hstep
      exact hs.put
  | pass seconds =>
      cases hstep
      refine ⟨hs.unit, fun a hash h hstored => ?_⟩
      obtain ⟨end', hend, hover⟩ := hs.other a hash h hstored
      refine ⟨end', hend, fun ha => ?_⟩
      have := hover ha
      simp only
      omega
  | reload =>
      rw [Account.step, hs.loadAccount, Option.some.injEq] at hstep
      subst hstep
      exact hs.reload

theorem mirrored (hs : (counters env start).Reachable s) : Mirrored s :=
  hs.invariant .init fun _ _ _ hs _ hstep => hs.step hstep

/-! ## When the counters survive -/

/-- The expiry in the store and the one in memory are both ahead or both over, or the counter
stands at zero. -/
def Account.InStep (s : Account) (atype : ℤ) : Prop :=
  ∀ unit hash end', s.units atype = some unit → s.stored atype = some hash →
    hash.expire = some end' → unit.value = 0 ∨ (s.now < unit.expire ↔ s.now < end')

theorem getValue_of_none (h : s.units atype = none) : s.getValue env atype = 0 := by
  simp [Account.getValue, Activitys.getValue, h]

theorem getValue_of_some {unit : Activity} (h : s.units atype = some unit) :
    s.getValue env atype = if s.now < unit.expire then unit.value else 0 := by
  simp [Account.getValue, Activitys.getValue, Account.clock, h]

/-- A counter of the table is the same after the login exactly when it is in step. -/
theorem getValue_remaining (hs : Mirrored s) (ha : atype ∈ ActivityAccountType) {units : Activitys}
    (hunits : units atype = s.remaining atype) :
    ({ s with units } : Account).getValue env atype = s.getValue env atype ↔ s.InStep atype := by
  cases h : s.units atype with
  | none =>
      have hgone : s.remaining atype = none := by
        by_contra hleft
        obtain ⟨unit, hleft⟩ := Option.ne_none_iff_exists'.mp hleft
        obtain ⟨hstored, hlive⟩ := remaining_eq_some.mp hleft
        obtain ⟨end', hend, hover⟩ := hs.other atype _ h hstored
        cases hend
        exact absurd (hover ha) (not_le.mpr hlive)
      rw [getValue_of_none (s := { s with units }) (hunits.trans hgone), getValue_of_none h]
      simp [Account.InStep, h]
  | some unit =>
      obtain ⟨end', hstored⟩ := hs.unit atype unit h
      have hafter : ({ s with units } : Account).getValue env atype =
          if s.now < end' then unit.value else 0 := by
        by_cases hlive : s.now < end'
        · have hleft : s.remaining atype = some ⟨unit.value, end'⟩ := by
            apply remaining_eq_some.mpr
            exact ⟨hstored, hlive⟩
          rw [getValue_of_some (s := { s with units }) (hunits.trans hleft)]
        · have hgone : s.remaining atype = none := by
            by_contra hleft
            obtain ⟨unit', hleft⟩ := Option.ne_none_iff_exists'.mp hleft
            obtain ⟨hstored', hlive'⟩ := remaining_eq_some.mp hleft
            rw [hstored] at hstored'
            simp only [Option.some.injEq, Hash.mk.injEq] at hstored'
            omega
          rw [getValue_of_none (s := { s with units }) (hunits.trans hgone), if_neg hlive]
      have hstep : s.InStep atype ↔
          (unit.value = 0 ∨ (s.now < unit.expire ↔ s.now < end')) := by
        constructor
        · intro hin
          exact hin unit _ end' h hstored rfl
        · intro hin unit' hash end'' hunit hhash hend
          rw [h] at hunit
          rw [hstored] at hhash
          cases hunit
          cases hhash
          cases hend
          exact hin
      rw [hafter, getValue_of_some h, hstep]
      by_cases hlive : s.now < end' <;> by_cases hunit : s.now < unit.expire <;>
        simp [hlive, hunit, eq_comm]

/-- A login right after any run keeps the counters of the table exactly when each of them is in
step. -/
theorem getValue_reload_iff (hs : (counters env start).Reachable s) :
    ∃ s', s.loadAccount = some s' ∧
      ((∀ atype ∈ ActivityAccountType, s'.getValue env atype = s.getValue env atype) ↔
        ∀ atype ∈ ActivityAccountType, s.InStep atype) := by
  refine ⟨_, (mirrored hs).loadAccount, ?_⟩
  apply forall₂_congr
  intro atype ha
  apply getValue_remaining (mirrored hs) ha
  simp [ha]

/-- The paid refreshes of a day. -/
def firstDay : List Event := [.addValue 2001 1 (some 86400), .addValue 2001 1 (some 86400)]

/-- Paid refreshes on two days: the store dates the counter of the second to the first. -/
def secondDay : List Event :=
  [.addValue 2001 1 (some 86400), .pass 90000, .addValue 2001 1 (some 172800)]

theorem getValue_reload_firstDay :
    ∃ s s', (counters quiet 0).run (counters quiet 0).init firstDay = some s ∧
      s.loadAccount = some s' ∧ s.getValue quiet 2001 = 2 ∧
      ∀ atype ∈ ActivityAccountType, s'.getValue quiet atype = s.getValue quiet atype := by
  have hrun : ∃ s, (counters quiet 0).run (counters quiet 0).init firstDay = some s := ⟨_, rfl⟩
  obtain ⟨s, hrun⟩ := hrun
  obtain ⟨s', hload, hsame⟩ := getValue_reload_iff (System.reachable_of_run firstDay hrun)
  refine ⟨s, s', hrun, hload, ?_, hsame.mpr ?_⟩
  · cases hrun
    rfl
  · cases hrun
    intro atype ha
    fin_cases ha
    all_goals
      intro unit hash end' hunit hstored hend
      cases hunit <;> cases hstored <;> cases hend
    exact Or.inr Iff.rfl

theorem getValue_reload_secondDay :
    ∃ s s', (counters quiet 0).Reachable s ∧ s.loadAccount = some s' ∧
      s.getValue quiet 2001 = 1 ∧ s'.getValue quiet 2001 = 0 := by
  refine ⟨_, _, System.reachable_of_run secondDay rfl, rfl, ?_, ?_⟩
  · rfl
  · rfl

end GameServer.ActivityReload
