import Mathlib.Tactic
import GameServer.Transition

/-!
# Identifiers of the uuid module

`lsid` hands out service numbers from a counter that is a C static, one for the whole process;
`luaopen_uuid_core` runs once per Lua state and sets that counter back to zero. Every service
caches its packed service bits for ever and its packed timestamp for one second, and `uuid.gen`
counts up below the timestamp. The model is the process: the shared counter, the wall clock in
hundredths of a second, the module tables of all services, and the identifiers issued so far.
-/

namespace GameServer.Uuid

open Transition

/-- A Lua integer. Shifts are logical and arithmetic wraps, as in the interpreter. -/
abbrev LuaInt := BitVec 64

/-- The locals of one loaded uuid module. `sid` and `stamp` repeat what went into `service` and
`timestamp`; the code does not keep them. -/
structure Module where
  service : Option LuaInt := none
  timestamp : Option LuaInt := none
  sequence : ℕ := 0
  cachedAt : ℕ := 0
  sid : ℕ := 0
  stamp : ℕ := 0
  deriving DecidableEq

/-- An identifier returned by `uuid.gen`, with the fields it was built from. -/
structure Issue where
  id : String
  number : LuaInt
  stamp : ℕ
  sid : ℕ
  sequence : ℕ
  deriving DecidableEq

structure Process where
  harbor : LuaInt
  clock : ℕ
  sid : ℕ := 0
  modules : List Module := []
  issued : List Issue := []
  deriving DecidableEq

def Process.osTime (p : Process) : ℕ := p.clock / 100

/-- The counter after the call and the number pushed, if any. -/
def lsid (sid : ℕ) : ℕ × Option ℕ :=
  if sid ≥ 0xffff then (sid, none) else (sid + 1, some (sid + 1))

def packService (harbor : LuaInt) (sid : ℕ) : LuaInt :=
  ((harbor &&& 0x3f#64) <<< 25) ||| ((BitVec.ofNat 64 sid &&& 0xffff#64) <<< 10)

/-- `'u' .. n` for a Lua integer `n`. -/
def idString (n : LuaInt) : String := "u" ++ toString n.toInt

/-- First use of the module: take a service number and pack it with the harbor. A missing number
raises an error. -/
def initService (harbor : LuaInt) (sid : ℕ) (m : Module) : ℕ × Option (LuaInt × Module) :=
  match m.service with
  | some service => (sid, some (service, m))
  | none => match lsid sid with
    | (sid', none) => (sid', none)
    | (sid', some k) =>
        let service := packService harbor k
        (sid', some (service, { m with service := some service, sid := k }))

def cacheTimestamp (clock : ℕ) (service : LuaInt) (m : Module) : LuaInt × Module :=
  match m.timestamp with
  | some timestamp => (timestamp, m)
  | none =>
      let timestamp := (BitVec.ofNat 64 (clock / 100) <<< 31) ||| service
      (timestamp, { m with timestamp := some timestamp, sequence := 0, cachedAt := clock,
                           stamp := clock / 100 })

/-- `uuid.gen` in one module: the new value of the shared counter, the module's locals after the
call, and the number in the string returned, unless an assertion failed. -/
def gen (harbor : LuaInt) (clock sid : ℕ) (m : Module) : ℕ × Module × Option LuaInt :=
  match initService harbor sid m with
  | (sid', none) => (sid', m, none)
  | (sid', some (service, m₁)) =>
      let (timestamp, m₂) := cacheTimestamp clock service m₁
      let m₃ := { m₂ with sequence := m₂.sequence + 1 }
      if m₃.sequence < 1024 then
        (sid', m₃, some (timestamp ||| BitVec.ofNat 64 m₃.sequence))
      else (sid', m₃, none)

/-- Timestamp, harbor, service number and sequence. -/
def split (id : LuaInt) : LuaInt × LuaInt × LuaInt × LuaInt :=
  (id >>> 31, (id &&& 0x7fffffff#64) >>> 25, (id &&& 0x1ffffff#64) >>> 10, id &&& 0x3ff#64)

inductive Label
  | load
  | gen (i : ℕ)
  | tick
  | reset (i : ℕ)

def issueOf (m : Module) (number : LuaInt) : Issue :=
  ⟨idString number, number, m.stamp, m.sid, m.sequence⟩

def step (p : Process) : Label → Option Process
  | .load => some { p with sid := 0, modules := p.modules ++ [{}] }
  | .tick => some { p with clock := p.clock + 1 }
  | .gen i => match p.modules[i]? with
    | none => none
    | some m => match gen p.harbor p.clock p.sid m with
      | (sid', m', out) => some { p with
          sid := sid', modules := p.modules.set i m',
          issued := p.issued ++ (out.map (issueOf m')).toList }
  | .reset i => match p.modules[i]? with
    | none => none
    | some m => if m.timestamp.isSome ∧ m.cachedAt + 100 ≤ p.clock then
        some { p with modules := p.modules.set i { m with timestamp := none } }
      else none

/-- One process, before any service has loaded the module. -/
def process (harbor : LuaInt) (clock : ℕ) : System Process Label where
  init := { harbor, clock }
  step := step

end GameServer.Uuid
