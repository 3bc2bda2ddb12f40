import Mathlib.Tactic

/-!
# Messages between services

Values go from one Lua state to another as bytes. `pack` walks through a value, tables included, to
a depth of 32, and writes into a chain of blocks on the way; `unpack` makes new tables from the
bytes. On the way in a table is an address, so the same table may be met again, also inside itself.
On the way out it is a tree. Memory, and room on the stacks of Lua and C, are left out, but for an
allocation of a negative size.
-/

namespace GameServer.Memory

/-- The `n` bytes of a number, the lowest first. -/
def little : ℕ → ℕ → List UInt8
  | 0, _ => []
  | n + 1, v => UInt8.ofNat v :: little n (v / 256)

def fromLittle : List UInt8 → ℕ
  | [] => 0
  | byte :: bytes => byte.toNat + 256 * fromLittle bytes

@[simp] theorem length_little (n v : ℕ) : (little n v).length = n := by
  induction n generalizing v with
  | zero => rfl
  | succ n ih => rw [little, List.length_cons, ih]

theorem fromLittle_little (n v : ℕ) : fromLittle (little n v) = v % 256 ^ n := by
  induction n generalizing v with
  | zero => rw [little, fromLittle, pow_zero, Nat.mod_one]
  | succ n ih =>
      rw [little, fromLittle, ih, UInt8.toNat_ofNat', pow_succ' 256 n, Nat.mod_mul]

theorem fromLittle_of_lt {n v : ℕ} (h : v < 256 ^ n) : fromLittle (little n v) = v := by
  rw [fromLittle_little, Nat.mod_eq_of_lt h]

end GameServer.Memory

namespace GameServer.Seri

open Memory

inductive Error
  | depth
  | unsupported
  | invalid (len : ℕ)
  | nan
  | toobig
  | memory
  | fuel
  deriving DecidableEq

/-- What is not a table. A double is given by its bits. -/
inductive Atom
  | boolean (b : Bool)
  | integer (v : BitVec 64)
  | real (v : BitVec 64)
  | userdata (p : BitVec 64)
  | string (s : List UInt8)
  deriving DecidableEq

/-- A value on the stack; `other` cannot be packed (functions, threads, full userdata). -/
inductive Value
  | nil
  | atom (a : Atom)
  | table (address : ℕ)
  | other
  deriving DecidableEq

/-- `entries` are in the order of `lua_next`; `metapairs` is what the `__pairs` of a metatable
gives before its nil. -/
structure Table where
  rawlen : ℕ
  entries : List (Value × Value)
  metapairs : Option (List (Value × Value))

abbrev Heap := ℕ → Table

def Value.integer (i : ℕ) : Value := .atom (.integer (BitVec.ofNat 64 i))

/-- `lua_rawgeti` -/
def Table.rawgeti (t : Table) (i : ℕ) : Value :=
  match t.entries.find? fun e => e.1 = .integer i with
  | some e => e.2
  | none => .nil

/-! ## Packing -/

def BLOCK_SIZE : ℕ := 128
def MAX_COOKIE : ℕ := 32
def MAX_DEPTH : ℕ := 32

/-- The conversion to `int` -/
def toInt (n : ℤ) : ℤ := Int.bmod n (2 ^ 32)

/-- `full` are the blocks before the current one, of which `ptr` bytes are written. `len` is an
`int` that may run over. -/
structure WriteBlock where
  full : List (List UInt8)
  current : List UInt8
  len : ℤ

namespace WriteBlock

def ptr (b : WriteBlock) : ℕ := b.current.length

def init : WriteBlock := ⟨[], [], 0⟩

def alloc (b : WriteBlock) : WriteBlock := { b with full := b.full ++ [b.current], current := [] }

def copy (b : WriteBlock) (buffer : List UInt8) : WriteBlock :=
  { b with current := b.current ++ buffer, len := toInt (b.len + buffer.length) }

/-- Fills blocks as long as the buffer goes beyond the current one. -/
def fill : ℕ → WriteBlock → List UInt8 → WriteBlock
  | 0, b, _ => b
  | n + 1, b, buffer =>
    if b.ptr + buffer.length ≤ BLOCK_SIZE then b.copy buffer
    else
      let copy := BLOCK_SIZE - b.ptr
      fill n (b.copy (buffer.take copy)).alloc (buffer.drop copy)

/-- `wb_push` -/
def push (b : WriteBlock) (buffer : List UInt8) : WriteBlock :=
  fill (buffer.length + 1) (if b.ptr = BLOCK_SIZE then b.alloc else b) buffer

end WriteBlock

/-- Reads the chain of blocks back. -/
def seri : List (List UInt8) → ℕ → List UInt8
  | [], _ => []
  | b :: next, len =>
    if BLOCK_SIZE ≤ len then b.take BLOCK_SIZE ++ seri next (len - BLOCK_SIZE) else b.take len

/-- `t | v << 3` in one byte -/
def COMBINE_TYPE (t : ℕ) (v : ℤ) : UInt8 := UInt8.ofNat (t + 8 * (v % 32).toNat)

def wbNil (b : WriteBlock) : WriteBlock := b.push [COMBINE_TYPE 0 0]

def wbBoolean (b : WriteBlock) (boolean : Bool) : WriteBlock :=
  b.push [COMBINE_TYPE 1 (if boolean then 1 else 0)]

def wbInteger (b : WriteBlock) (v : BitVec 64) : WriteBlock :=
  if v = 0 then b.push [COMBINE_TYPE 2 0]
  else if v ≠ (v.setWidth 32).signExtend 64 then
    (b.push [COMBINE_TYPE 2 6]).push (little 8 v.toNat)
  else if v.toInt < 0 then (b.push [COMBINE_TYPE 2 4]).push (little 4 (v.setWidth 32).toNat)
  else if v.toInt < 0x100 then (b.push [COMBINE_TYPE 2 1]).push (little 1 v.toNat)
  else if v.toInt < 0x10000 then (b.push [COMBINE_TYPE 2 2]).push (little 2 v.toNat)
  else (b.push [COMBINE_TYPE 2 4]).push (little 4 (v.setWidth 32).toNat)

def wbReal (b : WriteBlock) (v : BitVec 64) : WriteBlock :=
  (b.push [COMBINE_TYPE 2 8]).push (little 8 v.toNat)

def wbPointer (b : WriteBlock) (v : BitVec 64) : WriteBlock :=
  (b.push [COMBINE_TYPE 3 0]).push (little 8 v.toNat)

def wbString (b : WriteBlock) (str : List UInt8) (len : ℤ) : WriteBlock :=
  if len < MAX_COOKIE then
    let b := b.push [COMBINE_TYPE 4 len]
    if 0 < len then b.push (str.take len.toNat) else b
  else
    let b :=
      if len < 0x10000 then (b.push [COMBINE_TYPE 5 2]).push (little 2 len.toNat)
      else (b.push [COMBINE_TYPE 5 4]).push (little 4 len.toNat)
    b.push (str.take len.toNat)

def wbArraySize (b : WriteBlock) (arraySize : ℤ) : WriteBlock :=
  if MAX_COOKIE - 1 ≤ arraySize then
    wbInteger (b.push [COMBINE_TYPE 6 (MAX_COOKIE - 1)]) (BitVec.ofInt 64 arraySize)
  else b.push [COMBINE_TYPE 6 arraySize]

section

variable (packOne : WriteBlock → Value → Except Error WriteBlock)

/-- What is packed first is what `lua_rawlen` counts. -/
def wbTableArray (b : WriteBlock) (t : Table) (arraySize : ℤ) : Except Error WriteBlock :=
  (List.range' 1 arraySize.toNat).foldlM (fun b i => packOne b (t.rawgeti i))
    (wbArraySize b arraySize)

def inArray (arraySize : ℤ) : Value → Bool
  | .atom (.integer x) => 0 < x.toInt ∧ x.toInt ≤ arraySize
  | _ => false

def packPair (b : WriteBlock) (e : Value × Value) : Except Error WriteBlock := do
  let b ← packOne b e.1
  packOne b e.2

def wbTableHash (b : WriteBlock) (t : Table) (arraySize : ℤ) : Except Error WriteBlock := do
  let b ← t.entries.foldlM
    (fun b e => if inArray arraySize e.1 then pure b else packPair packOne b e) b
  pure (wbNil b)

def wbTableMetapairs (b : WriteBlock) (pairs : List (Value × Value)) :
    Except Error WriteBlock := do
  let b ← pairs.foldlM (packPair packOne) (b.push [COMBINE_TYPE 6 0])
  pure (wbNil b)

def wbTable (b : WriteBlock) (t : Table) : Except Error WriteBlock :=
  match t.metapairs with
  | some pairs => wbTableMetapairs packOne b pairs
  | none => do
    let arraySize := toInt t.rawlen
    let b ← wbTableArray packOne b t arraySize
    wbTableHash packOne b t arraySize

end

/-- `pack_one` at a depth of `MAX_DEPTH + 1 - levels` -/
def packOne (H : Heap) : ℕ → WriteBlock → Value → Except Error WriteBlock
  | 0, _, _ => .error .depth
  | levels + 1, b, v =>
    match v with
    | .nil => pure (wbNil b)
    | .atom (.boolean x) => pure (wbBoolean b x)
    | .atom (.integer x) => pure (wbInteger b x)
    | .atom (.real x) => pure (wbReal b x)
    | .atom (.userdata p) => pure (wbPointer b p)
    | .atom (.string s) => pure (wbString b s (toInt s.length))
    | .table address => wbTable (packOne H levels) b (H address)
    | .other => .error .unsupported

def packFrom (H : Heap) (values : List Value) : Except Error WriteBlock :=
  values.foldlM (packOne H (MAX_DEPTH + 1)) .init

def luaseriPack (H : Heap) (values : List Value) : Except Error (List UInt8) := do
  let b ← packFrom H values
  if b.len < 0 then .error .memory else pure (seri (b.full ++ [b.current]) b.len.toNat)

/-! ## Unpacking -/

inductive Data
  | nil
  | atom (a : Atom)
  | table (fields : List (Data × Data))

abbrev Fields := List (Data × Data)

/-- What follows in the stream -/
abbrev ReadBlock := List UInt8

abbrev Read (α : Type) := ReadBlock → Except Error (α × ReadBlock)

def rbRead (sz : ℕ) : Read (List UInt8) := fun rb =>
  if rb.length < sz then .error (.invalid rb.length) else .ok (rb.take sz, rb.drop sz)

/-- The integer that a double is, if it is one. -/
def realInteger (v : BitVec 64) : Option (BitVec 64) :=
  let exponent := v.toNat / 2 ^ 52 % 2 ^ 11
  let mantissa : ℕ := v.toNat % 2 ^ 52 + if exponent = 0 then 0 else 2 ^ 52
  let scale := max exponent 1
  if exponent = 2047 ∨ ¬ 2 ^ (1075 - scale) ∣ mantissa then none
  else
    let size : ℕ := mantissa / 2 ^ (1075 - scale) * 2 ^ (scale - 1075)
    let n : ℤ := if v.msb then -size else size
    if -2 ^ 63 ≤ n ∧ n < 2 ^ 63 then some (BitVec.ofInt 64 n) else none

def isNan (v : BitVec 64) : Bool := v.toNat / 2 ^ 52 % 2 ^ 11 = 2047 ∧ v.toNat % 2 ^ 52 ≠ 0

/-- The key under which a table has the value. -/
def luaKey : Data → Data
  | .atom (.real v) => (realInteger v).elim (.atom (.real v)) fun i => .atom (.integer i)
  | k => k

/-- A table that was just made is no other one. -/
def sameKey : Data → Data → Bool
  | .atom a, .atom b => a = b
  | _, _ => false

/-- `lua_rawset`; a nil takes the entry out. -/
def rawset (fields : Fields) (k v : Data) : Except Error Fields :=
  match k with
  | .atom (.real x) => if isNan x then .error .nan else .ok (put fields (luaKey k) v)
  | _ => .ok (put fields k v)
where
  put (fields : Fields) (k v : Data) : Fields :=
    match v with
    | .nil => fields.filter fun e => !sameKey k e.1
    | v =>
      if fields.any fun e => sameKey k e.1 then
        fields.map fun e => if sameKey k e.1 then (e.1, v) else e
      else fields ++ [(k, v)]

def getInteger (cookie : ℕ) : Read (BitVec 64) := fun rb =>
  match cookie with
  | 0 => .ok (0, rb)
  | 1 => do
    let (n, rb) ← rbRead 1 rb
    pure (BitVec.ofNat 64 (fromLittle n), rb)
  | 2 => do
    let (n, rb) ← rbRead 2 rb
    pure (BitVec.ofNat 64 (fromLittle n), rb)
  | 4 => do
    let (n, rb) ← rbRead 4 rb
    pure ((BitVec.ofNat 32 (fromLittle n)).signExtend 64, rb)
  | 6 => do
    let (n, rb) ← rbRead 8 rb
    pure (BitVec.ofNat 64 (fromLittle n), rb)
  | _ => .error (.invalid rb.length)

/-- A double or a pointer -/
def getWord : Read (BitVec 64) := fun rb => do
  let (n, rb) ← rbRead 8 rb
  pure (BitVec.ofNat 64 (fromLittle n), rb)

/-- A length that is negative as an `int` passes the test of `rb_read` and is too large for
`lua_pushlstring`. -/
def getBuffer (len : ℕ) : Read Data := fun rb =>
  if toInt len < 0 then .error .toobig
  else do
    let (s, rb) ← rbRead len rb
    pure (.atom (.string s), rb)

section

variable (unpackOne : Read Data)

def unpackArray : ℕ → ℕ → Fields → Read Fields
  | 0, _, fields, rb => .ok (fields, rb)
  | n + 1, i, fields, rb => do
    let (v, rb) ← unpackOne rb
    let fields ← rawset fields (.atom (.integer (BitVec.ofNat 64 i))) v
    unpackArray n (i + 1) fields rb

/-- Keys and values until a key is nil -/
def unpackPairs : ℕ → Fields → Read Fields
  | 0, _, _ => .error .fuel
  | n + 1, fields, rb => do
    let (k, rb) ← unpackOne rb
    match k with
    | .nil => pure (fields, rb)
    | k => do
      let (v, rb) ← unpackOne rb
      let fields ← rawset fields k v
      unpackPairs n fields rb

/-- How many values there are before the pairs. -/
def getArraySize (cookie : ℕ) : Read ℤ := fun rb =>
  if cookie = MAX_COOKIE - 1 then do
    let (t, rb) ← rbRead 1 rb
    let type := fromLittle t
    if type % 8 ≠ 2 ∨ type / 8 = 8 then .error (.invalid rb.length)
    else
      let (v, rb) ← getInteger (type / 8) rb
      pure (toInt v.toInt, rb)
  else .ok (cookie, rb)

def unpackTable (fuel : ℕ) (cookie : ℕ) : Read Data := fun rb => do
  let (arraySize, rb) ← getArraySize cookie rb
  let (fields, rb) ← unpackArray unpackOne arraySize.toNat 1 [] rb
  let (fields, rb) ← unpackPairs unpackOne fuel fields rb
  pure (.table fields, rb)

def pushValue (fuel : ℕ) (type cookie : ℕ) : Read Data := fun rb =>
  match type with
  | 0 => .ok (.nil, rb)
  | 1 => .ok (.atom (.boolean (cookie ≠ 0)), rb)
  | 2 =>
    if cookie = 8 then do
      let (v, rb) ← getWord rb
      pure (.atom (.real v), rb)
    else do
      let (v, rb) ← getInteger cookie rb
      pure (.atom (.integer v), rb)
  | 3 => do
    let (p, rb) ← getWord rb
    pure (.atom (.userdata p), rb)
  | 4 => getBuffer cookie rb
  | 5 =>
    if cookie = 2 then do
      let (n, rb) ← rbRead 2 rb
      getBuffer (fromLittle n) rb
    else if cookie ≠ 4 then .error (.invalid rb.length)
    else do
      let (n, rb) ← rbRead 4 rb
      getBuffer (fromLittle n) rb
  | 6 => unpackTable unpackOne fuel cookie rb
  | _ => .error (.invalid rb.length)

end

/-- Every call reads a byte, so the stream bounds the recursion. -/
def unpackOne : ℕ → Read Data
  | 0, _ => .error .fuel
  | n + 1, rb => do
    let (t, rb) ← rbRead 1 rb
    let type := fromLittle t
    pushValue (unpackOne n) (n + 1) (type % 8) (type / 8) rb

def unpackAll : ℕ → ReadBlock → Except Error (List Data)
  | 0, _ => .error .fuel
  | n + 1, rb =>
    match rb with
    | [] => .ok []
    | t :: rb => do
      let (v, rb) ← pushValue (unpackOne n) (n + 1) (t.toNat % 8) (t.toNat / 8) rb
      let values ← unpackAll n rb
      pure (v :: values)

def luaseriUnpack (buffer : List UInt8) : Except Error (List Data) :=
  unpackAll (buffer.length + 1) buffer

end GameServer.Seri
