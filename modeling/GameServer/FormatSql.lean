import Mathlib.Tactic
import GameServer.SaveQueue

/-!
# The replace statement of a loaded record

`formatsql` turns the table a database module loads into one `replace` statement. `cards`,
`skills`, `missions` and `mails` are serialized into one column; a fight record is first evaluated
back into a table; every other record is packed field by field. Each way concatenates Lua values,
and concatenating anything but a string or a number is an error.
-/

namespace GameServer.FormatSql

open SaveQueue (Table)

/-- A key of a Lua table; a number is kept as the text concatenation gives it. -/
inductive Key
  | name (s : String)
  | number (text : String)
  deriving DecidableEq

mutual

inductive Value
  | bool (b : Bool)
  | number (text : String)
  | string (s : String)
  | table (fields : Fields)

/-- The entries of a table in the order `pairs` visits them. -/
inductive Fields
  | nil
  | cons (key : Key) (value : Value) (rest : Fields)

end

def Key.text : Key → String
  | .name s => s
  | .number t => t

/-- The text of an operand of `..`. -/
def Value.text? : Value → Option String
  | .string s => some s
  | .number t => some t
  | _ => none

/-! ## `serialize` -/

/-- The key of an entry in a serialized table. -/
def Key.entry : Key → String
  | .name s => s
  | .number t => "[" ++ t ++ "]"

mutual

/-- The entry `key=value` that `ser_table` appends. A loaded record shares no tables, so `assign`
stays empty. -/
def Value.ser (key : String) : Value → Option String
  | .table fields => do
      let entries ← fields.ser_table
      some (key ++ "=" ++ ("\x7b" ++ ",".intercalate entries ++ "\x7d"))
  | .string s => some (key ++ "=\"" ++ s ++ "\"")
  | .number t => some (key ++ "=" ++ t)
  | .bool _ => none

def Fields.ser_table : Fields → Option (List String)
  | .nil => some []
  | .cons key value rest =>
      if key = .name "doNotSavebg" then rest.ser_table
      else do
        let entry ← value.ser key.entry
        let entries ← rest.ser_table
        some (entry :: entries)

end

def serialize (unit : Fields) : Option String := do
  let entries ← unit.ser_table
  some ("do local ret=" ++ ("\x7b" ++ ",".intercalate entries ++ "\x7d") ++ " return ret end")

/-! ## `table.packsql` -/

/-- The locals `keys`, `bk`, `values` and `bv` of the loop. -/
structure Packing where
  keys : String := ""
  bk : Bool := false
  values : Value := .string ""
  bv : Bool := false

def Packing.addKey (p : Packing) (k : Key) : Packing :=
  if p.bk then { p with keys := p.keys ++ "," ++ k.text }
  else { p with keys := k.text, bk := true }

def Packing.addValue (p : Packing) (v : Value) : Option Packing :=
  if p.bv then
    match v with
    | .string s => do
        let values ← p.values.text?
        some { p with values := .string (values ++ ",'" ++ s ++ "'") }
    | v => do
        let values ← p.values.text?
        let text ← v.text?
        some { p with values := .string (values ++ "," ++ text) }
  else
    match v with
    | .string s => some { p with values := .string ("'" ++ s ++ "'"), bv := true }
    | v => some { p with values := v, bv := true }

def packLoop : Fields → Packing → Option Packing
  | .nil, p => some p
  | .cons k v rest, p => do
      let p ← (p.addKey k).addValue v
      packLoop rest p

def packsql (unit : Fields) : Option (String × Value) := do
  let p ← packLoop unit {}
  some (p.keys, p.values)

/-! ## `formatsql` -/

def serialize_one : Table → Bool
  | .cards | .skills | .missions | .mails => true
  | _ => false

/-- `load(q)()` for a chunk of one value at most. The outer `none` is an error: of the parser, which
also stops at 200 nested levels, of the run, or of `table.insert` for a chunk without a value. The
inner one is the value `nil`. -/
abbrev Evaluate := String → Option (Option Value)

/-- The table `st` of the evaluated fight records. Inserting `nil` inserts nothing. -/
def evaluated (load : Evaluate) : Fields → Option (List Value)
  | .nil => some []
  | .cons _ (.string q) rest => do
      let v ← load q
      let st ← evaluated load rest
      some (v.toList ++ st)
  | .cons _ _ _ => none

/-- The array with these elements from position `i` on. -/
def Fields.ofList (i : ℕ) : List Value → Fields
  | [] => .nil
  | v :: st => .cons (.number (toString i)) v (ofList (i + 1) st)

/-- The columns and the values; `none` is an error, also the one of iterating over `nil`. -/
def columns (load : Evaluate) (name : Table) : Option Fields → Option (String × Value)
  | none => none
  | some unit =>
      if serialize_one name then do
        let text ← serialize unit
        some ("blobdata", .string ("'" ++ text ++ "'"))
      else if name = .fightrecords then do
        let st ← evaluated load unit
        let text ← serialize (Fields.ofList 1 st)
        some ("blobdata", .string ("'" ++ text ++ "'"))
      else packsql unit

def formatsql (load : Evaluate) (key : String) (name : Table) (unit : Option Fields) :
    Option String := do
  let (keys, values) ← columns load name unit
  let values ← values.text?
  some ("replace into " ++ name.name ++ " ( uuid," ++ keys ++ ") values('" ++ key ++ "'," ++
    values ++ ")")

/-! ## Which records have a statement -/

mutual

/-- No boolean is met while serializing. -/
def Value.serializable : Value → Bool
  | .bool _ => false
  | .table fields => fields.serializable
  | _ => true

def Fields.serializable : Fields → Bool
  | .nil => true
  | .cons key value rest =>
      (decide (key = .name "doNotSavebg") || value.serializable) && rest.serializable

end

/-- Every field is a string or a number. -/
def Fields.flat : Fields → Bool
  | .nil => true
  | .cons _ value rest => value.text?.isSome && rest.flat

/-- The records `formatsql` can write. -/
def Writable (load : Evaluate) (name : Table) : Option Fields → Prop
  | none => False
  | some unit =>
      if serialize_one name then unit.serializable = true
      else if name = .fightrecords then
        ∃ st, evaluated load unit = some st ∧ (Fields.ofList 1 st).serializable = true
      else unit.flat = true

mutual

theorem Value.ser_isSome (key : String) :
    (v : Value) → (v.ser key).isSome = v.serializable
  | .bool _ => rfl
  | .number _ => rfl
  | .string _ => rfl
  | .table fields => by
      rw [Value.ser, Value.serializable, ← Fields.ser_table_isSome fields]
      cases fields.ser_table <;> rfl

theorem Fields.ser_table_isSome :
    (fields : Fields) → fields.ser_table.isSome = fields.serializable
  | .nil => rfl
  | .cons key value rest => by
      have hv := Value.ser_isSome key.entry value
      have hr := Fields.ser_table_isSome rest
      rw [Fields.ser_table, Fields.serializable, ← hv, ← hr]
      by_cases hk : key = .name "doNotSavebg"
      · simp [hk]
      · rw [if_neg hk]
        cases value.ser key.entry with
        | none => simp [hk]
        | some entry => cases rest.ser_table <;> simp

end

theorem serialize_isSome (unit : Fields) : (serialize unit).isSome = unit.serializable := by
  rw [serialize, ← Fields.ser_table_isSome]
  cases unit.ser_table <;> rfl

/-- After the first field a value is appended exactly when both operands have a text. -/
theorem Packing.addValue_later (p : Packing) (v : Value) (hp : p.bv = true) :
    (p.values.text?.isSome && v.text?.isSome) = false ∧ p.addValue v = none ∨
      (p.values.text?.isSome && v.text?.isSome) = true ∧
        ∃ q, p.addValue v = some q ∧ q.bv = true ∧ q.values.text?.isSome = true := by
  unfold Packing.addValue
  rw [if_pos hp]
  cases ht : p.values.text? with
  | none => left; cases v <;> exact ⟨rfl, rfl⟩
  | some values =>
      cases v with
      | bool b => exact Or.inl ⟨rfl, rfl⟩
      | table fields => exact Or.inl ⟨rfl, rfl⟩
      | number t => exact Or.inr ⟨rfl, _, rfl, hp, rfl⟩
      | string s => exact Or.inr ⟨rfl, _, rfl, hp, rfl⟩

theorem packLoop_text (unit : Fields) (p : Packing) (hp : p.bv = true) :
    ((packLoop unit p).bind (·.values.text?)).isSome = (p.values.text?.isSome && unit.flat) := by
  induction unit, p using packLoop.induct with
  | case1 p => simp [packLoop, Fields.flat]
  | case2 k v rest p ih =>
      have hb : (p.addKey k).bv = true := by rw [Packing.addKey]; split_ifs <;> exact hp
      have hval : (p.addKey k).values = p.values := by rw [Packing.addKey]; split_ifs <;> rfl
      rw [packLoop, Fields.flat, ← Bool.and_assoc, ← hval]
      rcases (p.addKey k).addValue_later v hb with ⟨hf, hadd⟩ | ⟨ht, q, hadd, hq, hqv⟩
      · rw [hf, hadd]
        rfl
      · rw [ht, hadd, Bool.true_and]
        exact (ih q hq).trans (by rw [hqv, Bool.true_and])

theorem packsql_text (unit : Fields) :
    ((packsql unit).bind (·.2.text?)).isSome = unit.flat := by
  have hbind : (packsql unit).bind (·.2.text?) = (packLoop unit {}).bind (·.values.text?) := by
    rw [packsql]
    cases packLoop unit {} <;> rfl
  rw [hbind]
  cases unit with
  | nil => rfl
  | cons k v rest =>
      have hb : (Packing.addKey {} k).bv = false := rfl
      have hstep : ∀ values : Value, values.text?.isSome = v.text?.isSome →
          (Packing.addKey {} k).addValue v =
            some { Packing.addKey {} k with values := values, bv := true } →
          ((packLoop (.cons k v rest) {}).bind (·.values.text?)).isSome =
            (Fields.cons k v rest).flat := by
        intro values hval hadd
        rw [packLoop, hadd, Fields.flat, ← hval]
        exact packLoop_text rest _ rfl
      cases v with
      | bool b => exact hstep (.bool b) rfl rfl
      | number t => exact hstep (.number t) rfl rfl
      | string s => exact hstep (.string ("'" ++ s ++ "'")) rfl rfl
      | table fields => exact hstep (.table fields) rfl rfl

theorem formatsql_isSome (load : Evaluate) (key : String) (name : Table) (unit : Option Fields) :
    (formatsql load key name unit).isSome ↔ Writable load name unit := by
  have htext : (formatsql load key name unit).isSome =
      ((columns load name unit).bind (·.2.text?)).isSome := by
    rw [formatsql]
    cases columns load name unit with
    | none => rfl
    | some c => cases h : c.2.text? <;> simp [h]
  rw [htext]
  cases unit with
  | none => simp [columns, Writable]
  | some unit =>
      rw [columns, Writable]
      split_ifs with h₁ h₂
      · rw [← serialize_isSome]
        cases serialize unit <;> simp [Value.text?]
      · cases evaluated load unit with
        | none => simp
        | some st =>
            have := serialize_isSome (Fields.ofList 1 st)
            cases hs : serialize (Fields.ofList 1 st) <;> simp [hs, Value.text?] at this ⊢ <;>
              exact this
      · rw [packsql_text]

/-- `explores` loads a table of tables, one for each row, and such a table is not packed. -/
theorem not_writable_explores (load : Evaluate) (k : Key) (fields rest : Fields) :
    ¬ Writable load .explores (some (.cons k (.table fields) rest)) := by
  rw [Writable, if_neg (by decide), if_neg (by decide)]
  simp [Fields.flat, Value.text?]

end GameServer.FormatSql
