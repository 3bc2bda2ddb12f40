import GameServer.FormatSql
import GameServer.Lexing

/-!
# The replace statement read back

The server reads the statement that `formatsql` built: words, marks, and literals that end at the
next quote that is not escaped. The statement says what the record says exactly when no text in it
has anything to escape.
-/

namespace GameServer.StatementIntact

open FormatSql Lexing
open SaveQueue (Table)

/-- What an escape gives. A percent sign and an underscore keep the backslash. -/
def unescape (c : Char) : List Char :=
  if c = '0' then [Char.ofNat 0]
  else if c = 'b' then [Char.ofNat 8]
  else if c = 't' then ['\t']
  else if c = 'n' then ['\n']
  else if c = 'r' then ['\r']
  else if c = 'Z' then [Char.ofNat 26]
  else if c = '%' ∨ c = '_' then ['\\', c]
  else [c]

/-- The text of a statement. -/
def sql : Lexer where
  quote := '\''
  word c := c.isAlphanum || "_$.+-".toList.contains c
  mark c := "(),".toList.contains c
  raw _ := true
  unescape c := some (unescape c)
  quote_ne := by decide
  mark_ne c h := by
    have hc : c = '(' ∨ c = ')' ∨ c = ',' := by simpa using h
    rcases hc with rfl | rfl | rfl <;> decide
  word_ne c h := by
    constructor <;> rintro rfl <;> exact absurd h (by decide)
  unescape_quote := by decide
  unescape_length c out h := by
    rw [Option.some.injEq] at h
    subst h
    unfold unescape
    split_ifs <;> first | exact Or.inr rfl | exact Or.inl (by simp)

/-- A replace statement: the words of the columns, and the values in the same order. -/
structure Replace where
  table : List Char
  columns : List Item
  values : List Item
  deriving DecidableEq

def Replace.tokens (r : Replace) : List Token :=
  [.item (.word "replace".toList), .item (.word "into".toList), .item (.word r.table), .mark '('] ++
    (separated ',' r.columns ++ .mark ')' :: .item (.word "values".toList) :: .mark '(' ::
      (separated ',' r.values ++ [.mark ')']))

/-- Reads one statement and nothing behind it. -/
def parse : List Token → Option Replace
  | .item (.word a) :: .item (.word b) :: .item (.word table) :: .mark '(' :: rest =>
      if a = "replace".toList ∧ b = "into".toList then
        (readItems ',' ')' rest).bind fun (columns, rest) =>
          match rest with
          | .item (.word c) :: .mark '(' :: rest =>
              if c = "values".toList then
                (readItems ',' ')' rest).bind fun (values, rest) =>
                  if rest = [] then some ⟨table, columns, values⟩ else none
              else none
          | _ => none
      else none
  | _ => none

def readStatement (text : String) : Option Replace := (sql.tokens text.toList).bind parse

/-! ## What the statement should say -/

/-- A string as a literal, a number as a word. -/
def item? : Value → Option Item
  | .string s => some (.literal s.toList)
  | .number t => some (.word t.toList)
  | _ => none

/-- The columns and the values of a record. -/
def items : Fields → Option (List Item × List Item)
  | .nil => some ([], [])
  | .cons key value rest => do
      let i ← item? value
      let (columns, values) ← items rest
      some (.word key.text.toList :: columns, i :: values)

/-- A record that is stored as one text. -/
def blob (unit : Fields) : Option (List Item × List Item) := do
  let text ← serialize unit
  some ([.word "blobdata".toList], [.literal text.toList])

def contents (load : Evaluate) (name : Table) : Option Fields → Option (List Item × List Item)
  | none => none
  | some unit =>
      if serialize_one name then blob unit
      else if name = .fightrecords then do
        let st ← evaluated load unit
        blob (Fields.ofList 1 st)
      else items unit

/-- The statement of a record, the key first. -/
def statement (load : Evaluate) (key : String) (name : Table) (unit : Option Fields) :
    Option Replace := do
  let (columns, values) ← contents load name unit
  some {
    table := name.name.toList
    columns := .word "uuid".toList :: columns
    values := .literal key.toList :: values }

/-- There is a statement, and it reads as the record. -/
def Intact (load : Evaluate) (key : String) (name : Table) (unit : Option Fields) : Prop :=
  ∃ text r, formatsql load key name unit = some text ∧ statement load key name unit = some r ∧
    readStatement text = some r

/-! ## When it does -/

def Clean (s : String) : Prop := sql.Clean s.toList

def Word (s : String) : Prop := sql.IsWord s.toList

/-- A string or a number that can stand in a list of values. -/
def Scalar : Value → Prop
  | .string s => Clean s
  | .number t => Word t
  | _ => False

/-- Every column is a word, and every value a string or a number. -/
def Packable : Fields → Prop
  | .nil => True
  | .cons key value rest => Word key.text ∧ Scalar value ∧ Packable rest

mutual

/-- All that is written of a value is clean. -/
def ValueClean : Value → Prop
  | .bool _ => False
  | .number t => Clean t
  | .string s => Clean s
  | .table fields => FieldsClean fields

def FieldsClean : Fields → Prop
  | .nil => True
  | .cons key value rest =>
      (key = .name "doNotSavebg" ∨ Clean key.text ∧ ValueClean value) ∧ FieldsClean rest

end

def Plain (load : Evaluate) (name : Table) : Option Fields → Prop
  | none => False
  | some unit =>
      if serialize_one name then FieldsClean unit
      else if name = .fightrecords then
        ∃ st, evaluated load unit = some st ∧ FieldsClean (Fields.ofList 1 st)
      else unit ≠ .nil ∧ Packable unit

/-! ## Reading -/

variable {key : String} {name : Table} {columns values : List Item} {r : Replace} {ts : List Token}

theorem parse_eq_some_iff : parse ts = some r ↔
    ts = r.tokens ∧ r.columns ≠ [] ∧ r.values ≠ [] := by
  have hcomma : ',' ≠ ')' := by decide
  constructor
  · intro h
    unfold parse at h
    split at h
    · split_ifs at h with hab
      obtain ⟨⟨columns, rest⟩, hcolumns, h⟩ := Option.bind_eq_some_iff.mp h
      dsimp only at h
      split at h
      · split_ifs at h with hc
        obtain ⟨⟨values, rest⟩, hvalues, h⟩ := Option.bind_eq_some_iff.mp h
        dsimp only at h
        split_ifs at h with hnil
        cases h
        obtain ⟨hne, rfl⟩ := (readItems_eq_some_iff hcomma).mp hcolumns
        obtain ⟨hne', rfl⟩ := (readItems_eq_some_iff hcomma).mp hvalues
        obtain ⟨rfl, rfl⟩ := hab
        subst hc hnil
        exact ⟨rfl, hne, hne'⟩
      · cases h
    · cases h
  · obtain ⟨table, columns, values⟩ := r
    rintro ⟨rfl, hcolumns, hvalues⟩
    have hread : ∀ {items : List Item} (rest : List Token), items ≠ [] →
        readItems ',' ')' (separated ',' items ++ .mark ')' :: rest) = some (items, rest) :=
      fun rest hne => (readItems_eq_some_iff hcomma).mpr ⟨hne, rfl⟩
    simp only [Replace.tokens, List.cons_append, List.nil_append, parse, and_self, if_true,
      hread _ hcolumns, Option.bind_some, hread _ hvalues]

theorem isWord_name (name : Table) : sql.IsWord name.name.toList := by
  cases name <;> decide

theorem readStatement_eq_some_iff {text : String} : readStatement text = some r ↔
    sql.tokens text.toList = some r.tokens ∧ r.columns ≠ [] ∧ r.values ≠ [] := by
  rw [readStatement, Option.bind_eq_some_iff]
  simp only [parse_eq_some_iff]
  exact ⟨fun ⟨_, hlex, heq, hne⟩ => ⟨heq ▸ hlex, hne⟩, fun ⟨hlex, hne⟩ => ⟨_, hlex, rfl, hne⟩⟩

/-- The words in front of the columns are read first. -/
theorem lex_head_iff {rest : List Char} :
    sql.lex .between ("replace".toList ++ ' ' :: ("into".toList ++ ' ' ::
      (name.name.toList ++ ' ' :: '(' :: ' ' :: rest))) = some (.item (.word "replace".toList) ::
        .item (.word "into".toList) :: .item (.word name.name.toList) :: .mark '(' :: ts) ↔
      sql.lex .between rest = some ts := by
  have hblank : sql.word ' ' = false := by decide
  rw [Lexer.lex_word_iff (by decide) hblank, Lexer.lex_blank,
    Lexer.lex_word_iff (by decide) hblank, Lexer.lex_blank,
    Lexer.lex_word_iff (isWord_name name) hblank, Lexer.lex_blank, Lexer.lex_mark_iff (by decide),
    Lexer.lex_blank]

/-- How the statement reads, whatever stands in the two lists. -/
theorem readStatement_iff {text keys vals : String}
    (htext : text = "replace into " ++ name.name ++ " ( uuid," ++ keys ++ ") values('" ++ key ++
      "'," ++ vals ++ ")") (hkeys : keys.toList = sql.joined ',' columns)
    (hvals : vals.toList = sql.joined ',' values) (hcolumns : columns ≠ [])
    (hvalues : values ≠ []) :
    readStatement text = some ⟨name.name.toList, .word "uuid".toList :: columns,
      .literal key.toList :: values⟩ ↔
      (∀ i ∈ columns, sql.Fine i) ∧ Clean key ∧ ∀ i ∈ values, sql.Fine i := by
  have hlist : text.toList = "replace".toList ++ ' ' :: ("into".toList ++ ' ' ::
      (name.name.toList ++ ' ' :: '(' :: ' ' ::
        (sql.joined ',' (.word "uuid".toList :: columns) ++ ')' :: ' ' :: ("values".toList ++ '(' ::
          (sql.joined ',' (.literal key.toList :: values) ++ [')']))))) := by
    obtain ⟨c, columns, rfl⟩ := List.exists_cons_of_ne_nil hcolumns
    obtain ⟨v, values, rfl⟩ := List.exists_cons_of_ne_nil hvalues
    rw [htext]
    simp only [String.toList_append, hkeys, hvals, Lexer.joined, Lexer.text, List.append_assoc]
    rfl
  have hopen : sql.mark '(' = true := by decide
  have hclose : sql.mark ')' = true := by decide
  have hcomma : sql.mark ',' = true := by decide
  rw [readStatement_eq_some_iff, and_iff_left ⟨List.cons_ne_nil _ _, List.cons_ne_nil _ _⟩,
    Lexer.tokens, hlist, Replace.tokens]
  simp only [List.cons_append, List.nil_append]
  rw [lex_head_iff, Lexer.lex_joined_iff hcomma hclose (List.cons_ne_nil _ _), Lexer.lex_blank,
    Lexer.lex_word_iff (by decide) (by decide), Lexer.lex_mark_iff hopen,
    Lexer.lex_joined_iff hcomma hclose (List.cons_ne_nil _ _)]
  have huuid : sql.Fine (.word "uuid".toList) := (by decide : sql.IsWord "uuid".toList)
  have hend : sql.lex .between [] = some [] := rfl
  simp only [List.forall_mem_cons, huuid, hend, true_and, and_true]
  rfl

/-! ## What `packsql` writes -/

theorem items_cons {k : Key} {v : Value} {rest : Fields}
    (h : items (.cons k v rest) = some (columns, values)) : ∃ i columns' values',
      item? v = some i ∧ items rest = some (columns', values') ∧
        columns = .word k.text.toList :: columns' ∧ values = i :: values' := by
  rw [items] at h
  obtain ⟨i, hi, h⟩ := Option.bind_eq_some_iff.mp h
  obtain ⟨⟨columns', values'⟩, hrest, h⟩ := Option.bind_eq_some_iff.mp h
  cases h
  exact ⟨i, columns', values', hi, hrest, rfl, rfl⟩

/-- Behind the first field, each adds a comma and its own text to either list. -/
theorem addField_later {p : Packing} {k : Key} {v : Value} {i : Item} {text : String}
    (hbk : p.bk = true) (hbv : p.bv = true) (htext : p.values.text? = some text)
    (hi : item? v = some i) : ∃ q text', (p.addKey k).addValue v = some q ∧ q.bk = true ∧
      q.bv = true ∧ q.values.text? = some text' ∧
      q.keys.toList = p.keys.toList ++ ',' :: k.text.toList ∧
      text'.toList = text.toList ++ ',' :: sql.text i := by
  have hkey : p.addKey k = { p with keys := p.keys ++ "," ++ k.text } := by
    rw [Packing.addKey, if_pos hbk]
  have hadd : ∀ text', text'.toList = text.toList ++ ',' :: sql.text i →
      (p.addKey k).addValue v = some { p.addKey k with values := .string text' } →
      ∃ q text', (p.addKey k).addValue v = some q ∧ q.bk = true ∧
        q.bv = true ∧ q.values.text? = some text' ∧
        q.keys.toList = p.keys.toList ++ ',' :: k.text.toList ∧
        text'.toList = text.toList ++ ',' :: sql.text i := fun text' heq hadd => by
    refine ⟨_, text', hadd, ?_, ?_, rfl, ?_, heq⟩
    · rw [hkey]
      exact hbk
    · rw [hkey]
      exact hbv
    · rw [hkey]
      simp [String.toList_append]
  cases v with
  | bool b => cases hi
  | table fields => cases hi
  | string s =>
      cases hi
      refine hadd (text ++ ",'" ++ s ++ "'") ?_ ?_
      · simp [String.toList_append, Lexer.text, sql]
      · rw [Packing.addValue, hkey, if_pos hbv, htext]
        rfl
  | number t =>
      cases hi
      refine hadd (text ++ "," ++ t) ?_ ?_
      · simp [String.toList_append, Lexer.text]
      · unfold Packing.addValue
        rw [hkey, if_pos hbv]
        simp only [htext]
        rfl

theorem packLoop_joined (unit : Fields) (p : Packing) (hbk : p.bk = true) (hbv : p.bv = true)
    {text : String} (htext : p.values.text? = some text) (h : items unit = some (columns, values)) :
    ∃ q text', packLoop unit p = some q ∧ q.values.text? = some text' ∧
      q.keys.toList = p.keys.toList ++ columns.flatMap (fun i => ',' :: sql.text i) ∧
      text'.toList = text.toList ++ values.flatMap (fun i => ',' :: sql.text i) := by
  induction unit, p using packLoop.induct generalizing columns values text with
  | case1 p =>
      cases h
      exact ⟨p, text, rfl, htext, by simp, by simp⟩
  | case2 k v rest p ih =>
      obtain ⟨i, columns', values', hi, hrest, rfl, rfl⟩ := items_cons h
      obtain ⟨q, text', hadd, hbk', hbv', htext', hkeys, hvals⟩ :=
        addField_later (k := k) hbk hbv htext hi
      obtain ⟨q', text'', hloop, htext'', hkeys', hvals'⟩ := ih q hbk' hbv' htext' hrest
      refine ⟨q', text'', ?_, htext'', ?_, ?_⟩
      · rw [packLoop, hadd]
        exact hloop
      · rw [hkeys', hkeys, List.flatMap_cons, List.append_assoc]
        rfl
      · rw [hvals', hvals, List.flatMap_cons, List.append_assoc]

/-- `packsql` writes the two lists with commas. -/
theorem packsql_joined {unit : Fields} (hne : unit ≠ .nil)
    (h : items unit = some (columns, values)) : ∃ keys vals text, packsql unit = some (keys, vals) ∧
      vals.text? = some text ∧ keys.toList = sql.joined ',' columns ∧
      text.toList = sql.joined ',' values := by
  cases unit with
  | nil => exact absurd rfl hne
  | cons k v rest =>
      obtain ⟨i, columns', values', hi, hrest, rfl, rfl⟩ := items_cons h
      have hfirst : ∃ q text, (Packing.addKey {} k).addValue v = some q ∧ q.bk = true ∧
          q.bv = true ∧
          q.values.text? = some text ∧ q.keys = k.text ∧ text.toList = sql.text i := by
        cases v with
        | bool b => cases hi
        | table fields => cases hi
        | string s =>
            cases hi
            refine ⟨_, "'" ++ s ++ "'", rfl, rfl, rfl, rfl, rfl, ?_⟩
            simp [String.toList_append, Lexer.text, sql]
        | number t =>
            cases hi
            exact ⟨_, t, rfl, rfl, rfl, rfl, rfl, rfl⟩
      obtain ⟨q, text, hadd, hbk, hbv, htext, hkeys, hvals⟩ := hfirst
      obtain ⟨q', text', hloop, htext', hkeys', hvals'⟩ :=
        packLoop_joined rest q hbk hbv htext hrest
      refine ⟨q'.keys, q'.values, text', ?_, htext', ?_, ?_⟩
      · rw [packsql, packLoop, hadd]
        exact congrArg (Option.bind · _) hloop
      · rw [hkeys', hkeys, Lexer.joined_cons]
        rfl
      · rw [hvals', hvals, Lexer.joined_cons]

/-- Both lists are fine exactly when the record is. -/
theorem packable_iff {unit : Fields} (h : items unit = some (columns, values)) :
    (∀ i ∈ columns, sql.Fine i) ∧ (∀ i ∈ values, sql.Fine i) ↔ Packable unit := by
  induction unit using items.induct generalizing columns values with
  | case1 =>
      cases h
      simp [Packable]
  | case2 k v rest ih =>
      obtain ⟨i, columns', values', hi, hrest, rfl, rfl⟩ := items_cons h
      have hfine : sql.Fine i ↔ Scalar v := by cases v <;> cases hi <;> rfl
      have hkey : sql.Fine (.word k.text.toList) ↔ Word k.text := Iff.rfl
      rw [List.forall_mem_cons, List.forall_mem_cons, Packable, ← ih hrest, ← hfine, hkey]
      tauto

theorem items_of_packable {unit : Fields} (h : Packable unit) : ∃ columns values,
    items unit = some (columns, values) := by
  induction unit using items.induct with
  | case1 => exact ⟨_, _, rfl⟩
  | case2 k v rest ih =>
      obtain ⟨columns, values, hrest⟩ := ih h.2.2
      have hv := h.2.1
      cases v with
      | bool b => cases hv
      | table fields => cases hv
      | string s => exact ⟨_, _, by rw [items, hrest]; rfl⟩
      | number t => exact ⟨_, _, by rw [items, hrest]; rfl⟩

/-! ## What `serialize` writes -/

theorem unescape_ne {c : Char} (h : c ≠ '%' ∧ c ≠ '_') : unescape c ≠ ['\\', c] := by
  have hno : ¬ (c = '%' ∨ c = '_') := not_or.mpr h
  unfold unescape
  rw [if_neg hno]
  split_ifs <;> simp

theorem clean_append_cons {a b : List Char} {c : Char} (hquote : c ≠ '\'') (hescape : c ≠ '\\')
    (hplain : c ≠ '%' ∧ c ≠ '_') : sql.Clean (a ++ c :: b) ↔ sql.Clean a ∧ sql.Clean b := by
  have hout : sql.unescape c ≠ some ['\\', c] := fun h => unescape_ne hplain (Option.some.inj h)
  rw [Lexer.Clean, Lexer.clean_append_cons hquote hescape rfl hout, Bool.and_eq_true]
  rfl

theorem clean_nil : sql.Clean [] := rfl

theorem clean_cons {b : List Char} {c : Char} (hquote : c ≠ '\'') (hescape : c ≠ '\\')
    (hplain : c ≠ '%' ∧ c ≠ '_') : sql.Clean (c :: b) ↔ sql.Clean b := by
  have h := clean_append_cons (a := []) (b := b) hquote hescape hplain
  rw [List.nil_append] at h
  exact h.trans (and_iff_right clean_nil)

theorem clean_entry (key : Key) : Clean key.entry ↔ Clean key.text := by
  cases key with
  | name s => rfl
  | number t =>
      have hlist : (Key.entry (.number t)).toList = '[' :: (t.toList ++ [']']) := by
        simp [Key.entry, String.toList_append]
      rw [Clean, hlist, clean_cons (by decide) (by decide) (by decide),
        clean_append_cons (by decide) (by decide) (by decide)]
      exact and_iff_left clean_nil

theorem clean_intercalate (entries : List String) :
    Clean (",".intercalate entries) ↔ ∀ e ∈ entries, Clean e := by
  induction entries with
  | nil =>
      rw [String.intercalate_nil]
      exact iff_of_true clean_nil (by simp)
  | cons e entries ih =>
      cases entries with
      | nil => simp
      | cons e' entries =>
          have hlist : (e ++ "," ++ ",".intercalate (e' :: entries)).toList =
              e.toList ++ ',' :: (",".intercalate (e' :: entries)).toList := by
            simp [String.toList_append]
          rw [String.intercalate_cons_cons, Clean, hlist,
            clean_append_cons (by decide) (by decide) (by decide),
            List.forall_mem_cons (a := e), ← ih]
          rfl

theorem clean_braces (entries : List String) :
    Clean ("\x7b" ++ ",".intercalate entries ++ "\x7d") ↔ ∀ e ∈ entries, Clean e := by
  have hlist : ("\x7b" ++ ",".intercalate entries ++ "\x7d").toList =
      '\x7b' :: ((",".intercalate entries).toList ++ ['\x7d']) := by
    simp [String.toList_append]
  rw [Clean, hlist, clean_cons (by decide) (by decide) (by decide),
    clean_append_cons (by decide) (by decide) (by decide), ← clean_intercalate]
  exact and_iff_left clean_nil

mutual

theorem valueClean_iff (key : String) : (v : Value) → {text : String} → v.ser key = some text →
    (Clean text ↔ Clean key ∧ ValueClean v)
  | .bool b, _, h => nomatch h
  | .number t, _, h => by
      cases h
      have hlist : (key ++ "=" ++ t).toList = key.toList ++ '=' :: t.toList := by
        simp [String.toList_append]
      rw [Clean, hlist, clean_append_cons (by decide) (by decide) (by decide)]
      rfl
  | .string s, _, h => by
      cases h
      have hlist : (key ++ "=\"" ++ s ++ "\"").toList =
          key.toList ++ '=' :: '"' :: (s.toList ++ ['"']) := by
        simp [String.toList_append]
      rw [Clean, hlist, clean_append_cons (by decide) (by decide) (by decide),
        clean_cons (by decide) (by decide) (by decide),
        clean_append_cons (by decide) (by decide) (by decide), and_iff_left clean_nil]
      rfl
  | .table fields, text, h => by
      rw [Value.ser] at h
      obtain ⟨entries, hentries, h⟩ := Option.bind_eq_some_iff.mp h
      obtain rfl := Option.some.inj h
      have hlist : (key ++ "=" ++ ("\x7b" ++ ",".intercalate entries ++ "\x7d")).toList =
          key.toList ++ '=' :: ("\x7b" ++ ",".intercalate entries ++ "\x7d").toList := by
        simp [String.toList_append]
      rw [Clean, hlist, clean_append_cons (by decide) (by decide) (by decide), ValueClean,
        ← fieldsClean_iff fields hentries, ← clean_braces]
      rfl

theorem fieldsClean_iff : (fields : Fields) → {entries : List String} →
    fields.ser_table = some entries → ((∀ e ∈ entries, Clean e) ↔ FieldsClean fields)
  | .nil, _, h => by
      cases h
      simp [FieldsClean]
  | .cons key value rest, entries, h => by
      rw [Fields.ser_table] at h
      split_ifs at h with hkey
      · rw [fieldsClean_iff rest h, FieldsClean]
        exact (and_iff_right (Or.inl hkey)).symm
      · obtain ⟨entry, hentry, h⟩ := Option.bind_eq_some_iff.mp h
        obtain ⟨entries', hentries, h⟩ := Option.bind_eq_some_iff.mp h
        obtain rfl := Option.some.inj h
        rw [List.forall_mem_cons, fieldsClean_iff rest hentries,
          valueClean_iff key.entry value hentry, clean_entry, FieldsClean, or_iff_right hkey]

end

mutual

theorem serializable_of_valueClean : (v : Value) → ValueClean v → v.serializable = true
  | .bool _, h => h.elim
  | .number _, _ => rfl
  | .string _, _ => rfl
  | .table fields, h => serializable_of_fieldsClean fields h

theorem serializable_of_fieldsClean : (fields : Fields) → FieldsClean fields →
    fields.serializable = true
  | .nil, _ => rfl
  | .cons key value rest, h => by
      have hrest := serializable_of_fieldsClean rest h.2
      rw [Fields.serializable, hrest, Bool.and_true, Bool.or_eq_true, decide_eq_true_iff]
      exact h.1.imp_right fun hv => serializable_of_valueClean value hv.2

end

theorem clean_serialize {unit : Fields} {text : String} (h : serialize unit = some text) :
    Clean text ↔ FieldsClean unit := by
  obtain ⟨entries, hentries, h⟩ := Option.bind_eq_some_iff.mp h
  obtain rfl := Option.some.inj h
  have hlist : ("do local ret=" ++ ("\x7b" ++ ",".intercalate entries ++ "\x7d") ++
      " return ret end").toList = "do local ret".toList ++ '=' ::
        (("\x7b" ++ ",".intercalate entries ++ "\x7d").toList ++
          ' ' :: "return ret end".toList) := by
    simp [String.toList_append]
  have hbefore : sql.Clean "do local ret".toList := Lexer.clean_of_all (by decide)
  have hbehind : sql.Clean "return ret end".toList := Lexer.clean_of_all (by decide)
  rw [Clean, hlist, clean_append_cons (by decide) (by decide) (by decide),
    clean_append_cons (by decide) (by decide) (by decide), and_iff_right hbefore,
    and_iff_left hbehind, ← fieldsClean_iff unit hentries, ← clean_braces]
  rfl

/-! ## The statement -/

variable {load : Evaluate} {unit : Option Fields}

theorem intact_iff_fine {keys vals : String} {v : Value}
    (hcolumns : FormatSql.columns load name unit = some (keys, v)) (hv : v.text? = some vals)
    (hcontents : contents load name unit = some (columns, values))
    (hkeys : keys.toList = sql.joined ',' columns) (hvals : vals.toList = sql.joined ',' values)
    (hne : columns ≠ []) (hne' : values ≠ []) : Intact load key name unit ↔
      (∀ i ∈ columns, sql.Fine i) ∧ Clean key ∧ ∀ i ∈ values, sql.Fine i := by
  have htext : formatsql load key name unit = some ("replace into " ++ name.name ++ " ( uuid," ++
      keys ++ ") values('" ++ key ++ "'," ++ vals ++ ")") := by
    rw [formatsql, hcolumns]
    change Option.bind v.text? _ = _
    rw [hv]
    rfl
  rw [← readStatement_iff rfl hkeys hvals hne hne', Intact, htext, statement, hcontents]
  constructor
  · rintro ⟨text, r, ⟨⟩, ⟨⟩, hread⟩
    exact hread
  · exact fun hread => ⟨_, _, rfl, rfl, hread⟩

theorem intact_blob (fields : Fields) (hcolumns : FormatSql.columns load name unit = (do
      let text ← serialize fields
      some ("blobdata", .string ("'" ++ text ++ "'"))))
    (hcontents : contents load name unit = blob fields) :
    Intact load key name unit ↔ Clean key ∧ FieldsClean fields := by
  cases htext : serialize fields with
  | none =>
      have hnone : contents load name unit = none := by
        rw [hcontents, blob, htext]
        rfl
      refine iff_of_false ?_ fun h => ?_
      · rintro ⟨_, _, -, hstatement, -⟩
        rw [statement, hnone] at hstatement
        cases hstatement
      · have hsome := serialize_isSome fields
        rw [htext, serializable_of_fieldsClean fields h.2] at hsome
        cases hsome
  | some text =>
      rw [htext] at hcolumns
      rw [blob, htext] at hcontents
      have hword : sql.Fine (.word "blobdata".toList) := (by decide : sql.IsWord "blobdata".toList)
      rw [intact_iff_fine hcolumns rfl hcontents rfl (by simp [String.toList_append, Lexer.joined,
        Lexer.text, sql]) (by simp) (by simp), ← clean_serialize htext]
      simp only [List.mem_singleton, forall_eq, hword, true_and]
      rfl

/-- Without a field, a comma stands before the end of the columns. -/
theorem not_intact_nil (hserialize : serialize_one name = false) (hfight : name ≠ .fightrecords) :
    ¬ Intact load key name (some .nil) := by
  rintro ⟨text, r, htext, hstatement, hread⟩
  rw [formatsql, FormatSql.columns, hserialize, if_neg (by decide), if_neg hfight] at htext
  rw [statement, contents, hserialize, if_neg (by decide), if_neg hfight] at hstatement
  cases htext
  cases hstatement
  have hlist : ("replace into " ++ name.name ++ " ( uuid," ++ "" ++ ") values('" ++ key ++ "'," ++
      "" ++ ")").toList = "replace".toList ++ ' ' :: ("into".toList ++ ' ' ::
        (name.name.toList ++ ' ' :: '(' :: ' ' :: ("uuid".toList ++ ',' :: (") values('" ++ key ++
          "'," ++ "" ++ ")").toList))) := by
    simp [String.toList_append]
  have hlex := (readStatement_eq_some_iff.mp hread).1
  rw [Lexer.tokens, hlist, Replace.tokens] at hlex
  simp only [List.cons_append, List.nil_append, separated] at hlex
  rw [lex_head_iff, Lexer.lex_word_iff (by decide) (by decide), Lexer.lex_mark (by decide)] at hlex
  obtain ⟨_, -, heq⟩ := Option.map_eq_some_iff.mp hlex
  rw [List.cons.injEq, Token.mark.injEq] at heq
  exact absurd heq.1 (by decide)

/-- The statement reads as the record exactly when the key and every string are free of quotes and
of escapes, every column is a word, and there is something to store. -/
theorem formatsql_intact_iff (load : Evaluate) (key : String) (name : Table)
    (unit : Option Fields) : Intact load key name unit ↔ Clean key ∧ Plain load name unit := by
  cases unit with
  | none =>
      refine iff_of_false ?_ fun h => h.2
      rintro ⟨_, _, htext, -, -⟩
      cases htext
  | some unit =>
      rw [Plain]
      split_ifs with hserialize hfight
      · exact intact_blob unit (by rw [FormatSql.columns, if_pos hserialize])
          (by rw [contents, if_pos hserialize])
      · cases hst : evaluated load unit with
        | none =>
            refine iff_of_false ?_ ?_
            · rintro ⟨_, _, -, hstatement, -⟩
              rw [statement, contents, if_neg hserialize, if_pos hfight, hst] at hstatement
              cases hstatement
            · rintro ⟨_, _, hplain, -⟩
              cases hplain
        | some st =>
            rw [intact_blob (Fields.ofList 1 st)
              (by rw [FormatSql.columns, if_neg hserialize, if_pos hfight, hst]; rfl)
              (by rw [contents, if_neg hserialize, if_pos hfight, hst]; rfl)]
            simp
      · by_cases hne : unit = .nil
        · subst hne
          exact iff_of_false (not_intact_nil (Bool.eq_false_of_not_eq_true hserialize) hfight)
            fun h => h.2.1 rfl
        · have hcolumns : FormatSql.columns load name (some unit) = packsql unit := by
            rw [FormatSql.columns, if_neg hserialize, if_neg hfight]
          have hcontents : contents load name (some unit) = items unit := by
            rw [contents, if_neg hserialize, if_neg hfight]
          cases hitems : items unit with
          | none =>
              refine iff_of_false ?_ fun h => ?_
              · rintro ⟨_, _, -, hstatement, -⟩
                rw [statement, hcontents, hitems] at hstatement
                cases hstatement
              · obtain ⟨columns, values, hsome⟩ := items_of_packable h.2.2
                rw [hitems] at hsome
                cases hsome
          | some lists =>
              obtain ⟨columns, values⟩ := lists
              obtain ⟨keys, vals, text, hpack, htext, hkeys, hvals⟩ := packsql_joined hne hitems
              have hnonempty : columns ≠ [] ∧ values ≠ [] := by
                cases unit with
                | nil => exact absurd rfl hne
                | cons k v rest =>
                    obtain ⟨_, _, _, -, -, rfl, rfl⟩ := items_cons hitems
                    exact ⟨List.cons_ne_nil _ _, List.cons_ne_nil _ _⟩
              rw [intact_iff_fine (hcolumns.trans hpack) htext (hcontents.trans hitems) hkeys hvals
                hnonempty.1 hnonempty.2, ← packable_iff hitems]
              tauto

/-- A quote in a name ends the literal. -/
theorem formatsql_quoted_name : ¬ ∀ (load : Evaluate) (key : String) (name : Table) (unit : Fields),
    unit ≠ .nil → unit.flat = true → Intact load key name (some unit) := fun hall => by
  have hintact := hall (fun _ => none) "1" .account (.cons (.name "nick") (.string "O'Neil") .nil)
    (by simp) rfl
  have hcolumns : FormatSql.columns (fun _ => none) .account (some (.cons (.name "nick")
      (.string "O'Neil") .nil)) = some ("nick", .string "'O'Neil'") := rfl
  have hcontents : contents (fun _ => none) .account (some (.cons (.name "nick") (.string "O'Neil")
      .nil)) = some ([.word "nick".toList], [.literal "O'Neil".toList]) := rfl
  have hvals : "'O'Neil'".toList = sql.joined ',' [.literal "O'Neil".toList] := by decide
  rw [intact_iff_fine hcolumns rfl hcontents (by decide) hvals (by decide) (by decide)] at hintact
  have hclean : sql.Clean "O'Neil".toList := hintact.2.2 _ List.mem_cons_self
  exact absurd hclean (by decide)

end GameServer.StatementIntact
