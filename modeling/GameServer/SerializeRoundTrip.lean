import GameServer.StatementIntact

/-!
# The serialized table read back

`serialize` writes a table as a chunk that returns it, and the loaders run the chunk. Keys stand in
it as they are and strings between double quotes as they are, and a boolean stops it with an error.
What is read here is the part of Lua that `serialize` writes when all is well: a constructor with
names and numerals as keys, and strings, numerals, booleans and constructors as values. The parser
of Lua stops at 200 nested levels; here it does not.
-/

namespace GameServer.SerializeRoundTrip

open FormatSql Lexing
open SaveQueue (Table)

/-! ## Lua text -/

/-- The escapes of one character; the others take more characters, or are errors. -/
def unescape (c : Char) : Option (List Char) :=
  if c = 'a' then some [Char.ofNat 7]
  else if c = 'b' then some [Char.ofNat 8]
  else if c = 'f' then some [Char.ofNat 12]
  else if c = 'n' ∨ c = '\n' then some ['\n']
  else if c = 'r' then some ['\r']
  else if c = 't' then some ['\t']
  else if c = 'v' then some [Char.ofNat 11]
  else if c = '\\' ∨ c = '"' ∨ c = '\'' then some [c]
  else none

/-- A string ends at the next double quote, and has no line break. -/
def lua : Lexer where
  quote := '"'
  word c := c.isAlphanum || "_.+-".toList.contains c
  mark c := "\x7b\x7d[]=,".toList.contains c
  raw c := c ≠ '\n' && c ≠ '\r'
  unescape := unescape
  quote_ne := by decide
  mark_ne c h := by
    have hc : c = '\x7b' ∨ c = '\x7d' ∨ c = '[' ∨ c = ']' ∨ c = '=' ∨ c = ',' := by simpa using h
    rcases hc with rfl | rfl | rfl | rfl | rfl | rfl <;> decide
  word_ne c h := by
    constructor <;> rintro rfl <;> exact absurd h (by decide)
  unescape_quote := by decide
  unescape_length c out h := by
    unfold unescape at h
    split_ifs at h <;> cases h <;> exact Or.inl le_rfl

def identifier : List Char → Bool
  | [] => false
  | c :: rest => (c.isAlpha || c = '_') && rest.all fun d => d.isAlphanum || d = '_'

def reserved : List String :=
  ["and", "break", "do", "else", "elseif", "end", "false", "for", "function", "goto", "if", "in",
    "local", "nil", "not", "or", "repeat", "return", "then", "true", "until", "while"]

def Name (w : List Char) : Prop := identifier w = true ∧ String.ofList w ∉ reserved

instance (w : List Char) : Decidable (Name w) := inferInstanceAs (Decidable (_ ∧ _))

/-- The numbers of Lua, and what a numeral of a chunk denotes. -/
structure Numerals where
  Number : Type
  tostring : Number → String
  tonumber : String → Option Number
  isWord (n : Number) : lua.IsWord (tostring n).toList
  tonumber_identifier (s : String) (h : identifier s.toList = true) : tonumber s = none

/-! ## Tables -/

inductive LuaKey (α : Type)
  | name (s : String)
  | number (n : α)

mutual

inductive LuaValue (α : Type)
  | bool (b : Bool)
  | number (n : α)
  | string (s : String)
  | table (t : LuaTable α)

/-- The entries in the order in which `pairs` visits them. -/
inductive LuaTable (α : Type)
  | nil
  | cons (key : LuaKey α) (value : LuaValue α) (rest : LuaTable α)

end

variable (N : Numerals)

/-- A key as concatenation sees it. -/
def LuaKey.texts : LuaKey N.Number → Key
  | .name s => .name s
  | .number n => .number (N.tostring n)

mutual

/-- A value as concatenation sees it. -/
def LuaValue.texts : LuaValue N.Number → Value
  | .bool b => .bool b
  | .number n => .number (N.tostring n)
  | .string s => .string s
  | .table t => .table t.texts

def LuaTable.texts : LuaTable N.Number → Fields
  | .nil => .nil
  | .cons key value rest => .cons (key.texts N) value.texts rest.texts

end

/-! ## Reading a chunk -/

/-- A numeral as `tostring` writes it. -/
def numeral (w : List Char) : Option N.Number :=
  (N.tonumber (String.ofList w)).bind fun n => if (N.tostring n).toList = w then some n else none

def scalar (w : List Char) : Option (LuaValue N.Number) :=
  if w = "true".toList then some (.bool true)
  else if w = "false".toList then some (.bool false)
  else (numeral N w).map .number

/-- A key with the sign behind it. -/
def readKey : List Token → Option (LuaKey N.Number × List Token)
  | .item (.word w) :: .mark '=' :: rest =>
      if Name w then some (.name (String.ofList w), rest) else none
  | .mark '[' :: .item (.word w) :: .mark ']' :: .mark '=' :: rest =>
      (numeral N w).map fun n => (.number n, rest)
  | _ => none

mutual

def readValue : ℕ → List Token → Option (LuaValue N.Number × List Token)
  | 0, _ => none
  | _ + 1, .item (.literal v) :: rest => some (.string (String.ofList v), rest)
  | _ + 1, .item (.word w) :: rest => (scalar N w).map fun v => (v, rest)
  | _ + 1, .mark '\x7b' :: .mark '\x7d' :: rest => some (.table .nil, rest)
  | fuel + 1, .mark '\x7b' :: rest => (readEntries fuel rest).map fun r => (.table r.1, r.2)
  | _ + 1, _ => none

/-- One entry at least, up to the end of the constructor. -/
def readEntries : ℕ → List Token → Option (LuaTable N.Number × List Token)
  | 0, _ => none
  | fuel + 1, ts => do
      let (key, ts) ← readKey N ts
      let (v, ts) ← readValue fuel ts
      match ts with
      | .mark '\x7d' :: rest => some (.cons key v .nil, rest)
      | .mark ',' :: rest => do
          let (t, rest) ← readEntries fuel rest
          some (.cons key v t, rest)
      | _ => none

end

/-- `return ret end` -/
def closing : List Token :=
  [.item (.word "return".toList), .item (.word "ret".toList), .item (.word "end".toList)]

/-- The chunk of `serialize`. -/
def readChunk : List Token → Option (LuaTable N.Number)
  | .item (.word a) :: .item (.word b) :: .item (.word c) :: .mark '=' :: ts =>
      if a = "do".toList ∧ b = "local".toList ∧ c = "ret".toList then
        match readValue N (ts.length + 1) ts with
        | some (.table t, rest) => if rest = closing then some t else none
        | _ => none
      else none
  | _ => none

/-- `load(text)()` -/
def evaluate (text : String) : Option (LuaTable N.Number) :=
  (lua.tokens text.toList).bind (readChunk N)

/-! ## The tokens of a table -/

def LuaKey.tokens : LuaKey N.Number → List Token
  | .name s => [.item (.word s.toList)]
  | .number n => [.mark '[', .item (.word (N.tostring n).toList), .mark ']']

mutual

def LuaValue.tokens : LuaValue N.Number → List Token
  | .bool b => [.item (.word (if b then "true".toList else "false".toList))]
  | .number n => [.item (.word (N.tostring n).toList)]
  | .string s => [.item (.literal s.toList)]
  | .table t => .mark '\x7b' :: t.tokens ++ [.mark '\x7d']

def LuaTable.tokens : LuaTable N.Number → List Token
  | .nil => []
  | .cons key value rest => key.tokens N ++ .mark '=' :: (value.tokens ++ rest.behind)

/-- Entries behind another one. -/
def LuaTable.behind : LuaTable N.Number → List Token
  | .nil => []
  | .cons key value rest => .mark ',' :: (key.tokens N ++
    .mark '=' :: (value.tokens ++ rest.behind))

end

/-! ## Which tables come back -/

/-- The number is what its numeral denotes. -/
def Exact (n : N.Number) : Prop := N.tonumber (N.tostring n) = some n

def LuaKey.Named : LuaKey N.Number → Prop
  | .name s => Name s.toList
  | .number n => Exact N n

mutual

/-- The keys are names, and the numbers are exact. -/
def LuaValue.Named : LuaValue N.Number → Prop
  | .bool _ => True
  | .number n => Exact N n
  | .string _ => True
  | .table t => t.Named

def LuaTable.Named : LuaTable N.Number → Prop
  | .nil => True
  | .cons key value rest => key.Named N ∧ value.Named ∧ rest.Named

end

mutual

/-- No booleans, and strings without quotes, backslashes and line breaks. -/
def LuaValue.Plain {α : Type} : LuaValue α → Prop
  | .bool _ => False
  | .number _ => True
  | .string s => lua.Clean s.toList
  | .table t => t.Plain

def LuaTable.Plain {α : Type} : LuaTable α → Prop
  | .nil => True
  | .cons _ value rest => value.Plain ∧ rest.Plain

end

mutual

/-- No entry is left out. -/
def LuaValue.Saved {α : Type} : LuaValue α → Prop
  | .table t => t.Saved
  | _ => True

def LuaTable.Saved {α : Type} : LuaTable α → Prop
  | .nil => True
  | .cons key value rest => key ≠ .name "doNotSavebg" ∧ value.Saved ∧ rest.Saved

end

/-- The chunk that is written gives the table again. -/
def RoundTrip (t : LuaTable N.Number) : Prop :=
  ∃ text, serialize (t.texts N) = some text ∧ evaluate N text = some t

/-! ## The reader takes what `tokens` gives -/

variable {N} {key : LuaKey N.Number} {v : LuaValue N.Number} {t : LuaTable N.Number}
  {ts rest : List Token} {w : List Char}

theorem numeral_eq_some_iff {n : N.Number} : numeral N w = some n ↔
    (N.tostring n).toList = w ∧ Exact N n := by
  rw [numeral, Option.bind_eq_some_iff]
  simp only [Option.ite_none_right_eq_some, Option.some.injEq]
  constructor
  · rintro ⟨n, hread, rfl, rfl⟩
    rw [String.ofList_toList] at hread
    exact ⟨rfl, hread⟩
  · rintro ⟨rfl, hexact⟩
    refine ⟨n, ?_, rfl, rfl⟩
    rw [String.ofList_toList]
    exact hexact

theorem readKey_eq_some_iff : readKey N ts = some (key, rest) ↔
    ts = key.tokens N ++ .mark '=' :: rest ∧ key.Named N := by
  constructor
  · intro h
    unfold readKey at h
    split at h
    · split_ifs at h with hname
      cases h
      refine ⟨by simp [LuaKey.tokens], ?_⟩
      rw [LuaKey.Named, String.toList_ofList]
      exact hname
    · obtain ⟨n, hn, heq⟩ := Option.map_eq_some_iff.mp h
      cases heq
      obtain ⟨rfl, hexact⟩ := numeral_eq_some_iff.mp hn
      exact ⟨rfl, hexact⟩
    · cases h
  · rintro ⟨rfl, hnamed⟩
    cases key with
    | name s =>
        change (if Name s.toList then _ else _) = _
        rw [if_pos (show Name s.toList from hnamed), String.ofList_toList]
    | number n =>
        change (numeral N (N.tostring n).toList).map _ = _
        rw [numeral_eq_some_iff.mpr ⟨rfl, hnamed⟩]
        rfl

theorem tokens_cons_of_ne_nil (value : LuaValue N.Number) (h : t ≠ .nil) :
    (LuaTable.cons key value t).tokens N =
      key.tokens N ++ .mark '=' :: (value.tokens N ++ .mark ',' :: t.tokens N) := by
  cases t with
  | nil => exact absurd rfl h
  | cons key' value' t => rfl

theorem scalar_sound (h : scalar N w = some v) : [.item (.word w)] = v.tokens N ∧ v.Named N := by
  unfold scalar at h
  split_ifs at h with htrue hfalse
  · cases h
    exact ⟨by rw [htrue]; rfl, trivial⟩
  · cases h
    exact ⟨by rw [hfalse]; rfl, trivial⟩
  · obtain ⟨n, hn, rfl⟩ := Option.map_eq_some_iff.mp h
    obtain ⟨rfl, hexact⟩ := numeral_eq_some_iff.mp hn
    exact ⟨rfl, hexact⟩

theorem readValue_sound {fuel : ℕ}
    (ih : ∀ ts t rest, readEntries N fuel ts = some (t, rest) →
      ts = t.tokens N ++ .mark '\x7d' :: rest ∧ t.Named N ∧ t ≠ .nil)
    (h : readValue N (fuel + 1) ts = some (v, rest)) : ts = v.tokens N ++ rest ∧ v.Named N := by
  unfold readValue at h
  split at h
  · cases h
  · cases h
    simp [LuaValue.tokens, LuaValue.Named]
  · obtain ⟨v, hv, heq⟩ := Option.map_eq_some_iff.mp h
    cases heq
    obtain ⟨htokens, hnamed⟩ := scalar_sound hv
    exact ⟨by rw [← htokens]; rfl, hnamed⟩
  · cases h
    simp [LuaValue.tokens, LuaTable.tokens, LuaValue.Named, LuaTable.Named]
  · next _ hfuel =>
    cases hfuel
    obtain ⟨⟨t, rest'⟩, ht, heq⟩ := Option.map_eq_some_iff.mp h
    cases heq
    obtain ⟨rfl, hnamed, -⟩ := ih _ _ _ ht
    exact ⟨by simp [LuaValue.tokens], hnamed⟩
  · cases h

theorem readEntries_sound {fuel : ℕ}
    (ihvalue : ∀ ts v rest, readValue N fuel ts = some (v, rest) →
      ts = v.tokens N ++ rest ∧ v.Named N)
    (ih : ∀ ts t rest, readEntries N fuel ts = some (t, rest) →
      ts = t.tokens N ++ .mark '\x7d' :: rest ∧ t.Named N ∧ t ≠ .nil)
    (h : readEntries N (fuel + 1) ts = some (t, rest)) :
    ts = t.tokens N ++ .mark '\x7d' :: rest ∧ t.Named N ∧ t ≠ .nil := by
  rw [readEntries] at h
  obtain ⟨⟨key, ts₁⟩, hkey, h₁⟩ := Option.bind_eq_some_iff.mp h
  obtain ⟨⟨v, ts₂⟩, hvalue, h₂⟩ := Option.bind_eq_some_iff.mp h₁
  obtain ⟨rfl, hkeyNamed⟩ := readKey_eq_some_iff.mp hkey
  obtain ⟨rfl, hnamed⟩ := ihvalue _ _ _ hvalue
  dsimp only at h₂
  split at h₂
  · cases h₂
    refine ⟨?_, ⟨hkeyNamed, hnamed, trivial⟩, by simp⟩
    simp [LuaTable.tokens, LuaTable.behind]
  · obtain ⟨⟨t, rest'⟩, ht, heq⟩ := Option.bind_eq_some_iff.mp h₂
    cases heq
    obtain ⟨rfl, htNamed, hne⟩ := ih _ _ _ ht
    refine ⟨?_, ⟨hkeyNamed, hnamed, htNamed⟩, by simp⟩
    rw [tokens_cons_of_ne_nil v hne]
    simp
  · cases h₂

theorem read_sound (fuel : ℕ) :
    (∀ ts v rest, readValue N fuel ts = some (v, rest) → ts = v.tokens N ++ rest ∧ v.Named N) ∧
    (∀ ts t rest, readEntries N fuel ts = some (t, rest) →
      ts = t.tokens N ++ .mark '\x7d' :: rest ∧ t.Named N ∧ t ≠ .nil) := by
  induction fuel with
  | zero => exact ⟨fun _ _ _ h => (nomatch h), fun _ _ _ h => (nomatch h)⟩
  | succ fuel ih =>
      exact ⟨fun _ _ _ h => readValue_sound ih.2 h, fun _ _ _ h => readEntries_sound ih.1 ih.2 h⟩

mutual

/-- How deep the reader has to go. -/
def LuaValue.rank {α : Type} : LuaValue α → ℕ
  | .table t => t.rank + 1
  | _ => 0

def LuaTable.rank {α : Type} : LuaTable α → ℕ
  | .nil => 0
  | .cons _ value rest => max value.rank rest.rank + 1

end

theorem scalar_number {n : N.Number} (h : Exact N n) :
    scalar N (N.tostring n).toList = some (.number n) := by
  have hnot : ∀ s : String, identifier s.toList = true → (N.tostring n).toList ≠ s.toList :=
    fun s hs heq => by
      have hread := N.tonumber_identifier (N.tostring n) (by rw [heq]; exact hs)
      rw [Exact, hread] at h
      cases h
  rw [scalar, if_neg (hnot "true" (by decide)), if_neg (hnot "false" (by decide)),
    numeral_eq_some_iff.mpr ⟨rfl, h⟩]
  rfl

/-- The reader finds a table again when it may go deep enough. -/
theorem read_complete (fuel : ℕ) :
    (∀ (v : LuaValue N.Number) (rest : List Token), v.Named N → v.rank < fuel →
      readValue N fuel (v.tokens N ++ rest) = some (v, rest)) ∧
    (∀ (t : LuaTable N.Number) (rest : List Token), t ≠ .nil → t.Named N → t.rank < fuel →
      readEntries N fuel (t.tokens N ++ .mark '\x7d' :: rest) = some (t, rest)) := by
  induction fuel with
  | zero =>
      exact ⟨fun _ _ _ h => absurd h (Nat.not_lt_zero _),
        fun _ _ _ _ h => absurd h (Nat.not_lt_zero _)⟩
  | succ fuel ih =>
      obtain ⟨ihvalue, ihentries⟩ := ih
      constructor
      · intro v rest hnamed hrank
        cases v with
        | bool b => cases b <;> rfl
        | number n =>
            change (scalar N (N.tostring n).toList).map _ = _
            rw [scalar_number hnamed]
            rfl
        | string s =>
            change some (LuaValue.string (String.ofList s.toList), rest) = _
            rw [String.ofList_toList]
        | table t =>
            rw [LuaValue.rank] at hrank
            by_cases hnil : t = .nil
            · subst hnil
              rfl
            · have hentries := ihentries t rest hnil hnamed (by omega)
              have htokens : (LuaValue.table t).tokens N ++ rest =
                  .mark '\x7b' :: (t.tokens N ++ .mark '\x7d' :: rest) := by simp [LuaValue.tokens]
              have hfirst : ∀ ts, t.tokens N ++ .mark '\x7d' :: rest ≠ .mark '\x7d' :: ts := by
                cases t with
                | nil => exact absurd rfl hnil
                | cons key v t => cases key <;> simp [LuaTable.tokens, LuaKey.tokens]
              rw [htokens, readValue, hentries]
              · rfl
              · exact hfirst
      · intro t rest hne hnamed hrank
        cases t with
        | nil => exact absurd rfl hne
        | cons key v t =>
            obtain ⟨hkey, hv, ht⟩ := hnamed
            rw [LuaTable.rank] at hrank
            have hread : ∀ ts, readKey N (key.tokens N ++ .mark '=' :: ts) = some (key, ts) :=
              fun ts => readKey_eq_some_iff.mpr ⟨rfl, hkey⟩
            by_cases hnil : t = .nil
            · subst hnil
              have htokens : (LuaTable.cons key v .nil).tokens N ++ .mark '\x7d' :: rest =
                  key.tokens N ++ .mark '=' :: (v.tokens N ++ .mark '\x7d' :: rest) := by
                simp [LuaTable.tokens, LuaTable.behind]
              rw [htokens, readEntries, hread]
              change Option.bind (readValue N fuel _) _ = _
              rw [ihvalue v _ hv (by omega)]
              rfl
            · have htokens : (LuaTable.cons key v t).tokens N ++ .mark '\x7d' :: rest =
                  key.tokens N ++ .mark '=' :: (v.tokens N ++ .mark ',' ::
                    (t.tokens N ++ .mark '\x7d' :: rest)) := by
                rw [tokens_cons_of_ne_nil v hnil]
                simp
              rw [htokens, readEntries, hread]
              change Option.bind (readValue N fuel _) _ = _
              rw [ihvalue v _ hv (by omega)]
              change Option.bind (readEntries N fuel _) _ = _
              rw [ihentries t _ hnil ht (by omega)]
              rfl

mutual

theorem rank_lt_length : (v : LuaValue N.Number) → v.rank < (v.tokens N).length
  | .bool _ => Nat.zero_lt_one
  | .number _ => Nat.zero_lt_one
  | .string _ => Nat.zero_lt_one
  | .table t => by
      have ht := rank_le_length t
      simp only [LuaValue.rank, LuaValue.tokens, List.length_append, List.length_cons,
        List.length_nil]
      omega

theorem rank_le_length : (t : LuaTable N.Number) →
    t.rank ≤ (t.tokens N).length ∧ t.rank ≤ (t.behind N).length
  | .nil => ⟨le_rfl, le_rfl⟩
  | .cons key value rest => by
      have hv := rank_lt_length value
      have hrest := rank_le_length rest
      simp only [LuaTable.rank, LuaTable.tokens, LuaTable.behind, List.length_append,
        List.length_cons]
      omega

end

def chunkTokens (t : LuaTable N.Number) : List Token :=
  .item (.word "do".toList) :: .item (.word "local".toList) :: .item (.word "ret".toList) ::
    .mark '=' :: ((LuaValue.table t).tokens N ++ closing)

theorem readChunk_eq_some_iff : readChunk N ts = some t ↔ ts = chunkTokens t ∧ t.Named N := by
  constructor
  · intro h
    unfold readChunk at h
    split at h
    · split_ifs at h with hhead
      split at h
      · next heq =>
        split_ifs at h with hrest
        obtain ⟨rfl, hnamed⟩ := (read_sound _).1 _ _ _ heq
        obtain ⟨rfl, rfl, rfl⟩ := hhead
        cases h
        subst hrest
        exact ⟨rfl, hnamed⟩
      · cases h
    · cases h
  · rintro ⟨rfl, hnamed⟩
    have hrank := rank_lt_length (LuaValue.table t)
    have hread := (read_complete (((LuaValue.table t).tokens N ++ closing).length + 1)).1 (.table t)
      closing hnamed (by
        rw [List.length_append]
        omega)
    simp only [readChunk, chunkTokens, and_self, if_true, hread]

/-! ## What `serialize` writes -/

variable {d : Char} {l x : List Char} {y : List Token}

theorem isWord_of_name (h : Name w) : lua.IsWord w := by
  obtain ⟨hw, -⟩ := h
  cases w with
  | nil => cases hw
  | cons c w =>
      rw [identifier, Bool.and_eq_true, Bool.or_eq_true, List.all_eq_true] at hw
      refine ⟨List.cons_ne_nil _ _, fun d hd => ?_⟩
      have hword : d.isAlphanum = true ∨ d = '_' := by
        rcases List.mem_cons.mp hd with rfl | hd
        · rcases hw.1 with halpha | hunder
          · exact Or.inl (by rw [Char.isAlphanum, halpha, Bool.true_or])
          · exact Or.inr (of_decide_eq_true hunder)
        · have := hw.2 d hd
          rw [Bool.or_eq_true] at this
          exact this.imp_right of_decide_eq_true
      rcases hword with halnum | rfl
      · exact Bool.or_eq_true_iff.mpr (Or.inl halnum)
      · decide

/-- A text that begins with a mark, and its tokens. -/
def Marked (x : List Char) (y : List Token) : Prop :=
  ∃ d l ts, lua.mark d = true ∧ x = d :: l ∧ y = .mark d :: ts

theorem lex_item_marked {i : Item} (h : Marked x y) :
    lua.lex .between (lua.text i ++ x) = some (.item i :: y) ↔
      lua.Fine i ∧ lua.lex .between x = some y := by
  obtain ⟨d, l, ts, hd, rfl, rfl⟩ := h
  rw [Lexer.lex_item_iff hd, Lexer.lex_mark_iff hd]

/-- A key that is a name, or a number, is read as it is written. -/
theorem lex_key_iff (hkey : key.Named N) :
    lua.lex .between ((key.texts N).entry.toList ++ '=' :: l) =
      some (key.tokens N ++ .mark '=' :: ts) ↔ lua.lex .between l = some ts := by
  have hequal : lua.mark '=' = true := by decide
  cases key with
  | name s =>
      have hfine : lua.Fine (.word s.toList) := isWord_of_name hkey
      exact (Lexer.lex_item_iff hequal).trans (and_iff_right hfine)
  | number n =>
      have hfine : lua.Fine (.word (N.tostring n).toList) := N.isWord n
      have hlist : (Key.entry (.number (N.tostring n))).toList ++ '=' :: l =
          '[' :: ((N.tostring n).toList ++ ']' :: '=' :: l) := by
        simp [Key.entry, String.toList_append]
      rw [LuaKey.texts, hlist]
      change lua.lex .between ('[' :: (lua.text (.word (N.tostring n).toList) ++ ']' :: '=' :: l)) =
        some (.mark '[' :: .item (.word (N.tostring n).toList) :: .mark ']' :: .mark '=' :: ts) ↔ _
      rw [Lexer.lex_mark_iff (by decide), Lexer.lex_item_iff (by decide),
        Lexer.lex_mark_iff hequal, and_iff_right hfine]

theorem ser_table_cons (value : LuaValue N.Number) (hkey : key ≠ .name "doNotSavebg")
    {entries : List String} (h : ((LuaTable.cons key value t).texts N).ser_table = some entries) :
    ∃ entry entries', (value.texts N).ser (key.texts N).entry = some entry ∧
      (t.texts N).ser_table = some entries' ∧ entries = entry :: entries' := by
  have hname : key.texts N ≠ .name "doNotSavebg" := fun heq => by
    cases key with
    | name s => exact hkey (congrArg LuaKey.name (Key.name.inj heq))
    | number n => cases heq
  rw [LuaTable.texts, Fields.ser_table, if_neg hname] at h
  obtain ⟨entry, hentry, h⟩ := Option.bind_eq_some_iff.mp h
  obtain ⟨entries', hentries, h⟩ := Option.bind_eq_some_iff.mp h
  exact ⟨entry, entries', hentry, hentries, (Option.some.inj h).symm⟩

/-- What stands behind an entry begins with a mark. -/
theorem marked_behind (hsaved : t.Saved) {entries : List String}
    (h : (t.texts N).ser_table = some entries) :
    Marked ((entries.flatMap fun e => ',' :: e.toList) ++ '\x7d' :: l)
      (t.behind N ++ .mark '\x7d' :: ts) := by
  cases t with
  | nil =>
      cases h
      exact ⟨'\x7d', l, ts, by decide, rfl, rfl⟩
  | cons key value t =>
      obtain ⟨entry, entries', -, -, rfl⟩ := ser_table_cons value hsaved.1 h
      exact ⟨',', _, _, by decide, rfl, rfl⟩

theorem toList_intercalate_cons (e : String) (entries : List String) :
    (",".intercalate (e :: entries)).toList =
      e.toList ++ entries.flatMap fun e => ',' :: e.toList := by
  induction entries generalizing e with
  | nil => simp
  | cons e' entries ih =>
      have hlist : (e ++ "," ++ ",".intercalate (e' :: entries)).toList =
          e.toList ++ ',' :: (",".intercalate (e' :: entries)).toList := by
        simp [String.toList_append]
      rw [String.intercalate_cons_cons, hlist, ih, List.flatMap_cons]
      rfl

mutual

/-- A value is read as it is written exactly when it is plain. -/
theorem lex_value_iff : (v : LuaValue N.Number) → v.Named N → v.Saved → {key text : String} →
    (v.texts N).ser key = some text → ∃ body, text.toList = key.toList ++ '=' :: body ∧
      ∀ {x y}, Marked x y → (lua.lex .between (body ++ x) = some (v.tokens N ++ y) ↔
        v.Plain ∧ lua.lex .between x = some y)
  | .bool b, _, _, _, _, h => nomatch h
  | .number n, _, _, key, _, h => by
      cases h
      refine ⟨(N.tostring n).toList, by simp [String.toList_append], fun hxy => ?_⟩
      have hfine : lua.Fine (.word (N.tostring n).toList) := N.isWord n
      exact (lex_item_marked hxy).trans (and_congr_left' (iff_of_true hfine trivial))
  | .string s, _, _, key, _, h => by
      cases h
      refine ⟨lua.text (.literal s.toList), ?_, fun hxy => lex_item_marked hxy⟩
      simp [String.toList_append, Lexer.text, lua]
  | .table t, hnamed, hsaved, key, text, h => by
      obtain ⟨entries, hentries, h⟩ := Option.bind_eq_some_iff.mp h
      obtain rfl := Option.some.inj h
      refine ⟨'\x7b' :: ((",".intercalate entries).toList ++ ['\x7d']), ?_, fun {x y} hxy => ?_⟩
      · simp [String.toList_append]
      · have hlist : '\x7b' :: ((",".intercalate entries).toList ++ ['\x7d']) ++ x =
            '\x7b' :: ((",".intercalate entries).toList ++ '\x7d' :: x) := by simp
        have htokens : (LuaValue.table t).tokens N ++ y =
            .mark '\x7b' :: (t.tokens N ++ .mark '\x7d' :: y) := by simp [LuaValue.tokens]
        rw [hlist, htokens, Lexer.lex_mark_iff (by decide)]
        exact (lex_entries_iff t hnamed hsaved hentries).1 x y

theorem lex_entries_iff : (t : LuaTable N.Number) → t.Named N → t.Saved → {entries : List String} →
    (t.texts N).ser_table = some entries →
    (∀ l ts, lua.lex .between ((",".intercalate entries).toList ++ '\x7d' :: l) =
      some (t.tokens N ++ .mark '\x7d' :: ts) ↔ t.Plain ∧ lua.lex .between l = some ts) ∧
    ∀ l ts, lua.lex .between ((entries.flatMap fun e => ',' :: e.toList) ++ '\x7d' :: l) =
      some (t.behind N ++ .mark '\x7d' :: ts) ↔ t.Plain ∧ lua.lex .between l = some ts
  | .nil, _, _, entries, h => by
      cases h
      have hclose : ∀ l ts, lua.lex .between ('\x7d' :: l) = some (.mark '\x7d' :: ts) ↔
          True ∧ lua.lex .between l = some ts := fun l ts => by
        rw [Lexer.lex_mark_iff (by decide), true_and]
      refine ⟨fun l ts => ?_, hclose⟩
      rw [String.intercalate_nil]
      exact hclose l ts
  | .cons key value rest, hnamed, hsaved, entries, h => by
      obtain ⟨entry, entries', hentry, hentries, rfl⟩ := ser_table_cons value hsaved.1 h
      obtain ⟨body, hbody, hvalue⟩ := lex_value_iff value hnamed.2.1 hsaved.2.1 hentry
      have hbehind := (lex_entries_iff rest hnamed.2.2 hsaved.2.2 hentries).2
      have hfirst : ∀ l ts, lua.lex .between (entry.toList ++
          ((entries'.flatMap fun e => ',' :: e.toList) ++ '\x7d' :: l)) =
            some (key.tokens N ++ .mark '=' :: (value.tokens N ++
              (rest.behind N ++ .mark '\x7d' :: ts))) ↔
          (LuaTable.cons key value rest).Plain ∧ lua.lex .between l = some ts := fun l ts => by
        rw [hbody, List.append_assoc, List.cons_append, lex_key_iff hnamed.1,
          hvalue (marked_behind hsaved.2.2 hentries), hbehind, ← and_assoc]
        rfl
      refine ⟨fun l ts => ?_, fun l ts => ?_⟩
      · rw [toList_intercalate_cons, List.append_assoc, LuaTable.tokens, List.append_assoc,
          List.cons_append, List.append_assoc]
        exact hfirst l ts
      · rw [List.flatMap_cons, LuaTable.behind, List.append_assoc, List.cons_append,
          List.cons_append, Lexer.lex_mark_iff (by decide), List.append_assoc, List.cons_append,
          List.append_assoc]
        exact hfirst l ts

end

theorem lex_closing : lua.lex .between " return ret end".toList = some closing := by decide

/-- The chunk is read as the table exactly when the table is plain. -/
theorem lex_chunk_iff (hnamed : t.Named N) (hsaved : t.Saved) {text : String}
    (h : serialize (t.texts N) = some text) :
    lua.lex .between text.toList = some (chunkTokens t) ↔ t.Plain := by
  obtain ⟨entries, hentries, h⟩ := Option.bind_eq_some_iff.mp h
  obtain rfl := Option.some.inj h
  have hlist : ("do local ret=" ++ ("\x7b" ++ ",".intercalate entries ++ "\x7d") ++
      " return ret end").toList = "do".toList ++ ' ' :: ("local".toList ++ ' ' :: ("ret".toList ++
        '=' :: '\x7b' :: ((",".intercalate entries).toList ++
          '\x7d' :: " return ret end".toList))) := by
    simp [String.toList_append]
  have htokens : (chunkTokens t : List Token) = .item (.word "do".toList) ::
      .item (.word "local".toList) :: .item (.word "ret".toList) :: .mark '=' :: .mark '\x7b' ::
        (t.tokens N ++ .mark '\x7d' :: closing) := by
    simp [chunkTokens, LuaValue.tokens]
  rw [hlist, htokens, Lexer.lex_word_iff (by decide) (by decide), Lexer.lex_blank,
    Lexer.lex_word_iff (by decide) (by decide), Lexer.lex_blank,
    Lexer.lex_word_iff (by decide) (by decide), Lexer.lex_mark_iff (by decide),
    Lexer.lex_mark_iff (by decide), (lex_entries_iff t hnamed hsaved hentries).1, lex_closing,
    and_iff_left rfl]

theorem evaluate_iff (hsaved : t.Saved) {text : String} (h : serialize (t.texts N) = some text) :
    evaluate N text = some t ↔ t.Named N ∧ t.Plain := by
  rw [evaluate, Option.bind_eq_some_iff]
  constructor
  · rintro ⟨ts, hlex, hread⟩
    obtain ⟨rfl, hnamed⟩ := readChunk_eq_some_iff.mp hread
    exact ⟨hnamed, (lex_chunk_iff hnamed hsaved h).mp hlex⟩
  · rintro ⟨hnamed, hplain⟩
    exact ⟨chunkTokens t, (lex_chunk_iff hnamed hsaved h).mpr hplain,
      readChunk_eq_some_iff.mpr ⟨rfl, hnamed⟩⟩

mutual

theorem serializable_of_plain : (v : LuaValue N.Number) → v.Plain → (v.texts N).serializable = true
  | .bool _, h => h.elim
  | .number _, _ => rfl
  | .string _, _ => rfl
  | .table t, h => serializable_texts t h

theorem serializable_texts : (t : LuaTable N.Number) → t.Plain → (t.texts N).serializable = true
  | .nil, _ => rfl
  | .cons _ value rest, h => by
      rw [LuaTable.texts, Fields.serializable, serializable_of_plain value h.1,
        serializable_texts rest h.2, Bool.or_true, Bool.and_self]

end

/-! ## The round trip -/

theorem roundTrip_iff (hsaved : t.Saved) : RoundTrip N t ↔ t.Named N ∧ t.Plain := by
  constructor
  · rintro ⟨text, htext, hread⟩
    exact (evaluate_iff hsaved htext).mp hread
  · intro h
    have hsome : (serialize (t.texts N)).isSome = true :=
      (serialize_isSome _).trans (serializable_texts t h.2)
    obtain ⟨text, htext⟩ := Option.isSome_iff_exists.mp hsome
    exact ⟨text, htext, (evaluate_iff hsaved htext).mpr h⟩


/-! ## The units of the database -/

/-- The column the loaders evaluate. -/
def blobdata (r : StatementIntact.Replace) : Option String :=
  match r.values with
  | [_, .literal text] => some (String.ofList text)
  | _ => none

/-- The statement of a unit reads as the unit, and its blob evaluates to it. -/
def Rebuilt (load : Evaluate) (key : String) (name : Table) (t : LuaTable N.Number) : Prop :=
  ∃ text r blob, formatsql load key name (some (t.texts N)) = some text ∧
    StatementIntact.statement load key name (some (t.texts N)) = some r ∧
    StatementIntact.readStatement text = some r ∧ blobdata r = some blob ∧ evaluate N blob = some t

theorem rebuilt_iff {load : Evaluate} {id : String} {name : Table}
    (hname : serialize_one name = true) : Rebuilt load id name t ↔
      StatementIntact.Intact load id name (some (t.texts N)) ∧ RoundTrip N t := by
  have hcontents : StatementIntact.contents load name (some (t.texts N)) =
      StatementIntact.blob (t.texts N) := by rw [StatementIntact.contents, if_pos hname]
  have hblob : ∀ {r}, StatementIntact.statement load id name (some (t.texts N)) = some r →
      ∃ text, serialize (t.texts N) = some text ∧ blobdata r = some text := fun {r} hr => by
    rw [StatementIntact.statement, hcontents, StatementIntact.blob] at hr
    obtain ⟨lists, hlists, hr⟩ := Option.bind_eq_some_iff.mp hr
    obtain ⟨text, htext, hlists⟩ := Option.bind_eq_some_iff.mp hlists
    cases hlists
    cases hr
    exact ⟨text, htext, congrArg some String.ofList_toList⟩
  constructor
  · rintro ⟨text, r, blob, hsql, hr, hread, hdata, heval⟩
    obtain ⟨text', htext, hdata'⟩ := hblob hr
    rw [hdata, Option.some.injEq] at hdata'
    exact ⟨⟨text, r, hsql, hr, hread⟩, text', htext, hdata' ▸ heval⟩
  · rintro ⟨⟨text, r, hsql, hr, hread⟩, text', htext, heval⟩
    obtain ⟨text'', htext', hdata⟩ := hblob hr
    rw [htext, Option.some.injEq] at htext'
    exact ⟨text, r, text'', hsql, hr, hread, hdata, htext' ▸ heval⟩

/-- A table comes back exactly when its keys are names, its numbers are what they are written as,
and it holds no boolean and no string with a quote, a backslash or a line break. Its unit comes back
from the database when the statement can be read, too. -/
theorem serialize_roundTrip_iff (N : Numerals) (t : LuaTable N.Number) (hsaved : t.Saved) :
    (RoundTrip N t ↔ t.Named N ∧ t.Plain) ∧
      ∀ (load : Evaluate) (id : String) (name : Table), serialize_one name = true →
        (Rebuilt load id name t ↔ (StatementIntact.Clean id ∧
          StatementIntact.FieldsClean (t.texts N)) ∧ t.Named N ∧ t.Plain) := by
  refine ⟨roundTrip_iff hsaved, fun load id name hname => ?_⟩
  rw [rebuilt_iff hname, roundTrip_iff hsaved, StatementIntact.formatsql_intact_iff,
    StatementIntact.Plain, if_pos hname]

theorem not_isAlpha_of_isDigit {c : Char} (h : c.isDigit = true) : ¬ c.isAlpha = true := by
  change ¬(decide (c.val ≥ 'A'.val ∧ c.val ≤ 'Z'.val) ||
    (decide (c.val ≥ 'a'.val) && decide (c.val ≤ 'z'.val))) = true
  simp only [Char.isDigit, Bool.and_eq_true, Bool.or_eq_true, decide_eq_true_eq,
    UInt32.le_iff_toNat_le, ge_iff_le] at h ⊢
  have h9 : '9'.val.toNat = 57 := rfl
  have hA : 'A'.val.toNat = 65 := rfl
  have ha : 'a'.val.toNat = 97 := rfl
  omega

/-- The natural numbers, written in decimal. -/
def naturals : Numerals where
  Number := ℕ
  tostring n := String.ofList (Nat.toDigits 10 n)
  tonumber s := if s.toList.all Char.isDigit then some (Nat.ofDigitChars 10 s.toList 0) else none
  isWord n := by
    refine ⟨by simp, fun c hc => ?_⟩
    rw [String.toList_ofList] at hc
    have hdigit : c.isDigit = true := Nat.isDigit_of_mem_toDigits (by decide) (by decide) hc
    simp [lua, Char.isAlphanum, hdigit]
  tonumber_identifier s h := if_neg fun hdigits => by
    cases hs : s.toList with
    | nil =>
        rw [hs] at h
        cases h
    | cons c w =>
        rw [hs] at h hdigits
        have hdigit : c.isDigit = true := List.all_eq_true.mp hdigits c List.mem_cons_self
        have hfirst : c.isAlpha = true ∨ c = '_' := by
          have := (Bool.and_eq_true_iff.mp h).1
          simpa using this
        rcases hfirst with halpha | rfl
        · exact not_isAlpha_of_isDigit hdigit halpha
        · exact absurd hdigit (by decide)

theorem exact_naturals (n : ℕ) : Exact naturals n := by
  have hdigits : ∀ c ∈ Nat.toDigits 10 n, c.isDigit = true := fun c hc =>
    Nat.isDigit_of_mem_toDigits (by decide) (by decide) hc
  simpa [Exact, naturals] using hdigits

/-- The mission record of an account, by serial id. -/
def missions : LuaTable naturals.Number :=
  .cons (.number (101 : ℕ)) (.table (.cons (.name "uuid") (.string "u77")
    (.cons (.name "dataId") (.number (101001 : ℕ)) (.cons (.name "flag") (.number (0 : ℕ)) .nil))))
    .nil

theorem serialize_missions : RoundTrip naturals missions ∧
    Rebuilt (fun _ => none) "1" .missions missions := by
  have hkey : ∀ s ∈ ["uuid", "dataId", "flag"], Name s.toList := by decide
  have hnamed : missions.Named naturals :=
    ⟨exact_naturals 101, ⟨hkey _ (by simp), trivial, hkey _ (by simp), exact_naturals 101001,
      hkey _ (by simp), exact_naturals 0, trivial⟩, trivial⟩
  have huuid : lua.Clean "u77".toList := by decide
  have hplain : missions.Plain := ⟨⟨huuid, trivial, trivial, trivial⟩, trivial⟩
  have hsaved : missions.Saved := by simp [missions, LuaTable.Saved, LuaValue.Saved]
  have hclean : ∀ s ∈ ["1", "101", "uuid", "u77", "dataId", "101001", "flag", "0"],
      StatementIntact.Clean s := fun s hs => Lexer.clean_of_all (by revert s; decide)
  have hfields : StatementIntact.FieldsClean (missions.texts naturals) :=
    ⟨Or.inr ⟨hclean "101" (by simp), ⟨Or.inr ⟨hclean "uuid" (by simp), hclean "u77" (by simp)⟩,
      Or.inr ⟨hclean "dataId" (by simp), hclean "101001" (by simp)⟩,
      Or.inr ⟨hclean "flag" (by simp), hclean "0" (by simp)⟩, trivial⟩⟩, trivial⟩
  obtain ⟨htrip, hrebuilt⟩ := serialize_roundTrip_iff naturals missions hsaved
  exact ⟨htrip.mpr ⟨hnamed, hplain⟩,
    (hrebuilt _ "1" .missions rfl).mpr ⟨⟨hclean "1" (by simp), hfields⟩, hnamed, hplain⟩⟩

/-- A mail of an account, by its uuid. Its text has quotes. -/
def mails : LuaTable naturals.Number :=
  .cons (.name "u2147484673") (.table (.cons (.name "uuid") (.string "u2147484673")
    (.cons (.name "content") (.string "\"hi\"") .nil))) .nil

theorem serialize_mails : ¬ ∀ (N : Numerals) (t : LuaTable N.Number), t.Saved → RoundTrip N t :=
  fun hall => by
    have hsaved : mails.Saved := by simp [mails, LuaTable.Saved, LuaValue.Saved]
    have hplain := ((roundTrip_iff hsaved).mp (hall naturals mails hsaved)).2
    have hcontent : lua.Clean "\"hi\"".toList := hplain.1.2.1
    exact absurd hcontent (by decide)

end GameServer.SerializeRoundTrip
