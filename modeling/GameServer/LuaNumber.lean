import GameServer.LuaPattern

/-!
# Reading numbers

A text is read as an integer of 64 bits if it is one, and else by the C library as a float. Decimal
numerals, with a sign and a fraction or without, are read with their values.
-/

namespace GameServer.LuaNumber

open LuaPattern (isspace isxdigit)

/-! ## Numerals -/

structure Numeral where
  neg : Bool
  whole : List (Fin 10)
  fraction : Option (List (Fin 10))
  some_digit : whole ≠ [] ∨ ∃ d l, fraction = some (d :: l)

def digit (d : Fin 10) : Char := Nat.digitChar d

/-- The digits after those that made `a`. -/
def decimal (a : ℕ) (l : List (Fin 10)) : ℕ :=
  l.foldl (fun (a : ℕ) (d : Fin 10) => a * 10 + (d : ℕ)) a

namespace Numeral

variable (n : Numeral)

def fractionText : List Char :=
  match n.fraction with
  | none => []
  | some l => '.' :: l.map digit

def unsignedText : List Char := n.whole.map digit ++ n.fractionText

def text : List Char := if n.neg then '-' :: n.unsignedText else n.unsignedText

def magnitude : ℚ :=
  match n.fraction with
  | none => decimal 0 n.whole
  | some l => decimal 0 n.whole + decimal 0 l / 10 ^ l.length

end Numeral

/-! ## The conversion -/

/-- The float conversion of the C library: the value and what comes behind it. -/
structure CLibrary (F : Type) where
  strtod : List Char → Option (F × List Char)
  decimal_point : Char
  /-- The float of a sign and a magnitude. -/
  nearest : Bool → ℚ → F
  strtod_text (n : Numeral) : strtod n.text = some (nearest n.neg n.magnitude, [])

inductive Number (F : Type)
  | int (n : ℤ)
  | flt (x : F)
  deriving DecidableEq

def LUA_MAXINTEGER : ℕ := 2 ^ 63 - 1

def MAXBY10 : ℕ := LUA_MAXINTEGER / 10

def MAXLASTD : ℕ := LUA_MAXINTEGER % 10

def L_MAXLENNUM : ℕ := 200

def isneg : List Char → Bool × List Char
  | '-' :: s => (true, s)
  | '+' :: s => (false, s)
  | s => (false, s)

def luaO_hexavalue (c : Char) : ℕ :=
  if c.isDigit then c.toNat - '0'.toNat else c.toLower.toNat - 'a'.toNat + 10

/-- The loop over hexadecimal digits, in unsigned arithmetic. -/
def hexadecimals (a : ℕ) (empty : Bool) : List Char → ℕ × Bool × List Char
  | [] => (a, empty, [])
  | c :: s =>
      if isxdigit c then hexadecimals ((a * 16 + luaO_hexavalue c) % 2 ^ 64) false s
      else (a, empty, c :: s)

/-- The loop over decimal digits; none when the integer overflows. -/
def decimals (neg : Bool) (a : ℕ) (empty : Bool) : List Char → Option (ℕ × Bool × List Char)
  | [] => some (a, empty, [])
  | c :: s =>
      if c.isDigit then
        let d := c.toNat - '0'.toNat
        if a ≥ MAXBY10 ∧ (a > MAXBY10 ∨ d > MAXLASTD + neg.toNat) then none
        else decimals neg (a * 10 + d) false s
      else some (a, empty, c :: s)

/-- The text goes on with `0x`. -/
def hex : List Char → Bool
  | '0' :: c :: _ => c = 'x' ∨ c = 'X'
  | _ => false

def l_str2int (s : List Char) : Option ℤ :=
  let (neg, s) := isneg (s.dropWhile isspace)
  let read := if hex s then some (hexadecimals 0 true (s.drop 2)) else decimals neg 0 true s
  match read with
  | none => none
  | some (a, empty, s) =>
      if empty = true ∨ s.dropWhile isspace ≠ [] then none
      else some ((if neg then -(a : ℤ) else a).bmod (2 ^ 64))

section Conversion

variable {F : Type} (lib : CLibrary F)

def l_str2dloc (s : List Char) : Option F :=
  match lib.strtod s with
  | none => none
  | some (result, s) => if s.dropWhile isspace = [] then some result else none

/-- Neither `inf` nor `nan`; a dot that the locale does not accept is replaced by its own mark. -/
def l_str2d (s : List Char) : Option F :=
  let pmode := s.find? fun c => c = '.' ∨ c = 'x' ∨ c = 'X' ∨ c = 'n' ∨ c = 'N'
  if pmode = some 'n' ∨ pmode = some 'N' then none
  else
    match l_str2dloc lib s with
    | some result => some result
    | none =>
        if s.length > L_MAXLENNUM ∨ '.' ∉ s then none
        else l_str2dloc lib (s.set (s.idxOf '.') lib.decimal_point)

def tonumber (s : List Char) : Option (Number F) :=
  match l_str2int s with
  | some n => some (.int n)
  | none => (l_str2d lib s).map .flt

end Conversion

/-- The number of a numeral: an integer where it is one of 64 bits. -/
def Numeral.number {F : Type} (lib : CLibrary F) (n : Numeral) : Number F :=
  let a := decimal 0 n.whole
  if n.fraction = none ∧ a ≤ LUA_MAXINTEGER + n.neg.toNat then .int (if n.neg then -a else a)
  else .flt (lib.nearest n.neg n.magnitude)

/-! ## Integers -/

theorem digit_spec : ∀ d : Fin 10, (digit d).isDigit = true ∧ (digit d).toNat - '0'.toNat = d ∧
    isspace (digit d) = false ∧ digit d ≠ '-' ∧ digit d ≠ '+' ∧ digit d ≠ 'x' ∧ digit d ≠ 'X' := by
  decide

theorem decimal_cons (a : ℕ) (d : Fin 10) (l : List (Fin 10)) :
    decimal a (d :: l) = decimal (a * 10 + d) l := rfl

theorem le_decimal (a : ℕ) (l : List (Fin 10)) : a ≤ decimal a l := by
  induction l generalizing a with
  | nil => exact le_rfl
  | cons d l ih => exact le_trans (by omega) (ih (a * 10 + d))

/-- Digits are read up to the largest integer, and no further. -/
theorem decimals_digits {neg : Bool} {a : ℕ} (empty : Bool) (l : List (Fin 10)) {rest : List Char}
    (hrest : ∀ c ∈ rest.head?, c.isDigit = false) (ha : a ≤ LUA_MAXINTEGER + neg.toNat) :
    decimals neg a empty (l.map digit ++ rest) =
      if decimal a l ≤ LUA_MAXINTEGER + neg.toNat then some (decimal a l, empty && l.isEmpty, rest)
      else none := by
  induction l generalizing a empty with
  | nil =>
    rw [List.map_nil, List.nil_append, decimal, List.foldl_nil, if_pos ha, List.isEmpty_nil,
      Bool.and_true]
    cases rest with
    | nil => rfl
    | cons c rest => rw [decimals, hrest c rfl, if_neg Bool.false_ne_true]
  | cons d l ih =>
    obtain ⟨hdigit, hvalue, -⟩ := digit_spec d
    rw [List.map_cons, List.cons_append, decimals, if_pos hdigit, hvalue, decimal_cons]
    dsimp only
    -- the test before the step is whether the integer would be too large
    have hover : (a ≥ MAXBY10 ∧ (a > MAXBY10 ∨ (d : ℕ) > MAXLASTD + neg.toNat)) ↔
        LUA_MAXINTEGER + neg.toNat < a * 10 + d := by
      have hd := d.isLt
      have hneg : neg.toNat ≤ 1 := Bool.toNat_le neg
      norm_num [MAXBY10, MAXLASTD, LUA_MAXINTEGER]
      omega
    rw [if_congr hover rfl rfl]
    by_cases hlt : LUA_MAXINTEGER + neg.toNat < a * 10 + d
    · rw [if_pos hlt, if_neg (hlt.trans_le (le_decimal _ l)).not_ge]
    · rw [if_neg hlt, ih false (not_lt.mp hlt), List.isEmpty_cons, Bool.and_false, Bool.false_and]

/-! ## Texts of numerals -/

namespace Numeral

variable (n : Numeral)

theorem mem_unsignedText {c : Char} (hc : c ∈ n.unsignedText) : c = '.' ∨ ∃ d, c = digit d := by
  rw [unsignedText, List.mem_append] at hc
  rcases hc with hc | hc
  · obtain ⟨d, -, rfl⟩ := List.mem_map.mp hc
    exact .inr ⟨d, rfl⟩
  · unfold fractionText at hc
    split at hc
    · cases hc
    · rcases List.mem_cons.mp hc with rfl | hc
      · exact .inl rfl
      · obtain ⟨d, -, rfl⟩ := List.mem_map.mp hc
        exact .inr ⟨d, rfl⟩

theorem mem_text {c : Char} (hc : c ∈ n.text) : c = '-' ∨ c = '.' ∨ ∃ d, c = digit d := by
  unfold text at hc
  split_ifs at hc
  · exact (List.mem_cons.mp hc).imp_right n.mem_unsignedText
  · exact .inr (n.mem_unsignedText hc)

theorem unsignedText_ne_nil : n.unsignedText ≠ [] := by
  intro hnil
  rw [unsignedText, List.append_eq_nil_iff, List.map_eq_nil_iff] at hnil
  rcases n.some_digit with hwhole | ⟨d, l, hfraction⟩
  · exact hwhole hnil.1
  · rw [fractionText, hfraction] at hnil
    exact List.cons_ne_nil _ _ hnil.2

theorem text_ne_nil : n.text ≠ [] := by
  unfold text
  split_ifs
  · exact List.cons_ne_nil _ _
  · exact n.unsignedText_ne_nil

theorem notMem_text {c : Char} (hminus : c ≠ '-') (hdot : c ≠ '.') (hdigit : ∀ d, c ≠ digit d) :
    c ∉ n.text := by
  intro hc
  rcases n.mem_text hc with rfl | rfl | ⟨d, rfl⟩
  · exact hminus rfl
  · exact hdot rfl
  · exact hdigit d rfl

theorem dropWhile_text : n.text.dropWhile isspace = n.text := by
  obtain ⟨c, s, hs⟩ := List.exists_cons_of_ne_nil n.text_ne_nil
  have hspace : isspace c = false := by
    rcases n.mem_text (hs ▸ List.mem_cons_self) with rfl | rfl | ⟨d, rfl⟩
    · decide
    · decide
    · exact (digit_spec d).2.2.1
  rw [hs, List.dropWhile_cons, hspace]
  rfl

theorem isneg_text : isneg n.text = (n.neg, n.unsignedText) := by
  unfold text
  split_ifs with hneg
  · rw [hneg]
    rfl
  · rw [Bool.not_eq_true] at hneg
    rw [hneg]
    obtain ⟨c, s, hs⟩ := List.exists_cons_of_ne_nil n.unsignedText_ne_nil
    have hsign : c ≠ '-' ∧ c ≠ '+' := by
      rcases n.mem_unsignedText (hs ▸ List.mem_cons_self) with rfl | ⟨d, rfl⟩
      · decide
      · exact ⟨(digit_spec d).2.2.2.1, (digit_spec d).2.2.2.2.1⟩
    rw [hs]
    unfold isneg
    split
    · rename_i heq
      exact absurd (List.cons.inj heq).1 hsign.1
    · rename_i heq
      exact absurd (List.cons.inj heq).1 hsign.2
    · rfl

theorem hex_unsignedText : hex n.unsignedText = false := by
  unfold hex
  split
  · rename_i c s hs
    rcases n.mem_unsignedText (hs ▸ List.mem_cons_of_mem _ List.mem_cons_self) with rfl | ⟨d, rfl⟩
    · decide
    · obtain ⟨-, -, -, -, -, hx, hX⟩ := digit_spec d
      exact decide_eq_false fun h => h.elim hx hX
  · rfl

end Numeral

/-- A numeral is read as an integer if it has no fraction and is one of 64 bits. -/
theorem l_str2int_text (n : Numeral) :
    l_str2int n.text =
      if n.fraction = none ∧ decimal 0 n.whole ≤ LUA_MAXINTEGER + n.neg.toNat then
        some (if n.neg then -(decimal 0 n.whole : ℤ) else decimal 0 n.whole)
      else none := by
  have hrest : ∀ c ∈ n.fractionText.head?, c.isDigit = false := by
    intro c hc
    unfold Numeral.fractionText at hc
    split at hc
    · cases hc
    · cases hc
      decide
  have hzero : 0 ≤ LUA_MAXINTEGER + n.neg.toNat := Nat.zero_le _
  have hread := decimals_digits true n.whole hrest hzero
  rw [l_str2int, n.dropWhile_text, n.isneg_text]
  dsimp only
  rw [n.hex_unsignedText, if_neg Bool.false_ne_true, Numeral.unsignedText, hread]
  by_cases hfits : decimal 0 n.whole ≤ LUA_MAXINTEGER + n.neg.toNat
  · rw [if_pos hfits]
    cases hfraction : n.fraction with
    | none =>
      have hwhole : n.whole ≠ [] := by
        rcases n.some_digit with hne | ⟨d, l, hsome⟩
        · exact hne
        · exact absurd (hfraction.symm.trans hsome) nofun
      have hempty : n.whole.isEmpty = false := List.isEmpty_eq_false_iff.mpr hwhole
      have hbmod : (if n.neg then -(decimal 0 n.whole : ℤ) else decimal 0 n.whole).bmod (2 ^ 64) =
          if n.neg then -(decimal 0 n.whole : ℤ) else decimal 0 n.whole := by
        rw [LUA_MAXINTEGER] at hfits
        cases hneg : n.neg
        · rw [hneg, Bool.toNat_false] at hfits
          exact Int.bmod_eq_of_le (by omega) (by omega)
        · rw [hneg, Bool.toNat_true] at hfits
          exact Int.bmod_eq_of_le (by norm_num; omega) (by norm_num; omega)
      simp only [Numeral.fractionText, hfraction, hempty, hfits, Bool.and_false, List.dropWhile_nil,
        ne_eq, not_true_eq_false, or_self, if_false, and_self, if_true, Bool.false_eq_true, hbmod]
    | some l =>
      have hdot : (n.fractionText.dropWhile isspace) ≠ [] := by
        rw [Numeral.fractionText, hfraction]
        exact List.cons_ne_nil _ _
      simp only [hdot, ne_eq, not_false_eq_true, or_true, if_true, reduceCtorEq, false_and,
        if_false]
  · rw [if_neg hfits, if_neg fun h => hfits h.2]

/-! ## Numbers -/

section Read

variable {F : Type} (lib : CLibrary F)

theorem l_str2d_text (n : Numeral) :
    l_str2d lib n.text = some (lib.nearest n.neg n.magnitude) := by
  have hmode : n.text.find? (fun c => c = '.' ∨ c = 'x' ∨ c = 'X' ∨ c = 'n' ∨ c = 'N') ≠ some 'n' ∧
      n.text.find? (fun c => c = '.' ∨ c = 'x' ∨ c = 'X' ∨ c = 'n' ∨ c = 'N') ≠ some 'N' := by
    constructor
    · exact fun h => n.notMem_text (by decide) (by decide) (by decide) (List.mem_of_find?_eq_some h)
    · exact fun h => n.notMem_text (by decide) (by decide) (by decide) (List.mem_of_find?_eq_some h)
  have hloc : l_str2dloc lib n.text = some (lib.nearest n.neg n.magnitude) := by
    rw [l_str2dloc, lib.strtod_text]
    rfl
  unfold l_str2d
  dsimp only
  rw [if_neg (not_or.mpr hmode), hloc]

theorem tonumber_text (n : Numeral) : tonumber lib n.text = some (n.number lib) := by
  rw [tonumber, l_str2int_text, Numeral.number]
  split_ifs with hint
  · rfl
  · rfl
  · rw [l_str2d_text]
    rfl

end Read

/-! ## Exact floats -/

/-- The value of digits. -/
def charValue (s : List Char) : ℕ := s.foldl (fun a c => a * 10 + (c.toNat - '0'.toNat)) 0

/-- The digits behind a dot. -/
def readFraction : List Char → List Char × List Char
  | '.' :: s => (s.takeWhile Char.isDigit, s.dropWhile Char.isDigit)
  | s => ([], s)

/-- The decimal numeral at the head of a text, with rationals for floats. -/
def readDecimal (s : List Char) : Option (ℚ × List Char) :=
  let (neg, s) := isneg s
  let whole := s.takeWhile Char.isDigit
  let (fraction, rest) := readFraction (s.dropWhile Char.isDigit)
  if whole = [] ∧ fraction = [] then none
  else
    let magnitude : ℚ := charValue whole + charValue fraction / 10 ^ fraction.length
    some (if neg then -magnitude else magnitude, rest)

theorem takeWhile_digits (l : List (Fin 10)) {rest : List Char}
    (hrest : ∀ c ∈ rest.head?, c.isDigit = false) :
    (l.map digit ++ rest).takeWhile Char.isDigit = l.map digit ∧
      (l.map digit ++ rest).dropWhile Char.isDigit = rest := by
  induction l with
  | nil =>
    cases rest with
    | nil => exact ⟨rfl, rfl⟩
    | cons c rest => simp [hrest c rfl]
  | cons d l ih => simp [(digit_spec d).1, ih.1, ih.2]

theorem charValue_digits (l : List (Fin 10)) : charValue (l.map digit) = decimal 0 l := by
  have hstep : (fun (a : ℕ) d => a * 10 + ((digit d).toNat - '0'.toNat)) =
      fun (a : ℕ) (d : Fin 10) => a * 10 + (d : ℕ) :=
    funext₂ fun a d => congrArg (a * 10 + ·) (digit_spec d).2.1
  rw [charValue, List.foldl_map, hstep]
  rfl

theorem readDecimal_text (n : Numeral) :
    readDecimal n.text = some (if n.neg then -n.magnitude else n.magnitude, []) := by
  have hend : ∀ c ∈ ([] : List Char).head?, c.isDigit = false := nofun
  rw [readDecimal, n.isneg_text]
  dsimp only
  cases hfraction : n.fraction with
  | none =>
    have hwhole : n.whole.map digit ≠ [] := by
      rcases n.some_digit with hne | ⟨d, l, hsome⟩
      · exact fun hnil => hne (List.map_eq_nil_iff.mp hnil)
      · exact absurd (hfraction.symm.trans hsome) nofun
    have htext : n.unsignedText = n.whole.map digit ++ [] := by
      rw [Numeral.unsignedText, Numeral.fractionText, hfraction]
    obtain ⟨htake, hdrop⟩ := takeWhile_digits n.whole hend
    rw [htext, htake, hdrop, readFraction, if_neg fun h => hwhole h.1, charValue_digits,
      Numeral.magnitude, hfraction]
    · simp [charValue]
    · nofun
  | some l =>
    have hne : ¬(n.whole.map digit = [] ∧ l.map digit = []) := by
      rw [List.map_eq_nil_iff, List.map_eq_nil_iff]
      rintro ⟨hwhole, rfl⟩
      rcases n.some_digit with hne | ⟨d, l, hsome⟩
      · exact hne hwhole
      · exact absurd (Option.some.inj (hfraction.symm.trans hsome)) nofun
    have htext : n.unsignedText = n.whole.map digit ++ '.' :: l.map digit := by
      rw [Numeral.unsignedText, Numeral.fractionText, hfraction]
    have hdot : ∀ c ∈ ('.' :: l.map digit).head?, c.isDigit = false := by
      rintro c ⟨⟩
      decide
    obtain ⟨htake, hdrop⟩ := takeWhile_digits n.whole hdot
    obtain ⟨htake', hdrop'⟩ := takeWhile_digits l hend
    rw [List.append_nil] at htake' hdrop'
    rw [htext, htake, hdrop, readFraction, htake', hdrop', if_neg hne, charValue_digits,
      charValue_digits, List.length_map, Numeral.magnitude, hfraction]

/-- A C library whose floats are exact. -/
def exact : CLibrary ℚ :=
  ⟨readDecimal, '.', fun neg magnitude => if neg then -magnitude else magnitude, readDecimal_text⟩

end GameServer.LuaNumber
