import GameServer.LuaNumber
import GameServer.PackageDraws

/-!
# The texts of skills

`string.parserskillStr` looks for brackets, in each for a name with a colon and values behind it,
and splits the values at commas. The affects of a text in brackets, with other text around them,
come back in order with their names and numbers.
-/

namespace GameServer.SkillText

open LuaPattern LuaNumber
open PackageDraws (split split_intercalate)

/-! ## Splitting -/

/-- `string.split(s, delim)`, by the calls that `string.gsub` makes. -/
def string_split (s delim : List Char) : Option (List (List Char)) :=
  (gsub s (['[', '^'] ++ delim ++ [']', '+'])).map fun calls => calls.filterMap List.head?

/-- The pattern of other characters than a comma. -/
def others : List Item := [.plus (.set ['^', ','])]

theorem compile_others : compile ['[', '^', ',', ']', '+'] = some others := by decide

theorem singlematch_others (c : Char) : singlematch c (.set ['^', ',']) = decide (c ≠ ',') := by
  simp [singlematch, matchbracketclass, inBody, eq_comm]

/-- The next match is the next run of other characters. -/
theorem gmatch_aux_others {last : Option ℕ} {c : Char} {run rest : List Char} (hc : c ≠ ',')
    (hrun : ',' ∉ run) (hrest : ∀ d ∈ rest.head?, d = ',') (hlast : last ≠ some rest.length) :
    gmatch_aux others last (c :: run ++ rest) = some ([c :: run], rest) := by
  have hmatch : matchAt others (c :: run ++ rest) [] = some (rest, []) := by
    rw [others, List.cons_append, matchAt, singlematch_others, decide_eq_true hc, if_pos rfl]
    refine max_expand_run (fun d hd => ?_) (fun d hd => ?_) rfl
    · rw [singlematch_others]
      exact decide_eq_true fun heq => hrun (heq ▸ hd)
    · rw [singlematch_others]
      exact decide_eq_false fun hne => hne (hrest d hd)
  rw [gmatch_aux_of_matchAt hmatch hlast, push_captures, List.length_append, Nat.add_sub_cancel,
    List.take_left]

theorem split_comma (s : List Char) : split ',' (',' :: s) = split ',' s := by
  rw [split, ← List.nil_append (',' :: s),
    List.splitOn_append_cons_self_of_not_mem List.not_mem_nil,
    List.filter_cons_of_neg (by simp)]
  rfl

theorem split_run {run rest : List Char} (hne : run ≠ []) (hrun : ',' ∉ run)
    (hrest : ∀ d ∈ rest.head?, d = ',') : split ',' (run ++ rest) = run :: split ',' rest := by
  cases rest with
  | nil =>
    rw [split, List.append_nil, List.splitOn_eq_singleton hrun, List.filter_cons_of_pos (by simpa)]
    rfl
  | cons c rest =>
    rw [hrest c rfl, split_comma, split, List.splitOn_append_cons_self_of_not_mem hrun,
      List.filter_cons_of_pos (by simpa)]
    rfl

theorem exists_run (s : List Char) :
    ∃ run rest, s = run ++ rest ∧ ',' ∉ run ∧ ∀ d ∈ rest.head?, d = ',' := by
  induction s with
  | nil => exact ⟨[], [], rfl, List.not_mem_nil, nofun⟩
  | cons c s ih =>
    by_cases hc : c = ','
    · refine ⟨[], c :: s, rfl, List.not_mem_nil, ?_⟩
      rintro d ⟨⟩
      exact hc
    · obtain ⟨run, rest, rfl, hrun, hrest⟩ := ih
      refine ⟨c :: run, rest, rfl, fun hmem => ?_, hrest⟩
      exact (List.mem_cons.mp hmem).elim (fun heq => hc heq.symm) hrun

/-- The runs of other characters are the pieces that are not empty. -/
theorem rounds_others {n : ℕ} {last : Option ℕ} {s : List Char} (hn : s.length < n)
    (hlast : ∀ k ∈ last, s.length ≤ k) :
    (rounds others n last s).filterMap List.head? = split ',' s := by
  induction hs : s.length using Nat.strong_induction_on generalizing n last s with
  | _ len ih =>
    subst hs
    obtain ⟨n, rfl⟩ := Nat.exists_eq_succ_of_ne_zero (Nat.ne_zero_of_lt hn)
    cases s with
    | nil => rfl
    | cons c s =>
      rw [List.length_cons] at hn hlast ih
      by_cases hc : c = ','
      · subst hc
        have hgap : ∀ d ∈ [','], ∀ t, matchAt others (d :: t) [] = none := by
          intro d hd t
          rw [List.mem_singleton.mp hd]
          rfl
        rw [show ',' :: s = [','] ++ s from rfl, rounds_append _ hgap, List.singleton_append,
          split_comma]
        exact ih s.length (Nat.lt_succ_self _) (by omega)
          (fun k hk => (Nat.le_succ _).trans (hlast k hk)) rfl
      · obtain ⟨run, rest, rfl, hrun, hrest⟩ := exists_run s
        rw [List.length_append] at hn hlast ih
        have hne : last ≠ some rest.length := by
          rintro rfl
          have := hlast _ rfl
          omega
        have hcrun : ',' ∉ c :: run := fun hmem =>
          (List.mem_cons.mp hmem).elim (fun heq => hc heq.symm) hrun
        rw [← List.cons_append, rounds, gmatch_aux_others hc hrun hrest hne,
          split_run (List.cons_ne_nil c run) hcrun hrest]
        refine congrArg (List.cons (c :: run)) ?_
        refine ih rest.length (by omega) (by omega) ?_ rfl
        rintro k ⟨⟩
        exact le_rfl

theorem string_split_comma (s : List Char) : string_split s [','] = some (split ',' s) := by
  have hcompile : compile (['[', '^'] ++ [','] ++ [']', '+']) = some others := compile_others
  have hfirst : ∀ k ∈ (none : Option ℕ), s.length ≤ k := nofun
  have hruns := rounds_others (Nat.lt_succ_self s.length) hfirst
  rw [string_split, gsub, if_neg (by decide), hcompile, Option.map_some, Option.map_some, hruns]

/-! ## The parser -/

inductive Entry (F : Type)
  | text (s : List Char)
  | number (x : Number F)
  deriving DecidableEq

section Parser

variable {F : Type} (lib : CLibrary F)

/-- The loop over the values; nothing is inserted for a value that is no number. -/
def values (valtb : List (List Char)) : List (Entry F) :=
  (valtb.filter (· ≠ [])).filterMap fun val => (tonumber lib val).map .number

/-- One round of the inner loop. -/
def readVals (data : List (Entry F)) : List (List Char) → Option (List (Entry F))
  | [tp, vals] => do
      let valtb ← string_split (vals ++ [',']) [',']
      return data ++ .text tp :: values lib valtb
  | _ => none

/-- One round of the outer loop. -/
def readAffect : List (List Char) → Option (List (Entry F))
  | [v] => do (← gmatch v "(%a+)%:(.+)".toList).foldlM (readVals lib) []
  | _ => none

def parserskillStr (s : List Char) : Option (List (List (Entry F))) := do
  (← gmatch s "%[(.-)%]".toList).mapM (readAffect lib)

end Parser

/-! ## The patterns -/

/-- The pattern of brackets. -/
def brackets : List Item :=
  [.one (.escaped '['), .start_capture, .minus .any, .end_capture, .one (.escaped ']')]

/-- The pattern of a name with its values. -/
def named : List Item :=
  [.start_capture, .plus (.escaped 'a'), .end_capture, .one (.escaped ':'), .start_capture,
    .plus .any, .end_capture]

theorem compile_brackets : compile "%[(.-)%]".toList = some brackets := by decide

theorem compile_named : compile "(%a+)%:(.+)".toList = some named := by decide

theorem singlematch_letter (c : Char) : singlematch c (.escaped 'a') = c.isAlpha := rfl

theorem matchAt_brackets_none {c : Char} (hc : c ≠ '[') (t : List Char) :
    matchAt brackets (c :: t) [] = none :=
  if_neg fun h => hc (of_decide_eq_true h).symm

/-- From a bracket the match goes to the first closing one. -/
theorem matchAt_brackets {v : List Char} (hv : ']' ∉ v) (rest : List Char) :
    matchAt brackets ('[' :: v ++ ']' :: rest) [] =
      some (rest, [⟨v ++ ']' :: rest, some v.length⟩]) := by
  have hopen : singlematch '[' (.escaped '[') = true := rfl
  have hclose : singlematch ']' (.escaped ']') = true := rfl
  rw [brackets, List.cons_append, matchAt, if_pos hopen, matchAt, matchAt]
  refine min_expand_run (fun c _ => rfl) (fun c hc t => ?_) ?_
  · have hne : singlematch c (.escaped ']') = false := decide_eq_false fun heq => hv (heq ▸ hc)
    rw [matchAt, matchAt, hne, if_neg Bool.false_ne_true]
  · have hlen : (v ++ ']' :: rest).length - (']' :: rest).length = v.length := by
      rw [List.length_append, Nat.add_sub_cancel]
    rw [matchAt, close, if_pos rfl, hlen, matchAt, if_pos hclose, matchAt]

theorem gmatch_aux_brackets {last : Option ℕ} {v rest : List Char} (hv : ']' ∉ v)
    (hlast : last ≠ some rest.length) :
    gmatch_aux brackets last ('[' :: v ++ ']' :: rest) = some ([v], rest) := by
  rw [gmatch_aux_of_matchAt (matchAt_brackets hv rest) hlast]
  simp [push_captures]

/-- A name with a colon and values is matched as a whole. -/
theorem matchAt_named {c : Char} {name : List Char} {d : Char} {vals : List Char}
    (hletters : ∀ c' ∈ c :: name, c'.isAlpha = true) :
    matchAt named (c :: name ++ ':' :: d :: vals) [] = some ([],
      [⟨d :: vals, some (vals.length + 1)⟩, ⟨c :: name ++ ':' :: d :: vals,
        some (name.length + 1)⟩]) := by
  rw [named, matchAt, List.cons_append, matchAt, singlematch_letter,
    if_pos (hletters c List.mem_cons_self)]
  refine max_expand_run (fun c' hc' => ?_) (fun c' hc' => ?_) ?_
  · exact hletters c' (List.mem_cons_of_mem c hc')
  · cases hc'
    decide
  · have hcolon : singlematch ':' (.escaped ':') = true := rfl
    have hany : singlematch d .any = true := rfl
    have hlen : (c :: (name ++ ':' :: d :: vals)).length - (':' :: d :: vals).length =
        name.length + 1 := by
      rw [← List.cons_append, List.length_append, Nat.add_sub_cancel, List.length_cons]
    rw [matchAt, close, if_pos rfl, hlen, matchAt, if_pos hcolon, matchAt, matchAt, if_pos hany]
    rw [← List.append_nil vals]
    refine max_expand_run (fun c' _ => rfl) (fun c' hc' => ?_) ?_
    · cases hc'
    rw [matchAt, close, if_pos rfl, matchAt]
    rfl

/-- Of a name with a colon and values the match is the whole text. -/
theorem gmatch_named {name vals : List Char} (hname : name ≠ [])
    (hletters : ∀ c ∈ name, c.isAlpha = true) (hvals : vals ≠ []) :
    gmatch (name ++ ':' :: vals) "(%a+)%:(.+)".toList = some [[name, vals]] := by
  obtain ⟨c, name, rfl⟩ := List.exists_cons_of_ne_nil hname
  obtain ⟨d, vals, rfl⟩ := List.exists_cons_of_ne_nil hvals
  have hnext : gmatch_aux named none (c :: name ++ ':' :: d :: vals) =
      some ([c :: name, d :: vals], []) := by
    rw [gmatch_aux_of_matchAt (matchAt_named hletters) (Option.some_ne_none _).symm]
    simp [push_captures]
  have hend (n : ℕ) : rounds named n (some 0) [] = [] := by
    cases n <;> rfl
  rw [gmatch, compile_named, Option.map_some, rounds, hnext]
  exact congrArg (fun l => some ([c :: name, d :: vals] :: l)) (hend _)

/-! ## Affects -/

/-- An affect with its name and values. -/
structure Affect where
  name : List Char
  name_ne : name ≠ []
  letters : ∀ c ∈ name, c.isAlpha = true
  values : List Numeral
  values_ne : values ≠ []

namespace Affect

variable (a : Affect)

def valuesText : List Char := [','].intercalate (a.values.map Numeral.text)

def text : List Char := a.name ++ ':' :: a.valuesText

/-- The name and the numbers. -/
def data {F : Type} (lib : CLibrary F) : List (Entry F) :=
  .text a.name :: a.values.map fun n => .number (n.number lib)

end Affect

/-- A text free of brackets. -/
def Gap : Type := {s : List Char // '[' ∉ s ∧ ']' ∉ s}

/-- The affects in brackets, each behind some other text, and other text at the end. -/
def affectsText : List (Gap × Affect) → Gap → List Char
  | [], gap => gap.1
  | (gap, a) :: l, last => gap.1 ++ ('[' :: a.text ++ ']' :: affectsText l last)

theorem notMem_intercalate {c sep : Char} (hsep : c ≠ sep) {l : List (List Char)}
    (hl : ∀ t ∈ l, c ∉ t) : c ∉ [sep].intercalate l := by
  induction l with
  | nil => exact List.not_mem_nil
  | cons t l ih =>
    have ht : c ∉ t := hl t List.mem_cons_self
    have htail := ih fun t' ht' => hl t' (List.mem_cons_of_mem t ht')
    by_cases hnil : l = []
    · rw [hnil, List.intercalate_singleton]
      exact ht
    · rw [List.intercalate_cons_of_ne_nil hnil]
      simp [ht, hsep, htail]

theorem bracket_notMem_text (a : Affect) : ']' ∉ a.text := by
  have hname : ']' ∉ a.name := fun hmem => absurd (a.letters _ hmem) (by decide)
  have hvals : ']' ∉ a.valuesText := by
    refine notMem_intercalate (by decide) fun t ht => ?_
    obtain ⟨n, -, rfl⟩ := List.mem_map.mp ht
    exact n.notMem_text (by decide) (by decide) (by decide)
  simp [Affect.text, hname, hvals]

theorem valuesText_ne_nil (a : Affect) : a.valuesText ≠ [] := by
  obtain ⟨n, l, hn⟩ := List.exists_cons_of_ne_nil a.values_ne
  rw [Affect.valuesText, hn, List.map_cons]
  by_cases hnil : l.map Numeral.text = []
  · rw [hnil, List.intercalate_singleton]
    exact n.text_ne_nil
  · rw [List.intercalate_cons_of_ne_nil hnil]
    simp [n.text_ne_nil]

/-- The values with one more comma are split into the numerals. -/
theorem split_valuesText (a : Affect) :
    split ',' (a.valuesText ++ [',']) = a.values.map Numeral.text := by
  have hcomma : ∀ t ∈ a.values.map Numeral.text, ',' ∉ t := by
    intro t ht
    obtain ⟨n, -, rfl⟩ := List.mem_map.mp ht
    exact n.notMem_text (by decide) (by decide) (by decide)
  have hne : ∀ t ∈ a.values.map Numeral.text, t ≠ [] := by
    intro t ht
    obtain ⟨n, -, rfl⟩ := List.mem_map.mp ht
    exact n.text_ne_nil
  have hsplit := split_intercalate hcomma hne
  rw [split] at hsplit
  rw [split, List.splitOn_append_cons_self, List.filter_append, Affect.valuesText, hsplit]
  simp

variable {F : Type} (lib : CLibrary F)

theorem values_text (l : List Numeral) :
    values lib (l.map Numeral.text) = l.map fun n => .number (n.number lib) := by
  have hfilter : (l.map Numeral.text).filter (· ≠ []) = l.map Numeral.text := by
    rw [List.filter_eq_self]
    intro t ht
    obtain ⟨n, -, rfl⟩ := List.mem_map.mp ht
    exact decide_eq_true n.text_ne_nil
  have htonumber : (fun n : Numeral => (tonumber lib n.text).map Entry.number) =
      fun n => some (Entry.number (n.number lib)) :=
    funext fun n => by rw [tonumber_text, Option.map_some]
  rw [values, hfilter, List.filterMap_map, Function.comp_def, htonumber, List.filterMap_eq_map']

theorem readAffect_text (a : Affect) : readAffect lib [a.text] = some (a.data lib) := by
  have hread : readVals lib [] [a.name, a.valuesText] = some (a.data lib) := by
    rw [readVals, string_split_comma, split_valuesText, Option.bind_eq_bind, Option.bind_some,
      values_text]
    rfl
  rw [readAffect, Affect.text, gmatch_named a.name_ne a.letters (valuesText_ne_nil a),
    Option.bind_eq_bind, Option.bind_some, List.foldlM_cons, hread]
  rfl

theorem Gap.passed (gap : Gap) : ∀ c ∈ gap.1, ∀ t, matchAt brackets (c :: t) [] = none := by
  intro c hc t
  refine matchAt_brackets_none ?_ t
  rintro rfl
  exact gap.2.1 hc

/-- The brackets enclose the affects, one after the other. -/
theorem rounds_affectsText {n : ℕ} {last : Option ℕ} (l : List (Gap × Affect)) (gap : Gap)
    (hn : (affectsText l gap).length < n) (hlast : ∀ k ∈ last, (affectsText l gap).length ≤ k) :
    rounds brackets n last (affectsText l gap) = l.map fun e => [e.2.text] := by
  induction l generalizing n last with
  | nil =>
    obtain ⟨n, rfl⟩ := Nat.exists_eq_succ_of_ne_zero (Nat.ne_zero_of_lt hn)
    have hrounds : rounds brackets (n + 1) last (gap.1 ++ []) = rounds brackets (n + 1) last [] :=
      rounds_append (n + 1) gap.passed []
    rw [List.append_nil] at hrounds
    exact hrounds
  | cons e l ih =>
    obtain ⟨before, a⟩ := e
    obtain ⟨n, rfl⟩ := Nat.exists_eq_succ_of_ne_zero (Nat.ne_zero_of_lt hn)
    have hlen : (affectsText l gap).length < (affectsText ((before, a) :: l) gap).length := by
      simp only [affectsText, List.length_append, List.length_cons]
      omega
    have hne : last ≠ some (affectsText l gap).length := by
      rintro rfl
      exact absurd (hlast _ rfl) hlen.not_ge
    rw [affectsText, rounds_append _ before.passed, rounds,
      gmatch_aux_brackets (bracket_notMem_text a) hne, List.map_cons]
    refine congrArg (List.cons [a.text]) (ih (by omega) ?_)
    rintro k ⟨⟩
    exact le_rfl

/-- The affects come back in order. -/
theorem parserskillStr_affectsText (l : List (Gap × Affect)) (gap : Gap) :
    parserskillStr lib (affectsText l gap) = some (l.map fun e => e.2.data lib) := by
  have hgmatch : gmatch (affectsText l gap) "%[(.-)%]".toList =
      some (l.map fun e => [e.2.text]) := by
    rw [gmatch, compile_brackets, Option.map_some, rounds_affectsText l gap (Nat.lt_succ_self _)
      fun k hk => absurd hk (Option.not_mem_none k)]
  rw [parserskillStr, hgmatch, Option.bind_eq_bind, Option.bind_some, List.mapM_map,
    Function.comp_def]
  simp only [readAffect_text]
  exact List.mapM_pure

def damage : Affect where
  name := "damage".toList
  name_ne := by decide
  letters := List.all_eq_true.mp rfl
  values := [⟨false, [1], none, .inl nofun⟩, ⟨true, [2], some [5], .inl nofun⟩]
  values_ne := nofun

/-- Two affects of the same kind behind some text. -/
theorem parserskillStr_affectsText_damage :
    parserskillStr exact "on hit [damage:1,-2.5],[damage:1,-2.5]".toList =
      some [[.text "damage".toList, .number (.int 1), .number (.flt (-5 / 2))],
        [.text "damage".toList, .number (.int 1), .number (.flt (-5 / 2))]] := by
  have hdata : damage.data exact =
      [.text "damage".toList, .number (.int 1), .number (.flt (-5 / 2))] := by
    decide +kernel
  have hparse := parserskillStr_affectsText exact
    [(⟨"on hit ".toList, by decide⟩, damage), (⟨",".toList, by decide⟩, damage)] ⟨[], by decide⟩
  rw [List.map_cons, List.map_cons, hdata] at hparse
  exact hparse

end GameServer.SkillText
