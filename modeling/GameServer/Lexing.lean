import Mathlib.Tactic

/-!
# Reading words, marks and quoted literals

A reader of a line goes through it one character at a time. Words are separated by blanks or marks;
a literal goes from one quote to the next that is not escaped. A text that was put between quotes is
read back as it is exactly when it is `Clean`.
-/

namespace GameServer.Lexing

/-- The characters of a language. An escape that gives two characters stands for itself. -/
structure Lexer where
  quote : Char
  word : Char → Bool
  mark : Char → Bool
  /-- May stand in a literal. -/
  raw : Char → Bool
  unescape : Char → Option (List Char)
  quote_ne : quote ≠ '\\' ∧ quote ≠ ' '
  mark_ne (c : Char) (h : mark c = true) : c ≠ ' ' ∧ c ≠ quote ∧ word c = false
  word_ne (c : Char) (h : word c = true) : c ≠ ' ' ∧ c ≠ quote
  unescape_quote : unescape quote = some [quote]
  unescape_length (c : Char) (out : List Char) (h : unescape c = some out) :
    out.length ≤ 1 ∨ out = ['\\', c]

inductive Item
  | word (w : List Char)
  | literal (v : List Char)
  deriving DecidableEq

inductive Token
  | item (i : Item)
  | mark (c : Char)
  deriving DecidableEq

/-- Items with a mark between them. -/
def separated (d : Char) : List Item → List Token
  | [] => []
  | [i] => [.item i]
  | i :: j :: items => .item i :: .mark d :: separated d (j :: items)

/-- Reads items with the mark `d` between them up to the mark `e`. -/
def readItems (d e : Char) : List Token → Option (List Item × List Token)
  | .item i :: .mark c :: rest =>
      if c = d then (readItems d e rest).map fun r => (i :: r.1, r.2)
      else if c = e then some ([i], rest)
      else none
  | _ => none

theorem readItems_eq_some_iff {d e : Char} (hde : d ≠ e) {ts rest : List Token}
    {items : List Item} : readItems d e ts = some (items, rest) ↔
      items ≠ [] ∧ ts = separated d items ++ .mark e :: rest := by
  constructor
  · intro h
    induction ts using readItems.induct d e generalizing items with
    | case1 i rest' ih =>
        rw [readItems, if_pos rfl] at h
        obtain ⟨⟨items', rest''⟩, hread, heq⟩ := Option.map_eq_some_iff.mp h
        cases heq
        obtain ⟨hne, rfl⟩ := ih hread
        obtain ⟨j, items', rfl⟩ := List.exists_cons_of_ne_nil hne
        exact ⟨List.cons_ne_nil _ _, rfl⟩
    | case2 i rest' h' =>
        rw [readItems, if_neg h', if_pos rfl] at h
        cases h
        exact ⟨List.cons_ne_nil _ _, rfl⟩
    | case3 i c rest' h' h'' =>
        rw [readItems, if_neg h', if_neg h''] at h
        cases h
    | case4 ts hts =>
        rw [readItems] at h
        · cases h
        · exact hts
  · rintro ⟨hne, rfl⟩
    induction items with
    | nil => exact absurd rfl hne
    | cons i items ih =>
        cases items with
        | nil =>
            change readItems d e (.item i :: .mark e :: rest) = _
            rw [readItems, if_neg (Ne.symm hde), if_pos rfl]
        | cons j items =>
            change readItems d e (.item i :: .mark d :: (separated d (j :: items) ++ _)) = _
            rw [readItems, if_pos rfl, ih (List.cons_ne_nil _ _)]
            rfl

inductive Mode
  | between
  | word (w : List Char)
  | quoted (v : List Char)
  | escaped (v : List Char)

namespace Lexer

variable (L : Lexer)

/-- The first character of what comes next. -/
def enter (c : Char) : Option (List Token × Mode) :=
  if c = ' ' then some ([], .between)
  else if c = L.quote then some ([], .quoted [])
  else if L.mark c then some ([.mark c], .between)
  else if L.word c then some ([], .word [c])
  else none

def step : Mode → Char → Option (List Token × Mode)
  | .between, c => L.enter c
  | .word w, c =>
      if L.word c then some ([], .word (w ++ [c]))
      else (L.enter c).map fun r => (.item (.word w) :: r.1, r.2)
  | .quoted v, c =>
      if c = L.quote then some ([.item (.literal v)], .between)
      else if c = '\\' then some ([], .escaped v)
      else if L.raw c then some ([], .quoted (v ++ [c]))
      else none
  | .escaped v, c => (L.unescape c).map fun out => ([], .quoted (v ++ out))

/-- A literal has to end. -/
def finish : Mode → Option (List Token)
  | .between => some []
  | .word w => some [.item (.word w)]
  | .quoted _ => none
  | .escaped _ => none

def lex : Mode → List Char → Option (List Token)
  | m, [] => finish m
  | m, c :: rest => (L.step m c).bind fun r => (lex r.2 rest).map (r.1 ++ ·)

/-- The tokens of a text. -/
def tokens (text : List Char) : Option (List Token) := L.lex .between text

def IsWord (w : List Char) : Prop := w ≠ [] ∧ ∀ c ∈ w, L.word c = true

instance (w : List Char) : Decidable (L.IsWord w) :=
  have : Decidable (∀ c ∈ w, L.word c = true) := List.decidableBAll _ w
  inferInstanceAs (Decidable (w ≠ [] ∧ _))

/-- No quote, and no escape but one that stands for itself. -/
def clean : List Char → Bool
  | [] => true
  | c :: rest =>
      if c = L.quote then false
      else if c = '\\' then
        match rest with
        | [] => false
        | d :: rest => decide (L.unescape d = some ['\\', d]) && clean rest
      else L.raw c && clean rest

def Clean (v : List Char) : Prop := L.clean v = true

instance (v : List Char) : Decidable (L.Clean v) := inferInstanceAs (Decidable (_ = true))

/-- An item as it is written. -/
def text : Item → List Char
  | .word w => w
  | .literal v => L.quote :: v ++ [L.quote]

/-- What reads back as the item. -/
def Fine : Item → Prop
  | .word w => L.IsWord w
  | .literal v => L.Clean v

variable {L} {m : Mode} {c d : Char} {w v l rest : List Char} {ts : List Token}

theorem lex_cons : L.lex m (c :: rest) =
    (L.step m c).bind fun r => (L.lex r.2 rest).map (r.1 ++ ·) := rfl

theorem lex_blank : L.lex .between (' ' :: l) = L.lex .between l := by
  rw [lex_cons, step, enter, if_pos rfl]
  exact Option.map_id'

theorem enter_mark (h : L.mark c = true) : L.enter c = some ([.mark c], .between) := by
  obtain ⟨hblank, hquote, -⟩ := L.mark_ne c h
  rw [enter, if_neg hblank, if_neg hquote, if_pos h]

theorem lex_mark (h : L.mark c = true) :
    L.lex .between (c :: l) = (L.lex .between l).map (.mark c :: ·) := by
  rw [lex_cons, step, enter_mark h]
  rfl

/-! ## Words -/

theorem lex_inside (hw : ∀ c ∈ w, L.word c = true) :
    L.lex (.word v) (w ++ l) = L.lex (.word (v ++ w)) l := by
  induction w generalizing v with
  | nil => rw [List.append_nil, List.nil_append]
  | cons c w ih =>
      rw [List.cons_append, lex_cons, step, if_pos (hw c List.mem_cons_self), Option.bind_some]
      change (L.lex (.word (v ++ [c])) (w ++ l)).map ([] ++ ·) = _
      rw [ih fun c hc => hw c (List.mem_cons_of_mem _ hc), List.append_assoc]
      exact Option.map_id'

theorem lex_word (hw : L.IsWord w) (hd : L.word d = false) :
    L.lex .between (w ++ d :: l) = (L.lex .between (d :: l)).map (.item (.word w) :: ·) := by
  obtain ⟨hne, hall⟩ := hw
  obtain ⟨c, w, rfl⟩ := List.exists_cons_of_ne_nil hne
  have hc := hall c List.mem_cons_self
  obtain ⟨hblank, hquote⟩ := L.word_ne c hc
  have hmark : L.mark c ≠ true := fun hm => by
    have := (L.mark_ne c hm).2.2
    rw [hc] at this
    cases this
  rw [List.cons_append, lex_cons, step, enter, if_neg hblank, if_neg hquote, if_neg hmark,
    if_pos hc, Option.bind_some]
  change (L.lex (.word [c]) (w ++ d :: l)).map ([] ++ ·) = _
  rw [lex_inside fun c hc => hall c (List.mem_cons_of_mem _ hc), lex_cons, lex_cons, step, step,
    if_neg (by rw [hd]; decide)]
  cases L.enter d with
  | none => rfl
  | some r =>
      change Option.map _ (Option.map _ (L.lex r.2 l)) = Option.map _ (Option.map _ (L.lex r.2 l))
      rw [Option.map_map, Option.map_map]
      rfl

/-- What the mode has read so far is part of a word. -/
def Mode.Sound (L : Lexer) : Mode → Prop
  | .word w => L.IsWord w
  | _ => True

theorem enter_word {r : List Token × Mode} (h : L.enter c = some r) :
    Mode.Sound L r.2 ∧ ∀ w, .item (.word w) ∉ r.1 := by
  unfold enter at h
  split_ifs at h with _ _ _ hw
  · cases h
    exact ⟨trivial, by simp⟩
  · cases h
    exact ⟨trivial, by simp⟩
  · cases h
    exact ⟨trivial, by simp⟩
  · cases h
    exact ⟨⟨by simp, by simpa using hw⟩, by simp⟩

theorem step_word {r : List Token × Mode} (hm : Mode.Sound L m) (h : L.step m c = some r) :
    Mode.Sound L r.2 ∧ ∀ w, .item (.word w) ∈ r.1 → L.IsWord w := by
  cases m with
  | between =>
      obtain ⟨hsound, hnone⟩ := enter_word h
      exact ⟨hsound, fun w hw => absurd hw (hnone w)⟩
  | word w =>
      dsimp only [step] at h
      split_ifs at h with hc
      · cases h
        refine ⟨⟨by simp, fun c' hc' => ?_⟩, by simp⟩
        rcases List.mem_append.mp hc' with hc' | hc'
        · exact hm.2 c' hc'
        · exact List.mem_singleton.mp hc' ▸ hc
      · obtain ⟨r, hr, rfl⟩ := Option.map_eq_some_iff.mp h
        obtain ⟨hsound, hnone⟩ := enter_word hr
        refine ⟨hsound, fun w' hw' => ?_⟩
        rcases List.mem_cons.mp hw' with hw' | hw'
        · cases hw'
          exact hm
        · exact absurd hw' (hnone w')
  | quoted v =>
      dsimp only [step] at h
      split_ifs at h <;> cases h <;> exact ⟨trivial, by simp⟩
  | escaped v =>
      obtain ⟨out, -, rfl⟩ := Option.map_eq_some_iff.mp h
      exact ⟨trivial, by simp⟩

/-- The words of a text consist of word characters. -/
theorem isWord_of_lex (hm : Mode.Sound L m) (h : L.lex m l = some ts) (hw : .item (.word w) ∈ ts) :
    L.IsWord w := by
  induction l generalizing m ts with
  | nil =>
      cases m with
      | between =>
          cases h
          cases hw
      | word w' =>
          cases h
          rw [List.mem_singleton, Token.item.injEq, Item.word.injEq] at hw
          exact hw ▸ hm
      | quoted v => cases h
      | escaped v => cases h
  | cons c l ih =>
      obtain ⟨r, hr, h⟩ := Option.bind_eq_some_iff.mp h
      obtain ⟨ts', hts, rfl⟩ := Option.map_eq_some_iff.mp h
      obtain ⟨hsound, hwords⟩ := step_word hm hr
      rcases List.mem_append.mp hw with hw | hw
      · exact hwords w hw
      · exact ih hsound hts hw

/-! ## Literals -/

theorem clean_quote : L.clean (L.quote :: rest) = false := by
  cases rest <;> rw [clean, if_pos rfl]

theorem clean_escape : L.clean ('\\' :: d :: rest) =
    (decide (L.unescape d = some ['\\', d]) && L.clean rest) := by
  rw [clean, if_neg (Ne.symm L.quote_ne.1), if_pos rfl]

theorem clean_raw (hquote : c ≠ L.quote) (hescape : c ≠ '\\') :
    L.clean (c :: rest) = (L.raw c && L.clean rest) := by
  cases rest <;> simp [clean, hquote, hescape]

theorem clean_of_all (h : v.all (fun c => c ≠ L.quote && c ≠ '\\' && L.raw c) = true) :
    L.Clean v := by
  induction v with
  | nil => rfl
  | cons c v ih =>
      rw [List.all_cons, Bool.and_eq_true] at h
      obtain ⟨hc, hv⟩ := h
      simp only [Bool.and_eq_true, decide_eq_true_eq] at hc
      obtain ⟨⟨hquote, hescape⟩, hraw⟩ := hc
      rw [Clean, clean_raw hquote hescape, hraw, Bool.true_and]
      exact ih hv

/-- A character that means nothing takes a text apart. -/
theorem clean_append_cons (hquote : c ≠ L.quote) (hescape : c ≠ '\\') (hraw : L.raw c = true)
    (hplain : L.unescape c ≠ some ['\\', c]) :
    L.clean (v ++ c :: w) = (L.clean v && L.clean w) := by
  have hc : L.clean (c :: w) = L.clean w := by rw [clean_raw hquote hescape, hraw, Bool.true_and]
  induction v using Lexer.clean.induct L with
  | case1 => rw [List.nil_append, hc, clean, Bool.true_and]
  | case2 rest => rw [List.cons_append, clean_quote, clean_quote, Bool.false_and]
  | case3 h =>
      change L.clean ('\\' :: c :: w) = _
      rw [clean_escape, decide_eq_false hplain, Bool.false_and, clean, if_neg h, if_pos rfl,
        Bool.false_and]
  | case4 d rest h ih =>
      rw [List.cons_append, List.cons_append, clean_escape, clean_escape, ih, Bool.and_assoc]
  | case5 d rest hquote' hescape' ih =>
      rw [List.cons_append, clean_raw hquote' hescape', clean_raw hquote' hescape', ih,
        Bool.and_assoc]

theorem lex_close : L.lex (.quoted w) (L.quote :: l) =
    (L.lex .between l).map (.item (.literal w) :: ·) := by
  rw [lex_cons, step, if_pos rfl]
  rfl

theorem lex_escape : L.lex (.quoted w) ('\\' :: d :: l) =
    (L.unescape d).bind fun out => L.lex (.quoted (w ++ out)) l := by
  rw [lex_cons, step, if_neg (Ne.symm L.quote_ne.1), if_pos rfl, Option.bind_some, lex_cons, step]
  change Option.map ([] ++ ·) _ = _
  cases L.unescape d with
  | none => rfl
  | some out =>
      change Option.map ([] ++ ·) (Option.map ([] ++ ·) (L.lex (.quoted (w ++ out)) l)) = _
      rw [Option.map_map]
      exact Option.map_id'

theorem lex_raw (hquote : c ≠ L.quote) (hescape : c ≠ '\\') : L.lex (.quoted w) (c :: l) =
    if L.raw c then L.lex (.quoted (w ++ [c])) l else none := by
  rw [lex_cons, step, if_neg hquote, if_neg hescape]
  split_ifs
  · exact Option.map_id'
  · rfl

theorem lex_quoted (hv : L.Clean v) (w : List Char) :
    L.lex (.quoted w) (v ++ L.quote :: l) =
      (L.lex .between l).map (.item (.literal (w ++ v)) :: ·) := by
  unfold Clean at hv
  induction v using Lexer.clean.induct L generalizing w with
  | case1 =>
      rw [List.nil_append, lex_close, List.append_nil]
  | case2 rest =>
      rw [clean_quote] at hv
      cases hv
  | case3 h =>
      rw [clean, if_neg h, if_pos rfl] at hv
      cases hv
  | case4 d rest h ih =>
      rw [clean_escape, Bool.and_eq_true, decide_eq_true_iff] at hv
      rw [List.cons_append, List.cons_append, lex_escape, hv.1, Option.bind_some, ih hv.2,
        List.append_assoc]
      rfl
  | case5 c rest hquote hescape ih =>
      rw [clean_raw hquote hescape, Bool.and_eq_true] at hv
      rw [List.cons_append, lex_raw hquote hescape, if_pos hv.1, ih hv.2, List.append_assoc]
      rfl

/-- How a literal is read: `v` out of `source`. An escape makes the text shorter unless it stands
for itself, and a quote that does not end the literal is part of it. -/
structure Reads (L : Lexer) (source v : List Char) : Prop where
  quotes : source.count L.quote ≤ v.count L.quote
  shorter : v.length ≤ source.length
  same : v.length = source.length → v = source ∧ L.Clean source

theorem Reads.escape {source out : List Char} (h : Reads L source v)
    (hout : L.unescape d = some out) :
    Reads L ('\\' :: d :: source) (out ++ v) := by
  have hquote : [d].count L.quote ≤ out.count L.quote := by
    by_cases hd : d = L.quote
    · subst hd
      rw [L.unescape_quote, Option.some.injEq] at hout
      exact hout ▸ le_rfl
    · rw [List.count_eq_zero_of_not_mem (by simpa using Ne.symm hd)]
      exact Nat.zero_le _
  have hfirst : ('\\' :: d :: source).count L.quote = [d].count L.quote + source.count L.quote := by
    rw [List.count_cons_of_ne (Ne.symm L.quote_ne.1), List.count_cons, List.count_singleton]
    omega
  have hshorter := h.shorter
  have hquotes := h.quotes
  refine ⟨?_, ?_, fun hlength => ?_⟩
  · rw [hfirst, List.count_append]
    omega
  · rw [List.length_append, List.length_cons, List.length_cons]
    rcases L.unescape_length d out hout with hone | rfl
    · omega
    · rw [List.length_cons, List.length_singleton]
      omega
  · rw [List.length_append, List.length_cons, List.length_cons] at hlength
    rcases L.unescape_length d out hout with hone | rfl
    · omega
    · rw [List.length_cons, List.length_singleton] at hlength
      obtain ⟨rfl, hclean⟩ := h.same (by omega)
      refine ⟨rfl, ?_⟩
      rw [Clean, clean_escape, hout, hclean]
      simp

theorem Reads.raw {source : List Char} (h : Reads L source v) (hquote : c ≠ L.quote)
    (hescape : c ≠ '\\') (hraw : L.raw c = true) : Reads L (c :: source) (c :: v) := by
  refine ⟨?_, Nat.succ_le_succ h.shorter, fun hlength => ?_⟩
  · rw [List.count_cons_of_ne hquote, List.count_cons_of_ne hquote]
    exact h.quotes
  · obtain ⟨rfl, hclean⟩ := h.same (Nat.succ.inj hlength)
    refine ⟨rfl, ?_⟩
    rw [Clean, clean_raw hquote hescape, hraw, hclean]
    rfl

/-- A literal that was opened is read up to some quote. -/
theorem reads_of_lex (h : L.lex (.quoted w) l = some ts) : ∃ source v rest ts',
    l = source ++ L.quote :: rest ∧ ts = .item (.literal (w ++ v)) :: ts' ∧
      L.lex .between rest = some ts' ∧ Reads L source v := by
  induction l using Lexer.clean.induct L generalizing w ts with
  | case1 => cases h
  | case2 l =>
      rw [lex_close] at h
      obtain ⟨ts', hts, rfl⟩ := Option.map_eq_some_iff.mp h
      refine ⟨[], [], l, ts', rfl, by rw [List.append_nil], hts,
        ⟨le_rfl, le_rfl, fun _ => ⟨rfl, rfl⟩⟩⟩
  | case3 hne =>
      rw [lex_cons, step, if_neg hne, if_pos rfl] at h
      cases h
  | case4 d l hne ih =>
      rw [lex_escape] at h
      obtain ⟨out, hout, h⟩ := Option.bind_eq_some_iff.mp h
      obtain ⟨source, v, rest, ts', rfl, rfl, hts, hreads⟩ := ih h
      exact ⟨'\\' :: d :: source, out ++ v, rest, ts', rfl, by rw [List.append_assoc], hts,
        hreads.escape hout⟩
  | case5 c l hquote hescape ih =>
      rw [lex_raw hquote hescape] at h
      split_ifs at h with hraw
      obtain ⟨source, v, rest, ts', rfl, rfl, hts, hreads⟩ := ih h
      exact ⟨c :: source, c :: v, rest, ts', rfl, by rw [List.append_assoc]; rfl, hts,
        hreads.raw hquote hescape hraw⟩

/-- A literal that is read as what was put between the quotes has nothing to be escaped, and ends at
the quote that was put behind it. -/
theorem clean_of_lex (h : L.lex (.quoted []) (v ++ L.quote :: l) = some
    (.item (.literal v) :: ts)) :
    L.Clean v ∧ L.lex .between l = some ts := by
  obtain ⟨source, v', rest, ts', hl, hts, hrest, hreads⟩ := reads_of_lex h
  rw [List.nil_append, List.cons.injEq, Token.item.injEq, Item.literal.injEq] at hts
  obtain ⟨rfl, rfl⟩ := hts
  have hlength : v.length = source.length := by
    refine le_antisymm hreads.shorter (not_lt.mp fun hlt => ?_)
    -- otherwise the quote behind the text was read as a part of it
    obtain ⟨extra, hextra⟩ : (v ++ [L.quote]) <+: source := by
      have hwhole : (v ++ [L.quote]) <+: v ++ L.quote :: l := ⟨l, by simp⟩
      refine List.prefix_of_prefix_length_le hwhole ⟨_, hl.symm⟩ ?_
      rw [List.length_append, List.length_singleton]
      exact hlt
    have hquotes := hreads.quotes
    rw [← hextra, List.count_append, List.count_append, List.count_singleton_self] at hquotes
    omega
  obtain ⟨rfl, hclean⟩ := hreads.same hlength
  have hsame := List.append_cancel_left hl
  rw [List.cons.injEq] at hsame
  exact ⟨hclean, hsame.2 ▸ hrest⟩

/-! ## Lists of tokens -/

theorem lex_item_iff {i : Item} (hd : L.mark d = true) :
    L.lex .between (L.text i ++ d :: l) = some (.item i :: .mark d :: ts) ↔
      L.Fine i ∧ L.lex .between l = some ts := by
  have hword : L.word d = false := (L.mark_ne d hd).2.2
  have hstep : (L.lex .between (d :: l)).map (.item i :: ·) = some (.item i :: .mark d :: ts) ↔
      L.lex .between l = some ts := by
    rw [lex_mark hd, Option.map_map, Option.map_eq_some_iff]
    simp
  cases i with
  | word w =>
      refine ⟨fun h => ?_, fun ⟨hw, h⟩ => ?_⟩
      · have hw : L.IsWord w := isWord_of_lex (m := .between) trivial h List.mem_cons_self
        exact ⟨hw, hstep.mp ((lex_word hw hword).symm.trans h)⟩
      · exact (lex_word hw hword).trans (hstep.mpr h)
  | literal v =>
      have hopen : L.lex .between (L.text (.literal v) ++ d :: l) =
          L.lex (.quoted []) (v ++ L.quote :: d :: l) := by
        rw [text, List.append_assoc, List.cons_append, lex_cons, step, enter,
          if_neg L.quote_ne.2, if_pos rfl, List.cons_append, List.nil_append]
        exact Option.map_id'
      rw [hopen]
      refine ⟨fun h => ?_, fun ⟨hv, h⟩ => ?_⟩
      · obtain ⟨hv, hrest⟩ := clean_of_lex h
        rw [lex_mark hd] at hrest
        obtain ⟨ts', hts, heq⟩ := Option.map_eq_some_iff.mp hrest
        rw [List.cons.injEq] at heq
        exact ⟨hv, heq.2 ▸ hts⟩
      · rw [lex_quoted hv, List.nil_append]
        exact hstep.mpr h

/-- Items with a mark between them. -/
def joined (L : Lexer) (d : Char) : List Item → List Char
  | [] => []
  | [i] => L.text i
  | i :: j :: items => L.text i ++ d :: joined L d (j :: items)

theorem joined_cons (d : Char) (i : Item) (items : List Item) :
    L.joined d (i :: items) = L.text i ++ items.flatMap fun j => d :: L.text j := by
  induction items generalizing i with
  | nil => simp [joined]
  | cons j items ih => rw [joined, ih, List.flatMap_cons, List.cons_append]

theorem lex_word_iff (hw : L.IsWord w) (hd : L.word d = false) :
    L.lex .between (w ++ d :: l) = some (.item (.word w) :: ts) ↔
      L.lex .between (d :: l) = some ts := by
  rw [lex_word hw hd, Option.map_eq_some_iff]
  simp

theorem lex_mark_iff (hc : L.mark c = true) :
    L.lex .between (c :: l) = some (.mark c :: ts) ↔ L.lex .between l = some ts := by
  rw [lex_mark hc, Option.map_eq_some_iff]
  simp

theorem lex_joined_iff {e : Char} {items : List Item} (hd : L.mark d = true) (he : L.mark e = true)
    (hne : items ≠ []) :
    L.lex .between (L.joined d items ++ e :: l) = some (separated d items ++ .mark e :: ts) ↔
      (∀ i ∈ items, L.Fine i) ∧ L.lex .between l = some ts := by
  induction items with
  | nil => exact absurd rfl hne
  | cons i items ih =>
      cases items with
      | nil =>
          rw [joined, separated, List.singleton_append, lex_item_iff he]
          simp
      | cons j items =>
          rw [joined, separated, List.append_assoc, List.cons_append, List.cons_append,
            List.cons_append, lex_item_iff hd, ih (List.cons_ne_nil _ _),
            List.forall_mem_cons (a := i), and_assoc]

end Lexer

end GameServer.Lexing
