import Mathlib.Tactic

/-!
# Patterns of Lua

A place of a text is what is left of the text from there on. A pattern is matched item by item;
repetitions try the longest run first or, with `-`, the shortest, and go on to the next run when the
rest of the pattern does not match behind it. Position captures, anchors, `%b`, `%f` and references
to captures are not part of this development.
-/

namespace GameServer.LuaPattern

/-! ## Classes of characters -/

/-- A set keeps what stands between its brackets. -/
inductive Class
  | any
  | escaped (cl : Char)
  | set (body : List Char)
  | itself (c : Char)
  deriving DecidableEq

def isspace (c : Char) : Bool := c = ' ' ∨ 9 ≤ c.toNat ∧ c.toNat ≤ 13

def isgraph (c : Char) : Bool := 33 ≤ c.toNat ∧ c.toNat ≤ 126

def isxdigit (c : Char) : Bool := c.isDigit ∨ 'a' ≤ c.toLower ∧ c.toLower ≤ 'f'

/-- The classes of the C locale; a capital letter stands for the complement. -/
def match_class (c cl : Char) : Bool :=
  let res : Option Bool :=
    match cl.toLower with
    | 'a' => some c.isAlpha
    | 'c' => some (c.toNat < 32 ∨ c.toNat = 127)
    | 'd' => some c.isDigit
    | 'g' => some (isgraph c)
    | 'l' => some c.isLower
    | 'p' => some (isgraph c && !c.isAlphanum)
    | 's' => some (isspace c)
    | 'u' => some c.isUpper
    | 'w' => some c.isAlphanum
    | 'x' => some (isxdigit c)
    | 'z' => some (c.toNat = 0)
    | _ => none
  match res with
  | none => cl = c
  | some res => if cl.isLower then res else !res

/-- The loop over the body of a set. -/
def inBody (c : Char) : List Char → Bool
  | '%' :: cl :: body => match_class c cl || inBody c body
  | a :: '-' :: b :: body => decide (a ≤ c ∧ c ≤ b) || inBody c body
  | a :: body => a = c || inBody c body
  | [] => false

def matchbracketclass (c : Char) : List Char → Bool
  | '^' :: body => !inBody c body
  | body => inBody c body

def singlematch (c : Char) : Class → Bool
  | .any => true
  | .escaped cl => match_class c cl
  | .set body => matchbracketclass c body
  | .itself d => d = c

/-! ## Patterns -/

inductive Item
  | one (cl : Class)
  | optional (cl : Class)
  | star (cl : Class)
  | plus (cl : Class)
  | minus (cl : Class)
  | start_capture
  | end_capture
  deriving DecidableEq

/-- The body of a set and what comes behind it; the first character never ends it. -/
def setend : Bool → List Char → Option (List Char × List Char)
  | _, [] => none
  | _, ['%'] => none
  | _, '%' :: c :: p => (setend false p).map fun r => ('%' :: c :: r.1, r.2)
  | first, c :: p =>
      if c = ']' ∧ first = false then some ([], p)
      else (setend false p).map fun r => (c :: r.1, r.2)

/-- The class at the head of a pattern and what comes behind it. -/
def classend : List Char → Option (Class × List Char)
  | [] => none
  | ['%'] => none
  | '%' :: cl :: p => some (.escaped cl, p)
  | '[' :: '^' :: p => (setend true p).map fun r => (.set ('^' :: r.1), r.2)
  | '[' :: p => (setend true p).map fun r => (.set r.1, r.2)
  | '.' :: p => some (.any, p)
  | c :: p => some (.itself c, p)

def suffix (cl : Class) : List Char → Item × List Char
  | '?' :: p => (.optional cl, p)
  | '*' :: p => (.star cl, p)
  | '+' :: p => (.plus cl, p)
  | '-' :: p => (.minus cl, p)
  | p => (.one cl, p)

/-- The items of which this development gives no account. -/
def left_out : List Char → Bool
  | ['$'] => true
  | '(' :: ')' :: _ => true
  | '%' :: c :: _ => c = 'b' ∨ c = 'f' ∨ c.isDigit
  | _ => false

/-- The items of a pattern with `level` captures open. -/
def items : ℕ → ℕ → List Char → Option (List Item)
  | _, level, [] => if level = 0 then some [] else none
  | 0, _, _ :: _ => none
  | n + 1, level, c :: p =>
      if left_out (c :: p) then none
      else if c = '(' then (items n (level + 1) p).map (.start_capture :: ·)
      else if c = ')' then
        if level = 0 then none else (items n (level - 1) p).map (.end_capture :: ·)
      else do
        let (cl, p) ← classend (c :: p)
        let (item, p) := suffix cl p
        return item :: (← items n level p)

/-- The items of a pattern, none when it is malformed. -/
def compile (p : List Char) : Option (List Item) := items p.length 0 p

/-! ## Matching -/

section Expand

variable {α : Type} (single : Char → Bool) (rest : List Char → Option α)

/-- The longest run behind which the rest matches. -/
def max_expand : List Char → Option α
  | [] => rest []
  | c :: s => if single c then (max_expand s).or (rest (c :: s)) else rest (c :: s)

/-- The shortest run behind which the rest matches. -/
def min_expand : List Char → Option α
  | [] => rest []
  | c :: s => (rest (c :: s)).or (if single c then min_expand s else none)

variable {single rest} {run s : List Char} {r : α}

theorem max_expand_run (hrun : ∀ c ∈ run, single c = true)
    (hstop : ∀ c ∈ s.head?, single c = false) (hrest : rest s = some r) :
    max_expand single rest (run ++ s) = some r := by
  induction run with
  | nil =>
    cases s with
    | nil => exact hrest
    | cons c s =>
      rw [List.nil_append, max_expand, if_neg (by simp [hstop c rfl])]
      exact hrest
  | cons c run ih =>
    rw [List.cons_append, max_expand, if_pos (hrun c List.mem_cons_self),
      ih fun d hd => hrun d (List.mem_cons_of_mem c hd)]
    rfl

theorem min_expand_run (hrun : ∀ c ∈ run, single c = true)
    (hfail : ∀ c ∈ run, ∀ t, rest (c :: t) = none) (hrest : rest s = some r) :
    min_expand single rest (run ++ s) = some r := by
  induction run with
  | nil =>
    cases s with
    | nil => exact hrest
    | cons c s =>
      rw [List.nil_append, min_expand, hrest]
      rfl
  | cons c run ih =>
    rw [List.cons_append, min_expand, hfail c List.mem_cons_self, Option.none_or,
      if_pos (hrun c List.mem_cons_self)]
    exact ih (fun d hd => hrun d (List.mem_cons_of_mem c hd))
      fun d hd => hfail d (List.mem_cons_of_mem c hd)

end Expand

/-- A capture begins at a place; its length is known when it is closed. -/
structure Capture where
  init : List Char
  len : Option ℕ

/-- Closes the capture opened last; the latest comes first. -/
def close (s : List Char) : List Capture → List Capture
  | [] => []
  | cap :: caps =>
      if cap.len = none then { cap with len := some (cap.init.length - s.length) } :: caps
      else cap :: close s caps

/-- The place where the match ends, with the captures. -/
def matchAt : List Item → List Char → List Capture → Option (List Char × List Capture)
  | [], s, caps => some (s, caps)
  | .start_capture :: p, s, caps => matchAt p s (⟨s, none⟩ :: caps)
  | .end_capture :: p, s, caps => matchAt p s (close s caps)
  | .one _ :: _, [], _ => none
  | .one cl :: p, c :: s, caps => if singlematch c cl then matchAt p s caps else none
  | .optional _ :: p, [], caps => matchAt p [] caps
  | .optional cl :: p, c :: s, caps =>
      if singlematch c cl then (matchAt p s caps).or (matchAt p (c :: s) caps)
      else matchAt p (c :: s) caps
  | .star cl :: p, s, caps => max_expand (singlematch · cl) (fun s => matchAt p s caps) s
  | .plus _ :: _, [], _ => none
  | .plus cl :: p, c :: s, caps =>
      if singlematch c cl then max_expand (singlematch · cl) (fun s => matchAt p s caps) s
      else none
  | .minus cl :: p, s, caps => min_expand (singlematch · cl) (fun s => matchAt p s caps) s

/-- The captured texts; of a pattern without captures the whole match. -/
def push_captures (s e : List Char) : List Capture → List (List Char)
  | [] => [s.take (s.length - e.length)]
  | caps => caps.reverse.map fun cap => cap.init.take (cap.len.getD 0)

/-- A match at a place that does not end where the last one did. -/
def matchHere (p : List Item) (lastmatch : Option ℕ) (s : List Char) :
    Option (List (List Char) × List Char) :=
  match matchAt p s [] with
  | none => none
  | some (e, caps) => if lastmatch = some e.length then none else some (push_captures s e caps, e)

/-- The next match, with the place where it ends. -/
def gmatch_aux (p : List Item) (lastmatch : Option ℕ) :
    List Char → Option (List (List Char) × List Char)
  | [] => matchHere p lastmatch []
  | c :: s => (matchHere p lastmatch (c :: s)).or (gmatch_aux p lastmatch s)

/-- At most `n` matches, one behind the other. -/
def rounds (p : List Item) : ℕ → Option ℕ → List Char → List (List (List Char))
  | 0, _, _ => []
  | n + 1, lastmatch, s =>
      match gmatch_aux p lastmatch s with
      | none => []
      | some (caps, e) => caps :: rounds p n (some e.length) e

/-- The captures of the rounds of a loop over `string.gmatch(s, p)`. -/
def gmatch (s p : List Char) : Option (List (List (List Char))) :=
  (compile p).map fun p => rounds p (s.length + 1) none s

/-- The captures with which `string.gsub(s, p, f)` calls its function; no more than `#s + 1`. -/
def gsub (s p : List Char) : Option (List (List (List Char))) :=
  if p.head? = some '^' then none
  else (compile p).map fun p => rounds p (s.length + 1) none s

example : gmatch "a=1, b=2".toList "(%a+)=(.-)%d".toList =
    some [[['a'], []], [['b'], []]] := by decide

/-! ## The places of a match -/

section Length

variable {α : Type} {single : Char → Bool} {rest : List Char → Option α} {r : α}

/-- What a repetition finds, the rest of the pattern finds behind some run. -/
theorem max_expand_eq_some {s : List Char} (h : max_expand single rest s = some r) :
    ∃ t, t.length ≤ s.length ∧ rest t = some r := by
  induction s with
  | nil => exact ⟨[], le_rfl, h⟩
  | cons c s ih =>
    rw [max_expand] at h
    split_ifs at h
    · rcases Option.or_eq_some_iff.mp h with hlong | ⟨-, hhere⟩
      · obtain ⟨t, hle, ht⟩ := ih hlong
        exact ⟨t, hle.trans (Nat.le_succ _), ht⟩
      · exact ⟨c :: s, le_rfl, hhere⟩
    · exact ⟨c :: s, le_rfl, h⟩

theorem min_expand_eq_some {s : List Char} (h : min_expand single rest s = some r) :
    ∃ t, t.length ≤ s.length ∧ rest t = some r := by
  induction s with
  | nil => exact ⟨[], le_rfl, h⟩
  | cons c s ih =>
    rw [min_expand] at h
    rcases Option.or_eq_some_iff.mp h with hhere | ⟨-, hlong⟩
    · exact ⟨c :: s, le_rfl, hhere⟩
    · split_ifs at hlong
      obtain ⟨t, hle, ht⟩ := ih hlong
      exact ⟨t, hle.trans (Nat.le_succ _), ht⟩

end Length

theorem matchAt_length {p : List Item} {s e : List Char} {caps caps' : List Capture}
    (h : matchAt p s caps = some (e, caps')) : e.length ≤ s.length := by
  induction p generalizing s caps with
  | nil =>
    cases h
    exact le_rfl
  | cons item p ih =>
    cases item with
    | start_capture => exact ih h
    | end_capture => exact ih h
    | one cl =>
      cases s with
      | nil => cases h
      | cons c s =>
        rw [matchAt] at h
        split_ifs at h
        exact (ih h).trans (Nat.le_succ _)
    | optional cl =>
      cases s with
      | nil => exact ih h
      | cons c s =>
        rw [matchAt] at h
        split_ifs at h
        · rcases Option.or_eq_some_iff.mp h with hone | ⟨-, hnone⟩
          · exact (ih hone).trans (Nat.le_succ _)
          · exact ih hnone
        · exact ih h
    | star cl =>
      obtain ⟨t, hle, ht⟩ := max_expand_eq_some h
      exact (ih ht).trans hle
    | plus cl =>
      cases s with
      | nil => cases h
      | cons c s =>
        rw [matchAt] at h
        split_ifs at h
        obtain ⟨t, hle, ht⟩ := max_expand_eq_some h
        exact (ih ht).trans (hle.trans (Nat.le_succ _))
    | minus cl =>
      obtain ⟨t, hle, ht⟩ := min_expand_eq_some h
      exact (ih ht).trans hle

theorem matchHere_eq_some {p : List Item} {last : Option ℕ} {s e : List Char}
    {caps : List (List Char)} (h : matchHere p last s = some (caps, e)) :
    e.length ≤ s.length ∧ last ≠ some e.length := by
  unfold matchHere at h
  split at h
  · cases h
  · rename_i e' caps' hmatch
    split_ifs at h with hlast
    cases h
    exact ⟨matchAt_length hmatch, hlast⟩

theorem gmatch_aux_eq_some {p : List Item} {last : Option ℕ} {s e : List Char}
    {caps : List (List Char)} (h : gmatch_aux p last s = some (caps, e)) :
    e.length ≤ s.length ∧ last ≠ some e.length := by
  induction s with
  | nil => exact matchHere_eq_some h
  | cons c s ih =>
    rcases Option.or_eq_some_iff.mp h with hhere | ⟨-, hlater⟩
    · exact matchHere_eq_some hhere
    · exact ⟨(ih hlater).1.trans (Nat.le_succ _), (ih hlater).2⟩

/-- How many places are left at which a match may end. -/
def ends (last : Option ℕ) (s : List Char) : ℕ :=
  if last = some s.length then s.length else s.length + 1

theorem ends_lt {p : List Item} {last : Option ℕ} {s e : List Char} {caps : List (List Char)}
    (h : gmatch_aux p last s = some (caps, e)) : ends (some e.length) e < ends last s := by
  obtain ⟨hle, hne⟩ := gmatch_aux_eq_some h
  rw [ends, if_pos rfl, ends]
  split_ifs with hlast
  · exact hle.lt_of_ne fun heq => hne (heq ▸ hlast)
  · exact Nat.lt_succ_of_le hle

/-- The matches are all found: more rounds find no more. -/
theorem rounds_eq_of_ends_le (p : List Item) {m n : ℕ} {last : Option ℕ} {s : List Char}
    (hm : ends last s ≤ m) (hn : ends last s ≤ n) : rounds p m last s = rounds p n last s := by
  induction m generalizing n last s with
  | zero =>
    cases n with
    | zero => rfl
    | succ n =>
      cases hnext : gmatch_aux p last s with
      | none => rw [rounds, rounds, hnext]
      | some r => exact absurd ((ends_lt hnext).trans_le hm) (Nat.not_lt_zero _)
  | succ m ih =>
    cases hnext : gmatch_aux p last s with
    | none => cases n <;> rw [rounds, rounds, hnext]
    | some r =>
      have hlt := ends_lt hnext
      cases n with
      | zero => exact absurd (hlt.trans_le hn) (Nat.not_lt_zero _)
      | succ n =>
        rw [rounds, rounds, hnext]
        exact congrArg _ (ih (Nat.le_of_lt_succ (hlt.trans_le hm))
          (Nat.le_of_lt_succ (hlt.trans_le hn)))

/-- The loop over `gmatch` ends within the rounds that are counted. -/
theorem gmatch_eq_rounds {s : List Char} {n : ℕ} (hn : s.length < n) (pat : List Char) :
    gmatch s pat = (compile pat).map fun p => rounds p n none s := by
  have hends : ends none s = s.length + 1 := if_neg (Option.some_ne_none _).symm
  refine congrArg (Option.map · (compile pat)) (funext fun p => ?_)
  exact rounds_eq_of_ends_le p hends.le (hends.trans_le hn)

/-! ## Looking for the next match -/

/-- Where the pattern matches at no place of a text, the text is passed over. -/
theorem gmatch_aux_append {p : List Item} {last : Option ℕ} {gap : List Char}
    (h : ∀ c ∈ gap, ∀ t, matchAt p (c :: t) [] = none) (s : List Char) :
    gmatch_aux p last (gap ++ s) = gmatch_aux p last s := by
  induction gap with
  | nil => rfl
  | cons c gap ih =>
    rw [List.cons_append, gmatch_aux, matchHere, h c List.mem_cons_self, Option.none_or]
    exact ih fun d hd => h d (List.mem_cons_of_mem c hd)

theorem rounds_append {p : List Item} {last : Option ℕ} {gap : List Char} (n : ℕ)
    (h : ∀ c ∈ gap, ∀ t, matchAt p (c :: t) [] = none) (s : List Char) :
    rounds p n last (gap ++ s) = rounds p n last s := by
  cases n with
  | zero => rfl
  | succ n => rw [rounds, rounds, gmatch_aux_append h]

theorem gmatch_aux_of_matchAt {p : List Item} {last : Option ℕ} {s e : List Char}
    {caps : List Capture} (h : matchAt p s [] = some (e, caps)) (hlast : last ≠ some e.length) :
    gmatch_aux p last s = some (push_captures s e caps, e) := by
  have hhere : matchHere p last s = some (push_captures s e caps, e) := by
    rw [matchHere, h]
    exact if_neg hlast
  cases s with
  | nil => exact hhere
  | cons c s =>
    rw [gmatch_aux, hhere]
    rfl

end GameServer.LuaPattern
