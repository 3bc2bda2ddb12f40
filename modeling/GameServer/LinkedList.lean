import GameServer.DoublyLinked
import Mathlib.Tactic

/-!
# The list container

A list is a table with its nodes under integer keys: a node in front gets the key above the first
one, a node at the end the key below the last one. Indexing nil and calling nil are errors, so an
operation gives nothing when it raises one, and a loop gives nothing when its rounds do not suffice.
-/

namespace GameServer.LinkedList

open DoublyLinked

structure State (V : Type) where
  nodes : Nodes ℤ V
  first : ℤ
  last : ℤ
  size : ℕ

variable {V : Type}

def new : State V := ⟨empty, 0, 0, 0⟩

/-! ## Operations -/

def pushFront (list : State V) (value : V) : Option (State V) :=
  if list.size = 0 then
    some { list with
      nodes := Function.update list.nodes list.first (some ⟨value, some list.last, none⟩)
      size := list.size + 1 }
  else do
    let first := list.first
    let key := list.first + 1
    let nodes := Function.update list.nodes key (some ⟨value, some first, none⟩)
    let nodes ← setP nodes first (some key)
    return { list with nodes, first := key, size := list.size + 1 }

def pushBack (list : State V) (value : V) : Option (State V) :=
  if list.size = 0 then
    some { list with
      nodes := Function.update list.nodes list.last (some ⟨value, none, some list.first⟩)
      size := list.size + 1 }
  else do
    let last := list.last
    let key := list.last - 1
    let nodes := Function.update list.nodes key (some ⟨value, none, some last⟩)
    let nodes ← setN nodes last (some key)
    return { list with nodes, last := key, size := list.size + 1 }

def popFront (list : State V) : Option (State V × V) := do
  let node ← list.nodes list.first
  if list.size = 1 then
    return (⟨erase list.nodes list.first, 0, 0, 0⟩, node.v)
  let nodes := erase list.nodes list.first
  let nextfirstkey ← node.N
  let nodes ← setP nodes nextfirstkey none
  return ({ list with nodes, first := nextfirstkey, size := list.size - 1 }, node.v)

def popBack (list : State V) : Option (State V × V) := do
  let node ← list.nodes list.last
  if list.size = 1 then
    return (⟨erase list.nodes list.last, 0, 0, 0⟩, node.v)
  let nodes := erase list.nodes list.last
  let prvlastkey ← node.P
  let nodes ← setN nodes prvlastkey none
  return ({ list with nodes, last := prvlastkey, size := list.size - 1 }, node.v)

/-- What `erasebyvalue` and `erasebykey` do with the node that they have found. -/
def eraseNode (list : State V) (pos : ℤ) : Option (State V) :=
  if list.size = 1 then some ⟨erase list.nodes pos, 0, 0, 0⟩
  else do
    let node ← list.nodes pos
    match node.P, node.N with
    | none, nextkey =>
        let nextkey ← nextkey
        let nodes ← setP list.nodes nextkey none
        return { list with nodes := erase nodes pos, first := nextkey, size := list.size - 1 }
    | some prevkey, none =>
        let nodes ← setN list.nodes prevkey none
        return { list with nodes := erase nodes pos, last := prevkey, size := list.size - 1 }
    | some prevkey, some nextkey =>
        let nodes ← setN list.nodes prevkey (some nextkey)
        let nodes ← setP nodes nextkey (some prevkey)
        return { list with nodes := erase nodes pos, size := list.size - 1 }

section Loops

/- The function of the global name `log`; none where no such function is defined. -/
variable (log : Option Unit)

/-- The loop of `erasebykey`; it gives none when it has gone past the end. -/
def findKey (nodes : Nodes ℤ V) (key : ℤ) : ℕ → ℤ → Option (Option ℤ)
  | 0, _ => none
  | n + 1, pos =>
      if pos = key then some (some pos)
      else do
        let node ← nodes pos
        log
        match node.N with
        | none => return none
        | some pos => findKey nodes key n pos

def erasebykey (n : ℕ) (list : State V) (key : ℤ) : Option (State V × Option ℤ) :=
  if list.size = 0 then some (list, none)
  else do
    log
    match ← findKey log list.nodes key n list.first with
    | none => return (list, some 0)
    | some pos => (eraseNode list pos).map (·, some 1)

/-- The rounds of `View`. -/
def viewFrom (nodes : Nodes ℤ V) : ℕ → Option ℤ → Option Unit
  | 0, _ => none
  | _ + 1, none => some ()
  | n + 1, some pos => do
      let node ← nodes pos
      log
      viewFrom nodes n node.N

def View (n : ℕ) (list : State V) : Option Unit :=
  if list.size = 0 then log
  else do
    log
    viewFrom log list.nodes n (some list.first)

variable [DecidableEq V]

/-- The loop of `erasebyvalue`; the value behind the end is read before the end is noticed. -/
def findValue (nodes : Nodes ℤ V) (value : V) : ℕ → ℤ → V → Option (Option ℤ)
  | 0, _, _ => none
  | n + 1, pos, posvalue =>
      if posvalue = value then some (some pos)
      else do
        let node ← nodes pos
        let next ← node.N.bind nodes
        log
        match node.N with
        | none => return none
        | some pos => findValue nodes value n pos next.v

def erasebyvalue (n : ℕ) (list : State V) (value : V) : Option (State V × Option ℤ) :=
  if list.size = 0 then some (list, none)
  else do
    let node ← list.nodes list.first
    log
    match ← findValue log list.nodes value n list.first node.v with
    | none => return (list, some 0)
    | some pos => (eraseNode list pos).map (·, some 1)

end Loops

/-! ## Lists with their links -/

/-- The list that holds entries from first to last, with the links `P` and `N` at the ends. -/
def linked (P N : Option ℤ) (l : List (ℤ × V)) : State V :=
  ⟨chain empty P N l, (firstKey l).getD 0, (lastKey l).getD 0, l.length⟩

section Spec

variable {P N : Option ℤ} {l l' : List (ℤ × V)} {e f : ℤ × V} {v : V}

theorem linked_nil : linked P N ([] : List (ℤ × V)) = new := rfl

theorem linked_cons : linked P N (e :: l) =
    ⟨chain empty P N (e :: l), e.1, (lastKey (e :: l)).getD 0, l.length + 1⟩ := rfl

theorem linked_snoc : linked P N (l ++ [e]) =
    ⟨chain empty P N (l ++ [e]), (firstKey (l ++ [e])).getD 0, e.1, l.length + 1⟩ := by
  rw [linked, lastKey_append, List.length_append]
  rfl

theorem lastKey_cons_cons : lastKey (e :: f :: l) = lastKey (f :: l) := by
  rw [lastKey, List.getLast?_cons_cons]
  rfl

theorem lastKey_behind {g : ℤ × V} : lastKey (l ++ f :: g :: l') = lastKey (l ++ g :: l') := by
  simp only [lastKey, List.getLast?_append, List.getLast?_cons_cons]

theorem firstKey_snoc : firstKey (l ++ [e] ++ l') = firstKey (l ++ [e]) := by
  cases l <;> rfl

theorem pushFront_cons :
    pushFront (linked P N (e :: l)) v = some (linked none N ((e.1 + 1, v) :: e :: l)) := by
  have hlink := link_first (P := P) (N := N) (e := (e.1 + 1, v)) (f := e) (l := l) (by simp) none
  rw [pushFront, linked_cons, if_neg (Nat.succ_ne_zero _)]
  dsimp only at hlink ⊢
  rw [hlink, linked_cons, lastKey_cons_cons]
  rfl

theorem pushBack_snoc (h : (keys (l ++ [e] ++ [(e.1 - 1, v)])).Nodup) :
    pushBack (linked P N (l ++ [e])) v = some (linked P none (l ++ [e] ++ [(e.1 - 1, v)])) := by
  have hlink := link_last (P := P) (N := N) h none
  rw [pushBack, linked_snoc, if_neg (Nat.succ_ne_zero _)]
  dsimp only at hlink ⊢
  rw [hlink, linked_snoc, firstKey_snoc, List.length_append]
  rfl

theorem chain_first : chain empty P N (e :: l) e.1 = some ⟨e.2, (firstKey l).or N, P⟩ :=
  chain_self (l := []) List.not_mem_nil

theorem chain_last (h : e.1 ∉ keys l) :
    chain empty P N (l ++ [e]) e.1 = some ⟨e.2, N, (lastKey l).or P⟩ := chain_self h

theorem popFront_single : popFront (linked P N [e]) = some (new, e.2) := by
  rw [popFront, linked_cons]
  dsimp only
  rw [chain_first, Option.bind_eq_bind, Option.bind_some, List.length_nil,
    if_pos (Nat.zero_add 1), erase_first List.not_mem_nil]
  rfl

theorem popFront_cons (h : (keys (e :: f :: l)).Nodup) :
    popFront (linked P N (e :: f :: l)) = some (linked none N (f :: l), e.2) := by
  have he : e.1 ∉ keys (f :: l) := notMem_behind (l := []) h
  rw [popFront, linked_cons]
  dsimp only
  rw [chain_first, Option.bind_eq_bind, Option.bind_some,
    if_neg (by rw [List.length_cons]; omega), erase_first he, firstKey_cons, Option.some_or,
    Option.bind_eq_bind, Option.bind_some, setP_chain, lastKey_cons_cons, linked_cons]
  rfl

theorem popBack_single : popBack (linked P N [e]) = some (new, e.2) := by
  have hlast : (lastKey [e]).getD 0 = e.1 := rfl
  rw [popBack, linked_cons, hlast]
  dsimp only
  rw [chain_first, Option.bind_eq_bind, Option.bind_some, List.length_nil,
    if_pos (Nat.zero_add 1), erase_first List.not_mem_nil]
  rfl

theorem popBack_snoc (h : (keys (l ++ [e] ++ [f])).Nodup) :
    popBack (linked P N (l ++ [e] ++ [f])) = some (linked P none (l ++ [e]), f.2) := by
  have hf : f.1 ∉ keys (l ++ [e]) := notMem_before h
  have he : e.1 ∉ keys l := notMem_before (keys_append .. ▸ h).of_append_left
  rw [popBack, linked_snoc]
  dsimp only
  rw [chain_last hf, Option.bind_eq_bind, Option.bind_some,
    if_neg (by rw [List.length_append, List.length_singleton]; omega), erase_last hf,
    lastKey_append, Option.some_or, Option.bind_eq_bind, Option.bind_some, setN_chain he,
    firstKey_snoc, linked_snoc, List.length_append]
  rfl

/-! ## Taking a node out -/

theorem eraseNode_single : eraseNode (linked P N [e]) e.1 = some new := by
  rw [eraseNode, linked_cons, List.length_nil, if_pos (Nat.zero_add 1),
    erase_first List.not_mem_nil]
  rfl

theorem eraseNode_first (h : (keys (e :: f :: l)).Nodup) :
    eraseNode (linked none N (e :: f :: l)) e.1 = some (linked none N (f :: l)) := by
  obtain ⟨nodes, hset, herase⟩ := unlink_first (P := none) (N := N) h none
  rw [eraseNode, linked_cons]
  dsimp only
  rw [if_neg (by rw [List.length_cons]; omega), chain_first, Option.bind_eq_bind,
    Option.bind_some]
  dsimp only
  rw [firstKey_cons, Option.some_or, Option.bind_eq_bind, Option.bind_some, hset,
    Option.bind_eq_bind, Option.bind_some, herase, lastKey_cons_cons]
  rfl

theorem eraseNode_last (h : (keys (l ++ [e] ++ [f])).Nodup) :
    eraseNode (linked P none (l ++ [e] ++ [f])) f.1 = some (linked P none (l ++ [e])) := by
  obtain ⟨nodes, hset, herase⟩ := unlink_last (P := P) (N := none) h none
  rw [eraseNode, linked_snoc]
  dsimp only
  rw [if_neg (by rw [List.length_append, List.length_singleton]; omega),
    chain_last (notMem_before h), Option.bind_eq_bind, Option.bind_some, lastKey_append]
  dsimp only [Option.some_or]
  rw [hset, Option.bind_eq_bind, Option.bind_some, herase, firstKey_snoc, linked_snoc,
    List.length_append]
  rfl

theorem eraseNode_between {g : ℤ × V} (h : (keys (l ++ [e] ++ f :: g :: l')).Nodup) :
    eraseNode (linked P N (l ++ [e] ++ f :: g :: l')) f.1 =
      some (linked P N (l ++ [e] ++ g :: l')) := by
  obtain ⟨nodes, nodes', hset, hset', herase⟩ := unlink (P := P) (N := N) h
  have hsize : (l ++ [e] ++ f :: g :: l').length = (l ++ [e] ++ g :: l').length + 1 := by
    simp only [List.length_append, List.length_cons]
    omega
  have hsize' : (l ++ [e] ++ g :: l').length + 1 ≠ 1 := by
    rw [List.length_append, List.length_cons]
    omega
  rw [eraseNode, linked, hsize]
  dsimp only
  rw [if_neg hsize', chain_self (notMem_before h), Option.bind_eq_bind, Option.bind_some,
    lastKey_append]
  dsimp only [Option.some_or, firstKey_cons]
  rw [hset, Option.bind_eq_bind, Option.bind_some, hset', Option.bind_some, herase, linked,
    firstKey_snoc, firstKey_snoc, lastKey_behind]
  rfl

/-- A node is taken out as it should unless it is at an end where the link leads on. -/
theorem eraseNode_linked (h : (keys (l ++ e :: l')).Nodup) (hfirst : l = [] → l' ≠ [] → P = none)
    (hlast : l' = [] → l ≠ [] → N = none) :
    eraseNode (linked P N (l ++ e :: l')) e.1 = some (linked P N (l ++ l')) := by
  rcases List.eq_nil_or_concat' l with rfl | ⟨l, a, rfl⟩
  · cases l' with
    | nil => exact eraseNode_single
    | cons b l' =>
      rw [hfirst rfl (List.cons_ne_nil b l')]
      exact eraseNode_first h
  · cases l' with
    | nil =>
      rw [hlast rfl (by simp), List.append_nil]
      exact eraseNode_last h
    | cons b l' => exact eraseNode_between h

/-- A node with links to both sides goes without a change of where the list begins and ends. -/
theorem eraseNode_open {list list' : State V} {pos prevkey nextkey : ℤ} (hsize : list.size ≠ 1)
    (hnode : list.nodes pos = some ⟨v, some nextkey, some prevkey⟩)
    (herase : eraseNode list pos = some list') :
    list'.nodes pos = none ∧ list'.first = list.first ∧ list'.last = list.last := by
  rw [eraseNode, if_neg hsize, hnode, Option.bind_eq_bind, Option.bind_some] at herase
  obtain ⟨nodes, -, herase⟩ := Option.bind_eq_some_iff.mp herase
  obtain ⟨nodes', -, herase⟩ := Option.bind_eq_some_iff.mp herase
  cases herase
  exact ⟨Function.update_self .., rfl, rfl⟩

end Spec

/-! ## Loops over the nodes -/

section Search

variable {log : Option Unit} {nodes : Nodes ℤ V} {N : Option ℤ} {l l' : List (ℤ × V)}
  {e : ℤ × V} {key pos : ℤ} {value posvalue : V} {m n : ℕ}

theorem findKey_mono {r : Option ℤ} (h : findKey log nodes key n pos = some r) (hnm : n ≤ m) :
    findKey log nodes key m pos = some r := by
  induction n generalizing m pos with
  | zero => cases h
  | succ n ih =>
    obtain ⟨m, rfl⟩ := Nat.exists_eq_succ_of_ne_zero (Nat.ne_zero_of_lt hnm)
    rw [findKey] at h ⊢
    split_ifs at h ⊢
    · exact h
    · obtain ⟨node, hnode, h⟩ := Option.bind_eq_some_iff.mp h
      obtain ⟨_, rfl, h⟩ := Option.bind_eq_some_iff.mp h
      rw [hnode, Option.bind_eq_bind, Option.bind_some, Option.bind_eq_bind, Option.bind_some]
      split at h
      · exact h
      · exact ih h (Nat.le_of_succ_le_succ hnm)

theorem findKey_found (hwalk : Walk nodes N (l ++ e :: l')) (hkey : e.1 ∉ keys l)
    (hpos : firstKey (l ++ e :: l') = some pos) (hn : l.length < n) :
    findKey (some ()) nodes e.1 n pos = some (some e.1) := by
  induction l generalizing pos n with
  | nil =>
    obtain ⟨n, rfl⟩ := Nat.exists_eq_succ_of_ne_zero (Nat.ne_zero_of_lt hn)
    rw [findKey, if_pos (Option.some.inj hpos).symm, ← Option.some.inj hpos]
  | cons a l ih =>
    obtain ⟨n, rfl⟩ := Nat.exists_eq_succ_of_ne_zero (Nat.ne_zero_of_lt hn)
    rw [List.cons_append] at hwalk hpos
    obtain ⟨⟨P, hnode⟩, hwalk⟩ := hwalk
    rw [keys, List.map_cons, List.mem_cons, not_or] at hkey
    cases hpos
    have hfirst : ∃ next, firstKey (l ++ e :: l') = some next := by
      cases l with
      | nil => exact ⟨_, rfl⟩
      | cons b l => exact ⟨_, rfl⟩
    obtain ⟨next, hnext⟩ := hfirst
    rw [hnext, Option.some_or] at hnode
    rw [findKey, if_neg (Ne.symm hkey.1), hnode]
    exact ih hwalk hkey.2 hnext (Nat.lt_of_succ_lt_succ hn)

theorem findKey_absent (hwalk : Walk nodes none l) (hkey : key ∉ keys l)
    (hpos : firstKey l = some pos) (hn : l.length ≤ n) :
    findKey (some ()) nodes key n pos = some none := by
  induction l generalizing pos n with
  | nil => cases hpos
  | cons a l ih =>
    obtain ⟨n, rfl⟩ := Nat.exists_eq_succ_of_ne_zero (Nat.ne_zero_of_lt hn)
    obtain ⟨⟨P, hnode⟩, hwalk⟩ := hwalk
    rw [keys, List.map_cons, List.mem_cons, not_or] at hkey
    cases hpos
    rw [findKey, if_neg (Ne.symm hkey.1), hnode]
    cases l with
    | nil => rfl
    | cons b l => exact ih hwalk hkey.2 rfl (Nat.le_of_succ_le_succ hn)

/-- Where the last node leads back into the list, a key that is absent is looked for forever. -/
theorem findKey_endless (hwalk : Walk nodes N l) (hN : ∃ f ∈ l, N = some f.1)
    (hkey : key ∉ keys l) (n : ℕ) : ∀ e ∈ l, findKey log nodes key n e.1 = none := by
  induction n with
  | zero => exact fun e _ => rfl
  | succ n ih =>
    intro e he
    have hne : e.1 ≠ key := by
      rintro rfl
      exact hkey (List.mem_map_of_mem he)
    obtain ⟨node, hnode, -, hnext⟩ := hwalk.next he
    obtain ⟨f, hf, hlink⟩ : ∃ f ∈ l, node.N = some f.1 :=
      hnext.elim (fun heq => heq ▸ hN) id
    rw [findKey, if_neg hne, hnode, Option.bind_eq_bind, Option.bind_some, hlink]
    cases log with
    | none => rfl
    | some _ => exact ih f hf

theorem viewFrom_end (hwalk : Walk nodes none l) (hn : l.length < n) :
    viewFrom (some ()) nodes n (firstKey l) = some () := by
  induction l generalizing n with
  | nil =>
    obtain ⟨n, rfl⟩ := Nat.exists_eq_succ_of_ne_zero (Nat.ne_zero_of_lt hn)
    rfl
  | cons a l ih =>
    obtain ⟨n, rfl⟩ := Nat.exists_eq_succ_of_ne_zero (Nat.ne_zero_of_lt hn)
    obtain ⟨⟨P, hnode⟩, hwalk⟩ := hwalk
    rw [firstKey_cons, viewFrom, hnode, Option.or_none]
    exact ih hwalk (Nat.lt_of_succ_lt_succ hn)

theorem viewFrom_endless (hwalk : Walk nodes N l) (hN : ∃ f ∈ l, N = some f.1) (n : ℕ) :
    ∀ e ∈ l, viewFrom log nodes n (some e.1) = none := by
  induction n with
  | zero => exact fun e _ => rfl
  | succ n ih =>
    intro e he
    obtain ⟨node, hnode, -, hnext⟩ := hwalk.next he
    obtain ⟨f, hf, hlink⟩ : ∃ f ∈ l, node.N = some f.1 :=
      hnext.elim (fun heq => heq ▸ hN) id
    rw [viewFrom, hnode, Option.bind_eq_bind, Option.bind_some, hlink]
    cases log with
    | none => rfl
    | some _ => exact ih f hf

variable [DecidableEq V]

theorem findValue_mono {r : Option ℤ} (h : findValue log nodes value n pos posvalue = some r)
    (hnm : n ≤ m) : findValue log nodes value m pos posvalue = some r := by
  induction n generalizing m pos posvalue with
  | zero => cases h
  | succ n ih =>
    obtain ⟨m, rfl⟩ := Nat.exists_eq_succ_of_ne_zero (Nat.ne_zero_of_lt hnm)
    rw [findValue] at h ⊢
    split_ifs at h ⊢
    · exact h
    · obtain ⟨node, hnode, h⟩ := Option.bind_eq_some_iff.mp h
      obtain ⟨node', hnode', h⟩ := Option.bind_eq_some_iff.mp h
      obtain ⟨_, rfl, h⟩ := Option.bind_eq_some_iff.mp h
      rw [hnode, Option.bind_eq_bind, Option.bind_some, hnode', Option.bind_eq_bind,
        Option.bind_some, Option.bind_some]
      split at h
      · exact h
      · exact ih h (Nat.le_of_succ_le_succ hnm)

theorem findValue_found (hwalk : Walk nodes N (l ++ e :: l')) (hvalue : ∀ a ∈ l, a.2 ≠ e.2)
    (hpos : (l ++ e :: l').head? = some (pos, posvalue)) (hn : l.length < n) :
    findValue (some ()) nodes e.2 n pos posvalue = some (some e.1) := by
  induction l generalizing pos posvalue n with
  | nil =>
    obtain ⟨n, rfl⟩ := Nat.exists_eq_succ_of_ne_zero (Nat.ne_zero_of_lt hn)
    cases hpos
    rw [findValue, if_pos rfl]
  | cons a l ih =>
    obtain ⟨n, rfl⟩ := Nat.exists_eq_succ_of_ne_zero (Nat.ne_zero_of_lt hn)
    rw [List.cons_append] at hwalk hpos
    obtain ⟨⟨P, hnode⟩, hwalk⟩ := hwalk
    cases hpos
    obtain ⟨f, t, hft⟩ : ∃ f t, l ++ e :: l' = f :: t := by
      cases l with
      | nil => exact ⟨e, l', rfl⟩
      | cons b l => exact ⟨b, l ++ e :: l', rfl⟩
    have hnext : ∃ P, nodes f.1 = some ⟨f.2, (firstKey t).or N, P⟩ := by
      rw [hft] at hwalk
      exact hwalk.1
    obtain ⟨P', hnext⟩ := hnext
    have hhead : (l ++ e :: l').head? = some (f.1, f.2) := by
      rw [hft]
      rfl
    rw [hft, firstKey_cons, Option.some_or] at hnode
    rw [findValue, if_neg (hvalue _ List.mem_cons_self), hnode, Option.bind_eq_bind,
      Option.bind_some]
    dsimp only [Option.bind_some]
    rw [hnext]
    exact ih hwalk (fun b hb => hvalue b (List.mem_cons_of_mem _ hb)) hhead
      (Nat.lt_of_succ_lt_succ hn)

/-- A value that is absent is looked for forever or up to an error behind the last node. -/
theorem findValue_absent (hwalk : Walk nodes N l) (hN : ∀ k ∈ N, ∃ f ∈ l, k = f.1)
    (hvalue : ∀ a ∈ l, a.2 ≠ value) (n : ℕ) :
    ∀ e ∈ l, findValue log nodes value n e.1 e.2 = none := by
  induction n with
  | zero => exact fun e _ => rfl
  | succ n ih =>
    intro e he
    obtain ⟨node, hnode, -, hnext⟩ := hwalk.next he
    have hlink : node.N = none ∨ ∃ f ∈ l, node.N = some f.1 := by
      rcases hnext with heq | hf
      · cases N with
        | none => exact .inl heq
        | some k =>
          obtain ⟨f, hf, rfl⟩ := hN k rfl
          exact .inr ⟨f, hf, heq⟩
      · exact .inr hf
    rw [findValue, if_neg (hvalue e he), hnode, Option.bind_eq_bind, Option.bind_some]
    rcases hlink with hlink | ⟨f, hf, hlink⟩
    · rw [hlink]
      rfl
    · obtain ⟨node', hnode', hv, -⟩ := hwalk.next hf
      rw [hlink, Option.bind_some, hnode', Option.bind_eq_bind, Option.bind_some, hv]
      cases log with
      | none => rfl
      | some _ => exact ih f hf

end Search

end GameServer.LinkedList
