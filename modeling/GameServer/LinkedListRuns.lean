import GameServer.LinkedList

/-!
# Runs of a list container

A push onto the empty list links its node to itself: `pushFront` forwards, `pushBack` backwards.
Such a link stays until a node is pushed behind it or the node is popped at that end. As long as it
is there, taking the node out leaves a list that begins or ends nowhere, and walking over it does
not end. Besides, a value that is absent is looked for beyond the last node.
-/

namespace GameServer.LinkedList

open DoublyLinked

variable {V : Type}

/-! ## Keys -/

section Keys

variable {l l' : List (ℤ × V)} {e : ℤ × V} {P N : Option ℤ}

theorem nodup_of_falling (h : (keys l).Pairwise (· > ·)) : (keys l).Nodup :=
  h.imp fun hgt => hgt.ne'

theorem falling_cons (h : (keys (e :: l)).Pairwise (· > ·)) (v : V) :
    (keys ((e.1 + 1, v) :: e :: l)).Pairwise (· > ·) := by
  refine List.pairwise_cons.mpr ⟨fun k hk => ?_, h⟩
  rcases List.mem_cons.mp hk with rfl | hk
  · exact lt_add_one e.1
  · exact ((List.pairwise_cons.mp h).1 k hk).trans (lt_add_one e.1)

theorem falling_snoc (h : (keys (l ++ [e])).Pairwise (· > ·)) (v : V) :
    (keys (l ++ [e] ++ [(e.1 - 1, v)])).Pairwise (· > ·) := by
  rw [keys_append, List.pairwise_append]
  refine ⟨h, List.pairwise_singleton _ _, fun k hk k' hk' => ?_⟩
  rw [keys_append, List.pairwise_append] at h
  rw [List.mem_singleton.mp hk']
  rw [keys_append, List.mem_append] at hk
  rcases hk with hk | hk
  · exact (sub_one_lt e.1).trans (h.2.2 k hk e.1 List.mem_cons_self)
  · rw [List.mem_singleton.mp hk]
    exact sub_one_lt e.1

theorem nil_of_firstKey (h : e.1 ∉ keys l) (hfirst : firstKey (l ++ e :: l') = some e.1) :
    l = [] := by
  cases l with
  | nil => rfl
  | cons a l => exact absurd (firstKey_mem (l := a :: l) hfirst) h

theorem nil_of_lastKey (h : e.1 ∉ keys l') (hlast : lastKey (l ++ e :: l') = some e.1) :
    l' = [] := by
  rcases List.eq_nil_or_concat' l' with rfl | ⟨l', b, rfl⟩
  · rfl
  · rw [← List.cons_append, ← List.append_assoc, lastKey_append] at hlast
    rw [keys_append, List.mem_append, not_or] at h
    exact absurd (List.mem_singleton.mpr (Option.some.inj hlast).symm) h.2

/-- A list that is not empty begins and ends with nodes. -/
theorem linked_ends (hne : l ≠ []) :
    (linked P N l).nodes (linked P N l).first ≠ none ∧
      (linked P N l).nodes (linked P N l).last ≠ none := by
  constructor
  · obtain ⟨e, l, rfl⟩ := List.exists_cons_of_ne_nil hne
    exact chain_ne_none List.mem_cons_self
  · obtain ⟨l, e, rfl⟩ := (List.eq_nil_or_concat' l).resolve_left hne
    rw [linked_snoc]
    exact chain_ne_none (lastKey_mem (lastKey_append l e))

end Keys

/-! ## Reference -/

inductive Op (V : Type)
  | pushFront (value : V)
  | pushBack (value : V)
  | popFront
  | popBack
  | erasebyvalue (value : V)
  | erasebykey (key : ℤ)
  | View

def Op.isPush : Op V → Bool
  | .pushFront _ => true
  | .pushBack _ => true
  | _ => false

variable [DecidableEq V]

/-- The entries after an operation. -/
def Op.apply (l : List (ℤ × V)) : Op V → List (ℤ × V)
  | .pushFront value => ((firstKey l).elim 0 (· + 1), value) :: l
  | .pushBack value => l ++ [((lastKey l).elim 0 (· - 1), value)]
  | .popFront => l.tail
  | .popBack => l.dropLast
  | .erasebyvalue value => l.eraseP fun e => e.2 = value
  | .erasebykey key => l.eraseP fun e => e.1 = key
  | .View => l

/-- What an erasure answers: nothing for the empty list, else how many entries went. -/
def answer (l : List (ℤ × V)) (found : Bool) : Option (V ⊕ ℤ) :=
  if l = [] then none else some (.inr (if found then 1 else 0))

/-- What an operation returns. -/
def Op.result (l : List (ℤ × V)) : Op V → Option (V ⊕ ℤ)
  | .popFront => l.head?.map fun e => .inl e.2
  | .popBack => l.getLast?.map fun e => .inl e.2
  | .erasebyvalue value => answer l (l.any fun e => e.2 = value)
  | .erasebykey key => answer l (l.any fun e => e.1 = key)
  | _ => none

/-- Pops are called only when there is something in the list. -/
def Op.Legal (l : List (ℤ × V)) : Op V → Prop
  | .popFront => l ≠ []
  | .popBack => l ≠ []
  | _ => True

/-! ## Runs -/

/-- An operation with its return value, with `n` rounds for its loop. -/
def exec (log : Option Unit) (n : ℕ) (list : State V) : Op V → Option (State V × Option (V ⊕ ℤ))
  | .pushFront value => (pushFront list value).map (·, none)
  | .pushBack value => (pushBack list value).map (·, none)
  | .popFront => (popFront list).map fun r => (r.1, some (.inl r.2))
  | .popBack => (popBack list).map fun r => (r.1, some (.inl r.2))
  | .erasebyvalue value => (erasebyvalue log n list value).map fun r => (r.1, r.2.map .inr)
  | .erasebykey key => (erasebykey log n list key).map fun r => (r.1, r.2.map .inr)
  | .View => (View log n list).map fun _ => (list, none)

def LegalRun : List (ℤ × V) → List (Op V) → Prop
  | _, [] => True
  | l, op :: ops => op.Legal l ∧ LegalRun (op.apply l) ops

/-- Every operation ends with the reference's result, in a list that holds the entries. -/
def Runs (Holds : State V → List (ℤ × V) → Prop) (log : Option Unit) :
    List (ℤ × V) → State V → List (Op V) → Prop
  | _, _, [] => True
  | l, list, op :: ops =>
      ∃ n list', exec log n list op = some (list', op.result l) ∧ Holds list' (op.apply l) ∧
        Runs Holds log (op.apply l) list' ops

/-- A chain from first to last; the links away from its ends are left open. -/
def Linked (list : State V) (l : List (ℤ × V)) : Prop := ∃ P N, list = linked P N l

/-- A chain from first to last with no links away from its ends. -/
def Ended (list : State V) (l : List (ℤ × V)) : Prop := list = linked none none l

/-! ## The links at the ends -/

/-- Entries with the links away from the ends. -/
structure Outline (V : Type) where
  entries : List (ℤ × V)
  P : Option ℤ
  N : Option ℤ

namespace Outline

variable (o : Outline V)

def list : State V := linked o.P o.N o.entries

/-- The node of the key is not at an end with a link away from it, unless it is the only one. -/
def Detachable (key : ℤ) : Prop :=
  o.entries.length = 1 ∨
    (firstKey o.entries = some key → o.P = none) ∧ (lastKey o.entries = some key → o.N = none)

/-- The operation does what it should, apart from the links at the ends. -/
def Admitted (log : Option Unit) : Op V → Prop
  | .pushFront _ => True
  | .pushBack _ => True
  | .popFront => o.entries ≠ []
  | .popBack => o.entries ≠ []
  | .erasebyvalue value => o.entries = [] ∨
      log = some () ∧ ∃ e ∈ o.entries.find? (fun e => e.2 = value), o.Detachable e.1
  | .erasebykey key => o.entries = [] ∨
      log = some () ∧ if key ∈ keys o.entries then o.Detachable key else o.N = none
  | .View => log = some () ∧ (o.entries = [] ∨ o.N = none)

def step : Op V → Outline V
  | .pushFront value =>
      ⟨(Op.pushFront value).apply o.entries, none, if o.entries = [] then some 0 else o.N⟩
  | .pushBack value =>
      ⟨(Op.pushBack value).apply o.entries, if o.entries = [] then some 0 else o.P, none⟩
  | .popFront => ⟨Op.popFront.apply o.entries, none, o.N⟩
  | .popBack => ⟨Op.popBack.apply o.entries, o.P, none⟩
  | .erasebyvalue value => ⟨(Op.erasebyvalue value).apply o.entries, o.P, o.N⟩
  | .erasebykey key => ⟨(Op.erasebykey key).apply o.entries, o.P, o.N⟩
  | .View => o

/-- Keys fall from first to last; a link away from an end is one to the node itself. -/
structure Valid : Prop where
  falling : (keys o.entries).Pairwise (· > ·)
  front : o.entries ≠ [] → ∀ k ∈ o.P, firstKey o.entries = some k
  back : o.entries ≠ [] → ∀ k ∈ o.N, lastKey o.entries = some k

end Outline

def AdmittedRun (log : Option Unit) : Outline V → List (Op V) → Prop
  | _, [] => True
  | o, op :: ops => o.Admitted log op ∧ AdmittedRun log (o.step op) ops

namespace Outline

variable {o : Outline V} {log : Option Unit} {n : ℕ}

/-! ## Pushes and pops -/

theorem exec_pushFront (value : V) :
    exec log n o.list (.pushFront value) =
      some ((o.step (.pushFront value)).list, (Op.pushFront value).result o.entries) := by
  obtain ⟨l, P, N⟩ := o
  cases l with
  | nil => rfl
  | cons e l => exact congrArg (Option.map _) pushFront_cons

theorem exec_pushBack (hv : o.Valid) (value : V) :
    exec log n o.list (.pushBack value) =
      some ((o.step (.pushBack value)).list, (Op.pushBack value).result o.entries) := by
  obtain ⟨l, P, N⟩ := o
  rcases List.eq_nil_or_concat' l with rfl | ⟨l, e, rfl⟩
  · rfl
  · have hpush := pushBack_snoc (P := P) (N := N)
      (nodup_of_falling (falling_snoc hv.falling value))
    have hlast : lastKey (l ++ [e]) = some e.1 := lastKey_append l e
    simp only [exec, list, hpush, step, Op.apply, hlast, Option.elim_some, Option.map_some,
      List.append_eq_nil_iff, List.cons_ne_self, and_false, if_false, Op.result]

theorem exec_popFront (hv : o.Valid) (hne : o.entries ≠ []) :
    exec log n o.list .popFront =
      some ((o.step .popFront).list, Op.popFront.result o.entries) := by
  obtain ⟨l, P, N⟩ := o
  match l with
  | [] => exact absurd rfl hne
  | [e] => exact congrArg (Option.map _) popFront_single
  | e :: f :: l => exact congrArg (Option.map _) (popFront_cons (nodup_of_falling hv.falling))

theorem exec_popBack (hv : o.Valid) (hne : o.entries ≠ []) :
    exec log n o.list .popBack =
      some ((o.step .popBack).list, Op.popBack.result o.entries) := by
  obtain ⟨l, P, N⟩ := o
  rcases List.eq_nil_or_concat' l with rfl | ⟨l, f, rfl⟩
  · exact absurd rfl hne
  · have hstep : step ⟨l ++ [f], P, N⟩ .popBack = ⟨l, P, none⟩ := by
      rw [step, Op.apply, List.dropLast_concat]
    have hresult : Op.popBack.result (l ++ [f]) = some (.inl f.2) := by
      rw [Op.result, List.getLast?_concat, Option.map_some]
    rw [hstep, hresult]
    rcases List.eq_nil_or_concat' l with rfl | ⟨l, e, rfl⟩
    · exact congrArg (Option.map _) popBack_single
    · exact congrArg (Option.map _) (popBack_snoc (nodup_of_falling hv.falling))

/-! ## Erasures -/

omit [DecidableEq V] in
theorem size_eq_zero : o.list.size = 0 ↔ o.entries = [] := List.length_eq_zero_iff

omit [DecidableEq V] in
theorem walk_list (hv : o.Valid) : Walk o.list.nodes o.N o.entries :=
  walk_chain (nodup_of_falling hv.falling)

omit [DecidableEq V] in
theorem firstKey_list (hne : o.entries ≠ []) : firstKey o.entries = some o.list.first := by
  obtain ⟨l, P, N⟩ := o
  cases l with
  | nil => exact absurd rfl hne
  | cons e l => rfl

omit [DecidableEq V] in
theorem eraseNode_detachable {l l' : List (ℤ × V)} {e : ℤ × V} (hv : o.Valid)
    (hl : o.entries = l ++ e :: l') (hdet : o.Detachable e.1) :
    eraseNode o.list e.1 = some (linked o.P o.N (l ++ l')) := by
  have hnodup : (keys (l ++ e :: l')).Nodup := hl ▸ nodup_of_falling hv.falling
  rw [list, hl]
  refine eraseNode_linked hnodup ?_ ?_
  · rintro rfl hne
    rcases hdet with hone | ⟨hfirst, -⟩
    · rw [hl, List.nil_append, List.length_cons, Nat.add_eq_right] at hone
      exact absurd (List.length_eq_zero_iff.mp hone) hne
    · exact hfirst (by rw [hl]; rfl)
  · rintro rfl hne
    rcases hdet with hone | ⟨-, hlast⟩
    · rw [hl, List.length_append, List.length_singleton, Nat.add_eq_right] at hone
      exact absurd (List.length_eq_zero_iff.mp hone) hne
    · exact hlast (by rw [hl, lastKey_append])

omit [DecidableEq V] in
/-- From a node that may not go both links lead on; afterwards an end of the list is missing. -/
theorem not_linked_of_eraseNode {l l' : List (ℤ × V)} {e : ℤ × V} (hv : o.Valid)
    (hl : o.entries = l ++ e :: l') (hdet : ¬o.Detachable e.1) {list' : State V}
    (herase : eraseNode o.list e.1 = some list') : ¬Linked list' (l ++ l') := by
  have hnodup : (keys (l ++ e :: l')).Nodup := hl ▸ nodup_of_falling hv.falling
  have hnode : o.list.nodes e.1 = some ⟨e.2, (firstKey l').or o.N, (lastKey l).or o.P⟩ := by
    rw [list, hl]
    exact chain_self (notMem_before hnodup)
  rw [Detachable, not_or, not_and_or] at hdet
  have hsize : o.list.size ≠ 1 := hdet.1
  rintro ⟨P', N', rfl⟩
  rcases hdet.2 with hfront | hback
  · rw [Classical.not_imp] at hfront
    obtain ⟨hfirst, hP⟩ := hfront
    obtain ⟨p, hp⟩ := Option.ne_none_iff_exists'.mp hP
    have hnil : l = [] := nil_of_firstKey (notMem_before hnodup) (hl ▸ hfirst)
    subst hnil
    cases l' with
    | nil => exact hsize (congrArg List.length hl)
    | cons b l' =>
      rw [hp] at hnode
      obtain ⟨hgone, hsame, -⟩ := eraseNode_open hsize hnode herase
      have hfirst' : o.list.first = e.1 := by
        rw [list, hl]
        rfl
      rw [← hfirst', ← hsame] at hgone
      exact (linked_ends (List.cons_ne_nil b l')).1 hgone
  · rw [Classical.not_imp] at hback
    obtain ⟨hlast, hN⟩ := hback
    obtain ⟨k, hk⟩ := Option.ne_none_iff_exists'.mp hN
    have hnil : l' = [] := nil_of_lastKey (notMem_behind hnodup) (hl ▸ hlast)
    subst hnil
    rcases List.eq_nil_or_concat' l with rfl | ⟨l, a, rfl⟩
    · exact hsize (congrArg List.length hl)
    · rw [hk, lastKey_append] at hnode
      obtain ⟨hgone, -, hsame⟩ := eraseNode_open hsize hnode herase
      have hlast' : o.list.last = e.1 := by
        rw [list, hl, linked_snoc]
      rw [← hlast', ← hsame, List.append_nil] at hgone
      exact (linked_ends (by simp)).2 hgone

omit [DecidableEq V] in
theorem list_of_nil (h : o.entries = []) : o.list = new := by
  rw [list, h, linked_nil]

omit [DecidableEq V] in
theorem first_node (hv : o.Valid) (hne : o.entries ≠ []) :
    ∃ f node, o.entries.head? = some f ∧ o.list.first = f.1 ∧
      o.list.nodes f.1 = some node ∧ node.v = f.2 := by
  obtain ⟨f, l, hl⟩ := List.exists_cons_of_ne_nil hne
  obtain ⟨node, hnode, hvalue, -⟩ := (walk_list hv).next (hl ▸ List.mem_cons_self : f ∈ o.entries)
  exact ⟨f, node, hl ▸ rfl, Option.some.inj ((firstKey_list hne).symm.trans (hl ▸ rfl)), hnode,
    hvalue⟩

omit [DecidableEq V] in
/-- A link away from the last node is one to a node of the list. -/
theorem back_mem (hv : o.Valid) (hne : o.entries ≠ []) : ∀ k ∈ o.N, ∃ f ∈ o.entries, k = f.1 := by
  intro k hk
  obtain ⟨f, hf, heq⟩ := List.mem_map.mp (lastKey_mem (hv.back hne k hk))
  exact ⟨f, hf, heq.symm⟩

section Erase

variable {l l' : List (ℤ × V)} {e : ℤ × V} {key : ℤ} {value : V} {r : State V × Option ℤ}

omit [DecidableEq V] in
theorem erasebykey_found (hv : o.Valid) (hl : o.entries = l ++ e :: l') (hn : l.length < n) :
    erasebykey (some ()) n o.list e.1 = (eraseNode o.list e.1).map (·, some 1) := by
  have hne : o.entries ≠ [] := by simp [hl]
  have hsize : o.list.size ≠ 0 := fun h => hne (size_eq_zero.mp h)
  have hnodup : (keys (l ++ e :: l')).Nodup := hl ▸ nodup_of_falling hv.falling
  have hfind : findKey (some ()) o.list.nodes e.1 n o.list.first = some (some e.1) :=
    findKey_found (hl ▸ walk_list hv) (notMem_before hnodup) (hl ▸ firstKey_list hne) hn
  rw [erasebykey, if_neg hsize, Option.bind_eq_bind, Option.bind_some, hfind]
  rfl

omit [DecidableEq V] in
theorem erasebykey_eq_some (hv : o.Valid) (hl : o.entries = l ++ e :: l')
    (h : erasebykey log n o.list e.1 = some r) :
    log = some () ∧ (eraseNode o.list e.1).map (·, some 1) = some r := by
  have hne : o.entries ≠ [] := by simp [hl]
  have hsize : o.list.size ≠ 0 := fun h => hne (size_eq_zero.mp h)
  have hnodup : (keys (l ++ e :: l')).Nodup := hl ▸ nodup_of_falling hv.falling
  have hfind : findKey (some ()) o.list.nodes e.1 (max n (l.length + 1)) o.list.first =
      some (some e.1) :=
    findKey_found (hl ▸ walk_list hv) (notMem_before hnodup) (hl ▸ firstKey_list hne)
      (lt_max_of_lt_right (Nat.lt_succ_self _))
  rw [erasebykey, if_neg hsize] at h
  obtain ⟨_, rfl, h⟩ := Option.bind_eq_some_iff.mp h
  obtain ⟨found, hfound, h⟩ := Option.bind_eq_some_iff.mp h
  rw [findKey_mono hfound (le_max_left n (l.length + 1))] at hfind
  cases hfind
  exact ⟨rfl, h⟩

omit [DecidableEq V] in
theorem erasebykey_absent (hv : o.Valid) (hne : o.entries ≠ []) (hkey : key ∉ keys o.entries)
    (hN : o.N = none) (hn : o.entries.length ≤ n) :
    erasebykey (some ()) n o.list key = some (o.list, some 0) := by
  have hsize : o.list.size ≠ 0 := fun h => hne (size_eq_zero.mp h)
  have hfind : findKey (some ()) o.list.nodes key n o.list.first = some none :=
    findKey_absent (hN ▸ walk_list hv) hkey (firstKey_list hne) hn
  rw [erasebykey, if_neg hsize, Option.bind_eq_bind, Option.bind_some, hfind]
  rfl

omit [DecidableEq V] in
theorem erasebykey_endless (hv : o.Valid) (hne : o.entries ≠ []) (hkey : key ∉ keys o.entries)
    (hN : o.N ≠ none) : erasebykey log n o.list key = none := by
  have hsize : o.list.size ≠ 0 := fun h => hne (size_eq_zero.mp h)
  obtain ⟨k, hk⟩ := Option.ne_none_iff_exists'.mp hN
  obtain ⟨f, hf, rfl⟩ := back_mem hv hne k hk
  obtain ⟨e, -, he, hfirst, -⟩ := first_node hv hne
  have hfind : findKey log o.list.nodes key n o.list.first = none := by
    rw [hfirst]
    exact findKey_endless (walk_list hv) ⟨f, hf, hk⟩ hkey n e (List.mem_of_head? he)
  rw [erasebykey, if_neg hsize, hfind]
  cases log <;> rfl

theorem erasebyvalue_found (hv : o.Valid) (hl : o.entries = l ++ e :: l')
    (hvalue : ∀ a ∈ l, a.2 ≠ e.2) (hn : l.length < n) :
    erasebyvalue (some ()) n o.list e.2 = (eraseNode o.list e.1).map (·, some 1) := by
  have hne : o.entries ≠ [] := by simp [hl]
  have hsize : o.list.size ≠ 0 := fun h => hne (size_eq_zero.mp h)
  obtain ⟨f, node, hf, hfirst, hnode, hv'⟩ := first_node hv hne
  have hfind : findValue (some ()) o.list.nodes e.2 n f.1 f.2 = some (some e.1) :=
    findValue_found (hl ▸ walk_list hv) hvalue (hl ▸ hf) hn
  rw [erasebyvalue, if_neg hsize, hfirst, hnode, Option.bind_eq_bind, Option.bind_some,
    hv', hfind]
  rfl

theorem erasebyvalue_eq_some (hv : o.Valid) (hl : o.entries = l ++ e :: l')
    (hvalue : ∀ a ∈ l, a.2 ≠ e.2) (h : erasebyvalue log n o.list e.2 = some r) :
    log = some () ∧ (eraseNode o.list e.1).map (·, some 1) = some r := by
  have hne : o.entries ≠ [] := by simp [hl]
  have hsize : o.list.size ≠ 0 := fun h => hne (size_eq_zero.mp h)
  obtain ⟨f, node, hf, hfirst, hnode, hv'⟩ := first_node hv hne
  have hfind : findValue (some ()) o.list.nodes e.2 (max n (l.length + 1)) f.1 f.2 =
      some (some e.1) :=
    findValue_found (hl ▸ walk_list hv) hvalue (hl ▸ hf)
      (lt_max_of_lt_right (Nat.lt_succ_self _))
  rw [erasebyvalue, if_neg hsize, hfirst, hnode, Option.bind_eq_bind, Option.bind_some, hv'] at h
  obtain ⟨_, rfl, h⟩ := Option.bind_eq_some_iff.mp h
  obtain ⟨found, hfound, h⟩ := Option.bind_eq_some_iff.mp h
  rw [findValue_mono hfound (le_max_left n (l.length + 1))] at hfind
  cases hfind
  exact ⟨rfl, h⟩

theorem erasebyvalue_absent (hv : o.Valid) (hne : o.entries ≠ [])
    (hvalue : ∀ a ∈ o.entries, a.2 ≠ value) : erasebyvalue log n o.list value = none := by
  have hsize : o.list.size ≠ 0 := fun h => hne (size_eq_zero.mp h)
  obtain ⟨f, node, hf, hfirst, hnode, hv'⟩ := first_node hv hne
  have hfind : findValue log o.list.nodes value n f.1 f.2 = none :=
    findValue_absent (walk_list hv) (back_mem hv hne) hvalue n f (List.mem_of_head? hf)
  rw [erasebyvalue, if_neg hsize, hfirst, hnode, Option.bind_eq_bind, Option.bind_some, hv', hfind]
  cases log <;> rfl

omit [DecidableEq V] in
theorem View_end (hv : o.Valid) (hne : o.entries ≠ []) (hN : o.N = none)
    (hn : o.entries.length < n) : View (some ()) n o.list = some () := by
  have hsize : o.list.size ≠ 0 := fun h => hne (size_eq_zero.mp h)
  rw [View, if_neg hsize, ← firstKey_list hne]
  exact viewFrom_end (hN ▸ walk_list hv) hn

omit [DecidableEq V] in
theorem View_endless (hv : o.Valid) (hne : o.entries ≠ []) (hN : o.N ≠ none) :
    View log n o.list = none := by
  have hsize : o.list.size ≠ 0 := fun h => hne (size_eq_zero.mp h)
  obtain ⟨k, hk⟩ := Option.ne_none_iff_exists'.mp hN
  obtain ⟨f, hf, rfl⟩ := back_mem hv hne k hk
  obtain ⟨e, -, he, hfirst, -⟩ := first_node hv hne
  have hview : viewFrom log o.list.nodes n (some e.1) = none :=
    viewFrom_endless (walk_list hv) ⟨f, hf, hk⟩ n e (List.mem_of_head? he)
  rw [View, if_neg hsize, hfirst, hview]
  cases log <;> rfl

end Erase

/-! ## Steps -/

omit [DecidableEq V] in
/-- An erasure is about the first entry with the property, if there is one. -/
theorem split_eraseP {p : ℤ × V → Bool} (hex : ∃ e ∈ o.entries, p e = true) :
    ∃ e l l', o.entries = l ++ e :: l' ∧ p e = true ∧ (∀ a ∈ l, p a = false) ∧
      o.entries.eraseP p = l ++ l' ∧ o.entries.find? p = some e ∧ o.entries.any p = true := by
  obtain ⟨a, ha, hpa⟩ := hex
  obtain ⟨e, l, l', hbefore, he, hl, herase⟩ := List.exists_of_eraseP ha hpa
  refine ⟨e, l, l', hl, he, fun a ha => Bool.eq_false_iff.mpr (hbefore a ha), herase, ?_,
    List.any_eq_true.mpr ⟨a, ha, hpa⟩⟩
  rw [hl, List.find?_append, List.find?_eq_none.mpr hbefore, Option.none_or,
    List.find?_cons_of_pos he]

omit [DecidableEq V] in
theorem answer_of_ne (hne : o.entries ≠ []) (found : Bool) :
    answer o.entries found = some (.inr (if found then 1 else 0)) := if_neg hne

theorem exec_erasebykey (hv : o.Valid) {key : ℤ} (hadm : o.Admitted log (.erasebykey key)) :
    ∃ n, exec log n o.list (.erasebykey key) =
      some ((o.step (.erasebykey key)).list, (Op.erasebykey key).result o.entries) := by
  by_cases hne : o.entries = []
  · refine ⟨0, ?_⟩
    have hstep : (o.step (.erasebykey key)).list = new := by
      rw [step, Op.apply, hne]
      rfl
    rw [hstep, list_of_nil hne, Op.result, hne]
    rfl
  obtain ⟨rfl, hkeyed⟩ := (hadm : _ ∨ _ ∧ _).resolve_left hne
  by_cases hkey : key ∈ keys o.entries
  · rw [if_pos hkey] at hkeyed
    obtain ⟨a, ha, rfl⟩ := List.mem_map.mp hkey
    obtain ⟨e, l, l', hl, he, -, herase, -, hany⟩ :=
      split_eraseP (p := fun e => e.1 = a.1) ⟨a, ha, decide_eq_true rfl⟩
    have heq : e.1 = a.1 := of_decide_eq_true he
    refine ⟨l.length + 1, ?_⟩
    rw [exec, step, Op.apply, Op.result, herase, answer_of_ne hne, hany, ← heq,
      erasebykey_found hv hl (Nat.lt_succ_self _), eraseNode_detachable hv hl (heq ▸ hkeyed)]
    rfl
  · rw [if_neg hkey] at hkeyed
    have habsent : ∀ a ∈ o.entries, ¬decide (a.1 = key) = true := by
      intro a ha heq
      exact hkey (of_decide_eq_true heq ▸ List.mem_map_of_mem ha)
    refine ⟨o.entries.length, ?_⟩
    rw [exec, step, Op.apply, Op.result, List.eraseP_of_forall_not habsent, answer_of_ne hne,
      erasebykey_absent hv hne hkey hkeyed le_rfl, List.any_eq_false.mpr habsent]
    rfl

theorem exec_erasebyvalue (hv : o.Valid) {value : V}
    (hadm : o.Admitted log (.erasebyvalue value)) :
    ∃ n, exec log n o.list (.erasebyvalue value) =
      some ((o.step (.erasebyvalue value)).list, (Op.erasebyvalue value).result o.entries) := by
  by_cases hne : o.entries = []
  · refine ⟨0, ?_⟩
    have hstep : (o.step (.erasebyvalue value)).list = new := by
      rw [step, Op.apply, hne]
      rfl
    rw [hstep, list_of_nil hne, Op.result, hne]
    rfl
  obtain ⟨rfl, a, hfind, hdet⟩ := (hadm : _ ∨ _ ∧ _).resolve_left hne
  obtain ⟨e, l, l', hl, he, hbefore, herase, hfind', hany⟩ :=
    split_eraseP ⟨a, List.mem_of_find?_eq_some hfind, List.find?_some hfind⟩
  cases hfind.symm.trans hfind'
  have heq : a.2 = value := of_decide_eq_true he
  subst heq
  have hvalue : ∀ b ∈ l, b.2 ≠ a.2 := fun b hb => of_decide_eq_false (hbefore b hb)
  refine ⟨l.length + 1, ?_⟩
  rw [exec, step, Op.apply, Op.result, herase, answer_of_ne hne, hany,
    erasebyvalue_found hv hl hvalue (Nat.lt_succ_self _), eraseNode_detachable hv hl hdet]
  rfl

theorem exec_View (hv : o.Valid) (hadm : o.Admitted log .View) :
    ∃ n, exec log n o.list .View = some ((o.step .View).list, Op.View.result o.entries) := by
  obtain ⟨rfl, hend⟩ := hadm
  by_cases hne : o.entries = []
  · refine ⟨0, ?_⟩
    rw [exec, step, list_of_nil hne]
    rfl
  · refine ⟨o.entries.length + 1, ?_⟩
    rw [exec, View_end hv hne (hend.resolve_left hne) (Nat.lt_succ_self _)]
    rfl

/-- An operation that is admitted does what the reference does. -/
theorem exec_of_admitted (hv : o.Valid) {op : Op V} (hadm : o.Admitted log op) :
    ∃ n, exec log n o.list op = some ((o.step op).list, op.result o.entries) := by
  cases op with
  | pushFront value => exact ⟨0, exec_pushFront value⟩
  | pushBack value => exact ⟨0, exec_pushBack hv value⟩
  | popFront => exact ⟨0, exec_popFront hv hadm⟩
  | popBack => exact ⟨0, exec_popBack hv hadm⟩
  | erasebyvalue value => exact exec_erasebyvalue hv hadm
  | erasebykey key => exact exec_erasebykey hv hadm
  | View => exact exec_View hv hadm

theorem not_linked_of_erasebykey (hv : o.Valid) {key : ℤ}
    (hadm : ¬o.Admitted log (.erasebykey key)) {list' : State V} {r : Option ℤ}
    (herase : erasebykey log n o.list key = some (list', r)) :
    ¬Linked list' ((Op.erasebykey key).apply o.entries) := by
  rw [Admitted, not_or, not_and_or] at hadm
  obtain ⟨hne, hadm⟩ := hadm
  by_cases hkey : key ∈ keys o.entries
  · rw [if_pos hkey] at hadm
    obtain ⟨a, ha, rfl⟩ := List.mem_map.mp hkey
    obtain ⟨e, l, l', hl, he, -, happly, -, -⟩ :=
      split_eraseP (p := fun e => e.1 = a.1) ⟨a, ha, decide_eq_true rfl⟩
    have heq : e.1 = a.1 := of_decide_eq_true he
    rw [← heq] at herase hadm
    obtain ⟨hlog, hnode⟩ := erasebykey_eq_some hv hl herase
    obtain ⟨_, hgone, hpair⟩ := Option.map_eq_some_iff.mp hnode
    cases hpair
    rw [Op.apply, happly]
    exact not_linked_of_eraseNode hv hl (hadm.resolve_left fun h => h hlog) hgone
  · rw [if_neg hkey] at hadm
    have hnone : erasebykey log n o.list key = none := by
      cases log with
      | none => exact if_neg fun h => hne (size_eq_zero.mp h)
      | some _ => exact erasebykey_endless hv hne hkey (hadm.resolve_left fun h => h rfl)
    rw [hnone] at herase
    cases herase

theorem not_linked_of_erasebyvalue (hv : o.Valid) {value : V}
    (hadm : ¬o.Admitted log (.erasebyvalue value)) {list' : State V} {r : Option ℤ}
    (herase : erasebyvalue log n o.list value = some (list', r)) :
    ¬Linked list' ((Op.erasebyvalue value).apply o.entries) := by
  rw [Admitted, not_or, not_and_or] at hadm
  obtain ⟨hne, hadm⟩ := hadm
  by_cases hex : ∃ e ∈ o.entries, decide (e.2 = value) = true
  · obtain ⟨e, l, l', hl, he, hbefore, happly, hfind, -⟩ := split_eraseP hex
    have heq : e.2 = value := of_decide_eq_true he
    subst heq
    have hvalue : ∀ b ∈ l, b.2 ≠ e.2 := fun b hb => of_decide_eq_false (hbefore b hb)
    obtain ⟨hlog, hnode⟩ := erasebyvalue_eq_some hv hl hvalue herase
    obtain ⟨_, hgone, hpair⟩ := Option.map_eq_some_iff.mp hnode
    cases hpair
    rw [Op.apply, happly]
    exact not_linked_of_eraseNode hv hl
      (fun hdet => hadm.resolve_left (fun h => h hlog) ⟨e, hfind, hdet⟩) hgone
  · have hvalue : ∀ a ∈ o.entries, a.2 ≠ value := fun a ha heq => hex ⟨a, ha, decide_eq_true heq⟩
    rw [erasebyvalue_absent hv hne hvalue] at herase
    cases herase

/-- `View` ends only where it is admitted. -/
theorem admitted_of_View (hv : o.Valid) (hview : View log n o.list = some ()) :
    o.Admitted log .View := by
  by_cases hne : o.entries = []
  · rw [list_of_nil hne] at hview
    exact ⟨hview, .inl hne⟩
  · refine ⟨?_, .inr ?_⟩
    · rw [View, if_neg fun h => hne (size_eq_zero.mp h)] at hview
      obtain ⟨_, hlog, -⟩ := Option.bind_eq_some_iff.mp hview
      exact hlog
    · by_contra hN
      rw [View_endless hv hne hN] at hview
      cases hview

/-- An operation that is not admitted ends in an error, never, or in a broken list. -/
theorem not_linked_of_exec (hv : o.Valid) {op : Op V} (hlegal : op.Legal o.entries)
    (hadm : ¬o.Admitted log op) {list' : State V} {r : Option (V ⊕ ℤ)}
    (hexec : exec log n o.list op = some (list', r)) : ¬Linked list' (op.apply o.entries) := by
  cases op with
  | pushFront value => exact absurd trivial hadm
  | pushBack value => exact absurd trivial hadm
  | popFront => exact absurd hlegal hadm
  | popBack => exact absurd hlegal hadm
  | erasebyvalue value =>
    obtain ⟨r', herase, hpair⟩ := Option.map_eq_some_iff.mp hexec
    cases hpair
    exact not_linked_of_erasebyvalue hv hadm herase
  | erasebykey key =>
    obtain ⟨r', herase, hpair⟩ := Option.map_eq_some_iff.mp hexec
    cases hpair
    exact not_linked_of_erasebykey hv hadm herase
  | View =>
    obtain ⟨_, hview, -⟩ := Option.map_eq_some_iff.mp hexec
    exact absurd (admitted_of_View hv hview) hadm

omit [DecidableEq V] in
/-- Without an entry that may go the links at the ends stay right. -/
theorem valid_of_detachable {l l' : List (ℤ × V)} {e : ℤ × V} (hv : o.Valid)
    (hl : o.entries = l ++ e :: l') (hdet : o.Detachable e.1) : Valid ⟨l ++ l', o.P, o.N⟩ := by
  have hone : o.entries.length = 1 → l ++ l' = [] := by
    intro h
    rw [hl, List.length_append, List.length_cons] at h
    exact List.append_eq_nil_iff.mpr
      ⟨List.length_eq_zero_iff.mp (by omega), List.length_eq_zero_iff.mp (by omega)⟩
  constructor
  · exact hv.falling.sublist (hl ▸ ((List.sublist_cons_self e l').append_left l).map Prod.fst)
  · intro hne k hk
    obtain ⟨hfirst, -⟩ := hdet.resolve_left fun h => hne (hone h)
    have hfirst' := hv.front (by simp [hl]) k hk
    cases l with
    | nil =>
      rw [hfirst (hl ▸ rfl)] at hk
      cases hk
    | cons a l =>
      rw [hl] at hfirst'
      exact hfirst'
  · intro hne k hk
    obtain ⟨-, hlast⟩ := hdet.resolve_left fun h => hne (hone h)
    have hlast' := hv.back (by simp [hl]) k hk
    cases l' with
    | nil =>
      rw [hlast (hl ▸ lastKey_append l e)] at hk
      cases hk
    | cons b l' =>
      rw [hl, lastKey_behind] at hlast'
      exact hlast'

theorem valid_pushFront (hv : o.Valid) (value : V) : (o.step (.pushFront value)).Valid := by
  obtain ⟨l, P, N⟩ := o
  cases l with
  | nil =>
    refine ⟨List.pairwise_singleton _ _, fun _ k hk => ?_, fun _ k hk => ?_⟩
    · cases hk
    · cases hk
      rfl
  | cons e l =>
    refine ⟨falling_cons hv.falling value, fun _ k hk => ?_, fun _ k hk => ?_⟩
    · cases hk
    · exact lastKey_cons_cons.trans (hv.back (List.cons_ne_nil e l) k hk)

theorem valid_pushBack (hv : o.Valid) (value : V) : (o.step (.pushBack value)).Valid := by
  obtain ⟨l, P, N⟩ := o
  rcases List.eq_nil_or_concat' l with rfl | ⟨l, e, rfl⟩
  · refine ⟨List.pairwise_singleton _ _, fun _ k hk => ?_, fun _ k hk => ?_⟩
    · cases hk
      rfl
    · cases hk
  · have hlast : lastKey (l ++ [e]) = some e.1 := lastKey_append l e
    have hstep : step ⟨l ++ [e], P, N⟩ (.pushBack value) =
        ⟨l ++ [e] ++ [(e.1 - 1, value)], P, none⟩ := by
      simp [step, Op.apply]
    rw [hstep]
    refine ⟨falling_snoc hv.falling value, fun _ k hk => ?_, fun _ k hk => ?_⟩
    · exact firstKey_snoc.trans (hv.front (by simp) k hk)
    · cases hk

theorem valid_popFront (hv : o.Valid) : (o.step .popFront).Valid := by
  obtain ⟨l, P, N⟩ := o
  refine ⟨hv.falling.sublist (l.tail_sublist.map Prod.fst), fun _ k hk => ?_, fun hne k hk => ?_⟩
  · cases hk
  · match l with
    | [] => exact absurd rfl hne
    | [e] => exact absurd rfl hne
    | e :: f :: l => exact lastKey_cons_cons.symm.trans (hv.back (List.cons_ne_nil e _) k hk)

theorem valid_popBack (hv : o.Valid) : (o.step .popBack).Valid := by
  obtain ⟨l, P, N⟩ := o
  refine ⟨hv.falling.sublist (l.dropLast_sublist.map Prod.fst), fun hne k hk => ?_,
    fun _ k hk => ?_⟩
  · match l with
    | [] => exact absurd rfl hne
    | [e] => exact absurd rfl hne
    | e :: f :: l => exact hv.front (List.cons_ne_nil e _) k hk
  · cases hk

theorem valid_step (hv : o.Valid) {op : Op V} (hadm : o.Admitted log op) : (o.step op).Valid := by
  cases op with
  | pushFront value => exact valid_pushFront hv value
  | pushBack value => exact valid_pushBack hv value
  | popFront => exact valid_popFront hv
  | popBack => exact valid_popBack hv
  | erasebyvalue value =>
    by_cases hex : ∃ e ∈ o.entries, decide (e.2 = value) = true
    · obtain ⟨e, l, l', hl, -, -, happly, hfind, -⟩ := split_eraseP hex
      have hne : o.entries ≠ [] := by simp [hl]
      obtain ⟨-, a, hfind', hdet⟩ := (hadm : _ ∨ _ ∧ _).resolve_left hne
      cases hfind.symm.trans hfind'
      rw [step, Op.apply, happly]
      exact valid_of_detachable hv hl hdet
    · have habsent : ∀ a ∈ o.entries, ¬decide (a.2 = value) = true :=
        fun a ha h => hex ⟨a, ha, h⟩
      rw [step, Op.apply, List.eraseP_of_forall_not habsent]
      exact hv
  | erasebykey key =>
    by_cases hex : ∃ e ∈ o.entries, decide (e.1 = key) = true
    · obtain ⟨e, l, l', hl, he, -, happly, -, -⟩ := split_eraseP hex
      have heq : e.1 = key := of_decide_eq_true he
      have hne : o.entries ≠ [] := by simp [hl]
      have hmem : key ∈ keys o.entries := by simp [hl, keys, heq]
      obtain ⟨-, hdet⟩ := (hadm : _ ∨ _ ∧ _).resolve_left hne
      rw [if_pos hmem] at hdet
      rw [step, Op.apply, happly]
      exact valid_of_detachable hv hl (heq ▸ hdet)
    · have habsent : ∀ a ∈ o.entries, ¬decide (a.1 = key) = true :=
        fun a ha h => hex ⟨a, ha, h⟩
      rw [step, Op.apply, List.eraseP_of_forall_not habsent]
      exact hv
  | View => exact hv

end Outline

/-! ## Runs from the empty list -/

section Rounds

variable {log : Option Unit} {m n : ℕ} {list list' list'' : State V}

omit [DecidableEq V] in
theorem erasebykey_mono {key : ℤ} {r : State V × Option ℤ}
    (h : erasebykey log n list key = some r) (hnm : n ≤ m) :
    erasebykey log m list key = some r := by
  rw [erasebykey] at h ⊢
  split_ifs at h ⊢
  · exact h
  · obtain ⟨_, rfl, h⟩ := Option.bind_eq_some_iff.mp h
    obtain ⟨found, hfound, h⟩ := Option.bind_eq_some_iff.mp h
    rw [Option.bind_eq_bind, Option.bind_some, findKey_mono hfound hnm]
    exact h

theorem erasebyvalue_mono {value : V} {r : State V × Option ℤ}
    (h : erasebyvalue log n list value = some r) (hnm : n ≤ m) :
    erasebyvalue log m list value = some r := by
  rw [erasebyvalue] at h ⊢
  split_ifs at h ⊢
  · exact h
  · obtain ⟨node, hnode, h⟩ := Option.bind_eq_some_iff.mp h
    obtain ⟨_, rfl, h⟩ := Option.bind_eq_some_iff.mp h
    obtain ⟨found, hfound, h⟩ := Option.bind_eq_some_iff.mp h
    rw [hnode, Option.bind_eq_bind, Option.bind_some, Option.bind_eq_bind, Option.bind_some,
      findValue_mono hfound hnm]
    exact h

/-- The list after an operation does not depend on the rounds that are granted. -/
theorem exec_unique {op : Op V} {r r' : Option (V ⊕ ℤ)}
    (h : exec log n list op = some (list', r)) (h' : exec log m list op = some (list'', r')) :
    list' = list'' := by
  cases op with
  | pushFront value => exact congrArg Prod.fst (Option.some.inj (h.symm.trans h'))
  | pushBack value => exact congrArg Prod.fst (Option.some.inj (h.symm.trans h'))
  | popFront => exact congrArg Prod.fst (Option.some.inj (h.symm.trans h'))
  | popBack => exact congrArg Prod.fst (Option.some.inj (h.symm.trans h'))
  | erasebyvalue value =>
    obtain ⟨a, ha, hpair⟩ := Option.map_eq_some_iff.mp h
    obtain ⟨b, hb, hpair'⟩ := Option.map_eq_some_iff.mp h'
    have hab := (erasebyvalue_mono ha (le_max_left n m)).symm.trans
      (erasebyvalue_mono hb (le_max_right n m))
    cases hab
    exact congrArg Prod.fst (hpair.symm.trans hpair')
  | erasebykey key =>
    obtain ⟨a, ha, hpair⟩ := Option.map_eq_some_iff.mp h
    obtain ⟨b, hb, hpair'⟩ := Option.map_eq_some_iff.mp h'
    have hab := (erasebykey_mono ha (le_max_left n m)).symm.trans
      (erasebykey_mono hb (le_max_right n m))
    cases hab
    exact congrArg Prod.fst (hpair.symm.trans hpair')
  | View =>
    obtain ⟨_, -, hpair⟩ := Option.map_eq_some_iff.mp h
    obtain ⟨_, -, hpair'⟩ := Option.map_eq_some_iff.mp h'
    cases hpair
    cases hpair'
    rfl

end Rounds

/-- A run keeps the chain from first to last exactly when its operations are admitted. -/
theorem runs_linked_iff {log : Option Unit} {o : Outline V} (hv : o.Valid) {ops : List (Op V)}
    (hlegal : LegalRun o.entries ops) :
    Runs Linked log o.entries o.list ops ↔ AdmittedRun log o ops := by
  induction ops generalizing o with
  | nil => exact Iff.rfl
  | cons op ops ih =>
    have hentries : (o.step op).entries = op.apply o.entries := by cases op <;> rfl
    constructor
    · rintro ⟨n, list', hexec, hlinked, hruns⟩
      have hadm : o.Admitted log op := by
        by_contra hadm
        exact Outline.not_linked_of_exec hv hlegal.1 hadm hexec hlinked
      obtain ⟨m, hexec'⟩ := Outline.exec_of_admitted hv hadm
      rw [exec_unique hexec hexec', ← hentries] at hruns
      exact ⟨hadm, (ih (Outline.valid_step hv hadm) (hentries ▸ hlegal.2)).mp hruns⟩
    · rintro ⟨hadm, hrest⟩
      obtain ⟨n, hexec⟩ := Outline.exec_of_admitted hv hadm
      refine ⟨n, _, hexec, ⟨_, _, by rw [← hentries]; rfl⟩, ?_⟩
      rw [← hentries]
      exact (ih (Outline.valid_step hv hadm) (hentries ▸ hlegal.2)).mpr hrest

omit [DecidableEq V] in
theorem valid_new : Outline.Valid (⟨[], none, none⟩ : Outline V) :=
  ⟨List.Pairwise.nil, fun h => absurd rfl h, fun h => absurd rfl h⟩

/-- After a push onto the empty list a node links to itself. -/
theorem not_ended_of_push {log : Option Unit} {n : ℕ} {op : Op V} (hpush : op.isPush = true)
    {list : State V} {r : Option (V ⊕ ℤ)} (hexec : exec log n new op = some (list, r)) :
    ¬Ended list (op.apply []) := by
  intro hended
  have hnode := congrFun (congrArg State.nodes hended) 0
  cases op with
  | pushFront value =>
    cases hexec
    have hlink := congrArg (Option.map Node.N) hnode
    simp [Op.apply, linked, chain, firstKey, new] at hlink
  | pushBack value =>
    cases hexec
    have hlink := congrArg (Option.map Node.P) hnode
    simp [Op.apply, linked, chain, firstKey, lastKey, new] at hlink
  | _ => cases hpush

/-- On the empty list everything but a push leaves it empty. -/
theorem apply_nil {op : Op V} (hlegal : op.Legal []) (hpush : op.isPush = false) :
    op.apply [] = [] := by
  cases op with
  | pushFront value => cases hpush
  | pushBack value => cases hpush
  | popFront => exact absurd rfl hlegal
  | popBack => exact absurd rfl hlegal
  | erasebyvalue value => rfl
  | erasebykey key => rfl
  | View => rfl

theorem exec_nil {log : Option Unit} {n : ℕ} {op : Op V} (hlegal : op.Legal [])
    (hpush : op.isPush = false) (hlog : op = .View → log = some ()) :
    exec log n new op = some (new, op.result []) := by
  cases op with
  | pushFront value => cases hpush
  | pushBack value => cases hpush
  | popFront => exact absurd rfl hlegal
  | popBack => exact absurd rfl hlegal
  | erasebyvalue value => rfl
  | erasebykey key => rfl
  | View =>
    rw [hlog rfl]
    rfl

/-- The links at the ends stay as they should exactly when nothing is pushed. -/
theorem runs_ended_iff {log : Option Unit} {ops : List (Op V)} (hlegal : LegalRun [] ops) :
    Runs Ended log [] new ops ↔
      ∀ op ∈ ops, op.isPush = false ∧ (op = .View → log = some ()) := by
  induction ops with
  | nil => exact iff_of_true trivial nofun
  | cons op ops ih =>
    rw [List.forall_mem_cons]
    constructor
    · rintro ⟨n, list, hexec, hended, hruns⟩
      have hpush : op.isPush = false :=
        Bool.eq_false_iff.mpr fun hpush => not_ended_of_push hpush hexec hended
      have happly := apply_nil hlegal.1 hpush
      have hlog : op = .View → log = some () := by
        rintro rfl
        obtain ⟨_, hview, -⟩ := Option.map_eq_some_iff.mp hexec
        exact hview
      rw [Ended, happly, linked_nil] at hended
      rw [happly, hended] at hruns
      exact ⟨⟨hpush, hlog⟩, (ih (happly ▸ hlegal.2)).mp hruns⟩
    · rintro ⟨⟨hpush, hlog⟩, hrest⟩
      have happly := apply_nil hlegal.1 hpush
      refine ⟨0, new, exec_nil hlegal.1 hpush hlog, ?_, ?_⟩
      · rw [Ended, happly, linked_nil]
      · rw [happly]
        exact (ih (happly ▸ hlegal.2)).mpr hrest

/-- What a run from the empty list keeps: the chain with its ends as long as nothing is pushed, and
the chain from first to last as long as every operation is admitted. -/
theorem runs_iff {ops : List (Op V)} (hlegal : LegalRun [] ops) (log : Option Unit) :
    (Runs Ended log [] new ops ↔
        ∀ op ∈ ops, op.isPush = false ∧ (op = .View → log = some ())) ∧
      (Runs Linked log [] new ops ↔ AdmittedRun log ⟨[], none, none⟩ ops) :=
  ⟨runs_ended_iff hlegal, runs_linked_iff valid_new hlegal⟩

/-- With a push in front of a node that was pushed at the back, erasures and `View` end. -/
theorem runs_iff_pushes :
    Runs Linked (some ()) [] new [.pushBack 1, .pushFront 2, .erasebyvalue 1, .View, .popBack] := by
  refine (runs_iff ?_ (some ())).2.mpr ?_
  · simp [LegalRun, Op.Legal, Op.apply, firstKey, lastKey]
  · simp [AdmittedRun, Outline.Admitted, Outline.step, Outline.Detachable, Op.apply, firstKey,
      lastKey]

/-- After one push in front `View` does not end, and the only node links to itself. -/
theorem runs_pushFront :
    LegalRun [] [.pushFront 7, .View] ∧ ¬Runs Linked (some ()) [] new [.pushFront 7, .View] ∧
      ¬Runs Ended (some ()) [] new [.pushFront 7] := by
  have hlegal : LegalRun [] [.pushFront 7, .View] := ⟨trivial, trivial, trivial⟩
  refine ⟨hlegal, ?_, ?_⟩
  · rw [show (new : State ℕ) = (⟨[], none, none⟩ : Outline ℕ).list from rfl,
      runs_linked_iff valid_new hlegal]
    simp [AdmittedRun, Outline.Admitted, Outline.step, Op.apply]
  · have hone : LegalRun [] [Op.pushFront 7] := ⟨trivial, trivial⟩
    intro hruns
    exact absurd ((runs_ended_iff hone).mp hruns _ List.mem_cons_self).1 (by decide)

end GameServer.LinkedList
