import Mathlib.Data.List.Nodup
import Mathlib.Logic.Function.Basic

/-!
# Chains of nodes that name their neighbours

A table holds nodes by keys, and every node keeps the keys of the node behind it and of the one
before it. A list of entries determines a chain but for the links at its two ends.
-/

namespace GameServer.DoublyLinked

structure Node (K V : Type) where
  v : V
  N : Option K
  P : Option K

abbrev Nodes (K V : Type) := K → Option (Node K V)

variable {K V : Type}

def keys (l : List (K × V)) : List K := l.map Prod.fst

def firstKey (l : List (K × V)) : Option K := l.head?.map Prod.fst

def lastKey (l : List (K × V)) : Option K := l.getLast?.map Prod.fst

@[simp] theorem firstKey_cons (e : K × V) (l : List (K × V)) : firstKey (e :: l) = some e.1 := rfl

@[simp] theorem lastKey_append (l : List (K × V)) (e : K × V) :
    lastKey (l ++ [e]) = some e.1 := by
  rw [lastKey, List.getLast?_append]
  rfl

theorem lastKey_cons_or (e : K × V) (l : List (K × V)) (P : Option K) :
    (lastKey (e :: l)).or P = (lastKey l).or (some e.1) := by
  cases l with
  | nil => rfl
  | cons f l =>
    rw [lastKey, List.getLast?_cons_cons, lastKey, List.getLast?_cons]
    rfl

theorem firstKey_append_or (l l' : List (K × V)) (N : Option K) :
    (firstKey (l ++ l')).or N = (firstKey l).or ((firstKey l').or N) := by
  cases l <;> rfl

theorem lastKey_mem {l : List (K × V)} {k : K} (h : lastKey l = some k) : k ∈ keys l := by
  obtain ⟨e, he, rfl⟩ := Option.map_eq_some_iff.mp h
  exact List.mem_map_of_mem (List.mem_of_getLast? he)

theorem firstKey_mem {l : List (K × V)} {k : K} (h : firstKey l = some k) : k ∈ keys l := by
  obtain ⟨e, he, rfl⟩ := Option.map_eq_some_iff.mp h
  exact List.mem_map_of_mem (List.mem_of_head? he)

theorem keys_append (l l' : List (K × V)) : keys (l ++ l') = keys l ++ keys l' := List.map_append

theorem notMem_before {l l' : List (K × V)} {e : K × V} (h : (keys (l ++ e :: l')).Nodup) :
    e.1 ∉ keys l := by
  rw [keys_append, List.nodup_append'] at h
  exact fun hmem => h.2.2 hmem List.mem_cons_self

theorem notMem_behind {l l' : List (K × V)} {e : K × V} (h : (keys (l ++ e :: l')).Nodup) :
    e.1 ∉ keys l' := by
  rw [keys_append, List.nodup_append'] at h
  exact (List.nodup_cons.mp h.2.1).1

variable [DecidableEq K]

/-- The nodes of entries on top of a table, with the links `P` and `N` at the two ends. -/
def chain (base : Nodes K V) (P N : Option K) : List (K × V) → Nodes K V
  | [] => base
  | e :: l => Function.update (chain base (some e.1) N l) e.1 (some ⟨e.2, (firstKey l).or N, P⟩)

def setP (nodes : Nodes K V) (k : K) (P : Option K) : Option (Nodes K V) :=
  (nodes k).map fun node => Function.update nodes k (some { node with P })

def setN (nodes : Nodes K V) (k : K) (N : Option K) : Option (Nodes K V) :=
  (nodes k).map fun node => Function.update nodes k (some { node with N })

def erase (nodes : Nodes K V) (k : K) : Nodes K V := Function.update nodes k none

section Chain

variable {base : Nodes K V} {P N : Option K} {l l' : List (K × V)} {e f : K × V} {k : K}

theorem chain_append (l l' : List (K × V)) :
    chain base P N (l ++ l') =
      chain (chain base ((lastKey l).or P) N l') P ((firstKey l').or N) l := by
  induction l generalizing P with
  | nil => rfl
  | cons e l ih =>
    rw [List.cons_append, chain, ih, chain, lastKey_cons_or, firstKey_append_or]

theorem chain_of_notMem (h : k ∉ keys l) : chain base P N l k = base k := by
  induction l generalizing P with
  | nil => rfl
  | cons e l ih =>
    rw [keys, List.map_cons, List.mem_cons, not_or] at h
    rw [chain, Function.update_of_ne h.1, ih h.2]

theorem chain_ne_none (h : k ∈ keys l) : chain base P N l k ≠ none := by
  induction l generalizing P with
  | nil => cases h
  | cons e l ih =>
    rw [chain]
    by_cases hk : k = e.1
    · rw [hk, Function.update_self]
      exact Option.some_ne_none _
    · rw [Function.update_of_ne hk]
      exact ih ((List.mem_cons.mp h).resolve_left hk)

/-- A table is changed below a chain that does not have the key. -/
theorem update_chain (h : k ∉ keys l) (node : Option (Node K V)) :
    Function.update (chain base P N l) k node = chain (Function.update base k node) P N l := by
  induction l generalizing P with
  | nil => rfl
  | cons e l ih =>
    rw [keys, List.map_cons, List.mem_cons, not_or] at h
    rw [chain, chain, Function.update_comm (Ne.symm h.1), ih h.2]

theorem chain_self (h : e.1 ∉ keys l) :
    chain base P N (l ++ e :: l') e.1 =
      some ⟨e.2, (firstKey l').or N, (lastKey l).or P⟩ := by
  rw [chain_append, chain_of_notMem h, chain, Function.update_self]

theorem setP_chain (P' : Option K) :
    setP (chain base P N (e :: l)) e.1 P' = some (chain base P' N (e :: l)) := by
  simp only [setP, chain, Function.update_self, Option.map_some, Function.update_idem]

theorem setN_chain (h : e.1 ∉ keys l) (N' : Option K) :
    setN (chain base P N (l ++ [e])) e.1 N' = some (chain base P N' (l ++ [e])) := by
  rw [setN, chain_self h, Option.map_some, chain_append, update_chain h, chain_append]
  simp only [chain, Function.update_idem]
  rfl

/-! ## Changes at other keys -/

theorem setP_update {nodes : Nodes K V} {k' : K} (h : k ≠ k') (P' : Option K)
    (node : Option (Node K V)) :
    setP (Function.update nodes k' node) k P' =
      (setP nodes k P').map fun nodes => Function.update nodes k' node := by
  rw [setP, setP, Function.update_of_ne h, Option.map_map]
  exact congrArg (Option.map · (nodes k)) (funext fun node => Function.update_comm (Ne.symm h) ..)

theorem setN_update {nodes : Nodes K V} {k' : K} (h : k ≠ k') (N' : Option K)
    (node : Option (Node K V)) :
    setN (Function.update nodes k' node) k N' =
      (setN nodes k N').map fun nodes => Function.update nodes k' node := by
  rw [setN, setN, Function.update_of_ne h, Option.map_map]
  exact congrArg (Option.map · (nodes k)) (funext fun node => Function.update_comm (Ne.symm h) ..)

theorem setP_below (h : k ∉ keys l) (P' : Option K) :
    setP (chain base P N l) k P' = (setP base k P').map fun base => chain base P N l := by
  rw [setP, setP, chain_of_notMem h, Option.map_map]
  refine congrArg (Option.map · (base k)) (funext fun node => ?_)
  exact update_chain h _

theorem erase_below (h : k ∉ keys l) :
    erase (chain base P N l) k = chain (erase base k) P N l := update_chain h none

end Chain

/-! ## Entries that come and go -/

def empty : Nodes K V := fun _ => none

section Entries

variable {P N : Option K} {l l' : List (K × V)} {e f g : K × V}

theorem erase_empty (k : K) : erase (empty : Nodes K V) k = empty := Function.update_eq_self k empty

theorem erase_absent {k : K} (h : k ∉ keys l) :
    erase (chain empty P N l) k = chain empty P N l := by
  rw [erase_below h, erase_empty]

theorem erase_first (h : e.1 ∉ keys l) :
    erase (chain empty P N (e :: l)) e.1 = chain empty (some e.1) N l := by
  rw [chain, erase, Function.update_idem]
  exact erase_absent h

theorem erase_last (h : e.1 ∉ keys l) :
    erase (chain empty P N (l ++ [e])) e.1 = chain empty P (some e.1) l := by
  rw [chain_append, erase_below h, erase_first List.not_mem_nil]
  rfl

/-- An entry in front, with the link of the next one to it. -/
theorem link_first (h : e.1 ≠ f.1) (P' : Option K) :
    setP (Function.update (chain empty P N (f :: l)) e.1 (some ⟨e.2, some f.1, P'⟩)) f.1
      (some e.1) = some (chain empty P' N (e :: f :: l)) := by
  rw [setP_update (Ne.symm h), setP_chain]
  rfl

/-- An entry at the end, with the link of the one before it. -/
theorem link_last (h : (keys (l ++ [e] ++ [f])).Nodup) (N' : Option K) :
    setN (Function.update (chain empty P N (l ++ [e])) f.1 (some ⟨f.2, N', some e.1⟩)) e.1
      (some f.1) = some (chain empty P N' (l ++ [e] ++ [f])) := by
  have hf : f.1 ∉ keys (l ++ [e]) := notMem_before h
  have he : e.1 ∉ keys l := by
    rw [keys_append] at h
    exact notMem_before h.of_append_left
  have hne : e.1 ≠ f.1 := by
    rintro heq
    rw [keys_append, ← heq] at hf
    exact hf (List.mem_append_right _ List.mem_cons_self)
  rw [setN_update hne, setN_chain he, Option.map_some, chain_append (l ++ [e]), update_chain hf,
    lastKey_append]
  rfl

theorem unlink_first (h : (keys (e :: f :: l)).Nodup) (P' : Option K) :
    ∃ nodes, setP (chain empty P N (e :: f :: l)) f.1 P' = some nodes ∧
      erase nodes e.1 = chain empty P' N (f :: l) := by
  have he : e.1 ∉ keys (f :: l) := notMem_behind (l := []) h
  have hne : f.1 ≠ e.1 := fun heq => he (heq ▸ List.mem_cons_self)
  refine ⟨_, (setP_update hne _ _).trans (by rw [setP_chain, Option.map_some]), ?_⟩
  rw [erase, Function.update_idem]
  exact erase_absent he

theorem unlink_last (h : (keys (l ++ [e] ++ [f])).Nodup) (N' : Option K) :
    ∃ nodes, setN (chain empty P N (l ++ [e] ++ [f])) e.1 N' = some nodes ∧
      erase nodes f.1 = chain empty P N' (l ++ [e]) := by
  have hf : f.1 ∉ keys (l ++ [e]) := notMem_before h
  have he : e.1 ∉ keys l := notMem_before (keys_append .. ▸ h).of_append_left
  rw [chain_append, setN_chain he]
  refine ⟨_, rfl, ?_⟩
  rw [erase_below hf, erase_first List.not_mem_nil]
  rfl

theorem unlink (h : (keys (l ++ [e] ++ f :: g :: l')).Nodup) :
    ∃ nodes nodes', setN (chain empty P N (l ++ [e] ++ f :: g :: l')) e.1 (some g.1) = some nodes ∧
      setP nodes g.1 (some e.1) = some nodes' ∧
      erase nodes' f.1 = chain empty P N (l ++ [e] ++ g :: l') := by
  have hf : f.1 ∉ keys (l ++ [e]) := notMem_before h
  have hf' : f.1 ∉ keys (g :: l') := notMem_behind h
  have he : e.1 ∉ keys l := notMem_before (keys_append .. ▸ h).of_append_left
  have hg : g.1 ∉ keys (l ++ [e]) ∧ g.1 ∉ keys [f] := by
    rw [List.append_cons] at h
    have hmem := notMem_before h
    rwa [keys_append, List.mem_append, not_or] at hmem
  have hne : g.1 ≠ f.1 := fun heq => hg.2 (List.mem_singleton.mpr heq)
  have hbelow : setP (chain empty (some e.1) N (f :: g :: l')) g.1 (some e.1) = some
      (Function.update (chain empty (some e.1) N (g :: l')) f.1
        (some ⟨f.2, some g.1, some e.1⟩)) := by
    rw [chain, setP_update hne, setP_chain]
    rfl
  have habsent := erase_absent (P := some e.1) (N := N) hf'
  rw [chain_append, lastKey_append, setN_chain he, Option.some_or]
  refine ⟨_, _, rfl, (setP_below hg.1 _).trans (by rw [hbelow, Option.map_some]), ?_⟩
  rw [erase_below hf, erase, Function.update_idem, ← erase, habsent, chain_append (l ++ [e]),
    lastKey_append]
  rfl

end Entries

/-! ## Walks -/

/-- From entry to entry along the links `N`. -/
def Walk (nodes : Nodes K V) (N : Option K) : List (K × V) → Prop
  | [] => True
  | e :: l => (∃ P, nodes e.1 = some ⟨e.2, (firstKey l).or N, P⟩) ∧ Walk nodes N l

theorem walk_behind {P N : Option K} {l l' : List (K × V)} (h : (keys (l ++ l')).Nodup) :
    Walk (chain empty P N (l ++ l')) N l' := by
  induction l' generalizing l with
  | nil => trivial
  | cons e l' ih =>
    have hrest : (keys (l ++ [e] ++ l')).Nodup := by rwa [← List.append_cons]
    have hwalk := ih hrest
    rw [← List.append_cons] at hwalk
    exact ⟨⟨_, chain_self (notMem_before h)⟩, hwalk⟩

theorem walk_chain {P N : Option K} {l : List (K × V)} (h : (keys l).Nodup) :
    Walk (chain empty P N l) N l :=
  walk_behind (l := []) h

omit [DecidableEq K] in
/-- From a node of a walk the link leads to another one or, from the last, away from it. -/
theorem Walk.next {nodes : Nodes K V} {N : Option K} {l : List (K × V)} {e : K × V}
    (h : Walk nodes N l) (he : e ∈ l) :
    ∃ node, nodes e.1 = some node ∧ node.v = e.2 ∧ (node.N = N ∨ ∃ f ∈ l, node.N = some f.1) := by
  induction l with
  | nil => cases he
  | cons a l ih =>
    obtain ⟨⟨P, hnode⟩, hwalk⟩ := h
    rcases List.mem_cons.mp he with rfl | he
    · refine ⟨_, hnode, rfl, ?_⟩
      cases l with
      | nil => exact .inl rfl
      | cons f l => exact .inr ⟨f, List.mem_cons_of_mem _ List.mem_cons_self, rfl⟩
    · obtain ⟨node, hnode, hv, hnext⟩ := ih hwalk he
      refine ⟨node, hnode, hv, hnext.imp_right ?_⟩
      rintro ⟨f, hf, hlink⟩
      exact ⟨f, List.mem_cons_of_mem a hf, hlink⟩

end GameServer.DoublyLinked
