import Mathlib.Data.List.Sort
import Mathlib.Data.Prod.Lex
import Mathlib.Data.Finset.Card
import Mathlib.Tactic

/-!
# Sorted sets

A set of members with whole scores, listed from the highest down; members of one score are listed in
reverse order. A member is listed once.
-/

namespace GameServer

structure SortedSet (α : Type*) [LinearOrder α] where
  entries : List (ℤ ×ₗ α)
  sorted : entries.Pairwise (· ≥ ·)
  nodup : (entries.map fun e => (ofLex e).2).Nodup

namespace SortedSet

variable {α : Type*} [LinearOrder α]

def empty : SortedSet α := ⟨[], .nil, .nil⟩

def zrem (z : SortedSet α) (member : α) : SortedSet α where
  entries := z.entries.filter fun e => (ofLex e).2 ≠ member
  sorted := z.sorted.filter _
  nodup := (List.Sublist.map _ List.filter_sublist).nodup z.nodup

theorem notMem_zrem (z : SortedSet α) (member : α) :
    member ∉ (z.zrem member).entries.map fun e => (ofLex e).2 := by
  simp [zrem]

/-- A member that is there gets the new score. -/
def zadd (z : SortedSet α) (score : ℤ) (member : α) : SortedSet α where
  entries := (z.zrem member).entries.orderedInsert (· ≥ ·) (toLex (score, member))
  sorted := (z.zrem member).sorted.orderedInsert _ _
  nodup := by
    have hperm := (List.perm_orderedInsert (· ≥ ·) (toLex (score, member))
      (z.zrem member).entries).map fun e => (ofLex e).2
    exact hperm.nodup_iff.mpr (List.nodup_cons.mpr ⟨z.notMem_zrem member, (z.zrem member).nodup⟩)

def zscore (z : SortedSet α) (member : α) : Option ℤ :=
  (z.entries.find? fun e => (ofLex e).2 = member).map fun e => (ofLex e).1

/-- The number of members with scores from `lo` to `hi`. -/
def zcount (z : SortedSet α) (lo hi : ℤ) : ℕ :=
  z.entries.countP fun e => lo ≤ (ofLex e).1 ∧ (ofLex e).1 ≤ hi

/-- The members from the place `start` to the place `stop`, with their scores. -/
def zrevrange (z : SortedSet α) (start stop : ℕ) : List (ℤ ×ₗ α) :=
  (z.entries.drop start).take (stop + 1 - start)

def members (z : SortedSet α) : Finset α :=
  ⟨z.entries.map fun e => (ofLex e).2, Multiset.coe_nodup.mpr z.nodup⟩

variable {z : SortedSet α} {m a : α} {s e : ℤ}

theorem card_members (z : SortedSet α) : z.members.card = z.entries.length :=
  List.length_map _

theorem zscore_eq_some_iff : z.zscore m = some s ↔ toLex (s, m) ∈ z.entries := by
  constructor
  · intro h
    obtain ⟨e, hfind, rfl⟩ := Option.map_eq_some_iff.mp h
    have hmember : (ofLex e).2 = m := by simpa using List.find?_some hfind
    subst hmember
    exact List.mem_of_find?_eq_some hfind
  · intro h
    have hsome : (z.entries.find? fun e => (ofLex e).2 = m).isSome :=
      List.find?_isSome.mpr ⟨_, h, decide_eq_true rfl⟩
    obtain ⟨e, hfind⟩ := Option.isSome_iff_exists.mp hsome
    have hmember : (ofLex e).2 = m := by simpa using List.find?_some hfind
    have heq := List.inj_on_of_nodup_map z.nodup (List.mem_of_find?_eq_some hfind) h hmember
    rw [zscore, hfind, heq]
    rfl

theorem mem_members_iff : m ∈ z.members ↔ (z.zscore m).isSome := by
  rw [Option.isSome_iff_exists]
  simp only [zscore_eq_some_iff]
  constructor
  · intro h
    obtain ⟨e, he, rfl⟩ := List.mem_map.mp (Multiset.mem_coe.mp h)
    exact ⟨(ofLex e).1, he⟩
  · rintro ⟨s, h⟩
    exact Multiset.mem_coe.mpr (List.mem_map.mpr ⟨_, h, rfl⟩)

theorem zscore_zrem (z : SortedSet α) (member : α) :
    (z.zrem member).zscore = Function.update z.zscore member none := by
  funext m
  apply Option.ext
  intro s
  rw [zscore_eq_some_iff, zrem, List.mem_filter, ← zscore_eq_some_iff]
  by_cases h : m = member
  · subst h
    simp
  · simp [h]

theorem zscore_zadd (z : SortedSet α) (score : ℤ) (member : α) :
    (z.zadd score member).zscore = Function.update z.zscore member (some score) := by
  funext m
  apply Option.ext
  intro s
  rw [zscore_eq_some_iff, zadd, List.mem_orderedInsert, ← zscore_eq_some_iff, zscore_zrem]
  by_cases h : m = member
  · subst h
    simp [eq_comm]
  · simp [h]

theorem length_zrem (h : (z.zscore m).isSome) :
    (z.zrem m).entries.length + 1 = z.entries.length := by
  have hmembers : (z.zrem m).members = z.members.erase m := by
    ext a
    rw [Finset.mem_erase, mem_members_iff, mem_members_iff, zscore_zrem]
    by_cases ha : a = m
    · subst ha
      simp
    · simp [ha]
  rw [← card_members, ← card_members, hmembers]
  exact Finset.card_erase_add_one (mem_members_iff.mpr h)

theorem length_zadd_le (z : SortedSet α) (score : ℤ) (member : α) :
    (z.zadd score member).entries.length ≤ z.entries.length + 1 := by
  rw [zadd, List.orderedInsert_length]
  exact Nat.succ_le_succ (List.length_filter_le _ _)

theorem zcount_le (z : SortedSet α) (lo hi : ℤ) : z.zcount lo hi ≤ z.entries.length :=
  List.countP_le_length

theorem zrevrange_eq_nil {n : ℕ} (h : z.entries.length ≤ n) : z.zrevrange n n = [] := by
  rw [zrevrange, List.drop_of_length_le h, List.take_nil]

/-- In the last place stands a member with the least score. -/
theorem zrevrange_last {n : ℕ} (h : z.entries.length = n + 1) : ∃ score member,
    z.zrevrange n n = [toLex (score, member)] ∧ z.zscore member = some score ∧
      ∀ a e, z.zscore a = some e → score ≤ e := by
  obtain ⟨front, last, heq⟩ := List.eq_nil_or_concat' z.entries |>.resolve_left
    (List.ne_nil_of_length_eq_add_one h)
  have hfront : front.length = n := by
    rw [heq, List.length_append, List.length_singleton] at h
    omega
  refine ⟨(ofLex last).1, (ofLex last).2, ?_, ?_, fun a e ha => ?_⟩
  · rw [zrevrange, heq, ← hfront, List.drop_left]
    simp
  · apply zscore_eq_some_iff.mpr
    rw [heq]
    exact List.mem_append_right _ List.mem_cons_self
  · have hmem := zscore_eq_some_iff.mp ha
    have hsorted := z.sorted
    rw [heq] at hmem hsorted
    obtain hmem | hmem := List.mem_append.mp hmem
    · have hge := (List.pairwise_append.mp hsorted).2.2 _ hmem last List.mem_cons_self
      exact (Prod.Lex.monotone_fst _ _ hge)
    · rw [List.mem_singleton] at hmem
      rw [← hmem]
      rfl

end SortedSet

end GameServer
