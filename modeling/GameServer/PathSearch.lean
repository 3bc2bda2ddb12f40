import Mathlib.Tactic
import GameServer.BestFirst
import GameServer.PathArena

/-!
# What the search knows

A step of the search leads from a cell to a neighbour with a clear footprint. `Sound` says that
every node is the start or was reached by such a step from a closed node, and that from a closed
node `camefrom` leads through closed nodes to the start. `Exact` says that closed nodes have their
final score and have offered a score to their neighbours; it holds as long as `add_open` never
failed. The loops of `path_finding` keep both.
-/

namespace GameServer.Pathfinding

open BestFirst

def Node.cell (pn : Node) : Cell := (pn.x, pn.y)

def Off.apply (off : Off) (c : Cell) : Cell := (c.1 + off.dx, c.2 + off.dy)

/-- A step of the search, with its cost. -/
def StepTo (m : Map) (bsize : ℤ) (stop : Cell) (a b : Cell) (c : ℤ) : Prop :=
  ∃ off ∈ OFF, b = off.apply a ∧ c = off.distance + off.distance ∧ Clear m bsize stop b

/-! ## Steps on the map -/

theorem mem_span {bsize p : ℤ} : p ∈ span bsize ↔ -bsize ≤ p ∧ p ≤ bsize := by
  rw [span, List.mem_map]
  constructor
  · rintro ⟨k, hk, rfl⟩
    rw [List.mem_range] at hk
    omega
  · rintro ⟨hlo, hhi⟩
    exact ⟨(p + bsize).toNat, List.mem_range.mpr (by omega), by omega⟩

theorem blocked_eq_false {m : Map} {bsize x y end_x end_y : ℤ} :
    blocked m bsize x y end_x end_y = false ↔ Clear m bsize (end_x, end_y) (x, y) := by
  have hcell : ∀ p q, (decide (map_get m (x + p) (y + q) > 0) &&
      !decide (x + p = end_x ∧ y + q = end_y)) = false ↔
      map_get m (x + p) (y + q) = 0 ∨ (x + p, y + q) = (end_x, end_y) := by
    intro p q
    have hzero : ∀ w : UInt8, ¬ w > 0 ↔ w = 0 := fun w => by
      rw [gt_iff_lt, UInt8.not_lt]
      exact ⟨fun h => UInt8.le_antisymm h (UInt8.zero_le), fun h => h ▸ UInt8.le_refl 0⟩
    rw [Bool.and_eq_false_iff, decide_eq_false_iff_not, hzero, Bool.not_eq_false',
      decide_eq_true_iff, Prod.mk.injEq]
  simp only [blocked, List.any_eq_false, Bool.not_eq_true, hcell, mem_span, Clear, and_imp]
  exact ⟨fun h p q hp hp' hq hq' => h p hp hp' q hq hq',
    fun h p hp hp' q hq hq' => h p q hp hp' hq hq'⟩

/-- The entries of `OFF` are the eight neighbours with half their costs. -/
theorem exists_off_iff {a b : Cell} {c : ℤ} :
    (∃ off ∈ OFF, b = off.apply a ∧ c = off.distance + off.distance) ↔
      Neighbour a b ∧ c = stepCost a b := by
  obtain ⟨ax, ay⟩ := a
  obtain ⟨bx, b_y⟩ := b
  constructor
  · rintro ⟨off, hoff, hb, rfl⟩
    simp only [OFF, List.mem_cons, List.not_mem_nil, or_false] at hoff
    rcases hoff with rfl | rfl | rfl | rfl | rfl | rfl | rfl | rfl <;>
      simp_all [Off.apply, Neighbour, stepCost]
  · rintro ⟨⟨hne, hx, hy⟩, rfl⟩
    rw [abs_le] at hx hy
    dsimp only at hx hy
    have hx' : bx = ax - 1 ∨ bx = ax ∨ bx = ax + 1 := by omega
    have hy' : b_y = ay - 1 ∨ b_y = ay ∨ b_y = ay + 1 := by omega
    rcases hx' with rfl | rfl | rfl <;> rcases hy' with rfl | rfl | rfl <;>
      simp_all [Off.apply, OFF, stepCost, sub_eq_add_neg]

theorem stepTo_iff {m : Map} {bsize : ℤ} {stop a b : Cell} {c : ℤ} :
    StepTo m bsize stop a b c ↔ Neighbour a b ∧ Clear m bsize stop b ∧ c = stepCost a b := by
  constructor
  · rintro ⟨off, hoff, hb, hc, hclear⟩
    have := exists_off_iff.mp ⟨off, hoff, hb, hc⟩
    exact ⟨this.1, hclear, this.2⟩
  · rintro ⟨hn, hclear, hc⟩
    obtain ⟨off, hoff, hb, hc⟩ := exists_off_iff.mpr ⟨hn, hc⟩
    exact ⟨off, hoff, hb, hc, hclear⟩

theorem distance_eq (x1 y1 x2 y2 : ℤ) : distance x1 y1 x2 y2 =
    5 * max |x1 - x2| |y1 - y2| + 2 * min |x1 - x2| |y1 - y2| := by
  have habs : ∀ a : ℤ, (if a < 0 then -a else a) = |a| := by
    intro a
    split_ifs with h
    · exact (abs_of_neg h).symm
    · exact (abs_of_nonneg (not_lt.mp h)).symm
  simp only [distance, habs]
  split_ifs with h
  · rw [max_eq_right h.le, min_eq_left h.le]
    ring
  · rw [max_eq_left (not_lt.mp h), min_eq_right (not_lt.mp h)]
    ring

/-- The octile distance is a norm, so a step changes it by at most that of its offset. -/
theorem distance_le_add (x1 y1 x2 y2 dx dy : ℤ) : distance x1 y1 x2 y2 ≤
    distance (x1 + dx) (y1 + dy) x2 y2 + (5 * max |dx| |dy| + 2 * min |dx| |dy|) := by
  have habs : ∀ a b c : ℤ, |a - b| ≤ |a + c - b| + |c| := by
    intro a b c
    have hsum := abs_sub (a + c - b) c
    rwa [add_sub_right_comm, add_sub_cancel_right, ← add_sub_right_comm] at hsum
  have hx := habs x1 x2 dx
  have hy := habs y1 y2 dy
  rw [distance_eq, distance_eq]
  omega

/-- The octile distance drops along a step by at most half its cost. -/
theorem distance_lt_of_step {m : Map} {bsize c : ℤ} {stop a b : Cell}
    (h : StepTo m bsize stop a b c) :
    distance a.1 a.2 stop.1 stop.2 < c + distance b.1 b.2 stop.1 stop.2 := by
  obtain ⟨off, hoff, rfl, rfl, -⟩ := h
  have hcost : ∀ off ∈ OFF, 0 < off.distance ∧
      5 * max |off.dx| |off.dy| + 2 * min |off.dx| |off.dy| = off.distance := by decide
  obtain ⟨hpos, heq⟩ := hcost off hoff
  have hle := distance_le_add a.1 a.2 stop.1 stop.2 off.dx off.dy
  rw [heq] at hle
  rw [Off.apply]
  linarith

theorem distance_consistent (m : Map) (bsize : ℤ) (stop : Cell) :
    Consistent (StepTo m bsize stop) (fun c => distance c.1 c.2 stop.1 stop.2) :=
  fun _ _ _ h => (distance_lt_of_step h).le

/-! ## Following `camefrom` -/

/-- The nodes met from `i` along `camefrom`. -/
inductive Chain (nodes : List Node) : ℕ → List ℕ → Prop
  | root {i : ℕ} {pn : Node} : nodes[i]? = some pn → pn.camefrom < 0 → Chain nodes i [i]
  | link {i j : ℕ} {pn : Node} {l : List ℕ} : nodes[i]? = some pn → pn.camefrom = j →
      Chain nodes j l → Chain nodes i (i :: l)

/-- The nodes change by improvements of open ones and by new ones. -/
structure Grows (closeds : List ℕ) (nodes nodes' : List Node) : Prop where
  fixed : ∀ i ∈ closeds, nodes'[i]? = nodes[i]?
  better : ∀ (i : ℕ) (pn : Node), nodes[i]? = some pn →
    ∃ pn' : Node, nodes'[i]? = some pn' ∧ pn'.cell = pn.cell ∧ pn'.gscore ≤ pn.gscore

variable {m : Map} {bsize : ℤ} {start stop : Cell} {ctx : Context}
variable {opens closeds : List ℕ} {nodes nodes' : List Node}

theorem Chain.grows {i : ℕ} {l : List ℕ} (h : Chain nodes i l) (hg : Grows closeds nodes nodes')
    (hl : ∀ j ∈ l, j ∈ closeds) : Chain nodes' i l := by
  induction h with
  | @root i pn hpn hneg =>
      exact .root ((hg.fixed i (hl i List.mem_cons_self)).trans hpn) hneg
  | @link i j pn l hpn hfrom _ ih =>
      exact .link ((hg.fixed i (hl i List.mem_cons_self)).trans hpn) hfrom
        (ih (fun k hk => hl k (List.mem_cons_of_mem _ hk)))

/-! ## The invariants -/

/-- The node is the start, or was reached by a step from a closed node. -/
def Origin (m : Map) (bsize : ℤ) (start stop : Cell) (closeds : List ℕ) (nodes : List Node)
    (pn : Node) : Prop :=
  (pn.camefrom = -1 ∧ pn.cell = start ∧ pn.gscore = 0) ∨
    ∃ j ∈ closeds, ∃ (pj : Node) (c : ℤ), nodes[j]? = some pj ∧ pn.camefrom = j ∧
      StepTo m bsize stop pj.cell pn.cell c ∧ pn.gscore = pj.gscore + c

structure Sound (m : Map) (bsize : ℤ) (start stop : Cell) (opens closeds : List ℕ)
    (nodes : List Node) : Prop where
  nodup : (opens ++ closeds).Nodup
  known : ∀ (i : ℕ) (pn : Node), nodes[i]? = some pn → i ∈ opens ++ closeds
  distinct : ∀ (i j : ℕ) (a b : Node), nodes[i]? = some a → nodes[j]? = some b →
    a.cell = b.cell → i = j
  fscore : ∀ (i : ℕ) (pn : Node), nodes[i]? = some pn →
    pn.fscore = pn.gscore + distance pn.x pn.y stop.1 stop.2
  origin : ∀ (i : ℕ) (pn : Node), nodes[i]? = some pn → Origin m bsize start stop closeds nodes pn
  chain : ∀ i ∈ closeds, ∃ l, Chain nodes i l ∧ l.Nodup ∧ ∀ j ∈ l, j ∈ closeds
  begun : ∃ (i : ℕ) (pn : Node), nodes[i]? = some pn ∧ pn.cell = start ∧ pn.gscore ≤ 0
  unstopped : ∀ i ∈ closeds, ∀ pn : Node, nodes[i]? = some pn → pn.cell ≠ stop

/-- The neighbour at `off` of a closed node is known with a score no higher than the node offers. -/
def Relaxed (closeds : List ℕ) (nodes : List Node) (pn : Node) (off : Off) : Prop :=
  ∃ (j : ℕ) (pj : Node), nodes[j]? = some pj ∧ pj.cell = off.apply pn.cell ∧
    (j ∈ closeds ∨ pj.gscore ≤ pn.gscore + (off.distance + off.distance))

/-- `pend` tells the neighbours of closed nodes that are still to be looked at. -/
structure Exact (m : Map) (bsize : ℤ) (start stop : Cell) (closeds : List ℕ) (nodes : List Node)
    (pend : ℕ → Off → Prop) : Prop where
  relaxed : ∀ i ∈ closeds, ∀ pn : Node, nodes[i]? = some pn → ∀ off ∈ OFF, ¬ pend i off →
    Clear m bsize stop (off.apply pn.cell) → Relaxed closeds nodes pn off
  settled : ∀ i ∈ closeds, ∀ pn : Node, nodes[i]? = some pn →
    ∀ c, Walk (StepTo m bsize stop) start pn.cell c → pn.gscore ≤ c

theorem Relaxed.grows {pn : Node} {off : Off} (h : Relaxed closeds nodes pn off)
    (hg : Grows closeds nodes nodes') : Relaxed closeds nodes' pn off := by
  obtain ⟨j, pj, hpj, hcell, hscore⟩ := h
  obtain ⟨pj', hpj', hcell', hle⟩ := hg.better j pj hpj
  exact ⟨j, pj', hpj', hcell'.trans hcell, hscore.imp_right hle.trans⟩

theorem Exact.grows {pend : ℕ → Off → Prop} (h : Exact m bsize start stop closeds nodes pend)
    (hg : Grows closeds nodes nodes') : Exact m bsize start stop closeds nodes' pend where
  relaxed i hi pn hpn off hoff hpend hclear :=
    (h.relaxed i hi pn ((hg.fixed i hi).symm.trans hpn) off hoff hpend hclear).grows hg
  settled i hi pn hpn := h.settled i hi pn ((hg.fixed i hi).symm.trans hpn)

/-- Looking at the neighbour `off` of `current` takes it off the list. -/
theorem Exact.visited {current : ℕ} {off : Off} {rest : List Off} {pc : Node}
    (h : Exact m bsize start stop closeds nodes (fun i o => i = current ∧ o ∈ off :: rest))
    (hpc : nodes[current]? = some pc)
    (hoff : Clear m bsize stop (off.apply pc.cell) → Relaxed closeds nodes pc off) :
    Exact m bsize start stop closeds nodes (fun i o => i = current ∧ o ∈ rest) where
  relaxed i hi pn hpn o ho hpend hclear := by
    by_cases hcase : i = current ∧ o = off
    · obtain ⟨rfl, rfl⟩ := hcase
      rw [hpc, Option.some.injEq] at hpn
      subst hpn
      exact hoff hclear
    · refine h.relaxed i hi pn hpn o ho ?_ hclear
      rintro ⟨rfl, hmem⟩
      rcases List.mem_cons.mp hmem with rfl | hmem
      · exact hcase ⟨rfl, rfl⟩
      · exact hpend ⟨rfl, hmem⟩
  settled := h.settled

theorem Exact.frontier {pend : ℕ → Off → Prop} (h : Exact m bsize start stop closeds nodes pend)
    (hpend : ∀ i o, ¬ pend i o) (hs : Sound m bsize start stop opens closeds nodes) :
    Frontier (StepTo m bsize stop) start
      (fun v a => ∃ i ∈ closeds, ∃ pn : Node, nodes[i]? = some pn ∧ pn.cell = v ∧ pn.gscore = a)
      (fun v a => ∃ i ∈ opens, ∃ pn : Node, nodes[i]? = some pn ∧ pn.cell = v ∧ pn.gscore = a) where
  start := by
    obtain ⟨i, pn, hpn, hcell, hle⟩ := hs.begun
    rcases List.mem_append.mp (hs.known i pn hpn) with hi | hi
    · exact ⟨pn.gscore, hle, Or.inr ⟨i, hi, pn, hpn, hcell, rfl⟩⟩
    · exact ⟨pn.gscore, hle, Or.inl ⟨i, hi, pn, hpn, hcell, rfl⟩⟩
  relaxed := by
    rintro v w a c ⟨i, hi, pn, hpn, rfl, rfl⟩ ⟨off, hoff, rfl, rfl, hclear⟩
    obtain ⟨j, pj, hpj, hcell, hscore⟩ := h.relaxed i hi pn hpn off hoff (hpend i off) hclear
    rcases List.mem_append.mp (hs.known j pj hpj) with hj | hj
    · rcases hscore with hj' | hle
      · exact Or.inl ⟨pj.gscore, j, hj', pj, hpj, hcell, rfl⟩
      · exact Or.inr ⟨pj.gscore, hle, j, hj, pj, hpj, hcell, rfl⟩
    · exact Or.inl ⟨pj.gscore, j, hj, pj, hpj, hcell, rfl⟩
  settled := by
    rintro v a c ⟨i, hi, pn, hpn, rfl, rfl⟩ hw
    exact h.settled i hi pn hpn c hw

/-! ## Closing a node -/

section Close

variable {current : ℕ} {opens' : List ℕ} {pc : Node}

theorem Sound.close (h : Sound m bsize start stop opens closeds nodes)
    (hperm : opens.Perm (current :: opens')) (hpc : nodes[current]? = some pc)
    (hstop : pc.cell ≠ stop) :
    Sound m bsize start stop opens' (closeds ++ [current]) nodes := by
  have hmove : (opens ++ closeds).Perm (opens' ++ (closeds ++ [current])) := by
    have hback : (opens' ++ (closeds ++ [current])).Perm (current :: (opens' ++ closeds)) := by
      rw [← List.append_assoc]
      exact List.perm_append_comm
    exact (hperm.append_right closeds).trans hback.symm
  have hfresh : current ∉ closeds := by
    have hnodup := (hperm.append_right closeds).nodup_iff.mp h.nodup
    exact fun hmem => (List.nodup_cons.mp hnodup).1 (List.mem_append_right _ hmem)
  have horigin : ∀ {pn}, Origin m bsize start stop closeds nodes pn →
      Origin m bsize start stop (closeds ++ [current]) nodes pn := by
    rintro pn (hroot | ⟨j, hj, hrest⟩)
    · exact Or.inl hroot
    · exact Or.inr ⟨j, List.mem_append_left _ hj, hrest⟩
  refine { nodup := hmove.nodup_iff.mp h.nodup
           known := fun i pn hpn => hmove.mem_iff.mp (h.known i pn hpn)
           distinct := h.distinct, fscore := h.fscore
           origin := fun i pn hpn => horigin (h.origin i pn hpn)
           chain := ?_, begun := h.begun, unstopped := ?_ }
  · intro i hi
    rcases List.mem_append.mp hi with hi | hi
    · obtain ⟨l, hl, hnd, hsub⟩ := h.chain i hi
      exact ⟨l, hl, hnd, fun j hj => List.mem_append_left _ (hsub j hj)⟩
    · -- the new node is the start, or continues the chain of a node closed before it
      obtain rfl := List.mem_singleton.mp hi
      rcases h.origin i pc hpc with ⟨hroot, -⟩ | ⟨j, hj, -, -, -, hfrom, -⟩
      · refine ⟨[i], .root hpc (by omega), List.nodup_singleton i, fun j hj => ?_⟩
        exact List.mem_append_right _ hj
      · obtain ⟨l, hl, hnd, hsub⟩ := h.chain j hj
        refine ⟨i :: l, .link hpc hfrom hl,
          List.nodup_cons.mpr ⟨fun hmem => hfresh (hsub i hmem), hnd⟩, fun k hk => ?_⟩
        rcases List.mem_cons.mp hk with rfl | hk
        · exact List.mem_append_right _ (List.mem_singleton_self k)
        · exact List.mem_append_left _ (hsub k hk)
  · intro i hi pn hpn
    rcases List.mem_append.mp hi with hi | hi
    · exact h.unstopped i hi pn hpn
    · obtain rfl := List.mem_singleton.mp hi
      rw [hpc, Option.some.injEq] at hpn
      exact hpn ▸ hstop

/-- The open node with the lowest `fscore` has its final `gscore`. -/
theorem Exact.lowest {pend : ℕ → Off → Prop} (h : Exact m bsize start stop closeds nodes pend)
    (hpend : ∀ i o, ¬ pend i o) (hs : Sound m bsize start stop opens closeds nodes)
    (hcur : current ∈ opens) (hpc : nodes[current]? = some pc)
    (hmin : ∀ v ∈ opens, ∀ pn : Node, nodes[v]? = some pn → pc.fscore ≤ pn.fscore) :
    ∀ c, Walk (StepTo m bsize stop) start pc.cell c → pc.gscore ≤ c := by
  intro c hw
  refine (h.frontier hpend hs).least_settled (distance_consistent m bsize stop) ?_ ?_ hw
  · rintro a ⟨i, hi, pn, hpn, hcell, -⟩
    have hi' : i = current := hs.distinct i current pn pc hpn hpc hcell
    exact List.disjoint_of_nodup_append hs.nodup hcur (hi' ▸ hi)
  · rintro w a ⟨i, hi, pn, hpn, rfl, rfl⟩
    have hle := hmin i hi pn hpn
    rw [hs.fscore current pc hpc, hs.fscore i pn hpn] at hle
    exact hle

end Close

theorem Exact.close {pend : ℕ → Off → Prop} {current : ℕ} {pc : Node}
    (h : Exact m bsize start stop closeds nodes pend) (hpend : ∀ i o, ¬ pend i o)
    (hs : Sound m bsize start stop opens closeds nodes) (hcur : current ∈ opens)
    (hpc : nodes[current]? = some pc)
    (hmin : ∀ v ∈ opens, ∀ pn : Node, nodes[v]? = some pn → pc.fscore ≤ pn.fscore) :
    Exact m bsize start stop (closeds ++ [current]) nodes (fun i o => i = current ∧ o ∈ OFF) where
  relaxed i hi pn hpn off hoff hnot hclear := by
    rcases List.mem_append.mp hi with hi | hi
    · obtain ⟨j, pj, hpj, hcell, hscore⟩ := h.relaxed i hi pn hpn off hoff (hpend i off) hclear
      exact ⟨j, pj, hpj, hcell, hscore.imp_left (List.mem_append_left _)⟩
    · exact absurd ⟨List.mem_singleton.mp hi, hoff⟩ hnot
  settled i hi pn hpn := by
    rcases List.mem_append.mp hi with hi | hi
    · exact h.settled i hi pn hpn
    · obtain rfl := List.mem_singleton.mp hi
      rw [hpc, Option.some.injEq] at hpn
      exact hpn ▸ h.lowest hpend hs hcur hpc hmin

/-! ## New and improved nodes -/

section Grow

variable {current : ℕ} {pc pn' : Node} {off : Off}

/-- The node that `current` offers to its neighbour at `off`. -/
def offered (stop : Cell) (current : ℕ) (pc : Node) (off : Off) : Node :=
  let x := pc.x + off.dx
  let y := pc.y + off.dy
  let gscore := pc.gscore + off.distance + off.distance
  { x, y, camefrom := current, gscore, fscore := gscore + distance x y stop.1 stop.2 }

theorem offered_cell (stop : Cell) (current : ℕ) (pc : Node) (off : Off) :
    (offered stop current pc off).cell = off.apply pc.cell := rfl

/-- What the offered node needs to be sound in a list that has grown around the closed nodes. -/
theorem offered_origin (hcur : current ∈ closeds) (hpc : nodes'[current]? = some pc)
    (hoff : off ∈ OFF) (hclear : Clear m bsize stop (off.apply pc.cell)) :
    Origin m bsize start stop closeds nodes' (offered stop current pc off) :=
  Or.inr ⟨current, hcur, pc, off.distance + off.distance, hpc, rfl, ⟨off, hoff, rfl, rfl, hclear⟩,
    add_assoc _ _ _⟩

theorem Origin.grows {pn : Node} (h : Origin m bsize start stop closeds nodes pn)
    (hg : Grows closeds nodes nodes') : Origin m bsize start stop closeds nodes' pn := by
  rcases h with hroot | ⟨j, hj, pj, c, hpj, hrest⟩
  · exact Or.inl hroot
  · exact Or.inr ⟨j, hj, pj, c, (hg.fixed j hj).trans hpj, hrest⟩

/-- `Sound` is kept when the nodes grow, for whatever concerns each new entry by itself. -/
theorem Sound.grows {opens' : List ℕ} (h : Sound m bsize start stop opens closeds nodes)
    (hg : Grows closeds nodes nodes') (hnodup : (opens' ++ closeds).Nodup)
    (hknown : ∀ (i : ℕ) (pn : Node), nodes'[i]? = some pn → i ∈ opens' ++ closeds)
    (hdistinct : ∀ (i j : ℕ) (a b : Node), nodes'[i]? = some a → nodes'[j]? = some b →
      a.cell = b.cell → i = j)
    (hnew : ∀ (i : ℕ) (pn : Node), nodes'[i]? = some pn → nodes[i]? = some pn ∨
      (pn.fscore = pn.gscore + distance pn.x pn.y stop.1 stop.2 ∧
        Origin m bsize start stop closeds nodes' pn)) :
    Sound m bsize start stop opens' closeds nodes' where
  nodup := hnodup
  known := hknown
  distinct := hdistinct
  fscore i pn hpn := by
    rcases hnew i pn hpn with hold | ⟨hf, -⟩
    · exact h.fscore i pn hold
    · exact hf
  origin i pn hpn := by
    rcases hnew i pn hpn with hold | ⟨-, ho⟩
    · exact (h.origin i pn hold).grows hg
    · exact ho
  chain i hi := by
    obtain ⟨l, hl, hnd, hsub⟩ := h.chain i hi
    exact ⟨l, hl.grows hg hsub, hnd, hsub⟩
  begun := by
    obtain ⟨i, pn, hpn, hcell, hle⟩ := h.begun
    obtain ⟨pn', hpn', hcell', hle'⟩ := hg.better i pn hpn
    exact ⟨i, pn', hpn', hcell'.trans hcell, hle'.trans hle⟩
  unstopped i hi pn hpn := h.unstopped i hi pn ((hg.fixed i hi).symm.trans hpn)

theorem grows_set {v : ℕ} {pv : Node} (hpv : nodes[v]? = some pv) (hv : v ∉ closeds)
    (hcell : pn'.cell = pv.cell) (hle : pn'.gscore ≤ pv.gscore) :
    Grows closeds nodes (nodes.set v pn') where
  fixed i hi := by
    have hne : v ≠ i := by
      rintro rfl
      exact hv hi
    exact List.getElem?_set_ne hne
  better i pn hpn := by
    by_cases heq : v = i
    · subst heq
      rw [hpv, Option.some.injEq] at hpn
      subst hpn
      have hlt := (List.getElem?_eq_some_iff.mp hpv).1
      exact ⟨pn', List.getElem?_set_self hlt, hcell, hle⟩
    · exact ⟨pn, by rw [List.getElem?_set_ne heq, hpn], rfl, le_rfl⟩

theorem grows_append (nodes : List Node) (hlt : ∀ i ∈ closeds, i < nodes.length) :
    Grows closeds nodes (nodes ++ [pn']) where
  fixed i hi := List.getElem?_append_left (hlt i hi)
  better i pn hpn :=
    ⟨pn, by rw [List.getElem?_append_left (List.getElem?_eq_some_iff.mp hpn).1, hpn], rfl, le_rfl⟩

/-- An open node takes the better score that `current` offers. -/
theorem Sound.improve {v : ℕ} {pv : Node} (h : Sound m bsize start stop opens closeds nodes)
    (hv : v ∈ opens) (hpv : nodes[v]? = some pv) (hcur : current ∈ closeds)
    (hpc : nodes[current]? = some pc) (hoff : off ∈ OFF)
    (hclear : Clear m bsize stop (off.apply pc.cell)) (hcell : pv.cell = off.apply pc.cell)
    (hlt : (offered stop current pc off).gscore < pv.gscore) :
    Grows closeds nodes (nodes.set v (offered stop current pc off)) ∧
      Sound m bsize start stop opens closeds (nodes.set v (offered stop current pc off)) := by
  have hvc : v ∉ closeds := List.disjoint_of_nodup_append h.nodup hv
  have hg : Grows closeds nodes (nodes.set v (offered stop current pc off)) :=
    grows_set hpv hvc ((offered_cell _ _ _ _).trans hcell.symm) hlt.le
  have hlen := (List.getElem?_eq_some_iff.mp hpv).1
  -- every entry is the improved one, or was there before
  have hcases : ∀ (i : ℕ) (pn : Node), (nodes.set v (offered stop current pc off))[i]? = some pn →
      (i = v ∧ pn = offered stop current pc off) ∨ nodes[i]? = some pn := by
    intro i pn hpn
    by_cases heq : v = i
    · subst heq
      rw [List.getElem?_set_self hlen, Option.some.injEq] at hpn
      exact Or.inl ⟨rfl, hpn.symm⟩
    · rw [List.getElem?_set_ne heq] at hpn
      exact Or.inr hpn
  have hold : ∀ (i : ℕ) (pn : Node), (nodes.set v (offered stop current pc off))[i]? = some pn →
      ∃ po : Node, nodes[i]? = some po ∧ po.cell = pn.cell := by
    intro i pn hpn
    rcases hcases i pn hpn with ⟨rfl, rfl⟩ | hpn
    · exact ⟨pv, hpv, hcell.trans (offered_cell _ _ _ _).symm⟩
    · exact ⟨pn, hpn, rfl⟩
  refine ⟨hg, h.grows hg h.nodup (fun i pn hpn => ?_) (fun i j a b ha hb hab => ?_)
    (fun i pn hpn => ?_)⟩
  · obtain ⟨po, hpo, -⟩ := hold i pn hpn
    exact h.known i po hpo
  · obtain ⟨ao, hao, hca⟩ := hold i a ha
    obtain ⟨bo, hbo, hcb⟩ := hold j b hb
    exact h.distinct i j ao bo hao hbo (hca.trans (hab.trans hcb.symm))
  · rcases hcases i pn hpn with ⟨rfl, rfl⟩ | hpn
    · exact Or.inr ⟨rfl, offered_origin hcur ((hg.fixed current hcur).trans hpc) hoff hclear⟩
    · exact Or.inl hpn

/-- A cell that was not known becomes an open node. -/
theorem Sound.add (h : Sound m bsize start stop opens closeds nodes)
    (hlt : ∀ i ∈ opens ++ closeds, i < nodes.length) (hcur : current ∈ closeds)
    (hpc : nodes[current]? = some pc) (hoff : off ∈ OFF)
    (hclear : Clear m bsize stop (off.apply pc.cell))
    (hunknown : ∀ (i : ℕ) (pn : Node), nodes[i]? = some pn → pn.cell ≠ off.apply pc.cell) :
    Grows closeds nodes (nodes ++ [offered stop current pc off]) ∧
      Sound m bsize start stop (opens ++ [nodes.length]) closeds
        (nodes ++ [offered stop current pc off]) := by
  have hg : Grows closeds nodes (nodes ++ [offered stop current pc off]) :=
    grows_append nodes (fun i hi => hlt i (List.mem_append_right _ hi))
  have hcases : ∀ (i : ℕ) (pn : Node), (nodes ++ [offered stop current pc off])[i]? = some pn →
      (i = nodes.length ∧ pn = offered stop current pc off) ∨ nodes[i]? = some pn := by
    intro i pn hpn
    rcases Nat.lt_or_ge i nodes.length with hi | hi
    · rw [List.getElem?_append_left hi] at hpn
      exact Or.inr hpn
    · have hl := (List.getElem?_eq_some_iff.mp hpn).1
      rw [List.length_append, List.length_singleton] at hl
      obtain rfl : i = nodes.length := by omega
      rw [List.getElem?_concat_length, Option.some.injEq] at hpn
      exact Or.inl ⟨rfl, hpn.symm⟩
  have hswap : (opens ++ [nodes.length]).Perm (nodes.length :: opens) := List.perm_append_comm
  have hperm : (opens ++ [nodes.length] ++ closeds).Perm (nodes.length :: (opens ++ closeds)) :=
    hswap.append_right closeds
  have hfresh : nodes.length ∉ opens ++ closeds := fun hmem => (hlt _ hmem).false
  refine ⟨hg, h.grows hg (hperm.nodup_iff.mpr (List.nodup_cons.mpr ⟨hfresh, h.nodup⟩))
    (fun i pn hpn => ?_) (fun i j a b ha hb hab => ?_) (fun i pn hpn => ?_)⟩
  · rw [hperm.mem_iff]
    rcases hcases i pn hpn with ⟨rfl, -⟩ | hpn
    · exact List.mem_cons_self
    · exact List.mem_cons_of_mem _ (h.known i pn hpn)
  · rcases hcases i a ha with ⟨rfl, rfl⟩ | ha <;> rcases hcases j b hb with ⟨rfl, rfl⟩ | hb
    · rfl
    · exact absurd hab.symm (hunknown j b hb)
    · exact absurd hab (hunknown i a ha)
    · exact h.distinct i j a b ha hb hab
  · rcases hcases i pn hpn with ⟨rfl, rfl⟩ | hpn
    · exact Or.inr ⟨rfl, offered_origin hcur ((hg.fixed current hcur).trans hpc) hoff hclear⟩
    · exact Or.inl hpn

end Grow

/-! ## The loops -/

structure Scene (m : Map) (bsize : ℤ) (start stop : Cell) (ctx : Context) (opens closeds : List ℕ)
    (nodes : List Node) (pend : ℕ → Off → Prop) : Prop where
  arena : Arena ctx opens closeds nodes
  sound : Sound m bsize start stop opens closeds nodes
  query : (ctx.end_x, ctx.end_y) = stop
  exact : ctx.starved = false → Exact m bsize start stop closeds nodes pend

theorem SameQuery.end_eq {ctx' : Context} (h : SameQuery ctx ctx')
    (hq : (ctx.end_x, ctx.end_y) = stop) : (ctx'.end_x, ctx'.end_y) = stop := by
  rw [h.end_x, h.end_y, hq]

section Visit

variable {current : ℕ} {off : Off} {rest : List Off} {pc : Node}

/-- One round of the loop over the neighbours: it goes on with the rest, or `add_open` failed. -/
theorem visit_step (hs : Scene m bsize start stop ctx opens closeds nodes
      (fun i o => i = current ∧ o ∈ off :: rest))
    (hcur : current ∈ closeds) (hpc : nodes[current]? = some pc) (hoff : off ∈ OFF) :
    (∃ ctx', visit m bsize current (off :: rest) ctx = some ctx' ∧ SameQuery ctx ctx' ∧
      Scene m bsize start stop ctx' opens closeds nodes (fun _ _ => False)) ∨
    ∃ ctx' opens' nodes', visit m bsize current (off :: rest) ctx =
        visit m bsize current rest ctx' ∧ SameQuery ctx ctx' ∧
      Scene m bsize start stop ctx' opens' closeds nodes' (fun i o => i = current ∧ o ∈ rest) ∧
      nodes'[current]? = some pc := by
  obtain ⟨harena, hsound, rfl, hexact⟩ := hs
  have hnode := harena.getNode hpc
  obtain ⟨inClosed, hin, hiniff⟩ := in_closed_spec harena (pc.x + off.dx) (pc.y + off.dy)
  -- a round that changes nothing
  have hskip : (Clear m bsize (ctx.end_x, ctx.end_y) (off.apply pc.cell) →
      Relaxed closeds nodes pc off) → Scene m bsize start (ctx.end_x, ctx.end_y) ctx opens closeds
        nodes (fun i o => i = current ∧ o ∈ rest) := fun h =>
    ⟨harena, hsound, rfl, fun hst => (hexact hst).visited hpc h⟩
  cases inClosed with
  | true =>
      obtain ⟨j, hj, pj, hpj, hx, hy⟩ := hiniff.mp rfl
      refine Or.inr ⟨ctx, opens, nodes, ?_, .rfl' ctx, hskip (fun _ => ?_), hpc⟩
      · simp only [visit, hnode, hin, Option.bind_eq_bind, Option.bind_some, if_true]
      · exact ⟨j, pj, hpj, Prod.ext hx hy, Or.inl hj⟩
  | false =>
      cases hblocked : blocked m bsize (pc.x + off.dx) (pc.y + off.dy) ctx.end_x ctx.end_y with
      | true =>
          refine Or.inr ⟨ctx, opens, nodes, ?_, .rfl' ctx, hskip (fun hclear => ?_), hpc⟩
          · simp only [visit, hnode, hin, hblocked, Option.bind_eq_bind, Option.bind_some, if_true,
              Bool.false_eq_true, if_false]
          · have hfree : blocked m bsize (pc.x + off.dx) (pc.y + off.dy) ctx.end_x ctx.end_y =
                false :=
              blocked_eq_false.mpr hclear
            rw [hfree] at hblocked
            cases hblocked
      | false =>
          have hclear : Clear m bsize (ctx.end_x, ctx.end_y) (off.apply pc.cell) :=
            blocked_eq_false.mp hblocked
          rcases find_open_spec harena (pc.x + off.dx) (pc.y + off.dy) with
            ⟨v, hv, hfind, pv, hpv, hx, hy⟩ | ⟨hfind, hnone⟩
          · have hcell : pv.cell = off.apply pc.cell := Prod.ext hx hy
            have hvnode := harena.getNode hpv
            by_cases hlt : pc.gscore + off.distance + off.distance < pv.gscore
            · -- the open node is improved
              have hvlt := (List.getElem?_eq_some_iff.mp hpv).1
              obtain ⟨P, hput, harena', hdepth⟩ := putNode_spec harena hvlt
                (offered (ctx.end_x, ctx.end_y) current pc off)
              obtain ⟨hg, hsound'⟩ := hsound.improve hv hpv hcur hpc hoff hclear hcell hlt
              refine Or.inr ⟨{ ctx with P }, opens, _, ?_, ⟨rfl, rfl, hdepth⟩,
                ⟨harena', hsound', rfl, fun hst => ?_⟩, (hg.fixed current hcur).trans hpc⟩
              · have hsame : offered (ctx.end_x, ctx.end_y) current pc off = { pv with
                    camefrom := current
                    gscore := pc.gscore + off.distance + off.distance
                    fscore := pc.gscore + off.distance + off.distance +
                      distance (pc.x + off.dx) (pc.y + off.dy) ctx.end_x ctx.end_y } := by
                  rw [hx, hy]
                  rfl
                rw [hsame] at hput
                simp only [visit, hnode, hin, hblocked, hfind, hvnode, hlt, hput,
                  Option.bind_eq_bind, Option.bind_some, if_true, Bool.false_eq_true, if_false]
              · refine ((hexact hst).grows hg).visited ((hg.fixed current hcur).trans hpc)
                  fun _ => ?_
                refine ⟨v, _, List.getElem?_set_self hvlt, offered_cell _ _ _ _, Or.inr ?_⟩
                exact (add_assoc _ _ _).le
            · refine Or.inr ⟨ctx, opens, nodes, ?_, .rfl' ctx, hskip (fun _ => ?_), hpc⟩
              · simp only [visit, hnode, hin, hblocked, hfind, hvnode, hlt, Option.bind_eq_bind,
                  Option.bind_some, Bool.false_eq_true, if_false]
              · refine ⟨v, pv, hpv, hcell, Or.inr ?_⟩
                rw [← add_assoc]
                exact not_lt.mp hlt
          · rcases Nat.lt_or_ge nodes.length ctx.P.depth with hroom | hfull
            · -- a new open node
              obtain ⟨ctx', hadd, harena', hq, hst'⟩ := add_open_spec harena hroom
                (pc.x + off.dx) (pc.y + off.dy) current (pc.gscore + off.distance + off.distance)
              have hunknown : ∀ (i : ℕ) (pn : Node), nodes[i]? = some pn →
                  pn.cell ≠ off.apply pc.cell := by
                intro i pn hpn hcell
                obtain ⟨hx, hy⟩ := Prod.ext_iff.mp hcell
                rcases List.mem_append.mp (hsound.known i pn hpn) with hi | hi
                · exact hnone i hi pn hpn ⟨hx, hy⟩
                · cases hiniff.mpr ⟨i, hi, pn, hpn, hx, hy⟩
              obtain ⟨hg, hsound'⟩ := hsound.add harena.lt hcur hpc hoff hclear hunknown
              refine Or.inr ⟨ctx', _, _, ?_, hq, ⟨harena', hsound', hq.end_eq rfl, fun hst => ?_⟩,
                (hg.fixed current hcur).trans hpc⟩
              · simp only [visit, hnode, hin, hblocked, hfind, hadd, Option.bind_eq_bind,
                  Option.bind_some, Bool.false_eq_true, if_false, Option.isNone_some]
              · rw [hst'] at hst
                refine ((hexact hst).grows hg).visited ((hg.fixed current hcur).trans hpc)
                  fun _ => ?_
                refine ⟨nodes.length, _, List.getElem?_concat_length, offered_cell _ _ _ _,
                  Or.inr ?_⟩
                exact (add_assoc _ _ _).le
            · have hadd := add_open_full harena (le_antisymm harena.le_depth hfull)
                (pc.x + off.dx) (pc.y + off.dy) current (pc.gscore + off.distance + off.distance)
              refine Or.inl ⟨{ ctx with starved := true }, ?_, ⟨rfl, rfl, rfl⟩, ?_⟩
              · simp only [visit, hnode, hin, hblocked, hfind, hadd, Option.bind_eq_bind,
                  Option.bind_some, Bool.false_eq_true, if_false, Option.isNone_none, if_true]
              · exact ⟨⟨harena.opened, harena.closed, harena.n, harena.le_depth, harena.set_open,
                  harena.set_closed, harena.node, harena.nodup, harena.lt⟩, hsound, rfl,
                  fun hst => by cases hst⟩

theorem visit_spec (hs : Scene m bsize start stop ctx opens closeds nodes
      (fun i o => i = current ∧ o ∈ rest))
    (hcur : current ∈ closeds) (hpc : nodes[current]? = some pc) (hrest : ∀ o ∈ rest, o ∈ OFF) :
    ∃ ctx' opens' nodes', visit m bsize current rest ctx = some ctx' ∧ SameQuery ctx ctx' ∧
      Scene m bsize start stop ctx' opens' closeds nodes' (fun _ _ => False) := by
  induction rest generalizing ctx opens nodes with
  | nil =>
      refine ⟨ctx, opens, nodes, rfl, .rfl' ctx, hs.arena, hs.sound, hs.query, fun hst => ?_⟩
      exact ⟨fun i hi pn hpn off hoff _ => (hs.exact hst).relaxed i hi pn hpn off hoff
        (fun hp => List.not_mem_nil hp.2), (hs.exact hst).settled⟩
  | cons off rest ih =>
      have hoff := hrest off List.mem_cons_self
      rcases visit_step hs hcur hpc hoff with
        ⟨ctx', hrun, hq, hs'⟩ | ⟨ctx', opens', nodes', hrun, hq, hs', hpc'⟩
      · exact ⟨ctx', opens, nodes, hrun, hq, hs'⟩
      · obtain ⟨ctx'', opens'', nodes'', hrun', hq', hs''⟩ :=
          ih hs' hpc' (fun o ho => hrest o (List.mem_cons_of_mem _ ho))
        exact ⟨ctx'', opens'', nodes'', hrun.trans hrun', hq.trans hq', hs''⟩

end Visit

/-- What the search leaves: the node returned is the end cell with its final score, taken from the
open nodes, or a closed node when nothing was open any more. -/
structure Outcome (m : Map) (bsize : ℤ) (start stop : Cell) (ctx : Context) (node : ℕ)
    (opens closeds : List ℕ) (nodes : List Node) : Prop where
  sound : Sound m bsize start stop opens closeds nodes
  getNode : ∀ (i : ℕ) (pn : Node), nodes[i]? = some pn → ctx.P.getNode i = some pn
  lt : ∀ i ∈ opens ++ closeds, i < nodes.length
  le_depth : nodes.length ≤ ctx.P.depth
  result : (node ∈ opens ∧ ∃ pn : Node, nodes[node]? = some pn ∧ pn.cell = stop ∧
      (ctx.starved = false → ∀ c, Walk (StepTo m bsize stop) start stop c → pn.gscore ≤ c)) ∨
    (node ∈ closeds ∧ (ctx.starved = false → ∀ c, ¬ Walk (StepTo m bsize stop) start stop c))

/-- From one head of the `while` loop on: the next head, or what `path_finding` returns. -/
def turn (m : Map) (bsize : ℤ) (ctx : Context) : Option (Context ⊕ Context × ℕ) :=
  if ctx.opened > 0 then do
    let (ctx, current) ← lowest_fscore ctx
    let pn ← ctx.P.getNode current
    if pn.x = ctx.end_x ∧ pn.y = ctx.end_y then some (.inr (ctx, current))
    else
      let ctx ← add_closed ctx current
      let ctx ← visit m bsize current OFF ctx
      some (.inl ctx)
  else do
    let node ← if ctx.opened > 0 then nearest ctx.P 0 ctx.opened
      else nearest ctx.P (ctx.P.depth - ctx.closed) ctx.P.depth
    some (.inr (ctx, node))

theorem search_succ (m : Map) (bsize : ℤ) (rounds : ℕ) (ctx : Context) :
    search m bsize (rounds + 1) ctx =
      (turn m bsize ctx).bind (Sum.elim (search m bsize rounds) some) := by
  rw [search, turn]
  split_ifs with hpos
  · simp only [Option.bind_eq_bind, Option.bind_assoc]
    refine Option.bind_congr fun e _ => Option.bind_congr fun pn _ => ?_
    split_ifs
    · rfl
    · simp only [Option.bind_assoc, Option.bind_some, Sum.elim_inl]
  · simp only [Option.bind_eq_bind, Option.bind_assoc, Option.bind_some, Sum.elim_inr]

/-- One round of the loop: it ends at the end cell, or it goes on with one more closed node. -/
theorem turn_step (hs : Scene m bsize start stop ctx opens closeds nodes (fun _ _ => False))
    (hopen : opens ≠ []) :
    (∃ ctx' node, turn m bsize ctx = some (.inr (ctx', node)) ∧
      ctx'.P.depth = ctx.P.depth ∧ Outcome m bsize start stop ctx' node opens closeds nodes ∧
      ∃ pn : Node, nodes[node]? = some pn ∧ pn.cell = stop) ∨
    ∃ ctx' current opens' nodes', turn m bsize ctx = some (.inl ctx') ∧ SameQuery ctx ctx' ∧
      Scene m bsize start stop ctx' opens' (closeds ++ [current]) nodes' (fun _ _ => False) := by
  obtain ⟨harena, hsound, hquery, hexact⟩ := hs
  obtain ⟨ctx₁, current, opens₁, hlow, harena₁, hperm, hq₁, hst₁, pc, hpc, hmin⟩ :=
    lowest_fscore_spec harena hopen
  have hcur : current ∈ opens := hperm.mem_iff.mpr List.mem_cons_self
  have hpos : ctx.opened > 0 := by
    rw [harena.opened]
    exact List.length_pos_iff.mpr hopen
  have hnode₁ := harena₁.getNode hpc
  have hstop₁ := hq₁.end_eq hquery
  by_cases hfound : pc.x = ctx₁.end_x ∧ pc.y = ctx₁.end_y
  · have hcell : pc.cell = stop := hstop₁ ▸ Prod.ext hfound.1 hfound.2
    have hout : Outcome m bsize start stop ctx₁ current opens closeds nodes := by
      refine ⟨hsound, fun i pn hpn => harena₁.getNode hpn, harena.lt, hq₁.depth ▸ harena.le_depth,
        Or.inl ⟨hcur, pc, hpc, hcell, fun hst => ?_⟩⟩
      rw [hst₁] at hst
      have hlowest := (hexact hst).lowest (fun _ _ h => h) hsound hcur hpc hmin
      rw [hcell] at hlowest
      exact hlowest
    refine Or.inl ⟨ctx₁, current, ?_, hq₁.depth, hout, pc, hpc, hcell⟩
    simp only [turn, hpos, if_true, hlow, hnode₁, hfound, and_self, Option.bind_eq_bind,
      Option.bind_some]
  · have hcell : pc.cell ≠ stop := by
      intro heq
      rw [← hstop₁] at heq
      exact hfound ⟨congrArg Prod.fst heq, congrArg Prod.snd heq⟩
    have hfresh : current ∉ opens₁ ++ closeds := by
      have hnd := (hperm.append_right closeds).nodup_iff.mp hsound.nodup
      exact (List.nodup_cons.mp hnd).1
    obtain ⟨ctx₂, hclose, harena₂, hq₂, hst₂⟩ := add_closed_spec harena₁ hfresh
      (List.getElem?_eq_some_iff.mp hpc).1
    have hscene : Scene m bsize start stop ctx₂ opens₁ (closeds ++ [current]) nodes
        (fun i o => i = current ∧ o ∈ OFF) :=
      ⟨harena₂, hsound.close hperm hpc hcell, (hq₁.trans hq₂).end_eq hquery, fun hst =>
        (hexact (hst₁ ▸ hst₂ ▸ hst)).close (fun _ _ h => h) hsound hcur hpc hmin⟩
    obtain ⟨ctx₃, opens₃, nodes₃, hvisit, hq₃, hs₃⟩ := visit_spec hscene
      (List.mem_append_right _ (List.mem_singleton_self current)) hpc (fun _ h => h)
    refine Or.inr ⟨ctx₃, current, opens₃, nodes₃, ?_, (hq₁.trans hq₂).trans hq₃, hs₃⟩
    simp only [turn, hpos, if_true, hlow, hnode₁, hfound, if_false, hclose, hvisit,
      Option.bind_eq_bind, Option.bind_some]

/-- Where nothing is open, the nearest closed node is returned. -/
theorem turn_closed (m : Map) (bsize : ℤ) (harena : Arena ctx [] closeds nodes)
    (hne : closeds ≠ []) :
    ∃ node ∈ closeds, turn m bsize ctx = some (.inr (ctx, node)) ∧
      ∃ pn, nodes[node]? = some pn ∧
        ∀ v ∈ closeds, ∀ pn', nodes[v]? = some pn' → pn.fscore ≤ pn'.fscore := by
  obtain ⟨node, hnode, hnear, hleast⟩ := nearest_closed_spec harena hne
  refine ⟨node, hnode, ?_, hleast⟩
  simp only [turn, harena.opened, List.length_nil, lt_irrefl, if_false, hnear,
    Option.bind_eq_bind, Option.bind_some]

theorem search_step (hs : Scene m bsize start stop ctx opens closeds nodes (fun _ _ => False))
    (hopen : opens ≠ []) :
    (∃ ctx' node, (∀ rounds, search m bsize (rounds + 1) ctx = some (ctx', node)) ∧
      ctx'.P.depth = ctx.P.depth ∧ Outcome m bsize start stop ctx' node opens closeds nodes ∧
      ∃ pn : Node, nodes[node]? = some pn ∧ pn.cell = stop) ∨
    ∃ ctx' current opens' nodes',
      (∀ rounds, search m bsize (rounds + 1) ctx = search m bsize rounds ctx') ∧
      SameQuery ctx ctx' ∧
      Scene m bsize start stop ctx' opens' (closeds ++ [current]) nodes' (fun _ _ => False) := by
  rcases turn_step hs hopen with ⟨ctx', node, hturn, h⟩ | ⟨ctx', current, opens', nodes', hturn, h⟩
  · refine Or.inl ⟨ctx', node, fun rounds => ?_, h⟩
    rw [search_succ, hturn]
    rfl
  · refine Or.inr ⟨ctx', current, opens', nodes', fun rounds => ?_, h⟩
    rw [search_succ, hturn]
    rfl

theorem search_closed (m : Map) (bsize : ℤ) (rounds : ℕ) (harena : Arena ctx [] closeds nodes)
    (hne : closeds ≠ []) :
    ∃ node ∈ closeds, search m bsize (rounds + 1) ctx = some (ctx, node) ∧
      ∃ pn, nodes[node]? = some pn ∧
        ∀ v ∈ closeds, ∀ pn', nodes[v]? = some pn' → pn.fscore ≤ pn'.fscore := by
  obtain ⟨node, hnode, hturn, hleast⟩ := turn_closed m bsize harena hne
  refine ⟨node, hnode, ?_, hleast⟩
  rw [search_succ, hturn]
  rfl

theorem search_spec (rounds : ℕ) (hs : Scene m bsize start stop ctx opens closeds nodes
      (fun _ _ => False))
    (hrounds : ctx.P.depth < rounds + closeds.length) (hne : opens ≠ [] ∨ closeds ≠ []) :
    ∃ ctx' node opens' closeds' nodes', search m bsize rounds ctx = some (ctx', node) ∧
      ctx'.P.depth = ctx.P.depth ∧
      Outcome m bsize start stop ctx' node opens' closeds' nodes' := by
  have hlen := hs.arena.length_le
  have hdepth := hs.arena.le_depth
  induction rounds generalizing ctx opens closeds nodes with
  | zero => omega
  | succ rounds ih =>
      by_cases hopen : opens = []
      · obtain ⟨harena, hsound, hquery, hexact⟩ := hs
        subst hopen
        obtain ⟨node, hnode, hrun, -⟩ :=
          search_closed m _ rounds harena (hne.resolve_left (fun h => h rfl))
        refine ⟨ctx, node, [], closeds, nodes, hrun, rfl, hsound,
          fun i pn hpn => harena.getNode hpn, harena.lt, hdepth, Or.inr ⟨hnode, fun hst c hw => ?_⟩⟩
        have hfront := (hexact hst).frontier (fun _ _ h => h) hsound
        obtain ⟨a, i, hi, pn, hpn, hcell, -⟩ :=
          hfront.exhausted (fun _ _ ⟨i, hi, _⟩ => List.not_mem_nil hi) hw
        exact hsound.unstopped i hi pn hpn hcell
      · obtain ⟨ctx', node, hrun, hd, hout, -⟩ | ⟨ctx₃, current, opens₃, nodes₃, hnext, hq, hs₃⟩ :=
          search_step hs hopen
        · exact ⟨ctx', node, opens, closeds, nodes, hrun rounds, hd, hout⟩
        · have hlen₃ := hs₃.arena.length_le
          have hdepth₃ := hs₃.arena.le_depth
          obtain ⟨ctx', node, opens', closeds', nodes', hrun, hd', hout⟩ := ih hs₃
            (by rw [hq.depth, List.length_append, List.length_singleton]; omega)
            (Or.inr (by simp)) hlen₃ hdepth₃
          exact ⟨ctx', node, opens', closeds', nodes', (hnext rounds).trans hrun,
            hd'.trans hq.depth, hout⟩

/-- The context and the lists after the start was added. -/
theorem add_open_start (m : Map) (bsize : ℤ) (start stop : Cell) {depth : ℕ}
    (hdepth : 1 ≤ depth) :
    ∃ ctx i opens nodes, add_open { P := { depth }, end_x := stop.1, end_y := stop.2 }
        start.1 start.2 (-1) 0 = some (ctx, some i) ∧ opens ≠ [] ∧ ctx.P.depth = depth ∧
      Scene m bsize start stop ctx opens [] nodes (fun _ _ => False) := by
  have hempty : Arena { P := { depth }, end_x := stop.1, end_y := stop.2 } [] [] [] :=
    ⟨rfl, rfl, rfl, Nat.zero_le _, fun _ _ h => by simp at h, fun _ _ h => by simp at h,
      fun _ _ h => by simp at h, List.nodup_nil, fun _ h => by simp at h⟩
  obtain ⟨ctx, hadd, harena, hq, hst⟩ := add_open_spec hempty hdepth start.1 start.2 (-1) 0
  have hone : ∀ (i : ℕ) (pn : Node), ([] ++ [(⟨start.1, start.2, -1, 0,
      0 + distance start.1 start.2 stop.1 stop.2⟩ : Node)])[i]? = some pn →
      i = 0 ∧ pn = ⟨start.1, start.2, -1, 0, 0 + distance start.1 start.2 stop.1 stop.2⟩ := by
    intro i pn hpn
    have hi := (List.getElem?_eq_some_iff.mp hpn).1
    simp only [List.nil_append, List.length_singleton] at hi
    obtain rfl : i = 0 := by omega
    exact ⟨rfl, by simpa using hpn.symm⟩
  have hsound : Sound m bsize start stop ([] ++ [([] : List Node).length]) []
      ([] ++ [⟨start.1, start.2, -1, 0, 0 + distance start.1 start.2 stop.1 stop.2⟩]) := by
    refine { nodup := by simp, known := fun i pn hpn => ?_, distinct := fun i j a b ha hb _ => ?_,
             fscore := fun i pn hpn => ?_, origin := fun i pn hpn => ?_, chain := ?_,
             begun := ⟨0, _, rfl, rfl, le_rfl⟩, unstopped := ?_ }
    · simp [(hone i pn hpn).1]
    · rw [(hone i a ha).1, (hone j b hb).1]
    · rw [(hone i pn hpn).2]
    · rw [(hone i pn hpn).2]
      exact Or.inl ⟨rfl, rfl, rfl⟩
    · intro i hi
      cases hi
    · intro i hi
      cases hi
  exact ⟨ctx, _, _, _, hadd, by simp, hq.depth, harena, hsound, hq.end_eq rfl,
    fun _ => ⟨fun _ hi => (by cases hi), fun _ hi => (by cases hi)⟩⟩

theorem path_finding_start (m : Map) (bsize : ℤ) (start stop : Cell) {depth : ℕ}
    (hdepth : 1 ≤ depth) :
    ∃ ctx opens nodes, opens ≠ [] ∧ ctx.P.depth = depth ∧
      path_finding m depth start.1 start.2 stop.1 stop.2 bsize =
        search m bsize (depth + 1) ctx ∧
      Scene m bsize start stop ctx opens [] nodes (fun _ _ => False) := by
  obtain ⟨ctx, i, opens, nodes, hadd, hne, hd, hs⟩ := add_open_start m bsize start stop hdepth
  refine ⟨ctx, opens, nodes, hne, hd, ?_, hs⟩
  rw [path_finding, hadd, Option.bind_eq_bind, Option.bind_some]

theorem path_finding_spec (m : Map) (bsize : ℤ) (start stop : Cell) {depth : ℕ}
    (hdepth : 1 ≤ depth) :
    ∃ ctx node opens closeds nodes,
      path_finding m depth start.1 start.2 stop.1 stop.2 bsize = some (ctx, node) ∧
      ctx.P.depth = depth ∧ Outcome m bsize start stop ctx node opens closeds nodes := by
  obtain ⟨ctx, opens, nodes, hne, hd, hstart, hscene⟩ :=
    path_finding_start m bsize start stop hdepth
  obtain ⟨ctx', node, opens, closeds, nodes, hrun, hd', hout⟩ :=
    search_spec (depth + 1) hscene (by rw [hd]; simp) (Or.inl hne)
  exact ⟨ctx', node, opens, closeds, nodes, hstart.trans hrun, hd'.trans hd, hout⟩

end GameServer.Pathfinding
