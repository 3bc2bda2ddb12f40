import GameServer.FlowGraph

/-!
# The flow graph with a list

The same relaxation with a list in place of the ring, which is always right about its members and
never full. `left` and `looked` are history: how many entries have left, and the searches for a cell
whose distance was improved. Each improvement brings a cell in for the first time or lowers a
distance, so the list runs empty.
-/

namespace GameServer.FlowGraph

open Pathfinding

structure Lookup where
  left : ℕ
  entries : List Cell
  cell : Cell
  deriving DecidableEq

structure Fifo where
  route : Route
  entries : List Cell
  left : ℕ
  looked : List Lookup

/-- The distance of a neighbour by way of a cell at `odis`. -/
def by_way (m : Map) (odis : ℤ) (cell : Cell) (off : Off) : ℤ :=
  odis + off.distance + (map_get m cell.1 cell.2).toNat * 5

def neighbour (c : Cell) (off : Off) : Cell := (c.1 + off.dx, c.2 + off.dy)

namespace Fifo

def relax (m : Map) (c : Cell) (odis : ℤ) (s : Fifo) (off : Off) : Fifo :=
  let cell := neighbour c off
  if m.Inside cell.1 cell.2 then
    let route := Function.update s.route cell (by_way m odis cell off)
    if s.route cell = 0 then { s with route, entries := s.entries ++ [cell] }
    else if s.route cell > by_way m odis cell off then
      { s with
        route
        entries := if cell ∈ s.entries then s.entries else s.entries ++ [cell]
        looked := s.looked ++ [⟨s.left, s.entries, cell⟩] }
    else s
  else s

/-- The first entry has left. -/
def leave (s : Fifo) (entries : List Cell) : Fifo := { s with entries, left := s.left + 1 }

/-- One round for the cell that has left. -/
def visit (m : Map) (c : Cell) (s : Fifo) : Fifo :=
  if map_get m c.1 c.2 = BLOCK_WEIGHT then s else OFF.foldl (relax m c (s.route c)) s

def drain (m : Map) : ℕ → Fifo → Option Fifo
  | 0, _ => none
  | rounds + 1, s =>
      match s.entries with
      | [] => some s
      | c :: entries => drain m rounds (visit m c (s.leave entries))

end Fifo

/-- A target outside the walls. -/
def isTarget (m : Map) (marks : Marks m) (c : Cell) : Bool :=
  mark m marks c ≠ 0 ∧ map_get m c.1 c.2 ≠ BLOCK_WEIGHT

def sources (m : Map) (marks : Marks m) : List Cell := (cells m).filter (isTarget m marks)

/-- What `init_route` writes for a target. -/
def initial (m : Map) (marks : Marks m) (c : Cell) : ℤ :=
  (mark m marks c).toNat + (map_get m c.1 c.2).toNat * 5

def start (m : Map) (marks : Marks m) : Fifo where
  route c := if c ∈ sources m marks then initial m marks c else 0
  entries := sources m marks
  left := 0
  looked := []

variable {m : Map} {c cell : Cell} {odis : ℤ} {s s' : Fifo} {off : Off} {offs : List Off}

/-! ## The cells -/

theorem mem_cells : c ∈ cells m ↔ m.Inside c.1 c.2 := by
  unfold cells Map.Inside
  simp only [List.mem_flatMap, List.mem_map, List.mem_range]
  constructor
  · rintro ⟨i, hi, j, hj, rfl⟩
    refine ⟨?_, ?_, ?_, ?_⟩ <;> dsimp only <;> omega
  · rintro ⟨hx, hxw, hy, hyh⟩
    refine ⟨c.2.toNat, by omega, c.1.toNat, by omega, Prod.ext ?_ ?_⟩
    · exact Int.toNat_of_nonneg hx
    · exact Int.toNat_of_nonneg hy

theorem nodup_cells (m : Map) : (cells m).Nodup := by
  unfold cells
  refine List.nodup_flatMap.mpr ⟨fun i _ => ?_, ?_⟩
  · refine List.nodup_range.map fun j j' h => ?_
    exact Int.ofNat_inj.mp (congrArg Prod.fst h)
  · refine List.nodup_range.imp fun {i i'} hne => ?_
    rw [Function.onFun, List.disjoint_left]
    intro c hc hc'
    obtain ⟨j, -, rfl⟩ := List.mem_map.mp hc
    obtain ⟨j', -, heq⟩ := List.mem_map.mp hc'
    exact hne (Int.ofNat_inj.mp (congrArg Prod.snd heq)).symm

theorem length_cells (m : Map) : (cells m).length = m.width * m.height := by
  unfold cells
  rw [List.length_flatMap]
  simp [mul_comm]

/-- Different cells besides one that is not among them leave a slot free. -/
theorem length_lt_of_nodup {l : List Cell} (hnodup : l.Nodup) (hin : ∀ c ∈ l, m.Inside c.1 c.2)
    (hc : m.Inside c.1 c.2) (hnew : c ∉ l) : l.length < m.width * m.height := by
  have hcons : (c :: l).Nodup := List.nodup_cons.mpr ⟨hnew, hnodup⟩
  have hsub : c :: l ⊆ cells m := fun c' hc' => by
    rcases List.mem_cons.mp hc' with rfl | hc'
    · exact mem_cells.mpr hc
    · exact mem_cells.mpr (hin c' hc')
  have hle := (hcons.subperm hsub).length_le
  rw [length_cells] at hle
  exact hle

theorem neighbour_ne (hoff : off ∈ OFF) : neighbour c off ≠ c := fun h => by
  have hx : c.1 + off.dx = c.1 := congrArg Prod.fst h
  have hy : c.2 + off.dy = c.2 := congrArg Prod.snd h
  have hzero : ∀ off ∈ OFF, ¬ (off.dx = 0 ∧ off.dy = 0) := by decide
  exact hzero off hoff ⟨by omega, by omega⟩

theorem distance_pos : ∀ off ∈ OFF, 0 < off.distance := by decide

theorem distance_le : ∀ off ∈ OFF, off.distance ≤ 7 := by decide

/-! ## Cells without a distance -/

def unset (m : Map) (route : Route) : ℕ := ∑ c ∈ (cells m).toFinset, if route c = 0 then 1 else 0

theorem unset_update (route : Route) {dis : ℤ} (hin : m.Inside cell.1 cell.2) (hdis : 0 < dis) :
    unset m route = unset m (Function.update route cell dis) + if route cell = 0 then 1 else 0 := by
  have hcell : cell ∈ (cells m).toFinset := List.mem_toFinset.mpr (mem_cells.mpr hin)
  have hrest : ∑ c ∈ (cells m).toFinset.erase cell,
      (if Function.update route cell dis c = 0 then 1 else 0) =
        ∑ c ∈ (cells m).toFinset.erase cell, if route c = 0 then 1 else 0 := by
    refine Finset.sum_congr rfl fun c hc => ?_
    rw [Function.update_of_ne (Finset.ne_of_mem_erase hc)]
  unfold unset
  rw [← Finset.add_sum_erase _ _ hcell, ← Finset.add_sum_erase _ _ hcell, hrest,
    Function.update_self, if_neg hdis.ne']
  omega

theorem unset_le (m : Map) (route : Route) : unset m route ≤ m.width * m.height := by
  have hle : ∀ c ∈ (cells m).toFinset, (if route c = 0 then 1 else 0) ≤ 1 := fun c _ => by
    split_ifs <;> omega
  have hsum := Finset.sum_le_card_nsmul _ _ 1 hle
  rw [List.toFinset_card_of_nodup (nodup_cells m), length_cells, smul_eq_mul, mul_one] at hsum
  exact hsum

/-- A step costs 1282 at most, so no distance passes an `int`. -/
def Fits (m : Map) : Prop := m.width * m.height ≤ 1675101

instance (m : Map) : Decidable (Fits m) := inferInstanceAs (Decidable (_ ≤ _))

/-! ## One step -/

theorem relax_cases (m : Map) (c : Cell) (odis : ℤ) (s : Fifo) (off : Off) :
    (s.relax m c odis off = s ∧ (m.Inside (neighbour c off).1 (neighbour c off).2 →
      s.route (neighbour c off) ≠ 0 ∧
        s.route (neighbour c off) ≤ by_way m odis (neighbour c off) off)) ∨
    (m.Inside (neighbour c off).1 (neighbour c off).2 ∧ s.route (neighbour c off) = 0 ∧
      s.relax m c odis off = { s with
        route := Function.update s.route (neighbour c off) (by_way m odis (neighbour c off) off)
        entries := s.entries ++ [neighbour c off] }) ∨
    (m.Inside (neighbour c off).1 (neighbour c off).2 ∧ s.route (neighbour c off) ≠ 0 ∧
      by_way m odis (neighbour c off) off < s.route (neighbour c off) ∧
      s.relax m c odis off = { s with
        route := Function.update s.route (neighbour c off) (by_way m odis (neighbour c off) off)
        entries := if neighbour c off ∈ s.entries then s.entries else s.entries ++ [neighbour c off]
        looked := s.looked ++ [⟨s.left, s.entries, neighbour c off⟩] }) := by
  unfold Fifo.relax
  by_cases hin : m.Inside (neighbour c off).1 (neighbour c off).2
  · by_cases hzero : s.route (neighbour c off) = 0
    · exact Or.inr (Or.inl ⟨hin, hzero, by simp only [if_pos hin, if_pos hzero]⟩)
    · by_cases hgt : s.route (neighbour c off) > by_way m odis (neighbour c off) off
      · refine Or.inr (Or.inr ⟨hin, hzero, hgt, ?_⟩)
        simp only [if_pos hin, if_neg hzero, if_pos hgt]
      · exact Or.inl ⟨by simp only [if_pos hin, if_neg hzero, if_neg hgt],
          fun _ => ⟨hzero, not_lt.mp hgt⟩⟩
  · exact Or.inl ⟨if_neg hin, fun h => absurd h hin⟩

structure Fifo.Valid (m : Map) (s : Fifo) : Prop where
  nodup : s.entries.Nodup
  inside : ∀ c ∈ s.entries, m.Inside c.1 c.2
  found : ∀ c ∈ s.entries, s.route c ≠ 0
  nonneg : ∀ c, 0 ≤ s.route c
  outside : ∀ c, s.route c ≠ 0 → m.Inside c.1 c.2
  /-- A distance goes through cells that have one. -/
  small : ∀ c, s.route c + 1282 * unset m s.route ≤ 1530 + 1282 * (m.width * m.height : ℕ)

theorem by_way_le (m : Map) (odis : ℤ) (cell : Cell) (hoff : off ∈ OFF) :
    by_way m odis cell off ≤ odis + 1282 := by
  have hle := distance_le off hoff
  have hbyte := (map_get m cell.1 cell.2).toNat_lt
  unfold by_way
  omega

theorem by_way_pos (hodis : 0 ≤ odis) (hoff : off ∈ OFF) : 0 < by_way m odis cell off := by
  have hpos := distance_pos off hoff
  unfold by_way
  omega

/-- What one step keeps, with the cell that has left outside the entries. -/
theorem Fifo.Valid.relax (h : s.Valid m) (hodis : s.route c = odis) (hoff : off ∈ OFF)
    (hc : c ∉ s.entries) :
    (s.relax m c odis off).Valid m ∧ c ∉ (s.relax m c odis off).entries ∧
      (s.relax m c odis off).route c = s.route c := by
  have hne := neighbour_ne (c := c) hoff
  have hpos : 0 < by_way m odis (neighbour c off) off := by_way_pos (hodis ▸ h.nonneg c) hoff
  have hsmall := h.small c
  have hstep := by_way_le m odis (neighbour c off) hoff
  have hroute : ∀ c', Function.update s.route (neighbour c off)
      (by_way m odis (neighbour c off) off) c' ≠ 0 → s.route c' ≠ 0 ∨ c' = neighbour c off :=
    fun c' hc' => by
      by_cases heq : c' = neighbour c off
      · exact Or.inr heq
      · rw [Function.update_of_ne heq] at hc'
        exact Or.inl hc'
  have hkeep : ∀ c', s.route c' ≠ 0 ∨ c' = neighbour c off → Function.update s.route
      (neighbour c off) (by_way m odis (neighbour c off) off) c' ≠ 0 := fun c' hc' => by
    by_cases heq : c' = neighbour c off
    · rw [heq, Function.update_self]
      exact hpos.ne'
    · rw [Function.update_of_ne heq]
      exact hc'.resolve_right heq
  have hnonneg : ∀ c', 0 ≤ Function.update s.route (neighbour c off)
      (by_way m odis (neighbour c off) off) c' := fun c' => by
    by_cases heq : c' = neighbour c off
    · rw [heq, Function.update_self]
      exact hpos.le
    · rw [Function.update_of_ne heq]
      exact h.nonneg c'
  have hbound : (s.route (neighbour c off) = 0 ∨
      by_way m odis (neighbour c off) off < s.route (neighbour c off)) →
        m.Inside (neighbour c off).1 (neighbour c off).2 → ∀ c', Function.update s.route
          (neighbour c off) (by_way m odis (neighbour c off) off) c' + 1282 * unset m
            (Function.update s.route (neighbour c off) (by_way m odis (neighbour c off) off)) ≤
          1530 + 1282 * (m.width * m.height : ℕ) := fun hlower hin c' => by
    have hunset := unset_update s.route hin hpos
    have hold := h.small (neighbour c off)
    have hold' := h.small c'
    by_cases heq : c' = neighbour c off
    · rw [heq, Function.update_self]
      split_ifs at hunset <;> omega
    · rw [Function.update_of_ne heq]
      omega
  rcases relax_cases m c odis s off with ⟨heq, -⟩ | ⟨hin, hzero, heq⟩ | ⟨hin, hset, hlt, heq⟩
  · rw [heq]
    exact ⟨h, hc, rfl⟩
  · have hnew : neighbour c off ∉ s.entries := fun hmem => h.found _ hmem hzero
    rw [heq]
    refine ⟨⟨?_, ?_, ?_, hnonneg, ?_, hbound (.inl hzero) hin⟩, ?_,
      Function.update_of_ne hne.symm _ _⟩
    · exact List.nodup_append_comm.mp (List.nodup_cons.mpr ⟨hnew, h.nodup⟩)
    · intro c' hc'
      rcases List.mem_append.mp hc' with hc' | hc'
      · exact h.inside c' hc'
      · rw [List.mem_singleton.mp hc']
        exact hin
    · intro c' hc'
      refine hkeep c' ?_
      rcases List.mem_append.mp hc' with hc' | hc'
      · exact Or.inl (h.found c' hc')
      · exact Or.inr (List.mem_singleton.mp hc')
    · intro c' hc'
      rcases hroute c' hc' with hold | rfl
      · exact h.outside c' hold
      · exact hin
    · intro hmem
      rcases List.mem_append.mp hmem with hmem | hmem
      · exact hc hmem
      · exact hne (List.mem_singleton.mp hmem).symm
  · rw [heq]
    have hentries : ∀ c', c' ∈ (if neighbour c off ∈ s.entries then s.entries
        else s.entries ++ [neighbour c off]) → c' ∈ s.entries ∨ c' = neighbour c off :=
      fun c' hc' => by
        split_ifs at hc'
        · exact Or.inl hc'
        · exact (List.mem_append.mp hc').imp_right List.mem_singleton.mp
    refine ⟨⟨?_, ?_, ?_, hnonneg, ?_, hbound (.inr hlt) hin⟩, ?_,
      Function.update_of_ne hne.symm _ _⟩
    · dsimp only
      split_ifs with hmem
      · exact h.nodup
      · exact List.nodup_append_comm.mp (List.nodup_cons.mpr ⟨hmem, h.nodup⟩)
    · intro c' hc'
      rcases hentries c' hc' with hc' | rfl
      · exact h.inside c' hc'
      · exact hin
    · intro c' hc'
      exact hkeep c' ((hentries c' hc').imp_left (h.found c'))
    · intro c' hc'
      rcases hroute c' hc' with hold | rfl
      · exact h.outside c' hold
      · exact hin
    · intro hmem
      rcases hentries c hmem with hmem | hmem
      · exact hc hmem
      · exact hne hmem.symm

/-! ## The end of the search -/

def weight (m : Map) (route : Route) : ℕ := ∑ c ∈ (cells m).toFinset, (route c).toNat

/-- How many cells have no distance, and the sum of the distances. -/
def rank (m : Map) (route : Route) : ℕ ×ₗ ℕ := toLex (unset m route, weight m route)

/-- A cell found for the first time lowers the rank. -/
theorem rank_new {route : Route} {dis : ℤ} (hin : m.Inside cell.1 cell.2) (hzero : route cell = 0)
    (hdis : 0 < dis) : rank m (Function.update route cell dis) < rank m route := by
  have hunset := unset_update route hin hdis
  rw [if_pos hzero] at hunset
  exact Prod.Lex.toLex_lt_toLex.mpr (Or.inl (by omega))

theorem rank_lower {route : Route} {dis : ℤ} (hin : m.Inside cell.1 cell.2) (hdis : 0 < dis)
    (hlt : dis < route cell) : rank m (Function.update route cell dis) < rank m route := by
  have hcell : cell ∈ (cells m).toFinset := List.mem_toFinset.mpr (mem_cells.mpr hin)
  have hunset := unset_update route hin hdis
  rw [if_neg (hdis.trans hlt).ne', add_zero] at hunset
  refine Prod.Lex.toLex_lt_toLex.mpr (Or.inr ⟨hunset.symm, ?_⟩)
  refine Finset.sum_lt_sum (fun c _ => ?_) ⟨cell, hcell, ?_⟩
  · by_cases hc : c = cell
    · rw [hc, Function.update_self]
      exact Int.toNat_le_toNat hlt.le
    · rw [Function.update_of_ne hc]
  · rw [Function.update_self]
    omega

theorem rank_relax (hodis : 0 ≤ odis) (hoff : off ∈ OFF) :
    s.relax m c odis off = s ∨ rank m (s.relax m c odis off).route < rank m s.route := by
  have hpos : 0 < by_way m odis (neighbour c off) off := by_way_pos hodis hoff
  rcases relax_cases m c odis s off with ⟨heq, -⟩ | ⟨hin, hzero, heq⟩ | ⟨hin, -, hlt, heq⟩
  · exact Or.inl heq
  · rw [heq]
    exact Or.inr (rank_new hin hzero hpos)
  · rw [heq]
    exact Or.inr (rank_lower hin hpos hlt)

/-- The steps of one round, for a part of the neighbours. -/
theorem Fifo.Valid.foldl (h : s.Valid m) (hodis : s.route c = odis)
    (hoffs : ∀ off ∈ offs, off ∈ OFF) (hc : c ∉ s.entries) :
    (offs.foldl (Fifo.relax m c odis) s).Valid m ∧
      c ∉ (offs.foldl (Fifo.relax m c odis) s).entries ∧
      (offs.foldl (Fifo.relax m c odis) s = s ∨
        rank m (offs.foldl (Fifo.relax m c odis) s).route < rank m s.route) := by
  induction offs generalizing s with
  | nil => exact ⟨h, hc, Or.inl rfl⟩
  | cons off offs ih =>
      have hoff := hoffs off List.mem_cons_self
      obtain ⟨hvalid, hc', hroute⟩ := h.relax hodis hoff hc
      obtain ⟨hvalid', hc'', hrank⟩ :=
        ih hvalid (hroute.trans hodis) (fun o ho => hoffs o (List.mem_cons_of_mem _ ho)) hc'
      refine ⟨hvalid', hc'', ?_⟩
      rw [List.foldl_cons]
      have hnonneg : 0 ≤ odis := hodis ▸ h.nonneg c
      rcases rank_relax (m := m) (c := c) (s := s) hnonneg hoff with heq | hlt
      · rw [heq] at hrank ⊢
        exact hrank
      · rcases hrank with heq | hlt'
        · rw [heq]
          exact Or.inr hlt
        · exact Or.inr (hlt'.trans hlt)

theorem Fifo.Valid.leave {entries : List Cell} (h : s.Valid m) (hs : s.entries = c :: entries) :
    (s.leave entries).Valid m ∧ c ∉ entries := by
  have hnodup := h.nodup
  rw [hs, List.nodup_cons] at hnodup
  have hmem : ∀ c' ∈ entries, c' ∈ s.entries := fun c' hc' => by
    rw [hs]
    exact List.mem_cons_of_mem _ hc'
  exact ⟨⟨hnodup.2, fun c' hc' => h.inside c' (hmem c' hc'), fun c' hc' => h.found c' (hmem c' hc'),
    h.nonneg, h.outside, h.small⟩, hnodup.1⟩

theorem Fifo.Valid.visit (h : s.Valid m) (hc : c ∉ s.entries) : (s.visit m c).Valid m ∧
    (s.visit m c = s ∨ rank m (s.visit m c).route < rank m s.route) := by
  unfold Fifo.visit
  split_ifs
  · exact ⟨h, Or.inl rfl⟩
  · obtain ⟨hvalid, -, hrank⟩ := h.foldl rfl (fun off hoff => hoff) hc
    exact ⟨hvalid, hrank⟩

theorem drain_ends (h : s.Valid m) : ∃ rounds s', s.drain m rounds = some s' := by
  induction hrank : toLex (rank m s.route, s.entries.length) using WellFoundedLT.induction
    generalizing s with
  | ind r ih =>
      subst hrank
      cases hentries : s.entries with
      | nil => exact ⟨1, s, by rw [Fifo.drain, hentries]⟩
      | cons c entries =>
          obtain ⟨hleave, hc⟩ := h.leave hentries
          obtain ⟨hvalid, hvisit⟩ := hleave.visit (c := c) hc
          have hless : toLex (rank m ((s.leave entries).visit m c).route,
              ((s.leave entries).visit m c).entries.length) <
                toLex (rank m s.route, s.entries.length) := by
            refine Prod.Lex.toLex_lt_toLex.mpr ?_
            rcases hvisit with heq | hlt
            · rw [heq, hentries]
              exact Or.inr ⟨rfl, Nat.lt_succ_self _⟩
            · exact Or.inl hlt
          obtain ⟨rounds, s', hdrain⟩ := ih _ hless hvalid rfl
          refine ⟨rounds + 1, s', ?_⟩
          rw [Fifo.drain, hentries]
          exact hdrain

theorem drain_mono {rounds more : ℕ} (h : s.drain m rounds = some s') (hle : rounds ≤ more) :
    s.drain m more = some s' := by
  induction rounds generalizing s more with
  | zero => cases h
  | succ rounds ih =>
      obtain ⟨more, rfl⟩ := Nat.exists_eq_add_of_le' (Nat.zero_lt_of_lt hle)
      rw [Fifo.drain] at h ⊢
      cases hentries : s.entries with
      | nil =>
          rw [hentries] at h
          exact h
      | cons c entries =>
          rw [hentries] at h
          exact ih h (Nat.le_of_succ_le_succ hle)

theorem drain_valid {rounds : ℕ} (h : s.Valid m) (hdrain : s.drain m rounds = some s') :
    s'.Valid m := by
  induction rounds generalizing s with
  | zero => cases hdrain
  | succ rounds ih =>
      rw [Fifo.drain] at hdrain
      cases hentries : s.entries with
      | nil =>
          rw [hentries] at hdrain
          cases hdrain
          exact h
      | cons c entries =>
          rw [hentries] at hdrain
          obtain ⟨hleave, hc⟩ := h.leave hentries
          exact ih (hleave.visit hc).1 hdrain

theorem start_valid (m : Map) (marks : Marks m) : (start m marks).Valid m := by
  have hinitial : ∀ c, 0 ≤ initial m marks c := fun c => by
    unfold initial
    omega
  refine ⟨(nodup_cells m).filter _, fun c hc => ?_, fun c hc => ?_, fun c => ?_, fun c hc => ?_,
    fun c => ?_⟩
  · exact mem_cells.mp (List.mem_of_mem_filter hc)
  · have hmark : mark m marks c ≠ 0 := by
      have htarget := (List.mem_filter.mp hc).2
      unfold isTarget at htarget
      exact (of_decide_eq_true htarget).1
    have hpos : 0 < (mark m marks c).toNat := Nat.pos_of_ne_zero fun hzero =>
      hmark (UInt8.toNat_inj.mp hzero)
    change (if c ∈ sources m marks then _ else _) ≠ _
    rw [if_pos (show c ∈ sources m marks from hc)]
    unfold initial
    omega
  · change 0 ≤ if c ∈ sources m marks then _ else _
    split_ifs
    · exact hinitial c
    · exact le_rfl
  · change (if c ∈ sources m marks then _ else _) ≠ _ at hc
    split_ifs at hc with hmem
    · exact mem_cells.mp (List.mem_of_mem_filter hmem)
    · exact absurd rfl hc
  · have hunset := unset_le m (start m marks).route
    have hmark := (mark m marks c).toNat_lt
    have hblock := (map_get m c.1 c.2).toNat_lt
    have hle : (start m marks).route c ≤ 1530 := by
      unfold start initial
      dsimp only
      split_ifs <;> omega
    omega

end GameServer.FlowGraph
