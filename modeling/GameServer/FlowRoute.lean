import GameServer.FlowSafety
import GameServer.Relaxation

/-!
# Distances of the flow graph

Behind `gen_route` the distances are the least costs of the ways from the targets. The cells of
walls have distances too, but no way goes on from them.
-/

namespace GameServer.FlowGraph

open Pathfinding Relaxation

variable {m : Map} {marks : Marks m} {a a' : Fifo} {c c' cell : Cell} {odis dis w : ℤ} {off : Off}
  {offs : List Off} {rounds : ℕ} {route : Route}

/-! ## Ways over open cells -/

def Wall (m : Map) (c : Cell) : Prop := map_get m c.1 c.2 = BLOCK_WEIGHT

instance (m : Map) (c : Cell) : Decidable (Wall m c) := inferInstanceAs (Decidable (_ = _))

def Source (m : Map) (marks : Marks m) (c : Cell) (w : ℤ) : Prop :=
  m.Inside c.1 c.2 ∧ isTarget m marks c = true ∧ w = initial m marks c

/-- A step from an open cell, with its length and the weight of the cell that is entered. -/
def Step (m : Map) (c c' : Cell) (w : ℤ) : Prop :=
  m.Inside c.1 c.2 ∧ ¬ Wall m c ∧ m.Inside c'.1 c'.2 ∧ ∃ off ∈ OFF,
    c' = neighbour c off ∧ w = off.distance + (map_get m c'.1 c'.2).toNat * 5

/-- The costs of the ways from a target to a cell. -/
def ways (m : Map) (marks : Marks m) (c : Cell) : Set ℤ := costs (Source m marks) (Step m) c

/-- A cell that has a distance, with 0 for none. -/
def label (route : Route) (c : Cell) : Option ℤ := if route c = 0 then none else some (route c)

theorem label_eq_some : label route c = some w ↔ route c ≠ 0 ∧ route c = w := by
  unfold label
  split_ifs with h
  · simp [h]
  · simp [h]

theorem label_of_ne (h : route c ≠ 0) : label route c = some (route c) := if_neg h

theorem label_update (hdis : dis ≠ 0) :
    label (Function.update route cell dis) = Function.update (label route) cell (some dis) := by
  funext c
  by_cases hc : c = cell
  · rw [hc, Function.update_self]
    unfold label
    rw [Function.update_self, if_neg hdis]
  · rw [Function.update_of_ne hc]
    unfold label
    rw [Function.update_of_ne hc]

/-! ## The labels of the list -/

/-- The distances are labels; the entries and the cell that is visited are pending. -/
def Labelled (m : Map) (marks : Marks m) (a : Fifo) (visited : Cell → Prop) : Prop :=
  Labels (Source m marks) (Step m) (label a.route) fun c => c ∈ a.entries ∨ visited c

theorem labelled_start (m : Map) (marks : Marks m) :
    Labelled m marks (start m marks) fun _ => False := by
  have hvalid := start_valid m marks
  have hroute : ∀ {c}, c ∈ sources m marks → (start m marks).route c = initial m marks c :=
    fun hc => if_pos hc
  have hmem : ∀ {c w}, label (start m marks).route c = some w → c ∈ sources m marks ∧
      w = initial m marks c := fun {c w} h => by
    obtain ⟨hne, hw⟩ := label_eq_some.mp h
    have hc : c ∈ sources m marks := by
      by_contra hnot
      exact hne (if_neg hnot)
    exact ⟨hc, hw.symm.trans (hroute hc)⟩
  refine ⟨?_, ?_, ?_⟩
  · rintro c w ⟨hin, htarget, rfl⟩
    have hc : c ∈ sources m marks := List.mem_filter.mpr ⟨mem_cells.mpr hin, htarget⟩
    exact ⟨_, le_rfl, label_eq_some.mpr ⟨hvalid.found c hc, hroute hc⟩⟩
  · intro c w h
    obtain ⟨hc, rfl⟩ := hmem h
    obtain ⟨hcell, htarget⟩ := List.mem_filter.mp hc
    exact .start ⟨mem_cells.mp hcell, htarget, rfl⟩
  · intro c c' w d h hnot
    exact absurd (Or.inl (hmem h).1) hnot

/-- A step lowers the label of the neighbour to the cost by way of the cell, and raises none. -/
theorem Labelled.relax (h : Labelled m marks a (· = c)) (hvalid : a.Valid m)
    (hin : m.Inside c.1 c.2) (hopen : ¬ Wall m c) (hset : a.route c ≠ 0) (hoff : off ∈ OFF) :
    Labelled m marks (a.relax m c (a.route c) off) (· = c) ∧
      (∀ c' w, AtMost (label a.route) c' w →
        AtMost (label (a.relax m c (a.route c) off).route) c' w) ∧
      (m.Inside (neighbour c off).1 (neighbour c off).2 →
        AtMost (label (a.relax m c (a.route c) off).route) (neighbour c off)
          (by_way m (a.route c) (neighbour c off) off)) := by
  have hpos : 0 < by_way m (a.route c) (neighbour c off) off :=
    by_way_pos (hvalid.nonneg c) hoff
  have hlabel : label (Function.update a.route (neighbour c off) _) = _ := label_update hpos.ne'
  have hself : AtMost (Function.update (label a.route) (neighbour c off)
      (some (by_way m (a.route c) (neighbour c off) off))) (neighbour c off)
        (by_way m (a.route c) (neighbour c off) off) :=
    ⟨_, le_rfl, Function.update_self _ _ _⟩
  have hreach : m.Inside (neighbour c off).1 (neighbour c off).2 →
      Reaches (Source m marks) (Step m) (neighbour c off)
        (by_way m (a.route c) (neighbour c off) off) := fun hin' => by
    have hstep : Step m c (neighbour c off)
        (off.distance + (map_get m (neighbour c off).1 (neighbour c off).2).toNat * 5) :=
      ⟨hin, hopen, hin', off, hoff, rfl, rfl⟩
    have hway := (h.sound c _ (label_of_ne hset)).step hstep
    rwa [← add_assoc] at hway
  rcases relax_cases m c (a.route c) a off with
    ⟨heq, hsame⟩ | ⟨hin', hzero, heq⟩ | ⟨hin', hne, hlt, heq⟩
  · rw [heq]
    refine ⟨h, fun c' w hw => hw, fun hin' => ?_⟩
    obtain ⟨hne, hle⟩ := hsame hin'
    exact ⟨_, hle, label_of_ne hne⟩
  · have hlower : Lowers (label a.route) (neighbour c off)
        (by_way m (a.route c) (neighbour c off) off) := fun b hb =>
      absurd hzero (label_eq_some.mp hb).1
    rw [heq]
    unfold Labelled
    dsimp only
    rw [hlabel]
    refine ⟨(h.update hlower (hreach hin')).mono fun u hu => ?_, fun c' w hw => hw.update hlower,
      fun _ => hself⟩
    rcases hu with (hu | hu) | rfl
    · exact Or.inl (List.mem_append_left _ hu)
    · exact Or.inr hu
    · exact Or.inl (List.mem_append_right _ List.mem_cons_self)
  · have hlower : Lowers (label a.route) (neighbour c off)
        (by_way m (a.route c) (neighbour c off) off) := fun b hb => by
      rw [← (label_eq_some.mp hb).2]
      exact hlt.le
    rw [heq]
    unfold Labelled
    dsimp only
    rw [hlabel]
    refine ⟨(h.update hlower (hreach hin')).mono fun u hu => ?_, fun c' w hw => hw.update hlower,
      fun _ => hself⟩
    split_ifs with hmem
    · rcases hu with hu | rfl
      · exact hu
      · exact Or.inl hmem
    · rcases hu with (hu | hu) | rfl
      · exact Or.inl (List.mem_append_left _ hu)
      · exact Or.inr hu
      · exact Or.inl (List.mem_append_right _ List.mem_cons_self)

theorem Labelled.foldl (h : Labelled m marks a (· = c)) (hvalid : a.Valid m) (hc : c ∉ a.entries)
    (hin : m.Inside c.1 c.2) (hopen : ¬ Wall m c) (hset : a.route c ≠ 0)
    (hoffs : ∀ off ∈ offs, off ∈ OFF) :
    Labelled m marks (offs.foldl (Fifo.relax m c (a.route c)) a) (· = c) ∧
      (offs.foldl (Fifo.relax m c (a.route c)) a).route c = a.route c ∧
      (∀ c' w, AtMost (label a.route) c' w →
        AtMost (label (offs.foldl (Fifo.relax m c (a.route c)) a).route) c' w) ∧
      ∀ off ∈ offs, m.Inside (neighbour c off).1 (neighbour c off).2 →
        AtMost (label (offs.foldl (Fifo.relax m c (a.route c)) a).route) (neighbour c off)
          (by_way m (a.route c) (neighbour c off) off) := by
  induction offs generalizing a with
  | nil => exact ⟨h, rfl, fun c' w hw => hw, fun off hoff => absurd hoff List.not_mem_nil⟩
  | cons off offs ih =>
      have hoff := hoffs off List.mem_cons_self
      obtain ⟨hvalid', hc', hroute⟩ := hvalid.relax rfl hoff hc
      obtain ⟨h', hkeep, hself⟩ := h.relax hvalid hin hopen hset hoff
      have hrest := ih h' hvalid' hc' (hroute.trans_ne hset) fun o ho =>
        hoffs o (List.mem_cons_of_mem _ ho)
      rw [hroute] at hrest
      obtain ⟨h'', hroute', hkeep', hdone⟩ := hrest
      rw [List.foldl_cons]
      refine ⟨h'', hroute', fun c' w hw => hkeep' c' w (hkeep c' w hw), ?_⟩
      intro o ho hin'
      rcases List.mem_cons.mp ho with rfl | ho
      · exact hkeep' _ _ (hself hin')
      · exact hdone o ho hin'

/-- After a round the cell that left is settled. -/
theorem Labelled.visit (h : Labelled m marks a (· = c)) (hvalid : a.Valid m) (hc : c ∉ a.entries)
    (hin : m.Inside c.1 c.2) (hset : a.route c ≠ 0) :
    Labelled m marks (a.visit m c) fun _ => False := by
  have hdrop : ∀ {b : Fifo}, Labelled m marks b (· = c) → (∀ w d e, label b.route c = some d →
      Step m c w e → AtMost (label b.route) w (d + e)) → Labelled m marks b fun _ => False :=
    fun hb htried => (Labels.settle hb htried).mono fun u hu => Or.inl (hu.1.resolve_right hu.2)
  unfold Fifo.visit
  split_ifs with hwall
  · exact hdrop h fun w d e _ hstep => absurd hwall hstep.2.1
  · obtain ⟨h', hroute, -, hdone⟩ := h.foldl hvalid hc hin hwall hset fun off hoff => hoff
    refine hdrop h' ?_
    rintro w d e hlabel ⟨-, -, hin', off, hoff, rfl, rfl⟩
    rw [(label_eq_some.mp hlabel).2.symm, hroute, ← add_assoc]
    exact hdone off hoff hin'

/-- When the list has run empty the distances are final. -/
theorem labelled_drain (h : Labelled m marks a fun _ => False) (hvalid : a.Valid m)
    (hdrain : a.drain m rounds = some a') :
    Labels (Source m marks) (Step m) (label a'.route) fun _ => False := by
  induction rounds generalizing a with
  | zero => cases hdrain
  | succ rounds ih =>
      rw [Fifo.drain] at hdrain
      cases hentries : a.entries with
      | nil =>
          rw [hentries] at hdrain
          cases hdrain
          refine Labels.mono h fun u hu => ?_
          rw [hentries] at hu
          exact hu.elim List.not_mem_nil id
      | cons c entries =>
          rw [hentries] at hdrain
          obtain ⟨hvalid', hc⟩ := hvalid.leave hentries
          have hmem : c ∈ a.entries := by
            rw [hentries]
            exact List.mem_cons_self
          have hleave : Labelled m marks (a.leave entries) (· = c) := by
            refine Labels.mono h fun u hu => ?_
            rw [hentries, or_false, List.mem_cons] at hu
            exact hu.symm
          have hvisit := hleave.visit hvalid' hc (hvalid.inside c hmem) (hvalid.found c hmem)
          exact ih hvisit (hvalid'.visit hc).1 hdrain

/-! ## Least costs -/

structure Least (m : Map) (marks : Marks m) (route : Route) : Prop where
  labels : Labels (Source m marks) (Step m) (label route) fun _ => False
  nonneg : ∀ c, 0 ≤ route c
  /-- No step over a distance passes an `int`. -/
  fits : ∀ c, route c + 7 < 2 ^ 31

theorem Least.isLeast_iff (h : Least m marks route) :
    IsLeast (ways m marks c) w ↔ route c ≠ 0 ∧ route c = w := by
  rw [← label_eq_some]
  exact h.labels.eq_some_iff.symm

theorem Least.zero_iff (h : Least m marks route) : route c = 0 ↔ ways m marks c = ∅ := by
  rw [ways, ← h.labels.eq_none_iff]
  unfold label
  split_ifs with hzero <;> simp [hzero]

theorem Least.pos (h : Least m marks route) (hset : route c ≠ 0) : 0 < route c :=
  lt_of_le_of_ne (h.nonneg c) hset.symm

/-- A neighbour of a cell with a distance has one too. -/
theorem Least.beside (h : Least m marks route) (hin : m.Inside c.1 c.2) (hopen : ¬ Wall m c)
    (hset : route c ≠ 0) (hoff : off ∈ OFF)
    (hin' : m.Inside (neighbour c off).1 (neighbour c off).2) : route (neighbour c off) ≠ 0 := by
  obtain ⟨b, -, hb⟩ := h.labels.relaxed c (neighbour c off) (route c) _ (label_of_ne hset)
    id ⟨hin, hopen, hin', off, hoff, rfl, rfl⟩
  exact (label_eq_some.mp hb).1

theorem opposite : ∀ off ∈ OFF, ∃ off' ∈ OFF,
    off'.dx = -off.dx ∧ off'.dy = -off.dy ∧ off'.distance = off.distance := by decide

/-- A cell that is no target has an open neighbour from which its distance comes. -/
theorem Least.back (h : Least m marks route) (hset : route c ≠ 0)
    (htarget : isTarget m marks c = false) : ∃ off ∈ OFF,
      m.Inside (neighbour c off).1 (neighbour c off).2 ∧
        ¬ Wall m (neighbour c off) ∧ route (neighbour c off) ≠ 0 ∧
          route (neighbour c off) + off.distance ≤ route c := by
  have hsource : ¬ Source m marks c (route c) := fun hs => by
    rw [hs.2.1] at htarget
    cases htarget
  obtain ⟨v, b, d, hv, ⟨hin, hopen, -, off, hoff, hc, hd⟩, hsum⟩ :=
    h.labels.pred (label_of_ne hset) hsource
  obtain ⟨off', hoff', hx, hy, hdistance⟩ := opposite off hoff
  have hback : neighbour c off' = v := by
    refine Prod.ext ?_ ?_
    · change c.1 + off'.dx = v.1
      rw [hc, hx]
      exact add_neg_cancel_right _ _
    · change c.2 + off'.dy = v.2
      rw [hc, hy]
      exact add_neg_cancel_right _ _
  obtain ⟨hvset, hvroute⟩ := label_eq_some.mp hv
  rw [← hback] at hin hopen hvset hvroute
  refine ⟨off', hoff', hin, hopen, hvset, ?_⟩
  omega

end GameServer.FlowGraph
