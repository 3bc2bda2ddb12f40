import GameServer.FlowList
import GameServer.FlowQueue

/-!
# Safety of the flow graph

The ring follows the list step by step as long as no search for a cell goes behind the last slot. A
cell that is visited is not among the entries, so the ring is never full, unless every cell of the
map is a target from the start.
-/

namespace GameServer.FlowGraph

open Pathfinding

/-- In a ring of `n` slots the entries go round its end, and the cell is not among those before
it. -/
def Lookup.Overruns (n : ℕ) (e : Lookup) : Prop :=
  n ≤ e.left % n + e.entries.length ∧ e.cell ∉ e.entries.take (n - e.left % n)

/-- No search went behind the last slot. -/
def Fifo.Tame (m : Map) (a : Fifo) : Prop :=
  ∀ e ∈ a.looked, ¬ e.Overruns (m.width * m.height)

structure Sim (m : Map) (s : State) (a : Fifo) : Prop where
  route : s.route = a.route
  holds : Holds s.q a.entries
  slots : s.q.n = m.width * m.height
  head : s.q.head = a.left % (m.width * m.height)

/-- The cell stands in the slot in front of the head. -/
structure Visiting (s : State) (k : ℕ) (c : Cell) : Prop where
  slot : s.q.slot k = .ok c
  next : place s.q.n k 1 = s.q.head

variable {m : Map} {marks : Marks m} {s s' : State} {a a' : Fifo} {k : ℕ} {c : Cell} {odis : ℤ}
  {off : Off} {offs : List Off}

/-- The outcome of a part of the code is that of the list, or the search for a cell ended it. -/
def Follows (m : Map) (r : Run State) (k : ℕ) (c : Cell) (a : Fifo) : Prop :=
  (a.Tame m ∧ ∃ s, r = .ok s ∧ Sim m s a ∧ Visiting s k c) ∨ (¬ a.Tame m ∧ r = .error .access)

theorem relax_eq (hslot : s.q.slot k = .ok c) : relax m k odis s off =
    if m.Inside (neighbour c off).1 (neighbour c off).2 then
      let dis := int (by_way m odis (neighbour c off) off)
      let route := Function.update s.route (neighbour c off) dis
      if s.route (neighbour c off) = 0 then
        (enter_queue s.q (neighbour c off).1 (neighbour c off).2).map fun q => ⟨route, q⟩
      else if s.route (neighbour c off) > dis then
        (queue_exist s.q (neighbour c off).1 (neighbour c off).2).bind fun found =>
          if found then .ok ⟨route, s.q⟩
          else (enter_queue s.q (neighbour c off).1 (neighbour c off).2).map fun q => ⟨route, q⟩
      else .ok s
    else .ok s := by
  unfold relax
  rw [hslot]
  rfl

/-- No sum of the relaxation passes an `int`. -/
theorem int_by_way (hfits : Fits m) (hvalid : a.Valid m) (hodis : a.route c = odis)
    (hoff : off ∈ OFF) (cell : Cell) :
    int (by_way m odis cell off) = by_way m odis cell off := by
  have hnonneg := hvalid.nonneg c
  have hsmall := hvalid.small c
  have hle := by_way_le m odis cell hoff
  have hpos : 0 < by_way m odis cell off := by_way_pos (hodis ▸ hnonneg) hoff
  unfold Fits at hfits
  exact int_of_lt hpos.le (by omega)

/-- An entry besides the cell that is visited finds a free slot. -/
theorem enter_sim (hsim : Sim m s a) (hvisit : Visiting s k c) (hvalid : a.Valid m)
    (hc : c ∉ a.entries) (hinside : m.Inside c.1 c.2) {cell : Cell} (hne : cell ≠ c)
    (hin : m.Inside cell.1 cell.2) (hnew : cell ∉ a.entries) (route : Route) : ∃ q,
      enter_queue s.q cell.1 cell.2 = .ok q ∧
        Sim m ⟨route, q⟩ { a with route, entries := a.entries ++ [cell] } ∧
        Visiting ⟨route, q⟩ k c := by
  have hroom : a.entries.length + 1 < s.q.n := by
    rw [hsim.slots]
    have hnodup : (a.entries ++ [cell]).Nodup :=
      List.nodup_append_comm.mp (List.nodup_cons.mpr ⟨hnew, hvalid.nodup⟩)
    have hlt := length_lt_of_nodup hnodup (c := c) (fun c' hc' => ?_) hinside ?_
    · rwa [List.length_append] at hlt
    · rcases List.mem_append.mp hc' with hc' | hc'
      · exact hvalid.inside c' hc'
      · rw [List.mem_singleton.mp hc']
        exact hin
    · intro hmem
      rcases List.mem_append.mp hmem with hmem | hmem
      · exact hc hmem
      · exact hne (List.mem_singleton.mp hmem).symm
  obtain ⟨q, henter, hholds, hhead, hn, hkeep⟩ := enter_holds (x := cell.1) (y := cell.2)
    hsim.holds hroom
  refine ⟨q, henter, ⟨rfl, hholds, hn.trans hsim.slots, hhead.trans hsim.head⟩, ?_, ?_⟩
  · have hslot := hvisit.slot
    unfold RouteQueue.slot at hslot ⊢
    rw [hkeep k hvisit.next, hn]
    exact hslot
  · change place q.n k 1 = q.head
    rw [hn, hhead]
    exact hvisit.next

theorem tame_append {e : Lookup} (htame : a.Tame m) (hlooked : a'.looked = a.looked ++ [e]) :
    a'.Tame m ↔ ¬ e.Overruns (m.width * m.height) := by
  unfold Fifo.Tame at htame ⊢
  rw [hlooked, List.forall_mem_append, and_iff_right htame]
  exact List.forall_mem_singleton

theorem relax_follows (hsim : Sim m s a) (hvisit : Visiting s k c) (hvalid : a.Valid m)
    (hc : c ∉ a.entries) (hinside : m.Inside c.1 c.2) (hfits : Fits m) (hodis : a.route c = odis)
    (hoff : off ∈ OFF) (htame : a.Tame m) :
    Follows m (relax m k odis s off) k c (a.relax m c odis off) := by
  have hne := neighbour_ne (c := c) hoff
  rw [relax_eq hvisit.slot, hsim.route, int_by_way hfits hvalid hodis hoff]
  dsimp only
  rcases relax_cases m c odis a off with ⟨heq, hsame⟩ | ⟨hin, hzero, heq⟩ | ⟨hin, hset, hlt, heq⟩
  · rw [heq]
    refine Or.inl ⟨htame, s, ?_, hsim, hvisit⟩
    split_ifs with hin hzero hgt
    · exact absurd hzero (hsame hin).1
    · exact absurd hgt (not_lt.mpr (hsame hin).2)
    · rfl
    · rfl
  · have hnew : neighbour c off ∉ a.entries := fun hmem => hvalid.found _ hmem hzero
    obtain ⟨q, henter, hsim', hvisit'⟩ := enter_sim hsim hvisit hvalid hc hinside hne hin hnew
      (Function.update a.route (neighbour c off) (by_way m odis (neighbour c off) off))
    rw [heq, if_pos hin, if_pos hzero, henter]
    exact Or.inl ⟨htame, _, rfl, hsim', hvisit'⟩
  · have hexist := exist_holds (x := (neighbour c off).1) (y := (neighbour c off).2) hsim.holds
    rw [heq, if_pos hin, if_neg hset, if_pos hlt, hexist]
    unfold upper
    rw [hsim.slots, hsim.head]
    have hover : ∀ {a' : Fifo}, a'.looked = a.looked ++ [⟨a.left, a.entries, neighbour c off⟩] →
        (a'.Tame m ↔ ¬ Lookup.Overruns (m.width * m.height) ⟨a.left, a.entries, neighbour c off⟩) :=
      tame_append htame
    by_cases hmem : neighbour c off ∈
        a.entries.take (m.width * m.height - a.left % (m.width * m.height))
    · -- the cell stands before the end of the slots
      rw [if_pos hmem, if_pos (List.mem_of_mem_take hmem)] at *
      refine Or.inl ⟨(hover rfl).mpr fun h => h.2 hmem, _, rfl,
        ⟨rfl, hsim.holds, hsim.slots, hsim.head⟩, hvisit.slot, hvisit.next⟩
    · rw [if_neg hmem]
      by_cases hwrap : m.width * m.height ≤ a.left % (m.width * m.height) + a.entries.length
      · rw [if_pos hwrap]
        exact Or.inr ⟨fun h => (hover rfl).mp h ⟨hwrap, hmem⟩, rfl⟩
      · have hnew : neighbour c off ∉ a.entries := fun h => hmem (by
          rw [List.take_of_length_le (by omega)]
          exact h)
        obtain ⟨q, henter, hsim', hvisit'⟩ := enter_sim hsim hvisit hvalid hc hinside hne hin hnew
          (Function.update a.route (neighbour c off) (by_way m odis (neighbour c off) off))
        rw [if_neg hwrap, if_neg hnew] at *
        refine Or.inl ⟨(hover rfl).mpr fun h => hwrap h.1, ⟨_, q⟩, ?_,
          ⟨rfl, hsim'.holds, hsim'.slots, hsim'.head⟩, hvisit'.slot, hvisit'.next⟩
        change (enter_queue s.q (neighbour c off).1 (neighbour c off).2).map _ = _
        rw [henter]
        rfl

/-! ## Runs -/

theorem tame_of_relax (h : (a.relax m c odis off).Tame m) : a.Tame m := by
  rcases relax_cases m c odis a off with ⟨heq, -⟩ | ⟨-, -, heq⟩ | ⟨-, -, -, heq⟩
  · rwa [heq] at h
  · rwa [heq] at h
  · rw [heq] at h
    exact fun e he => h e (List.mem_append_left _ he)

theorem tame_of_foldl (h : (offs.foldl (Fifo.relax m c odis) a).Tame m) : a.Tame m := by
  induction offs generalizing a with
  | nil => exact h
  | cons off offs ih => exact tame_of_relax (ih h)

theorem tame_of_visit (h : (a.visit m c).Tame m) : a.Tame m := by
  unfold Fifo.visit at h
  split_ifs at h
  · exact h
  · exact tame_of_foldl h

theorem tame_of_drain {rounds : ℕ} (h : a.drain m rounds = some a') (htame : a'.Tame m) :
    a.Tame m := by
  induction rounds generalizing a with
  | zero => cases h
  | succ rounds ih =>
      rw [Fifo.drain] at h
      cases hentries : a.entries with
      | nil =>
          rw [hentries] at h
          cases h
          exact htame
      | cons c entries =>
          rw [hentries] at h
          have hleft : (a.leave entries).Tame m := tame_of_visit (ih h)
          exact hleft

theorem foldlM_follows (hsim : Sim m s a) (hvisit : Visiting s k c) (hvalid : a.Valid m)
    (hc : c ∉ a.entries) (hinside : m.Inside c.1 c.2) (hfits : Fits m) (hodis : a.route c = odis)
    (hoffs : ∀ off ∈ offs, off ∈ OFF) (htame : a.Tame m) :
    Follows m (offs.foldlM (relax m k odis) s) k c (offs.foldl (Fifo.relax m c odis) a) := by
  induction offs generalizing s a with
  | nil => exact Or.inl ⟨htame, s, rfl, hsim, hvisit⟩
  | cons off offs ih =>
      have hoff := hoffs off List.mem_cons_self
      obtain ⟨hvalid', hc', hroute⟩ := hvalid.relax hodis hoff hc
      rw [List.foldlM_cons, List.foldl_cons]
      have hfirst : Follows m (relax m k odis s off) k c (a.relax m c odis off) :=
        relax_follows hsim hvisit hvalid hc hinside hfits hodis hoff htame
      rcases hfirst with
        ⟨htame', s', hok, hsim', hvisit'⟩ | ⟨hnot, herror⟩
      · rw [hok]
        exact ih hsim' hvisit' hvalid' hc' (hroute.trans hodis)
          (fun o ho => hoffs o (List.mem_cons_of_mem _ ho)) htame'
      · rw [herror]
        exact Or.inr ⟨fun h => hnot (tame_of_foldl h), rfl⟩

theorem place_mod {n i : ℕ} (hn : 0 < n) : place n (i % n) 1 = (i + 1) % n := by
  have hlt := Nat.mod_lt i hn
  unfold place
  rw [Nat.add_mod]
  rcases Nat.lt_or_ge 1 n with hone | hone
  · rw [Nat.mod_eq_of_lt hone]
    split_ifs with h
    · rw [Nat.mod_eq_of_lt h]
    · have hend : i % n + 1 = n := by omega
      rw [hend, Nat.mod_self, Nat.sub_self]
  · obtain rfl : n = 1 := by omega
    simp [Nat.mod_one]

theorem gen_route_leave {rounds : ℕ} {q : RouteQueue} (hleave : leave_queue s.q = some (k, q))
    (hslot : q.slot k = .ok c) : gen_route m (rounds + 1) s =
      if map_get m c.1 c.2 = BLOCK_WEIGHT then gen_route m rounds { s with q }
      else (OFF.foldlM (relax m k (s.route c)) { s with q }).bind fun s => gen_route m
        rounds s := by
  rw [gen_route, hleave]
  dsimp only
  rw [hslot]
  rfl

/-- The run with the ring follows the run with the list. -/
theorem gen_follows {rounds : ℕ} (hfits : Fits m) (hsim : Sim m s a) (hvalid : a.Valid m)
    (htame : a.Tame m) (h : a.drain m rounds = some a') :
    (a'.Tame m ∧ gen_route m rounds s = .ok a'.route) ∨
      (¬ a'.Tame m ∧ gen_route m rounds s = .error .access) := by
  induction rounds generalizing s a with
  | zero => cases h
  | succ rounds ih =>
      rw [Fifo.drain] at h
      have hholds := hsim.holds
      cases hentries : a.entries with
      | nil =>
          rw [hentries] at h hholds
          cases h
          rw [gen_route, leave_empty hholds]
          exact Or.inl ⟨htame, congrArg Except.ok hsim.route⟩
      | cons c entries =>
          rw [hentries] at h hholds
          obtain ⟨q, hleave, hq, hhead, hn, hslot⟩ := leave_holds hholds
          have hpos : 0 < m.width * m.height := by
            rw [← hsim.slots]
            exact Nat.zero_lt_of_lt hholds.head_lt
          have hsim' : Sim m { s with q } (a.leave entries) := by
            refine ⟨hsim.route, hq, hn.trans hsim.slots, ?_⟩
            change q.head = (a.left + 1) % (m.width * m.height)
            rw [hhead, hsim.head, hsim.slots, place_mod hpos]
          have hvisit : Visiting { s with q } s.q.head c := by
            refine ⟨hslot, ?_⟩
            change place q.n s.q.head 1 = q.head
            rw [hn, hhead]
          obtain ⟨hvalid', hc⟩ := hvalid.leave hentries
          have hinside : m.Inside c.1 c.2 := hvalid.inside c (by
            rw [hentries]
            exact List.mem_cons_self)
          have htame' : (a.leave entries).Tame m := htame
          rw [gen_route_leave hleave hslot]
          dsimp only at h
          unfold Fifo.visit at h
          by_cases hwall : map_get m c.1 c.2 = BLOCK_WEIGHT
          · rw [if_pos hwall] at h ⊢
            exact ih hsim' hvalid' htame' h
          · rw [if_neg hwall] at h ⊢
            obtain ⟨hvalid'', -, -⟩ := hvalid'.foldl rfl (fun off hoff => hoff) hc
            rw [show s.route c = (a.leave entries).route c from congrFun hsim.route c]
            rcases foldlM_follows hsim' hvisit hvalid' hc hinside hfits rfl
              (fun off hoff => hoff) htame'
              with ⟨htame'', s'', hok, hsim'', -⟩ | ⟨hnot, herror⟩
            · rw [hok]
              exact ih hsim'' hvalid'' htame'' h
            · rw [herror]
              exact Or.inr ⟨fun hend => hnot (tame_of_drain h hend), rfl⟩

/-! ## The whole function -/

theorem initCell_target (htarget : isTarget m marks c = true) : initCell m marks s c =
    (enter_queue s.q c.1 c.2).map fun q => ⟨Function.update s.route c (initial m marks c), q⟩ := by
  unfold isTarget at htarget
  unfold initCell
  exact if_pos (of_decide_eq_true htarget)

theorem initCell_of_not (htarget : isTarget m marks c = false) : initCell m marks s c = .ok s := by
  unfold isTarget at htarget
  unfold initCell
  exact if_neg (of_decide_eq_false htarget)

/-- The loop over a part of the cells enters the targets among them; the last slot stays free. -/
theorem init_follows {l e : List Cell} (hholds : Holds s.q e) :
    (e.length + (l.filter (isTarget m marks)).length < s.q.n → ∃ s',
      l.foldlM (initCell m marks) s = .ok s' ∧ Holds s'.q (e ++ l.filter (isTarget m marks)) ∧
        s'.q.n = s.q.n ∧ s'.q.head = s.q.head ∧ ∀ c, s'.route c =
          if c ∈ l.filter (isTarget m marks) then initial m marks c else s.route c) ∧
    (e.length + (l.filter (isTarget m marks)).length = s.q.n →
      l.foldlM (initCell m marks) s = .error .assertion) := by
  induction l generalizing s e with
  | nil =>
      refine ⟨fun _ => ⟨s, rfl, ?_, rfl, rfl, fun c => (if_neg List.not_mem_nil).symm⟩, fun h => ?_⟩
      · rw [List.filter_nil, List.append_nil]
        exact hholds
      · exact absurd h hholds.room.ne
  | cons c l ih =>
      rw [List.foldlM_cons, List.filter_cons]
      cases htarget : isTarget m marks c with
      | false =>
          rw [initCell_of_not htarget, if_neg (by decide)]
          exact ih hholds
      | true =>
          rw [initCell_target htarget, if_pos rfl, List.length_cons]
          by_cases hroom : e.length + 1 < s.q.n
          · obtain ⟨q, henter, hq, hhead, hn, -⟩ := enter_holds (x := c.1) (y := c.2) hholds hroom
            obtain ⟨hok, herror⟩ := ih (s := ⟨Function.update s.route c (initial m marks c), q⟩) hq
            rw [henter]
            dsimp only at hok herror
            rw [List.length_append, List.length_singleton, hn] at hok herror
            refine ⟨fun hlt => ?_, fun hfull => herror (by omega)⟩
            obtain ⟨s', hrun, hs', hn', hhead', hroute⟩ := hok (by omega)
            refine ⟨s', hrun, ?_, hn', hhead'.trans hhead, fun c' => ?_⟩
            · rw [List.append_assoc] at hs'
              exact hs'
            · rw [hroute c']
              by_cases hc' : c' = c
              · simp [hc']
              · simp [hc', Function.update_of_ne]
          · rw [enter_full hholds (by have := hholds.room; omega)]
            exact ⟨fun hlt => absurd hlt (by omega), fun _ => rfl⟩

/-- Some cell of the map is no target. -/
def Roomy (m : Map) (marks : Marks m) : Prop :=
  ∃ c, m.Inside c.1 c.2 ∧ isTarget m marks c = false

def NeverOverruns (m : Map) (marks : Marks m) : Prop :=
  ∀ rounds a, (start m marks).drain m rounds = some a → a.Tame m

theorem roomy_iff : Roomy m marks ↔ (sources m marks).length < m.width * m.height := by
  rw [← length_cells, sources, List.length_filter_lt_length_iff_exists]
  constructor
  · rintro ⟨c, hin, hc⟩
    exact ⟨c, mem_cells.mpr hin, by rw [hc]; decide⟩
  · rintro ⟨c, hin, hc⟩
    exact ⟨c, mem_cells.mp hin, Bool.eq_false_iff.mpr hc⟩

theorem init_route_full (hpos : 0 < m.width * m.height) (hfull : ¬ Roomy m marks) :
    init_route m marks ⟨fun _ => 0, create_queue (m.width * m.height)⟩ = .error .assertion := by
  refine (init_follows (l := cells m) (holds_create hpos)).2 ?_
  rw [roomy_iff] at hfull
  have hle : (sources m marks).length ≤ (cells m).length := List.length_filter_le _ _
  rw [length_cells] at hle
  change 0 + (sources m marks).length = m.width * m.height
  omega

theorem init_route_sim (hpos : 0 < m.width * m.height) (hroomy : Roomy m marks) : ∃ s,
    init_route m marks ⟨fun _ => 0, create_queue (m.width * m.height)⟩ = .ok s ∧
      Sim m s (start m marks) := by
  have hlt : List.length (α := Cell) [] + (sources m marks).length < m.width * m.height := by
    rw [List.length_nil, zero_add]
    exact roomy_iff.mp hroomy
  obtain ⟨s, hrun, hholds, hn, hhead, hroute⟩ :=
    (init_follows (s := ⟨fun _ => 0, create_queue (m.width * m.height)⟩) (l := cells m)
      (holds_create hpos)).1 hlt
  exact ⟨s, hrun, funext hroute, hholds, hn, hhead.trans (Nat.zero_mod _).symm⟩

/-- With a free cell the distances are those of the list, unless a search ended the run. -/
theorem routes_follow {rounds : ℕ} (hpos : 0 < m.width * m.height) (hfits : Fits m)
    (hroomy : Roomy m marks) (h : (start m marks).drain m rounds = some a) :
    (a.Tame m ∧ routes m marks rounds = .ok a.route) ∨
      (¬ a.Tame m ∧ routes m marks rounds = .error .access) := by
  obtain ⟨s, hinit, hsim⟩ := init_route_sim hpos hroomy
  unfold routes
  rw [hinit]
  exact gen_follows hfits hsim (start_valid m marks) (fun e he => absurd he List.not_mem_nil) h

theorem neverOverruns_iff {rounds : ℕ} (h : (start m marks).drain m rounds = some a) :
    NeverOverruns m marks ↔ a.Tame m := by
  refine ⟨fun hnever => hnever rounds a h, fun htame rounds' a' h' => ?_⟩
  have hsame : some a = some a' :=
    (drain_mono h (le_max_left rounds rounds')).symm.trans (drain_mono h' (le_max_right _ _))
  rwa [← Option.some.inj hsame]

/-- The graph comes to an end; it is safe when some cell is no target and no search overruns. -/
theorem lflowgraph_safe_iff (m : Map) (marks : Marks m) (hpos : 0 < m.width * m.height)
    (hfits : Fits m) : ∃ enough, ∀ rounds ≥ enough, lflowgraph m marks rounds ≠ .error .rounds ∧
      ((∃ flow, lflowgraph m marks rounds = .ok flow) ↔ Roomy m marks ∧ NeverOverruns m marks) := by
  obtain ⟨enough, a, hdrain⟩ := drain_ends (start_valid m marks)
  refine ⟨enough, fun rounds hrounds => ?_⟩
  have hends : ∀ {r : Run (Cell → ℕ)} {f : Fault}, r = .error f → f ≠ .rounds →
      r ≠ .error .rounds ∧ ¬ ∃ flow, r = .ok flow := fun hr hf => by
    subst hr
    exact ⟨fun h => hf (Except.error.inj h), by rintro ⟨flow, hflow⟩; cases hflow⟩
  by_cases hroomy : Roomy m marks
  · rw [neverOverruns_iff hdrain, and_iff_right hroomy]
    rcases routes_follow hpos hfits hroomy (drain_mono hdrain hrounds) with
      ⟨htame, hok⟩ | ⟨hnot, herror⟩
    · have hflow : lflowgraph m marks rounds = .ok (convert_route m a.route) := by
        unfold lflowgraph
        rw [hok]
        rfl
      rw [hflow]
      refine ⟨fun h => ?_, iff_of_true ⟨_, rfl⟩ htame⟩
      cases h
    · have hflow : lflowgraph m marks rounds = .error .access := by
        unfold lflowgraph
        rw [herror]
        rfl
      obtain ⟨hne, hnone⟩ := hends hflow (by decide)
      exact ⟨hne, iff_of_false hnone hnot⟩
  · have hflow : lflowgraph m marks rounds = .error .assertion := by
      unfold lflowgraph routes
      rw [init_route_full hpos hroomy]
      rfl
    obtain ⟨hne, hnone⟩ := hends hflow (by decide)
    exact ⟨hne, iff_of_false hnone fun h => hroomy h.1⟩

/-- A row of three open cells. -/
def row : Map := ⟨3, 1, #v[0, 0, 0]⟩

instance (n : ℕ) (e : Lookup) : Decidable (e.Overruns n) := inferInstanceAs (Decidable (_ ∧ _))

/-- The middle cell is improved while it is the next one. -/
theorem lflowgraph_safe_row :
    ∃ rounds flow, lflowgraph row #v[1, 200, 0] rounds = .ok flow := by
  obtain ⟨enough, h⟩ := lflowgraph_safe_iff row #v[1, 200, 0] (by decide) (by decide)
  have hlooked : ((start row #v[1, 200, 0]).drain row 4).map Fifo.looked =
      some [⟨1, [(1, 0)], (1, 0)⟩] := rfl
  obtain ⟨a, hdrain, hlookups⟩ := Option.map_eq_some_iff.mp hlooked
  have hnever : NeverOverruns row #v[1, 200, 0] := by
    refine (neverOverruns_iff hdrain).mpr fun e he => ?_
    rw [hlookups, List.mem_singleton] at he
    subst he
    decide
  exact ⟨enough, (h enough le_rfl).2.mpr ⟨⟨(2, 0), by decide, by decide⟩, hnever⟩⟩

/-- The middle cell is improved while the left one waits in the last slot. -/
theorem lflowgraph_overrun : ¬ ∀ (m : Map) (marks : Marks m), 0 < m.width * m.height →
    ∃ rounds flow, lflowgraph m marks rounds = .ok flow := fun h => by
  obtain ⟨rounds, flow, hflow⟩ := h row #v[0, 200, 1] (by decide)
  match rounds with
  | 0 => cases hflow
  | 1 => cases hflow
  | n + 2 => cases hflow

end GameServer.FlowGraph
