import Mathlib.Tactic
import GameServer.PathSearch

/-!
# The path returned

`lpath` follows `camefrom` from the node that the search returned. The cells it meets are a trail
of search steps from the start, so they form a route without repetitions whose cost is the score of
the node. When `add_open` never failed, the search ends at the end cell exactly when a route leads
there, and the route returned is a cheapest one.
-/

namespace GameServer.Pathfinding

open BestFirst

variable {m : Map} {bsize : ℤ} {start stop : Cell} {P : Path}
variable {opens closeds : List ℕ} {nodes : List Node} {i : ℕ} {l : List ℕ}

/-! ## The loops of `lpath` -/

def cellOf (nodes : List Node) (i : ℕ) : Cell := ((nodes[i]?).map Node.cell).getD (0, 0)

theorem cellOf_eq {pn : Node} (h : nodes[i]? = some pn) : cellOf nodes i = pn.cell := by
  rw [cellOf, h]
  rfl

theorem Chain.head (h : Chain nodes i l) : ∃ l', l = i :: l' := by
  cases h with
  | root => exact ⟨[], rfl⟩
  | link => exact ⟨_, rfl⟩

theorem countPath_spec (hget : ∀ (i : ℕ) (pn : Node), nodes[i]? = some pn → P.getNode i = some pn)
    (h : Chain nodes i l) {rounds n : ℕ} (hrounds : l.length ≤ rounds) :
    countPath P rounds i (n + 1) = some (n + l.length) := by
  induction h generalizing rounds n with
  | @root i pn hpn hneg =>
      cases rounds with
      | zero => simp at hrounds
      | succ rounds =>
          rw [countPath, hget i pn hpn, Option.bind_eq_bind, Option.bind_some,
            if_neg (not_le.mpr hneg)]
          rfl
  | @link i j pn l hpn hfrom _ ih =>
      cases rounds with
      | zero => simp at hrounds
      | succ rounds =>
          rw [countPath, hget i pn hpn, Option.bind_eq_bind, Option.bind_some,
            if_pos (by omega), hfrom, Int.toNat_natCast,
            ih (by simpa using hrounds), List.length_cons]
          congr 1
          omega

theorem positions_spec (hget : ∀ (i : ℕ) (pn : Node), nodes[i]? = some pn → P.getNode i = some pn)
    (h : Chain nodes i l) : positions P l.length i = some (l.map (cellOf nodes)) := by
  induction h with
  | @root i pn hpn _ =>
      simp only [List.length_singleton, positions, if_neg (not_lt.mpr (Int.natCast_nonneg i)),
        Int.toNat_natCast, hget i pn hpn, Option.bind_eq_bind, Option.bind_some, List.map_cons,
        List.map_nil, cellOf_eq hpn]
      rfl
  | @link i j pn l hpn hfrom _ ih =>
      simp only [List.length_cons, positions, if_neg (not_lt.mpr (Int.natCast_nonneg i)),
        Int.toNat_natCast, hget i pn hpn, Option.bind_eq_bind, Option.bind_some, hfrom, ih,
        List.map_cons, cellOf_eq hpn]
      rfl

/-! ## Chains are trails -/

theorem Sound.trail (hs : Sound m bsize start stop opens closeds nodes) (h : Chain nodes i l)
    {pn : Node} (hpn : nodes[i]? = some pn) :
    Trail (StepTo m bsize stop) start (l.map (cellOf nodes)) pn.gscore := by
  induction h generalizing pn with
  | @root i pn' hpn' hneg =>
      rw [hpn', Option.some.injEq] at hpn
      subst hpn
      rcases hs.origin i pn' hpn' with ⟨-, hcell, hscore⟩ | ⟨j, -, -, -, -, hfrom, -⟩
      · rw [List.map_singleton, cellOf_eq hpn', hcell, hscore]
        exact .nil
      · omega
  | @link i j pn' l hpn' hfrom hchain ih =>
      rw [hpn', Option.some.injEq] at hpn
      subst hpn
      rcases hs.origin i pn' hpn' with ⟨hroot, -⟩ | ⟨k, -, pk, c, hpk, hfrom', hstep, hscore⟩
      · omega
      · obtain rfl : j = k := by omega
        obtain ⟨l', rfl⟩ := hchain.head
        have htrail := ih hpk
        rw [List.map_cons, cellOf_eq hpk] at htrail
        rw [List.map_cons, List.map_cons, cellOf_eq hpn', cellOf_eq hpk, hscore]
        exact .snoc htrail hstep

theorem Sound.exists_chain (hs : Sound m bsize start stop opens closeds nodes)
    {pn : Node} (hpn : nodes[i]? = some pn) :
    ∃ l, Chain nodes i l ∧ l.Nodup ∧ ∀ j ∈ l, j ∈ opens ++ closeds := by
  have hknown := hs.known i pn hpn
  rcases List.mem_append.mp hknown with hi | hi
  · have hfresh : i ∉ closeds := List.disjoint_of_nodup_append hs.nodup hi
    rcases hs.origin i pn hpn with ⟨hroot, -⟩ | ⟨j, hj, -, -, -, hfrom, -⟩
    · refine ⟨[i], .root hpn (by omega), List.nodup_singleton i, fun j hj => ?_⟩
      exact List.mem_singleton.mp hj ▸ hknown
    · obtain ⟨l, hl, hnd, hsub⟩ := hs.chain j hj
      refine ⟨i :: l, .link hpn hfrom hl,
        List.nodup_cons.mpr ⟨fun hmem => hfresh (hsub i hmem), hnd⟩, fun k hk => ?_⟩
      rcases List.mem_cons.mp hk with rfl | hk
      · exact hknown
      · exact List.mem_append_right _ (hsub k hk)
  · obtain ⟨l, hl, hnd, hsub⟩ := hs.chain i hi
    exact ⟨l, hl, hnd, fun j hj => List.mem_append_right _ (hsub j hj)⟩

/-! ## Trails are routes -/

theorem routeCost_append (cells : List Cell) (v w : Cell) :
    routeCost (cells ++ [v] ++ [w]) = routeCost (cells ++ [v]) + stepCost v w := by
  induction cells with
  | nil => simp [routeCost]
  | cons a cells ih =>
      cases cells with
      | nil => simp [routeCost]
      | cons b cells =>
          simp only [List.cons_append, routeCost] at ih ⊢
          rw [ih]
          ring

theorem trail_route {cells : List Cell} {c : ℤ} (h : Trail (StepTo m bsize stop) start cells c) :
    Route m bsize start stop cells.reverse ∧ routeCost cells.reverse = c := by
  induction h with
  | nil => exact ⟨⟨rfl, .singleton _, fun _ h => by cases h⟩, rfl⟩
  | @snoc v w cells c d _ hstep ih =>
      obtain ⟨⟨hhead, hsteps, hclear⟩, hcost⟩ := ih
      obtain ⟨hneigh, hfree, rfl⟩ := stepTo_iff.mp hstep
      rw [List.reverse_cons] at hhead hsteps hclear hcost
      rw [List.reverse_cons, List.reverse_cons]
      refine ⟨⟨?_, ?_, ?_⟩, by rw [routeCost_append, hcost]⟩
      · rw [List.head?_append, hhead]
        rfl
      · refine hsteps.append (.singleton w) (fun x hx y hy => ?_)
        rw [List.getLast?_concat, Option.mem_def, Option.some.injEq] at hx
        rw [List.head?_singleton, Option.mem_def, Option.some.injEq] at hy
        exact hx ▸ hy ▸ hneigh
      · intro x hx
        rw [List.tail_append_of_ne_nil (by simp)] at hx
        rcases List.mem_append.mp hx with hx | hx
        · exact hclear x hx
        · exact List.mem_singleton.mp hx ▸ hfree

theorem Route.walk {cells : List Cell} {v : Cell} (h : Route m bsize start stop (cells ++ [v])) :
    Walk (StepTo m bsize stop) start v (routeCost (cells ++ [v])) := by
  induction cells using List.reverseRecOn generalizing v with
  | nil =>
      have hv : v = start := by simpa using h.head
      subst hv
      exact .nil
  | append_singleton cells u ih =>
      obtain ⟨hhead, hsteps, hclear⟩ := h
      have hneigh : Neighbour u v := by
        rw [List.append_assoc] at hsteps
        exact List.isChain_pair.mp hsteps.right_of_append
      rw [List.tail_append_of_ne_nil (by simp)] at hclear
      have hprefix : Route m bsize start stop (cells ++ [u]) := by
        refine ⟨?_, hsteps.left_of_append, fun c hc => hclear c (List.mem_append_left _ hc)⟩
        rw [List.head?_append] at hhead
        cases hcells : (cells ++ [u]).head? with
        | none => simp at hcells
        | some a => simpa [hcells] using hhead
      rw [routeCost_append]
      exact .snoc (ih hprefix) (stepTo_iff.mpr
        ⟨hneigh, hclear v (List.mem_append_right _ (List.mem_singleton_self v)), rfl⟩)

/-! ## The claims of the path search -/

/-- What `lpath` returns, in terms of what the search left. -/
theorem Outcome.positions {ctx : Context} {node : ℕ}
    (h : Outcome m bsize start stop ctx node opens closeds nodes) :
    ∃ (pn : Node) (n : ℕ) (pos : List Cell), nodes[node]? = some pn ∧
      countPath ctx.P (ctx.P.depth + 1) node 1 = some n ∧
      positions ctx.P n node = some pos ∧ pos.head? = some pn.cell ∧ pos.Nodup ∧
      Trail (StepTo m bsize stop) start pos pn.gscore := by
  have hmem : node ∈ opens ++ closeds := by
    rcases h.result with ⟨hnode, -⟩ | ⟨hnode, -⟩
    · exact List.mem_append_left _ hnode
    · exact List.mem_append_right _ hnode
  have hlt := h.lt node hmem
  have hpn : nodes[node]? = some nodes[node] := List.getElem?_eq_getElem hlt
  obtain ⟨l, hchain, hnd, hsub⟩ := h.sound.exists_chain hpn
  have hlen : l.length ≤ nodes.length := by
    have hrange : l ⊆ List.range nodes.length := fun j hj =>
      List.mem_range.mpr (h.lt j (hsub j hj))
    simpa using (List.subperm_of_subset hnd hrange).length_le
  have hle := h.le_depth
  refine ⟨_, l.length, l.map (cellOf nodes), hpn, ?_, positions_spec h.getNode hchain, ?_, ?_,
    h.sound.trail hchain hpn⟩
  · have hrounds : l.length ≤ ctx.P.depth + 1 := by omega
    simpa using countPath_spec (n := 0) h.getNode hchain hrounds
  · obtain ⟨l', rfl⟩ := hchain.head
    rw [List.map_cons, List.head?_cons, cellOf_eq hpn]
  · refine hnd.map_on (fun a ha b hb hab => ?_)
    have hla := List.getElem?_eq_getElem (h.lt a (hsub a ha))
    have hlb := List.getElem?_eq_getElem (h.lt b (hsub b hb))
    rw [cellOf_eq hla, cellOf_eq hlb] at hab
    exact h.sound.distinct a b _ _ hla hlb hab

theorem lpath_eq {depth : ℕ} (hstart : m.Inside start.1 start.2) (hstop : m.Inside stop.1 stop.2)
    {ctx : Context} {node n : ℕ} {pos : List Cell}
    (hrun : path_finding m depth start.1 start.2 stop.1 stop.2 bsize = some (ctx, node))
    (hcount : countPath ctx.P (depth + 1) node 1 = some n)
    (hpos : positions ctx.P n node = some pos) :
    lpath m start.1 start.2 stop.1 stop.2 bsize depth = .ok (some pos.reverse) := by
  simp only [lpath, check_position, if_pos hstart, if_pos hstop, hrun, hcount, hpos,
    Option.bind_eq_bind, Option.bind_some]
  rfl

theorem map_get_outside {x y : ℤ} (h : ¬ m.Inside x y) : map_get m x y = BLOCK_WEIGHT := by
  rw [map_get, dif_neg h]

/-- `lpath` ends with a route from the start that repeats no cell and stays on the map. -/
theorem lpath_route (m : Map) (start stop : Cell) (bsize : ℤ) (depth : ℕ) (hbsize : 0 ≤ bsize)
    (hdepth : 1 ≤ depth) (hstart : m.Inside start.1 start.2) (hstop : m.Inside stop.1 stop.2) :
    ∃ cells, lpath m start.1 start.2 stop.1 stop.2 bsize depth = .ok (some cells) ∧
      Route m bsize start stop cells ∧ cells.Nodup ∧ ∀ c ∈ cells, m.Inside c.1 c.2 := by
  obtain ⟨ctx, node, opens, closeds, nodes, hrun, hd, hout⟩ :=
    path_finding_spec m bsize start stop hdepth
  obtain ⟨pn, n, pos, -, hcount, hpos, -, hnd, htrail⟩ := hout.positions
  have hroute := (trail_route htrail).1
  refine ⟨pos.reverse, lpath_eq hstart hstop hrun (hd ▸ hcount) hpos, hroute,
    List.nodup_reverse.mpr hnd, fun c hc => ?_⟩
  have hcells : pos.reverse = start :: pos.reverse.tail := by
    cases hp : pos.reverse with
    | nil => simpa [hp] using hroute.head
    | cons a rest =>
        have ha : a = start := by simpa [hp] using hroute.head
        rw [ha, List.tail_cons]
  rw [hcells] at hc
  rcases List.mem_cons.mp hc with rfl | hc
  · exact hstart
  · -- the cell itself is part of its footprint
    by_contra hout'
    rcases hroute.clear c hc 0 0 (by omega) hbsize (by omega) hbsize with hzero | heq
    · rw [add_zero, add_zero, map_get_outside hout'] at hzero
      cases hzero
    · rw [add_zero, add_zero] at heq
      have hc' : c = stop := heq
      exact hout' (hc' ▸ hstop)

theorem lpath_route_two_cells :
    ∃ cells, lpath ⟨2, 1, #v[0, 0]⟩ 0 0 1 0 0 SEARCH_DEPTH = .ok (some cells) ∧
      Route ⟨2, 1, #v[0, 0]⟩ 0 (0, 0) (1, 0) cells ∧ cells.Nodup ∧
      ∀ c ∈ cells, Map.Inside ⟨2, 1, #v[0, 0]⟩ c.1 c.2 :=
  lpath_route ⟨2, 1, #v[0, 0]⟩ (0, 0) (1, 0) 0 SEARCH_DEPTH (by decide) (by decide) (by decide)
    (by decide)

/-- The search ends with a node. When `add_open` never failed on the way, it ends at the end cell
exactly when a route leads there, and then `lpath` returns a cheapest one. -/
theorem path_finding_optimal (m : Map) (start stop : Cell) (bsize : ℤ) (depth : ℕ)
    (hdepth : 1 ≤ depth) (hstart : m.Inside start.1 start.2) (hstop : m.Inside stop.1 stop.2) :
    ∃ ctx node, path_finding m depth start.1 start.2 stop.1 stop.2 bsize = some (ctx, node) ∧
      (ctx.starved = false →
        ((∃ pn, ctx.P.getNode node = some pn ∧ (pn.x, pn.y) = stop) ↔
          ∃ cells, Route m bsize start stop cells ∧ cells.getLast? = some stop) ∧
        ((∃ pn, ctx.P.getNode node = some pn ∧ (pn.x, pn.y) = stop) →
          ∃ cells, lpath m start.1 start.2 stop.1 stop.2 bsize depth = .ok (some cells) ∧
            Route m bsize start stop cells ∧ cells.getLast? = some stop ∧
            ∀ other, Route m bsize start stop other → other.getLast? = some stop →
              routeCost cells ≤ routeCost other)) := by
  obtain ⟨ctx, node, opens, closeds, nodes, hrun, hd, hout⟩ :=
    path_finding_spec m bsize start stop hdepth
  refine ⟨ctx, node, hrun, fun hfed => ?_⟩
  obtain ⟨pn, n, pos, hpn, hcount, hpos, hhead, -, htrail⟩ := hout.positions
  have hnode := hout.getNode node pn hpn
  have hlast : pos.reverse.getLast? = some pn.cell := by rw [List.getLast?_reverse, hhead]
  have hwalks : ∀ cells, Route m bsize start stop cells → cells.getLast? = some stop →
      Walk (StepTo m bsize stop) start stop (routeCost cells) := by
    intro cells hr hl
    obtain ⟨rest, rfl⟩ := List.getLast?_eq_some_iff.mp hl
    exact hr.walk
  have hends : (∃ pn, ctx.P.getNode node = some pn ∧ (pn.x, pn.y) = stop) → pn.cell = stop := by
    rintro ⟨pn', hpn', hcell⟩
    rw [hnode, Option.some.injEq] at hpn'
    exact hpn' ▸ hcell
  refine ⟨⟨fun h => ?_, ?_⟩, fun h => ?_⟩
  · exact ⟨pos.reverse, (trail_route htrail).1, hends h ▸ hlast⟩
  · rintro ⟨cells, hr, hl⟩
    rcases hout.result with ⟨-, pn', hpn', hcell, -⟩ | ⟨-, hno⟩
    · rw [hpn, Option.some.injEq] at hpn'
      exact ⟨pn, hnode, hpn' ▸ hcell⟩
    · exact absurd (hwalks cells hr hl) (hno hfed _)
  · refine ⟨pos.reverse, lpath_eq hstart hstop hrun (hd ▸ hcount) hpos, (trail_route htrail).1,
      hends h ▸ hlast, fun other hr hl => ?_⟩
    rw [(trail_route htrail).2]
    rcases hout.result with ⟨-, pn', hpn', -, hmin⟩ | ⟨-, hno⟩
    · rw [hpn, Option.some.injEq] at hpn'
      exact hpn' ▸ hmin hfed _ (hwalks other hr hl)
    · exact absurd (hwalks other hr hl) (hno hfed _)

theorem path_finding_optimal_two_cells :
    ∃ ctx node, path_finding ⟨2, 1, #v[0, 0]⟩ 2 0 0 1 0 0 = some (ctx, node) ∧
      ctx.starved = false ∧
      ((∃ pn, ctx.P.getNode node = some pn ∧ (pn.x, pn.y) = ((1, 0) : Cell)) ↔
        ∃ cells, Route ⟨2, 1, #v[0, 0]⟩ 0 (0, 0) (1, 0) cells ∧
          cells.getLast? = some (1, 0)) := by
  obtain ⟨ctx, node, hrun, hoptimal⟩ := path_finding_optimal ⟨2, 1, #v[0, 0]⟩ (0, 0) (1, 0) 0 2
    (by decide) (by decide) (by decide)
  have hfed : ctx.starved = false := by
    obtain ⟨rfl, -⟩ := Prod.mk.inj (Option.some.inj (hrun.symm.trans (by rfl)))
    rfl
  exact ⟨ctx, node, hrun, hfed, (hoptimal hfed).1⟩

end GameServer.Pathfinding
