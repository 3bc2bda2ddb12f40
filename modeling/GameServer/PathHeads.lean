import GameServer.PathSearch
import Mathlib.Order.CompletePartialOrder

/-!
# The heads of the search loop

At every head of the `while` loop each node is open or closed. The open part of `set` grows from its
lower end and the closed part from its upper end; together they hold every index once, and there are
no more nodes than `depth`, so the two parts do not meet.
-/

namespace GameServer.Pathfinding

section Heads

variable (m : Map) (start stop : Cell) (bsize : ℤ) (depth : ℕ)

/-- The context before the start is added. -/
def fresh : Context := { P := { depth }, end_x := stop.1, end_y := stop.2 }

/-- The contexts at the heads of the loop. -/
inductive Head : Context → Prop
  | first {ctx : Context} {i : Option ℕ} :
      add_open (fresh stop depth) start.1 start.2 (-1) 0 = some (ctx, i) → Head ctx
  | next {ctx ctx' : Context} : Head ctx → turn m bsize ctx = some (.inl ctx') → Head ctx'

end Heads

/-- The positions of `set` in the open and in the closed part. -/
def Context.used (ctx : Context) : Set ℕ :=
  Set.Iio ctx.opened ∪ Set.Ico (ctx.P.depth - ctx.closed) ctx.P.depth

/-- The two parts of `set` share out the nodes, which have different cells. -/
structure Shared (depth : ℕ) (ctx : Context) : Prop where
  depth_eq : ctx.P.depth = depth
  room : ctx.opened + ctx.closed ≤ ctx.n
  le_depth : ctx.n ≤ depth
  apart : Disjoint (Set.Iio ctx.opened) (Set.Ico (ctx.P.depth - ctx.closed) ctx.P.depth)
  indices : Set.BijOn ctx.P.set ctx.used (some '' Set.Iio ctx.n)
  written : ∀ i < ctx.n, (ctx.P.n i).isSome
  cells : Set.InjOn (fun i => (ctx.P.n i).map Node.cell) (Set.Iio ctx.n)

variable {m : Map} {start stop : Cell} {bsize : ℤ} {depth : ℕ} {ctx : Context}
variable {opens closeds : List ℕ} {nodes : List Node}

theorem Arena.mem_used (h : Arena ctx opens closeds nodes) {i : ℕ} (hi : i ∈ ctx.used) :
    (∃ v ∈ opens, opens[i]? = some v ∧ ctx.P.set i = some v) ∨
      ∃ v ∈ closeds, closeds[ctx.P.depth - 1 - i]? = some v ∧ i < ctx.P.depth ∧
        ctx.P.set i = some v := by
  rcases hi with hi | ⟨hlo, hhi⟩
  · have hlt : i < opens.length := h.opened ▸ hi
    have hv := List.getElem?_eq_getElem hlt
    exact Or.inl ⟨_, List.getElem_mem hlt, hv, h.set_open i _ hv⟩
  · have hlt : ctx.P.depth - 1 - i < closeds.length := by
      rw [h.closed] at hlo
      omega
    have hv := List.getElem?_eq_getElem hlt
    have hset := h.set_closed _ _ hv
    have hback : ctx.P.depth - 1 - (ctx.P.depth - 1 - i) = i := by omega
    rw [hback] at hset
    exact Or.inr ⟨_, List.getElem_mem hlt, hv, hhi, hset⟩

theorem Arena.used_open (h : Arena ctx opens closeds nodes) {i v : ℕ} (hv : opens[i]? = some v) :
    i ∈ ctx.used ∧ ctx.P.set i = some v := by
  have hlt : i < ctx.opened := h.opened ▸ (List.getElem?_eq_some_iff.mp hv).1
  exact ⟨Or.inl hlt, h.set_open i v hv⟩

theorem Arena.used_closed (h : Arena ctx opens closeds nodes) {i v : ℕ}
    (hv : closeds[i]? = some v) :
    ctx.P.depth - 1 - i ∈ ctx.used ∧ ctx.P.set (ctx.P.depth - 1 - i) = some v := by
  have hlt : i < ctx.closed := h.closed ▸ (List.getElem?_eq_some_iff.mp hv).1
  have hlen := h.length_le
  have hd := h.le_depth
  rw [← h.closed] at hlen
  exact ⟨Or.inr ⟨by omega, by omega⟩, h.set_closed i v hv⟩

/-- The used positions hold the indices of the nodes, each of them once. -/
theorem Arena.bijOn (h : Arena ctx opens closeds nodes)
    (hknown : ∀ i < nodes.length, i ∈ opens ++ closeds) :
    Set.BijOn ctx.P.set ctx.used (some '' Set.Iio ctx.n) := by
  have hnodup := List.nodup_append.mp h.nodup
  refine ⟨fun i hi => ?_, fun i hi j hj heq => ?_, ?_⟩
  · rw [h.n]
    rcases h.mem_used hi with ⟨v, hv, -, hset⟩ | ⟨v, hv, -, -, hset⟩
    · exact ⟨v, h.lt v (List.mem_append_left _ hv), hset.symm⟩
    · exact ⟨v, h.lt v (List.mem_append_right _ hv), hset.symm⟩
  · rcases h.mem_used hi with ⟨v, hv, hiv, hset⟩ | ⟨v, hv, hiv, hid, hset⟩ <;>
      rcases h.mem_used hj with ⟨w, hw, hjw, hset'⟩ | ⟨w, hw, hjw, hjd, hset'⟩ <;>
      obtain rfl : v = w := Option.some.inj (hset.symm.trans (heq.trans hset'))
    · exact (List.getElem?_inj (List.getElem?_eq_some_iff.mp hiv).1 hnodup.1).mp
        (hiv.trans hjw.symm)
    · exact absurd rfl (hnodup.2.2 v hv v hw)
    · exact absurd rfl (hnodup.2.2 v hw v hv)
    · have hpos := (List.getElem?_inj (List.getElem?_eq_some_iff.mp hiv).1 hnodup.2.1).mp
        (hiv.trans hjw.symm)
      omega
  · rintro - ⟨v, hv, rfl⟩
    rw [h.n] at hv
    rcases List.mem_append.mp (hknown v hv) with hmem | hmem
    · obtain ⟨i, hi⟩ := List.mem_iff_getElem?.mp hmem
      exact ⟨i, h.used_open hi⟩
    · obtain ⟨i, hi⟩ := List.mem_iff_getElem?.mp hmem
      exact ⟨_, h.used_closed hi⟩

theorem Scene.shared {pend : ℕ → Off → Prop}
    (h : Scene m bsize start stop ctx opens closeds nodes pend) : Shared ctx.P.depth ctx := by
  obtain ⟨harena, hsound, -, -⟩ := h
  have hlen := harena.length_le
  have hdepth := harena.le_depth
  have hnode : ∀ i < ctx.n, ∃ pn, nodes[i]? = some pn ∧ ctx.P.n i = some pn := by
    intro i hi
    have hpn := List.getElem?_eq_getElem (harena.n ▸ hi)
    exact ⟨_, hpn, harena.node i _ hpn⟩
  refine ⟨rfl, ?_, harena.n ▸ hdepth, ?_, harena.bijOn fun i hi => ?_, fun i hi => ?_,
    fun i hi j hj heq => ?_⟩
  · rw [harena.opened, harena.closed, harena.n]
    exact hlen
  · rw [Set.disjoint_left, harena.opened, harena.closed]
    rintro i hi ⟨hlo, -⟩
    rw [Set.mem_Iio] at hi
    omega
  · exact hsound.known i _ (List.getElem?_eq_getElem hi)
  · obtain ⟨pn, -, hpn⟩ := hnode i hi
    rw [hpn]
    rfl
  · obtain ⟨a, ha, hset⟩ := hnode i hi
    obtain ⟨b, hb, hset'⟩ := hnode j hj
    dsimp only at heq
    rw [hset, hset', Option.map_some, Option.map_some] at heq
    exact hsound.distinct i j a b ha hb (Option.some.inj heq)

/-- From a scene with something open or closed the code goes on without a bad access. -/
theorem Scene.turn (h : Scene m bsize start stop ctx opens closeds nodes (fun _ _ => False))
    (hne : opens ≠ [] ∨ closeds ≠ []) :
    ∃ r, Pathfinding.turn m bsize ctx = some r ∧ ∀ ctx', r = .inl ctx' →
      ctx'.P.depth = ctx.P.depth ∧ ∃ opens' closeds' nodes', closeds' ≠ [] ∧
        Scene m bsize start stop ctx' opens' closeds' nodes' (fun _ _ => False) := by
  by_cases hopen : opens = []
  · subst hopen
    obtain ⟨node, -, hturn, -⟩ := turn_closed m bsize h.arena (hne.resolve_left fun h => h rfl)
    exact ⟨_, hturn, fun _ heq => by cases heq⟩
  · rcases turn_step h hopen with
      ⟨ctx', node, hturn, -⟩ | ⟨ctx', current, opens', nodes', hturn, hq, hs⟩
    · exact ⟨_, hturn, fun _ heq => by cases heq⟩
    · refine ⟨_, hturn, fun _ heq => ?_⟩
      obtain rfl := Sum.inl.inj heq
      exact ⟨hq.depth, opens', _, nodes', by simp, hs⟩

theorem Head.scene (hdepth : 1 ≤ depth) (h : Head m start stop bsize depth ctx) :
    ctx.P.depth = depth ∧ ∃ opens closeds nodes, (opens ≠ [] ∨ closeds ≠ []) ∧
      Scene m bsize start stop ctx opens closeds nodes (fun _ _ => False) := by
  induction h with
  | first hadd =>
      obtain ⟨ctx₀, i, opens, nodes, hadd', hne, hd, hs⟩ :=
        add_open_start m bsize start stop hdepth
      rw [fresh, hadd', Option.some.injEq, Prod.mk.injEq] at hadd
      obtain ⟨rfl, -⟩ := hadd
      exact ⟨hd, opens, [], nodes, Or.inl hne, hs⟩
  | next _ hturn ih =>
      obtain ⟨hd, opens, closeds, nodes, hne, hs⟩ := ih
      obtain ⟨r, hr, hnext⟩ := hs.turn hne
      obtain ⟨hd', opens', closeds', nodes', hne', hs'⟩ :=
        hnext _ (Option.some.inj (hr.symm.trans hturn))
      exact ⟨hd'.trans hd, opens', closeds', nodes', Or.inr hne', hs'⟩

/-- At every head of the loop the open and the closed part share out the nodes, and neither the code
that leads there nor the code from there on makes an access that it must not. -/
theorem heads_shared (m : Map) (start stop : Cell) (bsize : ℤ) (depth : ℕ) (hdepth : 1 ≤ depth) :
    (add_open (fresh stop depth) start.1 start.2 (-1) 0).isSome ∧
      (∀ ctx, Head m start stop bsize depth ctx →
        Shared depth ctx ∧ (turn m bsize ctx).isSome) ∧
      (path_finding m depth start.1 start.2 stop.1 stop.2 bsize).isSome := by
  obtain ⟨_, _, _, _, hadd, -⟩ := add_open_start m bsize start stop hdepth
  obtain ⟨_, _, _, _, _, hrun, -⟩ := path_finding_spec m bsize start stop hdepth
  refine ⟨Option.isSome_of_eq_some hadd, fun ctx hhead => ?_, Option.isSome_of_eq_some hrun⟩
  obtain ⟨rfl, opens, closeds, nodes, hne, hs⟩ := hhead.scene hdepth
  obtain ⟨r, hr, -⟩ := hs.turn hne
  exact ⟨hs.shared, Option.isSome_of_eq_some hr⟩

theorem heads_shared_one :
    (add_open (fresh (3, 0) 1) 0 0 (-1) 0).isSome ∧
      (∀ ctx, Head ⟨4, 1, Vector.replicate 4 0⟩ (0, 0) (3, 0) 0 1 ctx →
        Shared 1 ctx ∧ (turn ⟨4, 1, Vector.replicate 4 0⟩ 0 ctx).isSome) ∧
      (path_finding ⟨4, 1, Vector.replicate 4 0⟩ 1 0 0 3 0 0).isSome :=
  heads_shared ⟨4, 1, Vector.replicate 4 0⟩ (0, 0) (3, 0) 0 1 (by decide)

end GameServer.Pathfinding
