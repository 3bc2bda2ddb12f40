import GameServer.PathRoute

/-!
# The node of a search that fails

The score of a path counts every step twice while the heuristic counts it once, so the score plus
heuristic grows strictly along every path from the start. The closed node of least `fscore` is the
start.
-/

namespace GameServer.Pathfinding

open BestFirst

variable {m : Map} {bsize : ℤ} {start stop : Cell} {ctx : Context}
variable {opens closeds : List ℕ} {nodes : List Node}

/-- The search has made a node for the cell. -/
def Visited (ctx : Context) (c : Cell) : Prop :=
  ∃ i < ctx.n, ∃ pn, ctx.P.getNode i = some pn ∧ pn.cell = c

def octile (stop c : Cell) : ℤ := distance c.1 c.2 stop.1 stop.2

/-- The node is visited, and no visited one is nearer to the end. -/
def NearestVisited (stop : Cell) (ctx : Context) (node : ℕ) : Prop :=
  ∃ pn, ctx.P.getNode node = some pn ∧ Visited ctx pn.cell ∧
    ∀ c, Visited ctx c → octile stop pn.cell ≤ octile stop c

theorem octile_lt_of_walk {v : Cell} {c : ℤ} (h : Walk (StepTo m bsize stop) start v c) :
    (v = start ∧ c = 0) ∨ octile stop start < c + octile stop v := by
  induction h with
  | nil => exact .inl ⟨rfl, rfl⟩
  | @snoc v w c d _ hstep ih =>
      have hlt : octile stop v < d + octile stop w := distance_lt_of_step hstep
      rcases ih with ⟨rfl, rfl⟩ | ih
      · exact .inr (by rwa [zero_add])
      · exact .inr (by omega)

theorem Sound.walk {i : ℕ} {pn : Node} (hs : Sound m bsize start stop opens closeds nodes)
    (hpn : nodes[i]? = some pn) : Walk (StepTo m bsize stop) start pn.cell pn.gscore := by
  obtain ⟨l, hchain, -, -⟩ := hs.exists_chain hpn
  have htrail := hs.trail hchain hpn
  obtain ⟨l', rfl⟩ := hchain.head
  rw [List.map_cons, cellOf_eq hpn] at htrail
  exact htrail.walk

theorem Sound.fscore_eq {i : ℕ} {pn : Node} (hs : Sound m bsize start stop opens closeds nodes)
    (hpn : nodes[i]? = some pn) : pn.fscore = pn.gscore + octile stop pn.cell :=
  hs.fscore i pn hpn

/-- The least `fscore` is that of the start. -/
theorem Sound.cell_eq_start {i : ℕ} {pn : Node} (hs : Sound m bsize start stop [] closeds nodes)
    (hpn : nodes[i]? = some pn)
    (hleast : ∀ v ∈ closeds, ∀ pn', nodes[v]? = some pn' → pn.fscore ≤ pn'.fscore) :
    pn.cell = start := by
  obtain ⟨j, ps, hps, hcell, hle⟩ := hs.begun
  have hleast := hleast j (hs.known j ps hps) ps hps
  rw [hs.fscore_eq hpn, hs.fscore_eq hps, hcell] at hleast
  rcases octile_lt_of_walk (hs.walk hpn) with ⟨heq, -⟩ | hlt
  · exact heq
  · omega

theorem visited_iff (h : Arena ctx opens closeds nodes) {c : Cell} :
    Visited ctx c ↔ ∃ (i : ℕ) (pn : Node), nodes[i]? = some pn ∧ pn.cell = c := by
  constructor
  · rintro ⟨i, hi, pn, hpn, hcell⟩
    have hlt : i < nodes.length := h.n ▸ hi
    have hnode := h.getNode (List.getElem?_eq_getElem hlt)
    rw [hpn, Option.some.injEq] at hnode
    exact ⟨i, pn, by rw [List.getElem?_eq_getElem hlt, hnode], hcell⟩
  · rintro ⟨i, pn, hpn, hcell⟩
    exact ⟨i, h.n ▸ (List.getElem?_eq_some_iff.mp hpn).1, pn, h.getNode hpn, hcell⟩

/-- A search that does not end at the end cell ends with nothing open. -/
theorem search_exhausted {rounds node : ℕ} {ctx' : Context}
    (hs : Scene m bsize start stop ctx opens closeds nodes (fun _ _ => False))
    (hne : opens ≠ [] ∨ closeds ≠ []) (hrun : search m bsize rounds ctx = some (ctx', node))
    (hmissed : ∀ pn, ctx'.P.getNode node = some pn → pn.cell ≠ stop) :
    ∃ closeds' nodes', Scene m bsize start stop ctx' [] closeds' nodes' (fun _ _ => False) ∧
      ∃ pn, nodes'[node]? = some pn ∧
        ∀ v ∈ closeds', ∀ pn', nodes'[v]? = some pn' → pn.fscore ≤ pn'.fscore := by
  induction rounds generalizing ctx opens closeds nodes with
  | zero => cases hrun
  | succ rounds ih =>
      by_cases hopen : opens = []
      · subst hopen
        obtain ⟨last, -, hlast, hleast⟩ := search_closed m bsize
          rounds hs.arena (hne.resolve_left fun h => h rfl)
        rw [hrun, Option.some.injEq, Prod.mk.injEq] at hlast
        obtain ⟨rfl, rfl⟩ := hlast
        exact ⟨closeds, nodes, hs, hleast⟩
      · obtain ⟨ctx₁, found, hfound, -, hout, pn, hpn, hcell⟩ | ⟨ctx₁, current, opens₁, nodes₁,
          hnext, -, hs₁⟩ := search_step hs hopen
        · rw [hfound, Option.some.injEq, Prod.mk.injEq] at hrun
          obtain ⟨rfl, rfl⟩ := hrun
          exact absurd hcell (hmissed pn (hout.getNode found pn hpn))
        · rw [hnext] at hrun
          exact ih hs₁ (.inr (by simp)) hrun

/-- What the search leaves that does not end at the end cell. -/
theorem path_finding_exhausted {depth node : ℕ}
    (hrun : path_finding m depth start.1 start.2 stop.1 stop.2 bsize = some (ctx, node))
    (hmissed : ∀ pn, ctx.P.getNode node = some pn → pn.cell ≠ stop) :
    ∃ closeds nodes, Scene m bsize start stop ctx [] closeds nodes (fun _ _ => False) ∧
      ∃ pn, nodes[node]? = some pn ∧ pn.cell = start := by
  have hdepth : 1 ≤ depth := by
    by_contra hzero
    obtain rfl : depth = 0 := by omega
    simp [path_finding, add_open, search, nearest, Path.getSet] at hrun
  obtain ⟨ctx₀, opens, nodes₀, hne, -, hstart, hscene⟩ :=
    path_finding_start m bsize start stop hdepth
  obtain ⟨closeds, nodes, hs, pn, hpn, hleast⟩ :=
    search_exhausted hscene (.inl hne) (hstart.symm.trans hrun) hmissed
  exact ⟨closeds, nodes, hs, pn, hpn, hs.sound.cell_eq_start hpn hleast⟩

/-- A search that misses the end cell returns the start. That is the visited cell nearest to the end
if and only if no visited one is nearer than the start; the visited ones are among those that steps
lead to, and all of them where `add_open` never failed. -/
theorem fallback_iff (m : Map) (start stop : Cell) (bsize : ℤ) (depth : ℕ) (ctx : Context)
    (node : ℕ)
    (hrun : path_finding m depth start.1 start.2 stop.1 stop.2 bsize = some (ctx, node))
    (hmissed : ∀ pn, ctx.P.getNode node = some pn → pn.cell ≠ stop) :
    (NearestVisited stop ctx node ↔ ∀ c, Visited ctx c → octile stop start ≤ octile stop c) ∧
      (ctx.starved = false → (NearestVisited stop ctx node ↔
        ∀ c cost, Walk (StepTo m bsize stop) start c cost →
          octile stop start ≤ octile stop c)) ∧
      ((∀ c cost, Walk (StepTo m bsize stop) start c cost → octile stop start ≤ octile stop c) →
        NearestVisited stop ctx node) := by
  obtain ⟨closeds, nodes, hs, pn, hpn, hcell⟩ := path_finding_exhausted hrun hmissed
  have hnode := hs.arena.getNode hpn
  have hiff : NearestVisited stop ctx node ↔
      ∀ c, Visited ctx c → octile stop start ≤ octile stop c := by
    constructor
    · rintro ⟨pn', hpn', -, hnearest⟩ c hc
      rw [hnode, Option.some.injEq] at hpn'
      rw [← hcell, hpn']
      exact hnearest c hc
    · intro h
      refine ⟨pn, hnode, (visited_iff hs.arena).mpr ⟨node, pn, hpn, rfl⟩, ?_⟩
      rw [hcell]
      exact h
  have hreached : ∀ c, Visited ctx c → ∃ cost, Walk (StepTo m bsize stop) start c cost := by
    intro c hc
    obtain ⟨i, pn, hpn, rfl⟩ := (visited_iff hs.arena).mp hc
    exact ⟨_, hs.sound.walk hpn⟩
  have hwalks : ctx.starved = false → ∀ c cost, Walk (StepTo m bsize stop) start c cost →
      Visited ctx c := by
    intro hfed c cost hwalk
    have hfront := (hs.exact hfed).frontier (fun _ _ h => h) hs.sound
    obtain ⟨a, i, -, pn, hpn, hcell, -⟩ :=
      hfront.exhausted (fun _ _ ⟨i, hi, _⟩ => List.not_mem_nil hi) hwalk
    exact (visited_iff hs.arena).mpr ⟨i, pn, hpn, hcell⟩
  have henough : (∀ c cost, Walk (StepTo m bsize stop) start c cost →
      octile stop start ≤ octile stop c) → NearestVisited stop ctx node := by
    intro h
    refine hiff.mpr fun c hc => ?_
    obtain ⟨cost, hwalk⟩ := hreached c hc
    exact h c cost hwalk
  refine ⟨hiff, fun hfed => ⟨fun h c cost hwalk => ?_, henough⟩, henough⟩
  exact hiff.mp h c (hwalks hfed c cost hwalk)

/-- Four cells in a row, the third of them a wall. -/
def corridor : Map := ⟨4, 1, #v[0, 0, 255, 0]⟩

theorem fallback_iff_corridor : ∃ ctx node, path_finding corridor 4 0 0 3 0 0 = some (ctx, node) ∧
    (NearestVisited (3, 0) ctx node ↔
      ∀ c, Visited ctx c → octile (3, 0) (0, 0) ≤ octile (3, 0) c) :=
  ⟨_, _, rfl, (fallback_iff corridor (0, 0) (3, 0) 0 4 _ _ rfl (by
    intro pn hpn
    cases hpn
    decide)).1⟩

/-- The cell next to the start is visited and nearer, and the start is returned. -/
theorem fallback_start : ∃ ctx node, path_finding corridor 4 0 0 3 0 0 = some (ctx, node) ∧
    (∃ pn, ctx.P.getNode node = some pn ∧ pn.cell = (0, 0)) ∧ Visited ctx (1, 0) ∧
    ¬ NearestVisited (3, 0) ctx node := by
  refine ⟨_, _, rfl, ⟨_, rfl, rfl⟩, ⟨1, by decide, _, rfl, rfl⟩, ?_⟩
  rintro ⟨pn, hpn, -, hnearest⟩
  cases hpn
  have hle := hnearest (1, 0) ⟨1, by decide, _, rfl, rfl⟩
  exact absurd hle (by decide)

end GameServer.Pathfinding
