import Mathlib.Tactic
import GameServer.Pathfinding

/-!
# The two arrays as lists

`Arena` relates the context to the list of open indices, the list of closed indices in the order
of closing, and the list of nodes. Each helper of `path_finding` keeps the relation, makes no access
outside the arrays or to an entry that was not written, and acts on the lists as its name says.
-/

namespace GameServer.Pathfinding

structure Arena (ctx : Context) (opens closeds : List ℕ) (nodes : List Node) : Prop where
  opened : ctx.opened = opens.length
  closed : ctx.closed = closeds.length
  n : ctx.n = nodes.length
  le_depth : nodes.length ≤ ctx.P.depth
  set_open : ∀ i v, opens[i]? = some v → ctx.P.set i = some v
  set_closed : ∀ i v, closeds[i]? = some v → ctx.P.set (ctx.P.depth - 1 - i) = some v
  node : ∀ i pn, nodes[i]? = some pn → ctx.P.n i = some pn
  nodup : (opens ++ closeds).Nodup
  lt : ∀ i ∈ opens ++ closeds, i < nodes.length

/-- The parts of the context that a helper leaves alone. -/
structure SameQuery (ctx ctx' : Context) : Prop where
  end_x : ctx'.end_x = ctx.end_x
  end_y : ctx'.end_y = ctx.end_y
  depth : ctx'.P.depth = ctx.P.depth

theorem SameQuery.rfl' (ctx : Context) : SameQuery ctx ctx := ⟨rfl, rfl, rfl⟩

theorem SameQuery.trans {a b c : Context} (h : SameQuery a b) (h' : SameQuery b c) :
    SameQuery a c :=
  ⟨h'.end_x.trans h.end_x, h'.end_y.trans h.end_y, h'.depth.trans h.depth⟩

variable {ctx : Context} {opens closeds : List ℕ} {nodes : List Node}

namespace Arena

theorem length_le (h : Arena ctx opens closeds nodes) :
    opens.length + closeds.length ≤ nodes.length := by
  have hsub : opens ++ closeds ⊆ List.range nodes.length := fun i hi =>
    List.mem_range.mpr (h.lt i hi)
  simpa using (List.subperm_of_subset h.nodup hsub).length_le

theorem getNode (h : Arena ctx opens closeds nodes) {i : ℕ} {pn : Node}
    (hi : nodes[i]? = some pn) : ctx.P.getNode i = some pn := by
  have hlt := (List.getElem?_eq_some_iff.mp hi).1
  have hd := h.le_depth
  rw [Path.getNode, if_pos (by omega), h.node i pn hi]

theorem exists_node (h : Arena ctx opens closeds nodes) {i : ℕ} (hi : i ∈ opens ++ closeds) :
    ∃ pn, nodes[i]? = some pn := by
  have hlt := h.lt i hi
  exact ⟨nodes[i], List.getElem?_eq_getElem hlt⟩

theorem getSet_open (h : Arena ctx opens closeds nodes) {i v : ℕ} (hi : opens[i]? = some v) :
    ctx.P.getSet i = some v := by
  have hlt := (List.getElem?_eq_some_iff.mp hi).1
  have hl := h.length_le
  have hd := h.le_depth
  rw [Path.getSet, if_pos (by omega), h.set_open i v hi]

theorem top_closed (h : Arena ctx opens closeds nodes) {i : ℕ} (hi : i < closeds.length) :
    ctx.P.top i = some (ctx.P.depth - 1 - i) := by
  have hl := h.length_le
  have hd := h.le_depth
  rw [Path.top, if_pos (by omega)]

theorem getSet_closed (h : Arena ctx opens closeds nodes) {i v : ℕ} (hi : closeds[i]? = some v) :
    ctx.P.getSet (ctx.P.depth - 1 - i) = some v := by
  have hlt := (List.getElem?_eq_some_iff.mp hi).1
  have hl := h.length_le
  have hd := h.le_depth
  rw [Path.getSet, if_pos (by omega), h.set_closed i v hi]

end Arena

/-! ## The lowest score -/

/-- The best of the first `hi` open nodes: its position, its index and its score. -/
def Lowest (opens : List ℕ) (nodes : List Node) (best : ℕ × ℕ × ℤ) (hi : ℕ) : Prop :=
  opens[best.1]? = some best.2.1 ∧
    (∃ pn, nodes[best.2.1]? = some pn ∧ pn.fscore = best.2.2) ∧
    ∀ j < hi, ∀ v pn, opens[j]? = some v → nodes[v]? = some pn → best.2.2 ≤ pn.fscore

theorem lower_spec (h : Arena ctx opens closeds nodes) {best : ℕ × ℕ × ℤ} {hi : ℕ}
    (hb : Lowest opens nodes best hi) (hlt : hi < opens.length) :
    ∃ best', lower ctx.P best hi = some best' ∧ Lowest opens nodes best' (hi + 1) := by
  obtain ⟨v, hv⟩ : ∃ v, opens[hi]? = some v := ⟨_, List.getElem?_eq_getElem hlt⟩
  obtain ⟨pn, hpn⟩ := h.exists_node (List.mem_append_left _ (List.mem_of_getElem? hv))
  have hrun : lower ctx.P best hi =
      if pn.fscore < best.2.2 then some (hi, v, pn.fscore) else some best := by
    rw [lower, h.getSet_open hv, Option.bind_eq_bind, Option.bind_some, h.getNode hpn]
    rfl
  obtain ⟨hpos, hnode, hmin⟩ := hb
  rw [hrun]
  split_ifs with hlow
  · refine ⟨_, rfl, hv, ⟨pn, hpn, rfl⟩, fun j hj w pn' hw hpn' => ?_⟩
    rcases Nat.lt_or_eq_of_le (Nat.lt_succ_iff.mp hj) with hj | rfl
    · exact hlow.le.trans (hmin j hj w pn' hw hpn')
    · rw [hv, Option.some.injEq] at hw
      subst hw
      rw [hpn, Option.some.injEq] at hpn'
      rw [hpn']
  · refine ⟨_, rfl, hpos, hnode, fun j hj w pn' hw hpn' => ?_⟩
    rcases Nat.lt_or_eq_of_le (Nat.lt_succ_iff.mp hj) with hj | rfl
    · exact hmin j hj w pn' hw hpn'
    · rw [hv, Option.some.injEq] at hw
      subst hw
      rw [hpn, Option.some.injEq] at hpn'
      subst hpn'
      exact not_lt.mp hlow

theorem lower_loop (h : Arena ctx opens closeds nodes) (k : ℕ) {best : ℕ × ℕ × ℤ} {hi : ℕ}
    (hb : Lowest opens nodes best hi) (hk : hi + k = opens.length) :
    ∃ best', (List.range' hi k).foldlM (lower ctx.P) best = some best' ∧
      Lowest opens nodes best' opens.length := by
  induction k generalizing best hi with
  | zero =>
      have heq : hi = opens.length := by omega
      exact ⟨best, rfl, heq ▸ hb⟩
  | succ k ih =>
      obtain ⟨best', hrun, hb'⟩ := lower_spec h hb (by omega)
      obtain ⟨best'', hrest, hb''⟩ := ih hb' (by omega)
      refine ⟨best'', ?_, hb''⟩
      rw [List.range'_succ, List.foldlM_cons, hrun]
      exact hrest

/-- The last entry moves to the place of the entry removed. -/
def swapRemove (l : List ℕ) (idx last : ℕ) : List ℕ :=
  if idx ≠ l.length - 1 then l.dropLast.set idx last else l.dropLast

theorem swapRemove_perm {l : List ℕ} {idx v last : ℕ} (hidx : l[idx]? = some v)
    (hlast : l[l.length - 1]? = some last) : l.Perm (v :: swapRemove l idx last) := by
  obtain ⟨hlt, hv⟩ := List.getElem?_eq_some_iff.mp hidx
  have hne : l ≠ [] := List.ne_nil_of_length_pos (by omega)
  have hl : l.dropLast ++ [last] = l := by
    have hg : l.getLast hne = last := by
      rw [List.getLast_eq_getElem, ← Option.some.injEq, ← hlast, List.getElem?_eq_getElem]
    rw [← hg]
    exact List.dropLast_append_getLast hne
  have hsnoc : l.Perm (last :: l.dropLast) := by
    conv_lhs => rw [← hl]
    exact List.perm_append_comm
  rw [swapRemove]
  split_ifs with hcase
  · have hlen : idx < l.dropLast.length := by
      rw [List.length_dropLast]
      omega
    have hd : l.dropLast[idx] = v := by
      rw [List.getElem_dropLast]
      exact hv
    have hset : l.dropLast.Perm (v :: l.dropLast.eraseIdx idx) :=
      hd ▸ (List.getElem_cons_eraseIdx_perm hlen).symm
    have hset' : (l.dropLast.set idx last).Perm (last :: l.dropLast.eraseIdx idx) :=
      List.set_perm_cons_eraseIdx hlen last
    calc l.Perm (last :: l.dropLast) := hsnoc
      List.Perm _ (last :: v :: l.dropLast.eraseIdx idx) := hset.cons last
      List.Perm _ (v :: last :: l.dropLast.eraseIdx idx) := List.Perm.swap _ _ _
      List.Perm _ (v :: l.dropLast.set idx last) := hset'.symm.cons v
  · have hidx' : idx = l.length - 1 := not_not.mp hcase
    subst hidx'
    rw [hidx, Option.some.injEq] at hlast
    subst hlast
    exact hsnoc

theorem swapRemove_length (l : List ℕ) (idx last : ℕ) :
    (swapRemove l idx last).length = l.length - 1 := by
  rw [swapRemove]
  split_ifs <;> simp

theorem swapRemove_getElem? {l : List ℕ} {idx last i w : ℕ}
    (h : (swapRemove l idx last)[i]? = some w) :
    i < l.length - 1 ∧ (if idx ≠ l.length - 1 ∧ i = idx then w = last else l[i]? = some w) := by
  have hi := (List.getElem?_eq_some_iff.mp h).1
  rw [swapRemove_length] at hi
  refine ⟨hi, ?_⟩
  rw [swapRemove] at h
  have hdrop : l.dropLast[i]? = l[i]? := by
    rw [List.getElem?_dropLast, if_pos hi]
  by_cases hcase : idx ≠ l.length - 1
  · rw [if_pos hcase, List.getElem?_set] at h
    by_cases hii : idx = i
    · rw [if_pos hii, List.length_dropLast, if_pos (by omega), Option.some.injEq] at h
      rw [if_pos ⟨hcase, hii.symm⟩, h]
    · rw [if_neg hii, hdrop] at h
      rw [if_neg (fun hc => hii hc.2.symm), h]
  · rw [if_neg hcase, hdrop] at h
    rw [if_neg (fun hc => hcase hc.1), h]

theorem lowest_fscore_spec (h : Arena ctx opens closeds nodes) (hne : opens ≠ []) :
    ∃ ctx' current opens', lowest_fscore ctx = some (ctx', current) ∧
      Arena ctx' opens' closeds nodes ∧ opens.Perm (current :: opens') ∧
      SameQuery ctx ctx' ∧ ctx'.starved = ctx.starved ∧
      ∃ pn, nodes[current]? = some pn ∧
        ∀ v ∈ opens, ∀ pn', nodes[v]? = some pn' → pn.fscore ≤ pn'.fscore := by
  have hpos : 0 < opens.length := List.length_pos_iff.mpr hne
  have hfirst : opens[0]? = some opens[0] := List.getElem?_eq_getElem hpos
  obtain ⟨node, hnode⟩ := h.exists_node (List.mem_append_left _ (List.mem_of_getElem? hfirst))
  have hstart : Lowest opens nodes (0, opens[0], node.fscore) 1 := by
    refine ⟨hfirst, ⟨node, hnode, rfl⟩, fun j hj v pn hv hpn => ?_⟩
    obtain rfl : j = 0 := by omega
    rw [hfirst, Option.some.injEq] at hv
    subst hv
    rw [hnode, Option.some.injEq] at hpn
    rw [hpn]
  obtain ⟨⟨idx, current, score⟩, hloop, hidx, ⟨pn, hpn, hscore⟩, hmin⟩ :=
    lower_loop h (opens.length - 1) hstart (by omega)
  dsimp only at hidx hpn hscore hmin
  have hidxlt := (List.getElem?_eq_some_iff.mp hidx).1
  obtain ⟨last, hlast⟩ : ∃ last, opens[opens.length - 1]? = some last :=
    ⟨_, List.getElem?_eq_getElem (by omega)⟩
  have hperm := swapRemove_perm hidx hlast
  have hmem : (opens ++ closeds).Perm (current :: (swapRemove opens idx last ++ closeds)) :=
    hperm.append_right closeds
  have hnodup := (List.nodup_cons.mp (hmem.nodup_iff.mp h.nodup)).2
  have hlt : ∀ i ∈ swapRemove opens idx last ++ closeds, i < nodes.length := fun i hi =>
    h.lt i (hmem.mem_iff.mpr (List.mem_cons_of_mem _ hi))
  have hleast : ∃ pn, nodes[current]? = some pn ∧
      ∀ v ∈ opens, ∀ pn', nodes[v]? = some pn' → pn.fscore ≤ pn'.fscore := by
    refine ⟨pn, hpn, fun v hv pn' hpn' => ?_⟩
    obtain ⟨j, hj, hjv⟩ := List.mem_iff_getElem.mp hv
    rw [hscore]
    exact hmin j hj v pn' (by rw [List.getElem?_eq_getElem hj, hjv]) hpn'
  have hlen := h.length_le
  have hdepth := h.le_depth
  have hrun : lowest_fscore ctx =
      if idx ≠ opens.length - 1 then
        some ({ ctx with
          P := { ctx.P with set := Function.update ctx.P.set idx (some last) }
          opened := opens.length - 1 }, current)
      else some ({ ctx with opened := opens.length - 1 }, current) := by
    have hput : ctx.P.putSet idx last =
        some { ctx.P with set := Function.update ctx.P.set idx (some last) } := by
      rw [Path.putSet, if_pos (by omega)]
    simp only [lowest_fscore, h.getSet_open hfirst, h.getNode hnode, h.opened, hloop,
      h.getSet_open hlast, hput, Option.bind_eq_bind, Option.bind_some]
  rw [hrun]
  by_cases hcase : idx ≠ opens.length - 1
  · rw [if_pos hcase]
    refine ⟨_, current, swapRemove opens idx last, rfl, ?_, hperm, ⟨rfl, rfl, rfl⟩, rfl, hleast⟩
    refine ⟨(swapRemove_length _ _ _).symm, h.closed, h.n, h.le_depth, ?_, ?_, h.node, hnodup, hlt⟩
    · intro i w hw
      obtain ⟨hi, hw⟩ := swapRemove_getElem? hw
      dsimp only
      rw [Function.update_apply]
      by_cases hii : i = idx
      · rw [if_pos ⟨hcase, hii⟩] at hw
        rw [if_pos hii, hw]
      · rw [if_neg (fun hc => hii hc.2)] at hw
        rw [if_neg hii, h.set_open i w hw]
    · intro i w hw
      have hi := (List.getElem?_eq_some_iff.mp hw).1
      dsimp only
      -- the place freed lies below the closed part
      rw [Function.update_of_ne (by omega), h.set_closed i w hw]
  · rw [if_neg hcase]
    refine ⟨_, current, swapRemove opens idx last, rfl, ?_, hperm, ⟨rfl, rfl, rfl⟩, rfl, hleast⟩
    refine ⟨(swapRemove_length _ _ _).symm, h.closed, h.n, h.le_depth, ?_, h.set_closed, h.node,
      hnodup, hlt⟩
    intro i w hw
    obtain ⟨-, hw⟩ := swapRemove_getElem? hw
    rw [if_neg (fun hc => hcase hc.1)] at hw
    exact h.set_open i w hw

/-! ## The other helpers -/

theorem add_closed_spec (h : Arena ctx opens closeds nodes) {idx : ℕ}
    (hnew : idx ∉ opens ++ closeds) (hidx : idx < nodes.length) :
    ∃ ctx', add_closed ctx idx = some ctx' ∧ Arena ctx' opens (closeds ++ [idx]) nodes ∧
      SameQuery ctx ctx' ∧ ctx'.starved = ctx.starved := by
  have hperm : (opens ++ (closeds ++ [idx])).Perm (idx :: (opens ++ closeds)) := by
    rw [← List.append_assoc]
    exact List.perm_append_comm
  have hnodup : (opens ++ (closeds ++ [idx])).Nodup :=
    hperm.nodup_iff.mpr (List.nodup_cons.mpr ⟨hnew, h.nodup⟩)
  have hlt : ∀ i ∈ opens ++ (closeds ++ [idx]), i < nodes.length := by
    intro i hi
    rcases List.mem_cons.mp (hperm.mem_iff.mp hi) with rfl | hi
    · exact hidx
    · exact h.lt i hi
  have hroom : opens.length + (closeds.length + 1) ≤ nodes.length := by
    have hsub : opens ++ (closeds ++ [idx]) ⊆ List.range nodes.length := fun i hi =>
      List.mem_range.mpr (hlt i hi)
    simpa using (List.subperm_of_subset hnodup hsub).length_le
  have hdepth := h.le_depth
  have hrun : add_closed ctx idx = some { ctx with
      P := { ctx.P with
        set := Function.update ctx.P.set (ctx.P.depth - 1 - closeds.length) (some idx) }
      closed := closeds.length + 1 } := by
    have htop : ctx.P.top closeds.length = some (ctx.P.depth - 1 - closeds.length) := by
      rw [Path.top, if_pos (by omega)]
    have hput : ctx.P.putSet (ctx.P.depth - 1 - closeds.length) idx = some { ctx.P with
        set := Function.update ctx.P.set (ctx.P.depth - 1 - closeds.length) (some idx) } := by
      rw [Path.putSet, if_pos (by omega)]
    simp only [add_closed, h.closed, htop, hput, Option.bind_eq_bind, Option.bind_some]
  refine ⟨_, hrun, ⟨h.opened, by simp, h.n, h.le_depth, ?_, ?_, h.node, hnodup, hlt⟩,
    ⟨rfl, rfl, rfl⟩, rfl⟩
  · intro i v hv
    have hi := (List.getElem?_eq_some_iff.mp hv).1
    dsimp only
    rw [Function.update_of_ne (by omega), h.set_open i v hv]
  · intro i v hv
    dsimp only
    rcases Nat.lt_or_ge i closeds.length with hi | hi
    · rw [List.getElem?_append_left hi] at hv
      rw [Function.update_of_ne (by omega), h.set_closed i v hv]
    · have hlen := (List.getElem?_eq_some_iff.mp hv).1
      rw [List.length_append, List.length_singleton] at hlen
      obtain rfl : i = closeds.length := by omega
      have hv' : idx = v := by simpa using hv
      rw [Function.update_self, hv']

/-- Where every round gives a value, the loop finds what the pure search finds. -/
theorem findSomeM?_eq {α β : Type} {f : α → Option (Option β)} {g : α → Option β} {l : List α}
    (h : ∀ a ∈ l, f a = some (g a)) : l.findSomeM? f = some (l.findSome? g) := by
  induction l with
  | nil => rfl
  | cons a l ih =>
      have ha := h a List.mem_cons_self
      have hl := ih (fun b hb => h b (List.mem_cons_of_mem _ hb))
      rw [List.findSomeM?_cons, List.findSome?_cons, ha, Option.bind_eq_bind, Option.bind_some]
      cases g a with
      | none => exact hl
      | some b => rfl

/-- The index in `v` when its node has the given cell. -/
def cellAt (nodes : List Node) (x y : ℤ) (v : ℕ) : Option ℕ :=
  (nodes[v]?).bind (fun pn => if pn.x = x ∧ pn.y = y then some v else none)

theorem cellAt_eq_some {x y : ℤ} {v w : ℕ} :
    cellAt nodes x y v = some w ↔ v = w ∧ ∃ pn, nodes[v]? = some pn ∧ pn.x = x ∧ pn.y = y := by
  rw [cellAt, Option.bind_eq_some_iff]
  constructor
  · rintro ⟨pn, hpn, hif⟩
    split_ifs at hif with hc
    exact ⟨Option.some.inj hif, pn, hpn, hc⟩
  · rintro ⟨rfl, pn, hpn, hc⟩
    exact ⟨pn, hpn, if_pos hc⟩

theorem nodeAt_spec (h : Arena ctx opens closeds nodes) {i v : ℕ} (x y : ℤ)
    (hset : ctx.P.getSet i = some v) (hv : v ∈ opens ++ closeds) :
    nodeAt ctx.P x y i = some (cellAt nodes x y v) := by
  obtain ⟨pn, hpn⟩ := h.exists_node hv
  simp only [nodeAt, hset, h.getNode hpn, cellAt, hpn, Option.bind_eq_bind, Option.bind_some]

theorem in_closed_spec (h : Arena ctx opens closeds nodes) (x y : ℤ) :
    ∃ b, in_closed ctx x y = some b ∧
      (b = true ↔ ∃ v ∈ closeds, ∃ pn, nodes[v]? = some pn ∧ pn.x = x ∧ pn.y = y) := by
  have hround : ∀ i ∈ List.range ctx.closed,
      (do let i ← ctx.P.top i; nodeAt ctx.P x y i) =
        some ((closeds[i]?).bind (cellAt nodes x y)) := by
    intro i hi
    rw [List.mem_range, h.closed] at hi
    have hv : closeds[i]? = some closeds[i] := List.getElem?_eq_getElem hi
    rw [h.top_closed hi, hv, Option.bind_some]
    exact nodeAt_spec h x y (h.getSet_closed hv)
      (List.mem_append_right _ (List.getElem_mem hi))
  refine ⟨_, by rw [in_closed, findSomeM?_eq hround]; rfl, ?_⟩
  rw [List.findSome?_isSome_iff]
  constructor
  · rintro ⟨i, -, hsome⟩
    obtain ⟨w, hw⟩ := Option.isSome_iff_exists.mp hsome
    obtain ⟨v, hv, hcell⟩ := Option.bind_eq_some_iff.mp hw
    exact ⟨v, List.mem_of_getElem? hv, (cellAt_eq_some.mp hcell).2⟩
  · rintro ⟨v, hv, hpn⟩
    obtain ⟨i, hi, hiv⟩ := List.mem_iff_getElem.mp hv
    refine ⟨i, List.mem_range.mpr (h.closed ▸ hi), ?_⟩
    rw [List.getElem?_eq_getElem hi, hiv, Option.bind_some, cellAt_eq_some.mpr ⟨rfl, hpn⟩]
    rfl

theorem find_open_spec (h : Arena ctx opens closeds nodes) (x y : ℤ) :
    (∃ v ∈ opens, find_open ctx x y = some (some v) ∧
        ∃ pn, nodes[v]? = some pn ∧ pn.x = x ∧ pn.y = y) ∨
      (find_open ctx x y = some none ∧
        ∀ v ∈ opens, ∀ pn, nodes[v]? = some pn → ¬ (pn.x = x ∧ pn.y = y)) := by
  have hround : ∀ i ∈ List.range ctx.opened,
      nodeAt ctx.P x y i = some ((opens[i]?).bind (cellAt nodes x y)) := by
    intro i hi
    rw [List.mem_range, h.opened] at hi
    have hv : opens[i]? = some opens[i] := List.getElem?_eq_getElem hi
    rw [hv, Option.bind_some]
    exact nodeAt_spec h x y (h.getSet_open hv) (List.mem_append_left _ (List.getElem_mem hi))
  have hrun : find_open ctx x y = some ((List.range ctx.opened).findSome?
      fun i => (opens[i]?).bind (cellAt nodes x y)) := findSomeM?_eq hround
  rw [hrun]
  cases hfound : (List.range ctx.opened).findSome? fun i =>
      (opens[i]?).bind (cellAt nodes x y) with
  | some w =>
      obtain ⟨i, -, hi⟩ := List.exists_of_findSome?_eq_some hfound
      obtain ⟨v, hv, hcell⟩ := Option.bind_eq_some_iff.mp hi
      obtain ⟨rfl, hpn⟩ := cellAt_eq_some.mp hcell
      exact Or.inl ⟨v, List.mem_of_getElem? hv, rfl, hpn⟩
  | none =>
      refine Or.inr ⟨rfl, fun v hv pn hpn hc => ?_⟩
      obtain ⟨i, hi, hiv⟩ := List.mem_iff_getElem.mp hv
      have hno := List.findSome?_eq_none_iff.mp hfound i (List.mem_range.mpr (h.opened ▸ hi))
      rw [List.getElem?_eq_getElem hi, hiv, Option.bind_some,
        cellAt_eq_some.mpr ⟨rfl, pn, hpn, hc⟩] at hno
      cases hno

theorem add_open_full (h : Arena ctx opens closeds nodes) (hfull : nodes.length = ctx.P.depth)
    (x y camefrom gscore : ℤ) :
    add_open ctx x y camefrom gscore = some ({ ctx with starved := true }, none) := by
  rw [add_open, if_pos (by rw [h.n, hfull])]

theorem add_open_spec (h : Arena ctx opens closeds nodes) (hroom : nodes.length < ctx.P.depth)
    (x y camefrom gscore : ℤ) :
    ∃ ctx', add_open ctx x y camefrom gscore = some (ctx', some nodes.length) ∧
      Arena ctx' (opens ++ [nodes.length]) closeds (nodes ++
        [⟨x, y, camefrom, gscore, gscore + distance x y ctx.end_x ctx.end_y⟩]) ∧
      SameQuery ctx ctx' ∧ ctx'.starved = ctx.starved := by
  have hlen := h.length_le
  have hput : ctx.P.putSet opens.length nodes.length = some { ctx.P with
      set := Function.update ctx.P.set opens.length (some nodes.length) } := by
    rw [Path.putSet, if_pos (by omega)]
  have hrun : add_open ctx x y camefrom gscore = some ({ ctx with
      P := { ctx.P with
        set := Function.update ctx.P.set opens.length (some nodes.length)
        n := Function.update ctx.P.n nodes.length (some
          ⟨x, y, camefrom, gscore, gscore + distance x y ctx.end_x ctx.end_y⟩) }
      opened := opens.length + 1
      n := nodes.length + 1 }, some nodes.length) := by
    rw [add_open, if_neg (by rw [h.n]; omega)]
    simp only [h.opened, h.n, hput, Path.putNode, if_pos hroom, Option.bind_eq_bind,
      Option.bind_some]
  have hswap : (opens ++ [nodes.length]).Perm (nodes.length :: opens) := List.perm_append_comm
  have hperm : (opens ++ [nodes.length] ++ closeds).Perm (nodes.length :: (opens ++ closeds)) :=
    hswap.append_right closeds
  have hfresh : nodes.length ∉ opens ++ closeds := fun hmem => (h.lt _ hmem).false
  refine ⟨_, hrun, ⟨by simp, h.closed, by simp, ?_, ?_, ?_, ?_, ?_, ?_⟩, ⟨rfl, rfl, rfl⟩, rfl⟩
  · rw [List.length_append, List.length_singleton]
    exact hroom
  · intro i v hv
    dsimp only
    rcases Nat.lt_or_ge i opens.length with hi | hi
    · rw [List.getElem?_append_left hi] at hv
      rw [Function.update_of_ne (by omega), h.set_open i v hv]
    · have hl := (List.getElem?_eq_some_iff.mp hv).1
      rw [List.length_append, List.length_singleton] at hl
      obtain rfl : i = opens.length := by omega
      have hv' : nodes.length = v := by simpa using hv
      rw [Function.update_self, hv']
  · intro i v hv
    have hi := (List.getElem?_eq_some_iff.mp hv).1
    dsimp only
    rw [Function.update_of_ne (by omega), h.set_closed i v hv]
  · intro i pn hpn
    dsimp only
    rcases Nat.lt_or_ge i nodes.length with hi | hi
    · rw [List.getElem?_append_left hi] at hpn
      rw [Function.update_of_ne (by omega), h.node i pn hpn]
    · have hl := (List.getElem?_eq_some_iff.mp hpn).1
      rw [List.length_append, List.length_singleton] at hl
      obtain rfl : i = nodes.length := by omega
      rw [List.getElem?_concat_length] at hpn
      rw [Function.update_self, hpn]
  · exact hperm.nodup_iff.mpr (List.nodup_cons.mpr ⟨hfresh, h.nodup⟩)
  · intro i hi
    rw [List.length_append, List.length_singleton]
    rcases List.mem_cons.mp (hperm.mem_iff.mp hi) with rfl | hi
    · omega
    · have := h.lt i hi
      omega

theorem putNode_spec (h : Arena ctx opens closeds nodes) {i : ℕ} (hi : i < nodes.length)
    (pn : Node) :
    ∃ P, ctx.P.putNode i pn = some P ∧ Arena { ctx with P } opens closeds (nodes.set i pn) ∧
      P.depth = ctx.P.depth := by
  have hd := h.le_depth
  refine ⟨{ ctx.P with n := Function.update ctx.P.n i (some pn) },
    by rw [Path.putNode, if_pos (by omega)], ⟨h.opened, h.closed, ?_, ?_, h.set_open,
    h.set_closed, ?_, h.nodup, ?_⟩, rfl⟩
  · rw [List.length_set]
    exact h.n
  · rw [List.length_set]
    exact hd
  · intro j pn' hj
    rw [List.getElem?_set] at hj
    dsimp only
    rw [Function.update_apply]
    by_cases hji : i = j
    · rw [if_pos hji, if_pos (hji ▸ hi)] at hj
      rw [if_pos hji.symm, hj]
    · rw [if_neg hji] at hj
      rw [if_neg (Ne.symm hji), h.node j pn' hj]
  · intro j hj
    rw [List.length_set]
    exact h.lt j hj

/-! ## The nearest node -/

/-- The best of the positions from `lo` to `hi - 1`. -/
def Nearest (P : Path) (lo hi : ℕ) (best : ℕ × ℤ) : Prop :=
  (∃ j pn, lo ≤ j ∧ j < hi ∧ P.getSet j = some best.1 ∧ P.getNode best.1 = some pn ∧
    pn.fscore = best.2) ∧
  ∀ j, lo ≤ j → j < hi → ∀ v pn, P.getSet j = some v → P.getNode v = some pn →
    best.2 ≤ pn.fscore

theorem nearer_loop {P : Path} {lo hi : ℕ} (k : ℕ)
    (hall : ∀ j, lo ≤ j → j < hi + k → ∃ v pn, P.getSet j = some v ∧ P.getNode v = some pn)
    {best : ℕ × ℤ} (hb : Nearest P lo hi best) :
    ∃ best', (List.range' hi k).foldlM (nearer P) best = some best' ∧
      Nearest P lo (hi + k) best' := by
  induction k generalizing best hi with
  | zero => exact ⟨best, rfl, hb⟩
  | succ k ih =>
      obtain ⟨⟨j, pn, hlo, hjhi, hset, hnode, hscore⟩, hmin⟩ := hb
      obtain ⟨v, pv, hv, hpv⟩ := hall hi (by omega) (by omega)
      have hrun : nearer P best hi =
          if pv.fscore < best.2 then some (v, pv.fscore) else some best := by
        rw [nearer, hv, Option.bind_eq_bind, Option.bind_some, hpv]
        rfl
      have hnext : ∃ best', nearer P best hi = some best' ∧ Nearest P lo (hi + 1) best' := by
        rw [hrun]
        split_ifs with hlow
        · refine ⟨_, rfl, ⟨hi, pv, by omega, by omega, hv, hpv, rfl⟩,
            fun i hi₁ hi₂ w pw hw hpw => ?_⟩
          rcases Nat.lt_or_eq_of_le (Nat.lt_succ_iff.mp hi₂) with hi₂ | rfl
          · exact hlow.le.trans (hmin i hi₁ hi₂ w pw hw hpw)
          · rw [hv, Option.some.injEq] at hw
            subst hw
            rw [hpv, Option.some.injEq] at hpw
            rw [hpw]
        · refine ⟨_, rfl, ⟨j, pn, hlo, by omega, hset, hnode, hscore⟩,
            fun i hi₁ hi₂ w pw hw hpw => ?_⟩
          rcases Nat.lt_or_eq_of_le (Nat.lt_succ_iff.mp hi₂) with hi₂ | rfl
          · exact hmin i hi₁ hi₂ w pw hw hpw
          · rw [hv, Option.some.injEq] at hw
            subst hw
            rw [hpv, Option.some.injEq] at hpw
            subst hpw
            exact not_lt.mp hlow
      obtain ⟨best', hstep, hb'⟩ := hnext
      have hsum : hi + 1 + k = hi + (k + 1) := by omega
      obtain ⟨best'', hrest, hb''⟩ := ih (hsum ▸ hall) hb'
      refine ⟨best'', ?_, hsum ▸ hb''⟩
      rw [List.range'_succ, List.foldlM_cons, hstep]
      exact hrest

theorem nearest_spec (P : Path) (lo hi : ℕ) (hlt : lo < hi)
    (hall : ∀ j, lo ≤ j → j < hi → ∃ v pn, P.getSet j = some v ∧ P.getNode v = some pn) :
    ∃ ret score, nearest P lo hi = some ret ∧ Nearest P lo hi (ret, score) := by
  obtain ⟨v, pn, hv, hpn⟩ := hall lo le_rfl hlt
  have hstart : Nearest P lo (lo + 1) (v, pn.fscore) := by
    refine ⟨⟨lo, pn, le_rfl, Nat.lt_succ_self lo, hv, hpn, rfl⟩, fun j hj hj' w pw hw hpw => ?_⟩
    obtain rfl : j = lo := by omega
    rw [hv, Option.some.injEq] at hw
    subst hw
    rw [hpn, Option.some.injEq] at hpw
    rw [hpw]
  have hsum : lo + 1 + (hi - (lo + 1)) = hi := by omega
  obtain ⟨⟨ret, score⟩, hloop, hnear⟩ := nearer_loop (hi - (lo + 1))
    (fun j hj hj' => hall j hj (by omega)) hstart
  refine ⟨ret, score, ?_, hsum ▸ hnear⟩
  simp only [nearest, hv, hpn, hloop, Option.bind_eq_bind, Option.bind_some]

/-- Over the closed part `nearest` returns a closed node. -/
theorem nearest_closed_spec (h : Arena ctx opens closeds nodes) (hne : closeds ≠ []) :
    ∃ ret ∈ closeds, nearest ctx.P (ctx.P.depth - ctx.closed) ctx.P.depth = some ret ∧
      ∃ pn, nodes[ret]? = some pn ∧
        ∀ v ∈ closeds, ∀ pn', nodes[v]? = some pn' → pn.fscore ≤ pn'.fscore := by
  have hpos := List.length_pos_iff.mpr hne
  have hlen := h.length_le
  have hdepth := h.le_depth
  -- position `j` of the array holds the closed node number `depth - 1 - j`
  have hat : ∀ j, ctx.P.depth - closeds.length ≤ j → j < ctx.P.depth →
      ∃ v ∈ closeds, ctx.P.getSet j = some v := by
    intro j hlo hhi
    have hi : ctx.P.depth - 1 - j < closeds.length := by omega
    have hset := h.getSet_closed (List.getElem?_eq_getElem hi)
    have hj : ctx.P.depth - 1 - (ctx.P.depth - 1 - j) = j := by omega
    rw [hj] at hset
    exact ⟨_, List.getElem_mem hi, hset⟩
  obtain ⟨ret, score, hrun, ⟨j, pn, hlo, hhi, hset, hnode, hscore⟩, hmin⟩ :=
    nearest_spec ctx.P (ctx.P.depth - closeds.length) ctx.P.depth (by omega)
      (fun j hlo hhi => by
        obtain ⟨v, hv, hset⟩ := hat j hlo hhi
        obtain ⟨pn, hpn⟩ := h.exists_node (List.mem_append_right _ hv)
        exact ⟨v, pn, hset, h.getNode hpn⟩)
  obtain ⟨v, hv, hset'⟩ := hat j hlo hhi
  obtain rfl : v = ret := by
    rw [hset', Option.some.injEq] at hset
    exact hset
  obtain ⟨pv, hpv⟩ := h.exists_node (List.mem_append_right _ hv)
  refine ⟨v, hv, by rw [h.closed]; exact hrun, pv, hpv, fun w hw pw hpw => ?_⟩
  have hpv' : pv = pn := by
    have := h.getNode hpv
    rw [hnode, Option.some.injEq] at this
    exact this.symm
  obtain ⟨i, hi, hiw⟩ := List.mem_iff_getElem.mp hw
  have hwset := h.getSet_closed (List.getElem?_eq_getElem hi)
  rw [hpv', hscore]
  exact hmin (ctx.P.depth - 1 - i) (by omega) (by omega) w pw (hiw ▸ hwset) (h.getNode hpw)

end GameServer.Pathfinding
