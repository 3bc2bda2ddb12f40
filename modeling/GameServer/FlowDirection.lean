import GameServer.FlowRoute

/-!
# Directions of the flow graph

`convert_route` compares the distances of all neighbours of a cell, those of walls among them, so a
direction may lead into a wall where the way around it is long.
-/

namespace GameServer.FlowGraph

open Pathfinding Relaxation

variable {m : Map} {marks : Marks m} {c c' : Cell} {off : Off} {offs : List Off} {route : Route}
  {rounds : ℕ} {s : State} {bound : ℤ}

/-- The weight of a neighbour in `convert_route`. -/
def weigh (route : Route) (c : Cell) (off : Off) : ℤ := route (neighbour c off) + off.distance

/-- The neighbour is a cell of the map. -/
def Within (m : Map) (c : Cell) (off : Off) : Prop :=
  m.Inside (neighbour c off).1 (neighbour c off).2

/-- The loop over the neighbours finds nothing below the bound, or the first of the lightest. -/
def Lightest (m : Map) (route : Route) (c : Cell) (offs : List Off) (bound : ℤ) (best : ℤ × ℕ) :
    Prop :=
  (best = (bound, 0) ∧ ∀ off ∈ offs, Within m c off → bound ≤ weigh route c off) ∨
    ∃ j off, offs[j]? = some off ∧ Within m c off ∧ best = (weigh route c off, j + 1) ∧
      weigh route c off < bound ∧ ∀ k off', offs[k]? = some off' → Within m c off' →
        weigh route c off ≤ weigh route c off' ∧ (k < j → weigh route c off < weigh route c off')

theorem lightest (hroute : ∀ c, 0 ≤ route c) (hfits : ∀ c, route c + 7 < 2 ^ 31)
    (hoffs : ∀ off ∈ offs, off ∈ OFF) (bound : ℤ) :
    Lightest m route c offs bound (offs.zipIdx.foldl (lighter m route c) (bound, 0)) := by
  induction offs using List.reverseRecOn with
  | nil => exact Or.inl ⟨rfl, fun off hoff => absurd hoff List.not_mem_nil⟩
  | append_singleton offs off ih =>
      specialize ih fun o ho => hoffs o (List.mem_append_left _ ho)
      have hpos : weigh route c off > 0 := by
        have hdistance := distance_pos off (hoffs off (by simp))
        have hnonneg := hroute (neighbour c off)
        unfold weigh
        omega
      rw [List.zipIdx_append, List.foldl_append]
      generalize offs.zipIdx.foldl (lighter m route c) (bound, 0) = best at ih ⊢
      have hlast : (offs ++ [off])[offs.length]? = some off := List.getElem?_concat_length
      have hcases : ∀ {k off'}, (offs ++ [off])[k]? = some off' →
          (k < offs.length ∧ offs[k]? = some off') ∨ (k = offs.length ∧ off' = off) :=
        fun {k off'} hk => by
          have hlt := (List.getElem?_eq_some_iff.mp hk).1
          rw [List.length_append, List.length_singleton] at hlt
          rcases Nat.lt_succ_iff_lt_or_eq.mp hlt with hlt | rfl
          · rw [List.getElem?_append_left hlt] at hk
            exact Or.inl ⟨hlt, hk⟩
          · rw [hlast, Option.some.injEq] at hk
            exact Or.inr ⟨rfl, hk.symm⟩
      change Lightest m route c _ bound (lighter m route c best (off, 0 + offs.length))
      rw [zero_add]
      have hround : lighter m route c best (off, offs.length) =
          if m.Inside (neighbour c off).1 (neighbour c off).2 then
            if weigh route c off > 0 ∧ weigh route c off < best.1 then
              (weigh route c off, offs.length + 1) else best
          else best := by
        have hsmall := hfits (neighbour c off)
        have hle := distance_le off (hoffs off (by simp))
        have hint : int (weigh route c off) = weigh route c off :=
          int_of_lt hpos.le (by unfold weigh; omega)
        rw [← hint]
        rfl
      rw [hround]
      rcases ih with ⟨rfl, hnone⟩ | ⟨j, first, hj, hin, rfl, hlt, hmin⟩
      · split_ifs with hwithin hbetter
        · refine Or.inr ⟨offs.length, off, hlast, hwithin, rfl, hbetter.2, fun k off' hk hk' => ?_⟩
          rcases hcases hk with ⟨-, hk⟩ | ⟨rfl, rfl⟩
          · have hge := hnone off' (List.mem_of_getElem? hk) hk'
            exact ⟨(hbetter.2.trans_le hge).le, fun _ => hbetter.2.trans_le hge⟩
          · exact ⟨le_rfl, fun hk => absurd hk (lt_irrefl _)⟩
        · refine Or.inl ⟨rfl, fun o ho hin => ?_⟩
          rcases List.mem_append.mp ho with ho | ho
          · exact hnone o ho hin
          · rw [List.mem_singleton.mp ho]
            exact not_lt.mp fun hlt => hbetter ⟨hpos, hlt⟩
        · refine Or.inl ⟨rfl, fun o ho hin => ?_⟩
          rcases List.mem_append.mp ho with ho | ho
          · exact hnone o ho hin
          · rw [List.mem_singleton.mp ho] at hin
            exact absurd hin hwithin
      · have hold : ∀ {best'}, best' = (weigh route c first, j + 1) →
            (Within m c off → weigh route c first ≤ weigh route c off) →
              Lightest m route c (offs ++ [off]) bound best' := fun hbest hle => by
          have hjlt := (List.getElem?_eq_some_iff.mp hj).1
          refine Or.inr ⟨j, first, by rw [List.getElem?_append_left hjlt, hj], hin, hbest, hlt, ?_⟩
          intro k off' hk hk'
          rcases hcases hk with ⟨-, hk⟩ | ⟨rfl, rfl⟩
          · exact hmin k off' hk hk'
          · exact ⟨hle hk', fun hk => absurd hk hjlt.not_gt⟩
        split_ifs with hwithin hbetter
        · refine Or.inr ⟨offs.length, off, hlast, hwithin, rfl, hbetter.2.trans hlt, ?_⟩
          intro k off' hk hk'
          rcases hcases hk with ⟨-, hk⟩ | ⟨rfl, rfl⟩
          · have hge := (hmin k off' hk hk').1
            exact ⟨(hbetter.2.trans_le hge).le, fun _ => hbetter.2.trans_le hge⟩
          · exact ⟨le_rfl, fun hk => absurd hk (lt_irrefl _)⟩
        · exact hold rfl fun _ => not_lt.mp fun hlt => hbetter ⟨hpos, hlt⟩
        · exact hold rfl fun hin => absurd hin hwithin

/-! ## Following the directions -/

/-- The cell that the direction of a cell leads to. -/
def toward (flow : Cell → ℕ) (c : Cell) : Option Cell :=
  if flow c = 0 then none else OFF[flow c - 1]?.map (neighbour c)

/-- The directions lead over open cells to a target. -/
inductive Leads (m : Map) (marks : Marks m) (flow : Cell → ℕ) : Cell → Prop
  | target {c : Cell} : m.Inside c.1 c.2 → isTarget m marks c = true → Leads m marks flow c
  | step {c c' : Cell} : m.Inside c.1 c.2 → ¬ Wall m c → toward flow c = some c' →
      Leads m marks flow c' → Leads m marks flow c

/-- An open cell with a distance that is no target. -/
structure Away (m : Map) (marks : Marks m) (c : Cell) : Prop where
  inside : m.Inside c.1 c.2
  isOpen : ¬ Wall m c
  reached : (ways m marks c).Nonempty
  notTarget : isTarget m marks c = false

structure Correct (m : Map) (marks : Marks m) (route : Route) (flow : Cell → ℕ) : Prop where
  unreached : ∀ c, m.Inside c.1 c.2 → ¬ Wall m c → (route c = 0 ↔ ways m marks c = ∅)
  least : ∀ c, m.Inside c.1 c.2 → ¬ Wall m c → route c ≠ 0 → IsLeast (ways m marks c) (route c)
  directions : ∀ c, Away m marks c → Leads m marks flow c

/-- No wall beside a cell comes, with the step into it, before all open neighbours: by the cost of
the ways to it and then by the order of the directions. -/
def Downhill (m : Map) (marks : Marks m) : Prop :=
  ∀ c, Away m marks c → ∀ (k : ℕ) off (d : ℤ), OFF[k]? = some off → Within m c off →
    Wall m (neighbour c off) → IsLeast (ways m marks (neighbour c off)) d →
      ∃ (j : ℕ) (off' : Off) (d' : ℤ), OFF[j]? = some off' ∧ Within m c off' ∧
      ¬ Wall m (neighbour c off') ∧
        IsLeast (ways m marks (neighbour c off')) d' ∧
          (d' + off'.distance < d + off.distance ∨
            d' + off'.distance = d + off.distance ∧ j < k)

theorem Least.away_set (h : Least m marks route) (hc : Away m marks c) : route c ≠ 0 :=
  fun hzero => hc.reached.ne_empty (h.zero_iff.mp hzero)

/-- The direction of a cell is the first of the lightest neighbours, which is closer to a target. -/
theorem Least.direction (h : Least m marks route) (hc : Away m marks c) : ∃ (j : ℕ) (off : Off),
    OFF[j]? = some off ∧ Within m c off ∧
    toward (convert_route m route) c = some (neighbour c off) ∧
      route (neighbour c off) < route c ∧ ∀ (k : ℕ) off', OFF[k]? = some off' → Within m c off' →
        weigh route c off ≤ weigh route c off' ∧
        (k < j → weigh route c off < weigh route c off') := by
  have hset := h.away_set hc
  obtain ⟨back, hback, hbackin, -, hbackset, hbackle⟩ := h.back hset hc.notTarget
  have hlarge : route c > 1 := by
    have hone := h.pos hbackset
    have hdistance := distance_pos back hback
    omega
  have hflow : convert_route m route c =
      (OFF.zipIdx.foldl (lighter m route c) (route c + 7, 0)).2 := by
    rw [convert_route, if_pos hlarge, int_of_lt (by omega) (h.fits c)]
  rcases lightest (m := m) (c := c) h.nonneg h.fits (fun off hoff => hoff) (route c + 7) with
    ⟨-, hnone⟩ | ⟨j, off, hj, hin, hbest, -, hmin⟩
  · have hle := hnone back hback hbackin
    unfold weigh at hle
    omega
  · refine ⟨j, off, hj, hin, ?_, ?_, hmin⟩
    · unfold toward
      rw [hflow, hbest, if_neg (Nat.succ_ne_zero j)]
      change OFF[j + 1 - 1]?.map _ = _
      rw [Nat.add_sub_cancel, hj]
      rfl
    · obtain ⟨k, hk⟩ := List.mem_iff_getElem?.mp hback
      have hle := (hmin k back hk hbackin).1
      have hdistance := distance_pos off (List.mem_of_getElem? hj)
      unfold weigh at hle
      omega

theorem Least.leads (h : Least m marks route) (hdown : Downhill m marks) (hc : Away m marks c) :
    Leads m marks (convert_route m route) c := by
  induction hn : (route c).toNat using Nat.strong_induction_on generalizing c with
  | h n ih =>
      obtain ⟨j, off, hj, hin, htoward, hlt, hmin⟩ := h.direction hc
      have hset := h.beside hc.inside hc.isOpen (h.away_set hc) (List.mem_of_getElem? hj) hin
      have hopen : ¬ Wall m (neighbour c off) := fun hwall => by
        obtain ⟨k, off', d', hk, hin', -, hleast, hless⟩ := hdown c hc j off _ hj hin hwall
          (h.isLeast_iff.mpr ⟨hset, rfl⟩)
        obtain ⟨hle, hstrict⟩ := hmin k off' hk hin'
        have hd' := (h.isLeast_iff.mp hleast).2
        unfold weigh at hle hstrict
        rcases hless with hless | ⟨heq, hkj⟩
        · omega
        · have := hstrict hkj
          omega
      refine .step hc.inside hc.isOpen htoward ?_
      cases htarget : isTarget m marks (neighbour c off) with
      | true => exact .target hin htarget
      | false =>
          have hreached : (ways m marks (neighbour c off)).Nonempty :=
            ⟨_, (h.isLeast_iff.mpr ⟨hset, rfl⟩).1⟩
          have hpos := h.pos hset
          exact ih _ (by omega) ⟨hin, hopen, hreached, htarget⟩ rfl

/-- Where the directions lead to targets, none of them goes into a wall. -/
theorem Least.downhill (h : Least m marks route)
    (hleads : ∀ c, Away m marks c → Leads m marks (convert_route m route) c) :
    Downhill m marks := by
  intro c hc k off d hk hin hwall hd
  obtain ⟨j, first, hj, hfirst, htoward, -, hmin⟩ := h.direction hc
  have hopen : ¬ Wall m (neighbour c first) := by
    have htargetOpen : ∀ {c}, isTarget m marks c = true → ¬ Wall m c := fun htarget => by
      unfold isTarget at htarget
      exact (of_decide_eq_true htarget).2
    cases hleads c hc with
    | target _ htarget =>
        rw [hc.notTarget] at htarget
        cases htarget
    | step _ _ hnext hrest =>
        rw [htoward, Option.some.injEq] at hnext
        rw [hnext]
        cases hrest with
        | target _ htarget => exact htargetOpen htarget
        | step _ hopen _ _ => exact hopen
  have hset := h.beside hc.inside hc.isOpen (h.away_set hc) (List.mem_of_getElem? hj) hfirst
  refine ⟨j, first, _, hj, hfirst, hopen, h.isLeast_iff.mpr ⟨hset, rfl⟩, ?_⟩
  obtain ⟨hle, hstrict⟩ := hmin k off hk hin
  have hroute := (h.isLeast_iff.mp hd).2
  unfold weigh at hle hstrict
  rcases lt_trichotomy j k with hjk | rfl | hkj
  · omega
  · rw [hj, Option.some.injEq] at hk
    rw [hk] at hopen
    exact absurd hwall hopen
  · have := hstrict hkj
    omega

/-! ## The run -/

theorem gen_route_mono {more : ℕ} (h : gen_route m rounds s = .ok route) (hle : rounds ≤ more) :
    gen_route m more s = .ok route := by
  induction rounds generalizing s more with
  | zero => cases h
  | succ rounds ih =>
      obtain ⟨more, rfl⟩ := Nat.exists_eq_add_of_le' (Nat.zero_lt_of_lt hle)
      have hle' := Nat.le_of_succ_le_succ hle
      cases hleave : leave_queue s.q with
      | none =>
          rw [gen_route, hleave] at h ⊢
          exact h
      | some r =>
          obtain ⟨k, q⟩ := r
          cases hslot : q.slot k with
          | error f =>
              rw [gen_route, hleave] at h
              dsimp only at h
              rw [hslot] at h
              cases h
          | ok c =>
              rw [gen_route_leave hleave hslot] at h ⊢
              split_ifs at h ⊢
              · exact ih h hle'
              · cases hfold : OFF.foldlM (relax m k (s.route c)) { s with q } with
                | error f =>
                    rw [hfold] at h
                    cases h
                | ok s' =>
                    rw [hfold] at h
                    exact ih h hle'

/-- The distances of a run that comes to its end. -/
theorem least_of_routes (hpos : 0 < m.width * m.height) (hfits : Fits m)
    (h : routes m marks rounds = .ok route) : Least m marks route := by
  have hroomy : Roomy m marks := by
    by_contra hfull
    unfold routes at h
    rw [init_route_full hpos hfull] at h
    cases h
  obtain ⟨enough, a, hdrain⟩ := drain_ends (start_valid m marks)
  have hmore : routes m marks (max enough rounds) = .ok route := by
    unfold routes at h ⊢
    obtain ⟨s, hinit, -⟩ := init_route_sim hpos hroomy
    rw [hinit] at h ⊢
    exact gen_route_mono h (le_max_right _ _)
  have hroute : route = a.route := by
    rcases routes_follow hpos hfits hroomy (drain_mono hdrain (le_max_left enough rounds)) with
      ⟨-, hok⟩ | ⟨-, herror⟩
    · rw [hmore] at hok
      exact Except.ok.inj hok
    · rw [hmore] at herror
      cases herror
  subst hroute
  have hvalid := drain_valid (start_valid m marks) hdrain
  refine ⟨labelled_drain (labelled_start m marks) (start_valid m marks) hdrain, hvalid.nonneg,
    fun c => ?_⟩
  have hsmall := hvalid.small c
  unfold Fits at hfits
  omega

/-- Where the queue does not overflow the distances are right, and the directions are unless a wall
comes before the open neighbours of a cell. -/
theorem flow_correct_iff (hfits : Fits m) (h : routes m marks rounds = .ok route) :
    Correct m marks route (convert_route m route) ↔ Downhill m marks := by
  by_cases hpos : 0 < m.width * m.height
  · have hleast := least_of_routes hpos hfits h
    constructor
    · intro hcorrect
      exact hleast.downhill hcorrect.directions
    · intro hdown
      refine ⟨fun c _ _ => hleast.zero_iff, fun c _ _ hset => ?_, fun c hc => hleast.leads hdown hc⟩
      exact hleast.isLeast_iff.mpr ⟨hset, rfl⟩
  · have hnone : ∀ c : Cell, ¬ m.Inside c.1 c.2 := fun c hin =>
      hpos (Nat.zero_lt_of_lt hin.lt)
    refine iff_of_true ⟨fun c hin => absurd hin (hnone c), fun c hin => absurd hin (hnone c),
      fun c hc => absurd hc.inside (hnone c)⟩ fun c hc => absurd hc.inside (hnone c)

theorem flow_correct_row : ∃ route, routes row #v[1, 0, 0] 4 = .ok route ∧
    Correct row #v[1, 0, 0] route (convert_route row route) := by
  obtain ⟨route, hroute⟩ : ∃ route, routes row #v[1, 0, 0] 4 = .ok route := ⟨_, rfl⟩
  refine ⟨route, hroute, (flow_correct_iff (by decide) hroute).mpr ?_⟩
  intro c hc k off d _ hin hwall
  -- the row has no walls
  have hopen : ∀ c ∈ cells row, ¬ Wall row c := by decide
  exact absurd hwall (hopen _ (mem_cells.mpr hin))

/-- A wall of two cells between a target and the other side of a map. -/
def detour : Map := ⟨3, 3, #v[0, 255, 0, 254, 255, 254, 254, 254, 254]⟩

def corner : Marks detour := #v[1, 0, 0, 0, 0, 0, 0, 0, 0]

theorem flow_into_wall : ¬ ∀ (m : Map) (marks : Marks m) (rounds : ℕ) (route : Route),
    routes m marks rounds = .ok route → Correct m marks route (convert_route m route) := fun h => by
  have hvalue : (routes detour corner 12).map (fun route => route (2, 0)) = .ok 3835 := by
    decide +kernel
  have htoward : (routes detour corner 12).map (fun route =>
      toward (convert_route detour route) (2, 0)) = .ok (some (1, 0)) := by
    decide +kernel
  cases hroute : routes detour corner 12 with
  | error f =>
      rw [hroute] at hvalue
      cases hvalue
  | ok route =>
      rw [hroute] at hvalue htoward
      have hset : route (2, 0) ≠ 0 := (Except.ok.inj hvalue).trans_ne (by decide)
      have hleast := least_of_routes (by decide) (by decide) hroute
      have hreached : (ways detour corner (2, 0)).Nonempty :=
        ⟨_, (hleast.isLeast_iff.mpr ⟨hset, rfl⟩).1⟩
      have hleads := (h detour corner 12 route hroute).directions (2, 0)
        ⟨by decide, by decide, hreached, by decide⟩
      cases hleads with
      | target _ htarget => exact absurd htarget (by decide)
      | step _ _ hnext hrest =>
          obtain rfl := Option.some.inj (hnext.symm.trans (Except.ok.inj htoward))
          -- the way goes on from the wall
          cases hrest with
          | target _ htarget => exact absurd htarget (by decide)
          | step _ hopen _ _ => exact hopen (by decide)

end GameServer.FlowGraph
