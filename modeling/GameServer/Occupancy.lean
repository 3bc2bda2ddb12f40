import GameServer.Terrain
import GameServer.Transition

/-!
# Bodies on the map

Every entity that lives marks the cells of its body. A mark is set and cleared as it is, so where
two bodies overlap the one that leaves clears cells of the other, and a test by a dead entity, or a
path to one, marks cells of no living one.
-/

namespace GameServer.Occupancy

open Pathfinding (Map map_get Cell)
open Terrain Transition

structure Entity extends Body where
  alive : Bool
  bornPos : Vector3

structure State (ι : Type*) where
  map : Map
  entities : ι → Entity

/-- The cell belongs to the body where it is. -/
def On (m : Map) (self : Body) (c : Cell) : Prop :=
  Covers m self.pos.x self.pos.z self.n32BSize c

instance (m : Map) (self : Body) (c : Cell) : Decidable (On m self c) :=
  inferInstanceAs (Decidable (Covers _ _ _ _ _))

/-- The cells that are no walls have a weight where some living entity is. -/
def Occupied {ι : Type*} (s : State ι) : Prop :=
  ∀ a b, map_get s.map a b ≠ 255 →
    (0 < map_get s.map a b ↔ ∃ i, (s.entities i).alive ∧
      On s.map (s.entities i).toBody (a, b))

/-- A map on which the entities have their places. -/
structure Start (ι : Type*) extends State ι where
  occupied : Occupied toState

variable {ι : Type*} [DecidableEq ι]

/-- What the steps name as a target: a place or an entity, where it is. -/
inductive Aim (ι : Type*)
  | transform (pos : Vector3)
  | entity (j : ι)

inductive Label (ι : Type*)
  | setPos (i : ι) (pos : Vector3)
  | isLegalGrid (i : ι) (useAStar : Bool) (pos : Vector3)
  | pathFind (i : ι) (target : Aim ι)
  | onDead (i : ι)
  | onRaise (i : ι)

namespace State

def target (s : State ι) : Aim ι → Target
  | .transform pos => .transform pos
  | .entity j => .object (s.entities j).toBody

def setPos (s : State ι) (i : ι) (pos : Vector3) : State ι :=
  let self := s.entities i
  let moved := { self with pos }
  { map := if self.alive then moved.mark (self.mark s.map 0) 1 else s.map
    entities := Function.update s.entities i moved }

def onDead (s : State ι) (i : ι) : State ι :=
  let self := s.entities i
  { map := self.mark s.map 0
    entities := Function.update s.entities i { self with alive := false } }

def onRaise (s : State ι) (i : ι) : State ι :=
  let self := s.entities i
  let s := { s with entities := Function.update s.entities i { self with alive := true } }
  let s := s.setPos i self.bornPos
  { s with map := (s.entities i).mark s.map 1 }

end State

def step (s : State ι) : Label ι → Option (State ι)
  | .setPos i pos => some (s.setPos i pos)
  | .isLegalGrid i useAStar pos =>
      some { s with map := ((s.entities i).isLegalGrid s.map useAStar pos).2 }
  | .pathFind i target =>
      let place := (s.target target).pos
      ((s.entities i).pathFind s.map (s.target target) place.x place.z).map fun r =>
        { s with map := r.1 }
  | .onDead i => some (s.onDead i)
  | .onRaise i => some (s.onRaise i)

def system (start : Start ι) : System (State ι) (Label ι) where
  init := start.toState
  step := step

/-! ## When the marks hold -/

/-- No other living entity is on the cells that a body leaves. -/
def Leaves (s : State ι) (i : ι) (left : Cell → Prop) : Prop :=
  ∀ a b, map_get s.map a b ≠ 255 → On s.map (s.entities i).toBody (a, b) → left (a, b) →
    ∀ j, j ≠ i → (s.entities j).alive → ¬ On s.map (s.entities j).toBody (a, b)

/-- The cells of an entity are cells of a living one. -/
def Held (s : State ι) (i : ι) : Prop :=
  ∀ a b, map_get s.map a b ≠ 255 → On s.map (s.entities i).toBody (a, b) →
    ∃ j, (s.entities j).alive ∧ On s.map (s.entities j).toBody (a, b)

/-- What is cleared for good belongs to no other living entity, and what is marked belongs to
one. -/
def OK (s : State ι) : Label ι → Prop
  | .setPos i pos => (s.entities i).alive →
      Leaves s i fun c => ¬ Covers s.map pos.x pos.z (s.entities i).n32BSize c
  | .isLegalGrid i _ _ => Held s i
  | .pathFind i target => Held s i ∧ match target with
    | .transform _ => True
    | .entity j => Held s j
  | .onDead i => Leaves s i fun _ => True
  | .onRaise i => Leaves s i fun c => ¬ Covers s.map (s.entities i).bornPos.x
      (s.entities i).bornPos.z (s.entities i).n32BSize c

/-! ## One step -/

variable {s s' : State ι} {m m' : Map} {a b : ℤ} {v : UInt8} {i : ι}

/-- A map with marks on it has the same cells and walls. -/
structure Marked (m m' : Map) : Prop where
  on : ∀ self c, On m' self c ↔ On m self c
  wall : ∀ a b, map_get m' a b ≠ 255 ↔ map_get m a b ≠ 255

theorem marked_mark (m : Map) (self : Body) (hv : v ≠ 255) : Marked m (self.mark m v) :=
  ⟨fun _ _ => covers_add, fun _ _ => not_congr (map_get_add_eq_wall hv)⟩

theorem Marked.trans {m'' : Map} (h : Marked m m') (h' : Marked m' m'') : Marked m m'' :=
  ⟨fun self c => (h'.on self c).trans (h.on self c), fun a b => (h'.wall a b).trans (h.wall a b)⟩

theorem map_get_mark (self : Body) (hwall : map_get m a b ≠ 255) :
    map_get (self.mark m v) a b = if On m self (a, b) then v else map_get m a b := by
  rw [Body.mark, map_get_add]
  simp only [hwall, ne_eq, not_false_eq_true, and_true]
  rfl

/-- Some living entity other than `i` is on the cell. -/
def Others (s : State ι) (i : ι) (c : Cell) : Prop :=
  ∃ j, j ≠ i ∧ (s.entities j).alive ∧ On s.map (s.entities j).toBody c

theorem occupied_update {self : Entity} (hmarked : Marked s.map m')
    (hcells : ∀ a b, map_get s.map a b ≠ 255 → (0 < map_get m' a b ↔
      (self.alive ∧ On s.map self.toBody (a, b)) ∨ Others s i (a, b))) :
    Occupied ⟨m', Function.update s.entities i self⟩ := by
  intro a b hwall
  rw [hcells a b ((hmarked.wall a b).mp hwall)]
  constructor
  · rintro (⟨halive, hon⟩ | ⟨j, hne, halive, hon⟩)
    · exact ⟨i, by simpa using halive, by simpa using (hmarked.on _ _).mpr hon⟩
    · refine ⟨j, ?_, ?_⟩
      · simpa [Function.update_of_ne hne] using halive
      · simpa [Function.update_of_ne hne] using (hmarked.on _ _).mpr hon
  · rintro ⟨j, halive, hon⟩
    have hon := (hmarked.on _ _).mp hon
    dsimp only at halive hon
    by_cases hj : j = i
    · subst hj
      rw [Function.update_self] at halive hon
      exact .inl ⟨halive, hon⟩
    · rw [Function.update_of_ne hj] at halive hon
      exact .inr ⟨j, hj, halive, hon⟩

theorem Occupied.split (h : Occupied s) (i : ι) (hwall : map_get s.map a b ≠ 255) :
    0 < map_get s.map a b ↔
      ((s.entities i).alive ∧ On s.map (s.entities i).toBody (a, b)) ∨ Others s i (a, b) := by
  rw [h a b hwall]
  constructor
  · rintro ⟨j, halive, hon⟩
    by_cases hj : j = i
    · exact .inl (hj ▸ ⟨halive, hon⟩)
    · exact .inr ⟨j, hj, halive, hon⟩
  · rintro (⟨halive, hon⟩ | ⟨j, -, halive, hon⟩)
    · exact ⟨i, halive, hon⟩
    · exact ⟨j, halive, hon⟩

omit [DecidableEq ι] in
theorem not_others {left : Cell → Prop} (hleaves : Leaves s i left)
    (hwall : map_get s.map a b ≠ 255) (hon : On s.map (s.entities i).toBody (a, b))
    (hleft : left (a, b)) : ¬ Others s i (a, b) := by
  rintro ⟨j, hne, halive, hj⟩
  exact hleaves a b hwall hon hleft j hne halive hj

theorem occupied_move {self : Entity} (hocc : Occupied s) (halive : self.alive)
    (hleaves : Leaves s i fun c => ¬ On s.map self.toBody c) (hmarked : Marked s.map m')
    (hcells : ∀ a b, map_get s.map a b ≠ 255 → map_get m' a b =
      if On s.map self.toBody (a, b) then 1
      else if On s.map (s.entities i).toBody (a, b) then 0 else map_get s.map a b) :
    Occupied ⟨m', Function.update s.entities i self⟩ := by
  refine occupied_update hmarked fun a b hwall => ?_
  rw [hcells a b hwall]
  split_ifs with hnew hold
  · exact iff_of_true (by decide) (.inl ⟨halive, hnew⟩)
  · refine iff_of_false (by decide) ?_
    rintro (⟨-, hon⟩ | hothers)
    · exact hnew hon
    · exact not_others hleaves hwall hold hnew hothers
  · rw [hocc.split i hwall]
    simp only [hnew, hold, and_false, false_or]

omit [DecidableEq ι] in
theorem occupied_held (hocc : Occupied s) (hmarked : Marked s.map m')
    (hcells : ∀ a b, map_get s.map a b ≠ 255 → map_get m' a b = map_get s.map a b ∨
      map_get m' a b = 1 ∧ ∃ i, (s.entities i).alive ∧ On s.map (s.entities i).toBody (a, b)) :
    Occupied { s with map := m' } := by
  intro a b hwall
  have hwall := (hmarked.wall a b).mp hwall
  have hon : (∃ i, (s.entities i).alive ∧ On m' (s.entities i).toBody (a, b)) ↔
      ∃ i, (s.entities i).alive ∧ On s.map (s.entities i).toBody (a, b) :=
    exists_congr fun i => and_congr_right fun _ => hmarked.on _ _
  refine Iff.trans ?_ hon.symm
  rcases hcells a b hwall with hsame | ⟨hone, hheld⟩
  · dsimp only
    rw [hsame]
    exact hocc a b hwall
  · dsimp only
    rw [hone]
    exact iff_of_true (by decide) hheld

theorem occupied_setPos {pos : Vector3} (hocc : Occupied s) (hok : OK s (.setPos i pos)) :
    Occupied (s.setPos i pos) := by
  have hclear := marked_mark s.map (s.entities i).toBody (v := 0) (by decide)
  unfold State.setPos
  dsimp only
  split_ifs with halive
  · refine occupied_move hocc halive (hok halive) (hclear.trans (marked_mark _ _ (by decide))) ?_
    intro a b hwall
    simp only [map_get_mark _ ((hclear.wall a b).mpr hwall), map_get_mark _ hwall, hclear.on]
  · refine occupied_update ⟨fun _ _ => Iff.rfl, fun _ _ => Iff.rfl⟩ fun a b hwall => ?_
    rw [hocc.split i hwall]
    simp only [halive, Bool.false_eq_true, false_and, false_or]

theorem occupied_onRaise (hocc : Occupied s) (hok : OK s (.onRaise i)) :
    Occupied (s.onRaise i) := by
  have hclear := marked_mark s.map (s.entities i).toBody (v := 0) (by decide)
  have hborn := hclear.trans (marked_mark ((s.entities i).mark s.map 0)
    { (s.entities i).toBody with pos := (s.entities i).bornPos } (v := 1) (by decide))
  simp only [State.onRaise, State.setPos, Function.update_self, Function.update_idem, if_true]
  refine occupied_move hocc rfl hok (hborn.trans (marked_mark _ _ (by decide))) fun a b hwall => ?_
  simp only [map_get_mark _ ((hborn.wall a b).mpr hwall),
    map_get_mark _ ((hclear.wall a b).mpr hwall), map_get_mark _ hwall, hclear.on, hborn.on]
  split_ifs <;> rfl

theorem occupied_onDead (hocc : Occupied s) (hleaves : Leaves s i fun _ => True) :
    Occupied (s.onDead i) := by
  refine occupied_update (marked_mark _ _ (by decide)) fun a b hwall => ?_
  rw [map_get_mark _ hwall]
  simp only [Bool.false_eq_true, false_and, false_or]
  split_ifs with hon
  · exact iff_of_false (by decide) (not_others hleaves hwall hon trivial)
  · rw [hocc.split i hwall]
    simp only [hon, and_false, false_or]

omit [DecidableEq ι] in
theorem occupied_isLegalGrid (useAStar : Bool) (pos : Vector3) (hocc : Occupied s)
    (hheld : Held s i) :
    Occupied { s with map := ((s.entities i).isLegalGrid s.map useAStar pos).2 } := by
  have hclear := marked_mark s.map (s.entities i).toBody (v := 0) (by decide)
  refine occupied_held hocc (hclear.trans (marked_mark _ (s.entities i).toBody (by decide))) ?_
  intro a b hwall
  simp only [Body.isLegalGrid, map_get_mark _ ((hclear.wall a b).mpr hwall),
    map_get_mark _ hwall, hclear.on]
  split_ifs with hon
  · exact .inr ⟨rfl, hheld a b hwall hon⟩
  · exact .inl rfl

omit [DecidableEq ι] in
theorem occupied_pathFind {target : Aim ι} {r : Map × List ℤ} (hocc : Occupied s)
    (hok : OK s (.pathFind i target))
    (hfind : (s.entities i).pathFind s.map (s.target target) (s.target target).pos.x
      (s.target target).pos.z = some r) :
    Occupied { s with map := r.1 } := by
  obtain ⟨path, -, rfl⟩ := Option.map_eq_some_iff.mp hfind
  have hclear := marked_mark s.map (s.entities i).toBody (v := 0) (by decide)
  cases target with
  | transform pos =>
      exact occupied_isLegalGrid true pos hocc hok.1
  | entity j =>
      have hboth := hclear.trans (marked_mark _ (s.entities j).toBody (v := 0) (by decide))
      have hself := hboth.trans (marked_mark _ (s.entities i).toBody (v := 1) (by decide))
      have hmarked := hself.trans (marked_mark _ (s.entities j).toBody (v := 1) (by decide))
      refine occupied_held hocc hmarked fun a b hwall => ?_
      have hcells : map_get ((s.entities j).mark ((s.entities i).mark ((s.entities j).mark
          ((s.entities i).mark s.map 0) 0) 1) 1) a b =
          if On s.map (s.entities j).toBody (a, b) then 1
          else if On s.map (s.entities i).toBody (a, b) then 1 else map_get s.map a b := by
        simp only [map_get_mark _ ((hself.wall a b).mpr hwall),
          map_get_mark _ ((hboth.wall a b).mpr hwall),
          map_get_mark _ ((hclear.wall a b).mpr hwall), map_get_mark _ hwall, hclear.on, hboth.on,
          hself.on]
        split_ifs <;> rfl
      refine hcells ▸ ?_
      split_ifs with hj hi
      · exact .inr ⟨rfl, hok.2 a b hwall hj⟩
      · exact .inr ⟨rfl, hok.1 a b hwall hi⟩
      · exact .inl rfl

theorem occupied_step {l : Label ι} (hocc : Occupied s) (hok : OK s l)
    (hstep : step s l = some s') :
    Occupied s' := by
  cases l with
  | setPos i pos =>
      cases hstep
      exact occupied_setPos hocc hok
  | isLegalGrid i useAStar pos =>
      cases hstep
      exact occupied_isLegalGrid useAStar pos hocc hok
  | pathFind i target =>
      obtain ⟨r, hr, rfl⟩ := Option.map_eq_some_iff.mp hstep
      exact occupied_pathFind hocc hok hr
  | onDead i =>
      cases hstep
      exact occupied_onDead hocc hok
  | onRaise i =>
      cases hstep
      exact occupied_onRaise hocc hok

/-- Where no entity leaves cells of another one, and none that is dead marks cells, the weights on
the map are those of the living. -/
theorem map_occupied (start : Start ι) (h : (system start).Runs OK s) : Occupied s :=
  h.invariant start.occupied fun _ _ _ hocc hok hstep => occupied_step hocc hok hstep

/-! ## Two bodies in a row -/

/-- The middle of a cell of a row. -/
def cell (x : ℤ) : Vector3 := ⟨GRID_2_POS x, 0, 1 / 20⟩

def lone : Start Unit where
  map := ⟨4, 1, #v[1, 0, 0, 255]⟩
  entities _ := ⟨⟨cell 0, 1⟩, true, cell 0⟩
  occupied := by
    intro a b hwall
    have hin := inside_of_ne hwall
    obtain ⟨ha, ha', hb, hb'⟩ := hin
    simp only [Nat.cast_ofNat, Nat.cast_one] at ha' hb'
    interval_cases a <;> interval_cases b <;> revert hwall <;> decide +kernel

omit [DecidableEq ι] in
theorem leaves_of_subsingleton [Subsingleton ι] (left : Cell → Prop) : Leaves s i left :=
  fun _ _ _ _ _ _ hne => absurd (Subsingleton.elim _ _) hne

omit [DecidableEq ι] in
theorem held_of_alive (halive : (s.entities i).alive) : Held s i :=
  fun _ _ _ hon => ⟨i, halive, hon⟩

/-- An entity moves, looks around, dies and comes back. -/
theorem map_occupied_lone : ∃ s, (system lone).Runs OK s ∧
    map_get s.map 0 0 = 1 ∧ map_get s.map 2 0 = 0 ∧ Occupied s := by
  have hinit : (system lone).Runs OK (system lone).init := .init
  have hmove := hinit.step (i := Label.setPos () (cell 2))
    (show OK _ (.setPos _ _) from fun _ => leaves_of_subsingleton _) rfl
  have hlook := hmove.step (i := Label.isLegalGrid () false (cell 1))
    (show OK _ (.isLegalGrid _ _ _) from held_of_alive rfl) rfl
  have hdead := hlook.step (i := Label.onDead ())
    (show OK _ (.onDead _) from by unfold OK; exact leaves_of_subsingleton _) rfl
  have hraise := hdead.step (i := Label.onRaise ())
    (show OK _ (.onRaise _) from by unfold OK; exact leaves_of_subsingleton _) rfl
  exact ⟨_, hraise, by decide +kernel, by decide +kernel, map_occupied lone hraise⟩

def pair : Start Bool where
  map := ⟨6, 1, #v[1, 0, 1, 1, 1, 0]⟩
  entities i := if i then ⟨⟨cell 3, 3⟩, true, cell 3⟩ else ⟨⟨cell 0, 1⟩, true, cell 0⟩
  occupied := by
    intro a b hwall
    have hin := inside_of_ne hwall
    obtain ⟨ha, ha', hb, hb'⟩ := hin
    simp only [Nat.cast_ofNat, Nat.cast_one] at ha' hb'
    interval_cases a <;> interval_cases b <;> decide +kernel

/-- A large body gets over a small one, which leaves: its cell is free, and in the large body. -/
theorem map_freed : ∃ s, (system pair).Reachable s ∧ map_get s.map 0 0 = 0 ∧
    (s.entities true).alive ∧ On s.map (s.entities true).toBody (0, 0) ∧ ¬ Occupied s := by
  have hreach := System.reachable_of_run (S := system pair)
    [.setPos true (cell 1), .setPos false (cell 4)] rfl
  refine ⟨_, hreach, by decide +kernel, by decide +kernel, by decide +kernel, fun h => ?_⟩
  have hpos := (h 0 0 (by decide +kernel)).mpr ⟨true, by decide +kernel, by decide +kernel⟩
  revert hpos
  decide +kernel

end GameServer.Occupancy
