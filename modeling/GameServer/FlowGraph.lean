import GameServer.Pathfinding

/-!
# The flow graph of the map module

`lflowgraph` spreads distances from the target cells over the map with a queue in a ring of as many
slots as the map has cells, and turns them into a direction for each cell. An assertion that fails
and an access outside the slots of the ring end the program here. Distances are of type `int` and
wrap around.
-/

namespace GameServer.FlowGraph

open Pathfinding

inductive Fault
  /-- `assert(q->head != q->tail)` -/
  | assertion
  | access
  /-- The rounds given to the model do not suffice. -/
  | rounds
  deriving DecidableEq

abbrev Run := Except Fault

/-! ## The queue -/

/-- A slot that was never written is `none`. -/
structure RouteQueue where
  head : ℕ
  tail : ℕ
  n : ℕ
  q : ℕ → Option Cell

def create_queue (n : ℕ) : RouteQueue := { head := 0, tail := 0, n, q := fun _ => none }

def RouteQueue.slot (q : RouteQueue) (i : ℕ) : Run Cell :=
  match q.q i with
  | some c => if i < q.n then .ok c else .error .access
  | none => .error .access

def enter_queue (q : RouteQueue) (x y : ℤ) : Run RouteQueue :=
  if q.tail < q.n then
    let tail := if q.tail + 1 ≥ q.n then 0 else q.tail + 1
    if q.head ≠ tail then .ok { q with tail, q := Function.update q.q q.tail (some (x, y)) }
    else .error .assertion
  else .error .access

/-- The slot that is left and the queue behind it, or `none` for `NULL`. -/
def leave_queue (q : RouteQueue) : Option (ℕ × RouteQueue) :=
  if q.head = q.tail then none
  else some (q.head, { q with head := if q.head + 1 ≥ q.n then 0 else q.head + 1 })

/-- The loop of `queue_exist` from a slot on. -/
def existFrom (q : RouteQueue) (x y : ℤ) : ℕ → ℕ → Run Bool
  | 0, _ => .error .rounds
  | rounds + 1, head =>
      if head = q.tail then return false
      else do
        let c ← q.slot head
        if c.1 = x ∧ c.2 = y then return true
        else existFrom q x y rounds (if head + 1 > q.n then 0 else head + 1)

def queue_exist (q : RouteQueue) (x y : ℤ) : Run Bool := existFrom q x y (q.n + 1) q.head

/-! ## The routes -/

/-- The value of a sum in an `int`. -/
def int (x : ℤ) : ℤ := Int.bmod x (2 ^ 32)

theorem int_of_lt {x : ℤ} (hx : 0 ≤ x) (hlt : x < 2 ^ 31) : int x = x :=
  Int.bmod_eq_of_le (by omega) (by omega)

abbrev Route := Cell → ℤ

structure State where
  route : Route
  q : RouteQueue

/-- The cells in the order of the two loops over a map. -/
def cells (m : Map) : List Cell :=
  (List.range m.height).flatMap fun i : ℕ => (List.range m.width).map fun j : ℕ => (↑j, ↑i)

/-- The weights of a map of the same size. -/
abbrev Marks (m : Map) := Vector UInt8 (m.width * m.height)

def mark (m : Map) (marks : Marks m) (c : Cell) : UInt8 := map_get { m with m := marks } c.1 c.2

def initCell (block : Map) (marks : Marks block) (s : State) (c : Cell) : Run State :=
  let w := mark block marks c
  let b := map_get block c.1 c.2
  if w ≠ 0 ∧ b ≠ BLOCK_WEIGHT then do
    let q ← enter_queue s.q c.1 c.2
    return { route := Function.update s.route c (w.toNat + b.toNat * 5), q }
  else return s

def init_route (block : Map) (marks : Marks block) (s : State) : Run State :=
  (cells block).foldlM (initCell block marks) s

/-- A neighbour of the cell in slot `c`, which is read again for each of them. -/
def relax (m : Map) (c : ℕ) (odis : ℤ) (s : State) (off : Off) : Run State := do
  let cell ← s.q.slot c
  let x := cell.1 + off.dx
  let y := cell.2 + off.dy
  if m.Inside x y then
    let dis := int (odis + off.distance + (map_get m x y).toNat * 5)
    let w := s.route (x, y)
    let route := Function.update s.route (x, y) dis
    if w = 0 then return { route, q := ← enter_queue s.q x y }
    else if w > dis then
      if ← queue_exist s.q x y then return { s with route }
      else return { route, q := ← enter_queue s.q x y }
    else return s
  else return s

def gen_route (m : Map) : ℕ → State → Run Route
  | 0, _ => .error .rounds
  | rounds + 1, s =>
      match leave_queue s.q with
      | none => return s.route
      | some (c, q) => do
          let cell ← q.slot c
          if map_get m cell.1 cell.2 = BLOCK_WEIGHT then gen_route m rounds { s with q }
          else
            let s ← OFF.foldlM (relax m c (s.route cell)) { s with q }
            gen_route m rounds s

/-- The loop over the neighbours of a cell: the least weight so far and the number of its
direction. -/
def lighter (m : Map) (route : Route) (c : Cell) (best : ℤ × ℕ) (k : Off × ℕ) : ℤ × ℕ :=
  let x := c.1 + k.1.dx
  let y := c.2 + k.1.dy
  if m.Inside x y then
    let weight := int (route (x, y) + k.1.distance)
    if weight > 0 ∧ weight < best.1 then (weight, k.2 + 1) else best
  else best

/-- The byte of the flow graph at a cell. -/
def convert_route (m : Map) (route : Route) (c : Cell) : ℕ :=
  if route c > 1 then (OFF.zipIdx.foldl (lighter m route c) (int (route c + 7), 0)).2 else 0

/-- The distances behind `gen_route`. -/
def routes (m : Map) (marks : Marks m) (rounds : ℕ) : Run Route := do
  let s ← init_route m marks { route := fun _ => 0, q := create_queue (m.width * m.height) }
  gen_route m rounds s

/-- The flow graph by its cells, from the map of the targets. -/
def lflowgraph (m : Map) (marks : Marks m) (rounds : ℕ) : Run (Cell → ℕ) := do
  let route ← routes m marks rounds
  return convert_route m route

end GameServer.FlowGraph
