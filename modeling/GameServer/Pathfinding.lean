import Mathlib.Tactic

/-!
# The path search of the map module

`path_finding` keeps all nodes of a search in the array `n` and their indices in the array `set`,
the open ones from its lower end and the closed ones from its upper end. Both arrays have `depth`
entries and nothing initializes them, so here an entry that was never written is `none`, and so is
every access outside the array; a function of the model returns `none` where the code would make
such an access. Coordinates and scores are of type `int`, whose overflow C leaves undefined; they
are integers here, which is the same for maps whose sides are well below `2 ^ 31 / 7` cells. What
`lpath` takes from the stack is left out: the arrays `set` and `pn`, the array `pos` of as many
cells as the path has, and `luaL_checkstack` for its coordinates.
-/

namespace GameServer.Pathfinding

structure Map where
  width : ℕ
  height : ℕ
  m : Vector UInt8 (width * height)

def BLOCK_WEIGHT : UInt8 := 255

def SEARCH_DEPTH : ℕ := 5000

/-- The cell lies on the map. -/
def Map.Inside (m : Map) (x y : ℤ) : Prop :=
  0 ≤ x ∧ x < m.width ∧ 0 ≤ y ∧ y < m.height

instance (m : Map) (x y : ℤ) : Decidable (m.Inside x y) := by
  unfold Map.Inside
  infer_instance

theorem Map.Inside.lt {m : Map} {x y : ℤ} (h : m.Inside x y) :
    (y * m.width + x).toNat < m.width * m.height := by
  obtain ⟨hx, hxw, hy, hyh⟩ := h
  have hrow : y * m.width + x < m.width * m.height := by nlinarith
  have hpos : 0 ≤ y * m.width + x := by positivity
  zify
  rw [Int.toNat_of_nonneg hpos]
  exact hrow

def map_get (m : Map) (x y : ℤ) : UInt8 :=
  if h : m.Inside x y then m.m.get ⟨(y * m.width + x).toNat, h.lt⟩ else BLOCK_WEIGHT

def distance (x1 y1 x2 y2 : ℤ) : ℤ :=
  let dx := x1 - x2
  let dy := y1 - y2
  let dx := if dx < 0 then -dx else dx
  let dy := if dy < 0 then -dy else dy
  if dx < dy then dx * 7 + (dy - dx) * 5 else dy * 7 + (dx - dy) * 5

structure Node where
  x : ℤ
  y : ℤ
  camefrom : ℤ
  gscore : ℤ
  fscore : ℤ
  deriving DecidableEq

structure Path where
  depth : ℕ
  set : ℕ → Option ℕ := fun _ => none
  n : ℕ → Option Node := fun _ => none

namespace Path

def getSet (P : Path) (i : ℕ) : Option ℕ := if i < P.depth then P.set i else none

def putSet (P : Path) (i : ℕ) (v : ℕ) : Option Path :=
  if i < P.depth then some { P with set := Function.update P.set i (some v) } else none

/-- The index `depth - 1 - i`, which is negative from `i = depth` on. -/
def top (P : Path) (i : ℕ) : Option ℕ := if i < P.depth then some (P.depth - 1 - i) else none

def getNode (P : Path) (i : ℕ) : Option Node := if i < P.depth then P.n i else none

def putNode (P : Path) (i : ℕ) (pn : Node) : Option Path :=
  if i < P.depth then some { P with n := Function.update P.n i (some pn) } else none

end Path

structure Context where
  P : Path
  opened : ℕ := 0
  closed : ℕ := 0
  n : ℕ := 0
  end_x : ℤ
  end_y : ℤ
  /-- Some call of `add_open` returned `NULL`. -/
  starved : Bool := false

/-- The new node by its index, or `none` for `NULL`. -/
def add_open (ctx : Context) (x y camefrom gscore : ℤ) : Option (Context × Option ℕ) :=
  if ctx.n ≥ ctx.P.depth then some ({ ctx with starved := true }, none)
  else do
    let P ← ctx.P.putSet ctx.opened ctx.n
    let fscore := gscore + distance x y ctx.end_x ctx.end_y
    let P ← P.putNode ctx.n { x, y, camefrom, gscore, fscore }
    some ({ ctx with P, opened := ctx.opened + 1, n := ctx.n + 1 }, some ctx.n)

/-- One round of the loop of `lowest_fscore`: the position in the open set, the node there and its
score, for the lowest seen so far. -/
def lower (P : Path) (best : ℕ × ℕ × ℤ) (i : ℕ) : Option (ℕ × ℕ × ℤ) := do
  let tmp ← P.getSet i
  let node ← P.getNode tmp
  if node.fscore < best.2.2 then some (i, tmp, node.fscore) else some best

/-- The node with the lowest score by its index, removed from the open set. -/
def lowest_fscore (ctx : Context) : Option (Context × ℕ) := do
  let first ← ctx.P.getSet 0
  let node ← ctx.P.getNode first
  let (idx, pn, _) ← (List.range' 1 (ctx.opened - 1)).foldlM (lower ctx.P) (0, first, node.fscore)
  let opened := ctx.opened - 1
  if idx ≠ opened then
    let last ← ctx.P.getSet opened
    let P ← ctx.P.putSet idx last
    some ({ ctx with P, opened }, pn)
  else some ({ ctx with opened }, pn)

def add_closed (ctx : Context) (idx : ℕ) : Option Context := do
  let i ← ctx.P.top ctx.closed
  let P ← ctx.P.putSet i idx
  some { ctx with P, closed := ctx.closed + 1 }

/-- Whether the node at this position of `set` has the given cell. -/
def nodeAt (P : Path) (x y : ℤ) (i : ℕ) : Option (Option ℕ) := do
  let idx ← P.getSet i
  let pn ← P.getNode idx
  some (if pn.x = x ∧ pn.y = y then some idx else none)

def in_closed (ctx : Context) (x y : ℤ) : Option Bool := do
  let found ← (List.range ctx.closed).findSomeM? (fun i => do
    let i ← ctx.P.top i
    nodeAt ctx.P x y i)
  some found.isSome

/-- The open node with this cell by its index, or `none` for `NULL`. -/
def find_open (ctx : Context) (x y : ℤ) : Option (Option ℕ) :=
  (List.range ctx.opened).findSomeM? (nodeAt ctx.P x y)

/-- One round of the loop of `nearest`. -/
def nearer (P : Path) (best : ℕ × ℤ) (i : ℕ) : Option (ℕ × ℤ) := do
  let idx ← P.getSet i
  let pn ← P.getNode idx
  if pn.fscore < best.2 then some (idx, pn.fscore) else some best

def nearest (P : Path) (lo hi : ℕ) : Option ℕ := do
  let ret ← P.getSet lo
  let pn ← P.getNode ret
  let (ret, _) ← (List.range' (lo + 1) (hi - (lo + 1))).foldlM (nearer P) (ret, pn.fscore)
  some ret

structure Off where
  dx : ℤ
  dy : ℤ
  distance : ℤ
  deriving DecidableEq

def OFF : List Off :=
  [⟨-1, 0, 5⟩, ⟨0, 1, 5⟩, ⟨1, 0, 5⟩, ⟨0, -1, 5⟩, ⟨1, 1, 7⟩, ⟨-1, 1, 7⟩, ⟨-1, -1, 7⟩, ⟨1, -1, 7⟩]

/-- The values of `p` in `for(p=-bsize; p<=bsize; p++)`. -/
def span (bsize : ℤ) : List ℤ :=
  (List.range (2 * bsize + 1).toNat).map (fun k : ℕ => (k : ℤ) - bsize)

/-- Both loops over the footprint were left by a `break`. -/
def blocked (m : Map) (bsize x y end_x end_y : ℤ) : Bool :=
  (span bsize).any fun p => (span bsize).any fun q =>
    decide (map_get m (x + p) (y + q) > 0) && !decide (x + p = end_x ∧ y + q = end_y)

/-- The loop over the neighbours of the node `current`. -/
def visit (m : Map) (bsize : ℤ) (current : ℕ) : List Off → Context → Option Context
  | [], ctx => some ctx
  | off :: rest, ctx => do
      let pn ← ctx.P.getNode current
      let x := pn.x + off.dx
      let y := pn.y + off.dy
      if ← in_closed ctx x y then visit m bsize current rest ctx
      else if blocked m bsize x y ctx.end_x ctx.end_y then visit m bsize current rest ctx
      else
        let tentative_gscore := pn.gscore + off.distance + off.distance
        match ← find_open ctx x y with
        | some i =>
            let neighbor ← ctx.P.getNode i
            if tentative_gscore < neighbor.gscore then
              let P ← ctx.P.putNode i { neighbor with
                camefrom := current
                gscore := tentative_gscore
                fscore := tentative_gscore + distance x y ctx.end_x ctx.end_y }
              visit m bsize current rest { ctx with P }
            else visit m bsize current rest ctx
        | none =>
            let (ctx, added) ← add_open ctx x y current tentative_gscore
            if added.isNone then some ctx else visit m bsize current rest ctx

/-- The `while` loop and what follows it; `none` also when the rounds given do not suffice. -/
def search (m : Map) (bsize : ℤ) : ℕ → Context → Option (Context × ℕ)
  | 0, _ => none
  | rounds + 1, ctx =>
      if ctx.opened > 0 then do
        let (ctx, current) ← lowest_fscore ctx
        let pn ← ctx.P.getNode current
        if pn.x = ctx.end_x ∧ pn.y = ctx.end_y then some (ctx, current)
        else
          let ctx ← add_closed ctx current
          let ctx ← visit m bsize current OFF ctx
          search m bsize rounds ctx
      else do
        let node ← if ctx.opened > 0 then nearest ctx.P 0 ctx.opened
          else nearest ctx.P (ctx.P.depth - ctx.closed) ctx.P.depth
        some (ctx, node)

def path_finding (m : Map) (depth : ℕ) (start_x start_y end_x end_y bsize : ℤ) :
    Option (Context × ℕ) := do
  let (ctx, _) ← add_open { P := { depth }, end_x, end_y } start_x start_y (-1) 0
  search m bsize (depth + 1) ctx

/-- The number of nodes from `idx` along `camefrom`; `none` also when the rounds do not suffice. -/
def countPath (P : Path) : ℕ → ℕ → ℕ → Option ℕ
  | 0, _, _ => none
  | rounds + 1, idx, n => do
      let pn ← P.getNode idx
      if 0 ≤ pn.camefrom then countPath P rounds pn.camefrom.toNat (n + 1) else some n

/-- The array `pos`, filled from `node` along `camefrom`. -/
def positions (P : Path) : ℕ → ℤ → Option (List (ℤ × ℤ))
  | 0, _ => some []
  | n + 1, node =>
      if node < 0 then none
      else do
        let pn ← P.getNode node.toNat
        let pos ← positions P n pn.camefrom
        some ((pn.x, pn.y) :: pos)

def check_position (m : Map) (x y : ℤ) : Except String Unit :=
  if m.Inside x y then .ok () else .error s!"Invalid position ({x},{y})"

/-- The cells returned, or the text of an error; `none` where the code makes an access it must
not, or does not end. -/
def lpath (m : Map) (start_x start_y end_x end_y bsize : ℤ) (depth : ℕ) :
    Except String (Option (List (ℤ × ℤ))) := do
  check_position m start_x start_y
  check_position m end_x end_y
  return do
    let (ctx, node) ← path_finding m depth start_x start_y end_x end_y bsize
    let n ← countPath ctx.P (depth + 1) node 1
    let pos ← positions ctx.P n node
    some pos.reverse

/-! ## Routes on the map -/

abbrev Cell := ℤ × ℤ

/-- Every cell of the footprint has weight 0 or is the end cell. -/
def Clear (m : Map) (bsize : ℤ) (stop : Cell) (c : Cell) : Prop :=
  ∀ p q, -bsize ≤ p → p ≤ bsize → -bsize ≤ q → q ≤ bsize →
    map_get m (c.1 + p) (c.2 + q) = 0 ∨ (c.1 + p, c.2 + q) = stop

/-- The two cells are 8-neighbours. -/
def Neighbour (a b : Cell) : Prop := a ≠ b ∧ |b.1 - a.1| ≤ 1 ∧ |b.2 - a.2| ≤ 1

/-- 10 for an orthogonal step and 14 for a diagonal one. -/
def stepCost (a b : Cell) : ℤ := if a.1 = b.1 ∨ a.2 = b.2 then 10 else 14

def routeCost : List Cell → ℤ
  | a :: b :: rest => stepCost a b + routeCost (b :: rest)
  | _ => 0

/-- A path of 8-neighbour steps whose cells after the start have a clear footprint. -/
structure Route (m : Map) (bsize : ℤ) (start stop : Cell) (cells : List Cell) : Prop where
  head : cells.head? = some start
  steps : cells.IsChain Neighbour
  clear : ∀ c ∈ cells.tail, Clear m bsize stop c

end GameServer.Pathfinding
