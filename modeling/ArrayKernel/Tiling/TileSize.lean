import ArrayKernel.Tiling.Measure

/-!
# Sizes of tiles

A tile is chosen so that its rows do not fall on the same lines of a cache. Of the tiles of several arrays the
largest common part is taken.
-/

namespace ArrayKernel.Tiling

open ArrayKernel.Tiling.Measure

variable {α : Type} [Measure α]

/-- How many columns of a size fit into a cache of `cache` elements, when rows are `row` elements apart. -/
def rowsOf (column cache row : α) : Except Fault α := do
  let perSet ← div cache row
  let rest ← mod cache row
  let difference ← sub row rest
  let perRow ← div row difference
  let gap ← mod row difference
  if same column row then return perSet
  if same column rest && below difference column then add perSet (ofInt 1)
  else
    let inDifference ← floor (← div difference column)
    let inGap ← floor (← div gap column)
    let wrapped ← mul (← mul inDifference perRow) perSet
    let besides ← mul inGap perSet
    let again ← mul inDifference (← floor (← div rest difference))
    truncate (← add (← add (← add wrapped besides) again) inGap)

/-- The tiles tried after one of size `column`, whose remainder is `rest`. A remainder is halved in every
second step, so twice the number of binary digits bounds the number of steps; running out of them is a fault. -/
def furtherTiles (cache row : α) : Nat → α → α → Except Fault (List (α × α))
  | 0, _, _ => .error .exhausted
  | steps + 1, column, rest =>
    if below (ofInt 4) column && !same rest (ofInt 0) then do
      let next ← mod column rest
      let rows ← rowsOf rest cache row
      return (rows, rest) :: (← furtherTiles cache row steps rest next)
    else .ok []

structure Footprint where
  strides : List Int
  itemsize : Int

def largest? : List Int → Option Int
  | [] => none
  | n :: rest => some (rest.foldl max n)

/-- The tiles tried for an array, rows first; for an array stored by columns the other way round. -/
def candidates (cache : α) (f : Footprint) : Except Fault (List (α × α)) := do
  match largest? f.strides with
  | none => throw (.badValue none)
  | some widest =>
    let row : α ← div (ofInt widest) (ofInt f.itemsize)
    let rows ← div cache row
    let rest ← mod cache row
    let tiles := (rows, row) :: (← furtherTiles cache row (2 * widest.natAbs.log2 + 8) row rest)
    match f.strides with
    | first :: second :: _ => return if first < second then tiles.map fun (x, y) => (y, x) else tiles
    | _ => throw .outOfRange

def least (a b : α) : α := if below b a then b else a

/-- The common part of a tile with the candidate it shares most with. `last` is the last common part found
before; it stays if no candidate shares anything. -/
def shareWith (tile : α × α) (area : α) (last : Option (α × α)) :
    List (α × α) → Except Fault (Option (α × α))
  | [] => .ok last
  | c :: rest => do
    let x := least tile.1 c.1
    let y := least tile.2 c.2
    let common ← mul x y
    if below area common then shareWith tile common (some (x, y)) rest
    else shareWith tile area last rest

def shareWithAll (tile : α × α) (last : Option (α × α)) :
    List (List (α × α)) → Except Fault ((α × α) × Option (α × α))
  | [] => .ok (tile, last)
  | tiles :: rest => do
    match ← shareWith tile (ofInt 0) last tiles with
    | none => throw .unassigned
    | some common => shareWithAll common (some common) rest

def largestOf (others : List (List (α × α))) (area : α) (best last : Option (α × α)) :
    List (α × α) → Except Fault (Option (α × α))
  | [] => .ok best
  | tile :: rest => do
    let (common, last) ← shareWithAll tile last others
    let size ← mul common.1 common.2
    if below area size then largestOf others size (some common) last rest
    else largestOf others area best last rest

def largestTile : List (List (α × α)) → Except Fault (Option (α × α))
  | [] => .error .outOfRange
  | first :: others => largestOf others (ofInt 0) none none first

/-! ## Cache lines -/

def insertDistinct (x : α) (xs : List α) : List α := if xs.any (same x) then xs else x :: xs

def occupied (row cache : α) (rows columns : List Int) : Except Fault (List α) := do
  let mut found : List α := []
  for i in rows do
    for j in columns do
      let place ← mod (← add (← mul (ofInt i) row) (ofInt j)) cache
      found := insertDistinct place found
  return found

end ArrayKernel.Tiling
