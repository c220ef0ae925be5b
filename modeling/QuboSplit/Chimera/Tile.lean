import QuboSplit.Chimera.Lattice
import QuboSplit.Model.Basic

/-!
# Tiles

A lattice is cut into tiles of the shape of a smaller lattice. A model whose variables are nodes of
the lattice is divided among the tiles; each tile maps its own nodes to the variables they cover.
-/

namespace QuboSplit

/-- Variables by the node of a target graph that represents them, in increasing order of nodes. -/
abbrev Embedding := List (Int × Label)

namespace Embedding

/-- Gives the node `k` the variable `v`, unless it has one already. -/
def cover (k : Int) (v : Label) : Embedding → Embedding
  | [] => [(k, v)]
  | (j, u) :: rest =>
    if j < k then (j, u) :: cover k v rest
    else if j = k then (j, u) :: rest
    else (k, v) :: (j, u) :: rest

/-- Gives the node `k` the variable `v` in place of any other. -/
def assign (k : Int) (v : Label) : Embedding → Embedding
  | [] => [(k, v)]
  | (j, u) :: rest =>
    if j < k then (j, u) :: assign k v rest
    else if j = k then (k, v) :: rest
    else (k, v) :: (j, u) :: rest

/-- Assigns one after another; the last variable of a node stays. -/
def ofList (entries : List (Int × Label)) : Embedding :=
  entries.foldl (fun e x => e.assign x.1 x.2) []

/-- The variables in the order of their nodes. -/
def labels (e : Embedding) : List Label := e.map Prod.snd

end Embedding

/-- The position of a tile in the grid of tiles. -/
structure Position where
  row : Nat
  column : Nat
  offset : Nat
  deriving DecidableEq

/-- The order of positions by row, then column, then offset. -/
def Position.less (p q : Position) : Bool :=
  p.row < q.row || (p.row = q.row &&
    (p.column < q.column || (p.column = q.column && p.offset < q.offset)))

/-- A tile that covers some variables. -/
structure Tile where
  position : Position
  embedding : Embedding
  deriving DecidableEq

namespace Tile

/-- The tile of a place and the place inside that tile, for tiles of a given shape. -/
def locate (shape : Lattice) (p : Place) : Position × Place :=
  (⟨p.row / shape.rows, p.column / shape.columns, p.offset / shape.shore⟩,
    ⟨p.row % shape.rows, p.column % shape.columns, p.side, p.offset % shape.shore⟩)

/-- Lets the tile at a position cover one more variable; tiles stay in increasing order. -/
def insert (position : Position) (k : Int) (v : Label) : List Tile → List Tile
  | [] => [⟨position, [(k, v)]⟩]
  | t :: rest =>
    if t.position.less position then t :: insert position k v rest
    else if t.position = position then { t with embedding := t.embedding.cover k v } :: rest
    else ⟨position, [(k, v)]⟩ :: t :: rest

end Tile

namespace Lattice

/-- The node that a label names. -/
def node (l : Lattice) (v : Label) : Except Fault Nat :=
  match v with
  | .number (.ofNat n) => if n < l.nodeCount then .ok n else .error (.notLatticeNode v)
  | _ => .error (.notLatticeNode v)

/-- Lets the tile of the node named `v` cover it. -/
def insertNode (l shape : Lattice) (tiles : List Tile) (v : Label) : Except Fault (List Tile) := do
  let n ← l.node v
  let (position, inner) := Tile.locate shape (l.place n)
  return Tile.insert position (shape.index inner) v tiles

/-- The tiles of the given shape that cover variables, in increasing order of positions. Every
variable must name a node, and no shore of a tile may be larger than one of the lattice. -/
def tiles (l shape : Lattice) (labels : List Label) : Except Fault (List Tile) :=
  if l.shore < shape.shore then .error .tileTooLarge
  else labels.foldlM (l.insertNode shape) []

end Lattice

end QuboSplit
