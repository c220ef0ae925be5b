import QuboSplit.Fault

/-!
# Chimera lattices

A Chimera lattice is a grid of cells, each a complete bipartite graph between two shores of equal
size. Nodes of the first shore are linked to the same nodes of the cells above and below, nodes of
the second shore to those left and right. Nodes are numbered by row, column, side and offset.

Counts and indices of nodes are unbounded here. A shape with more nodes than the machine's type for
indices can count is outside the model.
-/

namespace QuboSplit

/-- The shape of a Chimera lattice. -/
structure Lattice where
  rows : Nat
  columns : Nat
  shore : Nat
  rows_pos : 0 < rows
  columns_pos : 0 < columns
  shore_pos : 0 < shore
  deriving DecidableEq

/-- The place of a node: a cell, one of its two sides, and an offset in that shore. -/
structure Place where
  row : Nat
  column : Nat
  side : Nat
  offset : Nat
  deriving DecidableEq

namespace Lattice

/-- The lattice of the given shape. A negative number of columns stands for as many as rows. -/
def ofShape (rows : Int := 1) (columns : Int := -1) (shore : Int := 4) : Except Fault Lattice :=
  let columns := if columns < 0 then rows else columns
  if hr : rows ≤ 0 then .error .rowsNotPositive
  else if hc : columns ≤ 0 then .error .columnsNotPositive
  else if hs : shore ≤ 0 then .error .shoreNotPositive
  else .ok ⟨rows.toNat, columns.toNat, shore.toNat, by omega, by omega, by omega⟩

def text (l : Lattice) : String :=
  "ChimeraLattice(" ++ toString l.rows ++ ", " ++ toString l.columns ++ ", " ++
    toString l.shore ++ ")"

/-! ### Nodes -/

/-- The number of nodes. -/
def nodeCount (l : Lattice) : Nat := 2 * l.rows * l.columns * l.shore

/-- The place lies in the lattice. -/
def Contains (l : Lattice) (p : Place) : Prop :=
  p.row < l.rows ∧ p.column < l.columns ∧ p.side < 2 ∧ p.offset < l.shore

instance (l : Lattice) (p : Place) : Decidable (l.Contains p) := by
  unfold Contains; infer_instance

/-- The number of the node at a place. -/
def index (l : Lattice) (p : Place) : Nat :=
  ((p.row * l.columns + p.column) * 2 + p.side) * l.shore + p.offset

/-- The place of the node of a number. -/
def place (l : Lattice) (index : Nat) : Place where
  row := index / l.shore / 2 / l.columns
  column := index / l.shore / 2 % l.columns
  side := index / l.shore % 2
  offset := index % l.shore

/-! ### Edges -/

/-- The number of edges: within cells, between rows and between columns. -/
def edgeCount (l : Lattice) : Nat :=
  l.rows * l.columns * l.shore * l.shore + (l.rows - 1) * l.columns * l.shore +
    l.rows * (l.columns - 1) * l.shore

/-- The greater nodes to which the node at a place is linked, in increasing order. -/
def greater (l : Lattice) (p : Place) : List Place :=
  if p.side = 0 then
    (List.range l.shore).map (fun offset => { p with side := 1, offset := offset }) ++
      (if p.row + 1 < l.rows then [{ p with row := p.row + 1 }] else [])
  else if p.column + 1 < l.columns then [{ p with column := p.column + 1 }]
  else []

/-- The edges as pairs of increasing node numbers, in lexicographic order. -/
def edges (l : Lattice) : List (Nat × Nat) :=
  (List.range l.nodeCount).flatMap fun a => (l.greater (l.place a)).map fun p => (a, l.index p)

end Lattice

end QuboSplit
