import QuboSplit.Strategy.Step

/-!
# Tiling a lattice

This strategy selects the tiles of a problem on a Chimera lattice one after another, each with the
embedding of its variables in the tile. The tiles are those of the first problem it sees. After the
last one it starts again or ends the stream.
-/

namespace QuboSplit

/-- The settings of the strategy. -/
structure Tiling where
  tile : Lattice
  loop : Bool
  lattice : Lattice
  tile_fits : tile.shore ≤ lattice.shore

namespace Tiling

def name : String := "TilingChimeraDecomposer"

/-- The given settings. The shore of a tile must not be larger than that of the lattice. -/
def ofSettings (tile : Lattice) (loop : Bool) (lattice : Lattice) : Except Fault Tiling :=
  if h : tile.shore ≤ lattice.shore then .ok ⟨tile, loop, lattice, h⟩ else .error .tileTooLarge

def text (c : Tiling) : String :=
  name ++ "(tile=" ++ c.tile.text ++ ", loop=" ++ (if c.loop then "true" else "false") ++
    ", lattice=" ++ c.lattice.text ++ ")"

/-- The tiles, once they are known, and the number of the next one. -/
structure Memory where
  tiles : Option (List Tile) := none
  next : Nat := 0
  deriving DecidableEq

/-- The memory before the first problem. -/
def Memory.fresh : Memory := {}

/-- The number of tiles, or minus one as long as they are not known. -/
def Memory.tileCount (mem : Memory) : Int := (mem.tiles.map fun ts => (ts.length : Int)).getD (-1)

variable {α : Type} [Scalar α]

/-- Finds the tiles of the problem unless they are known. -/
def setup (c : Tiling) (mem : Memory) (s : State α) : Step Memory Unit :=
  match mem.tiles with
  | some _ => ⟨.ok (), mem, []⟩
  | none =>
    match c.lattice.tiles c.tile s.problem.model.labels with
    | .error fault => ⟨.error fault, mem, []⟩
    | .ok tiles => ⟨.ok (), ⟨some tiles, 0⟩, [⟨.tilesGenerated, name, tiles.length, ""⟩]⟩

/-- The tile to select and its number: the next one, or the first after the last one. -/
def upcoming (c : Tiling) (tiles : List Tile) (next : Nat) : Option (Nat × Tile) :=
  match tiles[next]? with
  | some tile => some (next, tile)
  | none => if c.loop then tiles.head?.map fun tile => (0, tile) else none

/-- Selects among known tiles. The position moves on even if the selection fails. -/
def selectTile (c : Tiling) (mem : Memory) (tiles : List Tile) (s : State α) :
    Step Memory (Selection α) :=
  match c.upcoming tiles mem.next with
  | none =>
    ⟨.ok .endOfStream, mem,
      [⟨.endOfStream, name, tiles.length, "all tiles have been selected"⟩]⟩
  | some (number, tile) =>
    let labels := tile.embedding.labels
    { result := s.selectAtBest labels (some tile.embedding)
      memory := { mem with next := number + 1 }
      events := [.selected name labels] }

/-- One selection. -/
def select (c : Tiling) (mem : Memory) (s : State α) : Step Memory (Selection α) :=
  let prepared := c.setup mem s
  match prepared.result with
  | .error fault => ⟨.error fault, prepared.memory, prepared.events⟩
  | .ok () =>
    (c.selectTile prepared.memory (prepared.memory.tiles.getD []) s).after prepared.events

end Tiling

end QuboSplit
