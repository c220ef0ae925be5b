import QuboSplit.Model.Basic

/-!
# Equality of content

Two models have the same content if they have the same vartype, offset, variables, interactions and
biases, in whatever order these were added. Numbers are compared numerically.
-/

namespace QuboSplit.Model

open Scalar (equal)

variable {α : Type} [Scalar α]

/-- The node of a variable. -/
def node? (m : Model α) (v : Label) : Option (Node α) := (m.index? v).bind (m.nodes[·]?)

/-- Every coupling of the row of `m` has an equal one, to the same variable, in the row of `other`.
-/
def sameRow (m other : Model α) (row otherRow : Row α) : Bool :=
  row.length == otherRow.length &&
    row.all fun c =>
      (((m.label? c.1).bind other.index?).bind otherRow.bias?).any (equal c.2)

/-- The variable has an equal linear bias and row in `other`. -/
def sameNode (m other : Model α) (node : Node α) : Bool :=
  (other.node? node.label).any fun twin =>
    equal node.linear twin.linear && m.sameRow other node.row twin.row

/-- The models have the same content. -/
def sameContent (m other : Model α) : Bool :=
  m.vartype == other.vartype && equal m.offset other.offset &&
    m.size == other.size && m.interactions == other.interactions &&
    m.nodes.all (m.sameNode other)

end QuboSplit.Model
