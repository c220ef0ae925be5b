import QuboSplit.Model.Basic

/-!
# Fingerprints

A fingerprint is a 64-bit digest of a model that does not depend on the order in which the model was
built: digests of variables and of interactions are summed. It is computed from a digest of labels
and one of biases.
-/

namespace QuboSplit

/-- The digests from which a fingerprint is made. -/
structure Digests (α : Type) where
  label : Label → UInt64
  bias : α → UInt64

namespace Digests

/-- Stirs a value into a seed. -/
def mix (seed value : UInt64) : UInt64 :=
  let left : UInt64 := seed <<< 6
  let right : UInt64 := seed >>> 2
  seed ^^^ (value + 0x9e3779b97f4a7c15 + left + right)

/-- The sum of a list, modulo `2 ^ 64`. -/
def total (xs : List UInt64) : UInt64 := xs.foldr (· + ·) 0

/-- A digest of a label. -/
def ofLabel : Label → UInt64
  | .number value => mix 1 (.ofInt value)
  | .name text => text.toList.foldl (fun seed c => mix seed (.ofNat c.toNat)) 2

/-- The digests in use. -/
def standard {α : Type} [Scalar α] : Digests α := ⟨ofLabel, Scalar.digest⟩

end Digests

namespace Model

open Digests (mix total)

variable {α : Type}

/-- The digest of the variable of an index. -/
def labelDigest (d : Digests α) (m : Model α) (i : Nat) : UInt64 :=
  ((m.label? i).map d.label).getD 0

/-- The sum of the digests of the variables with their linear biases. -/
def linearDigest (d : Digests α) (m : Model α) : UInt64 :=
  total (m.nodes.map fun n => mix (d.label n.label) (d.bias n.linear))

/-- The sum of the digests of the interactions with their biases, each taken once. -/
def quadraticDigest (d : Digests α) (m : Model α) : UInt64 :=
  total (m.nodes.map fun n =>
    total ((n.row.take n.smaller).map fun c =>
      mix (d.label n.label ^^^ m.labelDigest d c.1) (d.bias c.2)))

/-- The digest of a vartype. -/
def vartypeDigest : Vartype → UInt64
  | .binary => 0
  | .spin => 1

/-- The fingerprint of a model. -/
def fingerprint (d : Digests α) (m : Model α) : UInt64 :=
  mix (mix (mix (vartypeDigest m.vartype) (d.bias m.offset)) (m.linearDigest d))
    (m.quadraticDigest d)

end Model

end QuboSplit
