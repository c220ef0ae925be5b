import QuboSplit.Model.Energy

/-!
# Sample sets

A sample set holds samples of one vartype with their energies, the least energy first and equal
energies in the order in which they were given.
-/

namespace QuboSplit

/-- A sample with its energy. -/
structure Entry (α : Type) where
  sample : Sample α
  energy : α
  deriving DecidableEq

namespace Entry

variable {α : Type} [Scalar α]

/-- A variable whose value is not one of the vartype. -/
def foreign? (vartype : Vartype) (e : Entry α) : Option Label :=
  (e.sample.entries.find? fun x => !vartype.admits x.2).map Prod.fst

/-- The order of entries by energy. -/
def less (a b : Entry α) : Bool := Scalar.less a.energy b.energy

end Entry

/-- Samples of one vartype by increasing energy. -/
structure SampleSet (α : Type) [Scalar α] where
  vartype : Vartype
  entries : List (Entry α)
  admitted : ∀ e ∈ entries, e.foreign? vartype = none
  deriving DecidableEq

namespace SampleSet

variable {α : Type} [Scalar α]

/-- The set of the given entries, all of whose values must be of the vartype. -/
def ofEntries (vartype : Vartype) (entries : List (Entry α)) : Except Fault (SampleSet α) :=
  match h : entries.findSome? (Entry.foreign? vartype) with
  | some v => .error (.foreignValue v)
  | none =>
    .ok ⟨vartype, stableSort Entry.less entries, fun e he =>
      List.findSome?_eq_none_iff.1 h e ((stableSort_perm Entry.less entries).mem_iff.1 he)⟩

/-- The set of the given samples with their energies in a model. -/
def ofSamples (m : Model α) (samples : List (Sample α)) : Except Fault (SampleSet α) := do
  let entries ← samples.mapM fun s => do
    let energy ← m.energy s
    return Entry.mk s energy
  ofEntries m.vartype entries

/-- The entry of least energy. -/
def first (set : SampleSet α) : Except Fault (Entry α) :=
  match set.entries with
  | [] => .error .emptySampleSet
  | e :: _ => .ok e

/-- The set with every value converted to another vartype; energies stay. -/
def changeVartype (set : SampleSet α) (vartype : Vartype) : Except Fault (SampleSet α) :=
  if vartype = set.vartype then .ok set
  else
    ofEntries vartype (set.entries.map fun e =>
      { e with sample := e.sample.map (Vartype.convert set.vartype vartype) })

end SampleSet

end QuboSplit
