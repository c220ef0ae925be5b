import QuboSplit.Label
import QuboSplit.Number.Scalar
import QuboSplit.StableSort

/-!
# Samples

A sample gives values to some variables. It is a list of labelled values in which no label appears
twice; the order of the list carries no meaning.
-/

namespace QuboSplit

/-- The labelled values with the value at `v` set to `x`. -/
def assign {α : Type} (v : Label) (x : α) : List (Label × α) → List (Label × α)
  | [] => [(v, x)]
  | (u, y) :: rest => if u = v then (v, x) :: rest else (u, y) :: assign v x rest

theorem keys_assign {α : Type} (v : Label) (x : α) (entries : List (Label × α)) :
    (assign v x entries).map Prod.fst =
      if v ∈ entries.map Prod.fst then entries.map Prod.fst else entries.map Prod.fst ++ [v] := by
  induction entries with
  | nil => rfl
  | cons e rest ih =>
    obtain ⟨u, y⟩ := e
    unfold assign
    by_cases h : u = v
    · simp [h]
    · rw [if_neg h, List.map_cons, ih]
      have hv : v ≠ u := Ne.symm h
      by_cases hm : v ∈ rest.map Prod.fst <;> simp [hm, hv]

/-- Values of some variables. -/
structure Sample (α : Type) where
  entries : List (Label × α)
  nodup : (entries.map Prod.fst).Nodup
  deriving DecidableEq

namespace Sample

variable {α : Type}

/-- The sample that gives no values. -/
def empty : Sample α := ⟨[], List.nodup_nil⟩

/-- The value of a variable, if it has one. -/
def get? (s : Sample α) (v : Label) : Option α := s.entries.lookup v

/-- Gives `v` the value `x`. -/
def insert (s : Sample α) (v : Label) (x : α) : Sample α where
  entries := assign v x s.entries
  nodup := by
    rw [keys_assign]
    split
    · exact s.nodup
    · next h =>
      refine List.nodup_append.2 ⟨s.nodup, by simp, ?_⟩
      intro a ha b hb
      rw [List.mem_singleton] at hb
      exact fun e => h (hb ▸ e ▸ ha)

/-- Assigns one after another; the last value of a label stays. -/
def ofList (entries : List (Label × α)) : Sample α :=
  entries.foldl (fun s e => s.insert e.1 e.2) empty

/-- Applies a function to every value. -/
def map (f : α → α) (s : Sample α) : Sample α where
  entries := s.entries.map fun e => (e.1, f e.2)
  nodup := by rw [List.map_map]; exact s.nodup

/-- The labelled values in increasing order of labels. -/
def toSortedList (s : Sample α) : List (Label × α) :=
  stableSort (fun a b => a.1.less b.1) s.entries

/-- Both samples give values to the same variables, and numerically equal ones. -/
def agrees [Scalar α] (s t : Sample α) : Bool :=
  s.entries.length == t.entries.length &&
    s.entries.all fun e => (t.get? e.1).any (Scalar.equal e.2)

end Sample

end QuboSplit
