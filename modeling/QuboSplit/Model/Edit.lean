import QuboSplit.Model.Store

/-!
# Edits

The steps by which a model is built, as data. Models are built in their containers (`Model.build`);
the same edits act on the models themselves.
-/

namespace QuboSplit

/-- One step of building a model. -/
inductive Edit (α : Type) where
  | setOffset (bias : α)
  | addVariable (v : Label) (bias : α)
  | setLinear (v : Label) (bias : α)
  | addLinear (v : Label) (bias : α)
  | setQuadratic (u v : Label) (bias : α)
  | addQuadratic (u v : Label) (bias : α)
  deriving DecidableEq

namespace Store

variable {α : Type} [Scalar α]

/-- Carries out one edit in the containers. -/
def apply (s : Store α) : Edit α → Except Fault (Store α)
  | .setOffset bias => .ok (s.setOffset bias)
  | .addVariable v bias => .ok (s.addVariable v bias).1
  | .setLinear v bias => .ok (s.setLinear v bias)
  | .addLinear v bias => .ok (s.addLinear v bias)
  | .setQuadratic u v bias => s.setQuadratic u v bias
  | .addQuadratic u v bias => s.addQuadratic u v bias

/-- Carries out one edit, or leaves the containers alone if it is refused. -/
def attempt (s : Store α) (edit : Edit α) : Store α :=
  match s.apply edit with
  | .ok s => s
  | .error _ => s

/-- The containers left by a list of edits, refused ones having no effect. -/
def ofEdits (vartype : Vartype) (edits : List (Edit α)) : Store α :=
  edits.foldl attempt (empty vartype)

end Store

namespace Model

variable {α : Type} [Scalar α]

/-- Carries out one edit. Only a quadratic bias of a variable with itself is refused. -/
def apply (m : Model α) : Edit α → Except Fault (Model α)
  | .setOffset bias => .ok (m.setOffset bias)
  | .addVariable v bias => .ok (m.addVariable v bias)
  | .setLinear v bias => .ok (m.setLinear v bias)
  | .addLinear v bias => .ok (m.addLinear v bias)
  | .setQuadratic u v bias => m.setQuadratic u v bias
  | .addQuadratic u v bias => m.addQuadratic u v bias

/-- Carries out one edit, or leaves the model alone if it is refused. -/
def attempt (m : Model α) (edit : Edit α) : Model α :=
  match m.apply edit with
  | .ok m => m
  | .error _ => m

/-- The model built by a list of edits, none of which may be refused. -/
def build (vartype : Vartype) (edits : List (Edit α)) : Except Fault (Model α) :=
  (edits.foldlM Store.apply (.empty vartype)).map Store.model

/-- The model left by a list of edits, refused ones having no effect. -/
def ofEdits (vartype : Vartype) (edits : List (Edit α)) : Model α :=
  edits.foldl attempt (empty vartype)

end Model

end QuboSplit
