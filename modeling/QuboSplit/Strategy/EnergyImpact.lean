import QuboSplit.Model.Content
import QuboSplit.Model.Fingerprint
import QuboSplit.Rolling
import QuboSplit.Strategy.Step
import QuboSplit.Traversal.Basic

/-!
# Selection by energy impact

This strategy ranks the variables of a problem by the energy that the best sample loses when each is
flipped alone, and selects the first of them along a traversal. The ranking is kept as long as the
problem and the best sample stay the same.

With rolling, later selections pass over the variables that earlier ones exposed. Once these reach
a share of the problem the strategy rewinds, either silently or by ending the stream once.
-/

namespace QuboSplit

/-- The settings of the strategy. -/
structure EnergyImpact (α : Type) [Scalar α] where
  size : Size
  minGain : Option α
  rolling : Bool
  history : History α
  silentRewind : Bool
  traversal : Traversal

namespace EnergyImpact

def name : String := "EnergyImpactDecomposer"

variable {α : Type} [Scalar α]

/-- The given settings. The share of the history is checked before the size. -/
def ofSettings (size : Int) (minGain : Option α) (rolling : Bool) (share : α)
    (silentRewind : Bool) (traversal : Traversal) : Except Fault (EnergyImpact α) := do
  let history ← History.ofShare share
  let size ← Size.ofInt size
  return ⟨size, minGain, rolling, history, silentRewind, traversal⟩

/-- The given settings with the traversal by its written form, which is checked first. -/
def ofNamedSettings (size : Int) (minGain : Option α) (rolling : Bool) (share : α)
    (silentRewind : Bool) (traversal : String) : Except Fault (EnergyImpact α) := do
  let traversal ← Traversal.ofText traversal
  ofSettings size minGain rolling share silentRewind traversal

def boolText (b : Bool) : String := if b then "true" else "false"

/-- The settings in written form. -/
def text (c : EnergyImpact α) : String :=
  name ++ "(size=" ++ toString c.size.value ++
    ", min_gain=" ++ (c.minGain.map Scalar.text).getD "none" ++
    ", rolling=" ++ boolText c.rolling ++
    ", rolling_history=" ++ Scalar.text c.history.share ++
    ", silent_rewind=" ++ boolText c.silentRewind ++
    ", traversal=" ++ c.traversal.text ++ ")"

/-! ### Memory -/

/-- What the strategy keeps between selections: the problem over which it rolls with its
fingerprint, the sample and the ranking computed last, and the variables exposed. -/
structure Memory (α : Type) where
  problem : Option (Problem α) := none
  fingerprint : UInt64 := 0
  sample : Option (Sample α) := none
  ranking : Option (Ranking α) := none
  unrolled : Rolling := .fresh
  deriving DecidableEq

/-- The memory before the first selection. -/
def Memory.fresh : Memory α := {}

variable [DecidableEq α]

namespace Memory

/-- The problem is the one over which the strategy rolls: the same object, or one of the same
content. Different fingerprints save the comparison. -/
def sameProblem (mem : Memory α) (p : Problem α) : Bool :=
  match mem.problem with
  | none => false
  | some q =>
    q = p || (mem.fingerprint == p.model.fingerprint .standard && q.model.sameContent p.model)

/-- The sample agrees with the one used last. -/
def sameSample (mem : Memory α) (s : Sample α) : Bool := mem.sample.any (·.agrees s)

/-- Starts to roll over a problem afresh. -/
def rewind (mem : Memory α) (p : Problem α) : Memory α :=
  { mem with
    unrolled := .fresh
    problem := some p
    fingerprint := p.model.fingerprint .standard }

/-- The memory once the ranking fits a problem and a sample. A new problem rewinds the rolling.
Nothing is replaced if the ranking fails. -/
def refresh (mem : Memory α) (minGain : Option α) (p : Problem α) (s : Sample α) :
    Except Fault (Memory α) := do
  let ranking ←
    match mem.ranking with
    | some ranking =>
      if mem.sameProblem p && mem.sameSample s then pure ranking else p.model.ranking s minGain
    | none => p.model.ranking s minGain
  let rolled := if mem.sameProblem p then mem else mem.rewind p
  return { rolled with
    ranking := some ranking
    sample := if mem.sameSample s then mem.sample else some s }

end Memory

/-! ### Selecting -/

/-- Selects the next variables along the ranking, exposes them, and induces their subproblem. -/
def choose (c : EnergyImpact α) (mem : Memory α) (s : State α) (sample : Sample α) :
    Step (Memory α) (Selection α) :=
  let size := min c.size.value s.problem.model.size
  match s.problem.model.traverse c.traversal (mem.ranking.getD []) mem.unrolled.visited size with
  | .error fault => ⟨.error fault, mem, []⟩
  | .ok labels =>
    { result := (s.select labels sample).map .state
      memory :=
        if c.rolling then { mem with unrolled := mem.unrolled.expose labels } else mem
      events := [.selected name labels] }

/-- Reports that the size asked for is more than the problem has. -/
def adapted (c : EnergyImpact α) (s : State α) : List Event :=
  let total := s.problem.model.size
  if total < c.size.value then
    [⟨.sizeAdapted, name, total,
      "subproblem size greater than the problem size, adapting to problem size"⟩]
  else []

/-- Reports a rewind. -/
def rewound (mem : Memory α) : Event :=
  ⟨.rollingRewind, name, mem.unrolled.size, "rolling reset at unrolled history size"⟩

/-- Rewinds an exhausted rolling and then selects, or ends the stream if rewinds are not silent. -/
def advance (c : EnergyImpact α) (mem : Memory α) (s : State α) (sample : Sample α) :
    Step (Memory α) (Selection α) :=
  if c.rolling && mem.unrolled.exhausted c.history s.problem.model.size then
    let next := mem.rewind s.problem
    if c.silentRewind then (c.choose next s sample).after [rewound mem]
    else ⟨.ok .endOfStream, next, [rewound mem, ⟨.endOfStream, name, 0, ""⟩]⟩
  else c.choose mem s sample

/-- One selection. -/
def select (c : EnergyImpact α) (mem : Memory α) (s : State α) :
    Step (Memory α) (Selection α) :=
  match s.bestSample with
  | .error fault => ⟨.error fault, mem, []⟩
  | .ok sample =>
    match mem.refresh c.minGain s.problem sample with
    | .error fault => ⟨.error fault, mem, c.adapted s⟩
    | .ok mem => (c.advance mem s sample).after (c.adapted s)

end EnergyImpact

end QuboSplit
