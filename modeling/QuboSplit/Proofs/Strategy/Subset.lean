import QuboSplit.Proofs.Model.Boundary
import QuboSplit.Proofs.Random.Selection
import QuboSplit.Proofs.Strategy.Tiling

/-!
# Random subsets

A problem that is large enough yields a subproblem of just the size asked for, whatever state the
random engine is in (`select_drawn`), and so at each call of a run (`replies_drawn`). One that is
too small is refused before anything is drawn.
-/

namespace QuboSplit.RandomSubset

/-- What the selections from states, one after another, yield. -/
def replies {α : Type} [Scalar α] (c : RandomSubset) :
    Engine → List (State α) → List (Except Fault (Selection α))
  | _, [] => []
  | g, s :: rest => (c.select g s).result :: c.replies (c.select g s).memory rest

/-- The problem has as many variables as asked for, and the best sample a value for each. -/
def Allows {α : Type} [Scalar α] (c : RandomSubset) (s : State α) : Prop :=
  c.size.value ≤ s.problem.model.size ∧
    ∃ best, s.bestSample = .ok best ∧ s.problem.model.Assigned best

/-- The subproblem has as many variables as asked for, different ones and in the order of the
problem. If these are all and the problem holds no `nan`, it has the content of the problem. -/
structure Drawn (c : RandomSubset) (s : State Binary64) (sub : Model Binary64) : Prop where
  size_eq : sub.size = c.size.value
  nodup : sub.labels.Nodup
  sublist : sub.labels.Sublist s.problem.model.labels
  whole : c.size.value = s.problem.model.size → s.problem.model.NanFree →
    sub.sameContent s.problem.model = true

variable {c : RandomSubset} {s : State Binary64} {states : List (State Binary64)}

/-- One selection, from any state of the engine. -/
theorem select_drawn (hs : c.Allows s) (hproblem : s.problem.model.WellFormed) (g : Engine) :
    ∃ sub, (c.select g s).result = .ok (.state (s.withSubproblem sub)) ∧ c.Drawn s sub := by
  obtain ⟨hsize, best, hbest, hassigned⟩ := hs
  obtain ⟨labels, g', hlabels, hlength, hsublist⟩ :=
    Model.exists_randomVariables (Int.natCast_nonneg c.size.value) (Int.ofNat_le.2 hsize) g
  replace hlength : labels.length = c.size.value := Int.ofNat.inj hlength
  have hnodup := hproblem.labels_nodup.sublist hsublist
  have hknown : ∀ v ∈ labels, v ∈ s.problem.model.labels := fun _ hv => hsublist.subset hv
  have hne : labels ≠ [] := by
    rw [← List.length_pos_iff, hlength]
    exact c.size.pos
  obtain ⟨sub, hsub, hinherits⟩ := Model.exists_induced hproblem hne hknown hassigned
  have hsame : sub.labels = labels := hinherits.labels_eq_selection hknown hnodup
  refine ⟨sub, ?_, ?_, hsame ▸ hnodup, hsame ▸ hsublist, fun hall hnan => ?_⟩
  · unfold select
    rw [hlabels]
    exact State.selectAtBest_of_induced hbest hsub none
  · rw [← Model.length_labels, hsame, hlength]
  · -- a sublist of full length is the list itself
    have hwhole : labels = s.problem.model.labels := by
      refine hsublist.eq_of_length ?_
      rw [hlength, hall, Model.length_labels]
    obtain ⟨sub', hsub', hcontent⟩ :=
      Model.exists_induced_whole hproblem hnan hne (fun v => by rw [hwhole]) best
    rwa [Except.ok.inj (hsub.symm.trans hsub')]

/-- The calls of a run, one after another. -/
theorem replies_drawn (hproblems : ∀ s ∈ states, s.problem.model.WellFormed) (g : Engine) :
    List.Forall₂ (fun s reply => c.Allows s →
      ∃ sub, reply = .ok (.state (s.withSubproblem sub)) ∧ c.Drawn s sub)
      states (c.replies g states) := by
  induction states generalizing g with
  | nil => exact .nil
  | cons s rest ih =>
    obtain ⟨hproblem, hrest⟩ := List.forall_mem_cons.1 hproblems
    exact .cons (fun hs => select_drawn hs hproblem g) (ih hrest (c.select g s).memory)

/-- A problem that is too small is refused, and nothing is drawn. -/
theorem select_of_size_lt (h : s.problem.model.size < c.size.value) (g : Engine) :
    c.select g s = ⟨.error .oversized, g, []⟩ := by
  unfold select
  rw [Model.randomVariables_of_size_lt (Int.ofNat_lt.2 h)]

/-- From any state of the engine a model has as many random variables as asked for, different ones
and in its order, and other numbers than those up to its size are refused. So at each call of a run
a problem that is large enough, with a value for each of its variables, yields a subproblem of just
the size asked for, with variables in the order of the problem; asked for all variables it yields
one of the content of the problem, if that holds no `nan`. A problem that is too small is refused,
and the engine stays as it is. -/
theorem selects_as_many_as_asked (c : RandomSubset) (g : Engine) :
    (∀ m : Model Binary64, m.Reachable → ∀ size : Int,
      (0 ≤ size → size ≤ m.size → ∃ labels g', m.randomVariables size g = .ok (labels, g') ∧
        (labels.length : Int) = size ∧ labels.Nodup ∧ labels.Sublist m.labels) ∧
      (size < 0 → m.randomVariables size g = .error .negativeSize) ∧
      (m.size < size → m.randomVariables size g = .error .oversized) ∧
      ∀ fault, m.randomVariables size g = .error fault →
        (size < 0 ∨ m.size < size) ∧ fault.kind = .invalidArgument) ∧
    (∀ states : List (State Binary64), (∀ s ∈ states, s.problem.model.Reachable) →
      List.Forall₂ (fun s reply => c.Allows s →
        ∃ sub, reply = .ok (.state (s.withSubproblem sub)) ∧ c.Drawn s sub)
        states (c.replies g states)) ∧
    ∀ s : State Binary64, s.problem.model.size < c.size.value →
      c.select g s = ⟨.error .oversized, g, []⟩ := by
  refine ⟨fun m hm size => ⟨fun hzero hsize => ?_, fun h => ?_, fun h => ?_,
    fun fault h => Model.randomVariables_eq_error h⟩, fun states hstates => ?_,
    fun s h => select_of_size_lt h g⟩
  · obtain ⟨labels, g', hlabels, hlength, hsublist⟩ := Model.exists_randomVariables hzero hsize g
    exact ⟨labels, g', hlabels, hlength, hm.wellFormed.labels_nodup.sublist hsublist, hsublist⟩
  · exact Model.randomVariables_of_neg h g
  · exact Model.randomVariables_of_size_lt h g
  · exact replies_drawn (fun s hs => (hstates s hs).wellFormed) g

/-- After a call without samples, two of the three variables of a path, in order. Asked for all
three the path itself is selected, and four are refused. -/
theorem selects_as_many_as_asked_path :
    let two : RandomSubset := ⟨⟨2, two_pos⟩⟩
    let all : RandomSubset := ⟨⟨3, three_pos⟩⟩
    let m := latticePath.problem.model
    (∃ fault sub, two.replies (.ofSeed 7) [unsampledPath, latticePath] =
        [.error fault, .ok (.state (latticePath.withSubproblem sub))] ∧
      sub.size = 2 ∧ sub.labels.Nodup ∧ sub.labels.Sublist m.labels) ∧
    (∃ sub, all.replies (.ofSeed 7) [latticePath] =
        [.ok (.state (latticePath.withSubproblem sub))] ∧ sub.sameContent m = true) ∧
    RandomSubset.select ⟨⟨4, four_pos⟩⟩ (.ofSeed 7) latticePath =
      ⟨.error .oversized, .ofSeed 7, []⟩ ∧
    m.randomVariables (-1) (.ofSeed 7) = .error .negativeSize := by
  intro two all m
  have hm : m.Reachable := ⟨.binary, _, rfl⟩
  have hsize : m.size = 3 := by decide +kernel
  have hallows : ∀ c : RandomSubset, c.size.value ≤ 3 → c.Allows latticePath := fun c hc =>
    ⟨hsize ▸ hc, _, bestSample_latticePath, assigned_latticePath⟩
  have hnan : m.NanFree := by
    refine Model.matches_self_iff.1 ((Model.sameContent_iff ?_ ?_).1 (by decide +kernel)) <;>
      exact hm.wellFormed
  refine ⟨?_, ?_, (selects_as_many_as_asked _ _).2.2 latticePath (by decide +kernel),
    ((selects_as_many_as_asked two _).1 m hm (-1)).2.1 (by decide)⟩
  · obtain ⟨-, hruns, -⟩ := selects_as_many_as_asked two (.ofSeed 7)
    obtain ⟨-, hrest⟩ := List.forall₂_cons.1 (hruns [unsampledPath, latticePath]
      (List.forall_mem_cons.2 ⟨hm, List.forall_mem_singleton.2 hm⟩))
    obtain ⟨sub, hsub, hdrawn⟩ := (List.forall₂_cons.1 hrest).1 (hallows two (by decide))
    refine ⟨.emptySampleSet, sub, ?_, hdrawn.size_eq, hdrawn.nodup, hdrawn.sublist⟩
    have hfirst : (two.select (.ofSeed 7) unsampledPath).result = .error .emptySampleSet := by
      decide +kernel
    unfold replies
    rw [hfirst]
    unfold replies
    rw [hsub]
    rfl
  · obtain ⟨-, hruns, -⟩ := selects_as_many_as_asked all (.ofSeed 7)
    obtain ⟨sub, hsub, hdrawn⟩ := (List.forall₂_cons.1
      (hruns [latticePath] (List.forall_mem_singleton.2 hm))).1 (hallows all (le_refl 3))
    refine ⟨sub, ?_, hdrawn.whole hsize.symm hnan⟩
    unfold replies
    rw [hsub]
    rfl

end QuboSplit.RandomSubset
