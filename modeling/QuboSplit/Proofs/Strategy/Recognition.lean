import QuboSplit.Proofs.Model.Fingerprint
import QuboSplit.Proofs.Strategy.History

/-!
# Which problem is taken for the same

A strategy compares objects first, then fingerprints, then contents. It keeps the fingerprint of the
problem over which it rolls, and that problem comes from an earlier call (`Memory.Recalls`, kept by
every call). Equal models have equal fingerprints, and a finite model equals itself, so for finite
models all this comes to comparing contents (`Memory.Recalls.sameProblem_iff`).
-/

namespace QuboSplit

open Scalar (equal Equals)

/-! ### Finite models -/

theorem Floating.equal_self {f : Format} {x : Floating f} (h : x.isFinite = true) :
    x.equal x = true := by
  cases x with
  | finite => simp [equal]
  | _ => cases h

namespace Model

variable {m : Model Binary64}

theorem isFinite_iff : m.isFinite = true ↔ m.offset.isFinite = true ∧
    ∀ n ∈ m.nodes, n.linear.isFinite = true ∧ ∀ c ∈ n.row, c.2.isFinite = true := by
  unfold isFinite
  simp only [Bool.and_eq_true, List.all_eq_true]

/-- A finite model has the content of itself. -/
theorem matches_self (h : m.isFinite = true) : m.Matches m := by
  obtain ⟨hoffset, hnodes⟩ := isFinite_iff.1 h
  refine ⟨rfl, Floating.equal_self hoffset, fun v => ?_, fun u v => ?_⟩
  · cases hb : m.linear? v with
    | none => exact .none
    | some b =>
      obtain ⟨i, -, hi⟩ := Option.bind_eq_some_iff.1 hb
      obtain ⟨n, hn, rfl⟩ := Option.map_eq_some_iff.1 hi
      exact .some (Floating.equal_self (hnodes n (List.mem_of_getElem? hn)).1)
  · cases hb : m.coupling? u v with
    | none => exact .none
    | some b =>
      obtain ⟨i, -, hi⟩ := Option.bind_eq_some_iff.1 hb
      obtain ⟨j, -, hj⟩ := Option.bind_eq_some_iff.1 hi
      have hmem := Row.mem_of_bias?_eq_some hj
      have hlt : i < m.size := by
        by_contra hle
        rw [row_of_size_le (Nat.le_of_not_lt hle)] at hmem
        simp at hmem
      obtain ⟨n, hn⟩ := exists_node hlt
      rw [row_of_node hn] at hmem
      exact .some (Floating.equal_self ((hnodes n (List.mem_of_getElem? hn)).2 _ hmem))

end Model

/-! ### The problem that is remembered -/

namespace EnergyImpact

section

variable {α : Type} [Scalar α] {c : EnergyImpact α} {mem : Memory α} {s : State α}
  {states : List (State α)}

/-- The problem that is remembered came with one of the states, and its fingerprint is kept. -/
structure Memory.Recalls (states : List (State α)) (mem : Memory α) : Prop where
  seen : ∀ p, mem.problem = some p → ∃ t ∈ states, t.problem = p
  fingerprint_eq : ∀ p, mem.problem = some p → mem.fingerprint = p.model.fingerprint .standard

theorem Memory.recalls_fresh : (Memory.fresh : Memory α).Recalls [] := ⟨nofun, nofun⟩

/-- A rewound memory remembers the problem at hand. -/
theorem Memory.recalls_rewind (mem : Memory α) (states : List (State α)) (s : State α) :
    (mem.rewind s.problem).Recalls (states ++ [s]) := by
  constructor
  · rintro p ⟨⟩
    exact ⟨s, by simp, rfl⟩
  · rintro p ⟨⟩
    rfl

/-- Only problem and fingerprint matter. -/
theorem Memory.Recalls.congr (h : mem.Recalls states) {mem' : Memory α}
    (hproblem : mem'.problem = mem.problem) (hfingerprint : mem'.fingerprint = mem.fingerprint) :
    mem'.Recalls states :=
  ⟨fun p hp => h.seen p (hproblem ▸ hp),
    fun p hp => hfingerprint.trans (h.fingerprint_eq p (hproblem ▸ hp))⟩

theorem Memory.Recalls.append (h : mem.Recalls states) (s : State α) :
    mem.Recalls (states ++ [s]) :=
  ⟨fun p hp => (h.seen p hp).imp fun _ ht => ⟨List.mem_append_left _ ht.1, ht.2⟩,
    h.fingerprint_eq⟩

variable [DecidableEq α]

theorem Memory.Recalls.withRanking (h : mem.Recalls states) (best : Sample α)
    (ranking : Ranking α) :
    (mem.withRanking s.problem best ranking).Recalls (states ++ [s]) := by
  by_cases hsame : mem.sameProblem s.problem = true
  · refine (h.append s).congr ?_ ?_ <;> unfold Memory.withRanking <;> rw [if_pos hsame]
  · refine (mem.recalls_rewind states s).congr ?_ ?_ <;> unfold Memory.withRanking <;>
      rw [if_neg hsame]

/-- Every call remembers a problem that it or an earlier one was given. -/
theorem Memory.Recalls.select (h : mem.Recalls states) (c : EnergyImpact α) (s : State α) :
    (c.select mem s).memory.Recalls (states ++ [s]) := by
  rcases select_memory c mem s with
    hsame | ⟨best, ready, turned, unrolled, -, hready, hturned, hmemory, -⟩
  · rw [hsame]
    exact h.append s
  rw [hmemory]
  rcases hturned with rfl | ⟨rfl, -⟩
  · obtain ⟨ranking, -, rfl⟩ := of_refresh_eq_ok hready
    exact (h.withRanking best ranking).congr rfl rfl
  · exact (ready.recalls_rewind states s).congr rfl rfl

theorem recalls_memoryAfter (c : EnergyImpact α) (states : List (State α)) :
    (c.memoryAfter states).Recalls states := by
  induction states using List.reverseRecOn with
  | nil => exact Memory.recalls_fresh
  | append_singleton states s ih =>
    rw [memoryAfter_append]
    exact ih.select c s

end

/-- For finite models the problem is taken for the same exactly if it has the same content. -/
theorem Memory.Recalls.sameProblem_iff {mem : Memory Binary64} {states : List (State Binary64)}
    (h : mem.Recalls states)
    (hstates : ∀ t ∈ states, t.problem.model.WellFormed ∧ t.problem.model.isFinite = true)
    {p : Problem Binary64} (hp : p.model.WellFormed) :
    mem.sameProblem p = true ↔
      ∃ q, mem.problem = some q ∧ q.model.sameContent p.model = true := by
  unfold sameProblem
  cases hq : mem.problem with
  | none => simp
  | some q =>
    obtain ⟨t, ht, rfl⟩ := h.seen q hq
    obtain ⟨hwell, hfinite⟩ := hstates t ht
    simp only [Option.some.injEq, exists_eq_left', Bool.or_eq_true, decide_eq_true_eq,
      Bool.and_eq_true, beq_iff_eq]
    constructor
    · rintro (rfl | ⟨-, hsame⟩)
      · exact (Model.sameContent_iff hp hp).2 (Model.matches_self hfinite)
      · exact hsame
    · intro hsame
      refine Or.inr ⟨?_, hsame⟩
      rw [h.fingerprint_eq _ hq]
      exact ((Model.sameContent_iff hwell hp).1 hsame).fingerprint_eq hwell hp
        fun x y => Binary64.digest_eq

end EnergyImpact

end QuboSplit
