import Mathlib.Data.UInt
import QuboSplit.Model.Fingerprint
import QuboSplit.Proofs.Model.Content

/-!
# Fingerprints of equal models

The digests of variables and of interactions are summed, so the order in which a model stores them
does not matter: models of one content have one fingerprint (`Matches.fingerprint_eq`), whatever
digests are used, as long as equal numbers have one digest. The digests in use are such
(`Binary64.digest_eq`).
-/

namespace QuboSplit

open Digests (mix total)
open Scalar (equal Equals)

/-! ### Digests of numbers -/

/-- Equal numbers are one, or are both zero. -/
theorem Binary64.digest_eq {x y : Binary64} (h : x.equal y = true) :
    Binary64.digest x = Binary64.digest y := by
  obtain ⟨fits, hzero⟩ := Floating.ofInt_zero (f := .double)
  unfold digest
  rw [hzero]
  cases x with
  | nan => cases h
  | infinite a =>
    cases y with
    | infinite b =>
      obtain rfl : a = b := by simpa [Floating.equal] using h
      rfl
    | _ => cases h
  | finite a m _ =>
    cases y with
    | finite b n _ =>
      have h : Floating.signed a m = Floating.signed b n := by simpa [Floating.equal] using h
      have hsame : ∀ (c : Bool) (k : Nat) (hk : Format.double.Fits k),
          (Floating.finite c k hk).equal (.finite false 0 fits) = true ↔ k = 0 := by
        intro c k hk
        show (Floating.signed c k == Floating.signed false 0) = true ↔ k = 0
        rw [beq_iff_eq, Floating.signed_eq_iff]
        exact ⟨And.left, fun e => ⟨e, fun hne => absurd e hne⟩⟩
      obtain ⟨rfl, hsign⟩ := Floating.signed_eq_iff.1 h
      by_cases hm : m = 0
      · rw [if_pos ((hsame a m _).2 hm), if_pos ((hsame b m _).2 hm)]
      · obtain rfl := hsign hm
        rfl
    | _ => cases h

namespace Model

variable {α : Type} {m m' : Model α} {d : Digests α}

/-! ### Sums over variables -/

/-- The digest of a variable with its bias. -/
def variableDigest (m : Model α) (d : Digests α) (v : Label) : UInt64 :=
  mix (d.label v) (((m.linear? v).map d.bias).getD 0)

theorem linearDigest_eq (hm : m.WellFormed) :
    m.linearDigest d = (m.labels.map (m.variableDigest d)).sum := by
  unfold linearDigest labels
  rw [List.map_map]
  refine congrArg List.sum (List.map_congr_left fun n hn => ?_)
  obtain ⟨i, hi⟩ := List.getElem?_of_mem hn
  have hb := linear?_of_index? (hm.index?_iff.2 (label?_of_node hi)) hi
  show mix _ _ = m.variableDigest d n.label
  unfold variableDigest
  rw [hb]
  rfl

/-! ### Sums over interactions -/

/-- The digest of a pair with its bias. -/
def WellFormed.pairDigest (hm : m.WellFormed) (d : Digests α) : Sym2 Label → UInt64 :=
  Sym2.lift
    ⟨fun u v => mix (d.label u ^^^ d.label v) (((m.coupling? u v).map d.bias).getD 0),
      fun u v => by
        dsimp only
        rw [UInt64.xor_comm, hm.coupling?_comm]⟩

theorem pairDigest_of_coupling? (hm : m.WellFormed) {u v : Label} {b : α}
    (h : m.coupling? u v = some b) :
    hm.pairDigest d s(u, v) = mix (d.label u ^^^ d.label v) (d.bias b) := by
  show mix _ (((m.coupling? u v).map d.bias).getD 0) = _
  rw [h]
  rfl

theorem map_pairsOf_eq (hm : m.WellFormed) {n : Node α} (hn : n ∈ m.nodes) :
    ((n.row.take n.smaller).map fun c =>
        mix (d.label n.label ^^^ m.labelDigest d c.1) (d.bias c.2)) =
      (m.pairsOf n).map (hm.pairDigest d) := by
  obtain ⟨i, hi⟩ := List.getElem?_of_mem hn
  have hindex := hm.index?_iff.2 (label?_of_node hi)
  have hcoupled : ∀ c ∈ n.row.take n.smaller, ∃ v, m.label? c.1 = some v ∧
      m.coupling? n.label v = some c.2 := by
    intro c hc
    have hmem : c ∈ m.row i := row_of_node hi ▸ List.mem_of_mem_take hc
    obtain ⟨n', hn'⟩ := exists_node (hm.lt_of_mem_row hmem).1
    have hv := label?_of_node hn'
    exact ⟨n'.label, hv,
      (coupling?_of_index? hindex (hm.index?_iff.2 hv)).trans (hm.mem_row_iff.1 hmem)⟩
  unfold pairsOf
  rw [List.map_filterMap, ← List.filterMap_eq_map]
  refine List.filterMap_congr fun c hc => ?_
  obtain ⟨v, hv, hb⟩ := hcoupled c hc
  unfold labelDigest
  rw [Function.comp_apply, hv]
  exact congrArg some (pairDigest_of_coupling? hm hb).symm

theorem quadraticDigest_eq (hm : m.WellFormed) :
    m.quadraticDigest d = (m.pairs.map (hm.pairDigest d)).sum := by
  unfold quadraticDigest pairs
  rw [List.map_flatMap, List.flatMap_def, List.sum_flatten, List.map_map]
  refine congrArg List.sum (List.map_congr_left fun n hn => ?_)
  exact congrArg List.sum (map_pairsOf_eq hm hn)

/-! ### Fingerprints -/

variable [Scalar α]

/-- Models of one content have one fingerprint. -/
theorem Matches.fingerprint_eq (h : m.Matches m') (hm : m.WellFormed) (hm' : m'.WellFormed)
    (hd : ∀ x y, equal x y = true → d.bias x = d.bias y) :
    m.fingerprint d = m'.fingerprint d := by
  have hdigest : ∀ {a b : Option α}, Equals a b → a.map d.bias = b.map d.bias := by
    intro a b hab
    cases hab with
    | none => rfl
    | some hxy => exact congrArg some (hd _ _ hxy)
  have hvariable : m.variableDigest d = m'.variableDigest d := by
    funext v
    unfold variableDigest
    rw [hdigest (h.linear v)]
  have hpair : hm.pairDigest d = hm'.pairDigest d := by
    funext p
    induction p using Sym2.ind with
    | h u v =>
      show mix _ (((m.coupling? u v).map d.bias).getD 0) =
        mix _ (((m'.coupling? u v).map d.bias).getD 0)
      rw [hdigest (h.coupling u v)]
  have hlabels : m.labels.Perm m'.labels :=
    (List.perm_ext_iff_of_nodup hm.labels_nodup hm'.labels_nodup).2 h.mem_labels_iff
  have hlinear : m.linearDigest d = m'.linearDigest d := by
    rw [linearDigest_eq hm, linearDigest_eq hm', hvariable]
    exact (hlabels.map _).sum_eq
  have hquadratic : m.quadraticDigest d = m'.quadraticDigest d := by
    rw [quadraticDigest_eq hm, quadraticDigest_eq hm', hpair]
    exact ((h.pairs_perm hm hm').map _).sum_eq
  unfold fingerprint
  rw [h.vartype_eq, hd _ _ h.offset_equal, hlinear, hquadratic]

/-- Models that compare equal have one fingerprint, however each was built and whatever the digests,
as long as equal numbers have one digest. -/
theorem fingerprint_eq_of_sameContent (hm : m.Reachable) (hm' : m'.Reachable)
    (hd : ∀ x y, equal x y = true → d.bias x = d.bias y) (h : m.sameContent m' = true) :
    m.fingerprint d = m'.fingerprint d := by
  have hmatches : m.Matches m' := (sameContent_iff hm.wellFormed hm'.wellFormed).1 h
  exact hmatches.fingerprint_eq hm.wellFormed hm'.wellFormed hd

/-- A path built from either end, so that each interaction is stored at the other one of its
variables, with offsets of either sign. -/
theorem fingerprint_eq_of_sameContent_path :
    let m : Model Binary64 := .ofEdits .binary
      [.setQuadratic (.number 0) (.number 1) (.ofInt 2), .setOffset (.ofInt 0),
        .addQuadratic (.number 1) (.name "a") (.ofInt 3)]
    let m' : Model Binary64 := .ofEdits .binary
      [.setQuadratic (.name "a") (.number 1) (.ofInt 3), .setOffset (-.ofInt 0),
        .addQuadratic (.number 0) (.number 1) (.ofInt 2)]
    m.pairs ≠ m'.pairs ∧ m.offset ≠ m'.offset ∧
      m.fingerprint .standard = m'.fingerprint .standard := by
  intro m m'
  have hsame : m.sameContent m' = true := by decide +kernel
  refine ⟨by decide +kernel, by decide +kernel, ?_⟩
  exact fingerprint_eq_of_sameContent ⟨.binary, _, rfl⟩ ⟨.binary, _, rfl⟩
    (fun _ _ => Binary64.digest_eq) hsame

end Model

end QuboSplit
