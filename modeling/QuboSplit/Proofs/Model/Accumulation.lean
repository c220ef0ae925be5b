import QuboSplit.Proofs.Model.Gain

/-!
# Accumulated edits

An edit that only adds to biases posts amounts to entries: `linearAmounts` to the linear bias of a
variable and `pairAmounts` to the bias of a pair. Over the rational numbers an entry after such
edits is what it was, with all amounts posted to it added (`accrued_foldl_attempt`).

Amounts are added in any order with one result (`accrue_perm`). Edits in another order, or with
swapped ends, may store the variables in another order, but they lead to models of one content
(`accumulation_commutes`).
-/

namespace QuboSplit

open List (Forall₂)
open Scalar (ofInt)

/-! ### Amounts -/

/-- The entry with amounts added. A missing entry counts as zero, and stays missing without any
amount. -/
def accrue (entry : Option Rat) (amounts : List Rat) : Option Rat :=
  amounts.foldl (fun entry b => some (entry.getD 0 + b)) entry

theorem accrue_append (entry : Option Rat) (xs ys : List Rat) :
    accrue entry (xs ++ ys) = accrue (accrue entry xs) ys := List.foldl_append

theorem accrue_perm {xs ys : List Rat} (h : xs.Perm ys) (entry : Option Rat) :
    accrue entry xs = accrue entry ys := by
  refine h.foldl_eq' (fun x _ y _ entry => ?_) entry
  rw [Option.getD_some, Option.getD_some, add_right_comm]

/-- An amount for one of the keys. -/
def amountAt {κ : Type} [DecidableEq κ] (k : κ) (b : Rat) (k' : κ) : List Rat :=
  if k' = k then [b] else []

namespace Edit

/-- The edit only adds to biases. -/
def Accumulates {α : Type} : Edit α → Prop
  | .addVariable .. | .addLinear .. | .addQuadratic .. => True
  | _ => False

/-- The edits are the same but for the ends of a quadratic bias that is added. -/
inductive Mirrors {α : Type} : Edit α → Edit α → Prop
  | refl (edit : Edit α) : Mirrors edit edit
  | swap (u v : Label) (bias : α) : Mirrors (.addQuadratic u v bias) (.addQuadratic v u bias)

/-- What the edit adds to the linear bias of `w`. An interaction adds zero to both its ends. -/
def linearAmounts (w : Label) : Edit Rat → List Rat
  | .addVariable v b | .addLinear v b => amountAt v b w
  | .addQuadratic u v _ => if u = v then [] else amountAt u 0 w ++ amountAt v 0 w
  | _ => []

/-- What the edit adds to the bias of a pair. -/
def pairAmounts (p : Sym2 Label) : Edit Rat → List Rat
  | .addQuadratic u v b => if u = v then [] else amountAt s(u, v) b p
  | _ => []

theorem Mirrors.linearAmounts_perm {e e' : Edit Rat} (h : e.Mirrors e') (w : Label) :
    (e.linearAmounts w).Perm (e'.linearAmounts w) := by
  cases h with
  | refl => exact .refl _
  | swap u v bias =>
    show (if u = v then [] else amountAt u 0 w ++ amountAt v 0 w : List Rat).Perm
      (if v = u then [] else amountAt v 0 w ++ amountAt u 0 w)
    by_cases huv : u = v
    · rw [if_pos huv, if_pos huv.symm]
    · rw [if_neg huv, if_neg (Ne.symm huv)]
      exact List.perm_append_comm

theorem Mirrors.pairAmounts_eq {e e' : Edit Rat} (h : e.Mirrors e') (p : Sym2 Label) :
    e.pairAmounts p = e'.pairAmounts p := by
  cases h with
  | refl => rfl
  | swap u v bias =>
    show (if u = v then [] else amountAt s(u, v) bias p : List Rat) =
      if v = u then [] else amountAt s(v, u) bias p
    rw [Sym2.eq_swap]
    simp only [eq_comm]

variable {edits edits' : List (Edit Rat)} (h : Forall₂ Mirrors edits edits')

include h

theorem forall_accumulates (hadd : ∀ e ∈ edits, e.Accumulates) :
    ∀ e ∈ edits', e.Accumulates := by
  induction h with
  | nil => simp
  | @cons e e' _ _ he _ ih =>
    obtain ⟨hfirst, hrest⟩ := List.forall_mem_cons.1 hadd
    refine List.forall_mem_cons.2 ⟨?_, ih hrest⟩
    cases he with
    | refl => exact hfirst
    | swap => trivial

theorem flatMap_perm {g : Edit Rat → List Rat}
    (hg : ∀ {e e'}, Mirrors e e' → (g e).Perm (g e')) :
    (edits.flatMap g).Perm (edits'.flatMap g) := by
  induction h with
  | nil => exact .refl _
  | cons he _ ih =>
    rw [List.flatMap_cons, List.flatMap_cons]
    exact (hg he).append ih

end Edit

/-! ### Entries after edits -/

namespace Model

/-- The entries of `m'` are those of `m` with the amounts of the edits added. -/
structure Accrued (m : Model Rat) (edits : List (Edit Rat)) (m' : Model Rat) : Prop where
  vartype_eq : m'.vartype = m.vartype
  offset_eq : m'.offset = m.offset
  linear : ∀ w, m'.linear? w = accrue (m.linear? w) (edits.flatMap (Edit.linearAmounts w))
  coupling : ∀ u v, m'.coupling? u v =
    accrue (m.coupling? u v) (edits.flatMap (Edit.pairAmounts s(u, v)))

namespace Accrued

variable {m m' m'' : Model Rat} {edits edits' : List (Edit Rat)}

theorem nil (m : Model Rat) : m.Accrued [] m := ⟨rfl, rfl, fun _ => rfl, fun _ _ => rfl⟩

theorem append (h : m.Accrued edits m') (h' : m'.Accrued edits' m'') :
    m.Accrued (edits ++ edits') m'' where
  vartype_eq := h'.vartype_eq.trans h.vartype_eq
  offset_eq := h'.offset_eq.trans h.offset_eq
  linear w := by rw [h'.linear, h.linear, List.flatMap_append, accrue_append]
  coupling u v := by rw [h'.coupling, h.coupling, List.flatMap_append, accrue_append]

/-- Equal amounts, in whatever order, lead to one content. -/
theorem of_perm {m₁ m₂ : Model Rat} (h₁ : m.Accrued edits m₁) (h₂ : m.Accrued edits' m₂)
    (hlinear : ∀ w, (edits.flatMap (Edit.linearAmounts w)).Perm
      (edits'.flatMap (Edit.linearAmounts w)))
    (hpair : ∀ p, (edits.flatMap (Edit.pairAmounts p)).Perm (edits'.flatMap (Edit.pairAmounts p))) :
    m₁.Matches m₂ where
  vartype_eq := h₁.vartype_eq.trans h₂.vartype_eq.symm
  offset_equal := Scalar.equal_rat_iff.2 (h₁.offset_eq.trans h₂.offset_eq.symm)
  linear w := by
    rw [Scalar.equals_rat_iff, h₁.linear, h₂.linear, accrue_perm (hlinear w)]
  coupling u v := by
    rw [Scalar.equals_rat_iff, h₁.coupling, h₂.coupling, accrue_perm (hpair s(u, v))]

end Accrued

theorem linear?_addVariable_eq_accrue (m : Model Rat) (v : Label) (b : Rat) (w : Label) :
    (m.addVariable v b).linear? w = accrue (m.linear? w) (amountAt v b w) := by
  unfold addVariable amountAt
  rw [linear?_reviseLinear]
  by_cases hw : w = v
  · subst hw
    rw [if_pos rfl, if_pos rfl]
    cases m.linear? w with
    | none => exact congrArg some (zero_add b).symm
    | some x => rfl
  · rw [if_neg hw, if_neg hw]
    rfl

/-- A self-loop is refused and adds nothing. -/
theorem accrued_selfLoop (m : Model Rat) (u : Label) (b : Rat) :
    m.Accrued [.addQuadratic u u b] (m.attempt (.addQuadratic u u b)) := by
  have hrefused : m.apply (.addQuadratic u u b) = .error .selfLoop :=
    (reviseQuadratic_eq m u u _).trans (if_pos rfl)
  have hlinear : ∀ w, Edit.linearAmounts w (.addQuadratic u u b) = [] := fun _ => if_pos rfl
  have hpair : ∀ p, Edit.pairAmounts p (.addQuadratic u u b) = [] := fun _ => if_pos rfl
  unfold Model.attempt
  rw [hrefused]
  refine ⟨rfl, rfl, fun w => ?_, fun a c => ?_⟩
  · rw [List.flatMap_singleton, hlinear]
    rfl
  · rw [List.flatMap_singleton, hpair]
    rfl

namespace WellFormed

variable {m : Model Rat} (hm : m.WellFormed)

include hm

theorem accrued_addVariable (v : Label) (b : Rat) {edit : Edit Rat}
    (hlinear : ∀ w, edit.linearAmounts w = amountAt v b w) (hpair : ∀ p, edit.pairAmounts p = []) :
    m.Accrued [edit] (m.addVariable v b) where
  vartype_eq := vartype_reviseLinear m v b _
  offset_eq := offset_reviseLinear m v b _
  linear w := by
    rw [List.flatMap_singleton, hlinear]
    exact linear?_addVariable_eq_accrue m v b w
  coupling u w := by
    rw [List.flatMap_singleton, hpair]
    exact hm.coupling?_reviseLinear v b _ u w

theorem accrued_addQuadratic {u v : Label} (huv : u ≠ v) (b : Rat) :
    m.Accrued [.addQuadratic u v b] (m.attempt (.addQuadratic u v b)) := by
  obtain ⟨m', happly, hvartype, hoffset, -, hlinear, hcoupling⟩ :=
    hm.exists_reviseQuadratic huv (· + b)
  have happly : m.apply (.addQuadratic u v b) = .ok m' := happly
  have hends : ∀ w, Edit.linearAmounts w (.addQuadratic u v b) =
      amountAt u 0 w ++ amountAt v 0 w := fun _ => if_neg huv
  have hpair : ∀ p, Edit.pairAmounts p (.addQuadratic u v b) = amountAt s(u, v) b p :=
    fun _ => if_neg huv
  unfold Model.attempt
  rw [happly]
  refine ⟨hvartype, hoffset, fun w => ?_, fun a c => ?_⟩
  · rw [List.flatMap_singleton, hends, accrue_append, ← linear?_addVariable_eq_accrue]
    exact (hlinear w).trans (linear?_addVariable_eq_accrue _ v 0 w)
  · rw [List.flatMap_singleton, hpair]
    refine (hcoupling a c).trans ?_
    unfold amountAt
    simp only [Sym2.eq_iff]
    split
    · next hac =>
      have hsame : m.coupling? a c = m.coupling? u v := by
        rcases hac with ⟨rfl, rfl⟩ | ⟨rfl, rfl⟩
        · rfl
        · exact hm.coupling?_comm a c
      rw [hsame]
      rfl
    · rfl

/-- One edit adds its amounts. -/
theorem accrued_attempt {edit : Edit Rat} (h : edit.Accumulates) :
    m.Accrued [edit] (m.attempt edit) := by
  cases edit with
  | addVariable v b => exact hm.accrued_addVariable v b (fun _ => rfl) fun _ => rfl
  | addLinear v b => exact hm.accrued_addVariable v b (fun _ => rfl) fun _ => rfl
  | addQuadratic u v b =>
    by_cases huv : u = v
    · exact huv ▸ accrued_selfLoop m u b
    · exact hm.accrued_addQuadratic huv b
  | _ => exact h.elim

/-- A list of edits adds all their amounts. -/
theorem accrued_foldl_attempt {edits : List (Edit Rat)} (h : ∀ e ∈ edits, e.Accumulates) :
    m.Accrued edits (edits.foldl Model.attempt m) := by
  induction edits generalizing m with
  | nil => exact .nil m
  | cons e edits ih =>
    have hfirst := hm.accrued_attempt (h e List.mem_cons_self)
    exact hfirst.append (ih (hm.attempt e) fun e he => h e (List.mem_cons_of_mem _ he))

end WellFormed

/-! ### Other orders -/

/-- Adding to biases in another order, and with ends swapped, leads to models of one content, in
which every sample has the same energy and every variable the same gain. -/
theorem accumulation_commutes {m : Model Rat} (hm : m.Reachable)
    {edits reordered edits' : List (Edit Rat)} (hadd : ∀ e ∈ edits, e.Accumulates)
    (horder : edits.Perm reordered) (hends : Forall₂ Edit.Mirrors reordered edits') :
    let one := edits.foldl attempt m
    let other := edits'.foldl attempt m
    one.sameContent other = true ∧
      (∀ s e, one.energy s = .ok e ↔ other.energy s = .ok e) ∧
      ∀ s v g, one.flipGain s v = .ok g ↔ other.flipGain s v = .ok g := by
  intro one other
  have hadd' : ∀ e ∈ edits', e.Accumulates :=
    Edit.forall_accumulates hends fun e he => hadd e (horder.mem_iff.2 he)
  have hmatches : one.Matches other := by
    refine (hm.wellFormed.accrued_foldl_attempt hadd).of_perm
      (hm.wellFormed.accrued_foldl_attempt hadd') (fun w => ?_) fun p => ?_
    · exact (horder.flatMap_right _).trans
        (Edit.flatMap_perm hends fun he => he.linearAmounts_perm w)
    · exact (horder.flatMap_right _).trans
        (Edit.flatMap_perm hends fun he => .of_eq (he.pairAmounts_eq p))
  have hone : one.WellFormed := hm.wellFormed.foldl_attempt edits
  have hother : other.WellFormed := hm.wellFormed.foldl_attempt edits'
  exact ⟨(sameContent_iff hone hother).2 hmatches,
    fun s e => energy_congr hone hother hmatches fun _ => rfl,
    fun s v g => flipGain_congr hone hother hmatches fun _ => rfl⟩

section Triangle

open Label (number)

/-- One interaction. -/
def edge : Model Rat := ofEdits .spin [.setOffset 3, .setQuadratic (number 0) (number 1) 1]

/-- A variable of its own, two more interactions and a self-loop. -/
def closing : List (Edit Rat) :=
  [.addVariable (number 3) 1, .addQuadratic (number 0) (number 2) (1 / 2),
    .addQuadratic (number 2) (number 1) (-1), .addQuadratic (number 1) (number 1) 7]

/-- The same edits backwards. -/
def closingBackwards : List (Edit Rat) :=
  [.addQuadratic (number 1) (number 1) 7, .addQuadratic (number 2) (number 1) (-1),
    .addQuadratic (number 0) (number 2) (1 / 2), .addVariable (number 3) 1]

/-- The edits backwards, with the ends of one interaction swapped. -/
def closingMirrored : List (Edit Rat) :=
  [.addQuadratic (number 1) (number 1) 7, .addQuadratic (number 2) (number 1) (-1),
    .addQuadratic (number 2) (number 0) (1 / 2), .addVariable (number 3) 1]

theorem mirrors_closing : Forall₂ Edit.Mirrors closingBackwards closingMirrored :=
  .cons (.refl _) (.cons (.refl _) (.cons (.swap ..) (.cons (.refl _) .nil)))

/-- The triangle is one model in either order, though its variables are indexed differently. -/
theorem accumulation_commutes_triangle :
    (∀ e ∈ closing, e.Accumulates) ∧ closing.Perm closingBackwards ∧
      Forall₂ Edit.Mirrors closingBackwards closingMirrored ∧
      (closing.foldl attempt edge).index? (number 3) ≠
        (closingMirrored.foldl attempt edge).index? (number 3) ∧
      (closing.foldl attempt edge).sameContent (closingMirrored.foldl attempt edge) = true := by
  have hadd : ∀ e ∈ closing, e.Accumulates := by simp [closing, Edit.Accumulates]
  have horder : closing.Perm closingBackwards := (List.reverse_perm closing).symm
  exact ⟨hadd, horder, mirrors_closing, by decide +kernel,
    (accumulation_commutes ⟨.spin, _, rfl⟩ hadd horder mirrors_closing).1⟩

end Triangle

end Model

end QuboSplit
