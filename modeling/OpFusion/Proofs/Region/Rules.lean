import OpFusion.Proofs.Graph.WellFormed
import OpFusion.Region.Matcher

/-!
# Where regions start and grow

What is known of a hop at which a template starts a region or which extends one.
-/

namespace OpFusion

variable {g : Graph} {h : Hop}

/-- Only a multiply has the shape of an outer product. -/
theorem Graph.isMatmul_of_isOuterProductLike (hh : g.hop? h.id = some h)
    (hlike : g.isOuterProductLike h.id = true) : h.isMatmul = true := by
  unfold isOuterProductLike at hlike
  split at hlike
  · rename_i h' left right hh' _ _
    obtain rfl : h = h' := Option.some.inj (hh.symm.trans hh')
    simp only [Bool.and_eq_true] at hlike
    exact hlike.1.1.1
  · simp at hlike

/-- A product with the shape of an outer product has a tall operand and a wide one. -/
theorem Graph.operands_of_isOuterProductLike {id : HopId} (hlike : g.isOuterProductLike id = true) :
    ∃ x y, g.input? id 0 = some x ∧ g.input? id 1 = some y ∧
      isLarger x.shape.rows x.shape.cols = true ∧ isLarger y.shape.cols y.shape.rows = true := by
  unfold isOuterProductLike at hlike
  split at hlike
  · rename_i h x y _ hx hy
    simp only [Bool.and_eq_true] at hlike
    exact ⟨x, y, hx, hy, hlike.1.2, hlike.2⟩
  · simp at hlike

theorem Hop.transposed?_eq_some_iff {x : HopId} :
    h.transposed? = some x ↔ h.kind = .reorg .transpose ∧ h.input? 0 = some x := by
  simp [transposed?, isTranspose]

/-- Every transpose transposes something. -/
theorem Graph.WellFormed.exists_transposed? (wf : g.WellFormed) {id : HopId}
    (hh : g.hop? id = some h) (htranspose : h.isTranspose = true) :
    ∃ inner, h.transposed? = some inner := by
  have hkind : h.kind = .reorg .transpose := of_decide_eq_true htranspose
  have hcount := wf.arity hh (n := 1) (by rw [hkind]; rfl)
  refine ⟨h.inputs[0], Hop.transposed?_eq_some_iff.2 ⟨hkind, ?_⟩⟩
  exact List.getElem?_eq_getElem (by omega)

theorem Hop.exists_literal_of_literal? {value : Literal} (hliteral : h.literal? = some value) :
    h.kind = .literal value := by
  unfold literal? at hliteral
  split at hliteral
  · rename_i value' hkind
    rw [hkind, Option.some.inj hliteral]
  · simp at hliteral

/-! ## Shapes -/

namespace Shape

variable {s : Shape}

theorem ne_one_of_isGenuineMatrix (hs : s.isGenuineMatrix = true) :
    s.rows ≠ some 1 ∧ s.cols ≠ some 1 := by
  simp only [isGenuineMatrix, Bool.and_eq_true] at hs
  refine ⟨fun h => ?_, fun h => ?_⟩
  · rw [h] at hs
    simp [Extent.exceeds] at hs
  · rw [h] at hs
    simp [Extent.exceeds] at hs

theorem cols_of_isColVector (hs : s.isColVector = true) : s.cols = some 1 := by
  simp only [isColVector, Bool.and_eq_true, beq_iff_eq] at hs
  exact hs.1.1

theorem of_isRowVector (hs : s.isRowVector = true) : s.rows = some 1 ∧ s.cols ≠ some 1 := by
  simp only [isRowVector, Bool.and_eq_true, beq_iff_eq, bne_iff_ne, ne_eq] at hs
  exact hs.1

end Shape

namespace Hop

theorem isGenuineMatrix_iff :
    h.isGenuineMatrix = true ↔ h.isMatrix = true ∧ h.shape.isGenuineMatrix = true := by
  rw [isGenuineMatrix, Bool.and_eq_true]

theorem cols_ne_one_of_isGenuineMatrix (hgenuine : h.isGenuineMatrix = true) :
    h.shape.cols ≠ some 1 := (Shape.ne_one_of_isGenuineMatrix (isGenuineMatrix_iff.1 hgenuine).2).2

end Hop

/-! ## Binary operators -/

theorem Hop.not_isScalar_of_isMatrix (hm : h.isMatrix = true) : h.isScalar = false := by
  rw [isMatrix, decide_eq_true_eq] at hm
  rw [isScalar, hm]
  rfl

namespace Graph

variable {id : HopId} {a b : Hop}

theorem binaryOperands?_eq_some_iff :
    g.binaryOperands? id = some (a, b) ↔ ∃ h op, g.hop? id = some h ∧ h.kind = .binary op ∧
      g.input? id 0 = some a ∧ g.input? id 1 = some b := by
  unfold binaryOperands?
  rw [Option.bind_eq_bind, Option.bind_eq_some_iff]
  constructor
  · rintro ⟨h, hh, hoperands⟩
    split at hoperands
    · rename_i op hkind
      simp only [Option.bind_eq_some_iff, Option.pure_def, Option.some.injEq, Prod.mk.injEq]
        at hoperands
      obtain ⟨x, hx, y, hy, rfl, rfl⟩ := hoperands
      exact ⟨h, op, hh, hkind, hx, hy⟩
    · simp at hoperands
  · rintro ⟨h, op, hh, hkind, ha, hb⟩
    refine ⟨h, hh, ?_⟩
    simp [hkind, ha, hb]

/-- A binary operator on a matrix and a scalar has a scalar operand. -/
theorem scalar_operand_of_isMatrixScalar (hms : g.isMatrixScalar id = true) :
    ∃ i x, g.input? id i = some x ∧ x.isScalar = true := by
  obtain ⟨⟨a, b⟩, hoperands, htypes⟩ := (Option.any_eq_true ..).1 hms
  obtain ⟨h, op, _, _, ha, hb⟩ := binaryOperands?_eq_some_iff.1 hoperands
  simp only [Bool.or_eq_true, Bool.and_eq_true] at htypes
  rcases htypes with ⟨_, hscalar⟩ | ⟨hscalar, _⟩
  · exact ⟨1, b, hb, hscalar⟩
  · exact ⟨0, a, ha, hscalar⟩

end Graph

/-! ## The outer-product template -/

namespace OuterProduct

variable {id : HopId}

/-- A hop with the shape of an outer product extends no region. -/
theorem fuses_of_isOuterProductLike (hh : g.hop? h.id = some h)
    (hlike : g.isOuterProductLike h.id = true) : fuses g h.id = false := by
  have hm : h.kind = .matmul := of_decide_eq_true (Graph.isMatmul_of_isOuterProductLike hh hlike)
  simp [fuses, hh, hm, hlike]

/-- A region that starts at a product is not ended there. -/
theorem closing_of_isOuterProductLike (hh : g.hop? h.id = some h)
    (hlike : g.isOuterProductLike h.id = true) : closing g h.id = .stillOpen := by
  have hm : h.kind = .matmul := of_decide_eq_true (Graph.isMatmul_of_isOuterProductLike hh hlike)
  simp [closing, hh, hm, hlike]

/-- A region ends at every aggregate. -/
theorem closing_of_aggUnary (hh : g.hop? h.id = some h) {op : AggOp} {direction : Direction}
    (hkind : h.kind = .aggUnary op direction) : closing g h.id ≠ .stillOpen := by
  simp only [closing, hh, hkind]
  split
  · simp
  · simp

/-- A region ends at the transpose of a multiply that is no product of factors. -/
theorem closing_of_transpose (hh : g.hop? h.id = some h) (hkind : h.kind = .reorg .transpose)
    {x : HopId} (hx : h.input? 0 = some x) (hm : g.isMatmul x = true)
    (hother : g.isOuterProductLike x = false) : closing g h.id = .valid := by
  simp [closing, hh, hkind, hx, hm, hother]

/-- A multiply that is no product of factors ends a region unless its first consumer is a
transpose. -/
theorem isTranspose_firstParent? (hm : g.isMatmul id = true)
    (hother : g.isOuterProductLike id = false) (hopen : closing g id = .stillOpen) :
    (g.firstParent? id).any (·.isTranspose) = true := by
  obtain ⟨h, hh, hm⟩ := (Option.any_eq_true ..).1 hm
  have hkind : h.kind = .matmul := of_decide_eq_true hm
  simpa [closing, hh, hkind, hother] using hopen

/-- A hop that both extends and joins regions combines a matrix with a scalar: a row vector is never
what a region is extended by. -/
theorem isMatrixScalar_of_fuses (hfuses : fuses g id = true) (hmerges : merges g id = true) :
    g.isMatrixScalar id = true := by
  rcases Bool.or_eq_true_iff.1 hmerges with hrow | hms
  · obtain ⟨⟨a, b⟩, hoperands, hrow⟩ := (Option.any_eq_true ..).1 hrow
    obtain ⟨h, op, hh, hkind, _, _⟩ := Graph.binaryOperands?_eq_some_iff.1 hoperands
    simp only [fuses, hh, Option.any_some, hkind, Bool.and_eq_true, Bool.or_eq_true] at hfuses
    simp only [Graph.isMatrixColVector, Graph.isMatrixMatrix, hoperands, Option.any_some,
      Hop.isGenuineMatrix, Hop.isColVector, Hop.isRowVector, Bool.and_eq_true, Bool.or_eq_true]
      at hfuses hrow
    obtain ⟨_, (hcol | hms) | ⟨hmm, _⟩⟩ := hfuses
    · rcases hrow with ⟨ha, hb⟩ | ⟨hb, ha⟩ <;> rcases hcol with ⟨hc, hd⟩ | ⟨hd, hc⟩
      · exact absurd (Shape.cols_of_isColVector hd.2) (Shape.of_isRowVector hb.2).2
      · exact absurd (Shape.cols_of_isColVector hc.2) (Shape.ne_one_of_isGenuineMatrix ha.2).2
      · exact absurd (Shape.cols_of_isColVector hd.2) (Shape.ne_one_of_isGenuineMatrix hb.2).2
      · exact absurd (Shape.cols_of_isColVector hc.2) (Shape.of_isRowVector ha.2).2
    · exact hms
    · rcases hrow with ⟨_, hb⟩ | ⟨_, ha⟩
      · exact absurd (Shape.of_isRowVector hb.2).1 (Shape.ne_one_of_isGenuineMatrix hmm.2.2).1
      · exact absurd (Shape.of_isRowVector ha.2).1 (Shape.ne_one_of_isGenuineMatrix hmm.1.2).1
  · exact hms

end OuterProduct

/-! ## Leaves -/

namespace Matcher

variable {m : Matcher}

/-- No region starts at a hop that reads nothing. -/
theorem opens_of_leaf (hh : g.hop? h.id = some h) (hleaf : h.kind.arity = some 0) :
    m.opens g h.id = false := by
  have hlike : g.isOuterProductLike h.id = false := by
    cases hlike : g.isOuterProductLike h.id with
    | false => rfl
    | true =>
      have hm : h.kind = .matmul :=
        of_decide_eq_true (Graph.isMatmul_of_isOuterProductLike hh hlike)
      simp [hm, Operator.arity] at hleaf
  unfold opens
  cases m.template with
  | outerProduct => simp [OuterProduct.opens, hlike]
  | rowAgg =>
    cases hkind : h.kind with
    | data | literal => simp [RowAgg.opens, hh, hkind]
    | _ => simp [hkind, Operator.arity] at hleaf

/-- No hop that reads nothing extends a region. -/
theorem fuses_of_leaf (hh : g.hop? h.id = some h) (hleaf : h.kind.arity = some 0) :
    m.fuses g h.id = false := by
  unfold fuses
  cases m.template with
  | outerProduct =>
    cases hkind : h.kind with
    | data | literal => simp [OuterProduct.fuses, hh, hkind, Hop.isTranspose]
    | _ => simp [hkind, Operator.arity] at hleaf
  | rowAgg =>
    cases hkind : h.kind with
    | data | literal => simp [RowAgg.fuses, hh, hkind]
    | _ => simp [hkind, Operator.arity] at hleaf

end Matcher

end OpFusion
