import OpFusion.Proofs.Plan.Run

/-!
# What hops become

When a template succeeds in lowering a hop, the fragment is one of a few kinds, with operands that
are bound (`RowAgg.Becomes`, `OuterProduct.Becomes`). Whatever is to be shown of the fragments of a
template is shown kind by kind.
-/

namespace OpFusion

open Kernel

/-! ## The row template -/

namespace RowAgg

/-- The fragments of the row template, and the nodes they are made from. -/
inductive Becomes (g : Graph) (d : Draft) (h : Hop) : Fragment → Prop
  | rowSumOfColumn {x : Hop} {a : NodeId} (kind : h.kind = .aggUnary .sum .row)
      (operand : d.operand h 0 = .ok a) (input : Draft.operandHop g h 0 = .ok x)
      (column : x.shape.cols = some 1) :
      Becomes g d h (readUnlessScalar d.table .lookupRow a)
  | rowSum {x : Hop} {a : NodeId} (kind : h.kind = .aggUnary .sum .row)
      (operand : d.operand h 0 = .ok a) (input : Draft.operandHop g h 0 = .ok x)
      (wide : x.shape.cols ≠ some 1) :
      Becomes g d h (.unary .rowSums (.node a))
  | columnSum {a : NodeId} (kind : h.kind = .aggUnary .sum .col) (operand : d.operand h 0 = .ok a) :
      Becomes g d h (sumColumns d.table a)
  | addedRows {x : Hop} {a b : NodeId} (kind : h.kind = .matmul)
      (input : Draft.operandHop g h 0 = .ok x) (transposed : x.isTranspose = true)
      (left : d.factor g h 0 = .ok a) (right : d.operand h 1 = .ok b) :
      Becomes g d h (.binary (.rowAdd .mult) (.node a) (.node b))
  | productOfCells {x y : Hop} {a b : NodeId} (kind : h.kind = .matmul)
      (left : d.factor g h 0 = .ok a) (right : d.operand h 1 = .ok b)
      (first : Draft.operandHop g h 0 = .ok x) (second : Draft.operandHop g h 1 = .ok y)
      (columns : x.shape.cols = some 1 ∧ y.shape.cols = some 1) (straight : x.isTranspose = false) :
      Becomes g d h (.binary (.cell .mult) (readUnlessScalar d.table .lookupFirst a)
        (readUnlessScalar d.table .lookupFirst b))
  | dotProduct {x y : Hop} {a b : NodeId} (kind : h.kind = .matmul)
      (left : d.factor g h 0 = .ok a) (right : d.operand h 1 = .ok b)
      (first : Draft.operandHop g h 0 = .ok x) (second : Draft.operandHop g h 1 = .ok y)
      (straight : x.isTranspose = false)
      (wide : ¬ (x.shape.cols = some 1 ∧ y.shape.cols = some 1)) :
      Becomes g d h (.binary .dotProduct (.node a) (.node b))
  | unary {op : UnaryOp} {prim : UnaryPrim} {x : Hop} {a : NodeId} (kind : h.kind = .unary op)
      (supported : op.primitive? = some prim) (input : Draft.operandHop g h 0 = .ok x)
      (operand : d.operand h 0 = .ok a) :
      Becomes g d h (.unary prim (readCell d.table a x))
  | rowAndCell {op : BinaryOp} {rowOp : RowOp} {x : Hop} {a b : NodeId} (kind : h.kind = .binary op)
      (supported : op.rowOp? = some rowOp) (input : Draft.operandHop g h 0 = .ok x)
      (genuine : x.shape.isGenuineMatrix = true) (left : d.operand h 0 = .ok a)
      (right : d.operand h 1 = .ok b) :
      Becomes g d h (.binary (.rowScalar rowOp) (.node a) (readColumn d.table b))
  | cells {op : BinaryOp} {cellOp : CellOp} {x : Hop} {a b : NodeId} (kind : h.kind = .binary op)
      (supported : op.cellOp? = some cellOp) (left : d.operand h 0 = .ok a)
      (right : d.operand h 1 = .ok b) (input : Draft.operandHop g h 0 = .ok x)
      (narrow : x.shape.isGenuineMatrix = false) :
      Becomes g d h (.binary (.cell cellOp) (readColumn d.table a) (readColumn d.table b))
  | ternary {op : TernaryOp} {prim : TernaryPrim} {x y : Hop} {a b c : NodeId}
      (kind : h.kind = .ternary op) (supported : op.primitive? = some prim)
      (first : d.operand h 0 = .ok a) (second : d.operand h 1 = .ok b)
      (third : d.operand h 2 = .ok c) :
      Becomes g d h (.ternary prim (readCell d.table a x) (.node b) (readCell d.table c y))
  | replace {params : List (String × Nat)} {prim : TernaryPrim} {target pattern replacement : HopId}
      {x : Hop} {a b c : NodeId} (kind : h.kind = .builtin .replace params)
      (replaces : prim = .replace ∨ prim = .replaceNaN) (first : d.node target = .ok a)
      (second : d.node pattern = .ok b) (third : d.node replacement = .ok c)
      (found : g.hop? target = some x) (targetParam : g.paramInput h.id "target" = .ok target)
      (patternParam : g.paramInput h.id "pattern" = .ok pattern)
      (replacementParam : g.paramInput h.id "replacement" = .ok replacement) :
      Becomes g d h (.ternary prim (readCell d.table a x) (.node b) (.node c))
  | cellOfLiteral {cols : UInt64} {last : Literal} {x y : Hop} {a : NodeId}
      (kind : h.kind = .indexing) (target : d.operand h 0 = .ok a)
      (input : Draft.operandHop g h 0 = .ok x) (extent : x.shape.cols = some cols)
      (bound : Draft.operandHop g h 4 = .ok y) (constant : y.literal? = some last) :
      Becomes g d h (.ternary .lookupColumn (.node a) (.literal (.int cols.toInt64))
        (.literal last))
  | cellOfNode {cols : UInt64} {x y : Hop} {a upper : NodeId} (kind : h.kind = .indexing)
      (target : d.operand h 0 = .ok a) (last : d.operand h 4 = .ok upper)
      (input : Draft.operandHop g h 0 = .ok x) (extent : x.shape.cols = some cols)
      (bound : Draft.operandHop g h 4 = .ok y) (noLiteral : y.literal? = none) :
      Becomes g d h (.ternary .lookupColumn (.node a) (.literal (.int cols.toInt64))
        (.node upper))

variable {g : Graph} {d : Draft} {h : Hop} {f : Fragment}

/-- What a hop is lowered to is one of these fragments. -/
theorem becomes_of_fragment (hf : fragment g d h = .ok f) : Becomes g d h f := by
  unfold fragment at hf
  split at hf
  case h_1 hkind =>
    obtain ⟨a, ha, hf⟩ := bind_eq_ok_iff.1 hf
    obtain ⟨x, hx, hf⟩ := bind_eq_ok_iff.1 hf
    split at hf
    · rename_i hcolumn
      obtain rfl := pure_eq_ok_iff.1 hf
      exact .rowSumOfColumn hkind ha hx hcolumn
    · rename_i hwide
      obtain rfl := pure_eq_ok_iff.1 hf
      exact .rowSum hkind ha hx hwide
  case h_2 hkind =>
    obtain ⟨a, ha, hf⟩ := bind_eq_ok_iff.1 hf
    obtain rfl := pure_eq_ok_iff.1 hf
    exact .columnSum hkind ha
  case h_3 hkind =>
    obtain ⟨left, hleft, hf⟩ := bind_eq_ok_iff.1 hf
    obtain ⟨right, hright, hf⟩ := bind_eq_ok_iff.1 hf
    obtain ⟨a, ha, hf⟩ := bind_eq_ok_iff.1 hf
    obtain ⟨b, hb, hf⟩ := bind_eq_ok_iff.1 hf
    split at hf
    · rename_i htransposed
      obtain rfl := pure_eq_ok_iff.1 hf
      exact .addedRows hkind hleft htransposed ha hb
    · rename_i hstraight
      have hstraight : left.isTranspose = false := by simpa using hstraight
      split at hf
      · rename_i hcolumns
        obtain rfl := pure_eq_ok_iff.1 hf
        exact .productOfCells hkind ha hb hleft hright hcolumns hstraight
      · rename_i hwide
        obtain rfl := pure_eq_ok_iff.1 hf
        exact .dotProduct hkind ha hb hleft hright hstraight hwide
  case h_4 op hkind =>
    split at hf
    · simp at hf
    · rename_i prim hprim
      obtain ⟨a, ha, hf⟩ := bind_eq_ok_iff.1 hf
      obtain ⟨x, hx, hf⟩ := bind_eq_ok_iff.1 hf
      obtain rfl := pure_eq_ok_iff.1 hf
      exact .unary hkind hprim hx ha
  case h_5 op hkind =>
    obtain ⟨a, ha, hf⟩ := bind_eq_ok_iff.1 hf
    obtain ⟨b, hb, hf⟩ := bind_eq_ok_iff.1 hf
    obtain ⟨x, hx, hf⟩ := bind_eq_ok_iff.1 hf
    split at hf
    · rename_i hgenuine
      split at hf
      · simp at hf
      · rename_i rowOp hrow
        obtain rfl := pure_eq_ok_iff.1 hf
        exact .rowAndCell hkind hrow hx hgenuine ha hb
    · rename_i hnarrow
      split at hf
      · simp at hf
      · rename_i cellOp hcell
        obtain rfl := pure_eq_ok_iff.1 hf
        exact .cells hkind hcell ha hb hx (by simpa using hnarrow)
  case h_6 op hkind =>
    split at hf
    · simp at hf
    · rename_i prim hprim
      obtain ⟨a, ha, hf⟩ := bind_eq_ok_iff.1 hf
      obtain ⟨b, hb, hf⟩ := bind_eq_ok_iff.1 hf
      obtain ⟨c, hc, hf⟩ := bind_eq_ok_iff.1 hf
      obtain ⟨x, _, hf⟩ := bind_eq_ok_iff.1 hf
      obtain ⟨y, _, hf⟩ := bind_eq_ok_iff.1 hf
      obtain rfl := pure_eq_ok_iff.1 hf
      exact .ternary hkind hprim ha hb hc
  case h_7 params hkind =>
    obtain ⟨target, htarget, hf⟩ := bind_eq_ok_iff.1 hf
    obtain ⟨pattern, hpattern, hf⟩ := bind_eq_ok_iff.1 hf
    obtain ⟨b, hb, hf⟩ := bind_eq_ok_iff.1 hf
    obtain ⟨replacement, hreplacement, hf⟩ := bind_eq_ok_iff.1 hf
    obtain ⟨c, hc, hf⟩ := bind_eq_ok_iff.1 hf
    obtain ⟨a, ha, hf⟩ := bind_eq_ok_iff.1 hf
    obtain ⟨x, hx, hf⟩ := bind_eq_ok_iff.1 hf
    obtain rfl := pure_eq_ok_iff.1 hf
    simp only [PlanError.ofGraph_eq_ok_iff, Graph.hop_eq_ok_iff] at htarget hpattern hreplacement hx
    refine .replace hkind ?_ ha hb hc hx htarget hpattern hreplacement
    split
    · exact .inr rfl
    · exact .inl rfl
  case h_8 hkind =>
    obtain ⟨x, hx, hf⟩ := bind_eq_ok_iff.1 hf
    split at hf
    · simp at hf
    · rename_i cols hcols
      obtain ⟨a, ha, hf⟩ := bind_eq_ok_iff.1 hf
      obtain ⟨upper, hupper, hf⟩ := bind_eq_ok_iff.1 hf
      obtain ⟨y, hy, hf⟩ := bind_eq_ok_iff.1 hf
      obtain rfl := pure_eq_ok_iff.1 hf
      -- A bound that is a literal is written into the kernel, whether it is bound or not.
      split
      · rename_i value hvalue
        exact .cellOfLiteral hkind ha hx hcols hy hvalue
      · rename_i hnone
        exact .cellOfNode hkind ha hupper hx hcols hy hnone
  case h_9 => simp at hf

end RowAgg

/-! ## The outer-product template -/

namespace OuterProduct

/-- The fragments of the outer-product template, and the nodes they are made from. -/
inductive Becomes (g : Graph) (d : Draft) (h : Hop) : Fragment → Prop
  | unary {op : UnaryOp} {prim : UnaryPrim} {a : NodeId} (kind : h.kind = .unary op)
      (supported : op.primitive? = some prim) (operand : d.operand h 0 = .ok a) :
      Becomes g d h (.unary prim (.node a))
  | cells {op : BinaryOp} {cellOp : CellOp} {a b : NodeId} (kind : h.kind = .binary op)
      (supported : op.cellOp? = some cellOp) (left : d.operand h 0 = .ok a)
      (right : d.operand h 1 = .ok b) :
      Becomes g d h (.binary (.cell cellOp) (readVector d.table a) (readVector d.table b))
  | dotProduct {a b : NodeId} (kind : h.kind = .matmul) (like : g.isOuterProductLike h.id = true)
      (left : d.factor g h 0 = .ok a) (right : d.factor g h 1 = .ok b) :
      Becomes g d h (.binary .dotProduct (.node a) (.node b))
  | addedRows {i j : Nat} {a b : NodeId} (kind : h.kind = .matmul)
      (row : d.factor g h i = .ok a) (cell : d.factor g h j = .ok b)
      (positions : (i = 0 ∧ j = 1) ∨ (i = 1 ∧ j = 0)) (other : g.isOuterProductLike h.id = false) :
      Becomes g d h (.binary (.rowAdd .mult) (.node a) (.node b))
  | passed {a : NodeId} (kind : h.kind = .reorg .transpose ∨ h.kind = .aggUnary .sum .rowCol)
      (operand : d.operand h 0 = .ok a) : Becomes g d h (.node a)

variable {g : Graph} {d : Draft} {h : Hop} {f : Fragment}

/-- What a hop is lowered to is one of these fragments. -/
theorem becomes_of_fragment (hf : fragment g d h = .ok f) : Becomes g d h f := by
  unfold fragment at hf
  split at hf
  case h_1 op hkind =>
    split at hf
    · simp at hf
    · rename_i prim hprim
      obtain ⟨a, ha, hf⟩ := bind_eq_ok_iff.1 hf
      obtain rfl := pure_eq_ok_iff.1 hf
      exact .unary hkind hprim ha
  case h_2 op hkind =>
    split at hf
    · simp at hf
    · rename_i cellOp hcell
      obtain ⟨a, ha, hf⟩ := bind_eq_ok_iff.1 hf
      obtain ⟨b, hb, hf⟩ := bind_eq_ok_iff.1 hf
      obtain rfl := pure_eq_ok_iff.1 hf
      exact .cells hkind hcell ha hb
  case h_3 hkind =>
    obtain ⟨a, ha, hf⟩ := bind_eq_ok_iff.1 hf
    obtain ⟨b, hb, hf⟩ := bind_eq_ok_iff.1 hf
    split at hf
    · rename_i hlike
      obtain rfl := pure_eq_ok_iff.1 hf
      exact .dotProduct hkind hlike ha hb
    · rename_i hother
      have hother : g.isOuterProductLike h.id = false := by simpa using hother
      -- A scalar on the left changes places with the matrix.
      split at hf
      · obtain rfl := pure_eq_ok_iff.1 hf
        exact .addedRows hkind hb ha (.inr ⟨rfl, rfl⟩) hother
      · obtain rfl := pure_eq_ok_iff.1 hf
        exact .addedRows hkind ha hb (.inl ⟨rfl, rfl⟩) hother
  case h_4 hkind =>
    obtain ⟨a, ha, hf⟩ := bind_eq_ok_iff.1 hf
    obtain rfl := pure_eq_ok_iff.1 hf
    exact .passed (.inl hkind) ha
  case h_5 hkind =>
    obtain ⟨a, ha, hf⟩ := bind_eq_ok_iff.1 hf
    obtain rfl := pure_eq_ok_iff.1 hf
    exact .passed (.inr hkind) ha
  case h_6 => simp at hf

end OuterProduct

end OpFusion
