import OpFusion.Proofs.Kernel.Typing
import OpFusion.Proofs.Memo.RowRegions
import OpFusion.Proofs.Plan.Accumulation
import OpFusion.Proofs.Plan.LoweredNodes

/-!
# Rows and cells

Each hop of a row region stands in the kernel for one row or for one cell of what it computes.
Which of the two follows from the graph and from which hops are lowered (`RowAgg.IsCell`), and the
node of the hop has the type to match (`RowAgg.stands`).
-/

namespace OpFusion

open Kernel

namespace RowAgg

variable {g : Graph} {d : Draft} {memo : Memo} {config : Config} {done : List HopId}
  {table : NodeTable} {t : NodeTable} {h x y : Hop} {e : MemoEntry} {f : Fragment}
  {root : HopId} {a n top : NodeId} {i : Nat}

/-! ## Reading one operand -/

theorem isScalar_readColumn {b : NodeId} (computes : t.Computes (readColumn t a) b) :
    t.check (·.isScalar) b = (t.check (·.isScalar) a || t.check (·.isColVector) a) := by
  unfold readColumn at computes
  split at computes
  · rename_i hcolumn
    obtain ⟨c, hc, hb⟩ := computes
    rw [NodeTable.check_of_node? hb, NodeTable.isScalar_unary hc.lt, hcolumn]
    simp [UnaryPrim.isScalarValued, UnaryPrim.readsCell]
  · rename_i hcolumn
    rw [computes.1, Bool.eq_false_iff.2 hcolumn, Bool.or_false]

theorem isScalar_readCell {b : NodeId} (computes : t.Computes (readCell t a h) b) :
    t.check (·.isScalar) b = (t.check (·.isScalar) a || t.check (·.isColVector) a ||
      t.check (·.isData) a && h.isMatrix) := by
  unfold readCell at computes
  split at computes
  · rename_i hcolumn
    obtain ⟨c, hc, hb⟩ := computes
    rw [NodeTable.check_of_node? hb, NodeTable.isScalar_unary hc.lt, hcolumn]
    simp [UnaryPrim.isScalarValued, UnaryPrim.readsCell]
  · rename_i hcolumn
    split at computes
    · rename_i hcell
      obtain ⟨c, hc, hb⟩ := computes
      rw [NodeTable.check_of_node? hb, NodeTable.isScalar_unary hc.lt, hcell]
      simp [UnaryPrim.isScalarValued, UnaryPrim.readsCell]
    · rename_i hcell
      rw [computes.1, Bool.eq_false_iff.2 hcolumn, Bool.eq_false_iff.2 hcell]
      simp

theorem isScalar_readUnlessScalar {lookup : UnaryPrim} {b : NodeId}
    (hlookup : lookup.isScalarValued = true)
    (computes : t.Computes (readUnlessScalar t lookup a) b) : t.check (·.isScalar) b = true := by
  unfold readUnlessScalar at computes
  split at computes
  · rename_i hscalar
    rwa [computes.1]
  · obtain ⟨c, hc, hb⟩ := computes
    rw [NodeTable.check_of_node? hb, NodeTable.isScalar_unary hc.lt, hlookup, Bool.true_or]

/-- An elementwise operator gives a row for a row. -/
theorem isScalarValued_of_primitive? {op : UnaryOp} {prim : UnaryPrim}
    (hprim : op.primitive? = some prim) : prim.isScalarValued = false := by
  cases op with
  | cast | print | inverse => simp [UnaryOp.primitive?] at hprim
  | _ =>
    obtain rfl := Option.some.inj hprim
    rfl

/-! ## Which hops stand for cells -/

/-- The hop applies a unary operator or a replacement to each cell of the hop `y`. -/
inductive Maps (g : Graph) (h : Hop) (y : HopId) : Prop
  | unary {op : UnaryOp} (kind : h.kind = .unary op) (input : h.input? 0 = some y)
  | replace {params : List (String × Nat)} (kind : h.kind = .builtin .replace params)
      (param : g.paramInput h.id "target" = .ok y)

theorem Maps.unique {y z : HopId} (hy : Maps g h y) (hz : Maps g h z) : y = z := by
  cases hy with
  | unary hkind hy =>
    cases hz with
    | unary _ hz => exact Option.some.inj (hy.symm.trans hz)
    | replace hkind' =>
      rw [hkind] at hkind'
      exact Operator.noConfusion hkind'
  | replace hkind hy =>
    cases hz with
    | replace _ hz => exact Except.ok.inj (hy.symm.trans hz)
    | unary hkind' =>
      rw [hkind] at hkind'
      exact Operator.noConfusion hkind'

/-- A bound hop stands for one cell in each row, and not for the row. -/
inductive IsCell (g : Graph) (d : Draft) : HopId → Prop
  | scalar {x : HopId} {h : Hop} (hop : g.hop? x = some h) (scalar : h.isScalar = true) : IsCell g d x
  /-- A column of the region has one cell in each row. -/
  | column {x : HopId} {h : Hop} (hop : g.hop? x = some h) (lowered : x ∈ d.lowered)
      (column : h.shape.cols = some 1) : IsCell g d x
  /-- From a matrix outside of the region one cell is read at a time. -/
  | read {x y : HopId} {h : Hop} (hop : g.hop? x = some h) (lowered : x ∈ d.lowered)
      (maps : Maps g h y) (outside : y ∉ d.lowered) : IsCell g d x
  | mapped {x y : HopId} {h : Hop} (hop : g.hop? x = some h) (lowered : x ∈ d.lowered)
      (maps : Maps g h y) (cell : IsCell g d y) : IsCell g d x
  /-- A scalar combined with a cell gives a cell. -/
  | combined {x : HopId} {h a y : Hop} {op : BinaryOp} (hop : g.hop? x = some h)
      (lowered : x ∈ d.lowered) (kind : h.kind = .binary op) (left : g.input? x 0 = some a)
      (scalar : a.isScalar = true) (right : g.input? x 1 = some y) (cell : IsCell g d y.id) :
      IsCell g d x

/-- A hop from outside stands for a cell if it is a scalar. -/
theorem isCell_iff_of_not_lowered {x : HopId} (hh : g.hop? x = some h) (hx : x ∉ d.lowered) :
    IsCell g d x ↔ h.isScalar = true := by
  constructor
  · intro hcell
    cases hcell with
    | scalar hh' hscalar => rwa [Option.some.inj (hh.symm.trans hh')]
    | column _ hlowered | read _ hlowered | mapped _ hlowered | combined _ hlowered =>
      exact absurd hlowered hx
  · exact .scalar hh

theorem isCell_iff_of_maps (hh : g.hop? h.id = some h) (hid : h.id ∈ d.lowered)
    (hmatrix : h.isMatrix = true) {y : HopId} (maps : Maps g h y) :
    IsCell g d h.id ↔ h.shape.cols = some 1 ∨ y ∉ d.lowered ∨ IsCell g d y := by
  have same {h' : Hop} (hh' : g.hop? h.id = some h') : h' = h := Option.some.inj (hh'.symm.trans hh)
  constructor
  · intro hcell
    cases hcell with
    | scalar hh' hscalar =>
      rw [same hh', Hop.not_isScalar_of_isMatrix hmatrix] at hscalar
      exact Bool.noConfusion hscalar
    | column hh' _ hcolumn => exact .inl (same hh' ▸ hcolumn)
    | read hh' _ maps' houtside => exact .inr (.inl (maps.unique (same hh' ▸ maps') ▸ houtside))
    | mapped hh' _ maps' hcell => exact .inr (.inr (maps.unique (same hh' ▸ maps') ▸ hcell))
    | combined hh' _ hkind' =>
      rw [same hh'] at hkind'
      cases maps with
      | unary hkind | replace hkind =>
        rw [hkind] at hkind'
        exact Operator.noConfusion hkind'
  · rintro (hcolumn | houtside | hcell)
    · exact .column hh hid hcolumn
    · exact .read hh hid maps houtside
    · exact .mapped hh hid maps hcell

theorem isCell_iff_of_binary (hh : g.hop? h.id = some h) (hid : h.id ∈ d.lowered)
    (hmatrix : h.isMatrix = true) {op : BinaryOp} (hkind : h.kind = .binary op)
    (hx : g.input? h.id 0 = some x) (hy : g.input? h.id 1 = some y) :
    IsCell g d h.id ↔ h.shape.cols = some 1 ∨ x.isScalar = true ∧ IsCell g d y.id := by
  have same {h' : Hop} (hh' : g.hop? h.id = some h') : h' = h := Option.some.inj (hh'.symm.trans hh)
  constructor
  · intro hcell
    cases hcell with
    | scalar hh' hscalar =>
      rw [same hh', Hop.not_isScalar_of_isMatrix hmatrix] at hscalar
      exact Bool.noConfusion hscalar
    | column hh' _ hcolumn => exact .inl (same hh' ▸ hcolumn)
    | read hh' _ maps | mapped hh' _ maps =>
      rw [same hh'] at maps
      cases maps with
      | unary hkind' | replace hkind' =>
        rw [hkind] at hkind'
        exact Operator.noConfusion hkind'
    | combined _ _ _ hx' hscalar hy' hcell =>
      obtain rfl := Option.some.inj (hx.symm.trans hx')
      obtain rfl := Option.some.inj (hy.symm.trans hy')
      exact .inr ⟨hscalar, hcell⟩
  · rintro (hcolumn | ⟨hscalar, hcell⟩)
    · exact .column hh hid hcolumn
    · exact .combined hh hid hkind hx hscalar hy hcell

/-! ## The node of a hop -/

/-- A node stands for a bound hop: it is a scalar if the hop stands for a cell, and otherwise a
matrix of the extents of the hop, which is an input if the hop lies outside of the region. -/
structure Stands (g : Graph) (d : Draft) (x : HopId) (h : Hop) (n : Node) : Prop where
  cell_iff : n.isScalar = true ↔ IsCell g d x
  shape : n.isMatrix = true → n.shape = h.shape
  input_iff : n.isMatrix = true → (n.isData = true ↔ x ∉ d.lowered)

section Stands

variable {id : HopId} {k : Node} {b : NodeId}

theorem Stands.check_isScalar (stands : Stands g d id h k) (hk : d.table.node? a = some k) :
    d.table.check (·.isScalar) a = true ↔ IsCell g d id := by
  rw [NodeTable.check_of_node? hk]
  exact stands.cell_iff

theorem Stands.check_isMatrix (stands : Stands g d id h k) (hk : d.table.node? a = some k) :
    d.table.check (·.isMatrix) a = true ↔ ¬ IsCell g d id := by
  rw [← stands.check_isScalar hk, NodeTable.check_isMatrix (NodeTable.lt_size_of_node? hk)]
  simp

theorem Stands.isScalar_readColumn (stands : Stands g d id h k) (hk : d.table.node? a = some k)
    (computes : d.table.Computes (readColumn d.table a) b) :
    d.table.check (·.isScalar) b = true ↔ IsCell g d id ∨ h.shape.isColVector = true := by
  rw [RowAgg.isScalar_readColumn computes, Bool.or_eq_true, stands.check_isScalar hk,
    NodeTable.check_of_node? hk, ← stands.cell_iff]
  cases hscalar : k.isScalar with
  | true => simp
  | false =>
    have hmatrix : k.isMatrix = true := by rw [Node.isMatrix_eq, hscalar]; rfl
    simp [Node.isColVector, hmatrix, stands.shape hmatrix]

theorem Stands.isScalar_readCell (stands : Stands g d id h k) (hk : d.table.node? a = some k)
    (hh : h.isMatrix = true) (computes : d.table.Computes (readCell d.table a h) b) :
    d.table.check (·.isScalar) b = true ↔
      h.shape.isColVector = true ∨ id ∉ d.lowered ∨ IsCell g d id := by
  rw [RowAgg.isScalar_readCell computes, Bool.or_eq_true, Bool.or_eq_true, stands.check_isScalar hk,
    NodeTable.check_of_node? hk, NodeTable.check_of_node? hk, hh, Bool.and_true, ← stands.cell_iff]
  cases hscalar : k.isScalar with
  | true => simp
  | false =>
    have hmatrix : k.isMatrix = true := by rw [Node.isMatrix_eq, hscalar]; rfl
    simp [Node.isColVector, hmatrix, stands.shape hmatrix, stands.input_iff hmatrix]

end Stands

/-! ## The fragments of a region -/

/-- The hop reads `x` at a position, and `a` is the node of `x`. -/
structure Operand (g : Graph) (d : Draft) (h : Hop) (i : Nat) (x : Hop) (a : NodeId) : Prop where
  input : g.input? h.id i = some x
  node : d.node? x.id = some a

theorem operand_of (wf : g.WellFormed) (hh : g.hop? h.id = some h) (hx : g.input? h.id i = some x)
    (ha : d.operand h i = .ok a) : Operand g d h i x a := by
  obtain ⟨z, hz, hhz⟩ := (Graph.input?_iff_of_hop? hh).1 hx
  obtain ⟨z', hz', hn⟩ := Draft.operand_eq_ok_iff.1 ha
  obtain rfl : z = z' := Option.some.inj (hz.symm.trans hz')
  exact ⟨hx, wf.id_eq hhz ▸ hn⟩

theorem Operand.hop (operand : Operand g d h i x a) (wf : g.WellFormed)
    (hh : g.hop? h.id = some h) : g.hop? x.id = some x ∧ h.input? i = some x.id := by
  obtain ⟨z, hz, hhz⟩ := (Graph.input?_iff_of_hop? hh).1 operand.input
  rw [wf.id_eq hhz]
  exact ⟨hhz, hz⟩

/-- What the hops of a region become, with what is known of their operands. -/
inductive Forms (g : Graph) (d : Draft) (h : Hop) : Fragment → Prop
  | columnSum {x : Hop} {a : NodeId} (kind : h.kind = .aggUnary .sum .col)
      (operand : Operand g d h 0 x a) : Forms g d h (sumColumns d.table a)
  | rowSumOfColumn {x : Hop} {a : NodeId} (kind : h.kind = .aggUnary .sum .row)
      (operand : Operand g d h 0 x a) : Forms g d h (readUnlessScalar d.table .lookupRow a)
  | rowSum {x : Hop} {a : NodeId} (kind : h.kind = .aggUnary .sum .row)
      (operand : Operand g d h 0 x a) : Forms g d h (.unary .rowSums (.node a))
  | addedRows {x y : Hop} {a b : NodeId} (kind : h.kind = .matmul)
      (left : g.input? h.id 0 = some x) (transpose : x.isTranspose = true)
      (row : d.node? x.untransposed = some a) (cell : Operand g d h 1 y b) :
      Forms g d h (.binary (.rowAdd .mult) (.node a) (.node b))
  | dotProduct {x y : Hop} {a b : NodeId} (kind : h.kind = .matmul) (left : Operand g d h 0 x a)
      (straight : x.isTranspose = false) (right : Operand g d h 1 y b)
      (column : y.shape.cols = some 1) : Forms g d h (.binary .dotProduct (.node a) (.node b))
  | unary {op : UnaryOp} {prim : UnaryPrim} {x : Hop} {a : NodeId} (kind : h.kind = .unary op)
      (supported : op.primitive? = some prim) (operand : Operand g d h 0 x a)
      (spans : x.spansRows = true) : Forms g d h (.unary prim (readCell d.table a x))
  | rowAndCell {op : BinaryOp} {rowOp : RowOp} {x y : Hop} {a b : NodeId} (kind : h.kind = .binary op)
      (left : Operand g d h 0 x a) (genuine : x.isGenuineMatrix = true) (right : Operand g d h 1 y b)
      (narrow : y.isColVector = true ∨ y.isScalar = true) :
      Forms g d h (.binary (.rowScalar rowOp) (.node a) (readColumn d.table b))
  | columnAndScalar {op : BinaryOp} {cellOp : CellOp} {x y : Hop} {a b : NodeId}
      (kind : h.kind = .binary op) (left : Operand g d h 0 x a) (spans : x.spansRows = true)
      (column : x.shape.cols = some 1) (right : Operand g d h 1 y b) (scalar : y.isScalar = true) :
      Forms g d h (.binary (.cell cellOp) (readColumn d.table a) (readColumn d.table b))
  | scalarAndMatrix {op : BinaryOp} {cellOp : CellOp} {x y : Hop} {a b : NodeId}
      (kind : h.kind = .binary op) (left : Operand g d h 0 x a) (scalar : x.isScalar = true)
      (right : Operand g d h 1 y b) (spans : y.spansRows = true) :
      Forms g d h (.binary (.cell cellOp) (readColumn d.table a) (readColumn d.table b))
  | replace {params : List (String × Nat)} {prim : TernaryPrim} {x y z : Hop} {a b c : NodeId}
      {i j k : Nat} (kind : h.kind = .builtin .replace params) (replaces : prim ≠ .lookupColumn)
      (param : g.paramInput h.id "target" = .ok x.id) (target : Operand g d h i x a)
      (spans : x.spansRows = true) (pattern : Operand g d h j y b)
      (replacement : Operand g d h k z c) (scalars : y.isScalar = true ∧ z.isScalar = true) :
      Forms g d h (.ternary prim (readCell d.table a x) (.node b) (.node c))

/-- What a hop of a region becomes has one of these forms. -/
theorem forms_of_becomes (typed : g.IsTyped) (scalars : g.replacesScalars = true)
    (hh : g.hop? h.id = some h) (member : Member g h) (becomes : Becomes g d h f) :
    Forms g d h f := by
  have wf := typed.isBuilt.wellFormed
  have input {i : Nat} {x : Hop} (hx : Draft.operandHop g h i = .ok x) :
      g.input? h.id i = some x := (Draft.operandHop_eq_ok_iff_input? hh).1 hx
  have operand {i : Nat} {x : Hop} {a : NodeId} (hx : g.input? h.id i = some x)
      (ha : d.operand h i = .ok a) : Operand g d h i x a := operand_of wf hh hx ha
  -- A multiply takes over a transposition on its left only.
  have factor {x : Hop} {a : NodeId} (hx : g.input? h.id 0 = some x) (ha : d.factor g h 0 = .ok a) :
      d.node? x.untransposed = some a := Draft.node?_of_factor wf hh hx ha
  cases becomes with
  | rowSumOfColumn hkind ha hx _ => exact .rowSumOfColumn hkind (operand (input hx) ha)
  | rowSum hkind ha hx _ => exact .rowSum hkind (operand (input hx) ha)
  | columnSum hkind ha =>
    obtain ⟨x, hx⟩ := exists_operand wf hh (n := 1) (by rw [hkind]; rfl) (i := 0) (by omega)
    exact .columnSum hkind (operand hx ha)
  | addedRows hkind hx htransposed ha hb =>
    obtain ⟨_, y, _, hy, _⟩ := member.matmul hkind
    exact .addedRows hkind (input hx) htransposed (factor (input hx) ha) (operand hy hb)
  | productOfCells hkind _ _ hx _ hcolumns hstraight =>
    obtain ⟨x', _, hx', _, hcases⟩ := member.matmul hkind
    obtain rfl := Option.some.inj ((input hx).symm.trans hx')
    rcases hcases with htransposed | ⟨_, hgenuine, _⟩
    · rw [hstraight] at htransposed
      exact Bool.noConfusion htransposed
    · exact absurd hcolumns.1 (Hop.cols_ne_one_of_isGenuineMatrix hgenuine)
  | dotProduct hkind ha hb hx hy hstraight _ =>
    obtain ⟨x', y', hx', hy', hcases⟩ := member.matmul hkind
    obtain rfl := Option.some.inj ((input hx).symm.trans hx')
    obtain rfl := Option.some.inj ((input hy).symm.trans hy')
    rcases hcases with htransposed | ⟨_, _, hcolumn⟩
    · rw [hstraight] at htransposed
      exact Bool.noConfusion htransposed
    · have hnode := factor hx' ha
      rw [Hop.untransposed, Hop.transposed?, hstraight] at hnode
      exact .dotProduct hkind ⟨hx', hnode⟩ hstraight (operand hy' hb) hcolumn
  | unary hkind hop hx ha =>
    obtain ⟨x', hx', hspans⟩ := member.operand_of_unary hkind
    obtain rfl := Option.some.inj ((input hx).symm.trans hx')
    exact .unary hkind hop (operand hx' ha) hspans
  | rowAndCell hkind _ hx hgenuine ha hb =>
    obtain ⟨x', y, hx', hy, hcases⟩ := member.operands_of_binary hkind
    obtain rfl := Option.some.inj ((input hx).symm.trans hx')
    have left := operand hx' ha
    have hx := typed.isGenuineMatrix (left.hop wf hh).1 hgenuine
    rcases hcases with ⟨_, hcolumn⟩ | ⟨_, hscalar⟩ | ⟨hscalar, _⟩
    · exact .rowAndCell hkind left hx (operand hy hb) (.inl hcolumn)
    · exact .rowAndCell hkind left hx (operand hy hb) (.inr hscalar)
    · rw [Hop.not_isGenuineMatrix_of_isScalar hscalar] at hx
      exact Bool.noConfusion hx
  | @cells op cellOp x a b hkind _ ha hb hx hnarrow =>
    obtain ⟨x', y, hx', hy, hcases⟩ := member.operands_of_binary hkind
    obtain rfl := Option.some.inj ((input hx).symm.trans hx')
    have not_genuine : ¬ x.isGenuineMatrix = true := by simp [Hop.isGenuineMatrix, hnarrow]
    rcases hcases with ⟨hgenuine, _⟩ | ⟨hspans, hscalar⟩ | ⟨hscalar, hspans⟩
    · exact absurd hgenuine not_genuine
    · have hcolumn := (Hop.cols_or_isGenuineMatrix hspans).resolve_right not_genuine
      exact .columnAndScalar hkind (operand hx' ha) hspans hcolumn (operand hy hb) hscalar
    · exact .scalarAndMatrix hkind (operand hx' ha) hscalar (operand hy hb) hspans
  | ternary hkind => exact absurd hkind (member.not_unmatched.1 _)
  | replace hkind hprim ha hb hc hx htarget hpattern hreplacement =>
    obtain ⟨target, x', htarget', hx', hspans⟩ := member.target_of_replace hkind
    obtain rfl := Except.ok.inj (htarget.symm.trans htarget')
    obtain rfl := Option.some.inj (hx.symm.trans hx')
    obtain rfl := wf.id_eq hx
    have hlookup : ∀ prim : TernaryPrim, prim = .replace ∨ prim = .replaceNaN →
        prim ≠ .lookupColumn := by
      rintro _ (rfl | rfl) <;> exact TernaryPrim.noConfusion
    have parameter {name : String} {y : HopId} {b : NodeId} (hy : g.paramInput h.id name = .ok y)
        (hb : d.node y = .ok b) : ∃ i z, g.hop? y = some z ∧ Operand g d h i z b := by
      obtain ⟨i, hi⟩ := Graph.exists_input?_of_paramInput hh hy
      obtain ⟨z, hz⟩ := wf.exists_input hh (List.mem_of_getElem? hi)
      have hinput := (Graph.input?_iff_of_hop? hh).2 ⟨y, hi, hz⟩
      exact ⟨i, z, hz,
        operand hinput (Draft.operand_eq_ok_iff.2 ⟨y, hi, Draft.node_eq_ok_iff.1 hb⟩)⟩
    obtain ⟨i, x', hx', first⟩ := parameter htarget ha
    obtain ⟨j, y, hy, second⟩ := parameter hpattern hb
    obtain ⟨k, z, hz, third⟩ := parameter hreplacement hc
    obtain rfl := Option.some.inj (hx.symm.trans hx')
    exact .replace hkind (hlookup _ hprim) htarget first hspans second third
      ⟨isScalar_of_paramInput scalars hh hkind (.inl rfl) hpattern hy,
        isScalar_of_paramInput scalars hh hkind (.inr rfl) hreplacement hz⟩
  | cellOfLiteral hkind | cellOfNode hkind => exact absurd hkind member.not_unmatched.2

/-! ## Nodes of bound hops -/

theorem stands_fitted {k : Node} (hmatrix : h.isMatrix = true) (hid : h.id ∈ d.lowered)
    (hcell : k.isScalar = true ↔ IsCell g d h.id) (hdata : k.isMatrix = true → k.isData = false) :
    Stands g d h.id h (k.fitted h) := by
  have same : (k.fitted h).isMatrix = k.isMatrix := by simp [Node.isMatrix_eq]
  refine ⟨by rwa [Node.isScalar_fitted], fun hm => ?_, fun hm => ?_⟩
  · exact Node.shape_fitted hmatrix (same ▸ hm)
  · rw [Node.isData_fitted, hdata (same ▸ hm)]
    simp [hid]

section Made

variable (made : Draft.Made .rowAgg g memo d h e f top n) (hid : h.id ∈ d.lowered)
  (hmatrix : h.isMatrix = true)
include made hid hmatrix

/-- A scalar on top stands for a column. -/
theorem stands_of_cell (hscalar : d.table.check (·.isScalar) top = true)
    (hcolumn : h.shape.cols = some 1) : ∃ k, d.table.node? n = some k ∧ Stands g d h.id h k := by
  obtain ⟨k, hk, hn⟩ := made.fitted
  rw [NodeTable.check_of_node? hk] at hscalar
  refine ⟨k.fitted h, hn, stands_fitted hmatrix hid ?_ fun hm => ?_⟩
  · simp [hscalar, IsCell.column made.hop hid hcolumn]
  · rw [Node.isMatrix_eq, hscalar] at hm
    exact Bool.noConfusion hm

/-- A new node on top stands for a hop that is a cell exactly if the node is a scalar. -/
theorem stands_of_top {k : Node} (hk : d.table.node? top = some k)
    (hcell : k.isScalar = true ↔ IsCell g d h.id) (hdata : k.isData = false) :
    ∃ k, d.table.node? n = some k ∧ Stands g d h.id h k := by
  obtain ⟨k', hk', hn⟩ := made.fitted
  obtain rfl := Option.some.inj (hk.symm.trans hk')
  exact ⟨k.fitted h, hn, stands_fitted hmatrix hid hcell fun _ => hdata⟩

end Made

/-- The node of a hop that leaves its region open stands for the hop, if those of its operands
stand for them. -/
theorem Forms.stands (typed : g.IsTyped) (made : Draft.Made .rowAgg g memo d h e f top n)
    (forms : Forms g d h f) (hid : h.id ∈ d.lowered) (hopen : closing g h.id = .stillOpen)
    (hspans : h.spansRows = true)
    (below : ∀ {i x a}, Operand g d h i x a →
      ∃ k, d.table.node? a = some k ∧ Stands g d x.id x k) :
    ∃ k, d.table.node? n = some k ∧ Stands g d h.id h k := by
  have wf := typed.isBuilt.wellFormed
  have hh := made.hop
  have hmatrix := (Hop.spansRows_iff.1 hspans).1
  have computes := made.computes
  have row_cols {op : AggOp} {x : Hop} (hkind : h.kind = .aggUnary op .row)
      (hx : g.input? h.id 0 = some x) : h.shape.cols = some 1 := by
    have hshape := congrArg Prod.snd (typed.result_of_aggUnary hh hkind hx)
    exact congrArg Shape.cols hshape
  cases forms with
  | columnSum hkind _ => simp [closing, hh, hkind] at hopen
  | rowSumOfColumn hkind operand =>
    exact stands_of_cell made hid hmatrix (isScalar_readUnlessScalar rfl computes) (row_cols hkind operand.input)
  | rowSum hkind operand =>
    obtain ⟨b, hb, htop⟩ := computes
    refine stands_of_cell made hid hmatrix ?_ (row_cols hkind operand.input)
    rw [NodeTable.check_of_node? htop, NodeTable.isScalar_unary hb.lt]
    rfl
  | addedRows hkind hx htranspose =>
    simp [closing, hh, hkind, hasTransposedLeft, hx, htranspose] at hopen
  | dotProduct hkind left _ right hcolumn =>
    obtain ⟨_, _, _, _, htop⟩ := computes
    refine stands_of_cell made hid hmatrix ?_ ?_
    · rw [NodeTable.check_of_node? htop]
      rfl
    · rw [typed.shape_of_matmul hh hkind left.input right.input]
      exact hcolumn
  | unary hkind hprim operand hspans' =>
    obtain ⟨b, hb, htop⟩ := computes
    obtain ⟨k', hk', stands⟩ := below operand
    obtain ⟨hhx, hinput⟩ := operand.hop wf hh
    refine stands_of_top made hid hmatrix htop ?_ (by simp [Node.isData])
    rw [NodeTable.isScalar_unary hb.lt, isScalarValued_of_primitive? hprim, Bool.false_or,
      stands.isScalar_readCell hk' (Hop.spansRows_iff.1 hspans').1 hb,
      Hop.isColVector_iff_of_spansRows hspans',
      isCell_iff_of_maps hh hid hmatrix (.unary hkind hinput),
      typed.shape_of_unary hh hkind operand.input]
  | rowAndCell hkind left hgenuine right _ =>
    obtain ⟨_, _, _, _, htop⟩ := computes
    refine stands_of_top made hid hmatrix htop ?_ (by simp [Node.isData])
    obtain ⟨_, hshape⟩ := typed.shape_of_genuine_left hh hkind left.input right.input hgenuine
    rw [isCell_iff_of_binary hh hid hmatrix hkind left.input right.input, hshape,
      Hop.not_isScalar_of_isMatrix (Hop.isGenuineMatrix_iff.1 hgenuine).1]
    simp [NodeTable.binary, Node.isScalar, Hop.cols_ne_one_of_isGenuineMatrix hgenuine]
  | columnAndScalar hkind left hspans' hcolumn right hscalar =>
    obtain ⟨b, c, hb, hc, htop⟩ := computes
    obtain ⟨k₁, hk₁, stands₁⟩ := below left
    obtain ⟨k₂, hk₂, stands₂⟩ := below right
    obtain ⟨hhy, _⟩ := right.hop wf hh
    refine stands_of_cell made hid hmatrix ?_ ?_
    · rw [NodeTable.check_of_node? htop, NodeTable.isScalar_cell hb.lt hc.lt, Bool.and_eq_true,
        stands₁.isScalar_readColumn hk₁ hb, stands₂.isScalar_readColumn hk₂ hc,
        Hop.isColVector_iff_of_spansRows hspans']
      exact ⟨.inr hcolumn, .inl (.scalar hhy hscalar)⟩
    · have hm := (Hop.spansRows_iff.1 hspans').1
      rw [(typed.shape_of_binary_scalar hh hkind left.input right.input).1 hm hscalar]
      exact hcolumn
  | scalarAndMatrix hkind left hscalar right hspans' =>
    obtain ⟨b, c, hb, hc, htop⟩ := computes
    obtain ⟨k₁, hk₁, stands₁⟩ := below left
    obtain ⟨k₂, hk₂, stands₂⟩ := below right
    obtain ⟨hhx, _⟩ := left.hop wf hh
    have hm := (Hop.spansRows_iff.1 hspans').1
    refine stands_of_top made hid hmatrix htop ?_ (by simp [Node.isData])
    rw [NodeTable.isScalar_cell hb.lt hc.lt, Bool.and_eq_true,
      stands₁.isScalar_readColumn hk₁ hb, stands₂.isScalar_readColumn hk₂ hc,
      Hop.isColVector_iff_of_spansRows hspans',
      isCell_iff_of_binary hh hid hmatrix hkind left.input right.input,
      (typed.shape_of_binary_scalar hh hkind left.input right.input).2 hscalar hm]
    simp [hscalar, IsCell.scalar hhx hscalar, or_comm]
  | replace hkind hprim hparam target hspans' pattern replacement hscalars =>
    obtain ⟨u, v, w, hu, ⟨rfl, hv⟩, ⟨rfl, hw⟩, htop⟩ := computes
    obtain ⟨k₁, hk₁, stands₁⟩ := below target
    obtain ⟨k₂, hk₂, stands₂⟩ := below pattern
    obtain ⟨k₃, hk₃, stands₃⟩ := below replacement
    obtain ⟨target', x', hparam', hx', _, hshape⟩ := typed.result_of_replace hh hkind
    obtain rfl := Except.ok.inj (hparam.symm.trans hparam')
    obtain rfl := Option.some.inj ((target.hop wf hh).1.symm.trans hx')
    have hy : IsCell g d _ := .scalar (pattern.hop wf hh).1 hscalars.1
    have hz : IsCell g d _ := .scalar (replacement.hop wf hh).1 hscalars.2
    refine stands_of_top made hid hmatrix htop ?_ (by simp [Node.isData])
    rw [NodeTable.isScalar_ternary hprim hu.lt hv hw, Bool.and_eq_true, Bool.and_eq_true,
      stands₁.isScalar_readCell hk₁ (Hop.spansRows_iff.1 hspans').1 hu,
      Hop.isColVector_iff_of_spansRows hspans', stands₂.check_isScalar hk₂,
      stands₃.check_isScalar hk₃, isCell_iff_of_maps hh hid hmatrix (.replace hkind hparam), hshape]
    simp [hy, hz]

/-- The node of a hop from outside stands for it. -/
theorem stands_of_boundary (typed : g.IsTyped)
    (hd : Draft.ofRegion .rowAgg g memo config table root = .ok d) {id : HopId}
    (hid : id ∈ d.boundary) (hh : g.hop? id = some h) (hn : d.node? id = some n) :
    ∃ k, d.table.node? n = some k ∧ Stands g d id h k := by
  have acc := Draft.accounted_of_ofRegion typed.isBuilt.wellFormed hd
  obtain ⟨h', n', hh', hn', hnode⟩ := acc.node?_of_mem_boundary hid
  obtain rfl := Option.some.inj (hh.symm.trans hh')
  obtain rfl := Option.some.inj (hn.symm.trans hn')
  have houtside := acc.not_mem_lowered hid
  refine ⟨_, hnode, ?_⟩
  cases hliteral : h.literal? with
  | none =>
    rw [Draft.boundaryNode_eq_data hliteral]
    exact ⟨(isCell_iff_of_not_lowered hh houtside).symm, fun _ => rfl, fun _ => by simpa [Node.isData]⟩
  | some value =>
    -- A literal is a scalar, whether it is read or written into the kernel.
    have hkind := Hop.exists_literal_of_literal? hliteral
    have hscalar : h.isScalar = true := decide_eq_true (typed.dataType_of_literal hh hkind)
    have hnode : (Draft.boundaryNode config h).isScalar = true := by
      unfold Draft.boundaryNode
      rw [hkind]
      by_cases hcompile : config.compileLiterals = true
      · simp [hcompile, Node.isScalar, Node.literal]
      · simp only [hcompile]
        exact hscalar
    have hnot : ¬ (Draft.boundaryNode config h).isMatrix = true := by
      rw [Node.isMatrix_eq, hnode]
      exact Bool.noConfusion
    refine ⟨?_, fun hm => absurd hm hnot, fun hm => absurd hm hnot⟩
    rw [isCell_iff_of_not_lowered hh houtside, hnode, hscalar]

/-- Every lowered hop but the root has an open region. -/
theorem hasOpen_of_mem_lowered (explored : memo.ExploredBy g config done) (wf : g.WellFormed)
    (hd : Draft.ofRegion .rowAgg g memo config table root = .ok d) {id : HopId}
    (hid : id ∈ d.lowered) (hlt : id < root) : memo.hasOpen id .rowAgg = true := by
  rcases Draft.referred_of_mem_lowered wf hd hid with rfl | ⟨y, _, hrefers⟩
  · exact absurd hlt (Nat.lt_irrefl _)
  · exact explored.hasOpen_of_refers hrefers

/-- The node of every bound hop below the root stands for it. -/
theorem stands (explored : memo.ExploredBy g config done) (typed : g.IsTyped)
    (scalars : g.replacesScalars = true)
    (hd : Draft.ofRegion .rowAgg g memo config table root = .ok d) :
    ∀ {id : HopId} {h : Hop} {n : NodeId}, id < root → g.hop? id = some h → d.node? id = some n →
      ∃ k, d.table.node? n = some k ∧ Stands g d id h k := by
  have wf := typed.isBuilt.wellFormed
  intro id
  induction id using Nat.strong_induction_on with
  | _ id ih =>
    intro h n hlt hh hn
    rcases Draft.mem_lowered_or_mem_boundary ⟨n, hn⟩ with hlowered | hboundary
    · obtain ⟨e, f, top, n', rfl, made⟩ := Draft.exists_made_of_hop? wf hd hlowered hh
      obtain rfl := Option.some.inj (hn.symm.trans made.node)
      have hopen := hasOpen_of_mem_lowered explored wf hd hlowered hlt
      obtain ⟨hspans, _⟩ := explored.spansRows_of_hasOpen typed scalars hopen hh
      obtain ⟨h', hh', hclosing⟩ := explored.stillOpen hopen
      obtain rfl := Option.some.inj (hh.symm.trans hh')
      have member := explored.member typed scalars hh made.best
      have forms := forms_of_becomes typed scalars hh member made.becomes
      refine forms.stands typed made hlowered hclosing hspans fun operand => ?_
      obtain ⟨hhx, hinput⟩ := operand.hop wf hh
      have hbelow := wf.input?_lt hh hinput
      exact ih _ hbelow (Nat.lt_trans hbelow hlt) hhx operand.node
    · exact stands_of_boundary typed hd hboundary hh hn

end RowAgg

end OpFusion
