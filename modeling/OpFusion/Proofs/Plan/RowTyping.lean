import OpFusion.Proofs.Plan.RowInputs
import OpFusion.Proofs.Plan.RowNodes

/-!
# Types in row kernels

The primitive that a hop becomes is chosen from the extents of its operands. Whether an operand
stands for a row or for a cell is decided elsewhere, so the two can clash (`RowAgg.Clash`). The body
of a row kernel is well typed exactly if no lowered hop clashes with its operands
(`Plan.rowAgg_isWellTyped_iff`): each lowered hop is read by another one up to the root, so no clash
goes unnoticed, and below the node of a hop lie, beside its own primitive, only those of its
operands (`RowAgg.Forms.has_misfits_iff`).
-/

namespace OpFusion

open Kernel

namespace RowAgg

variable {g : Graph} {d : Draft} {memo : Memo} {config : Config} {done : List HopId}
  {table : NodeTable} {t : NodeTable} {h x y : Hop} {e : MemoEntry} {f : Fragment}
  {root : HopId} {a b n top : NodeId}

/-! ## Clashes -/

/-- The primitive that a hop becomes is applied to an operand that stands for the other of the two. -/
inductive Clash (g : Graph) (d : Draft) (h : Hop) : Prop
  /-- A multiply by a transpose scales the rows of what is transposed, and adds them up. -/
  | scaledCell {x : Hop} (kind : h.kind = .matmul) (left : g.input? h.id 0 = some x)
      (transpose : x.isTranspose = true) (cell : IsCell g d x.untransposed)
  /-- It scales them by the cells of the right operand, which is never looked up. -/
  | scaledByRow {x y : Hop} (kind : h.kind = .matmul) (left : g.input? h.id 0 = some x)
      (transpose : x.isTranspose = true) (right : g.input? h.id 1 = some y)
      (row : ¬ IsCell g d y.id)
  /-- Every other multiply contracts two rows. -/
  | contractedCell {x y : Hop} (kind : h.kind = .matmul) (left : g.input? h.id 0 = some x)
      (straight : x.isTranspose = false) (right : g.input? h.id 1 = some y)
      (cell : IsCell g d x.id ∨ IsCell g d y.id)
  /-- A binary operator with a scalar on its left combines cells. -/
  | rowAsCell {op : BinaryOp} {x y : Hop} (kind : h.kind = .binary op)
      (left : g.input? h.id 0 = some x) (scalar : x.isScalar = true)
      (right : g.input? h.id 1 = some y) (genuine : y.isGenuineMatrix = true)
      (row : ¬ IsCell g d y.id)
  /-- One with a genuine matrix on its left combines a row with a cell. -/
  | cellAsRow {op : BinaryOp} {x : Hop} (kind : h.kind = .binary op)
      (left : g.input? h.id 0 = some x) (genuine : x.isGenuineMatrix = true)
      (cell : IsCell g d x.id)

/-- Only multiplies and binary operators clash with their operands. -/
theorem Clash.kind (clash : Clash g d h) : h.kind = .matmul ∨ ∃ op, h.kind = .binary op := by
  cases clash with
  | scaledCell hkind | scaledByRow hkind | contractedCell hkind => exact .inl hkind
  | rowAsCell hkind | cellAsRow hkind => exact .inr ⟨_, hkind⟩

theorem clash_iff_of_transpose (hkind : h.kind = .matmul) (hx : g.input? h.id 0 = some x)
    (htranspose : x.isTranspose = true) (hy : g.input? h.id 1 = some y) :
    Clash g d h ↔ IsCell g d x.untransposed ∨ ¬ IsCell g d y.id := by
  constructor
  · intro clash
    cases clash with
    | scaledCell _ hx' _ hcell => exact .inl (Option.some.inj (hx.symm.trans hx') ▸ hcell)
    | scaledByRow _ _ _ hy' hrow => exact .inr (Option.some.inj (hy.symm.trans hy') ▸ hrow)
    | contractedCell _ hx' hstraight =>
      obtain rfl := Option.some.inj (hx.symm.trans hx')
      rw [htranspose] at hstraight
      exact Bool.noConfusion hstraight
    | rowAsCell hkind' | cellAsRow hkind' =>
      rw [hkind] at hkind'
      exact Operator.noConfusion hkind'
  · rintro (hcell | hrow)
    · exact .scaledCell hkind hx htranspose hcell
    · exact .scaledByRow hkind hx htranspose hy hrow

theorem clash_iff_of_straight (hkind : h.kind = .matmul) (hx : g.input? h.id 0 = some x)
    (hstraight : x.isTranspose = false) (hy : g.input? h.id 1 = some y) :
    Clash g d h ↔ IsCell g d x.id ∨ IsCell g d y.id := by
  constructor
  · intro clash
    cases clash with
    | scaledCell _ hx' htranspose | scaledByRow _ hx' htranspose =>
      rw [← Option.some.inj (hx.symm.trans hx'), hstraight] at htranspose
      exact Bool.noConfusion htranspose
    | contractedCell _ hx' _ hy' hcell =>
      obtain rfl := Option.some.inj (hx.symm.trans hx')
      obtain rfl := Option.some.inj (hy.symm.trans hy')
      exact hcell
    | rowAsCell hkind' | cellAsRow hkind' =>
      rw [hkind] at hkind'
      exact Operator.noConfusion hkind'
  · exact .contractedCell hkind hx hstraight hy

theorem clash_iff_of_binary {op : BinaryOp} (hkind : h.kind = .binary op)
    (hx : g.input? h.id 0 = some x) (hy : g.input? h.id 1 = some y) :
    Clash g d h ↔
      x.isScalar = true ∧ y.isGenuineMatrix = true ∧ ¬ IsCell g d y.id ∨
        x.isGenuineMatrix = true ∧ IsCell g d x.id := by
  constructor
  · intro clash
    cases clash with
    | scaledCell hkind' | scaledByRow hkind' | contractedCell hkind' =>
      rw [hkind] at hkind'
      exact Operator.noConfusion hkind'
    | rowAsCell _ hx' hscalar hy' hgenuine hrow =>
      obtain rfl := Option.some.inj (hx.symm.trans hx')
      obtain rfl := Option.some.inj (hy.symm.trans hy')
      exact .inl ⟨hscalar, hgenuine, hrow⟩
    | cellAsRow _ hx' hgenuine hcell =>
      obtain rfl := Option.some.inj (hx.symm.trans hx')
      exact .inr ⟨hgenuine, hcell⟩
  · rintro (⟨hscalar, hgenuine, hrow⟩ | ⟨hgenuine, hcell⟩)
    · exact .rowAsCell hkind hx hscalar hy hgenuine hrow
    · exact .cellAsRow hkind hx hgenuine hcell

/-! ## Misfits below a node -/

theorem not_misfits_unary (prim : UnaryPrim) (a : NodeId) :
    (!t.misfits (.unary prim a)) = true := rfl

/-- Reading an operand adds no misfit. -/
theorem has_misfits_iff_of_read (computes : t.Computes f b) (hleaves : f.leaves = [a])
    (hadmits : f.Admits fun op => !t.misfits op) : t.Has t.misfits b ↔ t.Has t.misfits a := by
  rw [computes.has_iff hadmits, hleaves]
  simp

/-- Adding to the output row at once takes the same operands as filling a temporary row. -/
theorem has_misfits_sumColumns (computes : t.Computes (sumColumns t a) b) :
    t.Has t.misfits b ↔ t.Has t.misfits a := by
  unfold sumColumns at computes
  split at computes
  · rename_i op row cell _ _ ha
    obtain ⟨x, y, ⟨rfl, _⟩, ⟨rfl, _⟩, hiff⟩ := computes.has_misfits_binary
    have hsame : t.fits (.rowAdd op) x y = t.fits (.rowScalar op) x y := rfl
    rw [hiff, hsame, NodeTable.has_iff ha]
    simp [NodeOp.operands, NodeTable.misfits]
  · rw [computes.1]

/-- Misfits lie below a node exactly if the hop clashes with its operands, or if they lie below the
node of an operand. -/
def ExplainsMisfits (g : Graph) (d : Draft) (h : Hop) (n : NodeId) : Prop :=
  d.table.Has d.table.misfits n ↔
    Clash g d h ∨ ∃ i z, Template.operandHop? .rowAgg g h i = some z ∧ d.Has d.table.misfits z

/-- The nodes of the operands stand for them, and no scalar has misfits below its node. -/
structure OperandsStand (g : Graph) (d : Draft) (h : Hop) : Prop where
  stands {id : HopId} {x : Hop} {a : NodeId} : id < h.id → g.hop? id = some x →
    d.node? id = some a → ∃ k, d.table.node? a = some k ∧ Stands g d id x k
  isMatrix {id : HopId} {x : Hop} : id < h.id → g.hop? id = some x → d.Has d.table.misfits id →
    x.isMatrix = true

section Explains

variable (wf : g.WellFormed) (made : Draft.Made .rowAgg g memo d h e f top n)
include wf made

/-- A hop with one operand has no misfit of its own. -/
theorem explainsMisfits_of_one (operand : Operand g d h 0 x a) (harity : h.kind.arity = some 1)
    (htop : d.table.Has d.table.misfits top ↔ d.table.Has d.table.misfits a) :
    ExplainsMisfits g d h n := by
  have hm : h.isMatmul = false := by
    cases hm : h.isMatmul with
    | false => rfl
    | true => simp [(of_decide_eq_true hm : h.kind = .matmul), Operator.arity] at harity
  have hclash : ¬ Clash g d h := by
    intro clash
    rcases clash.kind with hkind | ⟨op, hkind⟩ <;> simp [hkind, Operator.arity] at harity
  have hx : Template.operandHop? .rowAgg g h 0 = some x.id := by
    rw [Template.operandHop?_of_not_matmul hm, (operand.hop wf made.hop).2]
  rw [ExplainsMisfits, made.has_iff, htop,
    Template.exists_operandHop?_iff_one wf made.hop harity hx, Draft.has_iff_of_node? operand.node]
  simp [hclash]

theorem explainsMisfits_of_two {left : HopId} {clashes : Prop} (harity : h.kind.arity = some 2)
    (hleft : Template.operandHop? .rowAgg g h 0 = some left) (ha : d.node? left = some a)
    (hy : Operand g d h 1 y b) (hclash : Clash g d h ↔ clashes)
    (htop : d.table.Has d.table.misfits top ↔
      clashes ∨ d.table.Has d.table.misfits a ∨ d.table.Has d.table.misfits b) :
    ExplainsMisfits g d h n := by
  have hright : Template.operandHop? .rowAgg g h 1 = some y.id := by
    rw [Template.operandHop?_of_not_absorbing (by decide)]
    exact (hy.hop wf made.hop).2
  rw [ExplainsMisfits, made.has_iff, htop, hclash,
    Template.exists_operandHop?_iff_two wf made.hop harity hleft hright,
    Draft.has_iff_of_node? ha, Draft.has_iff_of_node? hy.node]

theorem explainsMisfits_of_binary {op : BinaryOp} (hkind : h.kind = .binary op)
    (hx : Operand g d h 0 x a) (hy : Operand g d h 1 y b)
    (htop : d.table.Has d.table.misfits top ↔
      (x.isScalar = true ∧ y.isGenuineMatrix = true ∧ ¬ IsCell g d y.id ∨
        x.isGenuineMatrix = true ∧ IsCell g d x.id) ∨
      d.table.Has d.table.misfits a ∨ d.table.Has d.table.misfits b) :
    ExplainsMisfits g d h n := by
  have hm : h.isMatmul = false := by simp [Hop.isMatmul, hkind]
  have hleft : Template.operandHop? .rowAgg g h 0 = some x.id := by
    rw [Template.operandHop?_of_not_matmul hm, (hx.hop wf made.hop).2]
  exact explainsMisfits_of_two wf made (by rw [hkind]; rfl) hleft hx.node hy
    (clash_iff_of_binary hkind hx.input hy.input) htop

/-- Below the node of a replacement lie misfits of its target only: what is found and put in are
scalars. -/
theorem explainsMisfits_of_replace (scalars : g.replacesScalars = true)
    (operands : OperandsStand g d h) {params : List (String × Nat)}
    (hkind : h.kind = .builtin .replace params) {i : Nat}
    (hparam : g.paramInput h.id "target" = .ok x.id) (target : Operand g d h i x a)
    (htop : d.table.Has d.table.misfits top ↔ d.table.Has d.table.misfits a) :
    ExplainsMisfits g d h n := by
  have hh := made.hop
  have hm : h.isMatmul = false := by simp [Hop.isMatmul, hkind]
  have hclash : ¬ Clash g d h := by
    intro clash
    rcases clash.kind with hkind' | ⟨op, hkind'⟩ <;> rw [hkind] at hkind' <;>
      exact Operator.noConfusion hkind'
  rw [ExplainsMisfits, made.has_iff, htop]
  simp only [hclash, false_or, Template.operandHop?_of_not_matmul hm]
  constructor
  · exact fun hhas => ⟨i, x.id, (target.hop wf hh).2, a, target.node, hhas⟩
  · rintro ⟨j, z, hz, hhas⟩
    obtain ⟨y, hy⟩ := wf.exists_input hh (List.mem_of_getElem? hz)
    have hmatrix := operands.isMatrix (wf.input?_lt hh hz) hy hhas
    have htarget := target_of_isMatrix scalars hh hkind hz hy hmatrix
    rw [← Except.ok.inj (hparam.symm.trans htarget)] at hhas
    exact (Draft.has_iff_of_node? target.node).1 hhas

end Explains

theorem OperandsStand.operand (operands : OperandsStand g d h) (wf : g.WellFormed)
    (hh : g.hop? h.id = some h) {i : Nat} (operand : Operand g d h i x a) :
    ∃ k, d.table.node? a = some k ∧ Stands g d x.id x k := by
  obtain ⟨hhx, hinput⟩ := operand.hop wf hh
  exact operands.stands (wf.input?_lt hh hinput) hhx operand.node

/-- A scalar operand has no misfits below its node. -/
theorem OperandsStand.not_has_of_isScalar (operands : OperandsStand g d h) (wf : g.WellFormed)
    (hh : g.hop? h.id = some h) {i : Nat} (operand : Operand g d h i x a)
    (hscalar : x.isScalar = true) : ¬ d.table.Has d.table.misfits a := by
  intro hhas
  obtain ⟨hhx, hinput⟩ := operand.hop wf hh
  have hmatrix := operands.isMatrix (wf.input?_lt hh hinput) hhx
    ⟨a, operand.node, hhas⟩
  rw [Hop.not_isScalar_of_isMatrix hmatrix] at hscalar
  exact Bool.noConfusion hscalar

/-- The misfits below the node of a hop of the region are explained by its operands. -/
theorem Forms.explainsMisfits (wf : g.WellFormed) (scalars : g.replacesScalars = true)
    (made : Draft.Made .rowAgg g memo d h e f top n) (forms : Forms g d h f)
    (operands : OperandsStand g d h) : ExplainsMisfits g d h n := by
  have hh := made.hop
  have computes := made.computes
  have column {a b : NodeId} (hb : d.table.Computes (readColumn d.table a) b) :
      d.table.Has d.table.misfits b ↔ d.table.Has d.table.misfits a :=
    has_misfits_iff_of_read hb leaves_readColumn (admits_readColumn not_misfits_unary)
  cases forms with
  | columnSum hkind hx =>
    exact explainsMisfits_of_one wf made hx (by rw [hkind]; rfl) (has_misfits_sumColumns computes)
  | rowSumOfColumn hkind hx =>
    exact explainsMisfits_of_one wf made hx (by rw [hkind]; rfl) (has_misfits_iff_of_read computes
      leaves_readUnlessScalar (admits_readUnlessScalar not_misfits_unary))
  | rowSum hkind hx =>
    exact explainsMisfits_of_one wf made hx (by rw [hkind]; rfl)
      (has_misfits_iff_of_read computes rfl ⟨not_misfits_unary _, trivial⟩)
  | unary hkind _ hx =>
    exact explainsMisfits_of_one wf made hx (by rw [hkind]; rfl) (has_misfits_iff_of_read computes
      leaves_readCell ⟨not_misfits_unary _, admits_readCell not_misfits_unary⟩)
  | addedRows hkind hx htranspose hrow hcell =>
    obtain ⟨_, _, ⟨rfl, _⟩, ⟨rfl, _⟩, hiff⟩ := computes.has_misfits_binary
    have hm : h.isMatmul = true := by simp [Hop.isMatmul, hkind]
    have hleft := Template.operandHop?_of_absorbing (t := .rowAgg) wf hh hm (by decide) hx
    have hlt := Template.operandHop?_lt wf hh hleft
    obtain ⟨_, hinner⟩ := Graph.exists_hop?_iff.2 (Nat.lt_trans hlt (Graph.lt_size_of_hop? hh))
    obtain ⟨_, hk₁, stands₁⟩ := operands.stands hlt hinner hrow
    obtain ⟨_, hk₂, stands₂⟩ := operands.operand wf hh hcell
    refine explainsMisfits_of_two wf made (by rw [hkind]; rfl) hleft hrow hcell
      (clash_iff_of_transpose hkind hx htranspose hcell.input) ?_
    rw [hiff, ← Bool.not_eq_true, NodeTable.fits, Bool.and_eq_true, stands₁.check_isMatrix hk₁,
      stands₂.check_isScalar hk₂, not_and_or, not_not]
  | dotProduct hkind hx hstraight hy _ =>
    obtain ⟨_, _, ⟨rfl, _⟩, ⟨rfl, _⟩, hiff⟩ := computes.has_misfits_binary
    have hleft := (Template.operandHop?_of_straight (t := .rowAgg) hx.input hstraight).trans
      (hx.hop wf hh).2
    obtain ⟨_, hk₁, stands₁⟩ := operands.operand wf hh hx
    obtain ⟨_, hk₂, stands₂⟩ := operands.operand wf hh hy
    refine explainsMisfits_of_two wf made (by rw [hkind]; rfl) hleft hx.node hy
      (clash_iff_of_straight hkind hx.input hstraight hy.input) ?_
    rw [hiff, ← Bool.not_eq_true, NodeTable.fits, Bool.and_eq_true, stands₁.check_isMatrix hk₁,
      stands₂.check_isMatrix hk₂, not_and_or, not_not, not_not]
  | rowAndCell hkind hx hgenuine hy hnarrow =>
    obtain ⟨_, b, ⟨rfl, _⟩, hb, hiff⟩ := computes.has_misfits_binary
    obtain ⟨_, hk₁, stands₁⟩ := operands.operand wf hh hx
    obtain ⟨_, hk₂, stands₂⟩ := operands.operand wf hh hy
    refine explainsMisfits_of_binary wf made hkind hx hy ?_
    have hcell : d.table.check (·.isScalar) b = true := by
      rw [stands₂.isScalar_readColumn hk₂ hb]
      rcases hnarrow with hcolumn | hscalar
      · simp only [Hop.isColVector, Bool.and_eq_true] at hcolumn
        exact .inr hcolumn.2
      · exact .inl (.scalar (hy.hop wf hh).1 hscalar)
    have hmatrix := (Hop.isGenuineMatrix_iff.1 hgenuine).1
    rw [hiff, column hb, ← Bool.not_eq_true, NodeTable.fits, hcell, Bool.and_true,
      stands₁.check_isMatrix hk₁, Hop.not_isScalar_of_isMatrix hmatrix]
    simp [hgenuine]
  | columnAndScalar hkind hx hspans hcolumn hy hscalar =>
    obtain ⟨_, _, ha, hb, hiff⟩ := computes.has_misfits_binary
    obtain ⟨_, hk₁, stands₁⟩ := operands.operand wf hh hx
    obtain ⟨_, hk₂, stands₂⟩ := operands.operand wf hh hy
    refine explainsMisfits_of_binary wf made hkind hx hy ?_
    have hfirst := (stands₁.isScalar_readColumn hk₁ ha).2
      (.inr ((Hop.isColVector_iff_of_spansRows hspans).2 hcolumn))
    have hsecond := (stands₂.isScalar_readColumn hk₂ hb).2 (.inl (.scalar (hy.hop wf hh).1 hscalar))
    rw [hiff, column ha, column hb, NodeTable.fits, hfirst, hsecond,
      Hop.not_isScalar_of_isMatrix (Hop.spansRows_iff.1 hspans).1,
      Hop.isGenuineMatrix_iff_of_spansRows hspans]
    simp [hcolumn]
  | scalarAndMatrix hkind hx hscalar hy hspans =>
    obtain ⟨_, _, ha, hb, hiff⟩ := computes.has_misfits_binary
    obtain ⟨_, hk₁, stands₁⟩ := operands.operand wf hh hx
    obtain ⟨_, hk₂, stands₂⟩ := operands.operand wf hh hy
    refine explainsMisfits_of_binary wf made hkind hx hy ?_
    have hfirst := (stands₁.isScalar_readColumn hk₁ ha).2 (.inl (.scalar (hx.hop wf hh).1 hscalar))
    rw [hiff, column ha, column hb, ← Bool.not_eq_true, NodeTable.fits, hfirst, Bool.true_and,
      stands₂.isScalar_readColumn hk₂ hb, Hop.isColVector_iff_of_spansRows hspans,
      Hop.isGenuineMatrix_iff_of_spansRows hspans, Hop.not_isGenuineMatrix_of_isScalar hscalar]
    simp [hscalar, and_comm]
  | replace hkind _ hparam target _ pattern replacement hscalars =>
    refine explainsMisfits_of_replace wf made scalars operands hkind hparam target ?_
    rw [computes.has_iff ⟨fun _ _ _ => rfl, admits_readCell not_misfits_unary, trivial, trivial⟩]
    simp [Fragment.leaves, operands.not_has_of_isScalar wf hh pattern hscalars.1,
      operands.not_has_of_isScalar wf hh replacement hscalars.2]

/-! ## Misfits of a region -/

theorem mem_lowered_of_has_misfits (wf : g.WellFormed)
    (hd : Draft.ofRegion .rowAgg g memo config table root = .ok d) {id : HopId}
    (hhas : d.Has d.table.misfits id) : id ∈ d.lowered := by
  obtain ⟨n, hn, hhas⟩ := hhas
  refine (Draft.mem_lowered_or_mem_boundary ⟨n, hn⟩).resolve_right fun hboundary => ?_
  obtain ⟨h, n', _, hn', hnode⟩ :=
    (Draft.accounted_of_ofRegion wf hd).node?_of_mem_boundary hboundary
  obtain rfl := Option.some.inj (hn.symm.trans hn')
  have hown := (Draft.has_iff_of_boundaryNode hnode).1 hhas
  rcases Draft.boundaryNode_cases config h with heq | ⟨value, heq⟩ <;>
    simp [heq, NodeTable.misfits] at hown

variable (explored : memo.ExploredBy g config done) (typed : g.IsTyped)
  (scalars : g.replacesScalars = true)
  (hd : Draft.ofRegion .rowAgg g memo config table root = .ok d)
include explored typed scalars hd

/-- The misfits below the node of a lowered hop are explained by its operands. -/
theorem explainsMisfits {id : HopId} (hid : id ∈ d.lowered) :
    ∃ h n, h.id = id ∧ g.hop? id = some h ∧ d.node? id = some n ∧ ExplainsMisfits g d h n := by
  have wf := typed.isBuilt.wellFormed
  obtain ⟨h, e, f, top, n, rfl, made⟩ := Draft.exists_made wf hd hid
  have hle : h.id ≤ root := by
    obtain ⟨_, _, _, _, _, hregion, _⟩ := Draft.ofRegion_lowered wf hd hid
    exact hregion.le wf
  have operands : OperandsStand g d h := by
    refine ⟨fun hlt hx ha => stands explored typed scalars hd (Nat.lt_of_lt_of_le hlt hle) hx ha,
      fun hlt hx hhas => ?_⟩
    have hopen := hasOpen_of_mem_lowered explored wf hd (mem_lowered_of_has_misfits wf hd hhas)
      (Nat.lt_of_lt_of_le hlt hle)
    exact (Hop.spansRows_iff.1 (explored.spansRows_of_hasOpen typed scalars hopen hx).1).1
  have member := explored.member typed scalars made.hop made.best
  have forms := forms_of_becomes typed scalars made.hop member made.becomes
  exact ⟨h, n, rfl, made.hop, made.node, forms.explainsMisfits wf scalars made operands⟩

/-- Misfits below the node of a hop come from a clash. -/
theorem exists_clash : ∀ {id : HopId}, d.Has d.table.misfits id →
    ∃ h, h.id ∈ d.lowered ∧ g.hop? h.id = some h ∧ Clash g d h := by
  have wf := typed.isBuilt.wellFormed
  intro id
  induction id using Nat.strong_induction_on with
  | _ id ih =>
    intro hhas
    have hid := mem_lowered_of_has_misfits wf hd hhas
    obtain ⟨h, n, rfl, hh, hn, explains⟩ := explainsMisfits explored typed scalars hd hid
    rcases explains.1 ((Draft.has_iff_of_node? hn).1 hhas) with clash | ⟨i, z, hz, hhas⟩
    · exact ⟨h, hid, hh, clash⟩
    · exact ih z (Template.operandHop?_lt wf hh hz) hhas

/-- Misfits below the node of a lowered hop lie below that of a hop that refers to it. -/
theorem has_misfits_of_refers {id id' : HopId} (hid : id ∈ d.lowered)
    (hrefers : memo.Refers .rowAgg g id id') (hhas : d.Has d.table.misfits id') :
    d.Has d.table.misfits id := by
  obtain ⟨h, n, rfl, hh, hn, explains⟩ := explainsMisfits explored typed scalars hd hid
  have hopen := explored.hasOpen_of_refers hrefers
  obtain ⟨h', _, i, hh', _, hinput, _⟩ := hrefers
  obtain rfl := Option.some.inj (hh.symm.trans hh')
  obtain ⟨x, hx⟩ := typed.isBuilt.wellFormed.exists_input hh (List.mem_of_getElem? hinput)
  -- What is taken in is no transpose, so it is read as it is.
  have hstraight := (explored.spansRows_of_hasOpen typed scalars hopen hx).2
  have hoperand := Template.operandHop?_of_straight (t := .rowAgg)
    ((Graph.input?_iff_of_hop? hh).2 ⟨id', hinput, hx⟩) hstraight
  exact (Draft.has_iff_of_node? hn).2 (explains.2 (.inr ⟨i, id', hoperand.trans hinput, hhas⟩))

/-- Misfits below the node of any lowered hop lie below that of the root. -/
theorem has_misfits_root {id : HopId} (hid : id ∈ d.lowered) (hhas : d.Has d.table.misfits id) :
    d.Has d.table.misfits root := by
  have wf := typed.isBuilt.wellFormed
  -- Upwards, from each hop to one that refers to it.
  induction hk : root - id using Nat.strong_induction_on generalizing id with
  | _ k ih =>
    rcases Draft.referred_of_mem_lowered wf hd hid with rfl | ⟨y, hy, hrefers⟩
    · exact hhas
    · have hlt := hrefers.lt wf
      have hle : y ≤ root := by
        obtain ⟨_, _, _, _, _, hregion, _⟩ := Draft.ofRegion_lowered wf hd hy
        exact hregion.le wf
      have hcloser : root - y < k := hk ▸ Nat.sub_lt_sub_left (Nat.lt_of_lt_of_le hlt hle) hlt
      exact ih _ hcloser hy (has_misfits_of_refers explored typed scalars hd hy hrefers hhas) rfl

/-- The node of the root has misfits below it exactly if a lowered hop clashes with its operands. -/
theorem has_misfits_root_iff : d.Has d.table.misfits root ↔
    ∃ h, h.id ∈ d.lowered ∧ g.hop? h.id = some h ∧ Clash g d h := by
  constructor
  · exact exists_clash explored typed scalars hd
  · rintro ⟨h, hid, hh, clash⟩
    obtain ⟨h', n, hid', hh', hn, explains⟩ := explainsMisfits explored typed scalars hd hid
    obtain rfl := Option.some.inj (hh.symm.trans hh')
    exact has_misfits_root explored typed scalars hd hid
      ((Draft.has_iff_of_node? hn).2 (explains.2 (.inl clash)))

end RowAgg

/-! ## Well-typed kernels -/

/-- Every binary primitive of the body is applied to operands of the types that it takes. -/
def Plan.IsWellTyped (plan : Plan) : Prop :=
  ∀ id n prim a b, Dag.Reaches plan.table.operands plan.output id → plan.table.node? id = some n →
    n.op = .binary prim a b → plan.table.fits prim a b = true

theorem Plan.isWellTyped_iff {plan : Plan} :
    plan.IsWellTyped ↔ ¬ plan.table.Has plan.table.misfits plan.output := by
  rw [← not_iff_not, not_not]
  constructor
  · intro hnot
    simp only [IsWellTyped, not_forall, Bool.not_eq_true] at hnot
    obtain ⟨id, n, prim, a, b, reached, hn, hop, hfits⟩ := hnot
    exact ⟨id, n, reached, hn, by rw [hop, NodeTable.misfits, hfits]; rfl⟩
  · rintro ⟨id, n, reached, hn, hmisfits⟩ typed
    cases hop : n.op with
    | binary prim a b =>
      rw [hop, NodeTable.misfits, typed id n prim a b reached hn hop] at hmisfits
      exact Bool.noConfusion hmisfits
    | data | literal | unary | ternary =>
      rw [hop] at hmisfits
      exact Bool.noConfusion hmisfits

/-- In a graph whose replacements replace scalars by scalars, the body of a row kernel is well typed
exactly if no lowered hop clashes with its operands. -/
theorem Plan.rowAgg_isWellTyped_iff {g : Graph} (typed : g.IsTyped)
    (scalars : g.replacesScalars = true) (config : Config) (roots : List HopId)
    {table : NodeTable} {root : HopId} {plan : Plan}
    (hplan : Plan.construct .rowAgg g (Memo.empty.explore g config roots).1 config table root =
      .ok plan) :
    ∃ d, Draft.ofRegion .rowAgg g (Memo.empty.explore g config roots).1 config table root = .ok d ∧
      (plan.IsWellTyped ↔
        ∀ h, h.id ∈ d.lowered → g.hop? h.id = some h → ¬ RowAgg.Clash g d h) := by
  have explored := Memo.exploredBy_explore typed.isBuilt.wellFormed config roots
  obtain ⟨d, hd, hplan⟩ := bind_eq_ok_iff.1 hplan
  obtain ⟨laidOver, _⟩ := RowAgg.of_plan_eq_ok hplan
  refine ⟨d, hd, ?_⟩
  have hmisfits : plan.table.misfits = d.table.misfits := by rw [laidOver.table]
  rw [isWellTyped_iff, hmisfits, ← laidOver.has_iff,
    RowAgg.has_misfits_root_iff explored typed scalars hd]
  simp

theorem Plan.rowAgg_isWellTyped_iff_quotient :
    Memo.quotient.replacesScalars = true ∧
      Plan.construct .rowAgg Memo.quotient Memo.ofQuotient .default .empty 6 = .ok ofQuotient ∧
      ∃ d, Draft.ofRegion .rowAgg Memo.quotient Memo.ofQuotient .default .empty 6 = .ok d ∧
        (ofQuotient.IsWellTyped ↔
          ∀ h, h.id ∈ d.lowered → Memo.quotient.hop? h.id = some h →
            ¬ RowAgg.Clash Memo.quotient d h) := by
  have typed : Memo.quotient.IsTyped := ⟨Memo.quotientRequests, by decide, rfl⟩
  have scalars : Memo.quotient.replacesScalars = true := by decide +kernel
  have hplan : Plan.construct .rowAgg Memo.quotient Memo.ofQuotient .default .empty 6 =
      .ok ofQuotient := by decide +kernel
  exact ⟨scalars, hplan, rowAgg_isWellTyped_iff typed scalars .default [6] hplan⟩

/-- A vector multiplied from the left by a transpose: `t(X) %*% w`. -/
def Plan.scaled : Graph :=
  Graph.empty.build [.data "X" 100 20, .data "w" 100 1, .transpose 0, .matmul 2 1]

/-- The plan for that product. -/
def Plan.ofScaled : Plan :=
  (Plan.construct .rowAgg scaled (Memo.empty.explore scaled .default [3]).1 .default .empty
    3).toOption.getD ⟨[], .empty, [], 0, .rowAgg 0⟩

/-- The rows of the matrix are scaled by the whole vector: its cell is not looked up. -/
theorem Plan.scaled_is_not_wellTyped :
    scaled.IsTyped ∧ scaled.replacesScalars = true ∧
      Plan.construct .rowAgg scaled (Memo.empty.explore scaled .default [3]).1 .default .empty 3 =
        .ok ofScaled ∧
      (ofScaled.table.node? ofScaled.output).map (·.op) = some (.binary (.rowAdd .mult) 2 1) ∧
      ofScaled.table.check (·.isMatrix) 1 = true ∧ ¬ ofScaled.IsWellTyped := by
  have hop : (ofScaled.table.node? ofScaled.output).map (·.op) =
      some (.binary (.rowAdd .mult) 2 1) := by decide +kernel
  refine ⟨⟨_, by decide, rfl⟩, by decide +kernel, by decide +kernel, hop, by decide +kernel, ?_⟩
  intro typed
  obtain ⟨n, hn, hop⟩ := Option.map_eq_some_iff.1 hop
  have hfits : ofScaled.table.fits (.rowAdd .mult) 2 1 = false := by decide +kernel
  rw [typed _ n _ _ _ .refl hn hop] at hfits
  exact Bool.noConfusion hfits

end OpFusion
