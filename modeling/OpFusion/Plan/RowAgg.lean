import OpFusion.InputOrder
import OpFusion.Plan.Basic
import OpFusion.Plan.Draft

/-!
# Plans of the row template

What each hop of a row region becomes, which hop is the main input, and how the inputs of the kernel
are laid out.
-/

namespace OpFusion.RowAgg

open Kernel

/-- The hops that must be bound before a hop is lowered, although it does not read them: the one
whose transpose a multiply takes over on its left. -/
def absorbed (g : Graph) (h : Hop) : List HopId :=
  if h.isMatmul then Draft.belowTransposes g h [0] else []

/-- A column vector is read at the current row. -/
def readColumn (t : NodeTable) (a : NodeId) : Fragment :=
  if t.check (·.isColVector) a then .unary .lookupRow (.node a) else .node a

/-- A column vector is read at the current row and a matrix input at the current cell. -/
def readCell (t : NodeTable) (a : NodeId) (h : Hop) : Fragment :=
  if t.check (·.isColVector) a then .unary .lookupRow (.node a)
  else if t.check (·.isData) a && h.isMatrix then .unary .lookupCell (.node a)
  else .node a

/-- Of a matrix the given lookup is read; a scalar is used as it is. -/
def readUnlessScalar (t : NodeTable) (lookup : UnaryPrim) (a : NodeId) : Fragment :=
  if t.check (·.isScalar) a then .node a else .unary lookup (.node a)

/-- The sum over columns of what a node computes: where that would fill a temporary row, it is added
to the output row at once. -/
def sumColumns (t : NodeTable) (a : NodeId) : Fragment :=
  match t.node? a with
  | some ⟨.binary (.rowScalar op) row cell, _, _⟩ => .binary (.rowAdd op) (.node row) (.node cell)
  | _ => .node a

/-- What a hop of the region becomes. -/
def fragment (g : Graph) (d : Draft) (h : Hop) : Except PlanError Fragment :=
  match h.kind with
  | .aggUnary .sum .row => do
    let a ← d.operand h 0
    if (← Draft.operandHop g h 0).shape.cols = some 1 then
      return readUnlessScalar d.table .lookupRow a
    else
      return .unary .rowSums (.node a)
  | .aggUnary .sum .col => do return sumColumns d.table (← d.operand h 0)
  | .matmul => do
    let left ← Draft.operandHop g h 0
    let right ← Draft.operandHop g h 1
    let a ← d.factor g h 0
    let b ← d.operand h 1
    if left.isTranspose then
      return .binary (.rowAdd .mult) (.node a) (.node b)
    else if left.shape.cols = some 1 ∧ right.shape.cols = some 1 then
      return .binary (.cell .mult) (readUnlessScalar d.table .lookupFirst a)
        (readUnlessScalar d.table .lookupFirst b)
    else
      return .binary .dotProduct (.node a) (.node b)
  | .unary op =>
    match op.primitive? with
    | none => .error (.unsupported .rowAgg h)
    | some prim => do
      let a ← d.operand h 0
      return .unary prim (readCell d.table a (← Draft.operandHop g h 0))
  | .binary op => do
    let a ← d.operand h 0
    let b ← d.operand h 1
    if (← Draft.operandHop g h 0).shape.isGenuineMatrix then
      match op.rowOp? with
      | none => .error (.unsupported .rowAgg h)
      | some rowOp => return .binary (.rowScalar rowOp) (.node a) (readColumn d.table b)
    else
      match op.cellOp? with
      | none => .error (.unsupported .rowAgg h)
      | some cellOp => return .binary (.cell cellOp) (readColumn d.table a) (readColumn d.table b)
  | .ternary op =>
    match op.primitive? with
    | none => .error (.unsupported .rowAgg h)
    | some prim => do
      let a ← d.operand h 0
      let b ← d.operand h 1
      let c ← d.operand h 2
      return .ternary prim (readCell d.table a (← Draft.operandHop g h 0)) (.node b)
        (readCell d.table c (← Draft.operandHop g h 2))
  | .builtin .replace _ => do
    let target ← PlanError.ofGraph (g.paramInput h.id "target")
    let pattern ← d.node (← PlanError.ofGraph (g.paramInput h.id "pattern"))
    let replacement ← d.node (← PlanError.ofGraph (g.paramInput h.id "replacement"))
    let a := readCell d.table (← d.node target) (← PlanError.ofGraph (g.hop target))
    let replacesNaN := d.table.check (fun n => n.literal?.any (·.isNaN)) pattern
    return .ternary (if replacesNaN then .replaceNaN else .replace) a (.node pattern)
      (.node replacement)
  | .indexing => do
    match (← Draft.operandHop g h 0).shape.cols with
    | none => .error (.unsupported .rowAgg h)
    | some cols =>
      let a ← d.operand h 0
      let upper ← d.operand h 4
      let last := match (← Draft.operandHop g h 4).literal? with
        | some value => .literal value
        | none => .node upper
      return .ternary .lookupColumn (.node a) (.literal (.int cols.toInt64)) last
  | _ => .error (.unsupported .rowAgg h)

/-- The main input that a lowered hop designates: the matrix over whose rows it sums, or the left
operand of a product that is computed row by row. -/
def mainOf? (g : Graph) (id : HopId) : Option HopId := do
  let h ← g.hop? id
  match h.kind with
  | .aggUnary .sum .row =>
    let input ← g.input? id 0
    if input.shape.cols = some 1 then none else some input.id
  | .matmul =>
    let left ← g.input? id 0
    let right ← g.input? id 1
    if left.isTranspose ∨ (left.shape.cols = some 1 ∧ right.shape.cols = some 1) then none
    else some left.id
  | _ => none

/-- The plan for a region that has been lowered up to its root. The last hop that designates a main
input decides; the inputs are ordered around it, and only what the body reads is passed. -/
def plan (g : Graph) (d : Draft) (root : HopId) : Except PlanError Plan := do
  let output ← d.node root
  let main := d.lowered.reverse.findSome? (mainOf? g)
  let read := d.table.hopsRead output
  let inputs := (g.orderByPriority main d.boundary).filter fun id => id ∈ read
  let arguments ← inputs.mapM d.node
  return ⟨inputs, d.table, arguments, output, .rowAgg (d.table.temporaryRows output)⟩

end OpFusion.RowAgg
