import OpFusion.Graph.Classify
import OpFusion.InputOrder
import OpFusion.Plan.Basic
import OpFusion.Plan.Draft

/-!
# Plans of the outer-product template

What each hop of an outer-product region becomes, which hops play the parts of main matrix and
factors, and how the inputs of the kernel are laid out.
-/

namespace OpFusion.OuterProduct

open Kernel

/-- The hops that must be bound before a hop is lowered, although it does not read them: those whose
transposes a multiply takes over. -/
def absorbed (g : Graph) (h : Hop) : List HopId :=
  if h.isMatmul then Draft.belowTransposes g h [0, 1] else []

/-- A vector is read one cell for each row. -/
def readVector (t : NodeTable) (a : NodeId) : Fragment :=
  if t.check (·.isVector) a then .unary .lookupRow (.node a) else .node a

/-- What a hop of the region becomes. The product itself contracts two rows; any other multiply adds
scaled rows to the output. Transposes and the final sum are left to the kernel's loop. -/
def fragment (g : Graph) (d : Draft) (h : Hop) : Except PlanError Fragment :=
  match h.kind with
  | .unary op =>
    match op.primitive? with
    | none => .error (.unsupported .outerProduct h)
    | some prim => do return .unary prim (.node (← d.operand h 0))
  | .binary op =>
    match op.cellOp? with
    | none => .error (.unsupported .outerProduct h)
    | some cellOp => do
      let a ← d.operand h 0
      let b ← d.operand h 1
      return .binary (.cell cellOp) (readVector d.table a) (readVector d.table b)
  | .matmul => do
    let a ← d.factor g h 0
    let b ← d.factor g h 1
    if g.isOuterProductLike h.id then
      return .binary .dotProduct (.node a) (.node b)
    else if d.table.check (·.isScalar) a then
      return .binary (.rowAdd .mult) (.node b) (.node a)
    else
      return .binary (.rowAdd .mult) (.node a) (.node b)
  | .reorg .transpose | .aggUnary .sum .rowCol => do return .node (← d.operand h 0)
  | _ => .error (.unsupported .outerProduct h)

/-- The main matrix that a lowered hop designates: the variable, if one side of a binary operator
on equally large operands is one, and the left one if both are. -/
def mainOf? (g : Graph) (id : HopId) : Option HopId := do
  let (a, b) ← g.binaryOperands? id
  if g.isEqualSize a.id b.id then ([a, b].find? (·.isData)).map (·.id) else none

/-- The left and right factor that a lowered hop designates: the operands of the product, the right
one not transposed. -/
def factorsOf? (g : Graph) (id : HopId) : Option (HopId × HopId) := do
  if g.isOuterProductLike id then
    let left ← g.input? id 0
    let right ← g.input? id 1
    return (left.id, right.transposed?.getD right.id)
  else none

/-- The hop is `target` or a transpose of it. -/
def isUpToTranspose (g : Graph) (target id : HopId) : Bool :=
  id == target || (g.hop? id).any (·.transposed? == some target)

/-- Where the result of a region lies, given its root and its factors. -/
def alignment? (g : Graph) (root : Hop) (left right : HopId) : Option Alignment :=
  if root.isScalar then some .aggregate
  else if root.isTranspose || (root.isMatmul && (root.input? 0).any (isUpToTranspose g left)) then
    some .left
  else if root.isMatmul && (root.input? 1).any (isUpToTranspose g right) then some .right
  else
    match root.kind, root.input? 0, root.input? 1 with
    | .binary _, some a, some b => if g.isEqualSize a b then some .cellwise else none
    | _, _, _ => none

/-- The hop that plays a part, or the error that none does. -/
def inRole (role : FactorRole) (id? : Option HopId) : Except PlanError HopId :=
  match id? with
  | some id => .ok id
  | none => .error (.missingFactor role)

/-- The plan for a region that has been lowered up to its root. The last hop that designates a part
decides who plays it. Main matrix and factors come first, and of the rest only what the body reads
is passed. -/
def plan (g : Graph) (d : Draft) (root : HopId) : Except PlanError Plan := do
  let output ← d.node root
  let latest := d.lowered.reverse
  let factors := latest.findSome? (factorsOf? g)
  let main ← inRole .main (latest.findSome? (mainOf? g))
  let left ← inRole .left (factors.map (·.1))
  let right ← inRole .right (factors.map (·.2))
  let pinned := [main, left, right]
  let read := d.table.hopsRead output
  let inputs := (pinFirst pinned d.boundary).filter fun id => id ∈ pinned ∨ id ∈ read
  let arguments ← inputs.mapM d.node
  let h ← PlanError.ofGraph (g.hop root)
  match alignment? g h left right with
  | none => .error (.unsupported .outerProduct h)
  | some alignment =>
    let transposed := alignment = .left && !h.isTranspose
    return ⟨inputs, d.table, arguments, output, .outerProduct alignment transposed⟩

end OpFusion.OuterProduct
