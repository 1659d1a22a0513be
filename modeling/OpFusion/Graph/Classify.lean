import OpFusion.Graph.Basic

/-!
# Classifying operators

Predicates that tell operators apart by the shapes of their operands. Each is false of a hop that
is not in the graph or is of another kind than the predicate is about.
-/

namespace OpFusion

namespace Hop

/-- A matrix of more than one row and more than one column. -/
def isGenuineMatrix (h : Hop) : Bool := h.isMatrix && h.shape.isGenuineMatrix

/-- A matrix of a single column and several rows. -/
def isColVector (h : Hop) : Bool := h.isMatrix && h.shape.isColVector

/-- A matrix of a single row and several columns. -/
def isRowVector (h : Hop) : Bool := h.isMatrix && h.shape.isRowVector

end Hop

namespace Graph

/-- The two operands of an elementwise binary operator. -/
def binaryOperands? (g : Graph) (id : HopId) : Option (Hop × Hop) := do
  let h ← g.hop? id
  match h.kind with
  | .binary _ => return (← g.input? id 0, ← g.input? id 1)
  | _ => none

/-- The hop is in the graph and exchanges rows and columns. -/
def isTranspose (g : Graph) (id : HopId) : Bool := (g.hop? id).any (·.isTranspose)

/-- The hop is in the graph and multiplies two matrices. -/
def isMatmul (g : Graph) (id : HopId) : Bool := (g.hop? id).any (·.isMatmul)

/-- The hop is a binary operator out of `ops`. -/
def isBinary (g : Graph) (id : HopId) (ops : List BinaryOp) : Bool :=
  (g.hop? id).any fun h =>
    match h.kind with
    | .binary op => op ∈ ops
    | _ => false

/-- The left extent is known to be larger than the right one. -/
def isLarger (a b : Extent) : Bool :=
  match a, b with
  | some m, some n => n < m
  | _, _ => false

/-- A matrix multiply with the shape of an outer product: all extents are known, the left operand
is taller than wide and the right one is wider than tall. -/
def isOuterProductLike (g : Graph) (id : HopId) : Bool :=
  match g.hop? id, g.input? id 0, g.input? id 1 with
  | some h, some left, some right =>
    h.isMatmul && h.shape.isKnown && isLarger left.shape.rows left.shape.cols
      && isLarger right.shape.cols right.shape.rows
  | _, _, _ => false

/-- A binary operator on a matrix and a scalar, in either order. -/
def isMatrixScalar (g : Graph) (id : HopId) : Bool :=
  (g.binaryOperands? id).any fun (a, b) =>
    (a.isMatrix && b.isScalar) || (a.isScalar && b.isMatrix)

/-- A binary operator on two genuine matrices. -/
def isMatrixMatrix (g : Graph) (id : HopId) : Bool :=
  (g.binaryOperands? id).any fun (a, b) => a.isGenuineMatrix && b.isGenuineMatrix

/-- A binary operator with a genuine matrix on the left and a column vector on the right. -/
def isMatrixColVectorRight (g : Graph) (id : HopId) : Bool :=
  (g.binaryOperands? id).any fun (a, b) => a.isGenuineMatrix && b.isColVector

/-- A binary operator on a genuine matrix and a column vector, in either order. -/
def isMatrixColVector (g : Graph) (id : HopId) : Bool :=
  (g.binaryOperands? id).any fun (a, b) =>
    (a.isGenuineMatrix && b.isColVector) || (b.isGenuineMatrix && a.isColVector)

/-- A binary operator on a genuine matrix and a row vector, in either order. -/
def isMatrixRowVector (g : Graph) (id : HopId) : Bool :=
  (g.binaryOperands? id).any fun (a, b) =>
    (a.isGenuineMatrix && b.isRowVector) || (b.isGenuineMatrix && a.isRowVector)

/-- Both hops have the same known extents. -/
def isEqualSize (g : Graph) (a b : HopId) : Bool :=
  match g.hop? a, g.hop? b with
  | some x, some y => x.shape.isKnown && x.shape = y.shape
  | _, _ => false

end Graph

end OpFusion
