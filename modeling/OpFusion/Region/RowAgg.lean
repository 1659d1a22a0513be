import OpFusion.Graph.Classify
import OpFusion.Kernel.Primitive
import OpFusion.Template

/-!
# Regions of the row template

A region opens at an aggregate over the rows or columns of a genuine matrix, or at the product of
one with a column vector, and takes in the operators that feed it row by row. It ends at an
aggregate over columns or at a multiply from the left by a transpose.
-/

namespace OpFusion.RowAgg

/-- The left operand exchanges rows and columns. -/
def hasTransposedLeft (g : Graph) (id : HopId) : Bool := (g.input? id 0).any (·.isTranspose)

/-- A region may start at the hop. -/
def opens (g : Graph) (id : HopId) : Bool :=
  (g.hop? id).any fun h =>
    let genuineInput := (g.input? id 0).any (·.shape.isGenuineMatrix)
    match h.kind with
    | .matmul => h.shape.cols == some 1 && genuineInput
    | .aggUnary _ direction => direction ≠ .rowCol && genuineInput
    | _ => false

/-- The hop extends the region of one of its inputs. -/
def fuses (g : Graph) (id : HopId) : Bool :=
  (g.hop? id).any fun h =>
    match h.kind with
    | .binary _ => g.isMatrixColVectorRight id || g.isMatrixScalar id
    | .unary _ | .builtin _ _ => h.kind.isCellwise
    | .aggUnary _ direction => direction ≠ .rowCol
    | .matmul => h.shape.rows.exceeds 1 && hasTransposedLeft g id
    | _ => false

/-- The hop joins the region of `input` into one that it extends: only a single column can. -/
def merges (g : Graph) (id input : HopId) : Bool :=
  let singleColumn := (g.hop? input).any (·.shape.cols == some 1)
  (g.hop? id).any fun h =>
    match h.kind with
    | .binary _ => singleColumn
    | .matmul => singleColumn && hasTransposedLeft g id
    | _ => false

/-- What becomes of a region at the hop. -/
def closing (g : Graph) (id : HopId) : Closing :=
  match g.hop? id with
  | none => .stillOpen
  | some h =>
    match h.kind with
    | .aggUnary _ .col => .valid
    | .matmul => if hasTransposedLeft g id then .valid else .stillOpen
    | _ => .stillOpen

end OpFusion.RowAgg
