import OpFusion.Config
import OpFusion.Graph.Classify
import OpFusion.Kernel.Primitive
import OpFusion.Template

/-!
# Regions of the outer-product template

A region opens at a large matrix multiply with the shape of an outer product. It takes in the
cellwise operators around the product and ends at an aggregate or at another multiply, or at the
transpose of one.
-/

namespace OpFusion.OuterProduct

/-- A region may start at the hop: a multiply with the shape of an outer product, both of whose
extents exceed the threshold. -/
def opens (g : Graph) (config : Config) (id : HopId) : Bool :=
  g.isOuterProductLike id && (g.hop? id).any fun h =>
    h.shape.rows.exceeds config.outerThreshold && h.shape.cols.exceeds config.outerThreshold

/-- The hop extends the region of one of its inputs. -/
def fuses (g : Graph) (id : HopId) : Bool :=
  (g.hop? id).any fun h =>
    match h.kind with
    | .unary _ => h.kind.isSupported
    | .binary _ =>
      h.kind.isSupported && (g.isMatrixColVector id || g.isMatrixScalar id
        || (g.isMatrixMatrix id && g.isBinary id [.mult, .div]))
    | .matmul => !g.isOuterProductLike id
    | .aggUnary _ direction => direction = .rowCol
    | _ => h.isTranspose

/-- The hop joins the region of a second input into one that it extends. -/
def merges (g : Graph) (id : HopId) : Bool := g.isMatrixRowVector id || g.isMatrixScalar id

/-- What becomes of a region at the hop. A multiply that is about to be transposed leaves the end to
the transpose. -/
def closing (g : Graph) (id : HopId) : Closing :=
  match g.hop? id with
  | none => .stillOpen
  | some h =>
    match h.kind with
    | .aggUnary _ _ => if (h.input? 0).any g.isOuterProductLike then .invalid else .valid
    | .matmul =>
      if !g.isOuterProductLike id && !(g.firstParent? id).any (·.isTranspose) then .valid
      else .stillOpen
    | .reorg .transpose =>
      if (h.input? 0).any fun i => g.isMatmul i && !g.isOuterProductLike i then .valid
      else .stillOpen
    | _ => .stillOpen

end OpFusion.OuterProduct
