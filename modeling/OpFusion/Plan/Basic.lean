import OpFusion.Kernel.Body
import OpFusion.Template

/-!
# Plans

A plan is the result of one fusion decision: the hops that become kernel inputs, in order, and the
kernel that reads them by position.
-/

namespace OpFusion

/-- Where the result of an outer-product kernel lies. -/
inductive Alignment where
  /-- Along the left factor. -/
  | left
  /-- Along the right factor. -/
  | right
  /-- Along the cells of the product. -/
  | cellwise
  /-- In a single cell. -/
  | aggregate
deriving DecidableEq

instance : Named Alignment where
  all := [.left, .right, .cellwise, .aggregate]
  name
    | .left => "LEFT_OUTER_PRODUCT"
    | .right => "RIGHT_OUTER_PRODUCT"
    | .cellwise => "CELLWISE_OUTER_PRODUCT"
    | .aggregate => "AGG_OUTER_PRODUCT"

/-- What the code of a kernel needs to know beside its body. -/
inductive KernelForm where
  /-- The flag says that the kernel writes the transpose of the result. -/
  | outerProduct (alignment : Alignment) (transposed : Bool)
  /-- The number counts the rows that the kernel keeps beside its output row. -/
  | rowAgg (temporaryRows : Nat)
deriving DecidableEq

/-- A kernel and the hops that it reads. -/
structure Plan where
  /-- The hops passed to the kernel, by position. -/
  inputs : List HopId
  /-- The table in which the body lies. -/
  table : Kernel.NodeTable
  /-- The nodes that stand for the inputs, by position. -/
  arguments : List Kernel.NodeId
  /-- The node of the result. -/
  output : Kernel.NodeId
  form : KernelForm
deriving DecidableEq

namespace KernelForm

/-- The template of which a kernel is an instance. -/
def template : KernelForm → Template
  | outerProduct _ _ => .outerProduct
  | rowAgg _ => .rowAgg

/-- The written form: the template with its settings. -/
def text : KernelForm → String
  | outerProduct alignment transposed =>
    "OUTER_PRODUCT(" ++ Named.name alignment ++ ", transpose_output="
      ++ (if transposed then "true" else "false") ++ ")"
  | rowAgg temporaryRows => "ROW_AGG(vector_intermediates=" ++ toString temporaryRows ++ ")"

end KernelForm

namespace Plan

/-- The position at which a hop is passed to the kernel. -/
def inputPosition? (p : Plan) (id : HopId) : Option Nat := p.inputs.idxOf? id

/-- The hops that the body reads. -/
def hopsRead (p : Plan) : List HopId := p.table.hopsRead p.output

/-- The kernels are the same: equal inputs and form, and the same expressions for the arguments
and the output. -/
def sameValue (p q : Plan) : Bool :=
  p.inputs = q.inputs && p.form = q.form && p.arguments.length = q.arguments.length
    && (p.arguments.zip q.arguments).all (fun (a, b) => p.table.sameValue a q.table b)
    && p.table.sameValue p.output q.table q.output

/-- The text of a plan: its form and inputs on one line, and then the outline of its body. -/
def tree (p : Plan) : String :=
  p.form.text ++ " inputs=[" ++ String.intercalate ", " (p.inputs.map (HopId.text ·)) ++ "]\n"
    ++ p.table.tree p.output

end Plan

end OpFusion
