import OpFusion.Graph.Basic
import OpFusion.Template

/-!
# Failures of planning

Why no plan can be made for a region.
-/

namespace OpFusion

/-- The inputs that an outer-product kernel cannot do without. -/
inductive FactorRole where
  /-- The sparse matrix whose cells drive the kernel. -/
  | main
  /-- The left factor of the product. -/
  | left
  /-- The right factor of the product, not transposed. -/
  | right
deriving DecidableEq

instance : Named FactorRole where
  all := [.main, .left, .right]
  name
    | .main => "X"
    | .left => "U"
    | .right => "V"

/-- Why no plan can be made. -/
inductive PlanError where
  /-- The region holds an operator that the template cannot express. -/
  | unsupportedOperator (id : HopId) (kind : Operator) (template : Template)
  /-- The template does not match at a hop of the region. -/
  | missingMemoEntry (id : HopId) (template : Template)
  /-- An outer-product region lacks one of its inputs. -/
  | missingFactor (role : FactorRole)
  /-- A hop is read before it has a node. -/
  | missingNode (id : HopId)
  /-- The graph refuses a question. -/
  | graph (e : GraphError)
deriving DecidableEq

namespace PlanError

def message : PlanError → String
  | unsupportedOperator id kind template =>
    Named.name template ++ " template cannot lower " ++ kind.text ++ " at " ++ id.text
  | missingMemoEntry id template => "no " ++ Named.name template ++ " memo entry for " ++ id.text
  | missingFactor role => "outer-product region has no " ++ Named.name role ++ " input"
  | missingNode id => "no CNode was built for " ++ id.text
  | graph e => "operator graph error: " ++ e.message

/-- A question to the graph, asked while planning. -/
def ofGraph {α : Type} : Except GraphError α → Except PlanError α
  | .ok a => .ok a
  | .error e => .error (.graph e)

/-- The template cannot express the hop. -/
def unsupported (template : Template) (h : Hop) : PlanError :=
  .unsupportedOperator h.id h.kind template

end PlanError

end OpFusion
