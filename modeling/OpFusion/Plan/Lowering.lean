import OpFusion.Memo.Basic
import OpFusion.Plan.OuterProduct
import OpFusion.Plan.RowAgg

/-!
# Lowering regions

`Draft.ofRegion` lowers the region that the memo records below a hop: the best entry at each hop
says which of its inputs belong to the region; those are lowered first, and the others become its
boundary. `Plan.construct` then lays out the plan.
-/

namespace OpFusion

/-- The hops that must be bound before a hop is lowered, although it does not read them. -/
def Template.absorbed (t : Template) (g : Graph) (h : Hop) : List HopId :=
  match t with
  | .outerProduct => OuterProduct.absorbed g h
  | .rowAgg => RowAgg.absorbed g h

/-- What a hop of a region becomes. -/
def Template.fragment (t : Template) (g : Graph) (d : Draft) (h : Hop) :
    Except PlanError Kernel.Fragment :=
  match t with
  | .outerProduct => OuterProduct.fragment g d h
  | .rowAgg => RowAgg.fragment g d h

/-- The plan for a region that has been lowered up to its root. -/
def Template.plan (t : Template) (g : Graph) (d : Draft) (root : HopId) : Except PlanError Plan :=
  match t with
  | .outerProduct => OuterProduct.plan g d root
  | .rowAgg => RowAgg.plan g d root

/-- The best entry of a template at a hop. That there is none is an error. -/
def Memo.best (m : Memo) (id : HopId) (t : Template) : Except PlanError MemoEntry :=
  match m.best? id t with
  | some entry => .ok entry
  | none => .error (.missingMemoEntry id t)

namespace Draft

/-- Lowers one hop whose inputs are bound. -/
def lower (t : Template) (g : Graph) (config : Config) (d : Draft) (h : Hop) :
    Except PlanError Draft := do
  let d ← (t.absorbed g h).foldlM (bindBoundary g config) d
  return d.bindLowered h (← t.fragment g d h)

/-- Lowers the region below a hop unless that hop is bound already. The first argument limits the
depth; any number above `id` is enough, since inputs descend. -/
def lowerBelow (t : Template) (g : Graph) (memo : Memo) (config : Config) :
    Nat → Draft → HopId → Except PlanError Draft
  | 0, _, id => .error (.missingNode id)
  | depth + 1, d, id =>
    match d.node? id with
    | some _ => .ok d
    | none => do
      let h ← PlanError.ofGraph (g.hop id)
      let entry ← memo.best id t
      let d ← h.inputs.zipIdx.foldlM (fun d (input, position) =>
        if entry.refersTo position then lowerBelow t g memo config depth d input
        else bindBoundary g config d input) d
      lower t g config d h

/-- The region below `root`, lowered into a table that may already hold nodes. -/
def ofRegion (t : Template) (g : Graph) (memo : Memo) (config : Config) (table : Kernel.NodeTable)
    (root : HopId) : Except PlanError Draft :=
  lowerBelow t g memo config (root + 1) ⟨table, []⟩ root

end Draft

/-- The plan for the region below `root`, with its nodes added to `table`. -/
def Plan.construct (t : Template) (g : Graph) (memo : Memo) (config : Config)
    (table : Kernel.NodeTable) (root : HopId) : Except PlanError Plan := do
  t.plan g (← Draft.ofRegion t g memo config table root) root

end OpFusion
