import OpFusion.Dag.Outline
import OpFusion.Graph.Basic

/-!
# Walking a graph

`Graph.topologicalOrder` lists what some roots reach, inputs first, and `Graph.outline` shows what
one hop reaches as an indented list in which shared hops appear once.
-/

namespace OpFusion.Graph

/-- How far a walk from some roots to their inputs has come. -/
structure Traversal where
  /-- The hops entered so far. Those whose inputs are still being passed are among them. -/
  entered : List HopId
  /-- The hops left so far, in this order. -/
  order : List HopId
deriving DecidableEq

/-- Enters a hop that was not entered before, passes its inputs and leaves it again; fails at a hop
that the graph does not have. The first argument limits the depth; any number above `id` is enough,
since inputs descend. -/
def Traversal.pass (g : Graph) : Nat → Traversal → HopId → Except GraphError Traversal
  | 0, w, _ => .ok w
  | depth + 1, w, id =>
    if id ∈ w.entered then .ok w
    else do
      let h ← g.hop id
      let below ← h.inputs.foldlM (pass g depth) { w with entered := id :: w.entered }
      return { below with order := below.order ++ [id] }

/-- The hops reachable from `roots`, inputs first; fails on the first root that is unknown. -/
def topologicalOrder (g : Graph) (roots : List HopId) : Except GraphError (List HopId) := do
  let w ← roots.foldlM (fun w root => Traversal.pass g (root + 1) w root) ⟨[], []⟩
  return w.order

/-- The label of a hop in an outline. -/
def label (g : Graph) (item : Dag.Item) : String :=
  if item.isReference then "[" ++ HopId.text item.id ++ "] → (see above)"
  else
    match g.hop? item.id with
    | some h => h.text
    | none => "[" ++ HopId.text item.id ++ "] <unknown>"

/-- The items of the outline below a hop. -/
def outline (g : Graph) (root : HopId) : List Dag.Item := Dag.outline g.inputs root

/-- The text of the outline below a hop. -/
def tree (g : Graph) (root : HopId) : String := Dag.renderOutline g.label (g.outline root)

end OpFusion.Graph
