import OpFusion.Dag.Outline
import OpFusion.Dag.Walk
import OpFusion.Kernel.Node

/-!
# Kernel bodies

What can be read off the part of a node table that one node reaches: its nodes with operands first,
the hops it takes as inputs, the temporary rows it needs, its outline, and whether it is the same
expression as another body.
-/

namespace OpFusion.Kernel.NodeTable

/-- Lets `note` see each node that `root` reaches, once and after its operands. -/
def forEachNode {σ : Type} (t : NodeTable) (root : NodeId) (note : σ → NodeId → σ) (start : σ) : σ :=
  Dag.gather t.operands root note start

/-- The nodes that `root` reaches, each once and after its operands. -/
def reachable (t : NodeTable) (root : NodeId) : List NodeId :=
  t.forEachNode root (fun passed id => passed ++ [id]) []

/-- The hop that a node is a kernel input for. -/
def source? (t : NodeTable) (id : NodeId) : Option HopId := (t.node? id).bind (·.sourceHop?)

/-- Notes the hop that a node is a kernel input for, unless that has been done. -/
def noteSource (t : NodeTable) (hops : List HopId) (id : NodeId) : List HopId :=
  match t.source? id with
  | some hop => if hop ∈ hops then hops else hops ++ [hop]
  | none => hops

/-- The hops that the body reads, each once, in the order in which their nodes are reached. -/
def hopsRead (t : NodeTable) (root : NodeId) : List HopId := t.forEachNode root t.noteSource []

/-- The number of temporary rows: one for each node that fills one, however often it is read. -/
def temporaryRows (t : NodeTable) (root : NodeId) : Nat :=
  t.forEachNode root (fun rows id => if t.check (·.isRowScalar) id then rows + 1 else rows) 0

/-- The items of the outline below a node. -/
def outline (t : NodeTable) (root : NodeId) : List Dag.Item := Dag.outline t.operands root

/-- The label of a node in an outline. -/
def label (t : NodeTable) (item : Dag.Item) : String :=
  let number := "#" ++ toString item.number
  if item.isReference then number ++ " → (see above)"
  else
    match t.node? item.id with
    | some n => number ++ " " ++ n.text
    | none => number

/-- The text of the outline below a node. -/
def tree (t : NodeTable) (root : NodeId) : String := Dag.renderOutline t.label (t.outline root)

/-- Node `a` of one table and node `b` of another stand for the same expression: sharing does not
matter and literals are compared as values. The first argument limits the depth. -/
def sameBelow (s t : NodeTable) : Nat → NodeId → NodeId → Bool
  | 0, _, _ => false
  | depth + 1, a, b =>
    match s.node? a, t.node? b with
    | some x, some y =>
      x.op.sameValue y.op && x.dataType = y.dataType && x.shape = y.shape
        && (x.op.operands.zip y.op.operands).all fun (i, j) => sameBelow s t depth i j
    | _, _ => false

/-- The bodies below two nodes are the same expression. -/
def sameValue (s : NodeTable) (a : NodeId) (t : NodeTable) (b : NodeId) : Bool :=
  sameBelow s t (a + 1) a b

end OpFusion.Kernel.NodeTable
