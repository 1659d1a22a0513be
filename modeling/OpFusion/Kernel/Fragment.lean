import OpFusion.Kernel.Node

/-!
# Fragments

A fragment describes new nodes on top of nodes that a table already has. `NodeTable.emit` adds them.
-/

namespace OpFusion.Kernel

/-- An expression whose leaves may be nodes that exist already. -/
inductive Fragment where
  | node (id : NodeId)
  | literal (value : Literal)
  | unary (prim : UnaryPrim) (a : Fragment)
  | binary (prim : BinaryPrim) (a b : Fragment)
  | ternary (prim : TernaryPrim) (a b c : Fragment)
deriving DecidableEq

namespace NodeTable

/-- Adds the new nodes of a fragment, operands first, and returns the node on top. -/
def emit (t : NodeTable) : Fragment → NodeTable × NodeId
  | .node id => (t, id)
  | .literal value => t.push (.literal value)
  | .unary prim a =>
    let first := t.emit a
    first.1.push (first.1.unary prim first.2)
  | .binary prim a b =>
    let first := t.emit a
    let second := first.1.emit b
    second.1.push (second.1.binary prim first.2 second.2)
  | .ternary prim a b c =>
    let first := t.emit a
    let second := first.1.emit b
    let third := second.1.emit c
    third.1.push (third.1.ternary prim first.2 second.2 third.2)

/-- The node that stands for a hop: a matrix of other extents than the hop's is copied with those of
the hop, and anything else is taken as it is. -/
def fitTo (t : NodeTable) (h : Hop) (id : NodeId) : NodeTable × NodeId :=
  match t.node? id with
  | some n =>
    if h.isMatrix ∧ n.isMatrix ∧ n.shape ≠ h.shape then t.push (n.reshaped h.shape) else (t, id)
  | none => (t, id)

end NodeTable

end OpFusion.Kernel
