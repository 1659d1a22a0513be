import OpFusion.Config
import OpFusion.Kernel.Fragment
import OpFusion.Plan.Error

/-!
# Kernels under construction

While a region is lowered, each of its hops and each hop that bounds it is bound once to a node. A
draft keeps the bindings in the order in which they were made, so it also tells in which order the
boundary was met and the hops were lowered.
-/

namespace OpFusion

open Kernel

/-- A hop and the node that stands for it. -/
structure Binding where
  hop : HopId
  node : NodeId
  /-- The hop bounds the region, so the node reads a kernel input or is a literal. -/
  isBoundary : Bool
deriving DecidableEq

/-- The nodes made so far and what they stand for. -/
structure Draft where
  table : NodeTable
  /-- Each bound hop once, in the order of binding. -/
  bindings : List Binding
deriving DecidableEq

namespace Draft

/-- The node of a hop, if it is bound. -/
def node? (d : Draft) (id : HopId) : Option NodeId :=
  (d.bindings.find? (·.hop == id)).map (·.node)

/-- The node of a hop. -/
def node (d : Draft) (id : HopId) : Except PlanError NodeId :=
  match d.node? id with
  | some n => .ok n
  | none => .error (.missingNode id)

/-- The hops that bound the region, in the order in which they were met. -/
def boundary (d : Draft) : List HopId := (d.bindings.filter (·.isBoundary)).map (·.hop)

/-- The hops of the region, in the order in which they were lowered. -/
def lowered (d : Draft) : List HopId := (d.bindings.filter (!·.isBoundary)).map (·.hop)

/-- The node through which a kernel reads a hop from outside: a literal is part of the kernel if
literals are compiled, and anything else is an input. -/
def boundaryNode (config : Config) (h : Hop) : Node :=
  match h.kind with
  | .literal value => if config.compileLiterals then .literal value else .data h
  | _ => .data h

/-- Binds a hop that bounds the region, unless it is bound already. -/
def bindBoundary (g : Graph) (config : Config) (d : Draft) (id : HopId) :
    Except PlanError Draft :=
  match d.node? id with
  | some _ => .ok d
  | none => do
    let h ← PlanError.ofGraph (g.hop id)
    let pushed := d.table.push (boundaryNode config h)
    return ⟨pushed.1, d.bindings ++ [⟨id, pushed.2, true⟩]⟩

/-- Binds a hop of the region to what it is lowered to. -/
def bindLowered (d : Draft) (h : Hop) (fragment : Fragment) : Draft :=
  let emitted := d.table.emit fragment
  let fitted := emitted.1.fitTo h emitted.2
  ⟨fitted.1, d.bindings ++ [⟨h.id, fitted.2, false⟩]⟩

/-- The hop that `h` reads at a position. -/
def operandHop (g : Graph) (h : Hop) (position : Nat) : Except PlanError Hop :=
  match h.input? position with
  | some input => PlanError.ofGraph (g.hop input)
  | none => .error (.missingNode h.id)

/-- The node of the hop that `h` reads at a position. -/
def operand (d : Draft) (h : Hop) (position : Nat) : Except PlanError NodeId :=
  match h.input? position with
  | some input => d.node input
  | none => .error (.missingNode h.id)

/-- The hops below the transposes that `h` reads at the given positions. -/
def belowTransposes (g : Graph) (h : Hop) (positions : List Nat) : List HopId :=
  positions.filterMap fun position => (g.input? h.id position).bind (·.transposed?)

/-- The node that a multiply reads at a position: if that operand is a transpose, the multiply takes
over the transposition and reads the hop below it. -/
def factor (g : Graph) (d : Draft) (h : Hop) (position : Nat) : Except PlanError NodeId := do
  match (← operandHop g h position).transposed? with
  | some inner => d.node inner
  | none => d.operand h position

end Draft

end OpFusion
