import OpFusion.Operator
import OpFusion.Shape

/-!
# High-level operators

A hop is one operator of a graph. It names its inputs, in order and perhaps repeatedly, and the
hops that consume it, each once and in the order in which they were added.
-/

namespace OpFusion

/-- The number of a hop in its graph, counted from zero in the order of addition. Such a number is
meant to fit into 32 bits, so a graph is taken to have fewer than `2 ^ 32` hops. -/
abbrev HopId := Nat

def HopId.text (id : HopId) : String := "h" ++ toString (id : Nat)

/-- One operator of a graph. -/
structure Hop where
  id : HopId
  kind : Operator
  dataType : DataType
  valueType : ValueType
  shape : Shape
  /-- The hops it reads, by position. -/
  inputs : List HopId
  /-- The hops that read it. -/
  parents : List HopId
deriving DecidableEq

namespace Hop

/-- The hop read at a position. -/
def input? (h : Hop) (position : Nat) : Option HopId := h.inputs[position]?

def isScalar (h : Hop) : Bool := h.dataType = .scalar

def isMatrix (h : Hop) : Bool := h.dataType = .matrix

/-- A read of a variable. -/
def isData (h : Hop) : Bool :=
  match h.kind with
  | .data _ => true
  | _ => false

/-- The constant that the hop holds, if it is a literal. -/
def literal? (h : Hop) : Option Literal :=
  match h.kind with
  | .literal value => some value
  | _ => none

/-- Exchanges rows and columns. -/
def isTranspose (h : Hop) : Bool := h.kind = .reorg .transpose

def isMatmul (h : Hop) : Bool := h.kind = .matmul

/-- The hop of which this one is the transpose, if it is one. -/
def transposed? (h : Hop) : Option HopId := if h.isTranspose then h.input? 0 else none

/-- The name under which a kernel refers to the hop. -/
def kernelName (h : Hop) : String :=
  match h.kind with
  | .data name => name
  | .literal value => value.render
  | _ => "_" ++ h.id.text

def text (h : Hop) : String :=
  "[" ++ h.id.text ++ "] " ++ h.kind.text ++ " : " ++ Named.name h.dataType ++ " " ++ h.shape.text

/-- Equality of hops, with literals compared as values. -/
def sameValue (a b : Hop) : Bool :=
  a.kind.sameValue b.kind && a = { b with kind := a.kind }

end Hop

end OpFusion
