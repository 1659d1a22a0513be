import OpFusion.Graph.Hop
import OpFusion.Kernel.Primitive

/-!
# Kernel nodes

The body of a kernel is an acyclic graph of nodes, each one primitive applied to earlier nodes.
Nodes are kept in a table and named by their number in it, so two occurrences of a node are shared
exactly when they have the same number. The table only grows, and several kernels may lie in one.
-/

namespace OpFusion.Kernel

/-- The number of a node in its table. -/
abbrev NodeId := Nat

/-- What a node computes. -/
inductive NodeOp where
  /-- A kernel input: the value of a hop, under its variable name. -/
  | data (hop : HopId) (name : String)
  | literal (value : Literal)
  | unary (prim : UnaryPrim) (a : NodeId)
  | binary (prim : BinaryPrim) (a b : NodeId)
  | ternary (prim : TernaryPrim) (a b c : NodeId)
deriving DecidableEq

namespace NodeOp

/-- The nodes that the operation reads, in order. -/
def operands : NodeOp → List NodeId
  | data _ _ | literal _ => []
  | unary _ a => [a]
  | binary _ a b => [a, b]
  | ternary _ a b c => [a, b, c]

def text : NodeOp → String
  | data hop name => "DATA(" ++ name ++ "@" ++ HopId.text hop ++ ")"
  | literal value => "LIT(" ++ value.render ++ ")"
  | unary prim _ => Named.name prim
  | binary prim _ _ => Named.name prim
  | ternary prim _ _ _ => Named.name prim

/-- The same operation on the same input or literal value, whatever the operands are. -/
def sameValue : NodeOp → NodeOp → Bool
  | data h m, data k n => h = k && m = n
  | literal v, literal w => v.sameValue w
  | unary p _, unary q _ => p = q
  | binary p _ _, binary q _ _ => p = q
  | ternary p _ _ _, ternary q _ _ _ => p = q
  | _, _ => false

end NodeOp

/-- A node: an operation with the type and the extents of its result. -/
structure Node where
  /-- What it computes, and from which nodes. -/
  op : NodeOp
  dataType : DataType
  shape : Shape
deriving DecidableEq

namespace Node

/-- The input node for a hop. -/
def data (h : Hop) : Node := ⟨.data h.id h.kernelName, h.dataType, h.shape⟩

/-- The node of a constant. -/
def literal (value : Literal) : Node := ⟨.literal value, .scalar, .scalar⟩

def isMatrix (n : Node) : Bool := n.dataType = .matrix

def isScalar (n : Node) : Bool := n.dataType = .scalar

/-- A matrix of a single column. -/
def isColVector (n : Node) : Bool := n.isMatrix && n.shape.isColVector

/-- A matrix known to be a row or a column. -/
def isVector (n : Node) : Bool := n.isMatrix && n.shape.isVector

/-- A kernel input. -/
def isData (n : Node) : Bool :=
  match n.op with
  | .data _ _ => true
  | _ => false

/-- The hop that an input node stands for. -/
def sourceHop? (n : Node) : Option HopId :=
  match n.op with
  | .data hop _ => some hop
  | _ => none

/-- The constant of a literal node. -/
def literal? (n : Node) : Option Literal :=
  match n.op with
  | .literal value => some value
  | _ => none

/-- A node that fills a temporary row. -/
def isRowScalar (n : Node) : Bool :=
  match n.op with
  | .binary prim _ _ => prim.isRowScalar
  | _ => false

/-- The node with the given extents; a scalar keeps its own. -/
def reshaped (n : Node) (shape : Shape) : Node := if n.isMatrix then { n with shape } else n

/-- The written form of a node; a scalar is written without its extents. -/
def text (n : Node) : String :=
  n.op.text ++ " : " ++ Named.name n.dataType ++ (if n.isMatrix then " " ++ n.shape.text else "")

end Node

/-- The nodes of one or more kernels, by number. -/
structure NodeTable where
  nodes : Array Node
deriving DecidableEq

namespace NodeTable

def empty : NodeTable := ⟨#[]⟩

def size (t : NodeTable) : Nat := t.nodes.size

def node? (t : NodeTable) (id : NodeId) : Option Node := t.nodes[id]?

/-- The table with one more node, and the number of that node. -/
def push (t : NodeTable) (n : Node) : NodeTable × NodeId := (⟨t.nodes.push n⟩, t.size)

/-- The nodes that a node reads. -/
def operands (t : NodeTable) (id : NodeId) : List NodeId :=
  match t.node? id with
  | some n => n.op.operands
  | none => []

/-- The node is there and a property holds of it. -/
def check (t : NodeTable) (property : Node → Bool) (id : NodeId) : Bool := (t.node? id).any property

/-- The extents of the first matrix among some nodes. -/
def leadingMatrixShape? (t : NodeTable) (ids : List NodeId) : Option Shape :=
  ids.findSome? fun id => ((t.node? id).filter (·.isMatrix)).map (·.shape)

/-- An operation that works cell by cell: its result is a matrix as soon as one operand is, of the
extents of the first. -/
def cellwise (t : NodeTable) (op : NodeOp) : Node :=
  match t.leadingMatrixShape? op.operands with
  | some shape => ⟨op, .matrix, shape⟩
  | none => ⟨op, .scalar, .scalar⟩

/-- A primitive applied to one node of the table. -/
def unary (t : NodeTable) (prim : UnaryPrim) (a : NodeId) : Node :=
  match t.node? a with
  | some n =>
    if prim.isScalarValued then ⟨.unary prim a, .scalar, .scalar⟩
    else ⟨.unary prim a, n.dataType, n.shape⟩
  | none => ⟨.unary prim a, .scalar, .scalar⟩

/-- A primitive applied to two nodes of the table. -/
def binary (t : NodeTable) (prim : BinaryPrim) (a b : NodeId) : Node :=
  match prim with
  | .dotProduct => ⟨.binary prim a b, .scalar, .scalar⟩
  | .rowAdd _ | .rowScalar _ =>
    ⟨.binary prim a b, .matrix, (t.leadingMatrixShape? [a, b]).getD .unknown⟩
  | .cell _ => t.cellwise (.binary prim a b)

/-- A primitive applied to three nodes of the table. -/
def ternary (t : NodeTable) (prim : TernaryPrim) (a b c : NodeId) : Node :=
  if prim = .lookupColumn then ⟨.ternary prim a b c, .scalar, .scalar⟩
  else t.cellwise (.ternary prim a b c)

end NodeTable

end OpFusion.Kernel
