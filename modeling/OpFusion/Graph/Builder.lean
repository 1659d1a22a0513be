import OpFusion.Graph.Basic

/-!
# Building graphs

A `HopRequest` asks for one hop. For a typed request the data type and the shape of the result
follow from the inputs (`HopRequest.spec`); a raw request brings them along. One request is carried
out by `HopRequest.carryOut` and a list of them by `Graph.build`, which goes on from what a request
leaves behind, whether it fails or not.
-/

namespace OpFusion

/-- A hop to be added to a graph. -/
inductive HopRequest where
  /-- A read of a matrix of known extents. -/
  | data (name : String) (rows cols : UInt64)
  /-- A read of a matrix of unknown extents. -/
  | dataUnknown (name : String)
  /-- A read of a scalar variable. -/
  | scalar (name : String)
  | literal (value : Literal)
  | unary (op : UnaryOp) (x : HopId)
  | binary (op : BinaryOp) (a b : HopId)
  | ternary (op : TernaryOp) (a b c : HopId)
  | aggUnary (op : AggOp) (direction : Direction) (x : HopId)
  | matmul (a b : HopId)
  | reorg (op : ReorgOp) (x : HopId)
  /-- The block of `target` between bounds that count from one and are included. -/
  | rightIndex (target rowLower rowUpper colLower colUpper : HopId)
  /-- A builtin applied to named parameters. -/
  | builtin (op : BuiltinOp) (params : List (String × HopId))
  /-- Any hop, with its types and shape as given. -/
  | raw (spec : HopSpec)

namespace HopRequest

def sum (x : HopId) : HopRequest := aggUnary .sum .rowCol x

def rowSums (x : HopId) : HopRequest := aggUnary .sum .row x

def colSums (x : HopId) : HopRequest := aggUnary .sum .col x

def transpose (x : HopId) : HopRequest := reorg .transpose x

/-- The cells of `target` with `replacement` wherever they equal `pattern`. -/
def replace (target pattern replacement : HopId) : HopRequest :=
  builtin .replace [("target", target), ("pattern", pattern), ("replacement", replacement)]

end HopRequest

/-- The type and shape of an elementwise operation: a matrix as soon as one operand is, of the
shape to which the matrices among the operands broadcast from left to right. -/
def elementwiseResult (operands : List Hop) : DataType × Shape :=
  match operands.filter (·.isMatrix) with
  | [] => (.scalar, .scalar)
  | first :: rest => (.matrix, rest.foldl (fun shape h => shape.broadcast h.shape) first.shape)

/-- The type and shape of an aggregate over a value of the given shape. -/
def Direction.reduce (direction : Direction) (shape : Shape) : DataType × Shape :=
  match direction with
  | .row => (.matrix, ⟨shape.rows, some 1⟩)
  | .col => (.matrix, ⟨some 1, shape.cols⟩)
  | .rowCol => (.scalar, .scalar)

/-- The shape of a rearranged matrix. A single column becomes the diagonal of a square matrix, and
any other matrix gives its diagonal as a column. -/
def ReorgOp.rearrange (op : ReorgOp) (shape : Shape) : Shape :=
  match op with
  | .transpose => shape.transposed
  | .rev => shape
  | .diag => ⟨shape.rows, if shape.cols = some 1 then shape.rows else some 1⟩

/-- The extent of an index range, known when both bounds are literals that leave at least one
index between them. -/
def indexExtent (lower upper : Hop) : Extent := do
  let low ← (← lower.literal?).toInt64?
  let high ← (← upper.literal?).toInt64?
  if low ≤ high then some (UInt64.ofInt (high.toInt - low.toInt + 1)) else none

namespace HopRequest

/-- The hop that a request stands for, read off the inputs in the given graph. -/
def spec (g : Graph) : HopRequest → Except GraphError HopSpec
  | data name rows cols => .ok ⟨.data name, .matrix, .fp64, ⟨some rows, some cols⟩, []⟩
  | dataUnknown name => .ok ⟨.data name, .matrix, .fp64, .unknown, []⟩
  | scalar name => .ok ⟨.data name, .scalar, .fp64, .scalar, []⟩
  | literal value => .ok ⟨.literal value, .scalar, value.valueType, .scalar, []⟩
  | unary op x => do
    let h ← g.hop x
    return ⟨.unary op, h.dataType, h.valueType, h.shape, [x]⟩
  | binary op a b => do
    let left ← g.hop a
    let right ← g.hop b
    let result := elementwiseResult [left, right]
    return ⟨.binary op, result.1, left.valueType, result.2, [a, b]⟩
  | ternary op a b c => do
    let first ← g.hop a
    let second ← g.hop b
    let third ← g.hop c
    let result :=
      if op = .ctable then (.matrix, .unknown) else elementwiseResult [first, second, third]
    return ⟨.ternary op, result.1, first.valueType, result.2, [a, b, c]⟩
  | aggUnary op direction x => do
    let h ← g.hop x
    let result := direction.reduce h.shape
    return ⟨.aggUnary op direction, result.1, h.valueType, result.2, [x]⟩
  | matmul a b => do
    let left ← g.hop a
    let right ← g.hop b
    return ⟨.matmul, .matrix, left.valueType, ⟨left.shape.rows, right.shape.cols⟩, [a, b]⟩
  | reorg op x => do
    let h ← g.hop x
    return ⟨.reorg op, .matrix, h.valueType, op.rearrange h.shape, [x]⟩
  | rightIndex target rowLower rowUpper colLower colUpper => do
    let rows := indexExtent (← g.hop rowLower) (← g.hop rowUpper)
    let cols := indexExtent (← g.hop colLower) (← g.hop colUpper)
    let h ← g.hop target
    return ⟨.indexing, .matrix, h.valueType, ⟨rows, cols⟩,
      [target, rowLower, rowUpper, colLower, colUpper]⟩
  | builtin op params => do
    let kind := .builtin op (params.zipIdx.map fun ((name, _), position) => (name, position))
    match params.lookup "target" with
    | none => .error (.missingParameter kind "target")
    | some target =>
      let h ← g.hop target
      let inputs := params.map (·.2)
      match op with
      | .replace => return ⟨kind, h.dataType, h.valueType, h.shape, inputs⟩
      | .removeEmpty => return ⟨kind, .matrix, h.valueType, .unknown, inputs⟩
  | raw spec => .ok spec

/-- Carries out a request, and returns the number of the hop that was added. -/
def carryOut (request : HopRequest) : Graph.Change HopId := do
  let spec ← ofExcept (request.spec (← get))
  Graph.add spec

end HopRequest

namespace Graph

/-- The graph after a request was carried out, as far as that went. -/
def after (g : Graph) (request : HopRequest) : Graph :=
  match request.carryOut.run g with
  | .ok _ grown => grown
  | .error _ left => left

/-- The graph with the hop that a request stands for and the number of that hop, or why the request
fails. -/
def apply (g : Graph) (request : HopRequest) : Except GraphError (Graph × HopId) :=
  match request.carryOut.run g with
  | .ok id grown => .ok (grown, id)
  | .error e _ => .error e

/-- The graph after a list of requests, each carried out as far as it goes. -/
def build (g : Graph) (requests : List HopRequest) : Graph := requests.foldl after g

end Graph

end OpFusion
