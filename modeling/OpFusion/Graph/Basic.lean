import OpFusion.Graph.Hop

/-!
# Operator graphs

A graph is the list of its hops. `Graph.add` enters a new hop only when its inputs are already
there, so a graph has no cycles and the order of addition puts inputs first. `GraphError` says why a
hop, or a question about one, is refused.
-/

namespace OpFusion

/-- Why an operation on a graph fails. -/
inductive GraphError where
  /-- The graph has no hop of this number. -/
  | unknownHop (id : HopId)
  /-- The kind takes another number of inputs. -/
  | inputArity (kind : Operator) (expected actual : Nat)
  /-- The builtin lacks a parameter of this name. -/
  | missingParameter (kind : Operator) (name : String)
  /-- The parameter stands for an input that is not there. -/
  | parameterOutOfRange (kind : Operator) (name : String) (position inputs : Nat)
deriving DecidableEq

def GraphError.message : GraphError → String
  | unknownHop id => "unknown hop " ++ id.text
  | inputArity kind expected actual =>
    kind.text ++ " expects " ++ toString expected ++ " inputs, got " ++ toString actual
  | missingParameter kind name => kind.text ++ " is missing parameter '" ++ name ++ "'"
  | parameterOutOfRange kind name position inputs =>
    kind.text ++ " parameter '" ++ name ++ "' refers to input " ++ toString position ++ " of "
      ++ toString inputs

/-- A hop that has yet to be added: all but its number and its parents. -/
structure HopSpec where
  kind : Operator
  dataType : DataType
  valueType : ValueType
  shape : Shape
  /-- The hops it reads, by position. -/
  inputs : List HopId
deriving DecidableEq

/-- The hops of a program, by number. -/
structure Graph where
  /-- The hops, in the order of addition. -/
  hops : List Hop
deriving DecidableEq

namespace Graph

def empty : Graph := ⟨[]⟩

def size (g : Graph) : Nat := g.hops.length

/-- All hop numbers, ascending. -/
def ids (g : Graph) : List HopId := List.range g.size

/-- The hop of a number belongs to the graph. -/
def contains (g : Graph) (id : HopId) : Bool := id < g.size

def hop? (g : Graph) (id : HopId) : Option Hop := g.hops[id]?

/-- The hop of a number, or the error that it is unknown. -/
def hop (g : Graph) (id : HopId) : Except GraphError Hop :=
  match g.hop? id with
  | some h => .ok h
  | none => .error (.unknownHop id)

/-- The hop that `id` reads at a position. -/
def input? (g : Graph) (id : HopId) (position : Nat) : Option Hop := do
  let h ← g.hop? id
  g.hop? (← h.input? position)

/-- The hops that `id` reads; none when it is unknown. -/
def inputs (g : Graph) (id : HopId) : List HopId :=
  match g.hop? id with
  | some h => h.inputs
  | none => []

/-- The first hop that was added as a consumer of `id`. -/
def firstParent? (g : Graph) (id : HopId) : Option Hop := do
  let h ← g.hop? id
  g.hop? (← h.parents.head?)

/-- The hops without consumers. -/
def roots (g : Graph) : List HopId :=
  (g.hops.filter (·.parents.isEmpty)).map (·.id)

/-- The input that stands for a named parameter. -/
def paramInput (g : Graph) (id : HopId) (name : String) : Except GraphError HopId := do
  let h ← g.hop id
  match h.kind.param? name with
  | none => .error (.missingParameter h.kind name)
  | some position =>
    match h.input? position with
    | none => .error (.parameterOutOfRange h.kind name position h.inputs.length)
    | some input => .ok input

/-- The graph in which the hop of a number has one more parent. -/
def addParent (g : Graph) (x parent : HopId) : Graph :=
  ⟨g.hops.map fun h => if h.id = x then { h with parents := h.parents ++ [parent] } else h⟩

/-- The graph with one more hop. -/
def push (g : Graph) (h : Hop) : Graph := ⟨g.hops ++ [h]⟩

/-- A change to a graph. It may fail on the way, and what it has done by then stays done. -/
abbrev Change (α : Type) := EStateM GraphError Graph α

/-- Fails with the error unless the condition holds. -/
def Change.require (condition : Prop) [Decidable condition] (e : GraphError) : Change Unit :=
  if condition then pure () else throw e

/-- Fails unless the hop can be added: the number of its inputs has to be right, each of its
parameters has to stand for an input, and its inputs have to be in the graph. -/
def inspect (spec : HopSpec) : Change Unit := do
  let count := spec.inputs.length
  spec.kind.arity.forM fun expected =>
    .require (count = expected) (.inputArity spec.kind expected count)
  spec.kind.params.forM fun (name, position) =>
    .require (position < count) (.parameterOutOfRange spec.kind name position count)
  spec.inputs.forM fun x => do
    .require ((← get).contains x) (.unknownHop x)

/-- Adds a hop that can be added. It becomes the last parent of every hop that it reads. -/
def enter (spec : HopSpec) : Change HopId := do
  let id := (← get).size
  spec.inputs.eraseDups.forM fun x => modify (·.addParent x id)
  modify (·.push ⟨id, spec.kind, spec.dataType, spec.valueType, spec.shape, spec.inputs, []⟩)
  return id

/-- Adds a hop if it can be added, and returns its number. -/
def add (spec : HopSpec) : Change HopId := do
  inspect spec
  enter spec

/-- Equality of graphs, with literals compared as values: a graph that holds a NaN differs from
itself. -/
def sameValue (a b : Graph) : Bool :=
  a.size == b.size && (a.hops.zip b.hops).all fun (x, y) => x.sameValue y

end Graph

end OpFusion
