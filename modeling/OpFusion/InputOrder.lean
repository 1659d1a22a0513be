import OpFusion.Graph.Basic

/-!
# Kernel input order

Kernels address their inputs by position. A row kernel takes its main input first and then the
others from large to small, scalars last; an outer-product kernel takes its main matrix and factors
first and the others as they come.
-/

namespace OpFusion

/-- How early an input of a row kernel comes, from last to first. -/
inductive InputPriority where
  | scalar
  /-- A matrix of a known number of cells. -/
  | cells (count : UInt64)
  /-- A matrix whose number of cells is not known. -/
  | unknown
  /-- The matrix that the kernel walks over. -/
  | main
deriving DecidableEq

namespace InputPriority

/-- The priority of a hop, given the main input. -/
def ofHop (h : Hop) (main : Option HopId) : InputPriority :=
  if h.isScalar then .scalar
  else if main = some h.id then .main
  else
    match h.shape.cells with
    | some count => .cells count
    | none => .unknown

/-- Priorities are compared by their weights. -/
def weight : InputPriority → Nat
  | scalar => 0
  | cells count => count.toNat + 1
  | unknown => UInt64.size + 1
  | main => UInt64.size + 2

end InputPriority

namespace Graph

/-- The priority of a hop number; one outside the graph counts as a matrix of unknown size. -/
def inputPriority (g : Graph) (main : Option HopId) (id : HopId) : InputPriority :=
  match g.hop? id with
  | some h => .ofHop h main
  | none => .unknown

/-- Puts `id` in front of the first element whose priority is not higher. -/
def insertByPriority (g : Graph) (main : Option HopId) (id : HopId) : List HopId → List HopId
  | [] => [id]
  | other :: rest =>
    if (g.inputPriority main other).weight ≤ (g.inputPriority main id).weight then
      id :: other :: rest
    else other :: insertByPriority g main id rest

/-- The inputs from the highest priority to the lowest; equal ones keep their order. -/
def orderByPriority (g : Graph) (main : Option HopId) (inputs : List HopId) : List HopId :=
  inputs.foldr (g.insertByPriority main) []

end Graph

/-- The pinned hops, and then the inputs that are not among them. -/
def pinFirst (pinned inputs : List HopId) : List HopId :=
  pinned ++ inputs.filter fun id => id ∉ pinned

end OpFusion
