/-!
# Depth-first order

A directed acyclic graph is given by its function `children`, under which every child has a smaller
number than the node it belongs to. `postOrder` lists what is reachable from some roots, children
first and each node once.
-/

namespace OpFusion.Dag

/-- Appends to `done` the nodes reachable from `id` that it does not list yet, children first. The
first argument limits the depth; any number above `id` is enough, since children descend. -/
def visit (children : Nat → List Nat) : Nat → List Nat → Nat → List Nat
  | 0, done, _ => done
  | depth + 1, done, id =>
    if id ∈ done then done
    else (children id).foldl (visit children depth) done ++ [id]

/-- The nodes reachable from `roots`, each once and after all of its children. -/
def postOrder (children : Nat → List Nat) (roots : List Nat) : List Nat :=
  roots.foldl (fun done root => visit children (root + 1) done root) []

end OpFusion.Dag
