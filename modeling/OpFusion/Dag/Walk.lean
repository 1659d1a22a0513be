/-!
# Walks

A walk through a directed acyclic graph passes what lies below a node, each node once and children
first. It marks a node when it enters it, and takes note of it when it leaves it, so that whatever is
gathered from all nodes can be gathered on the way.
-/

namespace OpFusion.Dag

/-- How far a walk has come. -/
structure Walk (σ : Type) where
  /-- The nodes entered so far. Those whose children are still being passed are among them. -/
  entered : List Nat
  /-- What has been gathered from the nodes left so far. -/
  notes : σ

/-- Enters a node that was not entered before, passes its children and leaves it again. The first
argument limits the depth; any number above `id` is enough, since children descend. -/
def Walk.pass {σ : Type} (children : Nat → List Nat) (note : σ → Nat → σ) :
    Nat → Walk σ → Nat → Walk σ
  | 0, w, _ => w
  | depth + 1, w, id =>
    if id ∈ w.entered then w
    else
      let below :=
        (children id).foldl (pass children note depth) { w with entered := id :: w.entered }
      { below with notes := note below.notes id }

/-- Gathers notes from `root` and all that lies below it. -/
def gather {σ : Type} (children : Nat → List Nat) (root : Nat) (note : σ → Nat → σ) (start : σ) :
    σ :=
  (Walk.pass children note (root + 1) ⟨[], start⟩ root).notes

end OpFusion.Dag
