import OpFusion.Dag.PostOrder
import OpFusion.Graph.Order
import OpFusion.Memo.Basic
import OpFusion.Region.Matcher

/-!
# Exploration

Exploration fills the memo from the inputs of a graph towards its roots. At each hop every
template proposes entries from the regions still open at the inputs, and the region is then closed
or given up if it ends there. Competing matches are all kept.
-/

namespace OpFusion

namespace Matcher

/-- The inputs of a hop, by position, that have an open region of the template. -/
def openInputs (m : Matcher) (memo : Memo) (h : Hop) : List (HopId × Nat) :=
  h.inputs.zipIdx.filter fun (input, _) => memo.hasOpen input m.template

/-- The first two positions among the open inputs such that the hop extends the region of the one
and joins that of the other into it. -/
def joinable? (m : Matcher) (g : Graph) (id : HopId) (inputs : List (HopId × Nat)) :
    Option (Nat × Nat) :=
  inputs.findSome? fun (_, a) =>
    inputs.findSome? fun (other, b) =>
      if a ≠ b ∧ m.fuses g id ∧ m.merges g id other then some (a, b) else none

/-- The entries with which the template matches at a hop, given the open inputs: one for each input
whose region it extends, one that joins two regions, and one that starts a region. -/
def proposals (m : Matcher) (g : Graph) (id : HopId) (inputs : List (HopId × Nat)) :
    List MemoEntry :=
  let extending := if m.fuses g id then inputs.map fun (_, a) => .ofRefs m.template [a] else []
  let joining := (m.joinable? g id inputs).toList.map fun (a, b) => .ofRefs m.template [a, b]
  let starting := if m.opens g id then [.starting m.template] else []
  extending ++ joining ++ starting

/-- Matches the template at one hop. -/
def explore (m : Matcher) (g : Graph) (memo : Memo) (h : Hop) : Memo :=
  let grown := (m.proposals g h.id (m.openInputs memo h)).foldl (·.add h.id) memo
  match m.closing g h.id with
  | .stillOpen => grown
  | .valid => grown.close h.id m.template
  | .invalid => grown.remove h.id m.template

end Matcher

namespace Memo

/-- Matches every template at one hop. -/
def exploreHop (g : Graph) (config : Config) (memo : Memo) (id : HopId) : Memo :=
  match g.hop? id with
  | none => memo
  | some h =>
    (Named.all : List Template).foldl
      (fun memo template => Matcher.explore ⟨template, false, config⟩ g memo h) memo

/-- Matches every template at everything that the roots reach. The first unknown root is an error,
and only what the roots before it reach is then explored. -/
def explore (memo : Memo) (g : Graph) (config : Config) (roots : List HopId) :
    Memo × Option GraphError :=
  let known := roots.takeWhile g.contains
  ((Dag.postOrder g.inputs known).foldl (exploreHop g config) memo,
    (roots.find? fun root => !g.contains root).map .unknownHop)

end Memo

end OpFusion
