/-!
# Outlines

An outline shows the part of an acyclic graph below one node as an indented list. Nodes are numbered
as they are shown. One that has already been shown is only referred to, by its number, and nothing is
listed below the reference, so an outline has one item for its root and one for every edge. Children
have smaller numbers than their parents.
-/

namespace OpFusion.Dag

/-- A step from an item to one below it. -/
structure Step where
  /-- The position of the child that is taken. -/
  position : Nat
  /-- It is the last child. -/
  isLast : Bool
deriving DecidableEq

/-- A node and a way to it. -/
structure Occurrence where
  id : Nat
  /-- The steps from the root down to the node. -/
  path : List Step
deriving DecidableEq

/-- One line of an outline. -/
structure Item extends Occurrence where
  /-- How many other nodes were shown in full before this one was. -/
  number : Nat
  /-- The line refers to an earlier line that shows the node in full. -/
  isReference : Bool
deriving DecidableEq

/-- The occurrences right below an item: those of the children, or none below a reference. -/
def Item.below (children : Nat → List Nat) (item : Item) : List Occurrence :=
  if item.isReference then []
  else
    (children item.id).mapIdx fun position c =>
      ⟨c, item.path ++ [⟨position, position + 1 = (children item.id).length⟩]⟩

/-- An outline that is being written. -/
structure Sheet where
  /-- The nodes shown in full so far, by number. -/
  shown : List Nat
  /-- The lines written so far. -/
  items : List Item
deriving DecidableEq

namespace Sheet

/-- Nothing has been written. -/
def empty : Sheet := ⟨[], []⟩

/-- The line for an occurrence: a reference if its node has been shown, and else the node in full,
under the next number. -/
def item (s : Sheet) (o : Occurrence) : Item :=
  { o with number := s.shown.idxOf o.id, isReference := o.id ∈ s.shown }

/-- Adds a line. -/
def write (s : Sheet) (item : Item) : Sheet :=
  ⟨if item.isReference then s.shown else s.shown ++ [item.id], s.items ++ [item]⟩

end Sheet

/-- Writes the line for an occurrence, and then the lines below it. The first argument limits the
depth; any number above that of the node is enough, since children descend. -/
def outlineBelow (children : Nat → List Nat) : Nat → Sheet → Occurrence → Sheet
  | 0, s, _ => s
  | depth + 1, s, o =>
    let item := s.item o
    (item.below children).foldl (outlineBelow children depth) (s.write item)

/-- The outline of everything below `root`. -/
def outline (children : Nat → List Nat) (root : Nat) : List Item :=
  (outlineBelow children (root + 1) .empty ⟨root, []⟩).items

/-- The lines drawn before an item: a rule beside each open ancestor and a branch to the item. -/
def Item.branches (item : Item) : String :=
  match item.path.getLast? with
  | none => ""
  | some last =>
    String.join (item.path.dropLast.map fun step => if step.isLast then "   " else "│  ")
      ++ (if last.isLast then "└─ " else "├─ ")

/-- The text of an outline, one line for each item, with the given label. -/
def renderOutline (label : Item → String) (items : List Item) : String :=
  String.join (items.map fun item => item.branches ++ label item ++ "\n")

end OpFusion.Dag
