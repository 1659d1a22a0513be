import OpFusion.Graph.Hop
import OpFusion.Memo.PositionSet
import OpFusion.Template

/-!
# The memo

For each hop the memo lists the ways in which a template matches there. An entry says which inputs
of the hop belong to the same region and whether the region has been closed. The entries at a hop
keep the order in which they were added, and a hop that loses its last entry loses its list.
-/

namespace OpFusion

/-- One way in which a template matches at a hop. -/
structure MemoEntry where
  template : Template
  /-- The positions of the inputs that belong to the same region; the others bound it. -/
  refs : PositionSet
  /-- The region does not grow beyond the hop. -/
  closed : Bool
deriving DecidableEq

namespace MemoEntry

/-- An open entry whose region takes in no input of the hop, so that it starts there. -/
def starting (template : Template) : MemoEntry := ⟨template, .empty, false⟩

/-- An open entry whose region takes in the inputs at the given positions. -/
def ofRefs (template : Template) (positions : List Nat) : MemoEntry :=
  ⟨template, .ofList positions, false⟩

/-- The input at a position belongs to the region. -/
def refersTo (e : MemoEntry) (position : Nat) : Bool := e.refs.contains position

/-- The number of inputs that belong to the region. -/
def refCount (e : MemoEntry) : Nat := e.refs.size

def close (e : MemoEntry) : MemoEntry := { e with closed := true }

end MemoEntry

/-- The matches found so far. -/
structure Memo where
  /-- The lists of entries with the hops where they match, each list oldest first. -/
  lists : List (HopId × List MemoEntry)
  /-- No hop has two lists. -/
  distinct : (lists.map (·.1)).Nodup
deriving DecidableEq

namespace Memo

def empty : Memo := ⟨[], .nil⟩

/-- The number of entries at all hops. -/
def size (m : Memo) : Nat := m.lists.foldr (fun row total => row.2.length + total) 0

/-- No hop has a list of entries. -/
def isEmpty (m : Memo) : Bool := m.lists.isEmpty

/-- The list of a hop, if it has one. -/
def list? (m : Memo) (id : HopId) : Option (List MemoEntry) :=
  (m.lists.find? (·.1 == id)).map (·.2)

/-- The entries at a hop, oldest first. -/
def entries (m : Memo) (id : HopId) : List MemoEntry := (m.list? id).getD []

theorem nodup_erase (m : Memo) (id : HopId) :
    ((m.lists.filter (·.1 != id)).map (·.1)).Nodup :=
  m.distinct.sublist (List.filter_sublist.map _)

/-- Takes the list of a hop away. -/
def erase (m : Memo) (id : HopId) : Memo := ⟨m.lists.filter (·.1 != id), m.nodup_erase id⟩

theorem nodup_put (m : Memo) (id : HopId) (l : List MemoEntry) :
    (((m.erase id).lists ++ [(id, l)]).map (·.1)).Nodup := by
  rw [List.map_append, List.nodup_append]
  refine ⟨(m.erase id).distinct, by simp, fun x hx y hy => ?_⟩
  obtain ⟨row, hrow, rfl⟩ := List.mem_map.1 hx
  obtain rfl : y = id := by simpa using hy
  simpa using (List.mem_filter.1 hrow).2

/-- Gives a hop a list, in place of the one that it has. -/
def put (m : Memo) (id : HopId) (l : List MemoEntry) : Memo :=
  ⟨(m.erase id).lists ++ [(id, l)], m.nodup_put id l⟩

/-- The entries of a template at a hop, oldest first. -/
def entriesOf (m : Memo) (id : HopId) (t : Template) : List MemoEntry :=
  (m.entries id).filter (·.template = t)

/-- Adds an entry at a hop unless it is there already. -/
def add (m : Memo) (id : HopId) (e : MemoEntry) : Memo :=
  let present := m.entries id
  m.put id (if e ∈ present then present else present ++ [e])

/-- Drops the entries of a template at a hop, and its list if none are left. -/
def remove (m : Memo) (id : HopId) (t : Template) : Memo :=
  match m.list? id with
  | none => m
  | some present =>
    let kept := present.filter (·.template ≠ t)
    if kept.isEmpty then m.erase id else m.put id kept

/-- Closes the entries of a template at a hop. -/
def close (m : Memo) (id : HopId) (t : Template) : Memo :=
  match m.list? id with
  | none => m
  | some present => m.put id (present.map fun e => if e.template = t then e.close else e)

/-- The template matches at the hop. -/
def contains (m : Memo) (id : HopId) (t : Template) : Bool :=
  (m.entries id).any (·.template = t)

/-- The template matches at the hop with a region that may still grow. -/
def hasOpen (m : Memo) (id : HopId) (t : Template) : Bool :=
  (m.entries id).any fun e => e.template = t && !e.closed

/-- The entry that takes in the most inputs; of several, the oldest. -/
def best? (m : Memo) (id : HopId) (t : Template) : Option MemoEntry :=
  (m.entriesOf id t).foldl (fun best e =>
    match best with
    | some b => if e.refCount ≤ b.refCount then some b else some e
    | none => some e) none

end Memo

end OpFusion
