import OpFusion.Graph.Order
import OpFusion.Proofs.Dag.Outline
import OpFusion.Proofs.Graph.WellFormed

/-!
# The outline of a hop

The text below a hop has one line for each item of its outline. In a graph that was built, each hop
that is reached is written out once, where a depth-first walk over the inputs comes to it first, and
wherever else it is read a line refers to it; a hop that the graph does not have makes one line
(`tree_shows_hops`).
-/

namespace OpFusion.Graph

variable {g : Graph} {root : HopId} {item : Dag.Item}

/-- What stands in the outline of a known hop is known. -/
theorem WellFormed.exists_hop?_of_mem_outline (wf : g.WellFormed) (hroot : root < g.size)
    (hitem : item ∈ g.outline root) : ∃ h, g.hop? item.id = some h := by
  have isOutline := (Dag.isOutline_outline (wf.descending.descendingFrom root)).1
  have reached : Dag.Reaches g.inputs root item.id :=
    Dag.reaches_of_nodeAt? (isOutline.located hitem)
  exact exists_hop?_iff.2 (Nat.lt_of_le_of_lt (reached.le wf.descending) hroot)

theorem label_eq {h : Hop} (hh : g.hop? item.id = some h) :
    g.label item =
      if item.isReference then "[" ++ HopId.text item.id ++ "] → (see above)" else h.text := by
  rw [label, hh]

/-- Nothing is read by a hop that is not there, so its outline is one item. -/
theorem outline_of_unknown (unknown : g.hop? root = none) :
    g.outline root = [⟨⟨root, []⟩, 0, false⟩] := by
  have inputs : g.inputs root = [] := by rw [Graph.inputs, unknown]
  simp [outline, Dag.outline, Dag.outlineBelow, Dag.Sheet.item, Dag.Sheet.write, Dag.Sheet.empty,
    Dag.Item.below, inputs]

/-- In a graph that was built, the text below a known hop shows each hop that it reaches in full
exactly once, at its first occurrence, and has a line that refers to it for every other. A hop that
is unknown is named as such, and that is all. -/
theorem tree_shows_hops (built : g.IsBuilt) (root : HopId) :
    (g.contains root = true →
      Dag.IsOutline g.inputs root (g.outline root) ∧
        g.tree root = Dag.renderOutline g.label (g.outline root) ∧
        ∀ item ∈ g.outline root, ∃ h, g.hop? item.id = some h ∧ g.label item =
          if item.isReference then "[" ++ HopId.text item.id ++ "] → (see above)" else h.text) ∧
      (g.contains root = false →
        g.outline root = [⟨⟨root, []⟩, 0, false⟩] ∧
          g.tree root = "[" ++ HopId.text root ++ "] <unknown>\n") := by
  have wf := built.wellFormed
  constructor
  · intro known
    have hroot : root < g.size := exists_hop?_iff.1 (contains_iff.1 known)
    refine ⟨(Dag.isOutline_outline (wf.descending.descendingFrom root)).1, rfl,
      fun item hitem => ?_⟩
    obtain ⟨h, hh⟩ := wf.exists_hop?_of_mem_outline hroot hitem
    exact ⟨h, hh, label_eq hh⟩
  · intro missing
    have unknown : g.hop? root = none := by
      rw [Option.eq_none_iff_forall_not_mem]
      intro h hh
      exact Bool.noConfusion (missing.symm.trans (contains_iff.2 ⟨h, hh⟩))
    have outline := outline_of_unknown unknown
    refine ⟨outline, ?_⟩
    rw [tree, outline]
    simp [Dag.renderOutline, Dag.Item.branches, label, unknown, String.append_assoc]

/-- A graph in which one hop reads another twice, and a matrix is read at two depths. -/
def readTwice : Graph :=
  Graph.empty.build [.data "X" 10 10, .unary .exp 0, .binary .plus 1 1, .binary .mult 2 0]

theorem tree_shows_hops_readTwice :
    readTwice.contains 3 = true ∧ readTwice.contains 9 = false ∧
      Dag.IsOutline readTwice.inputs 3 (readTwice.outline 3) ∧
      (readTwice.outline 3).length = 1 + 5 ∧
      readTwice.tree 3 = "[h3] b(MULT) : Matrix 10x10\n├─ [h2] b(PLUS) : Matrix 10x10\n" ++
        "│  ├─ [h1] u(EXP) : Matrix 10x10\n│  │  └─ [h0] DATA(X) : Matrix 10x10\n" ++
        "│  └─ [h1] → (see above)\n└─ [h0] → (see above)\n" ∧
      readTwice.outline 9 = [⟨⟨9, []⟩, 0, false⟩] ∧ readTwice.tree 9 = "[h9] <unknown>\n" := by
  have known : readTwice.contains 3 = true := by decide
  have missing : readTwice.contains 9 = false := by decide
  have built : readTwice.IsBuilt := ⟨_, rfl⟩
  obtain ⟨isOutline, _, _⟩ := (tree_shows_hops built 3).1 known
  obtain ⟨single, text⟩ := (tree_shows_hops built 9).2 missing
  exact ⟨known, missing, isOutline, by decide, by decide +kernel, single, text⟩

end OpFusion.Graph
