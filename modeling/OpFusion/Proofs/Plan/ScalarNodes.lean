import OpFusion.Proofs.Graph.Extents
import OpFusion.Proofs.Plan.ProductInputs
import OpFusion.Proofs.Plan.RowInputs

/-!
# Scalars have no extents

In a typed graph every scalar has the shape of a scalar, and so has every scalar node of a kernel
made for the graph. Each way of making a node keeps this (`NodeTable.Suited.emit`): a kernel input
takes type and shape from its hop and a unary primitive takes both from its operand or gives a
scalar; all others settle the type together with the shape; and extents are overwritten where both
the node and the hop are matrices.
-/

namespace OpFusion

open Kernel

namespace Shape

/-- The shape may be that of a value of the type: a scalar has no extents. -/
def Suits (s : Shape) (type : DataType) : Prop := type = .scalar → s = .scalar

theorem suits_matrix {s : Shape} : s.Suits .matrix := fun h => DataType.noConfusion h

theorem suits_scalar {type : DataType} : scalar.Suits type := fun _ => rfl

/-- No predicate on vectors or matrices holds of the shape, which is that of a scalar. -/
structure IsExtentless (s : Shape) : Prop where
  eq_scalar : s = .scalar
  not_genuineMatrix : s.isGenuineMatrix = false
  not_colVector : s.isColVector = false
  not_rowVector : s.isRowVector = false
  not_vector : s.isVector = false

theorem isExtentless_scalar : scalar.IsExtentless := ⟨rfl, rfl, rfl, rfl, rfl⟩

end Shape

/-! ## Nodes -/

namespace Kernel.NodeTable

variable {t : NodeTable} {n : Node} {base : Nat} {id a b c : NodeId} {h : Hop}
  {allowed : NodeOp → Bool}

/-- From `base` on, the scalars among the nodes have no extents. -/
def Suited (base : Nat) (t : NodeTable) : Prop :=
  ∀ ⦃id n⦄, base ≤ id → t.node? id = some n → n.shape.Suits n.dataType

theorem suited_start (t : NodeTable) : t.Suited t.size := by
  intro id n hid hn
  exact absurd (lt_size_of_node? hn) (Nat.not_lt.2 hid)

theorem Suited.push (suited : t.Suited base) (hn : n.shape.Suits n.dataType) :
    (t.push n).1.Suited base := by
  intro id m hid hm
  rw [node?_push] at hm
  split at hm
  · obtain rfl := Option.some.inj hm
    exact hn
  · exact suited hid hm

theorem suits_cellwise {op : NodeOp} : (t.cellwise op).shape.Suits (t.cellwise op).dataType := by
  unfold cellwise
  split
  · exact Shape.suits_matrix
  · exact Shape.suits_scalar

/-- A unary primitive gives a scalar, or what its operand is. -/
theorem Suited.suits_unary (suited : t.Suited base) (ha : base ≤ a) {prim : UnaryPrim} :
    (t.unary prim a).shape.Suits (t.unary prim a).dataType := by
  unfold unary
  split
  · rename_i n hn
    have hsuits : n.shape.Suits n.dataType := suited ha hn
    split
    · exact Shape.suits_scalar
    · exact hsuits
  · exact Shape.suits_scalar

theorem suits_binary {prim : BinaryPrim} :
    (t.binary prim a b).shape.Suits (t.binary prim a b).dataType := by
  cases prim with
  | dotProduct => exact Shape.suits_scalar
  | rowAdd | rowScalar => exact Shape.suits_matrix
  | cell => exact suits_cellwise

theorem suits_ternary {prim : TernaryPrim} :
    (t.ternary prim a b c).shape.Suits (t.ternary prim a b c).dataType := by
  unfold ternary
  split
  · exact Shape.suits_scalar
  · exact suits_cellwise

/-- Emitting a fragment over suited nodes gives suited nodes, with its top among them. -/
theorem Suited.emit {f : Fragment} : ∀ {t : NodeTable}, t.Suited base → base ≤ t.size →
    (∀ a ∈ f.leaves, base ≤ a) → (t.emit f).1.Suited base ∧ base ≤ (t.emit f).2 := by
  induction f with
  | node id =>
    intro t suited _ hleaves
    exact ⟨suited, hleaves id List.mem_cons_self⟩
  | literal value =>
    intro t suited hbase _
    exact ⟨suited.push Shape.suits_scalar, hbase⟩
  | unary prim a iha =>
    intro t suited hbase hleaves
    have hbaseA := Nat.le_trans hbase (keeps_emit a t).size_le
    obtain ⟨suitedA, hA⟩ := iha suited hbase hleaves
    exact ⟨suitedA.push (suitedA.suits_unary hA), hbaseA⟩
  | binary prim a b iha ihb =>
    intro t suited hbase hleaves
    have hbaseA := Nat.le_trans hbase (keeps_emit a t).size_le
    have hbaseB := Nat.le_trans hbaseA (keeps_emit b _).size_le
    obtain ⟨suitedA, _⟩ := iha suited hbase fun x hx => hleaves x (List.mem_append_left _ hx)
    obtain ⟨suitedB, _⟩ := ihb suitedA hbaseA fun x hx => hleaves x (List.mem_append_right _ hx)
    exact ⟨suitedB.push suits_binary, hbaseB⟩
  | ternary prim a b c iha ihb ihc =>
    intro t suited hbase hleaves
    have leaf {x : NodeId} (hx : x ∈ a.leaves ∨ x ∈ b.leaves ∨ x ∈ c.leaves) : base ≤ x :=
      hleaves x (by simpa [Fragment.leaves] using hx)
    have hbaseA := Nat.le_trans hbase (keeps_emit a t).size_le
    have hbaseB := Nat.le_trans hbaseA (keeps_emit b _).size_le
    have hbaseC := Nat.le_trans hbaseB (keeps_emit c _).size_le
    obtain ⟨suitedA, _⟩ := iha suited hbase fun x hx => leaf (.inl hx)
    obtain ⟨suitedB, _⟩ := ihb suitedA hbaseA fun x hx => leaf (.inr (.inl hx))
    obtain ⟨suitedC, _⟩ := ihc suitedB hbaseB fun x hx => leaf (.inr (.inr hx))
    exact ⟨suitedC.push suits_ternary, hbaseC⟩

/-- Only a matrix takes over the extents of a hop. -/
theorem suits_reshaped {shape : Shape} (hn : n.isMatrix = true) :
    (n.reshaped shape).shape.Suits (n.reshaped shape).dataType := by
  rw [Node.reshaped, if_pos hn]
  intro htype
  rw [Node.isMatrix, decide_eq_true_eq] at hn
  exact DataType.noConfusion (hn.symm.trans htype)

theorem Suited.fitTo (suited : t.Suited base) : (t.fitTo h id).1.Suited base := by
  unfold NodeTable.fitTo
  split
  · split
    · rename_i hmatrices
      exact suited.push (suits_reshaped hmatrices.2.1)
    · exact suited
  · exact suited

end Kernel.NodeTable

/-! ## Plans -/

namespace Draft

variable {t : Template} {g : Graph} {memo : Memo} {config : Config} {d d' : Draft} {root : HopId}
  {h : Hop} {e : MemoEntry} {f : Fragment} {base : Nat} {table : NodeTable}

/-- The nodes of the kernel read nodes of the kernel, and the scalars among them have no extents. -/
structure Suited (base : Nat) (d : Draft) : Prop where
  laid : d.Laid base fun _ => true
  table : d.table.Suited base

theorem suits_boundaryNode (hh : h.shape.Suits h.dataType) :
    (boundaryNode config h).shape.Suits (boundaryNode config h).dataType := by
  rcases boundaryNode_cases config h with hnode | ⟨value, hnode⟩ <;> rw [hnode]
  · exact hh
  · exact Shape.suits_scalar

theorem Suited.bindOuter (suited : d.Suited base) (hh : h.shape.Suits h.dataType) :
    (d.bindOuter config h).Suited base :=
  ⟨suited.laid.bindOuter rfl, suited.table.push (suits_boundaryNode hh)⟩

theorem Suited.ready (suited : d.Suited base) (ready : Ready t g memo d h e f) :
    (d.bindLowered h f).Suited base := by
  have hleaves : ∀ a ∈ f.leaves, base ≤ a := fun a ha =>
    (Template.within_leaves suited.laid ready.fragment a ha).1
  have emitted := (suited.table.emit suited.laid.table.base_le hleaves).1
  exact ⟨suited.laid.ready (fun _ _ => rfl) ready, emitted.fitTo⟩

theorem suited_of_ofRegion (wf : g.WellFormed)
    (suits : ∀ {id : HopId} {h : Hop}, g.hop? id = some h → h.shape.Suits h.dataType)
    (hd : ofRegion t g memo config table root = .ok d) : d.Suited table.size := by
  obtain ⟨h, e, d₁, f, _, run, ready, rfl⟩ := ofRegion_cases wf hd
  have step {d d' : Draft} (step : Step t g memo config root d d')
      (suited : d.Suited table.size) : d'.Suited table.size := by
    cases step with
    | outer hh => exact suited.bindOuter (suits hh)
    | inner ready => exact suited.ready ready
  have start : Suited table.size ⟨table, []⟩ := ⟨.start table _, NodeTable.suited_start table⟩
  exact (run.preserves step start).ready ready

end Draft

namespace Plan

variable {t : Template} {g : Graph} {d : Draft} {root : HopId} {p : Plan} {n : NodeId}

theorem laidOver_of_plan (hplan : t.plan g d root = .ok p) : p.LaidOver d root := by
  cases t with
  | outerProduct =>
    obtain ⟨_, _, _, _, _, laidOver, _⟩ := OuterProduct.of_plan_eq_ok hplan
    exact laidOver
  | rowAgg => exact (RowAgg.of_plan_eq_ok hplan).1

/-- The output and the arguments are nodes of hops. -/
theorem LaidOver.exists_hop (laidOver : p.LaidOver d root) (hn : n ∈ p.output :: p.arguments) :
    ∃ x, d.node? x = some n := by
  rcases List.mem_cons.1 hn with rfl | hn
  · exact ⟨root, laidOver.output⟩
  · have hnodes := mapM_eq_ok_iff.1 laidOver.arguments
    obtain ⟨i, hi, rfl⟩ := List.mem_iff_getElem.1 hn
    have hi' : i < p.inputs.length := hnodes.length_eq ▸ hi
    exact ⟨p.inputs[i], Draft.node_eq_ok_iff.1 (hnodes.get hi' hi)⟩

end Plan

/-- In a typed graph every scalar has the shape of a scalar, and so has, whatever the memo, every
scalar node below the output and the arguments of a plan. So no scalar passes for a vector or for a
genuine matrix. -/
theorem Plan.scalars_extentless {g : Graph} (typed : g.IsTyped) :
    (∀ id h, g.hop? id = some h → h.isScalar = true → h.shape.IsExtentless) ∧
      ∀ t memo config table root plan, Plan.construct t g memo config table root = .ok plan →
        ∀ top ∈ plan.output :: plan.arguments, ∀ id, Dag.Reaches plan.table.operands top id →
          ∃ n, plan.table.node? id = some n ∧ (n.isScalar = true → n.shape.IsExtentless) := by
  constructor
  · intro id h hh hscalar
    rw [typed.shape_of_isScalar hh hscalar]
    exact Shape.isExtentless_scalar
  · intro t memo config table root plan hplan top htop id reached
    obtain ⟨d, hd, hplan⟩ := bind_eq_ok_iff.1 hplan
    have suited : d.Suited table.size :=
      Draft.suited_of_ofRegion typed.isBuilt.wellFormed
        (fun hh htype => typed.shape_of_isScalar hh (decide_eq_true htype)) hd
    have laidOver := laidOver_of_plan hplan
    obtain ⟨x, hx⟩ := laidOver.exists_hop htop
    rw [laidOver.table] at reached ⊢
    have hid : d.table.Within table.size id :=
      suited.laid.table.within_of_reaches (.refl _) (suited.laid.node hx) reached
    obtain ⟨n, hn⟩ := NodeTable.exists_node? hid.2
    refine ⟨n, hn, fun hscalar => ?_⟩
    rw [suited.table hid.1 hn (of_decide_eq_true hscalar)]
    exact Shape.isExtentless_scalar

/-- The rows of a matrix are scaled by a variable and summed. -/
def Plan.scaledByVariable : Graph :=
  Graph.empty.build [.data "X" 100 20, .scalar "s", .binary .mult 0 1, .rowSums 2]

/-- The plan for these sums. -/
def Plan.ofScaledByVariable : Plan :=
  (Plan.construct .rowAgg scaledByVariable (Memo.empty.explore scaledByVariable .default [3]).1
    .default .empty 3).toOption.getD ⟨[], .empty, [], 0, .rowAgg 0⟩

/-- Two nodes of the kernel are scalars: the input for the variable and the sum of a row, although
the sums are a matrix. -/
theorem Plan.scalars_extentless_scaledByVariable :
    (∃ h, scaledByVariable.hop? 1 = some h ∧ h.isScalar = true ∧ h.shape.IsExtentless) ∧
      Plan.construct .rowAgg scaledByVariable
          (Memo.empty.explore scaledByVariable .default [3]).1 .default .empty 3 =
        .ok ofScaledByVariable ∧
      (scaledByVariable.hop? 3).any (·.isMatrix) = true ∧
      ∃ n, ofScaledByVariable.table.node? ofScaledByVariable.output = some n ∧
        n.isScalar = true ∧ n.shape.IsExtentless := by
  have typed : scaledByVariable.IsTyped := ⟨_, by decide, rfl⟩
  have hplan : Plan.construct .rowAgg scaledByVariable
      (Memo.empty.explore scaledByVariable .default [3]).1 .default .empty 3 =
        .ok ofScaledByVariable := by decide +kernel
  obtain ⟨hops, nodes⟩ := scalars_extentless typed
  obtain ⟨n, hn, hshape⟩ := nodes _ _ _ _ _ _ hplan _ List.mem_cons_self _ .refl
  have hscalar : n.isScalar = true := by
    have hcheck : ofScaledByVariable.table.check (·.isScalar) ofScaledByVariable.output = true := by
      decide +kernel
    rwa [NodeTable.check, hn] at hcheck
  have hvariable : (scaledByVariable.hop? 1).any (·.isScalar) = true := by decide
  obtain ⟨h, hh, hh'⟩ := (Option.any_eq_true ..).1 hvariable
  exact ⟨⟨h, hh, hh', hops 1 h hh hh'⟩, hplan, by decide, n, hn, hscalar, hshape hscalar⟩

end OpFusion
