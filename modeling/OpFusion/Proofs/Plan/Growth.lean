import OpFusion.Proofs.Graph.Growth
import OpFusion.Proofs.InputOrder
import OpFusion.Proofs.Plan.Run

/-!
# Planning in a growing graph

Planning asks a graph about the hops of a region and about what they read, and never about parents.
So each of its questions has the same answer in a graph and in one that it grows into, as long as it
is about a hop of the smaller one: what is lowered first, what a hop becomes, and how a region is
laid out (`Template.plan_grown`).
-/

namespace OpFusion

open Kernel

theorem PlanError.ofGraph_map {α β : Type} {f : α → β} {x : Except GraphError α} :
    PlanError.ofGraph (x.map f) = (PlanError.ofGraph x).map f := by
  cases x <;> rfl

theorem findSome?_congr {α β : Type} {l : List α} {f f' : α → Option β} (h : ∀ a ∈ l, f a = f' a) :
    l.findSome? f = l.findSome? f' := by
  rw [← List.head?_filterMap, ← List.head?_filterMap, List.filterMap_congr h]

variable {g g' : Graph} {t : Template} {config : Config} {d : Draft} {h : Hop} {id : HopId}
  {i : Nat} (grows : g.GrowsTo g') (wf : g.WellFormed)

include grows wf

/-! ## Lowering a hop -/

theorem Graph.GrowsTo.hop_eq (hid : id < g.size) : g'.hop id = (g.hop id).map g'.regrown := by
  obtain ⟨h, hh⟩ := Graph.exists_hop?_iff.2 hid
  rw [Graph.hop_eq_ok_iff.2 hh, Graph.hop_eq_ok_iff.2 (grows.hop?_of_hop? wf hh)]
  rfl

theorem Graph.GrowsTo.paramInput_eq (hid : id < g.size) {name : String} :
    g'.paramInput id name = g.paramInput id name := by
  unfold Graph.paramInput
  rw [grows.hop_eq wf hid, map_bind]
  rfl

namespace Draft

theorem operandHop_grown (hh : g.hop? h.id = some h) :
    operandHop g' h i = (operandHop g h i).map g'.regrown := by
  unfold operandHop
  cases hx : h.input? i with
  | none => rfl
  | some x =>
    have hlt : x < g.size := wf.input?_lt_size hh hx
    show PlanError.ofGraph (g'.hop x) = _
    rw [grows.hop_eq wf hlt, PlanError.ofGraph_map]

theorem belowTransposes_grown (hid : h.id < g.size) {positions : List Nat} :
    belowTransposes g' h positions = belowTransposes g h positions := by
  refine List.filterMap_congr fun i _ => ?_
  rw [grows.input?_eq wf hid]
  cases g.input? h.id i <;> rfl

theorem factor_grown (hh : g.hop? h.id = some h) : factor g' d h i = factor g d h i := by
  simp only [factor, operandHop_grown grows wf hh, map_bind]
  rfl

end Draft

/-- A hop becomes the same, since planning reads off its operands everything but their parents. -/
theorem OuterProduct.fragment_grown (hh : g.hop? h.id = some h) :
    OuterProduct.fragment g' d (g'.regrown h) = OuterProduct.fragment g d h := by
  show OuterProduct.fragment g' d h = _
  simp only [OuterProduct.fragment, Draft.factor_grown grows wf hh,
    grows.isOuterProductLike_eq wf (Graph.lt_size_of_hop? hh)]

theorem RowAgg.fragment_grown (hh : g.hop? h.id = some h) :
    RowAgg.fragment g' d (g'.regrown h) = RowAgg.fragment g d h := by
  have hid := Graph.lt_size_of_hop? hh
  show RowAgg.fragment g' d h = _
  -- A replacement looks its target up by name, so the target has to be known as an input first.
  by_cases hreplace : ∃ params, h.kind = .builtin .replace params
  · obtain ⟨params, hkind⟩ := hreplace
    simp only [RowAgg.fragment, hkind, grows.paramInput_eq wf hid]
    refine bind_congr_ok fun target htarget => ?_
    obtain ⟨i, hi⟩ := Graph.exists_input?_of_paramInput hh (PlanError.ofGraph_eq_ok_iff.1 htarget)
    have hlt : target < g.size := wf.input?_lt_size hh hi
    simp only [grows.hop_eq wf hlt, PlanError.ofGraph_map, map_bind]
    rfl
  · simp only [RowAgg.fragment, Draft.factor_grown grows wf hh, Draft.operandHop_grown grows wf hh,
      map_bind]
    cases hkind : h.kind with
    | builtin op params =>
      cases op with
      | replace => exact absurd ⟨params, hkind⟩ hreplace
      | removeEmpty => rfl
    | aggUnary op direction => cases op <;> cases direction <;> rfl
    | _ => rfl

theorem Template.absorbed_grown (hh : g.hop? h.id = some h) :
    t.absorbed g' (g'.regrown h) = t.absorbed g h := by
  have hid := Graph.lt_size_of_hop? hh
  cases t with
  | outerProduct =>
    show (if h.isMatmul then Draft.belowTransposes g' h [0, 1] else []) = _
    rw [Draft.belowTransposes_grown grows wf hid]
    rfl
  | rowAgg =>
    show (if h.isMatmul then Draft.belowTransposes g' h [0] else []) = _
    rw [Draft.belowTransposes_grown grows wf hid]
    rfl

theorem Template.fragment_grown (hh : g.hop? h.id = some h) :
    t.fragment g' d (g'.regrown h) = t.fragment g d h := by
  cases t with
  | outerProduct => exact OuterProduct.fragment_grown grows wf hh
  | rowAgg => exact RowAgg.fragment_grown grows wf hh

namespace Draft

theorem bindBoundary_grown (hid : id < g.size) :
    bindBoundary g' config d id = bindBoundary g config d id := by
  unfold bindBoundary
  rw [grows.hop_eq wf hid, PlanError.ofGraph_map]
  cases d.node? id with
  | some n => rfl
  | none => exact map_bind

theorem lower_grown (hh : g.hop? h.id = some h) :
    lower t g' config d (g'.regrown h) = lower t g config d h := by
  have bind : (t.absorbed g h).foldlM (bindBoundary g' config) d =
      (t.absorbed g h).foldlM (bindBoundary g config) d :=
    foldlM_congr (fun _ hx _ => bindBoundary_grown grows wf
      (Nat.lt_trans (absorbed_lt wf hh hx) (Graph.lt_size_of_hop? hh))) d
  unfold lower
  rw [Template.absorbed_grown grows wf hh, bind]
  simp only [Template.fragment_grown grows wf hh]
  rfl

end Draft

/-! ## Laying out a plan -/

namespace OuterProduct

theorem mainOf?_grown (hid : id < g.size) : mainOf? g' id = mainOf? g id := by
  unfold mainOf?
  rw [grows.binaryOperands?_eq wf hid]
  cases hoperands : g.binaryOperands? id with
  | none => rfl
  | some operands =>
    obtain ⟨a, b⟩ := operands
    obtain ⟨h, op, hh, _, ha, hb⟩ := Graph.binaryOperands?_eq_some_iff.1 hoperands
    have below {x : Hop} {i : Nat} (hx : g.input? id i = some x) : x.id < g.size :=
      Nat.lt_trans (wf.input_lt hh _ (wf.id_mem_inputs hh hx)) hid
    have found : ([g'.regrown a, g'.regrown b].find? (·.isData)).map (·.id) =
        ([a, b].find? (·.isData)).map (·.id) := by
      rw [show [g'.regrown a, g'.regrown b] = [a, b].map g'.regrown from rfl, List.find?_map,
        Option.map_map]
      rfl
    show (if g'.isEqualSize a.id b.id then _ else _) = _
    rw [found, grows.isEqualSize_eq wf (below ha) (below hb)]
    rfl

theorem factorsOf?_grown (hid : id < g.size) : factorsOf? g' id = factorsOf? g id := by
  unfold factorsOf?
  rw [grows.isOuterProductLike_eq wf hid, grows.input?_eq wf hid, grows.input?_eq wf hid]
  cases g.input? id 0 <;> cases g.input? id 1 <;> rfl

theorem isUpToTranspose_grown {target : HopId} (hid : id < g.size) :
    isUpToTranspose g' target id = isUpToTranspose g target id := by
  unfold isUpToTranspose
  rw [grows.any_hop?_eq wf hid fun _ => rfl]

theorem alignment?_grown (hh : g.hop? id = some h) {left right : HopId} :
    alignment? g' (g'.regrown h) left right = alignment? g h left right := by
  have factor (i : Nat) (target : HopId) : (h.input? i).any (isUpToTranspose g' target) =
      (h.input? i).any (isUpToTranspose g target) :=
    Option.any_congr fun _ hx => isUpToTranspose_grown grows wf (wf.input?_lt_size hh hx)
  show alignment? g' h left right = _
  unfold alignment?
  rw [factor, factor]
  refine if_congr .rfl rfl (if_congr .rfl rfl (if_congr .rfl rfl ?_))
  split
  · rename_i ha hb
    rw [grows.isEqualSize_eq wf (wf.input?_lt_size hh ha) (wf.input?_lt_size hh hb)]
  · rfl

end OuterProduct

theorem RowAgg.mainOf?_grown (hid : id < g.size) : RowAgg.mainOf? g' id = RowAgg.mainOf? g id := by
  unfold RowAgg.mainOf?
  rw [grows.hop?_eq wf hid, grows.input?_eq wf hid, grows.input?_eq wf hid]
  cases g.hop? id with
  | none => rfl
  | some h => cases g.input? id 0 <;> cases g.input? id 1 <;> rfl

theorem Graph.GrowsTo.inputPriority_eq {main : Option HopId} (hid : id < g.size) :
    g'.inputPriority main id = g.inputPriority main id := by
  unfold Graph.inputPriority
  rw [grows.hop?_eq wf hid]
  cases g.hop? id <;> rfl

/-- Inputs that the smaller graph has are ordered as there. -/
theorem Graph.GrowsTo.orderByPriority_eq {main : Option HopId} {l : List HopId}
    (hl : ∀ x ∈ l, x < g.size) : g'.orderByPriority main l = g.orderByPriority main l := by
  have sorted := List.map_insertionSort (g'.Outranks main) (g.Outranks main) (fun x => x) l
    fun x hx y hy => by
      rw [Graph.Outranks, Graph.Outranks, grows.inputPriority_eq wf (hl x hx),
        grows.inputPriority_eq wf (hl y hy)]
  rw [Graph.orderByPriority_eq_insertionSort, Graph.orderByPriority_eq_insertionSort]
  simpa using sorted

/-! ## Plans -/

/-- A region that was lowered in the smaller graph is laid out as there. -/
theorem OuterProduct.plan_grown {root : HopId} (hh : g.hop? root = some h)
    (hlowered : ∀ x ∈ d.lowered, x < g.size) :
    OuterProduct.plan g' d root = OuterProduct.plan g d root := by
  have factors : d.lowered.reverse.findSome? (factorsOf? g') =
      d.lowered.reverse.findSome? (factorsOf? g) :=
    findSome?_congr fun x hx => factorsOf?_grown grows wf (hlowered x (List.mem_reverse.1 hx))
  have main : d.lowered.reverse.findSome? (mainOf? g') =
      d.lowered.reverse.findSome? (mainOf? g) :=
    findSome?_congr fun x hx => mainOf?_grown grows wf (hlowered x (List.mem_reverse.1 hx))
  obtain rfl := wf.id_eq hh
  simp only [OuterProduct.plan, factors, main, grows.hop_eq wf (Graph.lt_size_of_hop? hh),
    Graph.hop_eq_ok_iff.2 hh, PlanError.ofGraph_map, map_bind]
  simp only [PlanError.ofGraph, ok_bind, alignment?_grown grows wf hh]
  rfl

theorem RowAgg.plan_grown {root : HopId} (hlowered : ∀ x ∈ d.lowered, x < g.size)
    (hboundary : ∀ x ∈ d.boundary, x < g.size) :
    RowAgg.plan g' d root = RowAgg.plan g d root := by
  have main : d.lowered.reverse.findSome? (mainOf? g') =
      d.lowered.reverse.findSome? (mainOf? g) :=
    findSome?_congr fun x hx => mainOf?_grown grows wf (hlowered x (List.mem_reverse.1 hx))
  simp only [RowAgg.plan, main, grows.orderByPriority_eq wf hboundary]

theorem Template.plan_grown {root : HopId} (hh : g.hop? root = some h)
    (hlowered : ∀ x ∈ d.lowered, x < g.size) (hboundary : ∀ x ∈ d.boundary, x < g.size) :
    t.plan g' d root = t.plan g d root := by
  cases t with
  | outerProduct => exact OuterProduct.plan_grown grows wf hh hlowered
  | rowAgg => exact RowAgg.plan_grown grows wf hlowered hboundary

end OpFusion
