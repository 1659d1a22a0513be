import OpFusion.Proofs.InputOrder
import OpFusion.Proofs.Plan.Run
import OpFusion.Proofs.Region.Rules

/-!
# Laying out plans

What can become of a region once it has been lowered. A row region always has a plan. For an
outer-product region the main matrix and the factors have to be found among its hops, and the result
has to lie somewhere (`OuterProduct.plan_cases`).
-/

namespace OpFusion

open Kernel

theorem Draft.exists_mapM_node {d : Draft} {hops : List HopId} (hbound : ∀ x ∈ hops, d.Binds x) :
    ∃ nodes, hops.mapM d.node = .ok nodes := by
  induction hops with
  | nil => exact ⟨[], rfl⟩
  | cons x rest ih =>
    obtain ⟨n, hn⟩ := hbound x List.mem_cons_self
    obtain ⟨nodes, hnodes⟩ := ih fun y hy => hbound y (List.mem_cons_of_mem _ hy)
    exact ⟨n :: nodes, by rw [List.mapM_cons, node_eq_ok_iff.2 hn, hnodes]; rfl⟩

namespace RowAgg

/-- Once a row region is lowered, nothing keeps it from being laid out. -/
theorem exists_plan {g : Graph} {d : Draft} {root : HopId} (hroot : d.Binds root) :
    ∃ plan, RowAgg.plan g d root = .ok plan := by
  obtain ⟨output, houtput⟩ := hroot
  unfold RowAgg.plan
  rw [Draft.node_eq_ok_iff.2 houtput, ok_bind]
  have hbound : ∀ x ∈ (g.orderByPriority (d.lowered.reverse.findSome? (mainOf? g)) d.boundary).filter
      fun id => id ∈ d.table.hopsRead output, d.Binds x := by
    intro x hx
    exact Draft.binds_of_mem_boundary (Graph.orderByPriority_perm.mem_iff.1 (List.mem_filter.1 hx).1)
  obtain ⟨arguments, harguments⟩ := Draft.exists_mapM_node hbound
  exact ⟨_, by simp only [harguments, ok_bind]; rfl⟩

end RowAgg

namespace OuterProduct

variable {g : Graph} {d : Draft} {h : Hop} {id root main left right : HopId}

/-- The main matrix is an operand of the hop that designates it. -/
theorem mem_inputs_of_mainOf? (hh : g.hop? id = some h) (wf : g.WellFormed)
    (hmain : mainOf? g id = some main) : main ∈ h.inputs := by
  unfold mainOf? at hmain
  obtain ⟨⟨a, b⟩, hoperands, hmain⟩ := Option.bind_eq_some_iff.1 hmain
  obtain ⟨h', op, hh', _, ha, hb⟩ := Graph.binaryOperands?_eq_some_iff.1 hoperands
  obtain rfl : h = h' := Option.some.inj (hh.symm.trans hh')
  simp only at hmain
  split at hmain
  · obtain ⟨x, hx, rfl⟩ := Option.map_eq_some_iff.1 hmain
    have hmem := List.mem_of_find?_eq_some hx
    simp only [List.mem_cons, List.not_mem_nil, or_false] at hmem
    rcases hmem with rfl | rfl
    · exact wf.id_mem_inputs hh ha
    · exact wf.id_mem_inputs hh hb
  · simp at hmain

/-- The factors are the operands of a product of factors, the right one not transposed. -/
theorem factorsOf?_eq_some_iff :
    factorsOf? g id = some (left, right) ↔ g.isOuterProductLike id = true ∧
      ∃ x y, g.input? id 0 = some x ∧ g.input? id 1 = some y ∧ x.id = left ∧
        y.transposed?.getD y.id = right := by
  unfold factorsOf?
  cases hlike : g.isOuterProductLike id with
  | false => simp
  | true => simp [Option.bind_eq_some_iff]

theorem isOuterProductLike_of_factorsOf? (hfactors : factorsOf? g id = some (left, right)) :
    g.isOuterProductLike id = true := (factorsOf?_eq_some_iff.1 hfactors).1

/-- A product of factors designates them. -/
theorem exists_factorsOf? (hlike : g.isOuterProductLike id = true) :
    ∃ left right, factorsOf? g id = some (left, right) := by
  obtain ⟨x, y, hx, hy, _, _⟩ := Graph.operands_of_isOuterProductLike hlike
  exact ⟨_, _, factorsOf?_eq_some_iff.2 ⟨hlike, x, y, hx, hy, rfl, rfl⟩⟩

/-- The factors are operands of the product, or what is transposed there. -/
theorem mem_of_factorsOf? (hh : g.hop? h.id = some h) (wf : g.WellFormed)
    (hfactors : factorsOf? g h.id = some (left, right)) :
    left ∈ h.inputs ∧ (right ∈ h.inputs ∨ right ∈ absorbed g h) := by
  obtain ⟨hlike, x, y, hx, hy, rfl, rfl⟩ := factorsOf?_eq_some_iff.1 hfactors
  refine ⟨wf.id_mem_inputs hh hx, ?_⟩
  cases hinner : y.transposed? with
  | none => exact .inl (wf.id_mem_inputs hh hy)
  | some inner =>
    right
    rw [absorbed, if_pos (Graph.isMatmul_of_isOuterProductLike hh hlike), Draft.belowTransposes]
    exact List.mem_filterMap.2 ⟨1, by simp, by rw [hy, Option.bind_some, hinner]; rfl⟩

/-- What can become of an outer-product region that has been lowered and whose factors are known. -/
theorem plan_cases (hroot : d.Binds root) (hh : g.hop? root = some h)
    (hfactors : d.lowered.reverse.findSome? (factorsOf? g) = some (left, right))
    (hmain : ∀ x ∈ d.lowered, ∀ main, mainOf? g x = some main → d.Binds main)
    (hleft : d.Binds left) (hright : d.Binds right) :
    ((∀ x ∈ d.lowered, mainOf? g x = none) ∧
        OuterProduct.plan g d root = .error (.missingFactor .main)) ∨
      (∃ x ∈ d.lowered, ∃ main, mainOf? g x = some main) ∧
        (alignment? g h left right = none ∧
            OuterProduct.plan g d root = .error (.unsupported .outerProduct h) ∨
          (∃ alignment, alignment? g h left right = some alignment) ∧
            ∃ plan, OuterProduct.plan g d root = .ok plan) := by
  obtain ⟨output, houtput⟩ := hroot
  unfold OuterProduct.plan
  rw [Draft.node_eq_ok_iff.2 houtput, ok_bind]
  simp only [hfactors, Option.map_some, inRole]
  cases hfound : d.lowered.reverse.findSome? (mainOf? g) with
  | none =>
    left
    refine ⟨fun x hx => ?_, rfl⟩
    exact List.findSome?_eq_none_iff.1 hfound x (List.mem_reverse.2 hx)
  | some main =>
    right
    obtain ⟨x, hx, hmainx⟩ := List.exists_of_findSome?_eq_some hfound
    have hx := List.mem_reverse.1 hx
    refine ⟨⟨x, hx, main, hmainx⟩, ?_⟩
    -- Whatever the kernel is passed plays a part or lies on the boundary.
    have hbound : ∀ y ∈ (pinFirst [main, left, right] d.boundary).filter fun id =>
        id ∈ [main, left, right] ∨ id ∈ d.table.hopsRead output, d.Binds y := by
      intro y hy
      rcases List.mem_append.1 (List.mem_filter.1 hy).1 with hy | hy
      · simp only [List.mem_cons, List.not_mem_nil, or_false] at hy
        rcases hy with rfl | rfl | rfl
        · exact hmain x hx _ hmainx
        · exact hleft
        · exact hright
      · exact Draft.binds_of_mem_boundary (List.mem_filter.1 hy).1
    obtain ⟨arguments, harguments⟩ := Draft.exists_mapM_node hbound
    simp only [ok_bind, harguments, Graph.hop_eq_ok_iff.2 hh, PlanError.ofGraph]
    cases alignment? g h left right with
    | none => exact .inl ⟨rfl, rfl⟩
    | some alignment => exact .inr ⟨⟨alignment, rfl⟩, _, rfl⟩

/-- The result of a multiply lies nowhere exactly if neither factor is an operand of it. -/
theorem alignment?_eq_none_iff (hmatrix : h.isMatrix = true) (hkind : h.kind = .matmul) :
    alignment? g h left right = none ↔
      (h.input? 0).any (isUpToTranspose g left) = false ∧
        (h.input? 1).any (isUpToTranspose g right) = false := by
  have hscalar := Hop.not_isScalar_of_isMatrix hmatrix
  have htranspose : h.isTranspose = false := by simp [Hop.isTranspose, hkind]
  have hm : h.isMatmul = true := by simp [Hop.isMatmul, hkind]
  unfold alignment?
  simp only [hscalar, htranspose, hm, hkind, Bool.false_or, Bool.true_and]
  cases (h.input? 0).any (isUpToTranspose g left) with
  | true => simp
  | false =>
    cases (h.input? 1).any (isUpToTranspose g right) with
    | true => simp
    | false => simp

end OuterProduct

end OpFusion
