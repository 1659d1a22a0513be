import OpFusion.Proofs.Plan.Fragments

/-!
# What a kernel reaches

Lowering puts the nodes of a kernel behind those that the table held before, and every fragment is
built on nodes of the same kernel (`within_leaves`). So a draft stays `Laid`: its bindings name
nodes of the kernel, and these read nodes of the kernel only.
-/

namespace OpFusion

open Kernel

namespace Draft

variable {g : Graph} {config : Config} {d : Draft} {h : Hop} {base : Nat}
  {allowed : NodeOp → Bool} {id : HopId} {n : NodeId}

/-- The table is laid from `base` on and the bindings name nodes from there on. -/
structure Laid (base : Nat) (allowed : NodeOp → Bool) (d : Draft) : Prop where
  table : d.table.Laid base allowed
  nodes : ∀ b ∈ d.bindings, d.table.Within base b.node

theorem Laid.start (table : NodeTable) (allowed : NodeOp → Bool) :
    Laid table.size allowed ⟨table, []⟩ :=
  ⟨.start table allowed, by simp⟩

theorem Laid.mono {allowed' : NodeOp → Bool} (laid : d.Laid base allowed)
    (h : ∀ op, allowed op → allowed' op) : d.Laid base allowed' :=
  ⟨laid.table.mono h, laid.nodes⟩

theorem Laid.node (laid : d.Laid base allowed) (hn : d.node? id = some n) :
    d.table.Within base n := by
  obtain ⟨b, hb, _, rfl⟩ := exists_mem_of_node? hn
  exact laid.nodes b hb

/-- A hop from outside is read through its kernel input, or is a literal. -/
theorem boundaryNode_cases (config : Config) (h : Hop) :
    boundaryNode config h = .data h ∨ ∃ value, boundaryNode config h = .literal value := by
  unfold boundaryNode
  split
  · split
    · exact .inr ⟨_, rfl⟩
    · exact .inl rfl
  · exact .inl rfl

/-- Nothing lies below the node through which a hop from outside is read. -/
@[simp] theorem operands_boundaryNode : (boundaryNode config h).op.operands = [] := by
  rcases boundaryNode_cases config h with hnode | ⟨value, hnode⟩ <;> rw [hnode] <;> rfl

theorem Laid.bindOuter (laid : d.Laid base allowed) (hallowed : allowed (boundaryNode config h).op) :
    (d.bindOuter config h).Laid base allowed := by
  refine ⟨laid.table.push (by simp) hallowed, ?_⟩
  intro b hb
  rcases List.mem_append.1 hb with hb | hb
  · exact (laid.nodes b hb).keeps NodeTable.keeps_push
  · rw [List.mem_singleton.1 hb]
    exact laid.table.within_push

theorem Laid.bindLowered {f : Fragment} (laid : d.Laid base allowed) (hadmits : f.Admits allowed)
    (hleaves : ∀ a ∈ f.leaves, d.table.Within base a) : (d.bindLowered h f).Laid base allowed := by
  obtain ⟨emitted, htop⟩ := laid.table.emit hadmits hleaves
  obtain ⟨fitted, hfitted⟩ := emitted.fitTo htop (h := h)
  refine ⟨fitted, ?_⟩
  intro b hb
  rcases List.mem_append.1 hb with hb | hb
  · exact ((laid.nodes b hb).keeps (NodeTable.keeps_emit f _)).keeps NodeTable.keeps_fitTo
  · rw [List.mem_singleton.1 hb]
    exact hfitted

/-- The node that a multiply reads is bound to a hop. -/
theorem exists_of_factor {i : Nat} (hcall : factor g d h i = .ok n) : ∃ x, d.node? x = some n := by
  unfold factor at hcall
  obtain ⟨hx, _, hcall⟩ := bind_eq_ok_iff.1 hcall
  split at hcall
  · exact ⟨_, node_eq_ok_iff.1 hcall⟩
  · obtain ⟨x, _, hx⟩ := operand_eq_ok_iff.1 hcall
    exact ⟨x, hx⟩

theorem exists_of_operand {i : Nat} (hcall : d.operand h i = .ok n) : ∃ x, d.node? x = some n := by
  obtain ⟨x, _, hx⟩ := operand_eq_ok_iff.1 hcall
  exact ⟨x, hx⟩

end Draft

/-! ## The fragments of the row template -/

namespace RowAgg

variable {t : NodeTable} {a : NodeId}

@[simp] theorem leaves_readColumn : (readColumn t a).leaves = [a] := by
  unfold readColumn
  split <;> rfl

@[simp] theorem leaves_readCell {h : Hop} : (readCell t a h).leaves = [a] := by
  unfold readCell
  split
  · rfl
  · split <;> rfl

@[simp] theorem leaves_readUnlessScalar {lookup : UnaryPrim} :
    (readUnlessScalar t lookup a).leaves = [a] := by
  unfold readUnlessScalar
  split <;> rfl

variable {g : Graph} {d : Draft} {h : Hop} {f : Fragment} {base : Nat} {allowed : NodeOp → Bool}

/-- A column sum reads what its operand reads, or the operand itself. -/
theorem within_leaves_sumColumns (laid : d.table.Laid base allowed) (ha : d.table.Within base a)
    {x : NodeId} (hx : x ∈ (sumColumns d.table a).leaves) : d.table.Within base x := by
  unfold sumColumns at hx
  split at hx
  · rename_i op row cell dataType shape hn
    have hoperands := laid.operands ha.1 hn
    have within {c : NodeId} (hc : c = row ∨ c = cell) : d.table.Within base c := by
      obtain ⟨hbase, hlt⟩ := hoperands c (by simpa [NodeOp.operands] using hc)
      exact ⟨hbase, Nat.lt_trans hlt ha.2⟩
    exact within (by simpa [Fragment.leaves] using hx)
  · rw [List.mem_singleton.1 hx]
    exact ha

/-- What a hop is lowered to is built on nodes of the kernel. -/
theorem within_leaves (laid : d.Laid base allowed) (hf : fragment g d h = .ok f) :
    ∀ x ∈ f.leaves, d.table.Within base x := by
  have operand {i : Nat} {n : NodeId} (hn : d.operand h i = .ok n) : d.table.Within base n := by
    obtain ⟨x, hx⟩ := Draft.exists_of_operand hn
    exact laid.node hx
  have factor {i : Nat} {n : NodeId} (hn : d.factor g h i = .ok n) : d.table.Within base n := by
    obtain ⟨x, hx⟩ := Draft.exists_of_factor hn
    exact laid.node hx
  cases becomes_of_fragment hf with
  | rowSumOfColumn _ ha => simpa using operand ha
  | rowSum _ ha => simpa [Fragment.leaves] using operand ha
  | columnSum _ ha => exact fun x hx => within_leaves_sumColumns laid.table (operand ha) hx
  | addedRows _ _ _ ha hb => simpa [Fragment.leaves] using ⟨factor ha, operand hb⟩
  | productOfCells _ ha hb => simpa [Fragment.leaves] using ⟨factor ha, operand hb⟩
  | dotProduct _ ha hb => simpa [Fragment.leaves] using ⟨factor ha, operand hb⟩
  | unary _ _ _ ha => simpa [Fragment.leaves] using operand ha
  | rowAndCell _ _ _ _ ha hb => simpa [Fragment.leaves] using ⟨operand ha, operand hb⟩
  | cells _ _ ha hb => simpa [Fragment.leaves] using ⟨operand ha, operand hb⟩
  | ternary _ _ ha hb hc =>
    simpa [Fragment.leaves] using ⟨operand ha, operand hb, operand hc⟩
  | replace _ _ ha hb hc =>
    have bound {x : HopId} {n : NodeId} (hn : d.node x = .ok n) : d.table.Within base n :=
      laid.node (Draft.node_eq_ok_iff.1 hn)
    simpa [Fragment.leaves] using ⟨bound ha, bound hb, bound hc⟩
  | cellOfLiteral _ ha => simpa [Fragment.leaves] using operand ha
  | cellOfNode _ ha hupper => simpa [Fragment.leaves] using ⟨operand ha, operand hupper⟩

end RowAgg

/-! ## The fragments of the outer-product template -/

namespace OuterProduct

@[simp] theorem leaves_readVector {t : NodeTable} {a : NodeId} : (readVector t a).leaves = [a] := by
  unfold readVector
  split <;> rfl

variable {g : Graph} {d : Draft} {h : Hop} {f : Fragment} {base : Nat} {allowed : NodeOp → Bool}

theorem within_leaves (laid : d.Laid base allowed) (hf : fragment g d h = .ok f) :
    ∀ x ∈ f.leaves, d.table.Within base x := by
  have operand {i : Nat} {n : NodeId} (hn : d.operand h i = .ok n) : d.table.Within base n := by
    obtain ⟨x, hx⟩ := Draft.exists_of_operand hn
    exact laid.node hx
  have factor {i : Nat} {n : NodeId} (hn : d.factor g h i = .ok n) : d.table.Within base n := by
    obtain ⟨x, hx⟩ := Draft.exists_of_factor hn
    exact laid.node hx
  cases becomes_of_fragment hf with
  | unary _ _ ha => simpa [Fragment.leaves] using operand ha
  | cells _ _ ha hb => simpa [Fragment.leaves] using ⟨operand ha, operand hb⟩
  | dotProduct _ _ ha hb => simpa [Fragment.leaves] using ⟨factor ha, factor hb⟩
  | addedRows _ ha hb => simpa [Fragment.leaves] using ⟨factor ha, factor hb⟩
  | passed _ ha => simpa [Fragment.leaves] using operand ha

end OuterProduct

theorem Template.within_leaves {t : Template} {g : Graph} {d : Draft} {h : Hop} {f : Fragment}
    {base : Nat} {allowed : NodeOp → Bool} (laid : d.Laid base allowed)
    (hf : t.fragment g d h = .ok f) : ∀ x ∈ f.leaves, d.table.Within base x := by
  cases t with
  | outerProduct => exact OuterProduct.within_leaves laid hf
  | rowAgg => exact RowAgg.within_leaves laid hf

/-! ## Runs -/

namespace Draft

variable {t : Template} {g : Graph} {memo : Memo} {config : Config} {d d' : Draft} {root : HopId}
  {h : Hop} {e : MemoEntry} {f : Fragment} {base : Nat} {allowed : NodeOp → Bool}

/-- Lowering a hop adds no kernel input, so only other operations have to be allowed. -/
theorem Laid.ready (laid : d.Laid base allowed) (hrest : ∀ op, op.isData = false → allowed op)
    (ready : Ready t g memo d h e f) : (d.bindLowered h f).Laid base allowed :=
  laid.bindLowered (f.admits_of_isData hrest) (Template.within_leaves laid ready.fragment)

/-- The nodes of a lowered region compute what is allowed, if the nodes that read hops from outside
and all operations but kernel inputs are. -/
theorem laid_of_ofRegion (wf : g.WellFormed) {table : NodeTable}
    (hrest : ∀ op, op.isData = false → allowed op)
    (houter : ∀ h, g.hop? h.id = some h → allowed (boundaryNode config h).op)
    (hd : ofRegion t g memo config table root = .ok d) : d.Laid table.size allowed := by
  obtain ⟨h, e, d₁, f, _, run, ready, rfl⟩ := ofRegion_cases wf hd
  have step {d d' : Draft} (step : Step t g memo config root d d') (laid : d.Laid table.size allowed) :
      d'.Laid table.size allowed := by
    cases step with
    | outer hh => exact laid.bindOuter (houter _ hh)
    | inner ready => exact laid.ready hrest ready
  exact (run.preserves step (.start table allowed)).ready hrest ready

end Draft

end OpFusion
