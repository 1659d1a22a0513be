import OpFusion.Proofs.Graph.Extents
import OpFusion.Proofs.Plan.Boundary

/-!
# Nodes that read literals

A hop may become the node of its operand, so a node can stand for several hops. The node of a literal
stands for that literal only (`Draft.Faithful`): whatever becomes the node of its operand has an
operand with rows or one from the region, and neither is a literal.
-/

namespace OpFusion

open Kernel

/-- The constant that a hop holds, if it is a literal. -/
def Graph.constant? (g : Graph) (id : HopId) : Option Literal := (g.hop? id).bind (·.literal?)

theorem Graph.constant?_of_hop? {g : Graph} {id : HopId} {h : Hop} (hh : g.hop? id = some h) :
    g.constant? id = h.literal? := by
  rw [constant?, hh, Option.bind_some]

/-- Only a fragment that adds nothing has a kernel input on top. -/
theorem Kernel.Fragment.exists_node_of_emit {f : Fragment} {t : NodeTable} {n : Node}
    (hn : (t.emit f).1.node? (t.emit f).2 = some n) (hdata : n.op.isData = true) :
    ∃ a, f = .node a := by
  have pushed {t : NodeTable} {m : Node} (hm : (t.push m).1.node? (t.push m).2 = some n) : m = n := by
    rw [NodeTable.push_snd, NodeTable.node?_push, if_pos rfl] at hm
    exact Option.some.inj hm
  cases f with
  | node a => exact ⟨a, rfl⟩
  | literal v =>
    rw [← pushed hn] at hdata
    exact Bool.noConfusion hdata
  | unary prim a =>
    rw [← pushed hn, NodeTable.unary_op] at hdata
    exact Bool.noConfusion hdata
  | binary prim a b =>
    rw [← pushed hn, NodeTable.binary_op] at hdata
    exact Bool.noConfusion hdata
  | ternary prim a b c =>
    rw [← pushed hn, NodeTable.ternary_op] at hdata
    exact Bool.noConfusion hdata

namespace Draft

variable {t : Template} {g : Graph} {memo : Memo} {config : Config} {done : List HopId}
  {d d' : Draft} {h : Hop} {f : Fragment} {e : MemoEntry} {base : Nat} {root id x : HopId}
  {a n : NodeId}

/-! ## Nodes that read literals -/

/-- The nodes of the kernel are laid, and a node that reads a literal stands for that literal only. -/
structure Faithful (g : Graph) (base : Nat) (d : Draft) : Prop where
  laid : d.Laid base fun _ => true
  source : ∀ b ∈ d.bindings, ∀ n x name, d.table.node? b.node = some n → n.op = .data x name →
    g.constant? x ≠ none → b.hop = x

theorem Faithful.start (g : Graph) (table : NodeTable) : Faithful g table.size ⟨table, []⟩ :=
  ⟨.start table _, by simp⟩

/-- A hop whose node reads a literal is that literal. -/
theorem Faithful.eq_of_node? (faithful : d.Faithful g base) {y : HopId} {name : String} {m : Node}
    (ha : d.node? x = some a) (hm : d.table.node? a = some m) (hop : m.op = .data y name)
    (hliteral : g.constant? y ≠ none) : x = y := by
  obtain ⟨b, hb, rfl, rfl⟩ := exists_mem_of_node? ha
  exact faithful.source b hb m y name hm hop hliteral

/-- The bindings that were there before read what they read. -/
theorem Faithful.source_of_precedes (faithful : d.Faithful g base) (precedes : d.Precedes d')
    {b : Binding} (hb : b ∈ d.bindings) {y : HopId} {name : String} {m : Node}
    (hm : d'.table.node? b.node = some m) (hop : m.op = .data y name)
    (hliteral : g.constant? y ≠ none) : b.hop = y := by
  obtain ⟨m', hm'⟩ := NodeTable.exists_node? (faithful.laid.nodes b hb).2
  obtain rfl : m' = m := Option.some.inj ((precedes.1 hm').symm.trans hm)
  exact faithful.source b hb m' y name hm' hop hliteral

/-- A hop from outside is bound to its own node, which stands for no other hop. -/
theorem Faithful.bindOuter (faithful : d.Faithful g base) :
    (d.bindOuter config h).Faithful g base := by
  refine ⟨faithful.laid.bindOuter rfl, ?_⟩
  intro b hb m y name hm hop hliteral
  rcases List.mem_append.1 hb with hb | hb
  · exact faithful.source_of_precedes precedes_bindOuter hb hm hop hliteral
  · obtain rfl := List.mem_singleton.1 hb
    rw [Draft.bindOuter, NodeTable.node?_push, if_pos rfl] at hm
    obtain rfl := Option.some.inj hm
    rcases boundaryNode_cases config h with hnode | ⟨value, hnode⟩
    · rw [hnode, Node.data_op] at hop
      exact (NodeOp.data.inj hop).1
    · rw [hnode] at hop
      exact NodeOp.noConfusion hop

/-- A lowered hop is bound to the node of a literal only if its fragment adds nothing to that. -/
theorem Faithful.bindLowered (faithful : d.Faithful g base)
    (hleaves : ∀ a ∈ f.leaves, d.table.Within base a)
    (hpassed : ∀ a, f = .node a → ∃ x, d.node? x = some a ∧ g.constant? x = none) :
    (d.bindLowered h f).Faithful g base := by
  have laid := faithful.laid.bindLowered (h := h) (f.admits_of_isData fun _ _ => rfl) hleaves
  refine ⟨laid, ?_⟩
  intro b hb m y name hm hop hliteral
  rcases List.mem_append.1 hb with hb | hb
  · exact faithful.source_of_precedes precedes_bindLowered hb hm hop hliteral
  · exfalso
    obtain rfl := List.mem_singleton.1 hb
    have htop := (faithful.laid.table.emit (f.admits_of_isData fun _ _ => rfl) hleaves).2
    obtain ⟨top, htop⟩ := NodeTable.exists_node? htop.2
    obtain ⟨m', hm', hop'⟩ := NodeTable.fitTo_op (h := h) htop
    obtain rfl : m' = m := Option.some.inj (hm'.symm.trans hm)
    rw [hop] at hop'
    have hdata : top.op.isData = true := by rw [← hop']; rfl
    obtain ⟨a, rfl⟩ := Fragment.exists_node_of_emit htop hdata
    obtain ⟨x, hx, hnone⟩ := hpassed a rfl
    obtain rfl := faithful.eq_of_node? hx htop hop'.symm hliteral
    exact hliteral hnone

/-- What has an open region is no literal. -/
theorem constant?_of_hasOpen (explored : memo.ExploredBy g config done) (wf : g.WellFormed)
    (hopen : memo.hasOpen x t = true) : g.constant? x = none := by
  obtain ⟨e, hbest⟩ := Memo.exists_best?_of_hasOpen hopen
  obtain ⟨h, hh, _⟩ := explored.best hbest
  obtain rfl := wf.id_eq hh
  rw [Graph.constant?_of_hop? hh]
  exact explored.literal?_eq_none hh hbest

/-- What has other extents than a scalar is no literal. -/
theorem constant?_of_shape (typed : g.IsTyped) (hh : g.hop? x = some h)
    (hshape : h.shape ≠ .scalar) : g.constant? x = none := by
  rw [Graph.constant?_of_hop? hh]
  cases hliteral : h.literal? with
  | none => rfl
  | some value =>
    exact absurd (typed.shape_of_literal hh (Hop.exists_literal_of_literal? hliteral)) hshape

/-- The only input of a hop that extends a region is no literal. -/
theorem constant?_of_only_input (explored : memo.ExploredBy g config done) (wf : g.WellFormed)
    (ready : Ready t g memo d h e f) (harity : h.kind.arity = some 1)
    (hopens : Matcher.opens ⟨t, false, config⟩ g h.id = true → g.constant? x = none)
    (hx : h.input? 0 = some x) : g.constant? x = none := by
  rcases (explored.justified_of_best ready.hop ready.best).cases with hstarts | ⟨_, i, y, _, hy, hopen⟩
  · exact hopens hstarts
  · have hcount := wf.arity ready.hop harity
    have hlt : i < h.inputs.length := (List.getElem?_eq_some_iff.1 hy).1
    obtain rfl : i = 0 := by omega
    obtain rfl : x = y := Option.some.inj (hx.symm.trans hy)
    exact constant?_of_hasOpen explored wf hopen

/-- Where a hop becomes the node of its operand, that operand is no literal. -/
theorem exists_of_passed (explored : memo.ExploredBy g config done) (typed : g.IsTyped)
    (ready : Ready t g memo d h e (.node a)) :
    ∃ x, d.node? x = some a ∧ g.constant? x = none := by
  have wf := typed.isBuilt.wellFormed
  cases t with
  | outerProduct =>
    have becomes : OuterProduct.Becomes g d h (.node a) :=
      OuterProduct.becomes_of_fragment ready.fragment
    cases becomes with
    | passed hkind ha =>
      obtain ⟨x, hx, hnode⟩ := operand_eq_ok_iff.1 ha
      refine ⟨x, hnode, constant?_of_only_input explored wf ready ?_ (fun hopens => ?_) hx⟩
      · rcases hkind with hkind | hkind <;> rw [hkind] <;> rfl
      · have hm := Graph.isMatmul_of_isOuterProductLike ready.hop (Bool.and_eq_true_iff.1 hopens).1
        rcases hkind with hkind | hkind <;> simp [Hop.isMatmul, hkind] at hm
  | rowAgg =>
    have becomes : RowAgg.Becomes g d h (.node a) := RowAgg.becomes_of_fragment ready.fragment
    generalize hf : Fragment.node a = f at becomes
    cases becomes with
    | rowSumOfColumn hkind ha hinput hcolumn =>
      obtain rfl : a = _ := by simpa [Fragment.leaves] using congrArg Fragment.leaves hf
      obtain ⟨x, hx, hnode⟩ := operand_eq_ok_iff.1 ha
      obtain ⟨x', hx', hhx⟩ := operandHop_eq_ok_iff.1 hinput
      obtain rfl : x = x' := Option.some.inj (hx.symm.trans hx')
      refine ⟨x, hnode, constant?_of_shape typed hhx ?_⟩
      intro hscalar
      rw [hscalar] at hcolumn
      simp [Shape.scalar] at hcolumn
    | @columnSum a' hkind ha =>
      obtain rfl : a = a' := by
        unfold RowAgg.sumColumns at hf
        split at hf
        · exact Fragment.noConfusion hf
        · exact Fragment.node.inj hf
      obtain ⟨x, hx, hnode⟩ := operand_eq_ok_iff.1 ha
      have harity : h.kind.arity = some 1 := by
        rw [hkind]
        rfl
      refine ⟨x, hnode, constant?_of_only_input explored wf ready harity (fun hopens => ?_) hx⟩
      have hopens : RowAgg.opens g h.id = true := hopens
      obtain ⟨hopx, hhx⟩ := wf.exists_input ready.hop (List.mem_of_getElem? hx)
      have hinput : g.input? h.id 0 = some hopx := (Graph.input?_iff_of_hop? ready.hop).2 ⟨x, hx, hhx⟩
      refine constant?_of_shape typed hhx fun hscalar => ?_
      simp [RowAgg.opens, ready.hop, hkind, hinput, hscalar, Shape.isGenuineMatrix, Shape.scalar,
        Extent.exceeds] at hopens
    | _ => simp at hf

/-! ## Runs -/

theorem Faithful.bindBoundary (wf : g.WellFormed) (hcall : bindBoundary g config d id = .ok d')
    (faithful : d.Faithful g base) : d'.Faithful g base := by
  rcases bindBoundary_cases wf hcall with ⟨_, rfl⟩ | ⟨h, _, _, _, rfl⟩
  · exact faithful
  · exact faithful.bindOuter

theorem Faithful.ready (explored : memo.ExploredBy g config done) (typed : g.IsTyped)
    (ready : Ready t g memo d h e f) (faithful : d.Faithful g base) :
    (d.bindLowered h f).Faithful g base := by
  refine faithful.bindLowered (Template.within_leaves faithful.laid ready.fragment) ?_
  rintro a rfl
  exact exists_of_passed explored typed ready

theorem Faithful.run (explored : memo.ExploredBy g config done) (typed : g.IsTyped)
    {config' : Config} (run : Run t g memo config' root d d') (faithful : d.Faithful g base) :
    d'.Faithful g base := by
  refine run.preserves (fun step faithful => ?_) faithful
  cases step with
  | outer => exact faithful.bindOuter
  | inner ready => exact faithful.ready explored typed ready

theorem Faithful.lowerBelow (explored : memo.ExploredBy g config done) (typed : g.IsTyped)
    {config' : Config} {depth : Nat} (hcall : lowerBelow t g memo config' depth d id = .ok d')
    (faithful : d.Faithful g base) : d'.Faithful g base := by
  rcases lowerBelow_lowers typed.isBuilt.wellFormed hcall with
    ⟨_, rfl⟩ | ⟨h, e, d₁, f, _, _, run, ready, rfl⟩
  · exact faithful
  · exact (faithful.run explored typed run).ready explored typed ready

end Draft

end OpFusion
