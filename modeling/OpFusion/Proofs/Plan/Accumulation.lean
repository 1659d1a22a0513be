import OpFusion.Proofs.Plan.Layout

/-!
# Accumulation into the output row

A primitive that adds to the output row belongs at the top of a kernel. The row template uses one
for column sums and for multiplies with a transpose on the left, and these are the hops at which it
ends a region (`RowAgg.fragment_cases`). So the nodes below the root of a region never accumulate,
and of the node of the root only the top can (`accumulates_only_at_output`).
-/

namespace OpFusion

open Kernel

/-- The operation does not add to the output row. -/
def Kernel.NodeOp.quiet (op : NodeOp) : Bool := !op.accumulates

namespace RowAgg

variable {t : NodeTable} {a : NodeId} {g : Graph} {d : Draft} {h : Hop} {f : Fragment}

section Reads

variable {allowed : NodeOp → Bool}

theorem admits_readColumn (hallowed : ∀ prim x, allowed (.unary prim x) = true) :
    (readColumn t a).Admits allowed := by
  unfold readColumn
  split
  · exact ⟨hallowed _, trivial⟩
  · trivial

theorem admits_readCell (hallowed : ∀ prim x, allowed (.unary prim x) = true) :
    (readCell t a h).Admits allowed := by
  unfold readCell
  split
  · exact ⟨hallowed _, trivial⟩
  · split
    · exact ⟨hallowed _, trivial⟩
    · trivial

theorem admits_readUnlessScalar {lookup : UnaryPrim}
    (hallowed : ∀ prim x, allowed (.unary prim x) = true) :
    (readUnlessScalar t lookup a).Admits allowed := by
  unfold readUnlessScalar
  split
  · trivial
  · exact ⟨hallowed _, trivial⟩

end Reads

/-- A fragment that adds to the output row does so at its top only, and only where the template ends
a region. -/
theorem fragment_cases (hh : g.hop? h.id = some h) (hf : fragment g d h = .ok f) :
    f.Admits NodeOp.quiet ∨
      closing g h.id = .valid ∧ ∃ op a b, f = .binary (.rowAdd op) (.node a) (.node b) := by
  have column {a : NodeId} : (readColumn d.table a).Admits NodeOp.quiet :=
    admits_readColumn fun _ _ => rfl
  have cell {a : NodeId} {x : Hop} : (readCell d.table a x).Admits NodeOp.quiet :=
    admits_readCell fun _ _ => rfl
  have first {lookup : UnaryPrim} {a : NodeId} :
      (readUnlessScalar d.table lookup a).Admits NodeOp.quiet :=
    admits_readUnlessScalar fun _ _ => rfl
  cases becomes_of_fragment hf with
  | rowSumOfColumn => exact .inl first
  | rowSum => exact .inl ⟨fun _ => rfl, trivial⟩
  | columnSum hkind =>
    have hvalid : closing g h.id = .valid := by simp [closing, hh, hkind]
    unfold sumColumns
    split
    · exact .inr ⟨hvalid, _, _, _, rfl⟩
    · exact .inl trivial
  | addedRows hkind hinput htransposed =>
    have hleft := (Draft.operandHop_eq_ok_iff_input? hh).1 hinput
    refine .inr ⟨?_, _, _, _, rfl⟩
    simp [closing, hh, hkind, hasTransposedLeft, hleft, htransposed]
  | productOfCells =>
    exact .inl ⟨fun _ _ => rfl, first, first⟩
  | dotProduct => exact .inl ⟨fun _ _ => rfl, trivial, trivial⟩
  | unary => exact .inl ⟨fun _ => rfl, cell⟩
  | rowAndCell => exact .inl ⟨fun _ _ => rfl, trivial, column⟩
  | cells => exact .inl ⟨fun _ _ => rfl, column, column⟩
  | ternary => exact .inl ⟨fun _ _ _ => rfl, cell, trivial, cell⟩
  | replace => exact .inl ⟨fun _ _ _ => rfl, cell, trivial, trivial⟩
  | cellOfLiteral => exact .inl ⟨fun _ _ _ => rfl, trivial, rfl, rfl⟩
  | cellOfNode => exact .inl ⟨fun _ _ _ => rfl, trivial, rfl, trivial⟩

end RowAgg

/-! ## Runs and plans -/

namespace Draft

variable {g : Graph} {memo : Memo} {config : Config} {done : List HopId} {d d' : Draft}
  {root id : HopId} {base : Nat}

/-- Steps below a root add no node that accumulates. -/
theorem Step.quiet (explored : memo.ExploredBy g config done)
    (step : Step .rowAgg g memo config root d d') (laid : d.Laid base NodeOp.quiet) :
    d'.Laid base NodeOp.quiet := by
  cases step with
  | @outer h hh hnew _ =>
    refine laid.bindOuter ?_
    rcases boundaryNode_cases config h with hnode | ⟨value, hnode⟩ <;> rw [hnode] <;> rfl
  | @inner h e f ready hbelow =>
    refine laid.bindLowered ?_ (RowAgg.within_leaves laid ready.fragment)
    rcases RowAgg.fragment_cases ready.hop ready.fragment with hadmits | ⟨hvalid, _⟩
    · exact hadmits
    · obtain ⟨h', hh', hopen⟩ := explored.stillOpen_of_below hbelow
      obtain rfl : h = h' := Option.some.inj (ready.hop.symm.trans hh')
      have hclosing : RowAgg.closing g h.id = .stillOpen := hopen
      rw [hvalid] at hclosing
      exact Closing.noConfusion hclosing

/-- A hop that was lowered to one primitive on two nodes reads these two. -/
theorem operands_bindLowered {h : Hop} {prim : BinaryPrim} {a b n : NodeId}
    (hnew : ¬ d.Binds h.id)
    (hn : (d.bindLowered h (.binary prim (.node a) (.node b))).node? h.id = some n) :
    (d.bindLowered h (.binary prim (.node a) (.node b))).table.operands n = [a, b] := by
  have hpushed : (d.table.push (d.table.binary prim a b)).1.node? d.table.size =
      some (d.table.binary prim a b) := by
    rw [NodeTable.node?_push, if_pos rfl]
  obtain ⟨top, hnode, hop⟩ := NodeTable.fitTo_op (h := h) hpushed
  rw [node?_bindLowered hnew] at hn
  obtain rfl := Option.some.inj hn
  have hoperands := NodeTable.operands_of_node? hnode
  rw [hop, NodeTable.binary_op] at hoperands
  exact hoperands

end Draft

/-- In a plan of the row template made from an explored memo, only the node of the result adds to
the output row. -/
theorem Plan.accumulates_only_at_output {g : Graph} (built : g.IsBuilt) (config : Config)
    (roots : List HopId) {table : NodeTable} {root : HopId} {plan : Plan}
    (hplan : Plan.construct .rowAgg g (Memo.empty.explore g config roots).1 config table root =
      .ok plan)
    {id : NodeId} {n : Node} (reached : Dag.Reaches plan.table.operands plan.output id)
    (hn : plan.table.node? id = some n) (haccumulates : n.op.accumulates = true) :
    id = plan.output := by
  have explored := Memo.exploredBy_explore built.wellFormed config roots
  obtain ⟨d, hd, hplan⟩ := bind_eq_ok_iff.1 hplan
  obtain ⟨h, e, d₁, f, rfl, run, ready, rfl⟩ := Draft.ofRegion_cases built.wellFormed hd
  have laid : d₁.Laid table.size NodeOp.quiet :=
    run.preserves (fun step laid => step.quiet explored laid) (.start table _)
  have hleaves := RowAgg.within_leaves laid ready.fragment
  -- The plan keeps the table of the draft, and its output is the node of the root.
  obtain ⟨output, houtput, hplan⟩ := bind_eq_ok_iff.1 hplan
  obtain ⟨arguments, _, hplan⟩ := bind_eq_ok_iff.1 hplan
  obtain rfl := pure_eq_ok_iff.1 hplan
  have houtput : (d₁.bindLowered h f).node? h.id = some output := Draft.node_eq_ok_iff.1 houtput
  rcases RowAgg.fragment_cases ready.hop ready.fragment with hadmits | ⟨_, op, a, b, rfl⟩
  · have laid' := laid.bindLowered (h := h) hadmits hleaves
    have hid := laid'.table.within_of_reaches (.refl _) (laid'.node houtput) reached
    have hquiet : n.op.quiet = true := laid'.table.allows hid.1 hn
    rw [NodeOp.quiet, haccumulates] at hquiet
    exact Bool.noConfusion hquiet
  · rcases Dag.reaches_iff_child.1 reached with heq | ⟨c, hc, hreached⟩
    · exact heq
    · -- Below the output lie nodes that the steps before have laid.
      have hchild : c ∈ [a, b] := Draft.operands_bindLowered ready.fresh houtput ▸ hc
      have hwithin : d₁.table.Within table.size c :=
        hleaves c hchild
      have hid := laid.table.within_of_reaches Draft.precedes_bindLowered.1 hwithin hreached
      obtain ⟨m, hm⟩ := NodeTable.exists_node? hid.2
      obtain rfl : m = n := Option.some.inj ((Draft.precedes_bindLowered.1 hm).symm.trans hn)
      have hquiet : m.op.quiet = true := laid.table.allows hid.1 hm
      rw [NodeOp.quiet, haccumulates] at hquiet
      exact Bool.noConfusion hquiet

/-- The plan for the column sum of the sample graph. -/
def Plan.ofQuotient : Plan :=
  (Plan.construct .rowAgg Memo.quotient Memo.ofQuotient .default .empty 6).toOption.getD
    ⟨[], .empty, [], 0, .rowAgg 0⟩

theorem Plan.accumulates_only_at_output_quotient :
    Plan.construct .rowAgg Memo.quotient Memo.ofQuotient .default .empty 6 = .ok ofQuotient ∧
      Dag.Reaches ofQuotient.table.operands ofQuotient.output 7 ∧
      ∃ n, ofQuotient.table.node? 7 = some n ∧ n.op.accumulates = true ∧
        7 = ofQuotient.output := by
  have hplan : Plan.construct .rowAgg Memo.quotient Memo.ofQuotient .default .empty 6 =
      .ok ofQuotient := by decide +kernel
  have reached : Dag.Reaches ofQuotient.table.operands ofQuotient.output 7 := by
    have houtput : ofQuotient.output = 7 := by decide +kernel
    rw [houtput]
    exact .refl
  have hn : ofQuotient.table.node? 7 = some ((ofQuotient.table.node? 7).get (by decide +kernel)) :=
    (Option.some_get _).symm
  have haccumulates : ((ofQuotient.table.node? 7).get (by decide +kernel)).op.accumulates = true :=
    by decide +kernel
  exact ⟨hplan, reached, _, hn, haccumulates, accumulates_only_at_output
    ⟨Memo.quotientRequests, rfl⟩ .default [6] hplan reached hn haccumulates⟩

end OpFusion
