import OpFusion.Proofs.Kernel.Substitution
import OpFusion.Proofs.Plan.LiteralNodes
import OpFusion.Proofs.Plan.ProductInputs
import OpFusion.Proofs.Plan.RowInputs

/-!
# Compiling literals

Whether literals are written into a kernel or passed to it makes no other difference to planning
(`Plan.construct_compiled`). Two plans are made side by side: each call on a draft with its literals
written gives what the call on the draft gives, with literals written afterwards. The rules look at
the nodes of operands, so the two could part where a hop is bound to the node of a literal; but only
the literal itself is (`Draft.Faithful`).
-/

namespace OpFusion

open Kernel

namespace Draft

variable {t : Template} {g : Graph} {memo : Memo} {config : Config} {done : List HopId}
  {d d' : Draft} {h : Hop} {f : Fragment} {base : Nat} {root id : HopId}

/-- The draft with its literals written into the nodes from `base` on. -/
def writeLiterals (g : Graph) (base : Nat) (d : Draft) : Draft :=
  ⟨d.table.substitute g.constant? base, d.bindings⟩

@[simp] theorem node?_writeLiterals : (d.writeLiterals g base).node? id = d.node? id := rfl

@[simp] theorem node_writeLiterals : (d.writeLiterals g base).node = d.node := rfl

@[simp] theorem lowered_writeLiterals : (d.writeLiterals g base).lowered = d.lowered := rfl

@[simp] theorem boundary_writeLiterals : (d.writeLiterals g base).boundary = d.boundary := rfl

end Draft

/-! ## Fragments -/

namespace RowAgg

variable {g : Graph} {d : Draft} {h : Hop} {base : Nat} {value : HopId → Option Literal}
  {t : NodeTable} {a : NodeId} {x : HopId}

theorem readColumn_substitute :
    readColumn (t.substitute value base) a = (readColumn t a).substitute value t := by
  unfold readColumn
  rw [NodeTable.check_substitute fun _ => rfl]
  split <;> rfl

theorem readUnlessScalar_substitute {lookup : UnaryPrim} :
    readUnlessScalar (t.substitute value base) lookup a =
      (readUnlessScalar t lookup a).substitute value t := by
  unfold readUnlessScalar
  rw [NodeTable.check_substitute fun _ => rfl]
  split <;> rfl

theorem sumColumns_substitute :
    sumColumns (t.substitute value base) a = (sumColumns t a).substitute value t := by
  unfold sumColumns
  rw [NodeTable.node?_substitute]
  cases t.node? a with
  | none => rfl
  | some n =>
    obtain ⟨op, dataType, shape⟩ := n
    by_cases ha : base ≤ a
    · simp only [Option.map_some, if_pos ha, Node.substitute]
      cases op with
      | data hop name =>
        simp only [NodeOp.substitute]
        cases value hop <;> rfl
      | binary prim => cases prim <;> rfl
      | _ => rfl
    · simp only [Option.map_some, if_neg ha]
      split <;> rfl

/-- Literals are scalars, so a matrix input stays one when literals are written into the table. -/
theorem readCell_writeLiterals (typed : g.IsTyped) (faithful : d.Faithful g base)
    (ha : d.node? x = some a) (hh : g.hop? x = some h) :
    readCell (d.table.substitute g.constant? base) a h =
      (readCell d.table a h).substitute g.constant? d.table := by
  have same : ((d.table.substitute g.constant? base).check (·.isData) a && h.isMatrix) =
      (d.table.check (·.isData) a && h.isMatrix) := by
    cases hmatrix : h.isMatrix with
    | false => rw [Bool.and_false, Bool.and_false]
    | true =>
      obtain ⟨m, hm⟩ := NodeTable.exists_node? (faithful.laid.node ha).2
      have hbase : base ≤ a := (faithful.laid.node ha).1
      rw [Bool.and_true, Bool.and_true]
      simp only [NodeTable.check, NodeTable.node?_substitute, hm, Option.map_some, if_pos hbase,
        Option.any_some]
      show Node.isData ⟨m.op.substitute _ _, _, _⟩ = m.isData
      unfold Node.isData
      cases hop : m.op with
      | data y name =>
        have hnone : g.constant? y = none := by
          by_contra hliteral
          obtain rfl := faithful.eq_of_node? ha hm hop hliteral
          rw [Graph.constant?_of_hop? hh] at hliteral
          obtain ⟨value, hvalue⟩ := Option.ne_none_iff_exists'.1 hliteral
          have htype := typed.dataType_of_literal hh (Hop.exists_literal_of_literal? hvalue)
          simp [Hop.isMatrix, htype] at hmatrix
        simp only [NodeOp.substitute, hnone]
      | _ => rfl
  unfold readCell
  rw [NodeTable.check_substitute fun _ => rfl, same]
  split
  · rfl
  · split <;> rfl

/-- What a hop becomes over the draft with its literals written is what it becomes, with literals
written. -/
theorem fragment_writeLiterals (typed : g.IsTyped) (faithful : d.Faithful g base) :
    fragment g (d.writeLiterals g base) h =
      (fragment g d h).map (·.substitute g.constant? d.table) := by
  have cell {y : HopId} {x : Hop} {a : NodeId} (ha : d.node? y = some a) (hx : g.hop? y = some x) :
      readCell (d.table.substitute g.constant? base) a x =
        (readCell d.table a x).substitute g.constant? d.table := readCell_writeLiterals typed faithful ha hx
  have operand {i : Nat} {x : Hop} {a : NodeId} (ha : d.operand h i = .ok a)
      (hx : Draft.operandHop g h i = .ok x) : readCell (d.table.substitute g.constant? base) a x =
        (readCell d.table a x).substitute g.constant? d.table := by
    obtain ⟨y, hy, hnode⟩ := Draft.operand_eq_ok_iff.1 ha
    obtain ⟨y', hy', hhop⟩ := Draft.operandHop_eq_ok_iff.1 hx
    obtain rfl : y = y' := Option.some.inj (hy.symm.trans hy')
    exact cell hnode hhop
  unfold fragment
  split
  case h_1 =>
    refine bind_map_of fun a _ => bind_map_of fun x _ => ?_
    split
    · exact congrArg Except.ok readUnlessScalar_substitute
    · rfl
  case h_2 => exact bind_map_of fun a _ => congrArg Except.ok sumColumns_substitute
  case h_3 =>
    refine bind_map_of fun left _ => bind_map_of fun right _ => bind_map_of fun a _ =>
      bind_map_of fun b _ => ?_
    split
    · rfl
    · split
      · show Except.ok _ = Except.ok _
        rw [Draft.writeLiterals, readUnlessScalar_substitute, readUnlessScalar_substitute]
        rfl
      · rfl
  case h_4 op _ =>
    split
    · rfl
    · refine bind_map_of fun a ha => bind_map_of fun x hx => ?_
      show Except.ok _ = Except.ok _
      rw [Draft.writeLiterals, operand ha hx]
      rfl
  case h_5 op _ =>
    refine bind_map_of fun a _ => bind_map_of fun b _ => bind_map_of fun x _ => ?_
    split
    · split
      · rfl
      · show Except.ok _ = Except.ok _
        rw [Draft.writeLiterals, readColumn_substitute]
        rfl
    · split
      · rfl
      · show Except.ok _ = Except.ok _
        rw [Draft.writeLiterals, readColumn_substitute, readColumn_substitute]
        rfl
  case h_6 op _ =>
    split
    · rfl
    · rename_i prim hprim
      have hsubstitute (isNaN : Bool) : prim.substitute isNaN = prim := by
        unfold TernaryPrim.substitute
        rw [if_neg]
        rintro ⟨rfl, _⟩
        cases op <;> simp [TernaryOp.primitive?] at hprim
      refine bind_map_of fun a ha => bind_map_of fun b _ => bind_map_of fun c hc =>
        bind_map_of fun x hx => bind_map_of fun y hy => ?_
      show Except.ok _ = Except.ok _
      rw [Draft.writeLiterals, operand ha hx, operand hc hy]
      simp only [Fragment.substitute, hsubstitute]
  case h_7 params _ =>
    refine bind_map_of fun target _ => bind_map_of fun p _ => bind_map_of fun pattern hpattern =>
      bind_map_of fun r _ => bind_map_of fun replacement _ => bind_map_of fun a ha =>
        bind_map_of fun x hx => ?_
    have hbase : base ≤ pattern := (faithful.laid.node (Draft.node_eq_ok_iff.1 hpattern)).1
    have hx : g.hop? target = some x := by simpa using hx
    show Except.ok _ = Except.ok _
    rw [Draft.writeLiterals, cell (Draft.node_eq_ok_iff.1 ha) hx,
      NodeTable.check_isNaN_substitute hbase]
    simp only [Fragment.substitute, Fragment.becomesNaN]
    -- The primitive that replaces NaNs is used exactly if the pattern is one, or becomes one.
    congr 2
    unfold TernaryPrim.substitute
    cases hnan : d.table.check (fun n => n.literal?.any (·.isNaN)) pattern with
    | true => simp [NodeTable.becomesNaN_of_check hnan]
    | false => cases d.table.becomesNaN g.constant? pattern <;> simp
  case h_8 =>
    refine bind_map_of fun x _ => ?_
    split
    · rfl
    · refine bind_map_of fun a _ => bind_map_of fun b _ => bind_map_of fun y _ => ?_
      split <;> rfl
  case h_9 => rfl

end RowAgg

namespace OuterProduct

variable {g : Graph} {d : Draft} {h : Hop} {base : Nat} {value : HopId → Option Literal}
  {t : NodeTable} {a : NodeId}

theorem readVector_substitute :
    readVector (t.substitute value base) a = (readVector t a).substitute value t := by
  unfold readVector
  rw [NodeTable.check_substitute fun _ => rfl]
  split <;> rfl

theorem fragment_writeLiterals :
    fragment g (d.writeLiterals g base) h =
      (fragment g d h).map (·.substitute g.constant? d.table) := by
  unfold fragment
  split
  case h_1 op _ =>
    split
    · rfl
    · exact bind_map_of fun a _ => rfl
  case h_2 op _ =>
    split
    · rfl
    · refine bind_map_of fun a _ => bind_map_of fun b _ => ?_
      show Except.ok _ = Except.ok _
      rw [Draft.writeLiterals, readVector_substitute, readVector_substitute]
      rfl
  case h_3 =>
    refine bind_map_of fun a _ => bind_map_of fun b _ => ?_
    have scalar : (d.writeLiterals g base).table.check (·.isScalar) a =
        d.table.check (·.isScalar) a := NodeTable.check_substitute fun _ => rfl
    rw [scalar]
    split
    · rfl
    · split <;> rfl
  case h_4 => exact bind_map_of fun a _ => rfl
  case h_5 => exact bind_map_of fun a _ => rfl
  case h_6 => rfl

end OuterProduct

theorem Template.fragment_writeLiterals {t : Template} {g : Graph} {d : Draft} {base : Nat}
    (typed : g.IsTyped) (faithful : d.Faithful g base) (h : Hop) :
    t.fragment g (d.writeLiterals g base) h =
      (t.fragment g d h).map (·.substitute g.constant? d.table) := by
  cases t with
  | outerProduct => exact OuterProduct.fragment_writeLiterals
  | rowAgg => exact RowAgg.fragment_writeLiterals typed faithful

/-! ## Lowering -/

namespace Draft

variable {t : Template} {g : Graph} {memo : Memo} {config : Config} {done : List HopId}
  {d d' : Draft} {h : Hop} {f : Fragment} {base : Nat} {root id : HopId}

/-- A literal may be written when it is bound or afterwards. -/
theorem writeLiterals_bindOuter (typed : g.IsTyped) (faithful : d.Faithful g base)
    (hh : g.hop? h.id = some h) :
    (d.writeLiterals g base).bindOuter { config with compileLiterals := true } h =
      (d.bindOuter { config with compileLiterals := false } h).writeLiterals g base := by
  have hdata : boundaryNode { config with compileLiterals := false } h = .data h := by
    unfold boundaryNode
    split <;> rfl
  have hnode : boundaryNode { config with compileLiterals := true } h =
      (Node.data h).substitute g.constant? d.table := by
    have hvalue : g.constant? h.id = h.literal? := Graph.constant?_of_hop? hh
    simp only [Node.substitute, Node.data, NodeOp.substitute, hvalue]
    cases hliteral : h.literal? with
    | none => exact boundaryNode_eq_data hliteral
    | some value =>
      have hkind := Hop.exists_literal_of_literal? hliteral
      simp [boundaryNode, hkind, Node.literal, typed.dataType_of_literal hh hkind,
        typed.shape_of_literal hh hkind]
  have pushed := NodeTable.substitute_push g.constant? (n := Node.data h)
    faithful.laid.table (by simp [NodeOp.operands])
  simp only [bindOuter, writeLiterals, hdata, hnode, pushed, NodeTable.size_substitute]

/-- Literals may be written before a hop is lowered or afterwards. -/
theorem writeLiterals_bindLowered (faithful : d.Faithful g base)
    (hleaves : ∀ a ∈ f.leaves, d.table.Within base a) :
    (d.writeLiterals g base).bindLowered h (f.substitute g.constant? d.table) =
      (d.bindLowered h f).writeLiterals g base := by
  have hadmits : f.Admits fun _ => true := f.admits_of_isData fun _ _ => rfl
  obtain ⟨laid, htop⟩ := faithful.laid.table.emit hadmits hleaves
  have emitted := NodeTable.substitute_emit g.constant? faithful.laid.table hadmits hleaves
  have fitted := NodeTable.substitute_fitTo g.constant? (h := h) laid htop
  simp only [bindLowered, writeLiterals, emitted, fitted]

theorem bindBoundary_writeLiterals (typed : g.IsTyped) (faithful : d.Faithful g base) :
    bindBoundary g { config with compileLiterals := true } (d.writeLiterals g base) id =
      (bindBoundary g { config with compileLiterals := false } d id).map (writeLiterals g base) := by
  unfold bindBoundary
  rw [node?_writeLiterals]
  split
  · rfl
  · refine bind_map_of fun h hh => ?_
    have hh : g.hop? id = some h := by simpa using hh
    obtain rfl := typed.isBuilt.wellFormed.id_eq hh
    exact congrArg Except.ok (writeLiterals_bindOuter typed faithful hh)

/-! Each call gives with literals written before what it gives with literals written afterwards. -/

theorem lower_writeLiterals (typed : g.IsTyped) (faithful : d.Faithful g base) :
    lower t g { config with compileLiterals := true } (d.writeLiterals g base) h =
      (lower t g { config with compileLiterals := false } d h).map (writeLiterals g base) := by
  have wf := typed.isBuilt.wellFormed
  have keeps : ∀ x ∈ t.absorbed g h, ∀ {d d' : Draft},
      bindBoundary g { config with compileLiterals := false } d x = .ok d' →
        d.Faithful g base → d'.Faithful g base := fun _ _ {_ _} hcall faithful =>
    faithful.bindBoundary wf hcall
  unfold lower
  rw [foldlM_map_of keeps (fun x _ {_} faithful => bindBoundary_writeLiterals typed faithful)
    faithful]
  refine map_bind_of fun d' hd' => ?_
  have faithful' : d'.Faithful g base := foldlM_preserves keeps hd' faithful
  rw [Template.fragment_writeLiterals typed faithful']
  refine map_bind_of fun f hf => ?_
  have hleaves := Template.within_leaves faithful'.laid hf
  exact congrArg Except.ok (writeLiterals_bindLowered faithful' hleaves)

theorem lowerBelow_writeLiterals (explored : memo.ExploredBy g config done) (typed : g.IsTyped)
    {config' : Config} (depth : Nat) : ∀ {d : Draft} {id : HopId}, d.Faithful g base →
      lowerBelow t g memo { config' with compileLiterals := true } depth (d.writeLiterals g base)
          id =
        (lowerBelow t g memo { config' with compileLiterals := false } depth d id).map
          (writeLiterals g base) := by
  have wf := typed.isBuilt.wellFormed
  induction depth with
  | zero => exact fun _ => rfl
  | succ depth ih =>
    intro d id faithful
    unfold lowerBelow
    rw [node?_writeLiterals]
    split
    · rfl
    · refine bind_map_of fun h hh => ?_
      refine bind_map_of fun entry _ => ?_
      -- The inputs are lowered or bound one by one.
      have keeps : ∀ a ∈ h.inputs.zipIdx, ∀ {d d' : Draft},
          (if entry.refersTo a.2 then
            lowerBelow t g memo { config' with compileLiterals := false } depth d a.1
          else bindBoundary g { config' with compileLiterals := false } d a.1) = .ok d' →
            d.Faithful g base → d'.Faithful g base := by
        rintro ⟨x, i⟩ _ d d' hcall faithful
        split at hcall
        · exact faithful.lowerBelow explored typed hcall
        · exact faithful.bindBoundary wf hcall
      have each : ∀ a ∈ h.inputs.zipIdx, ∀ {d : Draft}, d.Faithful g base →
          (if entry.refersTo a.2 then lowerBelow t g memo
              { config' with compileLiterals := true } depth (d.writeLiterals g base) a.1
            else bindBoundary g { config' with compileLiterals := true }
              (d.writeLiterals g base) a.1) =
            (if entry.refersTo a.2 then lowerBelow t g memo
                { config' with compileLiterals := false } depth d a.1
              else bindBoundary g { config' with compileLiterals := false } d a.1).map
              (writeLiterals g base) := by
        rintro ⟨x, i⟩ _ d faithful
        split
        · exact ih faithful
        · exact bindBoundary_writeLiterals typed faithful
      rw [foldlM_map_of keeps each faithful]
      refine map_bind_of fun d₁ hd₁ => lower_writeLiterals typed ?_
      exact foldlM_preserves keeps hd₁ faithful

/-- A region is lowered with its literals written into the kernel as it is lowered without, and with
the literals written afterwards. -/
theorem ofRegion_writeLiterals (explored : memo.ExploredBy g config done) (typed : g.IsTyped)
    {config' : Config} {table : NodeTable} :
    ofRegion t g memo { config' with compileLiterals := true } table root =
      (ofRegion t g memo { config' with compileLiterals := false } table root).map
        (writeLiterals g table.size) := by
  have start : (Draft.mk table []).writeLiterals g table.size = ⟨table, []⟩ := by
    rw [writeLiterals, NodeTable.substitute_from_size]
  have lowered : lowerBelow t g memo { config' with compileLiterals := true } (root + 1)
      ((Draft.mk table []).writeLiterals g table.size) root = _ :=
    lowerBelow_writeLiterals explored typed (root + 1) (Faithful.start g table)
  rwa [start] at lowered

end Draft

/-! ## Plans -/

/-- The plan with its literals written into the nodes from `base` on: the literals are no longer
passed, and nor are the nodes that stood for them. -/
def Plan.writeLiterals (g : Graph) (base : Nat) (p : Plan) : Plan :=
  { p with
    inputs := p.inputs.filter fun x => (g.constant? x).isNone
    table := p.table.substitute g.constant? base
    arguments := ((p.inputs.zip p.arguments).filter fun x => (g.constant? x.1).isNone).map (·.2) }

namespace RowAgg

variable {g : Graph} {d : Draft} {base : Nat} {root : HopId}

/-- The plan for a draft with its literals written is the plan for the draft, with literals written. -/
theorem plan_writeLiterals (faithful : d.Faithful g base) :
    RowAgg.plan g (d.writeLiterals g base) root =
      (RowAgg.plan g d root).map (Plan.writeLiterals g base) := by
  unfold RowAgg.plan
  refine bind_map_of fun output houtput => ?_
  have hroot := faithful.laid.node (Draft.node_eq_ok_iff.1 houtput)
  generalize hordered :
    g.orderByPriority (d.lowered.reverse.findSome? (mainOf? g)) d.boundary = ordered
  -- Of the hops that were passed, the literals drop out.
  have hinputs : ordered.filter (fun x => x ∈ (d.writeLiterals g base).table.hopsRead output) =
      (ordered.filter fun x => x ∈ d.table.hopsRead output).filter
        fun x => (g.constant? x).isNone := by
    rw [List.filter_filter]
    congr 1
    funext x
    rw [Bool.eq_iff_iff, decide_eq_true_eq, Bool.and_eq_true, decide_eq_true_eq,
      Option.isNone_iff_eq_none, and_comm]
    exact NodeTable.mem_hopsRead_substitute faithful.laid.table hroot
  have hbound : ∀ x ∈ ordered.filter fun x => x ∈ d.table.hopsRead output, d.Binds x := by
    intro x hx
    rw [← hordered] at hx
    exact Draft.binds_of_mem_boundary
      (Graph.orderByPriority_perm.mem_iff.1 (List.mem_filter.1 hx).1)
  obtain ⟨arguments, harguments⟩ := Draft.exists_mapM_node hbound
  have hfiltered := mapM_filter harguments fun x => (g.constant? x).isNone
  have hrows : (d.writeLiterals g base).table.temporaryRows output = d.table.temporaryRows output :=
    NodeTable.temporaryRows_substitute
  simp only [Draft.node_writeLiterals, Draft.lowered_writeLiterals, Draft.boundary_writeLiterals,
    hordered, hinputs, harguments, hfiltered, ok_bind, hrows]
  rfl

end RowAgg

namespace OuterProduct

variable {memo : Memo} {g : Graph} {config : Config} {table : NodeTable} {d : Draft} {base : Nat}
  {root : HopId}

/-- Main matrix and factors are no literals. -/
theorem constant?_of_found (typed : g.IsTyped) {main left right : HopId} {l : List HopId}
    (hmain : l.findSome? (mainOf? g) = some main)
    (hfactors : l.findSome? (factorsOf? g) = some (left, right)) :
    ∀ x ∈ [main, left, right], g.constant? x = none := by
  have none_of {x : HopId} (h : ∃ h, g.hop? x = some h ∧ h.literal? = none) :
      g.constant? x = none := by
    obtain ⟨h, hh, hliteral⟩ := h
    rw [Graph.constant?_of_hop? hh, hliteral]
  obtain ⟨id, _, hid⟩ := List.exists_of_findSome?_eq_some hmain
  obtain ⟨p, _, hp⟩ := List.exists_of_findSome?_eq_some hfactors
  obtain ⟨hleft, hright⟩ := hop?_of_factorsOf? typed hp
  obtain ⟨_, hx, _, _, hhx, hsource⟩ :=
    ((mainOf?_eq_some_iff typed.isBuilt.wellFormed).1 hid).cases
  have hliteral : hx.literal? = none := by
    unfold Hop.isData at hsource
    split at hsource
    · rename_i hkind
      simp [Hop.literal?, hkind]
    · simp at hsource
  simp only [List.mem_cons, List.not_mem_nil, or_false]
  rintro x (rfl | rfl | rfl)
  · exact none_of ⟨hx, hhx, hliteral⟩
  · exact none_of hleft
  · exact none_of hright

/-- Main matrix and factors are bound, since lowered hops read them. -/
theorem binds_of_found (wf : g.WellFormed)
    (hd : Draft.ofRegion .outerProduct g memo config table root = .ok d) {main left right : HopId}
    (hmain : d.lowered.reverse.findSome? (mainOf? g) = some main)
    (hfactors : d.lowered.reverse.findSome? (factorsOf? g) = some (left, right)) :
    ∀ x ∈ [main, left, right], d.Binds x := by
  have lowered {id : HopId} (hid : id ∈ d.lowered.reverse) :
      ∃ h, h.id = id ∧ g.hop? h.id = some h ∧ h.id ∈ d.lowered := by
    obtain ⟨h, _, _, _, rfl, _, _, ready, _⟩ :=
      Draft.ofRegion_lowered wf hd (List.mem_reverse.1 hid)
    exact ⟨h, rfl, ready.hop, List.mem_reverse.1 hid⟩
  obtain ⟨id, hid, hmain⟩ := List.exists_of_findSome?_eq_some hmain
  obtain ⟨p, hp, hfactors⟩ := List.exists_of_findSome?_eq_some hfactors
  obtain ⟨h, rfl, hh, hlowered⟩ := lowered hid
  obtain ⟨h', rfl, hh', hlowered'⟩ := lowered hp
  obtain ⟨hleft, hright⟩ := mem_of_factorsOf? hh' wf hfactors
  simp only [List.mem_cons, List.not_mem_nil, or_false]
  rintro x (rfl | rfl | rfl)
  · exact binds_of_lowered wf hd hlowered hh (.inl (mem_inputs_of_mainOf? hh wf hmain))
  · exact binds_of_lowered wf hd hlowered' hh' (.inl hleft)
  · exact binds_of_lowered wf hd hlowered' hh' hright

/-- The plan for a draft with its literals written is the plan for the draft, with literals written. -/
theorem plan_writeLiterals (typed : g.IsTyped)
    (hd : Draft.ofRegion .outerProduct g memo config table root = .ok d)
    (faithful : d.Faithful g base) :
    OuterProduct.plan g (d.writeLiterals g base) root =
      (OuterProduct.plan g d root).map (Plan.writeLiterals g base) := by
  unfold OuterProduct.plan
  refine bind_map_of fun output houtput => bind_map_of fun main hmain => bind_map_of fun left hleft =>
    bind_map_of fun right hright => ?_
  have hroot := faithful.laid.node (Draft.node_eq_ok_iff.1 houtput)
  have hmain := inRole_eq_ok_iff.1 hmain
  obtain ⟨⟨left', right'⟩, hfactors, rfl⟩ := Option.map_eq_some_iff.1 (inRole_eq_ok_iff.1 hleft)
  have hright := inRole_eq_ok_iff.1 hright
  simp only [Draft.lowered_writeLiterals] at hmain hfactors hright
  rw [hfactors] at hright
  obtain rfl : right' = right := Option.some.inj hright
  have hbinds := binds_of_found typed.isBuilt.wellFormed hd hmain hfactors
  have hparts := constant?_of_found typed hmain hfactors
  generalize hpinned : [main, left', right'] = pinned at *
  have hinputs : (pinFirst pinned d.boundary).filter
        (fun x => x ∈ pinned ∨ x ∈ (d.writeLiterals g base).table.hopsRead output) =
      ((pinFirst pinned d.boundary).filter fun x => x ∈ pinned ∨ x ∈ d.table.hopsRead output).filter
        fun x => (g.constant? x).isNone := by
    rw [List.filter_filter]
    congr 1
    funext x
    rw [Bool.eq_iff_iff, decide_eq_true_eq, Bool.and_eq_true, decide_eq_true_eq,
      Option.isNone_iff_eq_none, Draft.writeLiterals,
      NodeTable.mem_hopsRead_substitute faithful.laid.table hroot]
    -- A part is no literal, so it stays.
    have := hparts x
    grind
  have hbound : ∀ x ∈ (pinFirst pinned d.boundary).filter
      (fun x => x ∈ pinned ∨ x ∈ d.table.hopsRead output), d.Binds x := by
    intro x hx
    rcases List.mem_append.1 (List.mem_filter.1 hx).1 with hx | hx
    · exact hbinds x hx
    · exact Draft.binds_of_mem_boundary (List.mem_filter.1 hx).1
  obtain ⟨arguments, harguments⟩ := Draft.exists_mapM_node hbound
  have hfiltered := mapM_filter harguments fun x => (g.constant? x).isNone
  simp only [Draft.node_writeLiterals, Draft.boundary_writeLiterals, hinputs, harguments, hfiltered,
    ok_bind]
  refine bind_map_of fun h _ => ?_
  split <;> rfl

end OuterProduct

/-- In a typed graph, planning with literals compiled gives what planning with literals passed gives,
with the literals written into the plan afterwards, or fails with the same error. -/
theorem Plan.construct_compiled {g : Graph} (typed : g.IsTyped) (config : Config)
    (roots : List HopId) (t : Template) (table : NodeTable) (root : HopId) :
    Plan.construct t g (Memo.empty.explore g config roots).1 { config with compileLiterals := true }
        table root =
      (Plan.construct t g (Memo.empty.explore g config roots).1
        { config with compileLiterals := false } table root).map
          (Plan.writeLiterals g table.size) := by
  have wf := typed.isBuilt.wellFormed
  have explored := Memo.exploredBy_explore wf config roots
  unfold Plan.construct
  rw [Draft.ofRegion_writeLiterals explored typed]
  refine map_bind_of fun d hd => ?_
  have faithful : d.Faithful g table.size :=
    (Draft.Faithful.start g table).lowerBelow explored typed hd
  cases t with
  | outerProduct => exact OuterProduct.plan_writeLiterals typed hd faithful
  | rowAgg => exact RowAgg.plan_writeLiterals faithful

/-- The sums of the rows of a matrix whose cells were divided by the sums of their rows and replaced
where they are not numbers then: `rowSums(replace(X / rowSums(X), NaN, 0))`. -/
def Plan.cleaned : Graph :=
  Graph.empty.build [.data "X" 100 20, .rowSums 0, .binary .div 0 1,
    .literal (.float ⟨0x7ff8000000000000⟩), .literal (.int 0), .replace 2 3 4, .rowSums 5]

theorem Plan.construct_compiled_cleaned :
    cleaned.IsTyped ∧
      (construct .rowAgg cleaned (Memo.empty.explore cleaned .default [6]).1
        { Config.default with compileLiterals := false } .empty 6).toOption.map (·.inputs) =
          some [0, 3, 4] ∧
      construct .rowAgg cleaned (Memo.empty.explore cleaned .default [6]).1
          { Config.default with compileLiterals := true } .empty 6 =
        (construct .rowAgg cleaned (Memo.empty.explore cleaned .default [6]).1
          { Config.default with compileLiterals := false } .empty 6).map
            (writeLiterals cleaned NodeTable.empty.size) := by
  have typed : cleaned.IsTyped := ⟨_, by decide, rfl⟩
  exact ⟨typed, by decide +kernel, construct_compiled typed .default [6] .rowAgg .empty 6⟩

end OpFusion
