import OpFusion.Proofs.Memo.Best
import OpFusion.Proofs.Plan.Layout
import OpFusion.Proofs.Region.Rules

/-!
# Operands from outside the region

An operand that the best entry of a hop does not refer to lies outside the region, and a kernel
should read it from outside (`Template.readsOutside`). What a hop is lowered to is settled by its
operand nodes (`Template.fragment_congr`). Lowering finds an operand by its hop, though, and a hop
has one node only. So whether such an operand is read from outside depends on what was
lowered before: it is not exactly when another consumer has had the same hop lowered already
(`unreferred_readsOutside_iff`).
-/

namespace OpFusion

open Kernel

/-! ## The nodes that a hop is lowered from -/

namespace Template

variable {t : Template} {g : Graph} {d d' : Draft} {h : Hop} {i : Nat}

/-- The positions at which a multiply takes over a transposition. -/
def absorbing : Template → List Nat
  | .outerProduct => [0, 1]
  | .rowAgg => [0]

/-- The hop below the transpose that a multiply takes over at a position. -/
def absorbed? (t : Template) (g : Graph) (h : Hop) (i : Nat) : Option HopId :=
  if h.isMatmul ∧ i ∈ t.absorbing then (g.input? h.id i).bind (·.transposed?) else none

/-- The node that the lowering of a hop uses for the operand at a position. -/
def operandNode (t : Template) (g : Graph) (d : Draft) (h : Hop) (i : Nat) :
    Except PlanError NodeId :=
  match t.absorbed? g h i with
  | some inner => d.node inner
  | none => d.operand h i

/-- The node `n` reads the operand at a position from outside: as a kernel input or a literal, or,
where the multiply has taken over a transposition, as the node of what is transposed. -/
def readsOutside (t : Template) (g : Graph) (config : Config) (d : Draft) (h : Hop) (i : Nat)
    (n : NodeId) : Bool :=
  match t.absorbed? g h i with
  | some inner => d.node? inner = some n
  | none => ((h.input? i).bind g.hop?).any fun x =>
      d.table.node? n = some (Draft.boundaryNode config x)

theorem mem_absorbed {x : HopId} (hx : t.absorbed? g h i = some x) : x ∈ t.absorbed g h := by
  unfold absorbed? at hx
  split at hx
  · rename_i habs
    cases t with
    | outerProduct =>
      show x ∈ OuterProduct.absorbed g h
      rw [OuterProduct.absorbed, if_pos habs.1, Draft.belowTransposes, List.mem_filterMap]
      exact ⟨i, habs.2, hx⟩
    | rowAgg =>
      show x ∈ RowAgg.absorbed g h
      rw [RowAgg.absorbed, if_pos habs.1, Draft.belowTransposes, List.mem_filterMap]
      exact ⟨i, habs.2, hx⟩
  · simp at hx

/-- Only multiplies take over a transposition. -/
theorem operandNode_of_not_matmul (hh : h.isMatmul = false) : t.operandNode g d h i = d.operand h i := by
  simp [operandNode, absorbed?, hh]

theorem operandNode_of_not_absorbing (hi : i ∉ t.absorbing) :
    t.operandNode g d h i = d.operand h i := by
  simp [operandNode, absorbed?, hi]

/-- What a multiply reads where it takes over transpositions is its operand node. -/
theorem factor_congr (hh : g.hop? h.id = some h) (hm : h.isMatmul = true) (hi : i ∈ t.absorbing)
    (heq : t.operandNode g d h i = t.operandNode g d' h i) : d.factor g h i = d'.factor g h i := by
  unfold Draft.factor
  cases hx : Draft.operandHop g h i with
  | error e => rfl
  | ok x =>
    have hinput := (Draft.operandHop_eq_ok_iff_input? hh).1 hx
    simp only [operandNode, absorbed?, hm, hi, and_self, if_true, hinput, Option.bind_some] at heq
    exact heq

/-- The operands of a replacement are found by name, and each name stands for a position. -/
theorem replacement_congr (hh : g.hop? h.id = some h) (htable : d.table = d'.table)
    (heq : ∀ i, d.operand h i = d'.operand h i) {params : List (String × Nat)}
    (hkind : h.kind = .builtin .replace params) :
    RowAgg.fragment g d h = RowAgg.fragment g d' h := by
  have param {name : String} {x : HopId} (hx : g.paramInput h.id name = .ok x) :
      d.node x = d'.node x := by
    obtain ⟨i, hi⟩ := Graph.exists_input?_of_paramInput hh hx
    simpa [Draft.operand, hi] using heq i
  simp only [RowAgg.fragment, hkind]
  cases htarget : g.paramInput h.id "target" with
  | error e => rfl
  | ok target =>
    cases hpattern : g.paramInput h.id "pattern" with
    | error e => rfl
    | ok pattern =>
      cases hreplacement : g.paramInput h.id "replacement" with
      | error e =>
        simp only [param hpattern, PlanError.ofGraph, ok_bind]
        cases d'.node pattern <;> rfl
      | ok replacement =>
        simp only [param htarget, param hpattern, param hreplacement, htable,
          PlanError.ofGraph, ok_bind]

/-- A fragment depends on the bindings through the operand nodes only. -/
theorem fragment_congr (hh : g.hop? h.id = some h) (htable : d.table = d'.table)
    (heq : ∀ i, t.operandNode g d h i = t.operandNode g d' h i) :
    t.fragment g d h = t.fragment g d' h := by
  have operand (hm : h.isMatmul = false) (i : Nat) : d.operand h i = d'.operand h i := by
    simpa only [operandNode_of_not_matmul hm] using heq i
  cases t with
  | outerProduct =>
    show OuterProduct.fragment g d h = OuterProduct.fragment g d' h
    have factor (hm : h.isMatmul = true) {i : Nat} (hi : i ∈ absorbing .outerProduct) :
        d.factor g h i = d'.factor g h i := factor_congr hh hm hi (heq i)
    unfold OuterProduct.fragment
    split
    all_goals rename_i hkind
    · simp only [operand (by simp [Hop.isMatmul, hkind])]
    · simp only [operand (by simp [Hop.isMatmul, hkind]), htable]
    · have hm : h.isMatmul = true := by simp [Hop.isMatmul, hkind]
      simp only [factor hm (show 0 ∈ absorbing .outerProduct by decide),
        factor hm (show 1 ∈ absorbing .outerProduct by decide), htable]
    · simp only [operand (by simp [Hop.isMatmul, hkind])]
    · simp only [operand (by simp [Hop.isMatmul, hkind])]
    · rfl
  | rowAgg =>
    show RowAgg.fragment g d h = RowAgg.fragment g d' h
    unfold RowAgg.fragment
    split
    all_goals rename_i hkind
    · simp only [operand (by simp [Hop.isMatmul, hkind]), htable]
    · simp only [operand (by simp [Hop.isMatmul, hkind]), htable]
    · have hm : h.isMatmul = true := by simp [Hop.isMatmul, hkind]
      have right : d.operand h 1 = d'.operand h 1 := by
        have hnot : 1 ∉ absorbing .rowAgg := by decide
        simpa only [operandNode_of_not_absorbing hnot] using heq 1
      simp only [factor_congr hh hm (show 0 ∈ absorbing .rowAgg by decide) (heq 0), right, htable]
    · simp only [operand (by simp [Hop.isMatmul, hkind]), htable]
    · simp only [operand (by simp [Hop.isMatmul, hkind]), htable]
    · simp only [operand (by simp [Hop.isMatmul, hkind]), htable]
    · have congr := replacement_congr hh htable (operand (by simp [Hop.isMatmul, hkind])) hkind
      simpa only [RowAgg.fragment, hkind] using congr
    · simp only [operand (by simp [Hop.isMatmul, hkind])]
    · rfl

end Template

/-! ## What the bindings of a draft say -/

namespace Draft

variable {t : Template} {g : Graph} {memo : Memo} {config : Config} {d d' : Draft}
  {id root : HopId} {h : Hop} {n : NodeId} {base : Nat} {b : Binding}

/-- Only literals may be written into the kernel instead of being read. -/
theorem boundaryNode_eq_data (hliteral : h.literal? = none) : boundaryNode config h = .data h := by
  unfold boundaryNode
  split
  · rename_i value hvalue
    simp [Hop.literal?, hvalue] at hliteral
  · rfl

/-- A hop is read unless it is a literal and literals are written into the kernel. -/
theorem boundaryNode_eq_data_iff :
    boundaryNode config h = .data h ↔ (config.compileLiterals && h.literal?.isSome) = false := by
  cases hliteral : h.literal? with
  | none => simp [boundaryNode_eq_data hliteral]
  | some value =>
    have hkind := Hop.exists_literal_of_literal? hliteral
    cases hcompile : config.compileLiterals with
    | false => simp [boundaryNode, hkind, hcompile]
    | true => simp [boundaryNode, hkind, hcompile, Node.data, Node.literal]

/-- Every hop is bound once, those from outside to their own nodes, and the nodes of the kernel read
no other hops from outside. -/
structure Accounted (g : Graph) (config : Config) (base : Nat) (d : Draft) : Prop where
  laid : d.Laid base (NodeOp.readsOnly d.boundary)
  nodup : (d.bindings.map (·.hop)).Nodup
  outer : ∀ b ∈ d.bindings, b.isBoundary = true →
    ∃ h, g.hop? b.hop = some h ∧ d.table.node? b.node = some (boundaryNode config h)

theorem Accounted.start (g : Graph) (config : Config) (table : NodeTable) :
    Accounted g config table.size ⟨table, []⟩ :=
  ⟨.start table _, List.nodup_nil, by simp⟩

/-- Only a hop without a node is bound, so no two bindings are for one hop. -/
theorem Accounted.nodup_snoc (acc : Accounted g config base d) {b : Binding}
    (hnew : ¬ d.Binds b.hop) : ((d.bindings ++ [b]).map (·.hop)).Nodup := by
  rw [List.map_append, List.nodup_append]
  refine ⟨acc.nodup, List.nodup_singleton _, ?_⟩
  rintro x hx y hy rfl
  rw [List.map_singleton, List.mem_singleton] at hy
  exact hnew (binds_iff.2 (hy ▸ hx))

/-- A hop from outside is bound to its own node. -/
theorem Accounted.bindOuter (acc : Accounted g config base d) (hh : g.hop? h.id = some h)
    (hnew : ¬ d.Binds h.id) : Accounted g config base (d.bindOuter config h) := by
  refine ⟨?_, acc.nodup_snoc hnew, ?_⟩
  · rw [boundary_bindOuter]
    refine (acc.laid.mono ?_).bindOuter ?_
    · intro op hop
      cases op with
      | data hop name => simpa [NodeOp.readsOnly] using Or.inl (of_decide_eq_true hop)
      | _ => rfl
    · rcases boundaryNode_cases config h with hnode | ⟨value, hnode⟩
      · rw [hnode]
        simp [NodeOp.readsOnly]
      · rw [hnode]
        rfl
  · intro b hb hboundary
    rcases List.mem_append.1 hb with hb | hb
    · obtain ⟨hx, hhx, hnode⟩ := acc.outer b hb hboundary
      exact ⟨hx, hhx, precedes_bindOuter.1 hnode⟩
    · rw [List.mem_singleton.1 hb]
      exact ⟨h, hh, by rw [Draft.bindOuter, NodeTable.node?_push, if_pos rfl]⟩

/-- A hop that is lowered reads no further hop from outside. -/
theorem Accounted.ready {e : MemoEntry} {f : Fragment} (acc : Accounted g config base d)
    (ready : Ready t g memo d h e f) : Accounted g config base (d.bindLowered h f) := by
  refine ⟨?_, acc.nodup_snoc ready.fresh, ?_⟩
  · rw [boundary_bindLowered]
    refine acc.laid.ready (fun op hop => ?_) ready
    cases op with
    | data => simp [NodeOp.isData] at hop
    | _ => rfl
  · intro b hb hboundary
    rcases List.mem_append.1 hb with hb | hb
    · obtain ⟨hx, hhx, hnode⟩ := acc.outer b hb hboundary
      exact ⟨hx, hhx, precedes_bindLowered.1 hnode⟩
    · rw [List.mem_singleton.1 hb] at hboundary
      simp at hboundary

/-- Each step binds one more hop and accounts for it. -/
theorem Accounted.step (acc : Accounted g config base d) (step : Step t g memo config root d d') :
    Accounted g config base d' := by
  cases step with
  | outer hh hnew => exact acc.bindOuter hh hnew
  | inner ready => exact acc.ready ready

/-- All that a lowered region reads is accounted for. -/
theorem accounted_of_ofRegion (wf : g.WellFormed) {table : NodeTable}
    (hd : ofRegion t g memo config table root = .ok d) : Accounted g config table.size d := by
  obtain ⟨h, e, d₁, f, _, run, ready, rfl⟩ := ofRegion_cases wf hd
  have acc : Accounted g config table.size d₁ :=
    run.preserves (fun step acc => acc.step step) (.start g config table)
  exact acc.ready ready

/-- A hop that is bound once is bound in one way. -/
theorem Accounted.eq_of_hop (acc : Accounted g config base d) {b b' : Binding}
    (hb : b ∈ d.bindings) (hb' : b' ∈ d.bindings) (heq : b.hop = b'.hop) : b = b' :=
  List.inj_on_of_nodup_map acc.nodup hb hb' heq

/-- A binding is found under its hop. -/
theorem Accounted.node?_of_mem (acc : Accounted g config base d) {b : Binding}
    (hb : b ∈ d.bindings) : d.node? b.hop = some b.node := by
  obtain ⟨n, hn⟩ := binds_iff.2 (List.mem_map_of_mem hb)
  obtain ⟨b', hb', hhop, rfl⟩ := exists_mem_of_node? hn
  rw [hn, acc.eq_of_hop hb' hb hhop]

/-- A hop from outside has the node through which a kernel reads it. -/
theorem Accounted.node?_of_mem_boundary (acc : Accounted g config base d)
    (hid : id ∈ d.boundary) :
    ∃ h n, g.hop? id = some h ∧ d.node? id = some n ∧
      d.table.node? n = some (boundaryNode config h) := by
  obtain ⟨b, hb, houter, rfl⟩ := mem_boundary_iff.1 hid
  obtain ⟨h, hh, hnode⟩ := acc.outer b hb houter
  exact ⟨h, b.node, hh, acc.node?_of_mem hb, hnode⟩

/-- No hop is bound from outside and lowered as well. -/
theorem Accounted.not_mem_lowered (acc : Accounted g config base d) (hid : id ∈ d.boundary) :
    id ∉ d.lowered := by
  intro hlowered
  obtain ⟨b, hb, houter, hhop⟩ := mem_boundary_iff.1 hid
  obtain ⟨b', hb', hinner, hhop'⟩ := mem_lowered_iff.1 hlowered
  rw [acc.eq_of_hop hb hb' (hhop.trans hhop'.symm), hinner] at houter
  exact Bool.noConfusion houter

/-- A bound hop that is no literal is read from outside exactly when it has not been lowered. -/
theorem Accounted.boundaryNode_iff (acc : Accounted g config base d) (wf : g.WellFormed)
    (hh : g.hop? id = some h) (hliteral : id ∈ d.lowered → h.literal? = none)
    (hn : d.node? id = some n) :
    d.table.node? n = some (boundaryNode config h) ↔ id ∉ d.lowered := by
  constructor
  · intro hnode hlowered
    obtain ⟨b, hb, houter, hid⟩ := mem_lowered_iff.1 hlowered
    have hop : (boundaryNode config h).op = .data id h.kernelName := by
      rw [boundaryNode_eq_data (hliteral hlowered), Node.data_op, wf.id_eq hh]
    -- The node of a lowered hop would read the hop from outside, which is bound to another node.
    have hreads := acc.laid.table.allows (acc.laid.node hn).1 hnode
    rw [hop] at hreads
    obtain ⟨b', hb', houter', hid'⟩ := mem_boundary_iff.1 (of_decide_eq_true hreads)
    rw [acc.eq_of_hop hb hb' (hid.trans hid'.symm), houter'] at houter
    exact Bool.noConfusion houter
  · intro hlowered
    have hboundary := (mem_lowered_or_mem_boundary ⟨n, hn⟩).resolve_left hlowered
    obtain ⟨h', n', hh', hn', hnode⟩ := acc.node?_of_mem_boundary hboundary
    obtain rfl : h = h' := Option.some.inj (hh.symm.trans hh')
    obtain rfl : n = n' := Option.some.inj (hn.symm.trans hn')
    exact hnode

end Draft

/-! ## Operands that no region takes in -/

/-- No literal belongs to a region. -/
theorem Memo.ExploredBy.literal?_eq_none {memo : Memo} {g : Graph} {config : Config}
    {done : List HopId} {t : Template} {h : Hop} {e : MemoEntry}
    (explored : memo.ExploredBy g config done) (hh : g.hop? h.id = some h)
    (hbest : memo.best? h.id t = some e) : h.literal? = none := by
  cases hliteral : h.literal? with
  | none => rfl
  | some value =>
    have hkind := Hop.exists_literal_of_literal? hliteral
    exact absurd (by rw [hkind]; rfl) (explored.not_leaf hh hbest)

namespace Draft

variable {t : Template} {g : Graph} {d : Draft} {h : Hop} {i : Nat} {n : NodeId} {x : HopId}

/-- An operand is the node of the hop, or of the hop whose transposition was taken over. -/
theorem exists_operandNode (hinputs : ∀ x ∈ h.inputs, d.Binds x)
    (habsorbed : ∀ x ∈ t.absorbed g h, d.Binds x) (hx : h.input? i = some x) :
    ∃ n, t.operandNode g d h i = .ok n := by
  unfold Template.operandNode
  split
  · rename_i inner hinner
    exact (habsorbed inner (Template.mem_absorbed hinner)).imp fun n hn => node_eq_ok_iff.2 hn
  · exact (hinputs x (List.mem_of_getElem? hx)).imp fun n hn => operand_eq_ok_iff.2 ⟨x, hx, hn⟩

/-- Where a transposition is taken over, the operand is always the node of what is transposed. -/
theorem readsOutside_of_absorbed {config : Config} {inner : HopId}
    (habsorbed : t.absorbed? g h i = some inner) (hn : t.operandNode g d h i = .ok n) :
    t.readsOutside g config d h i n = true := by
  rw [Template.operandNode, habsorbed] at hn
  rw [Template.readsOutside, habsorbed]
  exact decide_eq_true (node_eq_ok_iff.1 hn)

/-- On the way through an explored region no literal is lowered, for what is lowered has an entry. -/
theorem literal?_eq_none_of_mem_lowered {memo : Memo} {config : Config} {done : List HopId}
    {table : NodeTable} {root : HopId} {hopx : Hop} (explored : memo.ExploredBy g config done)
    (run : Run t g memo config root ⟨table, []⟩ d) (hhx : g.hop? x = some hopx)
    (hlowered : x ∈ d.lowered) : hopx.literal? = none := by
  rcases run.lowered hlowered with hx | ⟨h', e', d₁, f', rfl, _, _, ready, _⟩
  · simp [lowered] at hx
  · obtain rfl : hopx = h' := Option.some.inj (hhx.symm.trans ready.hop)
    exact explored.literal?_eq_none ready.hop ready.best

/-- An operand is read from outside where a transposition is taken over, and else exactly when its
hop has not been lowered. -/
theorem Accounted.readsOutside_iff {config : Config} {base : Nat} {hopx : Hop}
    (acc : Accounted g config base d) (wf : g.WellFormed) (hx : h.input? i = some x)
    (hhx : g.hop? x = some hopx) (hliteral : x ∈ d.lowered → hopx.literal? = none)
    (hn : t.operandNode g d h i = .ok n) :
    t.readsOutside g config d h i n = true ↔ t.absorbed? g h i ≠ none ∨ x ∉ d.lowered := by
  cases habsorbed : t.absorbed? g h i with
  | some inner =>
    rw [readsOutside_of_absorbed habsorbed hn]
    simp
  | none =>
    have hnode : d.node? x = some n := by
      rw [Template.operandNode, habsorbed] at hn
      obtain ⟨x', hx', hn⟩ := operand_eq_ok_iff.1 hn
      rwa [Option.some.inj (hx.symm.trans hx')]
    simp only [Template.readsOutside, habsorbed, hx, Option.bind_some, hhx, Option.any_some,
      decide_eq_true_eq, ne_eq, not_true_eq_false, false_or]
    exact acc.boundaryNode_iff wf hhx hliteral hnode

/-- In a region of an explored memo each hop is lowered once, to what its operand nodes make of it:
with the same operand nodes it would be lowered to the same from any draft. The node at a position
that its best entry does not refer to is read from outside exactly when the multiply takes over a
transposition there or the hop read there had not been lowered before. -/
theorem unreferred_readsOutside_iff (built : g.IsBuilt) (config : Config) (roots : List HopId)
    {table : NodeTable} {root id : HopId}
    (hd : ofRegion t g (Memo.empty.explore g config roots).1 config table root = .ok d)
    (hid : id ∈ d.lowered) :
    ∃ h e d₀ f, g.hop? id = some h ∧ (Memo.empty.explore g config roots).1.best? id t = some e ∧
      t.fragment g d₀ h = .ok f ∧ (d₀.bindLowered h f).Precedes d ∧
      (∀ d', d'.table = d₀.table →
        (∀ i, t.operandNode g d' h i = t.operandNode g d₀ h i) → t.fragment g d' h = .ok f) ∧
      ∀ i x, h.input? i = some x → e.refersTo i = false →
        ∃ n, t.operandNode g d₀ h i = .ok n ∧
          (t.readsOutside g config d₀ h i n = true ↔
            t.absorbed? g h i ≠ none ∨ x ∉ d₀.lowered) := by
  have wf := built.wellFormed
  have explored := Memo.exploredBy_explore wf config roots
  obtain ⟨h, e, d₀, f, rfl, _, run, ready, precedes⟩ := ofRegion_lowered wf hd hid
  have acc : Accounted g config table.size d₀ :=
    run.preserves (fun step acc => acc.step step) (.start g config table)
  refine ⟨h, e, d₀, f, ready.hop, ready.best, ready.fragment, precedes, ?_, ?_⟩
  · intro d' htable hnodes
    rw [Template.fragment_congr ready.hop htable hnodes, ready.fragment]
  · intro i x hx _
    obtain ⟨n, hn⟩ := exists_operandNode ready.inputs ready.absorbed hx
    obtain ⟨hopx, hhx⟩ := wf.exists_input ready.hop (List.mem_of_getElem? hx)
    have hliteral := literal?_eq_none_of_mem_lowered explored run hhx
    exact ⟨n, hn, acc.readsOutside_iff wf hx hhx hliteral hn⟩

section Quotient

/-- The draft below a hop of the sample graph. -/
def ofQuotient (root : HopId) : Draft :=
  (ofRegion .rowAgg Memo.quotient Memo.ofQuotient .default .empty root).toOption.getD ⟨.empty, []⟩

theorem unreferred_readsOutside_iff_quotient :
    ofRegion .rowAgg Memo.quotient Memo.ofQuotient .default .empty 6 = .ok (ofQuotient 6) ∧
      3 ∈ (ofQuotient 6).lowered ∧
      ∃ h e d₀ f, Memo.quotient.hop? 3 = some h ∧ Memo.ofQuotient.best? 3 .rowAgg = some e ∧
        Template.fragment .rowAgg Memo.quotient d₀ h = .ok f ∧
        (d₀.bindLowered h f).Precedes (ofQuotient 6) ∧
        (∀ d', d'.table = d₀.table →
          (∀ i, Template.operandNode .rowAgg Memo.quotient d' h i =
            Template.operandNode .rowAgg Memo.quotient d₀ h i) →
          Template.fragment .rowAgg Memo.quotient d' h = .ok f) ∧
        ∀ i x, h.input? i = some x → e.refersTo i = false →
          ∃ n, Template.operandNode .rowAgg Memo.quotient d₀ h i = .ok n ∧
            (Template.readsOutside .rowAgg Memo.quotient .default d₀ h i n = true ↔
              Template.absorbed? .rowAgg Memo.quotient h i ≠ none ∨ x ∉ d₀.lowered) := by
  have hd : ofRegion .rowAgg Memo.quotient Memo.ofQuotient .default .empty 6 = .ok (ofQuotient 6) := by
    decide +kernel
  have hid : 3 ∈ (ofQuotient 6).lowered := by decide +kernel
  exact ⟨hd, hid,
    unreferred_readsOutside_iff ⟨Memo.quotientRequests, rfl⟩ .default [6] hd hid⟩

/-- The product `M %*% r` is lowered after `X / r`. The vector `r` lies outside of what its best
entry takes in, and it reads the row sum that was made for the division all the same. -/
theorem quotient_product_reads_inside :
    ofRegion .rowAgg Memo.quotient Memo.ofQuotient .default .empty 6 = .ok (ofQuotient 6) ∧
      (Plan.construct .rowAgg Memo.quotient Memo.ofQuotient .default .empty 6).isOk ∧
      ∃ h e d₀ m n, 3 ∈ (ofQuotient 6).lowered ∧ Memo.quotient.hop? 3 = some h ∧
        Memo.ofQuotient.best? 3 .rowAgg = some e ∧ h.input? 1 = some 2 ∧ e.refersTo 1 = false ∧
        Template.fragment .rowAgg Memo.quotient d₀ h =
          .ok (.binary .dotProduct (.node m) (.node n)) ∧
        (d₀.bindLowered h (.binary .dotProduct (.node m) (.node n))).Precedes (ofQuotient 6) ∧
        Template.operandNode .rowAgg Memo.quotient d₀ h 1 = .ok n ∧
        Template.readsOutside .rowAgg Memo.quotient .default d₀ h 1 n = false ∧
        (d₀.table.node? n).map (·.op) = some (.unary .rowSums 0) :=
  ⟨by decide +kernel, by decide +kernel, (Memo.quotient.hop? 3).get (by decide), .ofRefs .rowAgg [],
    (ofQuotient 4).bindOuter .default ((Memo.quotient.hop? 1).get (by decide)), 3, 1, by decide +kernel⟩

end Quotient

end Draft

end OpFusion
