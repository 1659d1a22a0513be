import OpFusion.Proofs.Plan.LiteralNodes
import OpFusion.Proofs.Plan.RowChain
import OpFusion.Proofs.Plan.TemporaryRows

/-!
# Plans for chains of row operators

A row operator of a chain becomes a node that fills a temporary row, made from the node of what lies
to its left and from a cell of its operand (`CombinesRow.scalesRowOf`). Going down from the node at
which the chain ends, all of its hops and operands are met (`SumsChain.reachesHop`). A sum along rows
reads that node. A sum along columns adds up what the last step is made from, so that step fills no
row and all the others do (`SumsChain.chainBody`).
-/

namespace OpFusion

open Kernel

namespace RowAgg

variable {g : Graph} {memo : Memo} {config : Config} {table : NodeTable} {d : Draft}
  {direction : Direction} {x y root left operand id : HopId} {steps rest : List RowStep}
  {s : RowStep} {plan : Plan} {n : NodeId}

section Lowered

variable (sums : SumsChain g memo direction x steps root) (typed : g.IsTyped)
  (hd : Draft.ofRegion .rowAgg g memo config table root = .ok d)
include sums typed hd

/-- What is bound and belongs to the chain has been lowered. -/
theorem SumsChain.mem_lowered (hbound : d.Binds y) (hy : y ∈ steps.map (·.hop)) :
    y ∈ d.lowered := by
  have wf := typed.isBuilt.wellFormed
  refine (Draft.mem_lowered_or_mem_boundary hbound).resolve_right fun hboundary => ?_
  have hborders := Draft.borders_of_mem_boundary wf hd hboundary
  exact (sums.not_inside wf (sums.borders hborders)).2 hy

/-- What is bound and read from outside lies on the boundary. -/
theorem SumsChain.mem_boundary (hbound : d.Binds y) (hy : y ∈ x :: steps.map (·.operand)) :
    y ∈ d.boundary := by
  have wf := typed.isBuilt.wellFormed
  refine (Draft.mem_lowered_or_mem_boundary hbound).resolve_left fun hlowered => ?_
  obtain ⟨_, _, _, _, _, hregion, _⟩ := Draft.ofRegion_lowered wf hd hlowered
  obtain ⟨hroot, hout⟩ := sums.not_inside wf hy
  exact (sums.inRegion hregion).elim hroot hout

end Lowered

/-- The node scales the row of the hop `left` by a cell that is made from the hop `operand`. -/
def ScalesRowOf (d : Draft) (left operand : HopId) (n : NodeId) : Prop :=
  ∃ k op a b m, d.table.node? n = some k ∧ k.op = .binary (.rowScalar op) a b ∧
    d.node? left = some a ∧ d.node? operand = some m ∧ Dag.Reaches d.table.operands b m

/-- A lowered row operator becomes such a node. -/
theorem CombinesRow.scalesRowOf {l : Hop} (combines : CombinesRow g id left operand)
    (wf : g.WellFormed) (hd : Draft.ofRegion .rowAgg g memo config table root = .ok d)
    (hlowered : id ∈ d.lowered) (hn : d.node? id = some n) (hleft : g.hop? left = some l)
    (hgenuine : l.isGenuineMatrix = true) : ScalesRowOf d left operand n := by
  obtain ⟨h, op, hh, hkind, _, hinputs⟩ := combines
  obtain ⟨e, f, top, n', rfl, made⟩ := Draft.exists_made_of_hop? wf hd hlowered hh
  obtain rfl := Option.some.inj (hn.symm.trans made.node)
  have becomes : Becomes g d h f := made.becomes
  cases becomes with
  | rowAndCell _ _ _ _ ha hb =>
    obtain ⟨y, hy, ha⟩ := Draft.operand_eq_ok_iff.1 ha
    obtain ⟨z, hz, hb⟩ := Draft.operand_eq_ok_iff.1 hb
    obtain rfl : left = y := by simpa [Hop.input?, hinputs] using hy
    obtain rfl : operand = z := by simpa [Hop.input?, hinputs] using hz
    obtain ⟨a', b', ⟨rfl, _⟩, hcell, htop⟩ := made.computes
    obtain ⟨k, hk, hop⟩ := made.exists_node htop
    exact ⟨k, _, _, _, _, hk, hop, ha, hb, hcell.reaches_of_leaf (by simp)⟩
  | cells _ _ _ _ hx hnarrow =>
    obtain ⟨y, hy, hhy⟩ := Draft.operandHop_eq_ok_iff.1 hx
    obtain rfl : left = y := by simpa [Hop.input?, hinputs] using hy
    obtain rfl := Option.some.inj (hleft.symm.trans hhy)
    simp [Hop.isGenuineMatrix, hnarrow] at hgenuine
  | _ kind => simp [hkind] at kind

theorem ScalesRowOf.fillsRow (scales : ScalesRowOf d left operand n) :
    d.table.check (·.isRowScalar) n = true := by
  obtain ⟨k, op, a, b, m, hk, hop, _⟩ := scales
  rw [NodeTable.check_of_node? hk, Node.isRowScalar_eq, hop]
  rfl

/-- The node of the hop lies below the given one, or is the given one. -/
def ReachesHop (d : Draft) (n : NodeId) (y : HopId) : Prop :=
  ∃ m, d.node? y = some m ∧ Dag.Reaches d.table.operands n m

theorem ReachesHop.head {m : NodeId} (hm : Dag.Reaches d.table.operands n m)
    (reaches : ReachesHop d m y) : ReachesHop d n y := by
  obtain ⟨m', hm', hreaches⟩ := reaches
  exact ⟨m', hm', hm.trans hreaches⟩

section Chain

variable (sums : SumsChain g memo direction x steps root) (typed : g.IsTyped)
  (hd : Draft.ofRegion .rowAgg g memo config table root = .ok d)
include sums typed hd

/-- The node of a step scales the row of what lies left of it. -/
theorem SumsChain.scalesRowOf (hsuffix : s :: rest <:+ steps) (hn : d.node? s.hop = some n) :
    ScalesRowOf d (RowStep.top x rest) s.operand n := by
  have chain := sums.chain.of_suffix hsuffix
  cases chain with
  | step below combines _ =>
    obtain ⟨l, hleft, hgenuine⟩ := below.isGenuineMatrix typed sums.genuine
    have hmem : s.hop ∈ steps.map (·.hop) := List.mem_map_of_mem (hsuffix.subset (by simp))
    have hlowered := sums.mem_lowered typed hd ⟨n, hn⟩ hmem
    exact combines.scalesRowOf typed.isBuilt.wellFormed hd hlowered hn hleft hgenuine

/-- From the node at which a chain ends, the nodes of all its hops and operands are reached, and that
of `x`: by induction on the chain, since the node of a step is made from that below it. -/
theorem SumsChain.reachesHop {rest : List RowStep} :
    ∀ {n : NodeId}, rest <:+ steps → d.node? (RowStep.top x rest) = some n →
      ReachesHop d n x ∧ ∀ s ∈ rest, ReachesHop d n s.hop ∧ ReachesHop d n s.operand := by
  induction rest with
  | nil => exact fun _ hn => ⟨⟨_, hn, .refl⟩, by simp⟩
  | cons last rest ih =>
    intro n hsuffix hn
    have hn : d.node? last.hop = some n := hn
    obtain ⟨k, op, a, b, m, hk, hop, ha, hm, hcell⟩ := sums.scalesRowOf typed hd hsuffix hn
    have hoperands : d.table.operands n = [a, b] := by rw [NodeTable.operands_of_node? hk, hop]; rfl
    have hrow : Dag.Reaches d.table.operands n a := .single (by simp [hoperands])
    have hcell : Dag.Reaches d.table.operands n m := .head (by simp [hoperands]) hcell
    obtain ⟨hx, hbelow⟩ := ih ((List.suffix_cons last rest).trans hsuffix) ha
    refine ⟨hx.head hrow, fun s hs => ?_⟩
    rcases List.mem_cons.1 hs with rfl | hs
    · exact ⟨⟨n, hn, .refl⟩, m, hm, hcell⟩
    · exact ⟨(hbelow s hs).1.head hrow, (hbelow s hs).2.head hrow⟩

end Chain

/-- A column sum adds up what would have filled a row. -/
theorem sumColumns_of_rowScalar {t : NodeTable} {k : Node} {op : RowOp} {a b : NodeId}
    (hk : t.node? n = some k) (hop : k.op = .binary (.rowScalar op) a b) :
    sumColumns t n = .binary (.rowAdd op) (.node a) (.node b) := by
  obtain ⟨op', dataType, shape⟩ := k
  obtain rfl : op' = _ := hop
  simp only [sumColumns, hk]

/-- The steps that fill a row of their own: under a sum along columns the last one does not. -/
def keptSteps (direction : Direction) (steps : List RowStep) : List RowStep :=
  if direction = .row then steps else steps.tail

/-- What lies below the node of the sum: all that the chain reads, and the steps that are kept. -/
structure ChainBody (d : Draft) (direction : Direction) (x : HopId) (steps : List RowStep)
    (output : NodeId) : Prop where
  start : ReachesHop d output x
  operands : ∀ s ∈ steps, ReachesHop d output s.operand
  hops : ∀ y ∈ steps.map (·.hop),
    (ReachesHop d output y ↔ y ∈ (keptSteps direction steps).map (·.hop))

section Sum

variable (typed : g.IsTyped) (hd : Draft.ofRegion .rowAgg g memo config table root = .ok d)
include typed hd

theorem SumsChain.exists_made (sums : SumsChain g memo direction x steps root)
    (hn : d.node? root = some n) :
    ∃ h e f top, h.kind = .aggUnary .sum direction ∧ h.inputs = [RowStep.top x steps] ∧
      Draft.Made .rowAgg g memo d h e f top n := by
  have wf := typed.isBuilt.wellFormed
  have hlowered := Draft.mem_lowered_of_ofRegion wf hd
  obtain ⟨h, hh, hkind, hinputs⟩ := sums.aggregate
  obtain ⟨e, f, top, n', rfl, made⟩ := Draft.exists_made_of_hop? wf hd hlowered hh
  obtain rfl := Option.some.inj (hn.symm.trans made.node)
  exact ⟨h, e, f, top, hkind, hinputs, made⟩

/-- A sum along rows reads the node at which the chain ends. -/
theorem SumsChain.output_row (sums : SumsChain g memo .row x steps root)
    (hn : d.node? root = some n) :
    ∃ a, d.node? (RowStep.top x steps) = some a ∧ d.table.operands n = [a] := by
  obtain ⟨h, e, f, top, hkind, hinputs, made⟩ := sums.exists_made typed hd hn
  have becomes : Becomes g d h f := made.becomes
  cases becomes with
  | @rowSum _ a _ ha _ _ =>
    obtain ⟨y, hy, ha⟩ := Draft.operand_eq_ok_iff.1 ha
    obtain rfl : RowStep.top x steps = y := by simpa [Hop.input?, hinputs] using hy
    obtain ⟨a', ⟨rfl, _⟩, htop⟩ := made.computes
    obtain ⟨k, hk, hop⟩ := made.exists_node htop
    refine ⟨a', ha, ?_⟩
    rw [NodeTable.operands_of_node? hk, hop, NodeTable.unary_op]
    rfl
  | rowSumOfColumn _ _ hx hcolumn =>
    -- The chain ends at a genuine matrix.
    obtain ⟨y, hy, hhy⟩ := Draft.operandHop_eq_ok_iff.1 hx
    obtain rfl : RowStep.top x steps = y := by simpa [Hop.input?, hinputs] using hy
    obtain ⟨l, hl, hgenuine⟩ := sums.chain.isGenuineMatrix typed sums.genuine
    obtain rfl := Option.some.inj (hl.symm.trans hhy)
    exact absurd hcolumn (Hop.cols_ne_one_of_isGenuineMatrix hgenuine)
  | _ kind => simp [hkind] at kind

/-- A sum along columns is another node than that of the last step, and reads the same two nodes. -/
theorem SumsChain.output_col (sums : SumsChain g memo .col x (s :: rest) root)
    (hn : d.node? root = some n) :
    ∃ last, d.node? s.hop = some last ∧ n ≠ last ∧ d.table.operands n = d.table.operands last := by
  obtain ⟨h, e, f, top, hkind, hinputs, made⟩ := sums.exists_made typed hd hn
  have becomes : Becomes g d h f := made.becomes
  cases becomes with
  | @columnSum last _ ha =>
    obtain ⟨y, hy, hlast⟩ := Draft.operand_eq_ok_iff.1 ha
    obtain rfl : s.hop = y := by simpa [Hop.input?, hinputs, RowStep.top] using hy
    obtain ⟨k, op, a, b, m, hk, hop, _⟩ :=
      sums.scalesRowOf typed hd (List.suffix_refl _) hlast
    have computes := made.computes
    rw [sumColumns_of_rowScalar hk hop] at computes
    obtain ⟨_, _, ⟨rfl, _⟩, ⟨rfl, _⟩, htop⟩ := computes
    obtain ⟨c, hc, hsum⟩ := made.exists_node htop
    rw [NodeTable.binary_op] at hsum
    refine ⟨last, hlast, ?_, ?_⟩
    · rintro rfl
      obtain rfl := Option.some.inj (hk.symm.trans hc)
      simp [hop] at hsum
    · rw [NodeTable.operands_of_node? hc, NodeTable.operands_of_node? hk, hop, hsum]
      rfl
  | _ kind => simp [hkind] at kind

/-- A sum along rows takes the whole chain. -/
theorem SumsChain.chainBody_row (sums : SumsChain g memo .row x steps root)
    (hn : d.node? root = some n) : ChainBody d .row x steps n := by
  obtain ⟨a, ha, hoperands⟩ := sums.output_row typed hd hn
  have hbelow : Dag.Reaches d.table.operands n a := .single (by simp [hoperands])
  obtain ⟨hstart, hsteps⟩ := sums.reachesHop typed hd (List.suffix_refl _) ha
  refine ⟨hstart.head hbelow, fun s hs => (hsteps s hs).2.head hbelow, fun y hy => ?_⟩
  obtain ⟨s, hs, rfl⟩ := List.mem_map.1 hy
  exact ⟨fun _ => hy, fun _ => (hsteps s hs).1.head hbelow⟩

/-- A sum along columns takes what the last step is made from, and not its node. -/
theorem SumsChain.chainBody_col (sums : SumsChain g memo .col x (s :: rest) root)
    (hn : d.node? root = some n) : ChainBody d .col x (s :: rest) n := by
  have wf := typed.isBuilt.wellFormed
  obtain ⟨last, hlast, hne, hsame⟩ := sums.output_col typed hd hn
  have hsuffix := List.suffix_refl (s :: rest)
  obtain ⟨k, op, a, b, m, hk, hop, ha, hm, hcell⟩ := sums.scalesRowOf typed hd hsuffix hlast
  have hoperands : d.table.operands n = [a, b] := by
    rw [hsame, NodeTable.operands_of_node? hk, hop]
    rfl
  have hrow : Dag.Reaches d.table.operands n a := .single (by simp [hoperands])
  have hcell : Dag.Reaches d.table.operands n m := .head (by simp [hoperands]) hcell
  obtain ⟨hstart, hsteps⟩ := sums.reachesHop typed hd (List.suffix_cons s rest) ha
  have hnot : ¬ ReachesHop d n s.hop := by
    rintro ⟨last', hlast', hreaches⟩
    obtain rfl := Option.some.inj (hlast.symm.trans hlast')
    -- What the sum reads comes before the node of the last step.
    obtain ⟨c, hc, hreaches⟩ := (Dag.reaches_iff_child.1 hreaches).resolve_left hne.symm
    have acc := Draft.accounted_of_ofRegion wf hd
    have desc := acc.laid.table.descendingFrom (acc.laid.node hlast)
    rw [hsame] at hc
    have hlt : c < last := desc last .refl c hc
    exact absurd ((desc.child hc).le hreaches) (Nat.not_le.2 hlt)
  refine ⟨hstart.head hrow, fun s' hs' => ?_, fun y hy => ?_⟩
  · rcases List.mem_cons.1 hs' with rfl | hs'
    · exact ⟨m, hm, hcell⟩
    · exact (hsteps s' hs').2.head hrow
  · rcases List.mem_cons.1 hy with rfl | hy
    · have hnodup := (sums.chain.nodup wf).1
      exact iff_of_false hnot (List.nodup_cons.1 hnodup).1
    · obtain ⟨s', hs', rfl⟩ := List.mem_map.1 hy
      exact iff_of_true ((hsteps s' hs').1.head hrow) hy

theorem SumsChain.chainBody (sums : SumsChain g memo direction x steps root)
    (hn : d.node? root = some n) : ChainBody d direction x steps n := by
  cases direction with
  | row => exact sums.chainBody_row typed hd hn
  | col =>
    cases steps with
    | nil => exact absurd rfl sums.nonempty
    | cons s rest => exact sums.chainBody_col typed hd hn
  | rowCol => exact absurd rfl sums.line

end Sum

/-! ## The plan for a chain -/

theorem keptSteps_suffix : keptSteps direction steps <:+ steps := by
  unfold keptSteps
  split
  · exact List.suffix_refl _
  · exact List.tail_suffix _

section Planned

variable (sums : SumsChain g memo direction x steps root) (typed : g.IsTyped)
  (hd : Draft.ofRegion .rowAgg g memo config table root = .ok d)
  (hplan : RowAgg.plan g d root = .ok plan)
include sums typed hd hplan

/-- The hops that own a temporary row are those of the steps that are kept. -/
theorem SumsChain.mem_hops_owners_iff :
    y ∈ (owners d plan).map (·.hop) ↔ y ∈ (keptSteps direction steps).map (·.hop) := by
  have wf := typed.isBuilt.wellFormed
  obtain ⟨laidOver, _⟩ := of_plan_eq_ok hplan
  have body := sums.chainBody typed hd laidOver.output
  have rowsOf := rowsOf_owners wf hd hplan
  constructor
  · intro hy
    obtain ⟨b, hb, rfl⟩ := List.mem_map.1 hy
    obtain ⟨hmem, hreaches, _⟩ := rowsOf.mem_iff.1 hb
    obtain ⟨_, hregion, h, op, _, hh, hkind, _⟩ := rowsOf.lowered hb
    have hin : b.hop ∈ steps.map (·.hop) := by
      refine (sums.inRegion hregion).resolve_left fun hroot => ?_
      obtain ⟨h', hh', hsum, _⟩ := sums.aggregate
      obtain rfl := Option.some.inj (hh.symm.trans (hroot ▸ hh'))
      simp [hkind] at hsum
    have hnode := (Draft.accounted_of_ofRegion wf hd).node?_of_mem hmem
    exact (body.hops b.hop hin).1 ⟨b.node, hnode, laidOver.table ▸ hreaches⟩
  · intro hy
    have hin := (keptSteps_suffix.map (·.hop)).subset hy
    obtain ⟨n, hn, hreaches⟩ := (body.hops y hin).2 hy
    obtain ⟨b, hb, hhop, rfl⟩ := Draft.exists_mem_of_node? hn
    obtain ⟨s, hs, rfl⟩ := List.mem_map.1 hin
    obtain ⟨rest, hsuffix, _⟩ := sums.chain.of_mem hs
    have hfills := (sums.scalesRowOf typed hd hsuffix hn).fillsRow
    refine List.mem_map.2 ⟨b, rowsOf.mem_iff.2 ⟨hb, ?_⟩, hhop⟩
    rw [Plan.FillsRow, laidOver.table]
    exact ⟨hreaches, hfills⟩

/-- The kernel keeps a temporary row for each of these steps. -/
theorem SumsChain.form : plan.form = .rowAgg (keptSteps direction steps).length := by
  have wf := typed.isBuilt.wellFormed
  have rowsOf := rowsOf_owners wf hd hplan
  have hkept : ((keptSteps direction steps).map (·.hop)).Nodup :=
    (keptSteps_suffix.map _).sublist.nodup (sums.chain.nodup wf).1
  have perm : ((owners d plan).map (·.hop)).Perm ((keptSteps direction steps).map (·.hop)) :=
    (List.perm_ext_iff_of_nodup rowsOf.nodup_hops hkept).2 fun _ =>
      sums.mem_hops_owners_iff typed hd hplan
  rw [rowsOf.form, ← List.length_map (·.hop), perm.length_eq, List.length_map]

/-- The kernel reads what the chain reads, but for the literals that are written into it. -/
theorem SumsChain.mem_inputs_iff : y ∈ plan.inputs ↔
    y ∈ x :: steps.map (·.operand) ∧ (config.compileLiterals && (g.constant? y).isSome) = false := by
  have wf := typed.isBuilt.wellFormed
  obtain ⟨laidOver, _⟩ := of_plan_eq_ok hplan
  have acc := Draft.accounted_of_ofRegion wf hd
  rw [(laysOut_of_plan wf hd hplan).mem_iff, laidOver.mem_hopsRead_iff wf hd]
  constructor
  · intro hreads
    have hboundary := laidOver.mem_boundary_of_reads wf hd hreads
    obtain ⟨h, n, hh, hn, hnode⟩ := laidOver.bindsInput_of_reads wf hd hreads
    obtain ⟨h', n', hh', hn', hnode'⟩ := acc.node?_of_mem_boundary hboundary
    obtain rfl := Option.some.inj (hh.symm.trans hh')
    obtain rfl := Option.some.inj (hn.symm.trans hn')
    refine ⟨sums.borders (Draft.borders_of_mem_boundary wf hd hboundary), ?_⟩
    rw [Graph.constant?_of_hop? hh]
    exact Draft.boundaryNode_eq_data_iff.1 (Option.some.inj (hnode'.symm.trans hnode))
  · rintro ⟨hy, hliteral⟩
    have body := sums.chainBody typed hd laidOver.output
    have hreaches : ReachesHop d plan.output y := by
      rcases List.mem_cons.1 hy with rfl | hy
      · exact body.start
      · obtain ⟨s, hs, rfl⟩ := List.mem_map.1 hy
        exact body.operands s hs
    obtain ⟨n, hn, hreaches⟩ := hreaches
    have hboundary := sums.mem_boundary typed hd ⟨n, hn⟩ hy
    obtain ⟨h, n', hh, hn', hnode⟩ := acc.node?_of_mem_boundary hboundary
    obtain rfl := Option.some.inj (hn.symm.trans hn')
    rw [Graph.constant?_of_hop? hh] at hliteral
    rw [Draft.boundaryNode_eq_data_iff.2 hliteral] at hnode
    refine ⟨n, _, laidOver.table ▸ hreaches, laidOver.table ▸ hnode, ?_⟩
    rw [← wf.id_eq hh]
    rfl

omit hplan in
/-- The main input, if there is one, is a hop of the chain. -/
theorem SumsChain.mem_of_main
    (hmain : d.lowered.reverse.findSome? (mainOf? g) = some y) : y ∈ steps.map (·.hop) := by
  have wf := typed.isBuilt.wellFormed
  obtain ⟨id, hid, hmain⟩ := List.exists_of_findSome?_eq_some hmain
  have hid := List.mem_reverse.1 hid
  obtain ⟨h, e, d₀, f, rfl, hregion, _, ready, _⟩ := Draft.ofRegion_lowered wf hd hid
  rcases sums.kind_cases (sums.inRegion hregion) ready.hop with ⟨hroot, hkind⟩ | ⟨op, hkind⟩
  · have hf : RowAgg.fragment g d₀ h = .ok f := ready.fragment
    rw [mainOf?_eq wf ready.hop hf] at hmain
    obtain ⟨h', hh', _, hinputs⟩ := sums.aggregate
    obtain rfl := Option.some.inj (ready.hop.symm.trans (hroot ▸ hh'))
    split at hmain
    · obtain rfl : RowStep.top x steps = y := by simpa [Hop.input?, hinputs] using hmain
      exact RowStep.top_mem sums.nonempty
    · simp at hmain
  · simp [mainOf?, ready.hop, hkind] at hmain

/-- The main input of a chain is none of the inputs, so these are ordered as without one. -/
theorem SumsChain.pairwise_inputs : plan.inputs.Pairwise (g.Outranks none) := by
  have wf := typed.isBuilt.wellFormed
  have same {y : HopId} (hy : y ∈ plan.inputs) :
      g.inputPriority (d.lowered.reverse.findSome? (mainOf? g)) y = g.inputPriority none y := by
    refine Graph.inputPriority_of_ne wf fun hmain => ?_
    have hread := ((sums.mem_inputs_iff typed hd hplan).1 hy).1
    exact (sums.not_inside wf hread).2 (sums.mem_of_main typed hd hmain)
  refine (laysOut_of_plan wf hd hplan).sorted.imp_of_mem fun hy hz hle => ?_
  rw [Graph.Outranks, same hy, same hz] at hle
  exact hle

end Planned

end RowAgg

/-- In a typed graph the sum of a chain of row operators has a plan, whatever the operands are. Under
a sum along rows each step fills a temporary row, and under a sum along columns each but the last.
The inputs are the matrix and the operands, without the literals that are written into the kernel,
in the order of priority that they have without a main input. -/
theorem Plan.rowAgg_chain {g : Graph} (typed : g.IsTyped) {memo : Memo} (config : Config)
    (table : NodeTable) {direction : Direction} {x root : HopId} {steps : List RowAgg.RowStep}
    (sums : RowAgg.SumsChain g memo direction x steps root) :
    ∃ plan, Plan.construct .rowAgg g memo config table root = .ok plan ∧
      plan.form = .rowAgg (if direction = .row then steps.length else steps.length - 1) ∧
      plan.inputs.Perm ((x :: steps.map (·.operand)).filter fun y =>
        !(config.compileLiterals && (g.constant? y).isSome)) ∧
      plan.inputs.Pairwise (g.Outranks none) := by
  obtain ⟨plan, hconstruct⟩ := sums.exists_plan typed config table
  obtain ⟨d, hd, hplan⟩ := bind_eq_ok_iff.1 hconstruct
  have hplan : RowAgg.plan g d root = .ok plan := hplan
  refine ⟨plan, hconstruct, ?_, ?_, sums.pairwise_inputs typed hd hplan⟩
  · rw [sums.form typed hd hplan, RowAgg.keptSteps]
    split
    · rfl
    · rw [List.length_tail]
  · have nodup := (RowAgg.laysOut_of_plan typed.isBuilt.wellFormed hd hplan).nodup
    refine (List.perm_ext_iff_of_nodup nodup (sums.distinct.filter _)).2 fun y => ?_
    rw [sums.mem_inputs_iff typed hd hplan, List.mem_filter, Bool.not_eq_true']

/-- A matrix that is multiplied by a literal, divided by a column, and compared with a matrix of
unknown extents and a scalar, and the sums of the result along rows and along columns. -/
def Plan.compared : Graph :=
  Graph.empty.build [.data "X" 100 20, .literal (.int 2), .binary .mult 0 1, .data "v" 100 1,
    .binary .div 2 3, .dataUnknown "Y", .binary .less 4 5, .scalar "s", .binary .greaterEqual 6 7,
    .rowSums 8, .colSums 8]

/-- The memo in which each of the sums has the whole chain in its region. -/
def Plan.comparedMemo : Memo :=
  ⟨[(2, [.ofRefs .rowAgg []]), (4, [.ofRefs .rowAgg [0]]), (6, [.ofRefs .rowAgg [0]]),
    (8, [.ofRefs .rowAgg [0]]), (9, [.ofRefs .rowAgg [0]]), (10, [.ofRefs .rowAgg [0]])], by decide⟩

/-- The steps of the chain, from the last to the first. -/
def Plan.comparedSteps : List RowAgg.RowStep := [⟨8, 7⟩, ⟨6, 5⟩, ⟨4, 3⟩, ⟨2, 1⟩]

theorem Plan.rowAgg_chain_compared :
    compared.IsTyped ∧
      RowAgg.SumsChain compared comparedMemo .row 0 comparedSteps 9 ∧
      RowAgg.SumsChain compared comparedMemo .col 0 comparedSteps 10 ∧
      (∃ plan, Plan.construct .rowAgg compared comparedMemo .default .empty 9 = .ok plan ∧
        plan.form = .rowAgg 4 ∧ plan.inputs.Perm [0, 7, 5, 3]) ∧
      ∃ plan, Plan.construct .rowAgg compared comparedMemo ⟨false, 256⟩ .empty 10 = .ok plan ∧
        plan.form = .rowAgg 3 ∧ plan.inputs.Perm [0, 7, 5, 3, 1] := by
  have typed : compared.IsTyped := ⟨_, by decide, rfl⟩
  have chain : RowAgg.RowChain compared comparedMemo 0 comparedSteps :=
    .step (.step (.step (.step .nil ⟨_, .mult, rfl, rfl, by decide, rfl⟩ (by decide))
      ⟨_, .div, rfl, rfl, by decide, rfl⟩ (by decide))
      ⟨_, .less, rfl, rfl, by decide, rfl⟩ (by decide))
      ⟨_, .greaterEqual, rfl, rfl, by decide, rfl⟩ (by decide)
  have rows : RowAgg.SumsChain compared comparedMemo .row 0 comparedSteps 9 :=
    ⟨by decide, chain, ⟨_, rfl, by decide⟩, ⟨_, rfl, rfl, rfl⟩, by decide, by decide, by decide,
      by decide⟩
  have cols : RowAgg.SumsChain compared comparedMemo .col 0 comparedSteps 10 :=
    ⟨by decide, chain, ⟨_, rfl, by decide⟩, ⟨_, rfl, rfl, rfl⟩, by decide, by decide, by decide,
      by decide⟩
  obtain ⟨plan, hplan, hform, hinputs, _⟩ := rowAgg_chain typed .default .empty rows
  obtain ⟨plan', hplan', hform', hinputs', _⟩ := rowAgg_chain typed ⟨false, 256⟩ .empty cols
  exact ⟨typed, rows, cols, ⟨plan, hplan, hform, hinputs⟩, plan', hplan', hform', hinputs'⟩

end OpFusion
