import OpFusion.Proofs.Plan.ProductOperands

/-!
# Rows added below the output

A multiply that is no product of factors adds scaled rows to the output row. The outer-product
template ends a region at such a multiply or, if the first consumer of the multiply is a transpose,
leaves the end to that. But then the multiply stays open to its other consumers as well, and a region
may go on through one of them. Whether it does decides alone if a row is added anywhere below the
output of the kernel (`Plan.outerProduct_addsRow_below_output_iff`).
-/

namespace OpFusion

open Kernel

/-- The operation adds a scaled row to the output row. -/
def Kernel.NodeOp.addsRow : NodeOp → Bool
  | .binary (.rowAdd .mult) _ _ => true
  | _ => false

theorem Kernel.NodeOp.addsRow_iff {op : NodeOp} :
    op.addsRow = true ↔ ∃ a b, op = .binary (.rowAdd .mult) a b := by
  unfold addsRow
  split
  · simp
  · rename_i hother
    simpa using hother

/-- An operation of a kind lies below the node of a hop, that of the node itself not counted. -/
def Draft.HasBelow (d : Draft) (p : NodeOp → Bool) (x : HopId) : Prop :=
  ∃ n, d.node? x = some n ∧ d.table.HasBelow p n

theorem Draft.hasBelow_iff_of_node? {d : Draft} {p : NodeOp → Bool} {x : HopId} {n : NodeId}
    (hn : d.node? x = some n) : d.HasBelow p x ↔ d.table.HasBelow p n := by
  constructor
  · rintro ⟨n', hn', hbelow⟩
    rwa [Option.some.inj (hn.symm.trans hn')]
  · exact fun hbelow => ⟨n, hn, hbelow⟩

namespace OuterProduct

/-- The hop is left to the loop of the kernel: a transpose, or an aggregate over everything. -/
def isPassed (g : Graph) (id : HopId) : Bool :=
  (g.hop? id).any fun h =>
    match h.kind with
    | .reorg op => op = .transpose
    | .aggUnary _ direction => direction = .rowCol
    | _ => false

variable {memo : Memo} {g : Graph} {config : Config} {done : List HopId} {table : NodeTable}
  {d : Draft} {plan : Plan} {root id x y z : HopId} {h : Hop} {e : MemoEntry} {f : Fragment}
  {top n a : NodeId} {p : NodeOp → Bool} {i : Nat}

/-! ## What hops become -/

/-- The hops that become nodes which are there already are those left to the loop. -/
theorem Becomes.isPassed_iff (hh : g.hop? h.id = some h) (becomes : Becomes g d h f) :
    isPassed g h.id = true ↔ ∃ a, f = .node a := by
  cases becomes with
  | passed hkind => rcases hkind with hkind | hkind <;> simp [isPassed, hh, hkind]
  | unary hkind | cells hkind | dotProduct hkind | addedRows hkind => simp [isPassed, hh, hkind]

/-- Only a multiply that is no product of factors adds rows. -/
theorem Becomes.addsRow_cases (becomes : Becomes g d h f) :
    f.Admits (fun op => !op.addsRow) ∨ h.kind = .matmul ∧ g.isOuterProductLike h.id = false ∧
      ∃ a b, f = .binary (.rowAdd .mult) (.node a) (.node b) := by
  have read {a : NodeId} : (readVector d.table a).Admits fun op => !op.addsRow :=
    admits_readVector fun _ _ => rfl
  cases becomes with
  | unary => exact .inl ⟨fun _ => rfl, trivial⟩
  | cells => exact .inl ⟨fun _ _ => rfl, read, read⟩
  | dotProduct => exact .inl ⟨fun _ _ => rfl, trivial, trivial⟩
  | addedRows hkind _ _ _ hother => exact .inr ⟨hkind, hother, _, _, rfl⟩
  | passed => exact .inl trivial

/-- A multiply that is no product of factors adds rows. -/
theorem has_addsRow_of_matmul (wf : g.WellFormed)
    (hd : Draft.ofRegion .outerProduct g memo config table root = .ok d) (hx : x ∈ d.lowered)
    (hm : g.isMatmul x = true) (hother : g.isOuterProductLike x = false) :
    d.Has NodeOp.addsRow x := by
  obtain ⟨h, e, f, top, n, rfl, made⟩ := Draft.exists_made wf hd hx
  have hkind : h.kind = .matmul := by
    rw [Graph.isMatmul, made.hop, Option.any_some] at hm
    exact of_decide_eq_true hm
  have becomes : Becomes g d h f := made.becomes
  cases becomes with
  | addedRows =>
    obtain ⟨a, b, _, _, htop⟩ := made.computes
    exact ⟨n, made.node, made.has_iff.2 ((NodeTable.has_iff htop).2 (.inl rfl))⟩
  | dotProduct _ hlike =>
    rw [hlike] at hother
    exact Bool.noConfusion hother
  | passed hkind' =>
    rw [hkind] at hkind'
    rcases hkind' with hkind' | hkind' <;> exact Operator.noConfusion hkind'
  | unary hkind' | cells hkind' =>
    rw [hkind] at hkind'
    exact Operator.noConfusion hkind'

/-- If a row is added below the node of a hop, it is added below one of its operands or there. -/
theorem exists_operand_of_hasBelow (wf : g.WellFormed)
    (made : Draft.Made .outerProduct g memo d h e f top n)
    (hbelow : d.table.HasBelow NodeOp.addsRow n) :
    ∃ i z, Template.operandHop? .outerProduct g h i = some z ∧ d.Has NodeOp.addsRow z := by
  rcases Becomes.addsRow_cases made.becomes with hadmits | ⟨_, _, a, b, rfl⟩
  · exact exists_operand wf made hadmits hbelow.has
  · -- The multiply itself adds rows, so only its operands are left.
    obtain ⟨x, y, ⟨rfl, _⟩, ⟨rfl, _⟩, htop⟩ := made.computes
    obtain ⟨c, hc, hhas⟩ := made.sameOp.hasBelow_iff.2 hbelow
    rw [NodeTable.operands_of_node? htop, NodeTable.binary_op] at hc
    obtain ⟨i, hi⟩ := (mem_leaves_iff wf made.hop made.becomes).1 hc
    obtain ⟨z, hz, hn⟩ := Template.operandNode_eq_ok_iff.1 hi
    exact ⟨i, z, hz, c, hn, hhas⟩

/-- Rows are added by lowered multiplies that are no products of factors. -/
theorem exists_matmul_of_has_addsRow (wf : g.WellFormed)
    (hd : Draft.ofRegion .outerProduct g memo config table root = .ok d) :
    ∀ x, d.Has NodeOp.addsRow x →
      ∃ y ≤ x, y ∈ d.lowered ∧ g.isMatmul y = true ∧ g.isOuterProductLike y = false := by
  intro x
  induction x using Nat.strong_induction_on with
  | _ x ih =>
    rintro ⟨n, hn, hhas⟩
    rcases Draft.mem_lowered_or_mem_boundary ⟨n, hn⟩ with hlowered | hboundary
    · obtain ⟨h, e, f, top, n', rfl, made⟩ := Draft.exists_made wf hd hlowered
      obtain rfl : n = n' := Option.some.inj (hn.symm.trans made.node)
      rcases Becomes.addsRow_cases made.becomes with hadmits | ⟨hkind, hother, _⟩
      · obtain ⟨i, z, hz, hhas⟩ := exists_operand wf made hadmits hhas
        have hlt := Template.operandHop?_lt wf made.hop hz
        obtain ⟨y, hle, rest⟩ := ih z hlt hhas
        exact ⟨y, Nat.le_of_lt (Nat.lt_of_le_of_lt hle hlt), rest⟩
      · refine ⟨h.id, Nat.le_refl _, hlowered, ?_, hother⟩
        rw [Graph.isMatmul, made.hop, Option.any_some]
        exact decide_eq_true hkind
    · -- A kernel input or a literal has nothing below it and adds nothing.
      obtain ⟨h, n', _, hn', hnode⟩ :=
        (Draft.accounted_of_ofRegion wf hd).node?_of_mem_boundary hboundary
      obtain rfl : n = n' := Option.some.inj (hn.symm.trans hn')
      have hown := (Draft.has_iff_of_boundaryNode hnode).1 hhas
      rcases Draft.boundaryNode_cases config h with heq | ⟨value, heq⟩ <;>
        simp [heq, NodeOp.addsRow] at hown

/-! ## Up the region -/

section Region

variable (explored : memo.ExploredBy g config done) (typed : g.IsTyped)
  (hd : Draft.ofRegion .outerProduct g memo config table root = .ok d)

include explored typed hd

/-- A hop that is left to the loop has the operation of the hop that it refers to. -/
theorem sameOp_of_passed (hx : memo.InRegion .outerProduct g root x)
    (hxy : memo.Refers .outerProduct g x y) (hpassed : isPassed g x = true) :
    ∃ a b, d.node? y = some a ∧ d.node? x = some b ∧ d.table.SameOp a b := by
  have wf := typed.isBuilt.wellFormed
  obtain ⟨h, e, f, top, n, rfl, made⟩ :=
    Draft.exists_made wf hd ((mem_lowered_iff explored typed hd).2 hx)
  obtain ⟨c, rfl⟩ := (Becomes.isPassed_iff made.hop made.becomes).1 hpassed
  obtain ⟨i, a, b, ha, hb, same⟩ := exists_operandNode_of_refers explored typed hd hx made.hop hxy
  have hleaf := (mem_leaves_iff wf made.hop made.becomes).2 ⟨i, ha⟩
  obtain rfl : a = c := List.mem_singleton.1 hleaf
  exact ⟨b, n, hb, made.node, same.symm.trans made.sameOp_of_node⟩

/-- Any other hop has below its node what is found at the hop that it refers to. -/
theorem hasBelow_of_has (hx : memo.InRegion .outerProduct g root x)
    (hxy : memo.Refers .outerProduct g x y) (hpassed : isPassed g x = false) (hhas : d.Has p y) :
    d.HasBelow p x := by
  have wf := typed.isBuilt.wellFormed
  obtain ⟨h, e, f, top, n, rfl, made⟩ :=
    Draft.exists_made wf hd ((mem_lowered_iff explored typed hd).2 hx)
  have hnew (c : NodeId) : f ≠ .node c := by
    intro hf
    rw [(Becomes.isPassed_iff made.hop made.becomes).2 ⟨c, hf⟩] at hpassed
    exact Bool.noConfusion hpassed
  obtain ⟨i, a, b, ha, hb, same⟩ := exists_operandNode_of_refers explored typed hd hx made.hop hxy
  have hleaf := (mem_leaves_iff wf made.hop made.becomes).2 ⟨i, ha⟩
  have hhas : d.table.Has p a := same.has_iff.2 ((Draft.has_iff_of_node? hb).1 hhas)
  exact ⟨n, made.node, made.sameOp.hasBelow_iff.1 (made.computes.hasBelow_of_leaf hnew hleaf hhas)⟩

/-- What lies below the node of one hop of a region lies below that of every hop above it. -/
theorem hasBelow_of_inRegion (hx : memo.InRegion .outerProduct g root x)
    (hxy : memo.InRegion .outerProduct g x y) (hbelow : d.HasBelow p y) : d.HasBelow p x := by
  induction hxy using Relation.ReflTransGen.head_induction_on with
  | refl => exact hbelow
  | @head x z hxz _ ih =>
    have hbelow := ih (hx.tail hxz)
    cases hpassed : isPassed g x with
    | false =>
      obtain ⟨b, hb, hbelow⟩ := hbelow
      exact hasBelow_of_has explored typed hd hx hxz hpassed ⟨b, hb, hbelow.has⟩
    | true =>
      obtain ⟨a, b, ha, hb, same⟩ := sameOp_of_passed explored typed hd hx hxz hpassed
      have hbelow := (Draft.hasBelow_iff_of_node? ha).1 hbelow
      exact ⟨b, hb, same.hasBelow_iff.1 hbelow⟩

/-! ## Down the region -/

/-- A row that is added below a hop is added by an earlier hop of the region, to which another
refers. -/
theorem exists_refers_of_hasBelow (hx : memo.InRegion .outerProduct g root x)
    (hbelow : d.HasBelow NodeOp.addsRow x) :
    ∃ w y, y < x ∧ memo.InRegion .outerProduct g root w ∧ memo.Refers .outerProduct g w y ∧
      g.isMatmul y = true ∧ g.isOuterProductLike y = false := by
  have wf := typed.isBuilt.wellFormed
  obtain ⟨h, e, f, top, n, rfl, made⟩ :=
    Draft.exists_made wf hd ((mem_lowered_iff explored typed hd).2 hx)
  have hbelow := (Draft.hasBelow_iff_of_node? made.node).1 hbelow
  obtain ⟨i, z, hz, hhas⟩ := exists_operand_of_hasBelow wf made hbelow
  obtain ⟨y, hle, hlowered, hm, hother⟩ := exists_matmul_of_has_addsRow wf hd z hhas
  have hlt : y < h.id := Nat.lt_of_le_of_lt hle (Template.operandHop?_lt wf made.hop hz)
  have hregion := (mem_lowered_iff explored typed hd).1 hlowered
  rcases Relation.reflTransGen_iff_eq_or_transGen.1 hregion with heq | hroot
  · rw [heq] at hlt
    exact absurd (Memo.InRegion.le wf hx) (Nat.not_le.2 hlt)
  · obtain ⟨w, hw, hwy⟩ := Memo.Below.referred hroot
    exact ⟨w, y, hlt, hw, hwy, hm, hother⟩

omit hd in
/-- Where a hop that is left to the loop refers to such a multiply, the region ends. -/
theorem eq_root_of_passed (hx : memo.InRegion .outerProduct g root x)
    (hxy : memo.Refers .outerProduct g x y) (hpassed : isPassed g x = true)
    (hm : g.isMatmul y = true) (hother : g.isOuterProductLike y = false) : x = root := by
  have wf := typed.isBuilt.wellFormed
  rcases Relation.reflTransGen_iff_eq_or_transGen.1 hx with heq | hbelow
  · exact heq
  · exfalso
    obtain ⟨h, hh, hopen⟩ := explored.stillOpen_of_below hbelow
    obtain rfl := wf.id_eq hh
    have hopen : closing g h.id = .stillOpen := hopen
    obtain ⟨h', _, i, hh', _, hy, _⟩ := hxy
    obtain rfl : h = h' := Option.some.inj (hh.symm.trans hh')
    rw [isPassed, hh, Option.any_some] at hpassed
    split at hpassed
    · rename_i op hkind
      obtain rfl : op = .transpose := of_decide_eq_true hpassed
      have hcount := wf.arity hh (n := 1) (by rw [hkind]; rfl)
      have hlt : i < h.inputs.length := (List.getElem?_eq_some_iff.1 hy).1
      obtain rfl : i = 0 := by omega
      rw [closing_of_transpose hh hkind hy hm hother] at hopen
      exact Closing.noConfusion hopen
    · rename_i hkind
      exact closing_of_aggUnary hh hkind hopen
    · exact Bool.noConfusion hpassed

/-- A row is added below the node of the root exactly if a hop that computes something refers to a
multiply that is no product of factors. -/
theorem hasBelow_root_iff :
    d.HasBelow NodeOp.addsRow root ↔
      ∃ x y, memo.InRegion .outerProduct g root x ∧ memo.Refers .outerProduct g x y ∧
        isPassed g x = false ∧ g.isMatmul y = true ∧ g.isOuterProductLike y = false := by
  have wf := typed.isBuilt.wellFormed
  constructor
  · intro hbelow
    obtain ⟨w, y, _, hw, hwy, hm, hother⟩ :=
      exists_refers_of_hasBelow explored typed hd .refl hbelow
    cases hpassed : isPassed g w with
    | false => exact ⟨w, y, hw, hwy, hpassed, hm, hother⟩
    | true =>
      -- The root has the operation of the multiply, so the row is added further below.
      obtain rfl := eq_root_of_passed explored typed hw hwy hpassed hm hother
      obtain ⟨a, b, ha, hb, same⟩ := sameOp_of_passed explored typed hd hw hwy hpassed
      have hbelow := same.hasBelow_iff.2 ((Draft.hasBelow_iff_of_node? hb).1 hbelow)
      obtain ⟨w', y', hlt, hw', hwy', hm', hother'⟩ :=
        exists_refers_of_hasBelow explored typed hd (hw.tail hwy) ⟨a, ha, hbelow⟩
      refine ⟨w', y', hw', hwy', ?_, hm', hother'⟩
      cases hpassed' : isPassed g w' with
      | false => rfl
      | true =>
        obtain rfl := eq_root_of_passed explored typed hw' hwy' hpassed' hm' hother'
        exact absurd (explored.refers_unique typed hwy' hwy) (Nat.ne_of_lt hlt)
  · rintro ⟨x, y, hx, hxy, hpassed, hm, hother⟩
    have hlowered := (mem_lowered_iff explored typed hd).2 (hx.tail hxy)
    have hhas := has_addsRow_of_matmul wf hd hlowered hm hother
    exact hasBelow_of_inRegion explored typed hd .refl hx
      (hasBelow_of_has explored typed hd hx hxy hpassed hhas)

end Region

end OuterProduct

/-- In a typed graph the kernel of an outer-product region adds a row at a node below its output
exactly if a hop of the region other than a transpose or an aggregate over everything refers to a
multiply that is no product of factors. The first consumer of a multiply to which a hop of the region
refers is a transpose. -/
theorem Plan.outerProduct_addsRow_below_output_iff {g : Graph} (typed : g.IsTyped) (config : Config)
    (roots : List HopId) {table : NodeTable} {root : HopId} {plan : Plan}
    (hplan : Plan.construct .outerProduct g (Memo.empty.explore g config roots).1 config table
      root = .ok plan) :
    ((∃ id n a b, Dag.Reaches plan.table.operands plan.output id ∧ plan.table.node? id = some n ∧
        n.op = .binary (.rowAdd .mult) a b ∧ id ≠ plan.output) ↔
      ∃ x y, (Memo.empty.explore g config roots).1.InRegion .outerProduct g root x ∧
        (Memo.empty.explore g config roots).1.Refers .outerProduct g x y ∧
        OuterProduct.isPassed g x = false ∧ g.isMatmul y = true ∧
        g.isOuterProductLike y = false) ∧
    ∀ x y, (Memo.empty.explore g config roots).1.Refers .outerProduct g x y →
      g.isMatmul y = true → g.isOuterProductLike y = false →
      (g.firstParent? y).any (·.isTranspose) = true := by
  have wf := typed.isBuilt.wellFormed
  have explored := Memo.exploredBy_explore wf config roots
  obtain ⟨d, hd, hplan⟩ := bind_eq_ok_iff.1 hplan
  obtain ⟨_, _, _, _, _, laidOver, _⟩ := OuterProduct.of_plan_eq_ok hplan
  obtain ⟨laid, hroot⟩ := laidOver.within (Draft.accounted_of_ofRegion wf hd).laid
  constructor
  · rw [← OuterProduct.hasBelow_root_iff explored typed hd,
      Draft.hasBelow_iff_of_node? laidOver.output, ← laidOver.table,
      NodeTable.hasBelow_iff (laid.descendingFrom hroot)]
    simp only [NodeOp.addsRow_iff]
    constructor
    · rintro ⟨id, n, a, b, reached, hn, hop, hne⟩
      exact ⟨id, n, reached, hn, ⟨a, b, hop⟩, hne⟩
    · rintro ⟨id, n, reached, hn, ⟨a, b, hop⟩, hne⟩
      exact ⟨id, n, a, b, reached, hn, hop, hne⟩
  · intro x y hxy hm hother
    obtain ⟨h, hh, hopen⟩ := explored.stillOpen (explored.hasOpen_of_refers hxy)
    obtain rfl := wf.id_eq hh
    exact OuterProduct.isTranspose_firstParent? hm hother hopen

/-- The right factor scaled by a weighted product of factors, with two consumers: first a transpose,
and then an operator on cells, whose result is summed up: `sum(exp((X * (U %*% t(V))) %*% V))`. -/
def Plan.consumedTwice : Graph :=
  Graph.empty.build [.data "X" 300 300, .data "U" 300 10, .data "V" 300 10, .transpose 2,
    .matmul 1 3, .binary .mult 0 4, .matmul 5 2, .transpose 6, .unary .exp 6, .sum 8]

/-- The plan for that sum. -/
def Plan.ofConsumedTwice : Plan :=
  (Plan.construct .outerProduct consumedTwice (Memo.empty.explore consumedTwice .default [7, 9]).1
    .default .empty 9).toOption.getD ⟨[], .empty, [], 0, .outerProduct .aggregate false⟩

theorem Plan.outerProduct_addsRow_below_output_iff_consumedTwice :
    consumedTwice.IsTyped ∧
      construct .outerProduct consumedTwice (Memo.empty.explore consumedTwice .default [7, 9]).1
        .default .empty 9 = .ok ofConsumedTwice ∧
      ∃ x y, (Memo.empty.explore consumedTwice .default [7, 9]).1.Refers .outerProduct
          consumedTwice x y ∧ OuterProduct.isPassed consumedTwice x = false ∧
        consumedTwice.isMatmul y = true ∧ consumedTwice.isOuterProductLike y = false ∧
        (consumedTwice.firstParent? y).any (·.isTranspose) = true := by
  have typed : consumedTwice.IsTyped := ⟨_, by decide, rfl⟩
  have hplan : construct .outerProduct consumedTwice
      (Memo.empty.explore consumedTwice .default [7, 9]).1 .default .empty 9 =
        .ok ofConsumedTwice := by decide +kernel
  obtain ⟨hiff, hfirst⟩ := outerProduct_addsRow_below_output_iff typed .default [7, 9] hplan
  have hnode : ofConsumedTwice.table.node? 7 = some ⟨.binary (.rowAdd .mult) 5 3, .matrix,
      ⟨some 300, some 10⟩⟩ := by decide +kernel
  have reached : Dag.Reaches ofConsumedTwice.table.operands ofConsumedTwice.output 7 :=
    .single (by decide +kernel)
  obtain ⟨x, y, _, hxy, hpassed, hm, hother⟩ :=
    hiff.1 ⟨7, _, 5, 3, reached, hnode, rfl, by decide +kernel⟩
  exact ⟨typed, hplan, x, y, hxy, hpassed, hm, hother, hfirst x y hxy hm hother⟩

/-- The multiply adds its rows below the operator on cells, which is the output. -/
theorem Plan.consumedTwice_addsRow_below_output :
    consumedTwice.IsTyped ∧
      construct .outerProduct consumedTwice (Memo.empty.explore consumedTwice .default [7, 9]).1
        .default .empty 9 = .ok ofConsumedTwice ∧
      Dag.Reaches ofConsumedTwice.table.operands ofConsumedTwice.output 7 ∧
      (ofConsumedTwice.table.node? 7).map (·.op) = some (.binary (.rowAdd .mult) 5 3) ∧
      7 ≠ ofConsumedTwice.output ∧
      (ofConsumedTwice.table.node? ofConsumedTwice.output).map (·.op) = some (.unary .exp 7) :=
  ⟨⟨_, by decide, rfl⟩, by decide +kernel, .single (by decide +kernel), by decide +kernel,
    by decide +kernel, by decide +kernel⟩

end OpFusion
