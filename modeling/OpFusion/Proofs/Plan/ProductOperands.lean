import OpFusion.Proofs.Plan.LoweredNodes
import OpFusion.Proofs.Plan.ProductInputs

/-!
# Operands of outer-product kernels

The dot product of an outer-product kernel reads what is transposed wherever a factor is a
transpose, on either side. The factors that are passed are found in another way, and there only the
right one is taken from below a transpose. So a left factor that is a transpose is passed in vain:
the body reads another input in its place (`Plan.outerProduct_operands`).

An operation lies below the node of every hop of a region if it lies below one of them
(`has_of_inRegion`), since each hop of the region is lowered from the next one, or, where a multiply
takes over a transpose in the region, from the one after that.
-/

namespace OpFusion

open Kernel

/-- The operation contracts two rows. -/
def Kernel.NodeOp.isDotProduct : NodeOp → Bool
  | .binary .dotProduct _ _ => true
  | _ => false

namespace OuterProduct

variable {memo : Memo} {g : Graph} {config : Config} {done : List HopId} {table : NodeTable}
  {d : Draft} {plan : Plan} {root id x y z : HopId} {h : Hop} {e : MemoEntry} {f : Fragment}
  {top n a : NodeId} {p : NodeOp → Bool} {i : Nat}

/-! ## Leaves are operands -/

theorem admits_readVector {t : NodeTable} {allowed : NodeOp → Bool}
    (hallowed : ∀ prim x, allowed (.unary prim x) = true) : (readVector t a).Admits allowed := by
  unfold readVector
  split
  · exact ⟨hallowed _, trivial⟩
  · trivial

/-- The nodes that a hop is lowered from are its operand nodes. -/
theorem mem_leaves_iff (wf : g.WellFormed) (hh : g.hop? h.id = some h) (becomes : Becomes g d h f) :
    a ∈ f.leaves ↔ ∃ i, Template.operandNode .outerProduct g d h i = .ok a := by
  have operand (hm : h.isMatmul = false) {i : Nat} {b : NodeId} (hb : d.operand h i = .ok b) :
      Template.operandNode .outerProduct g d h i = .ok b := by
    rwa [Template.operandNode_of_not_matmul hm]
  -- A hop is lowered from one operand node or from two, and has as many inputs.
  have one {b : NodeId} (harity : h.kind.arity = some 1)
      (hb : Template.operandNode .outerProduct g d h 0 = .ok b) :
      a ∈ [b] ↔ ∃ i, Template.operandNode .outerProduct g d h i = .ok a := by
    obtain ⟨x, hx, hn⟩ := Template.operandNode_eq_ok_iff.1 hb
    simp only [Template.operandNode_eq_ok_iff,
      Template.exists_operandHop?_iff_one wf hh harity hx, hn, List.mem_singleton,
      Option.some.injEq, @eq_comm _ a]
  have two {b c : NodeId} (harity : h.kind.arity = some 2)
      (hb : Template.operandNode .outerProduct g d h 0 = .ok b)
      (hc : Template.operandNode .outerProduct g d h 1 = .ok c) :
      a ∈ [b, c] ↔ ∃ i, Template.operandNode .outerProduct g d h i = .ok a := by
    obtain ⟨x, hx, hn⟩ := Template.operandNode_eq_ok_iff.1 hb
    obtain ⟨y, hy, hm⟩ := Template.operandNode_eq_ok_iff.1 hc
    simp only [Template.operandNode_eq_ok_iff,
      Template.exists_operandHop?_iff_two wf hh harity hx hy, hn, hm, List.mem_pair,
      Option.some.injEq, @eq_comm _ a]
  cases becomes with
  | unary hkind _ hb =>
    have hm : h.isMatmul = false := by simp [Hop.isMatmul, hkind]
    exact one (by rw [hkind]; rfl) (operand hm hb)
  | cells hkind _ hb hc =>
    have hm : h.isMatmul = false := by simp [Hop.isMatmul, hkind]
    simp only [Fragment.leaves, leaves_readVector]
    exact two (by rw [hkind]; rfl) (operand hm hb) (operand hm hc)
  | dotProduct hkind _ hb hc =>
    have hm : h.isMatmul = true := by simp [Hop.isMatmul, hkind]
    exact two (by rw [hkind]; rfl)
      (Template.operandNode_of_factor hh hm (by decide) hb)
      (Template.operandNode_of_factor hh hm (by decide) hc)
  | @addedRows i j b c hkind hb hc hpositions =>
    have hm : h.isMatmul = true := by simp [Hop.isMatmul, hkind]
    have harity : h.kind.arity = some 2 := by
      rw [hkind]
      rfl
    rcases hpositions with ⟨rfl, rfl⟩ | ⟨rfl, rfl⟩
    · exact two harity (Template.operandNode_of_factor hh hm (by decide) hb)
        (Template.operandNode_of_factor hh hm (by decide) hc)
    · refine Iff.trans ?_ (two harity (Template.operandNode_of_factor hh hm (by decide) hc)
        (Template.operandNode_of_factor hh hm (by decide) hb))
      simp [Fragment.leaves, or_comm]
  | passed hkind hb =>
    have hm : h.isMatmul = false := by rcases hkind with hkind | hkind <;> simp [Hop.isMatmul, hkind]
    refine one ?_ (operand hm hb)
    rcases hkind with hkind | hkind <;> rw [hkind] <;> rfl

/-- The product of factors becomes a dot product, and no other hop does. -/
theorem Becomes.cases (allowed : NodeOp → Bool) (hh : g.hop? h.id = some h)
    (becomes : Becomes g d h f)
    (hallowed : ∀ op, op.isData = false → op.isDotProduct = false → allowed op = true) :
    (g.isOuterProductLike h.id = true ∧ ∃ a b, d.factor g h 0 = .ok a ∧ d.factor g h 1 = .ok b ∧
        f = .binary .dotProduct (.node a) (.node b)) ∨
      g.isOuterProductLike h.id = false ∧ f.Admits allowed := by
  have read {a : NodeId} : (readVector d.table a).Admits allowed :=
    admits_readVector fun _ _ => hallowed _ rfl rfl
  have unlike (hm : h.isMatmul = false) : g.isOuterProductLike h.id = false := by
    cases hlike : g.isOuterProductLike h.id with
    | false => rfl
    | true =>
      rw [Graph.isMatmul_of_isOuterProductLike hh hlike] at hm
      exact Bool.noConfusion hm
  cases becomes with
  | dotProduct _ hlike ha hb => exact .inl ⟨hlike, _, _, ha, hb, rfl⟩
  | unary hkind =>
    exact .inr ⟨unlike (by simp [Hop.isMatmul, hkind]), fun _ => hallowed _ rfl rfl, trivial⟩
  | cells hkind =>
    exact .inr ⟨unlike (by simp [Hop.isMatmul, hkind]), fun _ _ => hallowed _ rfl rfl, read, read⟩
  | addedRows _ _ _ _ hother => exact .inr ⟨hother, fun _ _ => hallowed _ rfl rfl, trivial, trivial⟩
  | passed hkind =>
    refine .inr ⟨unlike ?_, trivial⟩
    rcases hkind with hkind | hkind <;> simp [Hop.isMatmul, hkind]

/-! ## What lies below the nodes of a region -/

/-- What lies below an operand node lies below the node of the hop. -/
theorem has_of_operand (wf : g.WellFormed) (made : Draft.Made .outerProduct g memo d h e f top n)
    (ha : Template.operandNode .outerProduct g d h i = .ok a) (hhas : d.table.Has p a) :
    d.table.Has p n := by
  have hleaf : a ∈ f.leaves := (mem_leaves_iff wf made.hop made.becomes).2 ⟨i, ha⟩
  exact made.has_iff.2 (made.computes.has_of_leaf hleaf hhas)

/-- What lies below the node of a hop and is not made for it lies below an operand. -/
theorem exists_operand (wf : g.WellFormed) (made : Draft.Made .outerProduct g memo d h e f top n)
    (hadmits : f.Admits fun op => !p op) (hhas : d.table.Has p n) :
    ∃ i x, Template.operandHop? .outerProduct g h i = some x ∧ d.Has p x := by
  obtain ⟨a, ha, hhas⟩ := made.computes.exists_leaf hadmits (made.has_iff.1 hhas)
  obtain ⟨i, ha⟩ := (mem_leaves_iff wf made.hop made.becomes).1 ha
  obtain ⟨x, hx, hn⟩ := Template.operandNode_eq_ok_iff.1 ha
  exact ⟨i, x, hx, a, hn, hhas⟩

/-- A transpose in a region has the operation of its operand. -/
theorem sameOp_of_transposed (wf : g.WellFormed)
    (hd : Draft.ofRegion .outerProduct g memo config table root = .ok d) (hx : x ∈ d.lowered)
    (hinner : (g.hop? x).bind (·.transposed?) = some y) :
    ∃ a b, d.node? y = some a ∧ d.node? x = some b ∧ d.table.SameOp a b := by
  obtain ⟨h, e, f, top, n, rfl, made⟩ := Draft.exists_made wf hd hx
  rw [made.hop, Option.bind_some, Hop.transposed?_eq_some_iff] at hinner
  obtain ⟨hkind, hy⟩ := hinner
  have becomes : Becomes g d h f := made.becomes
  cases becomes with
  | passed _ ha =>
    obtain ⟨z, hz, ha⟩ := Draft.operand_eq_ok_iff.1 ha
    obtain rfl : y = z := Option.some.inj (hy.symm.trans hz)
    exact ⟨_, n, ha, made.node, made.sameOp_of_node⟩
  | unary hkind' | cells hkind' | dotProduct hkind' | addedRows hkind' =>
    rw [hkind] at hkind'
    exact Operator.noConfusion hkind'

/-- A hop is lowered from a node with the operation of the hop that it refers to. If it is a multiply
which takes over a transpose, the node of the transpose is not read, but has the same operation as
the one that is. -/
theorem exists_operandNode_of_refers (explored : memo.ExploredBy g config done) (typed : g.IsTyped)
    (hd : Draft.ofRegion .outerProduct g memo config table root = .ok d)
    (hx : memo.InRegion .outerProduct g root h.id) (hh : g.hop? h.id = some h)
    (hxy : memo.Refers .outerProduct g h.id y) :
    ∃ i a b, Template.operandNode .outerProduct g d h i = .ok a ∧ d.node? y = some b ∧
      d.table.SameOp a b := by
  have wf := typed.isBuilt.wellFormed
  have hlowered := (mem_lowered_iff explored typed hd).2 (hx.tail hxy)
  obtain ⟨h', _, i, hh', _, hy, _⟩ := hxy
  obtain rfl : h = h' := Option.some.inj (hh.symm.trans hh')
  cases habsorbed : Template.absorbed? .outerProduct g h i with
  | none =>
    obtain ⟨b, hb⟩ := Draft.binds_of_mem_lowered hlowered
    refine ⟨i, b, b, ?_, hb, .refl ((Draft.accounted_of_ofRegion wf hd).laid.node hb).2⟩
    exact Template.operandNode_eq_ok_iff.2 ⟨y, by simp [Template.operandHop?, habsorbed, hy], hb⟩
  | some inner =>
    have hinner : (g.hop? y).bind (·.transposed?) = some inner := by
      unfold Template.absorbed? at habsorbed
      split at habsorbed
      · obtain ⟨hy', hinput, hinner⟩ := Option.bind_eq_some_iff.1 habsorbed
        obtain ⟨y', hy'', hhy⟩ := (Graph.input?_iff_of_hop? hh).1 hinput
        obtain rfl : y = y' := Option.some.inj (hy.symm.trans hy'')
        rw [hhy, Option.bind_some, hinner]
      · simp at habsorbed
    obtain ⟨a, b, ha, hb, same⟩ := sameOp_of_transposed wf hd hlowered hinner
    refine ⟨i, a, b, ?_, hb, same⟩
    exact Template.operandNode_eq_ok_iff.2 ⟨inner, by simp [Template.operandHop?, habsorbed], ha⟩

/-- What lies below the node of a hop lies below that of the hop that refers to it. -/
theorem has_of_refers (explored : memo.ExploredBy g config done) (typed : g.IsTyped)
    (hd : Draft.ofRegion .outerProduct g memo config table root = .ok d)
    (hx : memo.InRegion .outerProduct g root x) (hxy : memo.Refers .outerProduct g x y)
    (hhas : d.Has p y) : d.Has p x := by
  have wf := typed.isBuilt.wellFormed
  obtain ⟨h, e, f, top, n, rfl, made⟩ :=
    Draft.exists_made wf hd ((mem_lowered_iff explored typed hd).2 hx)
  obtain ⟨i, a, b, ha, hb, same⟩ := exists_operandNode_of_refers explored typed hd hx made.hop hxy
  have hhas : d.table.Has p a := same.has_iff.2 ((Draft.has_iff_of_node? hb).1 hhas)
  exact ⟨n, made.node, has_of_operand wf made ha hhas⟩

/-- What lies below the node of one hop of a region lies below that of every hop above it. -/
theorem has_of_inRegion (explored : memo.ExploredBy g config done) (typed : g.IsTyped)
    (hd : Draft.ofRegion .outerProduct g memo config table root = .ok d)
    (hx : memo.InRegion .outerProduct g root x) (hxy : memo.InRegion .outerProduct g x y)
    (hhas : d.Has p y) : d.Has p x := by
  induction hxy using Relation.ReflTransGen.head_induction_on with
  | refl => exact hhas
  | @head x z hxz _ ih =>
    exact has_of_refers explored typed hd hx hxz (ih (hx.tail hxz))

/-- The node of the product of factors is the dot product of its operand nodes. -/
theorem exists_dotProduct (wf : g.WellFormed)
    (hd : Draft.ofRegion .outerProduct g memo config table root = .ok d) (hx : x ∈ d.lowered)
    (hlike : g.isOuterProductLike x = true) :
    ∃ h n m a b, g.hop? x = some h ∧ d.node? x = some n ∧ d.table.node? n = some m ∧
      m.op = .binary .dotProduct a b ∧ d.factor g h 0 = .ok a ∧ d.factor g h 1 = .ok b := by
  obtain ⟨h, e, f, top, n, rfl, made⟩ := Draft.exists_made wf hd hx
  rcases Becomes.cases (fun op => !op.isDotProduct) made.hop made.becomes
    (fun op _ hop => by simp [hop]) with ⟨_, a, b, ha, hb, rfl⟩ | ⟨hother, _⟩
  · obtain ⟨y, z, ⟨rfl, _⟩, ⟨rfl, _⟩, htop⟩ := made.computes
    obtain ⟨k, hk, hn⟩ := made.fitted
    obtain rfl := Option.some.inj (htop.symm.trans hk)
    exact ⟨h, n, _, y, z, made.hop, made.node, hn, by rw [Node.fitted_op]; rfl, ha, hb⟩
  · rw [hlike] at hother
    exact Bool.noConfusion hother

/-- The hop, or an operand of a hop that is lowered. -/
def Feeds (g : Graph) (d : Draft) (x y : HopId) : Prop :=
  y = x ∨ ∃ h i, h.id ∈ d.lowered ∧ g.hop? h.id = some h ∧
    Template.operandHop? .outerProduct g h i = some y

/-- A kernel input or a dot product below the node of a hop is the node of that hop or of an operand
in the region, and this operand comes from outside or is the product of factors. -/
theorem exists_origin (wf : g.WellFormed)
    (hd : Draft.ofRegion .outerProduct g memo config table root = .ok d)
    (hp : ∀ op, op.isData = false → op.isDotProduct = false → p op = false) :
    ∀ x, d.Has p x → ∃ y n m, Feeds g d x y ∧ d.node? y = some n ∧ d.table.node? n = some m ∧
      p m.op = true ∧ (y ∈ d.boundary ∨ y ∈ d.lowered ∧ g.isOuterProductLike y = true) := by
  intro x
  induction x using Nat.strong_induction_on with
  | _ x ih =>
    rintro ⟨n, hn, hhas⟩
    -- What lies below an operand comes from there or from further below.
    have below {h : Hop} {i : Nat} {y : HopId} (hlowered : h.id ∈ d.lowered)
        (hh : g.hop? h.id = some h) (hid : h.id = x)
        (hy : Template.operandHop? .outerProduct g h i = some y) (hhas : d.Has p y) :
        ∃ y n m, Feeds g d x y ∧ d.node? y = some n ∧ d.table.node? n = some m ∧ p m.op = true ∧
          (y ∈ d.boundary ∨ y ∈ d.lowered ∧ g.isOuterProductLike y = true) := by
      obtain ⟨z, n, m, hfeeds, rest⟩ := ih y (hid ▸ Template.operandHop?_lt wf hh hy) hhas
      refine ⟨z, n, m, .inr ?_, rest⟩
      rcases hfeeds with rfl | hfeeds
      · exact ⟨h, i, hlowered, hh, hy⟩
      · exact hfeeds
    rcases Draft.mem_lowered_or_mem_boundary ⟨n, hn⟩ with hlowered | hboundary
    · obtain ⟨h, e, f, top, n', rfl, made⟩ := Draft.exists_made wf hd hlowered
      obtain rfl : n = n' := Option.some.inj (hn.symm.trans made.node)
      rcases Becomes.cases (fun op => !p op) made.hop made.becomes
        (fun op hdata hdot => by simp [hp op hdata hdot]) with
        ⟨hlike, a, b, _, _, rfl⟩ | ⟨_, hadmits⟩
      · obtain ⟨_, _, ⟨rfl, _⟩, ⟨rfl, _⟩, htop⟩ := made.computes
        rcases (NodeTable.has_iff htop).1 (made.has_iff.1 hhas) with hown | ⟨c, hc, hhas⟩
        · obtain ⟨k, hk, hnode⟩ := made.fitted
          obtain rfl := Option.some.inj (htop.symm.trans hk)
          refine ⟨h.id, n, _, .inl rfl, hn, hnode, ?_, .inr ⟨hlowered, hlike⟩⟩
          rw [Node.fitted_op]
          exact hown
        · obtain ⟨i, hi⟩ := (mem_leaves_iff wf made.hop made.becomes).1 hc
          obtain ⟨y, hy, hc⟩ := Template.operandNode_eq_ok_iff.1 hi
          exact below hlowered made.hop rfl hy ⟨c, hc, hhas⟩
      · obtain ⟨i, y, hy, hhas⟩ := exists_operand wf made hadmits hhas
        exact below hlowered made.hop rfl hy hhas
    · obtain ⟨h, n', hh, hn', hnode⟩ :=
        (Draft.accounted_of_ofRegion wf hd).node?_of_mem_boundary hboundary
      obtain rfl : n = n' := Option.some.inj (hn.symm.trans hn')
      have hown := (Draft.has_iff_of_boundaryNode hnode).1 hhas
      exact ⟨x, n, _, .inl rfl, hn, hnode, hown, .inl hboundary⟩

/-- A body has no other dot product than that of the factors. -/
theorem not_has_otherDotProduct (explored : memo.ExploredBy g config done) (typed : g.IsTyped)
    (hd : Draft.ofRegion .outerProduct g memo config table root = .ok d) {b : NodeId} {m : Node}
    (hregion : memo.InRegion .outerProduct g root y) (hlike : g.isOuterProductLike y = true)
    (hy : d.node? y = some n) (hn : d.table.node? n = some m)
    (hop : m.op = .binary .dotProduct a b) :
    ¬ d.Has (fun op => op.isDotProduct && op ≠ .binary .dotProduct a b) x := by
  have wf := typed.isBuilt.wellFormed
  intro hhas
  obtain ⟨z, n', m', _, hz, hn', hother, horigin⟩ :=
    exists_origin wf hd (fun op _ hdot => by simp [hdot]) x hhas
  rcases horigin with hboundary | ⟨hlowered, hlike'⟩
  · obtain ⟨h, n'', _, hz', hnode⟩ :=
      (Draft.accounted_of_ofRegion wf hd).node?_of_mem_boundary hboundary
    obtain rfl := Option.some.inj (hz.symm.trans hz')
    obtain rfl := Option.some.inj (hnode.symm.trans hn')
    rcases Draft.boundaryNode_cases config h with heq | ⟨value, heq⟩ <;>
      simp [heq, NodeOp.isDotProduct] at hother
  · -- A region has one product of factors.
    have hregion' := (mem_lowered_iff explored typed hd).1 hlowered
    obtain rfl := explored.product_unique typed hregion hregion' hlike hlike'
    obtain rfl := Option.some.inj (hy.symm.trans hz)
    obtain rfl := Option.some.inj (hn.symm.trans hn')
    simp [hop] at hother

/-- A body reads operands of the lowered hops. -/
theorem feeds_of_reads (wf : g.WellFormed)
    (hd : Draft.ofRegion .outerProduct g memo config table root = .ok d)
    (hreads : d.Has (NodeOp.reads z) x) : Feeds g d x z := by
  obtain ⟨y, n, m, hfeeds, hy, hn, hown, horigin⟩ := exists_origin wf hd (fun op hdata _ => by
    cases op with
    | data => simp [NodeOp.isData] at hdata
    | _ => rfl) x hreads
  rcases horigin with hboundary | ⟨hlowered, hlike⟩
  · obtain ⟨h, n', hh, hy', hnode⟩ :=
      (Draft.accounted_of_ofRegion wf hd).node?_of_mem_boundary hboundary
    obtain rfl := Option.some.inj (hy.symm.trans hy')
    obtain rfl := Option.some.inj (hnode.symm.trans hn)
    obtain rfl := Draft.eq_of_reads_boundaryNode hown
    rwa [wf.id_eq hh]
  · obtain ⟨_, n', m', a, b, _, hy', hn', hop, _⟩ := exists_dotProduct wf hd hlowered hlike
    obtain rfl := Option.some.inj (hy.symm.trans hy')
    obtain rfl := Option.some.inj (hn.symm.trans hn')
    rw [hop] at hown
    exact Bool.noConfusion hown

/-! ## The factors that are read -/

/-- The operands of the product, from below transposes, are bound to their kernel inputs. -/
theorem bindsInput_untransposed (explored : memo.ExploredBy g config done) (typed : g.IsTyped)
    (hd : Draft.ofRegion .outerProduct g memo config table root = .ok d)
    (hregion : memo.InRegion .outerProduct g root h.id) (hh : g.hop? h.id = some h)
    (hlike : g.isOuterProductLike h.id = true) {x : Hop} (hx : g.input? h.id i = some x)
    (hlarger : Graph.isLarger x.shape.rows x.shape.cols = true ∨
      Graph.isLarger x.shape.cols x.shape.rows = true)
    (ha : d.factor g h i = .ok a) : d.BindsInput g x.untransposed := by
  have wf := typed.isBuilt.wellFormed
  have hbound : d.Binds x.untransposed := ⟨a, Draft.node?_of_factor wf hh hx ha⟩
  obtain ⟨y, hy, hhx⟩ := (Graph.input?_iff_of_hop? hh).1 hx
  obtain rfl := wf.id_eq hhx
  have hltx : x.id < h.id := wf.input?_lt hh hy
  -- The hop that is read is no literal and comes before the product.
  obtain ⟨z, hz, hliteral, hlt⟩ : ∃ z, g.hop? x.untransposed = some z ∧ z.literal? = none ∧
      x.untransposed < h.id := by
    unfold Hop.untransposed
    cases hinner : x.transposed? with
    | none => exact ⟨x, hhx, typed.literal?_eq_none hhx hlarger, hltx⟩
    | some inner =>
      obtain ⟨hkind, hinput⟩ := Hop.transposed?_eq_some_iff.1 hinner
      have hmem := List.mem_of_getElem? hinput
      obtain ⟨z, hz⟩ := wf.exists_input hhx hmem
      rw [typed.shape_of_transpose hhx hkind ((Graph.input?_iff_of_hop? hhx).2 ⟨inner, hinput, hz⟩)]
        at hlarger
      exact ⟨z, hz, typed.literal?_eq_none hz hlarger.symm,
        Nat.lt_trans (wf.input_lt hhx inner hmem) hltx⟩
  exact Draft.bindsInput_of_not_lowered wf hd hbound
    (not_mem_lowered_of_lt explored typed hd hregion hlike hlt) hz hliteral

/-- The body contracts the operands `x` and `y` of its product through the nodes `a` and `b`, which
are the kernel inputs for what these transpose, if they do, and it contracts nothing else. -/
structure Contracts (g : Graph) (plan : Plan) (x y : Hop) (a b : NodeId) : Prop where
  reached : plan.table.Has (fun op => op = .binary .dotProduct a b) plan.output
  only : ¬ plan.table.Has (fun op => op.isDotProduct && op ≠ .binary .dotProduct a b) plan.output
  left : ∃ h, g.hop? x.untransposed = some h ∧ plan.table.node? a = some (.data h)
  right : ∃ h, g.hop? y.untransposed = some h ∧ plan.table.node? b = some (.data h)

/-- The body of a lowered region contracts the operands of its product. -/
theorem exists_contracts (explored : memo.ExploredBy g config done) (typed : g.IsTyped)
    (hd : Draft.ofRegion .outerProduct g memo config table root = .ok d)
    (laidOver : plan.LaidOver d root) (hregion : memo.InRegion .outerProduct g root id)
    (hlike : g.isOuterProductLike id = true) {x y : Hop} (hx : g.input? id 0 = some x)
    (hy : g.input? id 1 = some y) :
    ∃ a b, Contracts g plan x y a b ∧ d.node? x.untransposed = some a ∧
      d.node? y.untransposed = some b := by
  have wf := typed.isBuilt.wellFormed
  have hlowered := (mem_lowered_iff explored typed hd).2 hregion
  obtain ⟨h, n, m, a, b, hh, hid, hn, hop, ha, hb⟩ := exists_dotProduct wf hd hlowered hlike
  obtain rfl := wf.id_eq hh
  obtain ⟨x', y', hx', hy', htall, hwide⟩ := Graph.operands_of_isOuterProductLike hlike
  obtain rfl : x = x' := Option.some.inj (hx.symm.trans hx')
  obtain rfl : y = y' := Option.some.inj (hy.symm.trans hy')
  have hleft := Draft.node?_of_factor wf hh hx ha
  have hright := Draft.node?_of_factor wf hh hy hb
  have input {z : HopId} {c : NodeId} (hc : d.node? z = some c) (hbinds : d.BindsInput g z) :
      ∃ h, g.hop? z = some h ∧ plan.table.node? c = some (.data h) := by
    obtain ⟨hz, c', hhz, hc', hnode⟩ := hbinds
    obtain rfl := Option.some.inj (hc.symm.trans hc')
    exact ⟨hz, hhz, laidOver.table ▸ hnode⟩
  refine ⟨a, b, ⟨?_, ?_, ?_, ?_⟩, hleft, hright⟩
  · rw [← laidOver.has_iff]
    refine has_of_inRegion explored typed hd .refl hregion ⟨n, hid, n, m, .refl, hn, ?_⟩
    exact decide_eq_true hop
  · rw [← laidOver.has_iff]
    exact not_has_otherDotProduct explored typed hd hregion hlike hid hn hop
  · exact input hleft (bindsInput_untransposed explored typed hd hregion hh hlike hx (.inl htall) ha)
  · exact input hright (bindsInput_untransposed explored typed hd hregion hh hlike hy (.inr hwide) hb)

/-! ## Transposes that are taken over -/

/-- What a multiply takes over, it is lowered from. -/
theorem exists_position_of_absorbed (hz : z ∈ absorbed g h) :
    ∃ i, Template.absorbed? .outerProduct g h i = some z := by
  unfold absorbed at hz
  split at hz
  · rename_i hm
    obtain ⟨i, hi, hz⟩ := List.mem_filterMap.1 hz
    exact ⟨i, by rw [Template.absorbed?, if_pos ⟨hm, hi⟩]; exact hz⟩
  · simp at hz

/-- A transpose that is read as an operand by multiplies only is an operand node of a lowered hop
exactly if it is what another transpose that is taken over transposes. -/
theorem absorbed_of_operandHop? (wf : g.WellFormed) (hh : g.hop? h.id = some h)
    (htranspose : g.isTranspose z = true) (honly : z ∈ h.inputs → h.isMatmul = true)
    (hz : Template.operandHop? .outerProduct g h i = some z) : z ∈ absorbed g h := by
  rcases Option.or_eq_some_iff.1 hz with habsorbed | ⟨hnone, hinput⟩
  · exact Template.mem_absorbed habsorbed
  · -- A multiply takes over this transposition at either of its positions.
    have hm := honly (List.mem_of_getElem? hinput)
    obtain ⟨hz', hhz, htransposed⟩ := (Option.any_eq_true ..).1 htranspose
    have hcount := wf.arity hh (n := 2) (by rw [of_decide_eq_true hm]; rfl)
    have hlt : i < h.inputs.length := (List.getElem?_eq_some_iff.1 hinput).1
    have hi : i ∈ Template.absorbing .outerProduct := by
      rcases (by omega : i = 0 ∨ i = 1) with rfl | rfl <;> decide
    have hread : g.input? h.id i = some hz' := (Graph.input?_iff_of_hop? hh).2 ⟨z, hinput, hhz⟩
    obtain ⟨inner, hinner⟩ := wf.exists_transposed? hhz htransposed
    rw [Template.absorbed?, if_pos ⟨hm, hi⟩, hread, Option.bind_some, hinner] at hnone
    simp at hnone

/-- What a multiply takes over from outside the region, the body reads. -/
theorem reads_of_absorbed (explored : memo.ExploredBy g config done) (typed : g.IsTyped)
    (hd : Draft.ofRegion .outerProduct g memo config table root = .ok d)
    (laidOver : plan.LaidOver d root) (htranspose : g.isTranspose z = true)
    (hnot : z ∉ d.lowered) (hlowered : h.id ∈ d.lowered) (hh : g.hop? h.id = some h)
    (hz : z ∈ absorbed g h) : plan.table.Reads plan.output z := by
  have wf := typed.isBuilt.wellFormed
  obtain ⟨hz', hhz, htransposed⟩ := (Option.any_eq_true ..).1 htranspose
  have hliteral : hz'.literal? = none := by
    have hkind : hz'.kind = .reorg .transpose := of_decide_eq_true htransposed
    simp [Hop.literal?, hkind]
  have hbound : d.Binds z := binds_of_lowered wf hd hlowered hh (.inr hz)
  obtain ⟨hz'', c, hhz', hc, hnode⟩ :=
    Draft.bindsInput_of_not_lowered wf hd hbound hnot hhz hliteral
  have hreads : d.table.Has (NodeOp.reads z) c := by
    refine ⟨c, _, .refl, hnode, decide_eq_true ?_⟩
    exact wf.id_eq hhz'
  obtain ⟨e, f, top, n, _, made⟩ := Draft.exists_made_of_hop? wf hd hlowered hh
  obtain ⟨i, hi⟩ := exists_position_of_absorbed hz
  have hoperand : Template.operandNode .outerProduct g d h i = .ok c :=
    Template.operandNode_eq_ok_iff.2 ⟨z, by simp [Template.operandHop?, hi], hc⟩
  have hregion := (mem_lowered_iff explored typed hd).1 hlowered
  rw [← NodeTable.has_reads_iff, ← laidOver.has_iff]
  exact has_of_inRegion explored typed hd .refl hregion
    ⟨n, made.node, has_of_operand wf made hoperand hreads⟩

/-- A transpose that plays the right factor is taken from below another one. -/
theorem absorbed_of_right (explored : memo.ExploredBy g config done) (typed : g.IsTyped)
    (hd : Draft.ofRegion .outerProduct g memo config table root = .ok d) {main left right : HopId}
    (roles : Roles memo g d root main left right) (htranspose : g.isTranspose right = true) :
    right ∉ d.lowered ∧ ∃ h, h.id ∈ d.lowered ∧ g.hop? h.id = some h ∧ right ∈ absorbed g h := by
  have wf := typed.isBuilt.wellFormed
  obtain ⟨q, x, y, hregion, hlike, _, hx, hy, rfl, rfl⟩ := roles.factors
  have hfactors : factorsOf? g q = some (x.id, y.transposed?.getD y.id) :=
    factorsOf?_eq_some_iff.2 ⟨hlike, x, y, hx, hy, rfl, rfl⟩
  obtain ⟨h, i, hh, _, hhy⟩ := Graph.input?_eq_some_iff.1 hy
  obtain rfl := wf.id_eq hh
  obtain rfl := wf.id_eq hhy
  have hlowered := (mem_lowered_iff explored typed hd).2 hregion
  refine ⟨not_mem_lowered_of_lt explored typed hd hregion hlike (lt_of_factorsOf? wf hfactors).2,
    h, hlowered, hh, ?_⟩
  cases hinner : y.transposed? with
  | none =>
    rw [hinner] at htranspose
    obtain ⟨y', hhy', htransposed⟩ := (Option.any_eq_true ..).1 htranspose
    obtain rfl : y = y' := Option.some.inj (hhy.symm.trans hhy')
    obtain ⟨inner, hsome⟩ := wf.exists_transposed? hhy htransposed
    rw [hinner] at hsome
    simp at hsome
  | some inner =>
    rw [absorbed, if_pos (Graph.isMatmul_of_isOuterProductLike hh hlike)]
    exact List.mem_filterMap.2 ⟨1, by simp, by rw [hy, Option.bind_some, hinner]; rfl⟩

/-- A transpose that only multiplies have as an operand is passed exactly if it plays the left
factor, or is from outside and what another transpose that is taken over transposes. -/
theorem mem_inputs_iff_of_transpose (explored : memo.ExploredBy g config done) (typed : g.IsTyped)
    (hd : Draft.ofRegion .outerProduct g memo config table root = .ok d)
    (laidOver : plan.LaidOver d root) {main left right : HopId} {rest : List HopId}
    (roles : Roles memo g d root main left right) (layout : LaysOut g d main left right rest plan)
    (htranspose : g.isTranspose z = true)
    (honly : ∀ h, h.id ∈ d.lowered → g.hop? h.id = some h → z ∈ h.inputs → h.isMatmul = true) :
    z ∈ plan.inputs ↔ z = left ∨ z ∉ d.lowered ∧
      ∃ h, h.id ∈ d.lowered ∧ g.hop? h.id = some h ∧ z ∈ absorbed g h := by
  have wf := typed.isBuilt.wellFormed
  obtain ⟨hz, hhz, htransposed⟩ := (Option.any_eq_true ..).1 htranspose
  have hmem : z ∈ plan.inputs ↔ z ∈ [main, left, right] ∨ plan.table.Reads plan.output z := by
    rw [layout.split, List.mem_append, layout.mem_iff]
    by_cases hz : z ∈ [main, left, right] <;> simp [hz]
  rw [hmem]
  constructor
  · rintro (hpart | hreads)
    · simp only [List.mem_cons, List.not_mem_nil, or_false] at hpart
      rcases hpart with rfl | rfl | rfl
      · -- The main matrix is a variable.
        obtain ⟨_, id, _, _, designates, _⟩ := roles.main
        obtain ⟨_, h, _, _, hh, hsource⟩ := designates.cases
        obtain rfl : hz = h := Option.some.inj (hhz.symm.trans hh)
        have hkind : hz.kind = .reorg .transpose := of_decide_eq_true htransposed
        simp [Hop.isData, hkind] at hsource
      · exact .inl rfl
      · exact .inr (absorbed_of_right explored typed hd roles htranspose)
    · right
      have hboundary := laidOver.mem_boundary_of_reads wf hd hreads
      refine ⟨(Draft.accounted_of_ofRegion wf hd).not_mem_lowered hboundary, ?_⟩
      rw [← NodeTable.has_reads_iff, ← laidOver.has_iff] at hreads
      rcases feeds_of_reads wf hd hreads with rfl | ⟨h, i, hlowered, hh, hi⟩
      · exact absurd (Draft.mem_lowered_of_ofRegion wf hd)
          ((Draft.accounted_of_ofRegion wf hd).not_mem_lowered hboundary)
      · exact ⟨h, hlowered, hh,
          absorbed_of_operandHop? wf hh htranspose (honly h hlowered hh) hi⟩
  · rintro (rfl | ⟨hnot, h, hlowered, hh, habsorbed⟩)
    · exact .inl (by simp)
    · exact .inr (reads_of_absorbed explored typed hd laidOver htranspose hnot hlowered hh habsorbed)

end OuterProduct

/-- In a typed graph the kernel of an outer-product region has one dot product, which reads what the
operands `x` and `y` of the region's product transpose, or else these. The kernel is passed `x`
itself as left factor, so the node that the dot product reads on the left is the second argument
exactly if `x` is no transpose. A transpose that only multiplies have as an operand is passed if it
is `x`, or from outside and taken from below another transpose, and otherwise not. -/
theorem Plan.outerProduct_operands {g : Graph} (typed : g.IsTyped) (config : Config)
    (roots : List HopId) {table : NodeTable} {root : HopId} {plan : Plan}
    (hplan : Plan.construct .outerProduct g (Memo.empty.explore g config roots).1 config table
      root = .ok plan) :
    ∃ d q x y a b,
      Draft.ofRegion .outerProduct g (Memo.empty.explore g config roots).1 config table root =
        .ok d ∧
      (∀ c, c ∈ d.lowered ∧ g.isOuterProductLike c = true ↔ c = q) ∧
      g.input? q 0 = some x ∧ g.input? q 1 = some y ∧
      OuterProduct.Contracts g plan x y a b ∧
      plan.inputs[1]? = some x.id ∧ plan.inputs[2]? = some y.untransposed ∧
      plan.arguments[2]? = some b ∧ (plan.arguments[1]? = some a ↔ x.isTranspose = false) ∧
      ∀ z, g.isTranspose z = true →
        (∀ h, h.id ∈ d.lowered → g.hop? h.id = some h → z ∈ h.inputs → h.isMatmul = true) →
        (z ∈ plan.inputs ↔ z = x.id ∨ z ∉ d.lowered ∧
          ∃ h, h.id ∈ d.lowered ∧ g.hop? h.id = some h ∧ z ∈ OuterProduct.absorbed g h) := by
  have wf := typed.isBuilt.wellFormed
  have explored := Memo.exploredBy_explore wf config roots
  obtain ⟨d, main, left, right, rest, hd, roles, layout⟩ :=
    OuterProduct.laysOut_of_construct explored typed hplan
  obtain ⟨d', hd', hplan⟩ := bind_eq_ok_iff.1 hplan
  obtain rfl : d = d' := Except.ok.inj (hd.symm.trans hd')
  obtain ⟨_, _, _, _, _, laidOver, _⟩ := OuterProduct.of_plan_eq_ok hplan
  obtain ⟨q, x, y, hregion, hlike, unique, hx, hy, hleft, hright⟩ := roles.factors
  obtain ⟨a, b, contracts, ha, hb⟩ :=
    OuterProduct.exists_contracts explored typed hd laidOver hregion hlike hx hy
  have hinputs1 : plan.inputs[1]? = some x.id := by rw [layout.split, hleft]; rfl
  have hinputs2 : plan.inputs[2]? = some y.untransposed := by rw [layout.split, ← hright]; rfl
  refine ⟨d, q, x, y, a, b, hd, fun c => ?_, hx, hy, contracts, hinputs1, hinputs2, ?_, ?_, ?_⟩
  · rw [OuterProduct.mem_lowered_iff explored typed hd]
    constructor
    · exact fun ⟨hc, hlikec⟩ => unique c hc hlikec
    · rintro rfl
      exact ⟨hregion, hlike⟩
  · rw [laidOver.getElem?_arguments hinputs2, hb]
  · constructor
    · intro hargument
      -- The node would be the input for `x` and for what `x` transposes.
      obtain ⟨h, hh, hnode⟩ := layout.binds.node?_argument hinputs1 hargument
      obtain ⟨h', hh', hnode'⟩ := contracts.left
      have heq : h.id = h'.id := congrArg (fun n => n.sourceHop?.getD 0)
        (Option.some.inj (hnode.symm.trans hnode'))
      rw [wf.id_eq hh, wf.id_eq hh'] at heq
      cases htranspose : x.isTranspose with
      | false => rfl
      | true =>
        obtain ⟨_, _, _, _, hhx⟩ := Graph.input?_eq_some_iff.1 hx
        obtain rfl := wf.id_eq hhx
        obtain ⟨inner, hinner⟩ := wf.exists_transposed? hhx htranspose
        have hlt := wf.input_lt hhx inner
          (List.mem_of_getElem? (Hop.transposed?_eq_some_iff.1 hinner).2)
        rw [Hop.untransposed, hinner, Option.getD_some] at heq
        exact absurd heq (Nat.ne_of_gt hlt)
    · intro htranspose
      have hself : x.untransposed = x.id := by simp [Hop.untransposed, Hop.transposed?, htranspose]
      rw [laidOver.getElem?_arguments hinputs1, ← hself, ha]
  · intro z htranspose honly
    rw [hleft]
    exact OuterProduct.mem_inputs_iff_of_transpose explored typed hd laidOver roles layout
      htranspose honly

theorem Plan.outerProduct_operands_weighted :
    Plan.construct .outerProduct Memo.weighted Memo.ofWeighted .default .empty 6 = .ok ofWeighted ∧
      ∃ x y a b, OuterProduct.Contracts Memo.weighted ofWeighted x y a b ∧
        ofWeighted.inputs[1]? = some x.id ∧ ofWeighted.inputs[2]? = some y.untransposed ∧
        (ofWeighted.arguments[1]? = some a ↔ x.isTranspose = false) := by
  have typed : Memo.weighted.IsTyped := ⟨Memo.weightedRequests, by decide, rfl⟩
  have hplan : Plan.construct .outerProduct Memo.weighted Memo.ofWeighted .default .empty 6 =
      .ok ofWeighted := by decide +kernel
  obtain ⟨_, _, x, y, a, b, _, _, _, _, contracts, hleft, hright, _, hiff, _⟩ :=
    outerProduct_operands typed .default [6] hplan
  exact ⟨hplan, x, y, a, b, contracts, hleft, hright, hiff⟩

/-- The cells of a product of two transposes, weighted by a matrix and summed up:
`sum(X * (t(W) %*% t(V)))`. -/
def Plan.crossed : Graph :=
  Graph.empty.build [.data "X" 300 300, .data "W" 10 300, .data "V" 300 10, .transpose 1,
    .transpose 2, .matmul 3 4, .binary .mult 0 5, .sum 6]

/-- The plan for that sum. -/
def Plan.ofCrossed : Plan :=
  (Plan.construct .outerProduct crossed (Memo.empty.explore crossed .default [7]).1 .default .empty
    7).toOption.getD ⟨[], .empty, [], 0, .outerProduct .aggregate false⟩

/-- The transpose on the left is read by the product only and is passed as left factor. The dot
product reads what it transposes, which is passed last. -/
theorem Plan.crossed_passes_transpose :
    crossed.IsTyped ∧
      Plan.construct .outerProduct crossed (Memo.empty.explore crossed .default [7]).1 .default
        .empty 7 = .ok ofCrossed ∧
      crossed.isTranspose 3 = true ∧ (crossed.hop? 3).map (·.parents) = some [5] ∧
      crossed.isOuterProductLike 5 = true ∧
      ofCrossed.inputs = [0, 3, 2, 1] ∧ ofCrossed.arguments[1]? = some 1 ∧
      (ofCrossed.table.node? 5).map (·.op) = some (.binary .dotProduct 3 4) ∧
      5 ∈ ofCrossed.table.reachable ofCrossed.output :=
  ⟨⟨_, by decide, rfl⟩, by decide +kernel, by decide +kernel, by decide +kernel, by decide +kernel,
    by decide +kernel, by decide +kernel, by decide +kernel, by decide +kernel⟩

end OpFusion
