import OpFusion.Proofs.Graph.Typed
import OpFusion.Proofs.Memo.Positions
import OpFusion.Proofs.Memo.Regions
import OpFusion.Proofs.Region.Rules

/-!
# Outer-product regions are chains

In a typed graph only matrices have open outer-product regions, so no hop joins two of them: what
could be joined is a matrix and a scalar. Each hop of a region therefore refers to one input at
most, and to the first that has an open region. The region below a hop is a chain, and it ends in
the one product of its factors.
-/

namespace OpFusion

/-- Closing a region does not change what an entry refers to. -/
theorem Matcher.exists_region_eq_map {m : Matcher} {g : Graph} {h : Hop} (memo : Memo)
    (hvalid : m.closing g h.id ≠ .invalid) :
    ∃ f : MemoEntry → MemoEntry, (∀ e, (f e).refs = e.refs) ∧
      m.region g memo h = (m.grown g memo h).map f := by
  unfold region
  split
  · exact ⟨fun e => e, fun _ => rfl, (List.map_id' _).symm⟩
  · exact ⟨MemoEntry.close, fun _ => rfl, rfl⟩
  · exact absurd ‹_› hvalid

/-- An entry that refers to one input at most counts so. -/
theorem MemoEntry.refCount_le_one {e : MemoEntry}
    (hrefs : ∀ a b, e.refersTo a = true → e.refersTo b = true → a = b) : e.refCount ≤ 1 := by
  rw [refCount, ← PositionSet.card_members, Finset.card_le_one]
  exact fun a ha b hb => hrefs a b (PositionSet.mem_members.1 ha) (PositionSet.mem_members.1 hb)

namespace Memo

variable {memo : Memo} {g : Graph} {config : Config} {done : List HopId} {id a b c : HopId}
  {h : Hop} {e : MemoEntry} {i j : Nat}

/-- What has an open region is a hop that starts one or that extends the open region of an input. -/
theorem ExploredBy.cases_of_hasOpen {t : Template} (explored : memo.ExploredBy g config done)
    (hopen : memo.hasOpen id t = true) :
    ∃ h, g.hop? id = some h ∧ Matcher.closing ⟨t, false, config⟩ g h.id = .stillOpen ∧
      (Matcher.opens ⟨t, false, config⟩ g h.id = true ∨
        Matcher.fuses ⟨t, false, config⟩ g h.id = true ∧
          ∃ i x, h.input? i = some x ∧ memo.hasOpen x t = true) := by
  obtain ⟨h, hh, hclosing⟩ := explored.stillOpen hopen
  simp only [hasOpen, List.any_eq_true, Bool.and_eq_true, decide_eq_true_eq] at hopen
  obtain ⟨e, he, rfl, _⟩ := hopen
  obtain ⟨h', hh', justified⟩ := explored.justified he
  obtain rfl : h = h' := Option.some.inj (hh.symm.trans hh')
  refine ⟨h, hh, hclosing, ?_⟩
  rcases justified.cases with hopens | ⟨hfuses, i, x, _, hx⟩
  · exact .inl hopens
  · exact .inr ⟨hfuses, i, x, hx⟩

/-- Only matrices have open outer-product regions. -/
theorem ExploredBy.isMatrix_of_hasOpen (explored : memo.ExploredBy g config done)
    (typed : g.IsTyped) :
    ∀ {id : HopId} {h : Hop}, memo.hasOpen id .outerProduct = true → g.hop? id = some h →
      h.isMatrix = true := by
  have wf := typed.isBuilt.wellFormed
  intro id
  induction id using Nat.strong_induction_on with
  | _ id ih =>
    intro h hopen hh
    obtain ⟨h', hh', hclosing, hcases⟩ := explored.cases_of_hasOpen hopen
    obtain rfl : h = h' := Option.some.inj (hh.symm.trans hh')
    obtain rfl := wf.id_eq hh
    rcases hcases with hopens | ⟨hfuses, i, x, hx, hopenx⟩
    · have hlike : g.isOuterProductLike h.id = true := (Bool.and_eq_true_iff.1 hopens).1
      exact typed.isMatrix_of_matmul hh
        (of_decide_eq_true (Graph.isMatmul_of_isOuterProductLike hh hlike))
    · have hmem := List.mem_of_getElem? hx
      obtain ⟨hopx, hhx⟩ := wf.exists_input hh hmem
      have hmatrix := ih x (wf.input_lt hh x hmem) hopenx hhx
      have hinput : g.input? h.id i = some hopx := (Graph.input?_iff_of_hop? hh).2 ⟨x, hx, hhx⟩
      have hfuses : OuterProduct.fuses g h.id = true := hfuses
      have hclosing : OuterProduct.closing g h.id = .stillOpen := hclosing
      simp only [OuterProduct.fuses, hh, Option.any_some] at hfuses
      simp only [OuterProduct.closing, hh] at hclosing
      split at hfuses
      · rename_i op hkind
        have hzero : i = 0 := by
          have hlt : i < h.inputs.length := (List.getElem?_eq_some_iff.1 hx).1
          have hcount := wf.arity hh (n := 1) (by rw [hkind]; rfl)
          omega
        have htype := typed.dataType_of_unary hh hkind (hzero ▸ hinput)
        rw [Hop.isMatrix, htype]
        exact hmatrix
      · rename_i op hkind
        exact typed.isMatrix_of_binary hh hkind hinput hmatrix
      · rename_i hkind
        exact typed.isMatrix_of_matmul hh hkind
      · rename_i op direction hkind
        -- An aggregate never leaves a region open.
        rw [hkind] at hclosing
        simp only at hclosing
        split at hclosing
        · exact Closing.noConfusion hclosing
        · exact Closing.noConfusion hclosing
      · exact typed.isMatrix_of_reorg hh (of_decide_eq_true hfuses)

/-- An entry refers to one input at most. -/
theorem ExploredBy.eq_of_refersTo (explored : memo.ExploredBy g config done) (typed : g.IsTyped)
    (hh : g.hop? h.id = some h) (justified : memo.Justified g config .outerProduct h e)
    (hi : e.refersTo i = true) (hj : e.refersTo j = true) : i = j := by
  have wf := typed.isBuilt.wellFormed
  by_contra hne
  have hboth : OuterProduct.fuses g h.id = true ∧ OuterProduct.merges g h.id = true := by
    have joins {a b : Nat} (hjoins : Matcher.joins ⟨.outerProduct, false, config⟩ g h a b = true) :
        OuterProduct.fuses g h.id = true ∧ OuterProduct.merges g h.id = true := by
      simp only [Matcher.joins, Bool.and_eq_true] at hjoins
      obtain ⟨⟨_, hfuses⟩, hmerges⟩ := hjoins
      obtain ⟨x, _, hmerges⟩ := (Option.any_eq_true ..).1 hmerges
      exact ⟨hfuses, hmerges⟩
    rcases justified.joins hi hj hne with hjoins | hjoins
    · exact joins hjoins
    · exact joins hjoins
  have hms := OuterProduct.isMatrixScalar_of_fuses hboth.1 hboth.2
  obtain ⟨k, x, hx, hscalar⟩ := Graph.scalar_operand_of_isMatrixScalar hms
  obtain ⟨y, hy, hhy⟩ := (Graph.input?_iff_of_hop? hh).1 hx
  -- Of two positions, the entry refers to both, so also to that of the scalar.
  have hk : e.refersTo k = true := by
    have hlt {p : Nat} (hp : e.refersTo p = true) : p < h.inputs.length := by
      obtain ⟨z, hz, _⟩ := justified.refers hp
      exact (List.getElem?_eq_some_iff.1 hz).1
    have hcount : h.inputs.length = 2 := by
      obtain ⟨⟨a, b⟩, hoperands, _⟩ := (Option.any_eq_true ..).1 hms
      obtain ⟨h', op, hh', hkind, _⟩ := Graph.binaryOperands?_eq_some_iff.1 hoperands
      obtain rfl : h = h' := Option.some.inj (hh.symm.trans hh')
      exact wf.arity hh (by rw [hkind]; rfl)
    have hltk : k < h.inputs.length := (List.getElem?_eq_some_iff.1 hy).1
    have hlti := hlt hi
    have hltj := hlt hj
    rcases (by omega : k = i ∨ k = j) with rfl | rfl
    · exact hi
    · exact hj
  obtain ⟨z, hz, hopen⟩ := justified.refers hk
  obtain rfl : y = z := Option.some.inj (hy.symm.trans hz)
  have hmatrix := Hop.not_isScalar_of_isMatrix (explored.isMatrix_of_hasOpen typed hopen hhy)
  rw [hscalar] at hmatrix
  exact Bool.noConfusion hmatrix

/-- In an explored memo the entries of a template at a hop are those of the rule. -/
theorem ExploredBy.entriesOf_eq {t : Template} (explored : memo.ExploredBy g config done)
    (hh : g.hop? id = some h) (he : e ∈ memo.entries id) :
    memo.entriesOf id t = Matcher.region ⟨t, false, config⟩ g memo h := by
  have hid : id ∈ done := by
    by_contra hnone
    rw [explored.outside fun _ _ => hnone] at he
    simp at he
  rw [entriesOf, explored.inside hid hh, filter_regions]

/-- The best entry takes in the first input that has an open region. -/
theorem ExploredBy.hasOpen_eq_false_of_lt (explored : memo.ExploredBy g config done)
    (typed : g.IsTyped) (hh : g.hop? h.id = some h)
    (hbest : memo.best? h.id .outerProduct = some e) (hi : e.refersTo i = true) (hji : j < i)
    {x : HopId} (hx : h.input? j = some x) : memo.hasOpen x .outerProduct = false := by
  cases hopen : memo.hasOpen x .outerProduct with
  | false => rfl
  | true =>
    have justified := explored.justified_of_best hh hbest
    obtain ⟨f, hf, hregion⟩ := Matcher.exists_region_eq_map memo justified.not_invalid
    have refers (e : MemoEntry) (k : Nat) : (f e).refersTo k = e.refersTo k := by
      rw [MemoEntry.refersTo, hf, MemoEntry.refersTo]
    -- The rule lists an entry for the first open position first.
    have hpositions : j ∈ Matcher.openPositions ⟨.outerProduct, false, config⟩ memo h :=
      Matcher.mem_openPositions_iff.2 ⟨x, hx, hopen⟩
    obtain ⟨first, rest, hfirst⟩ := List.exists_cons_of_ne_nil (List.ne_nil_of_mem hpositions)
    have hle : first ≤ j := by
      have ascending : (Matcher.openPositions ⟨.outerProduct, false, config⟩ memo h).Pairwise
          (· < ·) := List.pairwise_lt_range.filter _
      rw [hfirst] at hpositions ascending
      rcases List.mem_cons.1 hpositions with rfl | hmem
      · exact Nat.le_refl _
      · exact Nat.le_of_lt ((List.pairwise_cons.1 ascending).1 j hmem)
    obtain ⟨tail, htail⟩ : ∃ tail, Matcher.grown ⟨.outerProduct, false, config⟩ g memo h =
        .ofRefs .outerProduct [first] :: tail := by
      have hall : (first :: rest).filter (fun _ =>
          Matcher.fuses ⟨.outerProduct, false, config⟩ g h.id) = first :: rest :=
        List.filter_eq_self.2 fun _ _ => justified.fuses hi
      simp only [Matcher.grown, hfirst, hall]
      exact ⟨_, rfl⟩
    obtain ⟨before, after, hsplit, hbefore, _⟩ := best?_split hbest
    rw [explored.entriesOf_eq hh (best?_mem hbest).1, hregion, htail, List.map_cons] at hsplit
    cases before with
    | nil =>
      have he : f (.ofRefs .outerProduct [first]) = e := (List.cons.inj hsplit).1
      rw [← he, refers, MemoEntry.refersTo_ofRefs, List.mem_singleton] at hi
      omega
    | cons other before =>
      have he : f (.ofRefs .outerProduct [first]) = other := (List.cons.inj hsplit).1
      have hlt := hbefore other List.mem_cons_self
      have hone : other.refCount = 1 := by
        rw [← he, MemoEntry.refCount, hf]
        exact MemoEntry.refCount_ofRefs
      have hmost := MemoEntry.refCount_le_one fun a b ha hb =>
        explored.eq_of_refersTo typed hh justified ha hb
      omega

/-! ## The chain of a region -/

/-- A hop refers to one hop at most. -/
theorem ExploredBy.refers_unique (explored : memo.ExploredBy g config done) (typed : g.IsTyped)
    (hb : memo.Refers .outerProduct g a b) (hc : memo.Refers .outerProduct g a c) : b = c := by
  obtain ⟨h, e, i, hh, hbest, hb, hi⟩ := hb
  obtain ⟨h', e', j, hh', hbest', hc, hj⟩ := hc
  obtain rfl : h = h' := Option.some.inj (hh.symm.trans hh')
  obtain rfl : e = e' := Option.some.inj (hbest.symm.trans hbest')
  obtain rfl := typed.isBuilt.wellFormed.id_eq hh
  have justified := explored.justified_of_best hh hbest
  obtain rfl := explored.eq_of_refersTo typed hh justified hi hj
  exact Option.some.inj (hb.symm.trans hc)

/-- A product of factors refers to nothing. -/
theorem ExploredBy.not_refers (explored : memo.ExploredBy g config done) (wf : g.WellFormed)
    (hlike : g.isOuterProductLike a = true) : ¬ memo.Refers .outerProduct g a b := by
  rintro ⟨h, e, i, hh, hbest, _, hi⟩
  obtain rfl := wf.id_eq hh
  have hfuses : OuterProduct.fuses g h.id = true := (explored.justified_of_best hh hbest).fuses hi
  rw [OuterProduct.fuses_of_isOuterProductLike hh hlike] at hfuses
  exact Bool.noConfusion hfuses

/-- The region below a hop reaches a product of factors. -/
theorem ExploredBy.exists_product (explored : memo.ExploredBy g config done)
    (wf : g.WellFormed) :
    ∀ {root : HopId} {e : MemoEntry}, memo.best? root .outerProduct = some e →
      ∃ p, memo.InRegion .outerProduct g root p ∧ g.isOuterProductLike p = true := by
  intro root
  induction root using Nat.strong_induction_on with
  | _ root ih =>
    intro e hbest
    obtain ⟨h, hh, justified⟩ := explored.best hbest
    obtain rfl := wf.id_eq hh
    rcases justified.cases with hopens | ⟨_, i, x, hi, hx, hopen⟩
    · exact ⟨h.id, .refl, (Bool.and_eq_true_iff.1 hopens).1⟩
    · obtain ⟨e', hbest'⟩ := exists_best?_of_hasOpen hopen
      obtain ⟨p, hp, hlike⟩ := ih x (wf.input?_lt hh hx) hbest'
      exact ⟨p, .head ⟨h, e, i, hh, hbest, hx, hi⟩ hp, hlike⟩

/-- A product of factors is alone in the region below it. -/
theorem ExploredBy.eq_of_inRegion_product (explored : memo.ExploredBy g config done)
    (wf : g.WellFormed) (hlike : g.isOuterProductLike a = true)
    (hab : memo.InRegion .outerProduct g a b) : a = b := by
  rcases Relation.ReflTransGen.cases_head hab with heq | ⟨c, hc, _⟩
  · exact heq
  · exact absurd hc (explored.not_refers wf hlike)

/-- Every hop of a region has the product of factors below it. -/
theorem ExploredBy.inRegion_product (explored : memo.ExploredBy g config done) (typed : g.IsTyped)
    (ha : memo.InRegion .outerProduct g id a) (hb : memo.InRegion .outerProduct g id b)
    (hlike : g.isOuterProductLike b = true) : memo.InRegion .outerProduct g a b := by
  have unique : Relator.RightUnique (memo.Refers .outerProduct g) :=
    fun _ _ _ h h' => explored.refers_unique typed h h'
  rcases Relation.ReflTransGen.total_of_right_unique unique ha hb with hab | hba
  · exact hab
  · obtain rfl := explored.eq_of_inRegion_product typed.isBuilt.wellFormed hlike hba
    exact .refl

/-- The region below a hop has one product of factors. -/
theorem ExploredBy.product_unique (explored : memo.ExploredBy g config done) (typed : g.IsTyped)
    (ha : memo.InRegion .outerProduct g id a) (hb : memo.InRegion .outerProduct g id b)
    (hlikea : g.isOuterProductLike a = true) (hlikeb : g.isOuterProductLike b = true) : a = b :=
  explored.eq_of_inRegion_product typed.isBuilt.wellFormed hlikea
    (explored.inRegion_product typed ha hb hlikeb)

end Memo

end OpFusion
