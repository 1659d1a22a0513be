import OpFusion.Proofs.Plan.Assembly
import OpFusion.Proofs.Plan.Chain
import OpFusion.Proofs.Plan.Mismatch

/-!
# Closed regions

A template that ends a region takes it to be fit for compilation, but it does not look at all that
has to be lowered. `Obstacle` lists what it overlooks: hops that match and cannot be lowered, and
outer-product regions in which no main matrix is found or whose result lies nowhere. Without an
obstacle a closed region has a plan, and planning fails with nothing else
(`Plan.construct_of_closed`).
-/

namespace OpFusion

open Kernel

/-- What keeps the region below a hop from having a plan, with the error that reports it. -/
inductive Obstacle (memo : Memo) (g : Graph) (root : HopId) : Template → PlanError → Prop
  /-- A hop of the region matches but cannot be lowered. -/
  | mismatch {t : Template} {x : HopId} {h : Hop} {err : PlanError} : memo.InRegion t g root x →
      g.hop? x = some h → Mismatch g h t err → Obstacle memo g root t err
  /-- No hop of the region designates a main matrix. -/
  | noMain : (∀ x, memo.InRegion .outerProduct g root x → OuterProduct.mainOf? g x = none) →
      Obstacle memo g root .outerProduct (.missingFactor .main)
  /-- The region ends at a multiply, and neither factor is on its side of it. -/
  | misaligned {h : Hop} {x left right : HopId} : g.hop? root = some h → h.kind = .matmul →
      memo.InRegion .outerProduct g root x → OuterProduct.factorsOf? g x = some (left, right) →
      (h.input? 0).any (OuterProduct.isUpToTranspose g left) = false →
      (h.input? 1).any (OuterProduct.isUpToTranspose g right) = false →
      Obstacle memo g root .outerProduct (.unsupported .outerProduct h)

variable {memo : Memo} {g : Graph} {config : Config} {done : List HopId} {t : Template}
  {root : HopId} {e : MemoEntry} {h : Hop} {table : NodeTable} {d : Draft}

/-! ## Hops that are lowered -/

/-- What blocks an explored region is an obstacle. -/
theorem Memo.ExploredBy.obstacle_of_blocked (explored : memo.ExploredBy g config done)
    (typed : g.IsTyped) (hbest : memo.best? root t = some e) {err : PlanError}
    (blocked : memo.Blocked t g root err) : Obstacle memo g root t err := by
  cases blocked with
  | unmatched hx _ hnone =>
    obtain ⟨_, _, e', he'⟩ := explored.matched hbest hx
    rw [hnone] at he'
    simp at he'
  | refused hx hh he hrefusal =>
    obtain rfl := typed.isBuilt.wellFormed.id_eq hh
    have justified := explored.justified_of_best hh he
    have hmatched := justified.cases.imp_right And.left
    exact .mismatch hx hh (mismatch_of_refusal? typed hh hmatched hrefusal)

/-- A hop that has been lowered is not mismatched. -/
theorem Mismatch.not_lowered {err : PlanError} (mismatch : Mismatch g h t err) (wf : g.WellFormed)
    (hh : g.hop? h.id = some h) (hd : Draft.ofRegion t g memo config table root = .ok d) :
    h.id ∉ d.lowered := by
  intro hlowered
  obtain ⟨err', hrefusal⟩ := mismatch.exists_refusal? hh
  rw [Draft.refusal?_of_lowered wf hd hlowered hh] at hrefusal
  simp at hrefusal

/-- If a region with a mismatched hop is lowered all the same, then it borders on that hop or on
one above it. -/
theorem Mismatch.borders {err : PlanError} (mismatch : Mismatch g h t err) (wf : g.WellFormed)
    (hh : g.hop? h.id = some h) (hregion : memo.InRegion t g root h.id)
    (hd : Draft.ofRegion t g memo config table root = .ok d) :
    ∃ y, memo.InRegion t g root y ∧ memo.InRegion t g y h.id ∧ Draft.Borders t g memo root y := by
  rcases Draft.mem_lowered_or_borders wf hd hregion with hlowered | hborders
  · exact absurd hlowered (mismatch.not_lowered wf hh hd)
  · exact hborders

namespace OuterProduct

/-! ## Outer-product regions -/

/-- Of an explored outer-product region all hops are lowered, and only they. -/
theorem mem_lowered_iff (explored : memo.ExploredBy g config done) (typed : g.IsTyped)
    (hd : Draft.ofRegion .outerProduct g memo config table root = .ok d) {x : HopId} :
    x ∈ d.lowered ↔ memo.InRegion .outerProduct g root x := by
  constructor
  · intro hx
    obtain ⟨_, _, _, _, _, hregion, _⟩ := Draft.ofRegion_lowered typed.isBuilt.wellFormed hd hx
    exact hregion
  · intro hx
    refine Draft.lowered_of_inRegion explored typed hd (fun y _ hbound => ?_) x hx
    simp [Draft.binds_iff] at hbound

/-- The operands of a lowered hop, and the hops whose transposes it takes over, are bound. -/
theorem binds_of_lowered (wf : g.WellFormed)
    (hd : Draft.ofRegion .outerProduct g memo config table root = .ok d) (hx : h.id ∈ d.lowered)
    (hh : g.hop? h.id = some h) {y : HopId} (hy : y ∈ h.inputs ∨ y ∈ absorbed g h) : d.Binds y := by
  obtain ⟨h', e, d₀, f, hid, _, _, ready, precedes⟩ := Draft.ofRegion_lowered wf hd hx
  obtain rfl : h = h' := Option.some.inj (hh.symm.trans (hid ▸ ready.hop))
  refine (Draft.precedes_bindLowered.trans precedes).binds ?_
  rcases hy with hy | hy
  · exact ready.inputs y hy
  · exact ready.absorbed y hy

/-- The factors of a lowered region are those of its product, and they are bound. -/
theorem exists_factors (explored : memo.ExploredBy g config done) (typed : g.IsTyped)
    (hbest : memo.best? root .outerProduct = some e)
    (hd : Draft.ofRegion .outerProduct g memo config table root = .ok d) :
    ∃ left right, d.lowered.reverse.findSome? (factorsOf? g) = some (left, right) ∧
      (∀ x factors, memo.InRegion .outerProduct g root x → factorsOf? g x = some factors →
        factors = (left, right)) ∧
      (∃ x, memo.InRegion .outerProduct g root x ∧ factorsOf? g x = some (left, right)) ∧
      d.Binds left ∧ d.Binds right := by
  have wf := typed.isBuilt.wellFormed
  obtain ⟨p, hp, hlike⟩ := explored.exists_product wf hbest
  obtain ⟨left, right, hfactors⟩ := exists_factorsOf? hlike
  -- No other hop of the region designates factors, so the last one that does is the product.
  have unique {x : HopId} {factors : HopId × HopId} (hx : memo.InRegion .outerProduct g root x)
      (hfound : factorsOf? g x = some factors) : factors = (left, right) := by
    have hlikex := isOuterProductLike_of_factorsOf? hfound
    obtain rfl := explored.product_unique typed hx hp hlikex hlike
    exact Option.some.inj (hfound.symm.trans hfactors)
  have hlowered := (mem_lowered_iff explored typed hd).2 hp
  have hfound : d.lowered.reverse.findSome? (factorsOf? g) = some (left, right) := by
    cases hfound : d.lowered.reverse.findSome? (factorsOf? g) with
    | none =>
      have hnone := List.findSome?_eq_none_iff.1 hfound p (List.mem_reverse.2 hlowered)
      rw [hfactors] at hnone
      simp at hnone
    | some factors =>
      obtain ⟨x, hx, hfactorsx⟩ := List.exists_of_findSome?_eq_some hfound
      have hregion := (mem_lowered_iff explored typed hd).1 (List.mem_reverse.1 hx)
      rw [unique hregion hfactorsx]
  obtain ⟨h, hh, _⟩ := explored.matched hbest hp
  obtain rfl := wf.id_eq hh
  obtain ⟨hleft, hright⟩ := mem_of_factorsOf? hh wf hfactors
  exact ⟨left, right, hfound, fun _ _ => unique, ⟨h.id, hp, hfactors⟩,
    binds_of_lowered wf hd hlowered hh (.inl hleft), binds_of_lowered wf hd hlowered hh hright⟩

/-- What can become of a lowered region of an explored memo: no hop designates a main matrix, or the
result lies nowhere, or there is a plan. -/
theorem layout_cases (explored : memo.ExploredBy g config done) (typed : g.IsTyped)
    (hbest : memo.best? root .outerProduct = some e) (hh : g.hop? root = some h)
    (hd : Draft.ofRegion .outerProduct g memo config table root = .ok d) :
    ∃ left right,
      (∀ x factors, memo.InRegion .outerProduct g root x → factorsOf? g x = some factors →
        factors = (left, right)) ∧
      (∃ x, memo.InRegion .outerProduct g root x ∧ factorsOf? g x = some (left, right)) ∧
      ((∀ x, memo.InRegion .outerProduct g root x → mainOf? g x = none) ∧
          OuterProduct.plan g d root = .error (.missingFactor .main) ∨
        (∃ x main, memo.InRegion .outerProduct g root x ∧ mainOf? g x = some main) ∧
          (alignment? g h left right = none ∧
              OuterProduct.plan g d root = .error (.unsupported .outerProduct h) ∨
            (∃ alignment, alignment? g h left right = some alignment) ∧
              ∃ plan, OuterProduct.plan g d root = .ok plan)) := by
  have wf := typed.isBuilt.wellFormed
  have lowered {x : HopId} := mem_lowered_iff explored typed hd (x := x)
  obtain ⟨left, right, hfactors, unique, hproduct, hleft, hright⟩ :=
    exists_factors explored typed hbest hd
  have hroot : d.Binds root := Draft.binds_of_mem_lowered (Draft.mem_lowered_of_ofRegion wf hd)
  have hmain : ∀ x ∈ d.lowered, ∀ main, mainOf? g x = some main → d.Binds main := by
    intro x hx main hmain
    obtain ⟨h', hh', _⟩ := explored.matched hbest (lowered.1 hx)
    obtain rfl := wf.id_eq hh'
    exact binds_of_lowered wf hd hx hh' (.inl (mem_inputs_of_mainOf? hh' wf hmain))
  refine ⟨left, right, unique, hproduct, ?_⟩
  rcases plan_cases hroot hh hfactors hmain hleft hright with
    ⟨hnone, herror⟩ | ⟨⟨x, hx, main, hmainx⟩, hlayout⟩
  · exact .inl ⟨fun x hx => hnone x (lowered.2 hx), herror⟩
  · exact .inr ⟨⟨x, main, lowered.1 hx, hmainx⟩, hlayout⟩

/-- A region that ends is aligned with a factor unless it ends at a multiply. -/
theorem eq_matmul_of_alignment? (typed : g.IsTyped) (hh : g.hop? h.id = some h)
    (justified : memo.Justified g config .outerProduct h e) (hclosed : e.closed = true)
    {left right : HopId} (hnone : alignment? g h left right = none) : h.kind = .matmul := by
  have hclosing : closing g h.id = .valid := justified.closed_iff.1 hclosed
  have hmatched : opens g config h.id = true ∨ fuses g h.id = true :=
    justified.cases.imp_right And.left
  unfold closing at hclosing
  simp only [hh] at hclosing
  split at hclosing
  · rename_i op direction hkind
    -- Only sums over everything match, and they are scalars.
    have hdirection : direction = .rowCol := by
      rcases hmatched with hopens | hfuses
      · simp only [opens, Bool.and_eq_true] at hopens
        have hm := Graph.isMatmul_of_isOuterProductLike hh hopens.1
        simp [Hop.isMatmul, hkind] at hm
      · simpa [fuses, hh, hkind] using hfuses
    subst hdirection
    have hscalar := typed.isScalar_of_aggUnary hh hkind
    simp [alignment?, hscalar] at hnone
  · assumption
  · rename_i hkind
    have htranspose : h.isTranspose = true := by simp [Hop.isTranspose, hkind]
    have hscalar := Hop.not_isScalar_of_isMatrix (typed.isMatrix_of_reorg hh hkind)
    simp [alignment?, hscalar, htranspose] at hnone
  · simp at hclosing

/-- A lowered outer-product region that ends has a plan or an obstacle, not both. -/
theorem plan_outcome (explored : memo.ExploredBy g config done) (typed : g.IsTyped)
    (hbest : memo.best? root .outerProduct = some e) (hclosed : e.closed = true)
    (hd : Draft.ofRegion .outerProduct g memo config table root = .ok d) :
    (∃ err, Obstacle memo g root .outerProduct err ∧
        OuterProduct.plan g d root = .error err) ∨
      (∃ plan, OuterProduct.plan g d root = .ok plan) ∧
        ∀ err, ¬ Obstacle memo g root .outerProduct err := by
  have wf := typed.isBuilt.wellFormed
  obtain ⟨h, hh, justified⟩ := explored.best hbest
  obtain rfl := wf.id_eq hh
  obtain ⟨left, right, unique, ⟨p, hp, hfactorsp⟩, hcases⟩ :=
    layout_cases explored typed hbest hh hd
  rcases hcases with
    ⟨hnone, herror⟩ | ⟨⟨x, main, hx, hmainx⟩, ⟨hnone, herror⟩ | ⟨⟨alignment, hsome⟩, hplan⟩⟩
  · exact .inl ⟨_, .noMain hnone, herror⟩
  · left
    have hkind := eq_matmul_of_alignment? typed hh justified hclosed hnone
    have hmatrix := typed.isMatrix_of_matmul hh hkind
    obtain ⟨ha, hb⟩ := (alignment?_eq_none_iff hmatrix hkind).1 hnone
    exact ⟨_, .misaligned hh hkind hp hfactorsp ha hb, herror⟩
  · right
    refine ⟨hplan, fun err obstacle => ?_⟩
    cases obstacle with
    | mismatch hregion hhx mismatch =>
      obtain rfl := wf.id_eq hhx
      exact mismatch.not_lowered wf hhx hd ((mem_lowered_iff explored typed hd).2 hregion)
    | noMain hnone =>
      rw [hnone x hx] at hmainx
      simp at hmainx
    | misaligned hh' hkind hx' hfactorsx ha hb =>
      obtain rfl := Option.some.inj (hh.symm.trans hh')
      obtain ⟨rfl, rfl⟩ := Prod.mk.inj (unique _ _ hx' hfactorsx)
      have hmatrix := typed.isMatrix_of_matmul hh hkind
      rw [(alignment?_eq_none_iff hmatrix hkind).2 ⟨ha, hb⟩] at hsome
      simp at hsome

end OuterProduct

/-! ## Planning -/

/-- Without an obstacle a closed region has a plan, and planning fails with nothing else. -/
theorem Memo.ExploredBy.construct_ends (explored : memo.ExploredBy g config done)
    (typed : g.IsTyped) (hbest : memo.best? root t = some e) (hclosed : e.closed = true) :
    Ends (Obstacle memo g root t) (Plan.construct t g memo config table root) := by
  have wf := typed.isBuilt.wellFormed
  have hregion : Ends (Obstacle memo g root t) (Draft.ofRegion t g memo config table root) := by
    obtain ⟨_, hh, _⟩ := explored.best hbest
    rcases Draft.ofRegion_ends wf hh with hok | ⟨err, blocked, herr⟩
    · exact .inl hok
    · exact .inr ⟨err, explored.obstacle_of_blocked typed hbest blocked, herr⟩
  refine hregion.bind fun d hd => ?_
  cases t with
  | outerProduct =>
    rcases OuterProduct.plan_outcome explored typed hbest hclosed hd with hfails | ⟨hok, _⟩
    · exact .inr hfails
    · exact .inl hok
  | rowAgg =>
    exact .inl (RowAgg.exists_plan
      (Draft.binds_of_mem_lowered (Draft.mem_lowered_of_ofRegion wf hd)))

/-- In a typed graph a closed region has a plan unless there is an obstacle, and then planning fails
with an obstacle there is. An outer-product region with an obstacle never has a plan, and any other
one with a mismatched hop has one only if it borders on that hop or on one above it. -/
theorem Plan.construct_of_closed (typed : g.IsTyped) (config : Config) (roots : List HopId)
    (hbest : (Memo.empty.explore g config roots).1.best? root t = some e)
    (hclosed : e.closed = true) (table : NodeTable) :
    Ends (Obstacle (Memo.empty.explore g config roots).1 g root t)
        (construct t g (Memo.empty.explore g config roots).1 config table root) ∧
      ∀ plan, construct t g (Memo.empty.explore g config roots).1 config table root = .ok plan →
        (t = .outerProduct → ∀ err, ¬ Obstacle (Memo.empty.explore g config roots).1 g root t err) ∧
        ∀ x h err, (Memo.empty.explore g config roots).1.InRegion t g root x →
          g.hop? x = some h → Mismatch g h t err →
          ∃ y, (Memo.empty.explore g config roots).1.InRegion t g root y ∧
            (Memo.empty.explore g config roots).1.InRegion t g y x ∧
            Draft.Borders t g (Memo.empty.explore g config roots).1 root y := by
  have wf := typed.isBuilt.wellFormed
  have explored := Memo.exploredBy_explore wf config roots
  refine ⟨explored.construct_ends typed hbest hclosed, fun plan hplan => ?_⟩
  obtain ⟨d, hd, hplan⟩ := bind_eq_ok_iff.1 hplan
  constructor
  · rintro rfl
    rcases OuterProduct.plan_outcome explored typed hbest hclosed hd with ⟨err, _, herr⟩ | ⟨_, none⟩
    · have hplan : OuterProduct.plan g d root = .ok plan := hplan
      rw [herr] at hplan
      simp at hplan
    · exact none
  · intro x h err hx hh mismatch
    obtain rfl := wf.id_eq hh
    exact mismatch.borders wf hh hx hd

theorem Plan.construct_of_closed_quotient :
    Memo.ofQuotient.best? 6 .rowAgg = some (MemoEntry.ofRefs .rowAgg [0]).close ∧
      Ends (Obstacle Memo.ofQuotient Memo.quotient 6 .rowAgg)
        (construct .rowAgg Memo.quotient Memo.ofQuotient .default .empty 6) := by
  have typed : Memo.quotient.IsTyped := ⟨Memo.quotientRequests, by decide, rfl⟩
  have hbest : Memo.ofQuotient.best? 6 .rowAgg = some (MemoEntry.ofRefs .rowAgg [0]).close := by
    decide +kernel
  exact ⟨hbest, (construct_of_closed typed .default [6] hbest rfl .empty).1⟩

/-- The maxima of the columns of a matrix. -/
def Plan.maxima : Graph := Graph.empty.build [.data "X" 100 20, .aggUnary .max .col 0]

/-- The row template opens and ends a region at the maxima of the columns, and cannot lower them. -/
theorem Plan.maxima_closed_unsupported :
    maxima.IsTyped ∧
      (Memo.empty.explore maxima .default [1]).1.best? 1 .rowAgg =
        some (MemoEntry.ofRefs .rowAgg []).close ∧
      (MemoEntry.ofRefs .rowAgg []).close.closed = true ∧
      ∃ h, maxima.hop? 1 = some h ∧
        construct .rowAgg maxima (Memo.empty.explore maxima .default [1]).1 .default .empty 1 =
          .error (.unsupported .rowAgg h) :=
  ⟨⟨_, by decide, rfl⟩, by decide, rfl, (maxima.hop? 1).get (by decide), by decide,
    by decide +kernel⟩

end OpFusion
