import OpFusion.Proofs.Memo.Chain

/-!
# The product at the end of a chain

From a hop with an outer-product region the references of the best entries lead, one at a time, to a
hop that refers to nothing (`Memo.Chain`). That hop is a large product of two factors, and it is the
only one on the way: every hop before it extends the open region of the next
(`outerProduct_chains`).
-/

namespace OpFusion

/-- An entry counts no reference exactly if it refers to no position. -/
theorem MemoEntry.refCount_eq_zero_iff {e : MemoEntry} :
    e.refCount = 0 ↔ ∀ i, e.refersTo i = false := by
  rw [refCount, ← PositionSet.card_members, Finset.card_eq_zero, Finset.eq_empty_iff_forall_notMem]
  simp only [PositionSet.mem_members, refersTo, Bool.not_eq_true]

namespace Memo

/-- The references of the best entries lead from `a` past the hops of a list, first `a` itself, to
`p`, whose best entry refers to nothing. -/
inductive Chain (memo : Memo) (t : Template) (g : Graph) : HopId → List HopId → HopId → Prop
  | stop {p : HopId} {e : MemoEntry} : memo.best? p t = some e → e.refCount = 0 →
      Chain memo t g p [] p
  | follow {a b p : HopId} {l : List HopId} : memo.Refers t g a b → Chain memo t g b l p →
      Chain memo t g a (a :: l) p

variable {memo : Memo} {g : Graph} {config : Config} {done : List HopId} {t : Template}
  {a b p q root : HopId} {l : List HopId} {h : Hop} {e : MemoEntry}

/-- Each hop before the end of a chain refers to the next one. -/
theorem Chain.refers_of_mem (chain : memo.Chain t g a l p) (hq : q ∈ l) :
    ∃ x, memo.Refers t g q x ∧ (x ∈ l ∨ x = p) := by
  induction chain with
  | stop => simp at hq
  | @follow a b p l hab hrest ih =>
    rcases List.mem_cons.1 hq with rfl | hq
    · refine ⟨b, hab, ?_⟩
      cases hrest with
      | stop => exact .inr rfl
      | follow => exact .inl (List.mem_cons_of_mem _ List.mem_cons_self)
    · obtain ⟨x, hx, hmem⟩ := ih hq
      exact ⟨x, hx, hmem.imp_left (List.mem_cons_of_mem _)⟩

/-- A chain ends at a hop whose best entry refers to nothing. -/
theorem Chain.best?_end (chain : memo.Chain t g a l p) :
    ∃ e, memo.best? p t = some e ∧ e.refCount = 0 := by
  induction chain with
  | stop hbest hzero => exact ⟨_, hbest, hzero⟩
  | follow _ _ ih => exact ih

/-- What refers to something has a reference. -/
theorem Refers.refCount_ne_zero (hab : memo.Refers t g a b) (hbest : memo.best? a t = some e) :
    e.refCount ≠ 0 := by
  obtain ⟨h, e', i, _, hbest', _, hi⟩ := hab
  obtain rfl : e = e' := Option.some.inj (hbest.symm.trans hbest')
  intro hzero
  rw [MemoEntry.refCount_eq_zero_iff.1 hzero i] at hi
  exact Bool.noConfusion hi

/-- There is one chain from a hop at most, since a hop refers to one hop at most. -/
theorem ExploredBy.chain_unique (explored : memo.ExploredBy g config done) (typed : g.IsTyped)
    (chain : memo.Chain .outerProduct g a l p) :
    ∀ {l' : List HopId} {p' : HopId}, memo.Chain .outerProduct g a l' p' → l' = l ∧ p' = p := by
  induction chain with
  | stop hbest hzero =>
    intro l' p' chain'
    cases chain' with
    | stop => exact ⟨rfl, rfl⟩
    | follow hrefers => exact absurd hzero (hrefers.refCount_ne_zero hbest)
  | @follow a b p l hab _ ih =>
    intro l' p' chain'
    cases chain' with
    | stop hbest hzero => exact absurd hzero (hab.refCount_ne_zero hbest)
    | follow hab' hrest =>
      obtain rfl := explored.refers_unique typed hab hab'
      obtain ⟨rfl, rfl⟩ := ih hrest
      exact ⟨rfl, rfl⟩

/-- From every hop with a best entry a chain leads down, since what is referred to matches as well. -/
theorem ExploredBy.exists_chain (explored : memo.ExploredBy g config done) (wf : g.WellFormed) :
    ∀ {root : HopId} {e : MemoEntry}, memo.best? root t = some e →
      ∃ l p, memo.Chain t g root l p := by
  intro root
  induction root using Nat.strong_induction_on with
  | _ root ih =>
    intro e hbest
    by_cases hzero : e.refCount = 0
    · exact ⟨[], root, .stop hbest hzero⟩
    · obtain ⟨i, hi⟩ : ∃ i, e.refersTo i = true := by
        simpa [MemoEntry.refCount_eq_zero_iff] using hzero
      obtain ⟨h, hh, justified⟩ := explored.best hbest
      obtain ⟨x, hx, hopen⟩ := justified.refers hi
      obtain ⟨e', hbest'⟩ := exists_best?_of_hasOpen hopen
      obtain ⟨l, p, chain⟩ := ih x (wf.input?_lt hh hx) hbest'
      exact ⟨root :: l, p, .follow ⟨h, e, i, hh, hbest, hx, hi⟩ chain⟩

/-- An outer-product entry refers to one input at most. -/
theorem ExploredBy.refCount_le_one (explored : memo.ExploredBy g config done) (typed : g.IsTyped)
    (he : e ∈ memo.entriesOf a .outerProduct) : e.refCount ≤ 1 := by
  obtain ⟨he, ht⟩ := mem_entriesOf_iff.1 he
  obtain ⟨h, hh, justified⟩ := explored.justified he
  obtain rfl := typed.isBuilt.wellFormed.id_eq hh
  rw [ht] at justified
  exact MemoEntry.refCount_le_one fun i j hi hj => explored.eq_of_refersTo typed hh justified hi hj

/-- A hop that an outer-product region takes in on top of another is no product of factors. -/
theorem ExploredBy.fuses_of_refers (explored : memo.ExploredBy g config done) (wf : g.WellFormed)
    (hab : memo.Refers .outerProduct g a b) :
    OuterProduct.fuses g a = true ∧ g.isOuterProductLike a = false := by
  constructor
  · obtain ⟨h, e, i, hh, hbest, _, hi⟩ := hab
    obtain rfl := wf.id_eq hh
    exact (explored.justified_of_best hh hbest).fuses hi
  · cases hlike : g.isOuterProductLike a with
    | false => rfl
    | true => exact absurd hab (explored.not_refers wf hlike)

/-- Entries without references are where the walk has passed a hop at which regions start. -/
theorem ExploredBy.exists_starting_iff (explored : memo.ExploredBy g config done)
    (wf : g.WellFormed) :
    (∃ e ∈ memo.entriesOf a .outerProduct, e.refCount = 0) ↔
      a ∈ done ∧ OuterProduct.opens g config a = true := by
  constructor
  · rintro ⟨e, he, hzero⟩
    obtain ⟨he, ht⟩ := mem_entriesOf_iff.1 he
    obtain ⟨h, hh, justified⟩ := explored.justified he
    obtain rfl := wf.id_eq hh
    rw [ht] at justified
    refine ⟨?_, justified.opens (MemoEntry.refCount_eq_zero_iff.1 hzero)⟩
    by_contra hnone
    rw [explored.outside fun _ _ => hnone] at he
    simp at he
  · rintro ⟨ha, hopens⟩
    obtain ⟨hlike, hextents⟩ := Bool.and_eq_true_iff.1 hopens
    obtain ⟨h, hh, _⟩ := (Option.any_eq_true ..).1 hextents
    obtain rfl := wf.id_eq hh
    have hclosing : Matcher.closing ⟨.outerProduct, false, config⟩ g h.id = .stillOpen :=
      OuterProduct.closing_of_isOuterProductLike hh hlike
    have hstart : Matcher.opens ⟨.outerProduct, false, config⟩ g h.id = true := hopens
    refine ⟨.ofRefs .outerProduct [], mem_entriesOf_iff.2 ⟨?_, rfl⟩, rfl⟩
    rw [explored.inside ha hh, regions]
    refine List.mem_append_left _ ?_
    -- The region stays open at a product, so the entry that starts it is kept.
    simp [Matcher.region, hclosing, Matcher.grown, hstart]

/-- In a typed graph the outer-product regions of an explored memo are chains with one pair of
factors. An entry refers to one input at most, and to none exactly where a region starts, among the
hops that the roots reach up to the first unknown root. From any hop with an entry one chain of best
references leads to one hop without any: a product of factors both of whose extents exceed the
threshold. No hop before it is such a product, and each extends the next one, whose region is open. -/
theorem outerProduct_chains (typed : g.IsTyped) (config : Config) (roots : List HopId) :
    (∀ a, ∀ e ∈ (empty.explore g config roots).1.entriesOf a .outerProduct, e.refCount ≤ 1) ∧
      (∀ a, (∃ e ∈ (empty.explore g config roots).1.entriesOf a .outerProduct, e.refCount = 0) ↔
        Dag.ReachedFrom g.inputs (roots.takeWhile g.contains) a ∧
          OuterProduct.opens g config a = true) ∧
      ∀ a, ∀ e ∈ (empty.explore g config roots).1.entriesOf a .outerProduct,
        ∃ l p, (empty.explore g config roots).1.Chain .outerProduct g a l p ∧
          (∀ l' p', (empty.explore g config roots).1.Chain .outerProduct g a l' p' →
            l' = l ∧ p' = p) ∧
          g.isOuterProductLike p = true ∧
          (∃ h, g.hop? p = some h ∧ h.shape.rows.exceeds config.outerThreshold = true ∧
            h.shape.cols.exceeds config.outerThreshold = true) ∧
          ∀ q ∈ l, g.isOuterProductLike q = false ∧
            ∃ x, (empty.explore g config roots).1.Refers .outerProduct g q x ∧ (x ∈ l ∨ x = p) ∧
              OuterProduct.fuses g q = true ∧
              (empty.explore g config roots).1.hasOpen x .outerProduct = true := by
  have wf := typed.isBuilt.wellFormed
  have explored := exploredBy_explore wf config roots
  refine ⟨fun a e he => explored.refCount_le_one typed he, fun a => ?_, fun a e he => ?_⟩
  · rw [explored.exists_starting_iff wf, Dag.mem_postOrder wf.descending]
  · obtain ⟨he, ht⟩ := mem_entriesOf_iff.1 he
    obtain ⟨best, hbest⟩ := exists_best? he ht
    obtain ⟨l, p, chain⟩ := explored.exists_chain wf hbest
    -- The best entry at the end has no reference, so a region starts there.
    obtain ⟨last, hlast, hzero⟩ := chain.best?_end
    have hlast := mem_entriesOf_iff.2 (best?_mem hlast)
    have hopens := ((explored.exists_starting_iff wf).1 ⟨last, hlast, hzero⟩).2
    obtain ⟨hlike, hextents⟩ := Bool.and_eq_true_iff.1 hopens
    obtain ⟨h, hh, hexceeds⟩ := (Option.any_eq_true ..).1 hextents
    obtain ⟨hrows, hcols⟩ := Bool.and_eq_true_iff.1 hexceeds
    refine ⟨l, p, chain, fun _ _ chain' => explored.chain_unique typed chain chain', hlike,
      ⟨h, hh, hrows, hcols⟩, fun q hq => ?_⟩
    obtain ⟨x, hx, hmem⟩ := chain.refers_of_mem hq
    obtain ⟨hfuses, hnot⟩ := explored.fuses_of_refers wf hx
    exact ⟨hnot, x, hx, hmem, hfuses, explored.hasOpen_of_refers hx⟩

/-- The cells of a product of two factors, weighted by a matrix and summed up:
`sum(X * (U %*% t(V)))`. -/
def weightedRequests : List HopRequest :=
  [.data "X" 300 400, .data "U" 300 10, .data "V" 400 10, .transpose 2, .matmul 1 3,
    .binary .mult 0 4, .sum 5]

/-- The graph of that sum. -/
def weighted : Graph := Graph.empty.build weightedRequests

/-- Its explored memo. -/
def ofWeighted : Memo := (empty.explore weighted .default [6]).1

theorem outerProduct_chains_weighted :
    weighted.IsTyped ∧
      (MemoEntry.ofRefs .outerProduct [0]).close ∈ ofWeighted.entriesOf 6 .outerProduct ∧
      ∃ l p, ofWeighted.Chain .outerProduct weighted 6 l p ∧
        weighted.isOuterProductLike p = true ∧ ∀ q ∈ l, weighted.isOuterProductLike q = false := by
  have typed : weighted.IsTyped := ⟨weightedRequests, by decide, rfl⟩
  have he : (MemoEntry.ofRefs .outerProduct [0]).close ∈ ofWeighted.entriesOf 6 .outerProduct := by
    decide
  obtain ⟨l, p, chain, _, hlike, _, before⟩ := (outerProduct_chains typed .default [6]).2.2 6 _ he
  exact ⟨typed, he, l, p, chain, hlike, fun q hq => (before q hq).1⟩

end Memo

end OpFusion
