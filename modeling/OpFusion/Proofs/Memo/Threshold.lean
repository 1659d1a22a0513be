import Mathlib.Data.List.Perm.Subperm
import OpFusion.Proofs.Memo.Reexploration

/-!
# Exploring under other settings

Of the settings, exploration asks for the threshold of outer products only, and only the template of
that name asks for it. The higher the threshold, the fewer regions start, and a hop grows regions
from fewer inputs. It never joins another pair of them on that account: only a binary operator joins
outer-product regions, so the pair is that of both its operands or there is none
(`firstJoin?_of_sublist`). So a higher threshold takes entries away and changes none of the others
(`explore_threshold`).
-/

namespace OpFusion

variable {g : Graph} {low high : Config} {id : HopId} {h : Hop}

/-- What is larger than a limit is larger than any lower one. -/
theorem Extent.exceeds_of_le {e : Extent} {limit limit' : UInt64} (hle : limit ≤ limit')
    (h : e.exceeds limit' = true) : e.exceeds limit = true := by
  cases e with
  | none => simp [exceeds] at h
  | some n =>
    simp only [exceeds, Option.any_some, decide_eq_true_eq] at h ⊢
    exact UInt64.lt_of_le_of_lt hle h

namespace OuterProduct

/-- Where a region starts above a threshold, it starts above every lower one. -/
theorem opens_of_le (hle : low.outerThreshold ≤ high.outerThreshold)
    (hopens : opens g high id = true) : opens g low id = true := by
  simp only [opens, Bool.and_eq_true] at hopens ⊢
  refine ⟨hopens.1, ?_⟩
  obtain ⟨h, hh, hrows, hcols⟩ := by simpa [Option.any_eq_true] using hopens.2
  rw [hh, Option.any_some, Extent.exceeds_of_le hle hrows, Extent.exceeds_of_le hle hcols]
  rfl

/-- Only a binary operator joins regions. -/
theorem arity_of_merges (hh : g.hop? h.id = some h) (hmerges : merges g h.id = true) :
    h.kind.arity = some 2 := by
  have operands : ∃ p, g.binaryOperands? h.id = some p := by
    rcases Bool.or_eq_true_iff.1 hmerges with hrow | hscalar
    · exact ((Option.any_eq_true ..).1 hrow).imp fun _ hp => hp.1
    · exact ((Option.any_eq_true ..).1 hscalar).imp fun _ hp => hp.1
  obtain ⟨⟨a, b⟩, hp⟩ := operands
  obtain ⟨h', op, hh', hkind, _, _⟩ := Graph.binaryOperands?_eq_some_iff.1 hp
  rw [Option.some.inj (hh.symm.trans hh'), hkind]
  rfl

end OuterProduct

namespace Matcher

variable {m : Matcher} {memo memo' : Memo}

/-- The more inputs hold an open region, the more positions are open. -/
theorem openPositions_sublist
    (hopen : ∀ x ∈ h.inputs, memo.hasOpen x m.template = true → memo'.hasOpen x m.template = true) :
    (m.openPositions memo h).Sublist (m.openPositions memo' h) := by
  refine List.monotone_filter_right _ fun i hi => ?_
  obtain ⟨x, hx, hopenx⟩ := (Option.any_eq_true ..).1 hi
  exact (Option.any_eq_true ..).2 ⟨x, hx, hopen x (List.mem_of_getElem? hx) hopenx⟩

/-- A hop that joins two outer-product regions joins the same two if more positions are open: it has
no others. -/
theorem firstJoin?_of_sublist (wf : g.WellFormed) (hh : g.hop? h.id = some h)
    (hm : m.template = .outerProduct) {positions positions' : List Nat}
    (hsub : positions.Sublist positions')
    (hall : positions'.Sublist (List.range h.inputs.length)) {join : Nat × Nat}
    (hjoin : m.firstJoin? g h positions = some join) :
    m.firstJoin? g h positions' = some join := by
  obtain ⟨a, b⟩ := join
  have hfound := List.find?_some hjoin
  obtain ⟨ha, hb⟩ := List.pair_mem_product.1 (List.mem_of_find?_eq_some hjoin)
  simp only [joins, Bool.and_eq_true, bne_iff_ne, ne_eq] at hfound
  obtain ⟨⟨hne, _⟩, hmerges⟩ := hfound
  have merges : OuterProduct.merges g h.id = true := by
    obtain ⟨x, _, hmerges⟩ := (Option.any_eq_true ..).1 hmerges
    simp only [Matcher.merges, hm, Bool.and_eq_true] at hmerges
    exact hmerges.2
  have two : h.inputs.length = 2 := wf.arity hh (OuterProduct.arity_of_merges hh merges)
  have atMost : positions'.length ≤ 2 := by
    simpa [two] using hall.length_le
  have atLeast : 2 ≤ positions.length := by
    have pair : [a, b].Nodup := by simpa using hne
    exact (pair.subperm (by simp [ha, hb])).length_le
  rwa [← hsub.eq_of_length_le (Nat.le_trans atMost atLeast)]

/-- From fewer open inputs, and above a higher threshold, no other entries grow. -/
theorem grown_sublist (wf : g.WellFormed) (hh : g.hop? h.id = some h)
    (hle : low.outerThreshold ≤ high.outerThreshold)
    (hopen : ∀ x ∈ h.inputs, memo.hasOpen x .outerProduct = true →
      memo'.hasOpen x .outerProduct = true) :
    (grown ⟨.outerProduct, false, high⟩ g memo h).Sublist
      (grown ⟨.outerProduct, false, low⟩ g memo' h) := by
  have positions : (openPositions ⟨.outerProduct, false, high⟩ memo h).Sublist
      (openPositions ⟨.outerProduct, false, low⟩ memo' h) := openPositions_sublist hopen
  refine ((positions.filter _).map _ |>.append ?_).append ?_
  · cases hjoin : firstJoin? ⟨.outerProduct, false, high⟩ g h
        (openPositions ⟨.outerProduct, false, high⟩ memo h) with
    | none => exact List.nil_sublist _
    | some join =>
      have hjoin' : firstJoin? ⟨.outerProduct, false, low⟩ g h
          (openPositions ⟨.outerProduct, false, low⟩ memo' h) = some join :=
        firstJoin?_of_sublist wf hh rfl positions List.filter_sublist hjoin
      rw [hjoin']
  · by_cases hopens : OuterProduct.opens g high h.id = true
    · have hopens' : OuterProduct.opens g low h.id = true := OuterProduct.opens_of_le hle hopens
      simp only [opens, hopens, hopens', if_true]
      exact List.Sublist.refl _
    · simp only [opens, hopens]
      exact List.nil_sublist _

/-- Nor are there others after the template has decided whether the region ends there. -/
theorem region_sublist (wf : g.WellFormed) (hh : g.hop? h.id = some h)
    (hle : low.outerThreshold ≤ high.outerThreshold)
    (hopen : ∀ x ∈ h.inputs, memo.hasOpen x .outerProduct = true →
      memo'.hasOpen x .outerProduct = true) :
    (region ⟨.outerProduct, false, high⟩ g memo h).Sublist
      (region ⟨.outerProduct, false, low⟩ g memo' h) := by
  have grown := grown_sublist wf hh hle hopen
  simp only [region, closing]
  cases OuterProduct.closing g h.id with
  | stillOpen => exact grown
  | valid => exact grown.map _
  | invalid => exact List.Sublist.refl _

/-- Matching a template asks for no setting but the threshold. -/
theorem explore_congr {t : Template} (heq : low.outerThreshold = high.outerThreshold) :
    Matcher.explore ⟨t, false, low⟩ g memo h = Matcher.explore ⟨t, false, high⟩ g memo h := by
  cases t with
  | outerProduct =>
    have opens : opens ⟨.outerProduct, false, low⟩ g h.id =
        opens ⟨.outerProduct, false, high⟩ g h.id := by
      simp only [opens, OuterProduct.opens, heq]
    simp only [Matcher.explore, proposals, opens]
    rfl
  | rowAgg => rfl

end Matcher

namespace Memo

variable {memo memo' : Memo} {done : List HopId} {roots : List HopId}

/-- What an open region shows in, a longer list of entries shows too. -/
theorem hasOpen_of_sublist {t : Template} {x : HopId}
    (hsub : (memo.entriesOf x t).Sublist (memo'.entriesOf x t)) (hopen : memo.hasOpen x t = true) :
    memo'.hasOpen x t = true := by
  obtain ⟨e, he, hclosed⟩ := hasOpen_iff.1 hopen
  exact hasOpen_iff.2 ⟨e, hsub.subset he, hclosed⟩

/-- The entries that one walk leaves under two thresholds: by induction on the number of the hop,
since fewer regions are then open at its inputs. -/
theorem ExploredBy.entriesOf_threshold (wf : g.WellFormed)
    (hle : low.outerThreshold ≤ high.outerThreshold) (explored : memo.ExploredBy g high done)
    (explored' : memo'.ExploredBy g low done) (id : HopId) :
    (memo.entriesOf id .outerProduct).Sublist (memo'.entriesOf id .outerProduct) ∧
      memo.entriesOf id .rowAgg = memo'.entriesOf id .rowAgg := by
  induction id using Nat.strong_induction_on with
  | _ id ih =>
    by_cases hexplored : ∃ h, g.hop? id = some h ∧ id ∈ done
    · obtain ⟨h, hh, hid⟩ := hexplored
      obtain rfl := wf.id_eq hh
      have inputs (x : HopId) (hx : x ∈ h.inputs) := ih x (wf.input_lt hh x hx)
      simp only [entriesOf, explored.inside hid hh, explored'.inside hid hh, filter_regions]
      constructor
      · exact Matcher.region_sublist wf hh hle fun x hx => hasOpen_of_sublist (inputs x hx).1
      · exact Matcher.region_congr (m := ⟨.rowAgg, false, high⟩) fun x hx => by
          rw [Bool.eq_iff_iff, hasOpen_iff, hasOpen_iff, (inputs x hx).2]
    · have unmatched {c : Config} {m : Memo} (explored : m.ExploredBy g c done) :
          m.entries id = [] := explored.outside fun h hh hid => hexplored ⟨h, hh, hid⟩
      simp [entriesOf, unmatched explored, unmatched explored']

/-- Exploration leaves the same memo under settings of the same threshold, whatever the memo held
before. -/
theorem explore_congr (heq : low.outerThreshold = high.outerThreshold) :
    memo.explore g low roots = memo.explore g high roots := by
  have step : exploreHop g low = exploreHop g high := by
    funext memo id
    unfold exploreHop
    split
    · rfl
    · exact List.foldl_ext _ _ _ fun _ _ _ => Matcher.explore_congr heq
  simp only [explore, step]

/-- Raising the threshold only takes outer-product entries away, at every hop, and leaves the others
in their order and closed as they were; the entries of the row template do not depend on the settings
at all. Under settings of the same threshold the explored memos are the same. -/
theorem explore_threshold (built : g.IsBuilt) (roots : List HopId)
    (hle : low.outerThreshold ≤ high.outerThreshold) :
    let below := (empty.explore g low roots).1
    let above := (empty.explore g high roots).1
    (∀ id, (above.entriesOf id .outerProduct).Sublist (below.entriesOf id .outerProduct) ∧
      above.entriesOf id .rowAgg = below.entriesOf id .rowAgg) ∧
      (low.outerThreshold = high.outerThreshold →
        empty.explore g low roots = empty.explore g high roots) := by
  intro below above
  have wf := built.wellFormed
  exact ⟨(exploredBy_explore wf high roots).entriesOf_threshold wf hle
    (exploredBy_explore wf low roots), explore_congr⟩

/-- The cells of two products, a small and a large one, of two factors each. -/
def twoProducts : Graph :=
  Graph.empty.build [.data "U" 300 10, .transpose 0, .matmul 0 1, .unary .exp 2,
    .data "W" 3000 10, .transpose 4, .matmul 4 5, .unary .exp 6]

/-- Under a threshold of 1000 the large product alone keeps its region. -/
theorem explore_threshold_twoProducts :
    twoProducts.IsBuilt ∧ (256 : UInt64) ≤ 1000 ∧
      let below := (empty.explore twoProducts ⟨true, 256⟩ [3, 7]).1
      let above := (empty.explore twoProducts ⟨false, 1000⟩ [3, 7]).1
      below.entriesOf 3 .outerProduct = [.ofRefs .outerProduct [0]] ∧
        above.entriesOf 3 .outerProduct = [] ∧
        above.entriesOf 7 .outerProduct = [.ofRefs .outerProduct [0]] ∧
        ∀ id, (above.entriesOf id .outerProduct).Sublist (below.entriesOf id .outerProduct) ∧
          above.entriesOf id .rowAgg = below.entriesOf id .rowAgg := by
  have built : twoProducts.IsBuilt := ⟨_, rfl⟩
  have hle : (256 : UInt64) ≤ 1000 := by decide
  have threshold := @explore_threshold twoProducts ⟨true, 256⟩ ⟨false, 1000⟩ built [3, 7] hle
  exact ⟨built, hle, by decide +kernel, by decide +kernel, by decide +kernel, threshold.1⟩

end Memo

end OpFusion
