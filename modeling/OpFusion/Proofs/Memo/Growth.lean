import OpFusion.Proofs.Graph.Growth
import OpFusion.Proofs.Memo.Best

/-!
# Exploring a growing graph

What lies below a hop does not change as the graph grows, and the templates ask about nothing else,
with one exception: whether an outer-product region ends at a multiply depends on who is the first
to read it. If nobody reads it yet, the region ends there, and it no longer does once a transpose is
the first to read it (`TransposedLater`). Exploration leaves the same entries everywhere else
(`regrows_build`).
-/

namespace OpFusion

/-- A multiply that nobody reads in `g` and that does not have the shape of an outer product is read
in `g'`, and the first to read it is a transpose. -/
def Graph.TransposedLater (g g' : Graph) (id : HopId) : Prop :=
  (∃ h, g.hop? id = some h ∧ h.isMatmul = true ∧ h.parents = []) ∧
    g.isOuterProductLike id = false ∧ (g'.firstParent? id).any (·.isTranspose) = true

/-- Of a hop that is read already, nobody new becomes the first to read it. -/
theorem Graph.IsBuilt.not_transposedLater {g g' : Graph} (built : g.IsBuilt) {id p : HopId}
    (hp : id ∈ g.inputs p) : ¬ g.TransposedLater g' id := fun ⟨⟨_, hh, _, hnone⟩, _⟩ =>
  built.parents_ne_nil hh hp hnone

/-! ## The questions of the templates -/

section Rules

variable {g g' : Graph} {config : Config} {id x : HopId} (grows : g.GrowsTo g')

namespace RowAgg

section

variable (wf : g.WellFormed) (hid : id < g.size)

include grows wf hid

theorem hasTransposedLeft_grown : hasTransposedLeft g' id = hasTransposedLeft g id :=
  grows.any_input?_eq wf hid fun _ => rfl

theorem opens_grown : opens g' id = opens g id := by
  have genuine : (g'.input? id 0).any (·.shape.isGenuineMatrix) =
      (g.input? id 0).any (·.shape.isGenuineMatrix) := grows.any_input?_eq wf hid fun _ => rfl
  unfold opens
  rw [genuine]
  exact grows.any_hop?_eq wf hid fun _ => rfl

theorem fuses_grown : fuses g' id = fuses g id := by
  unfold fuses
  rw [grows.isMatrixColVectorRight_eq wf hid, grows.isMatrixScalar_eq wf hid,
    hasTransposedLeft_grown grows wf hid]
  exact grows.any_hop?_eq wf hid fun _ => rfl

theorem merges_grown (hx : x < g.size) : merges g' id x = merges g id x := by
  have single : (g'.hop? x).any (·.shape.cols == some 1) =
      (g.hop? x).any (·.shape.cols == some 1) := grows.any_hop?_eq wf hx fun _ => rfl
  unfold merges
  rw [single, hasTransposedLeft_grown grows wf hid]
  exact grows.any_hop?_eq wf hid fun _ => rfl

theorem closing_grown : closing g' id = closing g id := by
  obtain ⟨h, hh⟩ := Graph.exists_hop?_iff.2 hid
  simp only [closing, hh, grows.hop?_of_hop? wf hh, hasTransposedLeft_grown grows wf hid]
  rfl

end

end RowAgg

namespace OuterProduct

section

variable (wf : g.WellFormed) (hid : id < g.size)

include grows wf hid

theorem opens_grown : opens g' config id = opens g config id := by
  unfold opens
  rw [grows.isOuterProductLike_eq wf hid]
  exact congrArg _ (grows.any_hop?_eq wf hid fun _ => rfl)

theorem fuses_grown : fuses g' id = fuses g id := by
  unfold fuses
  rw [grows.isMatrixColVector_eq wf hid, grows.isMatrixScalar_eq wf hid,
    grows.isMatrixMatrix_eq wf hid, grows.isBinary_eq wf hid, grows.isOuterProductLike_eq wf hid]
  exact grows.any_hop?_eq wf hid fun _ => rfl

theorem merges_grown : merges g' id = merges g id := by
  unfold merges
  rw [grows.isMatrixRowVector_eq wf hid, grows.isMatrixScalar_eq wf hid]

end

include grows

/-- Whether the first to read a multiply is a transpose changes only if it is transposed later. -/
theorem isTranspose_firstParent?_grown (built : g.IsBuilt) {h : Hop} (hh : g.hop? id = some h)
    (hm : h.isMatmul = true) (hother : g.isOuterProductLike id = false)
    (hlater : ¬ g.TransposedLater g' id) :
    (g'.firstParent? id).any (·.isTranspose) = (g.firstParent? id).any (·.isTranspose) := by
  by_cases hread : h.parents = []
  · have nobody : g.firstParent? id = none := by simp [Graph.firstParent?, hh, hread]
    rw [nobody, Option.any_none, ← Bool.not_eq_true]
    exact fun htransposed => hlater ⟨⟨h, hh, hm, hread⟩, hother, htransposed⟩
  · rw [grows.firstParent?_eq built hh hread, Option.any_map]
    rfl

/-- The template ends its region at a hop as before, unless the hop is transposed later. -/
theorem closing_grown (built : g.IsBuilt) (hid : id < g.size)
    (hlater : ¬ g.TransposedLater g' id) : closing g' id = closing g id := by
  have wf := built.wellFormed
  obtain ⟨h, hh⟩ := Graph.exists_hop?_iff.2 hid
  have below {x : HopId} (hx : x ∈ h.input? 0) : x < g.size := wf.input?_lt_size hh hx
  have like : (h.input? 0).any g'.isOuterProductLike = (h.input? 0).any g.isOuterProductLike :=
    Option.any_congr fun _ hx => grows.isOuterProductLike_eq wf (below hx)
  have other : (h.input? 0).any (fun i => g'.isMatmul i && !g'.isOuterProductLike i) =
      (h.input? 0).any fun i => g.isMatmul i && !g.isOuterProductLike i :=
    Option.any_congr fun _ hx => by
      rw [grows.isMatmul_eq wf (below hx), grows.isOuterProductLike_eq wf (below hx)]
  have kind : (g'.regrown h).kind = h.kind := rfl
  have input : (g'.regrown h).input? 0 = h.input? 0 := rfl
  simp only [closing, hh, grows.hop?_of_hop? wf hh, kind, input, like, other,
    grows.isOuterProductLike_eq wf hid]
  cases hkind : h.kind with
  | matmul =>
    cases hother : g.isOuterProductLike id with
    | true => rfl
    | false =>
      rw [isTranspose_firstParent?_grown grows built hh (decide_eq_true hkind) hother hlater]
  | reorg op => cases op <;> rfl
  | _ => rfl

/-- At a multiply that is transposed later, regions ended and no longer do. -/
theorem closing_of_transposedLater (wf : g.WellFormed) (hlater : g.TransposedLater g' id) :
    closing g id = .valid ∧ closing g' id = .stillOpen := by
  obtain ⟨⟨h, hh, hm, hnone⟩, hother, htransposed⟩ := hlater
  have hkind : h.kind = .matmul := of_decide_eq_true hm
  have nobody : g.firstParent? id = none := by simp [Graph.firstParent?, hh, hnone]
  refine ⟨by simp [closing, hh, hkind, hother, nobody], ?_⟩
  have hkind' : (g'.regrown h).kind = .matmul := hkind
  simp [closing, grows.hop?_of_hop? wf hh, hkind', htransposed]

end OuterProduct

end Rules

/-! ## One hop -/

namespace Matcher

variable {m : Matcher} {g g' : Graph} {h : Hop} {before after : Memo} (grows : g.GrowsTo g')
  (wf : g.WellFormed)

include grows wf

section

variable {id x : HopId} (hid : id < g.size)

include hid

theorem opens_grown : m.opens g' id = m.opens g id := by
  unfold opens
  rw [OuterProduct.opens_grown grows wf hid, RowAgg.opens_grown grows wf hid]

theorem fuses_grown : m.fuses g' id = m.fuses g id := by
  unfold fuses
  rw [OuterProduct.fuses_grown grows wf hid, RowAgg.fuses_grown grows wf hid]

theorem merges_grown (hx : x < g.size) : m.merges g' id x = m.merges g id x := by
  unfold merges
  rw [OuterProduct.merges_grown grows wf hid, RowAgg.merges_grown grows wf hid hx]

end

theorem joins_grown (hh : g.hop? h.id = some h) {a b : Nat} :
    m.joins g' h a b = m.joins g h a b := by
  have hid := Graph.lt_size_of_hop? hh
  have merged : (h.input? b).any (m.merges g' h.id) = (h.input? b).any (m.merges g h.id) :=
    Option.any_congr fun x hx => merges_grown grows wf hid (wf.input?_lt_size hh hx)
  rw [joins, joins, fuses_grown grows wf hid, merged]

/-- What grows at a hop is the same if regions are open at the same inputs. -/
theorem grown_grown (hh : g.hop? h.id = some h)
    (hopen : ∀ x ∈ h.inputs, after.hasOpen x m.template = before.hasOpen x m.template) :
    m.grown g' after (g'.regrown h) = m.grown g before h := by
  have hid := Graph.lt_size_of_hop? hh
  have join (positions : List Nat) : m.firstJoin? g' h positions = m.firstJoin? g h positions := by
    simp only [firstJoin?, joins_grown grows wf hh]
  show m.grown g' after h = _
  rw [grown_congr hopen]
  simp only [grown, opens_grown grows wf hid, fuses_grown grows wf hid, join]

/-- So are the entries, if the region ends there as before. -/
theorem region_grown (hh : g.hop? h.id = some h)
    (hopen : ∀ x ∈ h.inputs, after.hasOpen x m.template = before.hasOpen x m.template)
    (hclosing : m.closing g' h.id = m.closing g h.id) :
    m.region g' after (g'.regrown h) = m.region g before h := by
  have hid : (g'.regrown h).id = h.id := rfl
  simp only [region, hid, hclosing, grown_grown grows wf hh hopen]

end Matcher

/-! ## Whole explorations -/

namespace Memo

variable {g g' : Graph} {config : Config} {id : HopId} {roots : List HopId} {before after : Memo}

/-- What the growth of a graph leaves of the entries at a hop: all, unless the hop is transposed
later. In that case the entries of outer products, which were closed, are open. -/
structure Regrows (before after : Memo) (g g' : Graph) (id : HopId) : Prop where
  same : ¬ g.TransposedLater g' id → after.entries id = before.entries id
  rowAgg : after.entriesOf id .rowAgg = before.entriesOf id .rowAgg
  outerProduct : g.TransposedLater g' id →
    before.entriesOf id .outerProduct = (after.entriesOf id .outerProduct).map (·.close) ∧
      ∀ e ∈ after.entriesOf id .outerProduct, e.closed = false

/-- The entries that explorations of a graph and of a larger one leave at what both have passed: by
induction on the number of the hop. An input is read, so it is not transposed later, and regions are
open at the inputs as before. -/
theorem ExploredBy.regrows (grows : g.GrowsTo g') (built : g.IsBuilt) {done done' : List HopId}
    (explored : before.ExploredBy g config done) (explored' : after.ExploredBy g' config done')
    (first : Dag.ChildrenFirst g.inputs done) (hdone : ∀ id ∈ done, id ∈ done') :
    ∀ {id : HopId} {h : Hop}, g.hop? id = some h → id ∈ done → before.Regrows after g g' id := by
  have wf := built.wellFormed
  intro id
  induction id using Nat.strong_induction_on with
  | _ id ih =>
    intro h hh hid
    have inputs : ∀ x ∈ h.inputs, after.entries x = before.entries x := by
      intro x hx
      obtain ⟨hopx, hhopx⟩ := wf.exists_input hh hx
      have hread : x ∈ g.inputs id := Graph.inputs_of_hop? hh ▸ hx
      exact (ih x (wf.input_lt hh x hx) hhopx (first.closed hid (.single hread))).same
        (built.not_transposedLater hread)
    obtain rfl := wf.id_eq hh
    have hlt := Graph.lt_size_of_hop? hh
    have hbefore : before.entries h.id = before.regions g config h := explored.inside hid hh
    have hafter : after.entries h.id = after.regions g' config (g'.regrown h) :=
      explored'.inside (hdone _ hid) (grows.hop?_of_hop? wf hh)
    have region {t : Template} (hclosing : Matcher.closing ⟨t, false, config⟩ g' h.id =
        Matcher.closing ⟨t, false, config⟩ g h.id) :
        Matcher.region ⟨t, false, config⟩ g' after (g'.regrown h) =
          Matcher.region ⟨t, false, config⟩ g before h :=
      Matcher.region_grown grows wf hh (fun x hx => hasOpen_congr (inputs x hx)) hclosing
    have row := region (t := .rowAgg) (RowAgg.closing_grown grows wf hlt)
    refine ⟨fun hlater => ?_, ?_, fun hlater => ?_⟩
    · rw [hafter, hbefore, regions, regions, row,
        region (t := .outerProduct) (OuterProduct.closing_grown grows built hlt hlater)]
    · rw [entriesOf, entriesOf, hafter, hbefore, filter_regions, filter_regions, row]
    · obtain ⟨hvalid, hopen⟩ := OuterProduct.closing_of_transposedLater grows wf hlater
      have ended : before.entriesOf h.id .outerProduct =
          (Matcher.grown ⟨.outerProduct, false, config⟩ g before h).map (·.close) := by
        rw [entriesOf, hbefore, filter_regions]
        simp only [Matcher.region, Matcher.closing, hvalid]
      have goesOn : after.entriesOf h.id .outerProduct =
          Matcher.grown ⟨.outerProduct, false, config⟩ g before h := by
        have hid' : (g'.regrown h).id = h.id := rfl
        rw [entriesOf, hafter, filter_regions, ← Matcher.grown_grown grows wf hh
          fun x hx => hasOpen_congr (inputs x hx)]
        simp only [Matcher.region, Matcher.closing, hid', hopen]
      rw [ended, goesOn]
      exact ⟨rfl, fun e he => (Matcher.grows_of_mem_grown he).closed_eq⟩

/-- Further requests leave the entries that exploration makes at what known roots reach. All that
can change is that outer-product regions go on at a multiply which nobody read before and which a
transpose is now the first to read. -/
theorem regrows_build (built : g.IsBuilt) (requests : List HopRequest) (config : Config)
    (known : ∀ root ∈ roots, g.contains root) (hid : Dag.ReachedFrom g.inputs roots id) :
    (empty.explore g config roots).1.Regrows (empty.explore (g.build requests) config roots).1 g
      (g.build requests) id := by
  have wf := built.wellFormed
  have wf' := (built.build requests).wellFormed
  have grows := Graph.growsTo_build g requests
  have known' : ∀ root ∈ roots, (g.build requests).contains root := by
    intro root hroot
    obtain ⟨h, hh⟩ := Graph.contains_iff.1 (known root hroot)
    exact Graph.contains_iff.2 ⟨_, grows.hop?_of_hop? wf hh⟩
  have explored := exploredBy_explore wf config roots
  have explored' := exploredBy_explore wf' config roots
  rw [List.takeWhile_eq_self_iff.2 known] at explored
  rw [List.takeWhile_eq_self_iff.2 known'] at explored'
  obtain ⟨h, hh⟩ := exists_hop?_of_reachedFrom wf known hid
  refine explored.regrows grows built explored' (Dag.childrenFirst_postOrder wf.descending roots)
    (fun x hx => ?_) hh ((Dag.mem_postOrder wf.descending).2 hid)
  obtain ⟨root, hroot, hx⟩ := (Dag.mem_postOrder wf.descending).1 hx
  have hlt : root < g.size := Graph.exists_hop?_iff.1 (Graph.contains_iff.1 (known root hroot))
  exact (Dag.mem_postOrder wf'.descending).2 ⟨root, hroot, grows.reaches wf hlt hx⟩

/-- A product of two factors, weighted by a matrix and multiplied by the right factor:
`(X * (U %*% t(V))) %*% V`. -/
def projected : Graph :=
  Graph.empty.build [.data "X" 300 300, .data "U" 300 10, .data "V" 300 10, .transpose 2,
    .matmul 1 3, .binary .mult 0 4, .matmul 5 2]

/-- Transposing the multiply opens its closed entry; the weighted product below it keeps its own. -/
theorem regrows_build_projected :
    projected.IsBuilt ∧ (∀ root ∈ [6], projected.contains root) ∧
      Dag.ReachedFrom projected.inputs [6] 6 ∧ Dag.ReachedFrom projected.inputs [6] 5 ∧
      projected.TransposedLater (projected.build [.transpose 6]) 6 ∧
      let before := (empty.explore projected .default [6]).1
      let after := (empty.explore (projected.build [.transpose 6]) .default [6]).1
      before.entriesOf 6 .outerProduct = [(MemoEntry.ofRefs .outerProduct [0]).close] ∧
        before.entriesOf 6 .outerProduct = (after.entriesOf 6 .outerProduct).map (·.close) ∧
        (∀ e ∈ after.entriesOf 6 .outerProduct, e.closed = false) ∧
        before.entries 5 = [.ofRefs .outerProduct [1]] ∧ after.entries 5 = before.entries 5 := by
  have built : projected.IsBuilt := ⟨_, rfl⟩
  have known : ∀ root ∈ [6], projected.contains root := by decide
  have reached : Dag.ReachedFrom projected.inputs [6] 6 := ⟨6, by decide, .refl⟩
  have reached' : Dag.ReachedFrom projected.inputs [6] 5 := ⟨6, by decide, .single (by decide)⟩
  have later : projected.TransposedLater (projected.build [.transpose 6]) 6 :=
    ⟨⟨_, rfl, by decide, rfl⟩, by decide, by decide⟩
  have hopen := (regrows_build built [.transpose 6] .default known reached).outerProduct later
  have same := (regrows_build built [.transpose 6] .default known reached').same
    (built.not_transposedLater (p := 6) (by decide))
  exact ⟨built, known, reached, reached', later, by decide, hopen.1, hopen.2, by decide, same⟩

end Memo

end OpFusion
