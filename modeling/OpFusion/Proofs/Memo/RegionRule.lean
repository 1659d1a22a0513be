import Mathlib.Data.List.Nodup
import Mathlib.Data.List.ProdSigma
import Mathlib.Data.List.TakeWhile
import OpFusion.Memo.Exploration
import OpFusion.Proofs.Graph.WellFormed
import OpFusion.Proofs.Memo.Entries

/-!
# The region rule

`Memo.regions` says which entries belong at a hop, given which of its inputs hold an open region:
one for each such input that the hop extends, one for the first pair of them that it joins, and one
if a region starts there, all of them closed or given up as the template decides. The rule looks at
one hop only. Exploration fills the memo along a walk over the whole graph. It settles what each hop
held before (`revises_explore`), and from nothing it leaves exactly the entries of the rule at every
hop it reaches and none elsewhere (`exploredBy_explore`). Since the rule asks only about the inputs
of a hop, the entries do not depend on the walk (`ExploredBy.entries_eq`).
-/

namespace OpFusion

namespace Matcher

variable {m : Matcher} {g : Graph} {memo memo' : Memo} {h : Hop}

/-- The positions at which a hop reads a hop with an open region of the template. -/
def openPositions (m : Matcher) (memo : Memo) (h : Hop) : List Nat :=
  (List.range h.inputs.length).filter fun i =>
    (h.input? i).any fun input => memo.hasOpen input m.template

/-- The hop extends the region at position `a` and joins the one at position `b` into it. -/
def joins (m : Matcher) (g : Graph) (h : Hop) (a b : Nat) : Bool :=
  a != b && m.fuses g h.id && (h.input? b).any (m.merges g h.id)

/-- The first pair of the positions, in lexicographic order, whose regions the hop joins. -/
def firstJoin? (m : Matcher) (g : Graph) (h : Hop) (positions : List Nat) : Option (Nat × Nat) :=
  (positions ×ˢ positions).find? fun (a, b) => m.joins g h a b

/-- The entries of a template at a hop before the template decides whether its region ends there. -/
def grown (m : Matcher) (g : Graph) (memo : Memo) (h : Hop) : List MemoEntry :=
  let positions := m.openPositions memo h
  (positions.filter fun _ => m.fuses g h.id).map (fun i => .ofRefs m.template [i])
    ++ (m.firstJoin? g h positions).toList.map (fun (a, b) => .ofRefs m.template [a, b])
    ++ if m.opens g h.id then [.ofRefs m.template []] else []

/-- The entries of a template at a hop. -/
def region (m : Matcher) (g : Graph) (memo : Memo) (h : Hop) : List MemoEntry :=
  match m.closing g h.id with
  | .stillOpen => m.grown g memo h
  | .valid => (m.grown g memo h).map (·.close)
  | .invalid => []

/-- The entries at a hop that held some before: those that the rule gives are added, unless they are
there already, and the template then decides about all of its own. -/
def settle (m : Matcher) (g : Graph) (memo : Memo) (h : Hop) (before : List MemoEntry) :
    List MemoEntry :=
  let all := before ++ (m.grown g memo h).filter (· ∉ before)
  match m.closing g h.id with
  | .stillOpen => all
  | .valid => all.map (·.closeIf m.template)
  | .invalid => all.filter (·.template ≠ m.template)

/-! ## The rule and the proposals of exploration -/

/-- The open inputs of a hop stand at its open positions. -/
theorem map_openInputs : (m.openInputs memo h).map (·.2) = m.openPositions memo h := by
  have positions : h.inputs.zipIdx.map (·.2) = List.range h.inputs.length := by
    rw [List.zipIdx_map_snd, List.range_eq_range']
  rw [openPositions, ← positions, List.filter_map, openInputs]
  congr 1
  refine List.filter_congr fun ⟨input, i⟩ hmem => ?_
  have : h.inputs[i]? = some input := List.mk_mem_zipIdx_iff_getElem?.1 hmem
  simp [Hop.input?, this]

theorem input?_of_mem_openInputs {input : HopId} {i : Nat}
    (hmem : (input, i) ∈ m.openInputs memo h) : h.input? i = some input :=
  List.mk_mem_zipIdx_iff_getElem?.1 (List.mem_filter.1 hmem).1

/-- A search for a pair in two nested passes is a search through the product. -/
theorem findSome?_findSome? {ι α β : Type} {f : ι → α} {k : ι → β} {p : ι → ι → Prop}
    [∀ x y, Decidable (p x y)] {q : α → β → Bool} {xs ys : List ι}
    (hpq : ∀ x ∈ xs, ∀ y ∈ ys, p x y ↔ q (f x) (k y) = true) :
    (xs.findSome? fun x => ys.findSome? fun y => if p x y then some (f x, k y) else none) =
      (xs.map f ×ˢ ys.map k).find? fun (a, b) => q a b := by
  induction xs with
  | nil => rfl
  | cons x xs ih =>
    have row : (ys.findSome? fun y => if p x y then some (f x, k y) else none) =
        ((ys.map k).map (Prod.mk (f x))).find? fun (a, b) => q a b := by
      have hx := hpq x List.mem_cons_self
      clear ih hpq
      induction ys with
      | nil => rfl
      | cons y ys ih =>
        have rest := ih fun y' hy' => hx y' (List.mem_cons_of_mem _ hy')
        have head := hx y List.mem_cons_self
        rw [List.findSome?_cons, List.map_cons, List.map_cons, List.find?_cons]
        cases hq : q (f x) (k y) with
        | true => simp [head.2 hq, hq]
        | false =>
          have hp : ¬ p x y := fun hp => by simp [head.1 hp] at hq
          simpa only [hp, hq, if_false] using rest
    rw [List.map_cons, List.product_cons, List.find?_append, List.findSome?_cons, row,
      ih fun x' hx' => hpq x' (List.mem_cons_of_mem _ hx')]
    cases ((ys.map k).map (Prod.mk (f x))).find? fun (a, b) => q a b <;> rfl

/-- Exploration looks for the pair of the rule. -/
theorem joinable?_openInputs :
    m.joinable? g h.id (m.openInputs memo h) = m.firstJoin? g h (m.openPositions memo h) := by
  rw [← map_openInputs, firstJoin?]
  refine findSome?_findSome? fun x _ y hy => ?_
  have : h.input? y.2 = some y.1 := input?_of_mem_openInputs hy
  simp [joins, this, and_assoc]

/-- Exploration proposes the entries of the rule. -/
theorem proposals_openInputs :
    m.proposals g h.id (m.openInputs memo h) = m.grown g memo h := by
  simp only [proposals, grown, ← MemoEntry.ofRefs_nil]
  rw [joinable?_openInputs, ← map_openInputs]
  congr 2
  split
  · rename_i hfuses
    rw [List.filter_eq_self.2 fun _ _ => hfuses, List.map_map]
    rfl
  · rename_i hfuses
    simp [hfuses]

/-- The rule never gives an entry twice. -/
theorem nodup_grown : (m.grown g memo h).Nodup := by
  have extending : ((m.openPositions memo h).filter fun _ => m.fuses g h.id).map
      (fun i => MemoEntry.ofRefs m.template [i]) |>.Nodup := by
    refine List.Nodup.map_on ?_ ((List.nodup_range.filter _).filter _)
    intro i _ j _ heq
    simpa using (MemoEntry.mem_iff_of_ofRefs_eq heq i).1 (by simp)
  -- Entries of different parts refer to one, two and no positions.
  unfold grown
  rw [List.nodup_append, List.nodup_append]
  refine ⟨⟨extending, ?_, ?_⟩, ?_, ?_⟩
  · cases m.firstJoin? g h (m.openPositions memo h) <;> simp
  · intro e he e' he' heq
    subst heq
    obtain ⟨i, _, rfl⟩ := List.mem_map.1 he
    obtain ⟨⟨a, b⟩, hjoin, heq⟩ := List.mem_map.1 he'
    have hne : a ≠ b := by
      have := List.find?_some (Option.mem_toList.1 hjoin)
      simp only [joins, Bool.and_eq_true, bne_iff_ne, ne_eq] at this
      exact this.1.1
    have ha := (MemoEntry.mem_iff_of_ofRefs_eq heq a).1 (by simp)
    have hb := (MemoEntry.mem_iff_of_ofRefs_eq heq b).1 (by simp)
    simp only [List.mem_singleton] at ha hb
    exact hne (ha.trans hb.symm)
  · split <;> simp
  · intro e he e' he' heq
    subst heq
    split at he'
    · rw [List.mem_singleton.1 he', List.mem_append] at he
      rcases he with he | he
      · obtain ⟨i, _, heq⟩ := List.mem_map.1 he
        simpa using (MemoEntry.mem_iff_of_ofRefs_eq heq i).1 (by simp)
      · obtain ⟨⟨a, b⟩, _, heq⟩ := List.mem_map.1 he
        simpa using (MemoEntry.mem_iff_of_ofRefs_eq heq a).1 (by simp)
    · simp at he'

/-! ## One hop -/

/-- The rule asks about the inputs of the hop only. -/
theorem grown_congr
    (hopen : ∀ x ∈ h.inputs, memo.hasOpen x m.template = memo'.hasOpen x m.template) :
    m.grown g memo h = m.grown g memo' h := by
  have positions : m.openPositions memo h = m.openPositions memo' h := by
    refine List.filter_congr fun i hi => ?_
    cases hx : h.input? i with
    | none => rfl
    | some x => exact hopen x (List.mem_of_getElem? hx)
  simp only [grown, positions]

theorem region_congr
    (hopen : ∀ x ∈ h.inputs, memo.hasOpen x m.template = memo'.hasOpen x m.template) :
    m.region g memo h = m.region g memo' h := by
  simp only [region, grown_congr hopen]

theorem settle_congr
    (hopen : ∀ x ∈ h.inputs, memo.hasOpen x m.template = memo'.hasOpen x m.template)
    (before : List MemoEntry) : m.settle g memo h before = m.settle g memo' h before := by
  simp only [settle, grown_congr hopen]

theorem template_of_mem_grown {e : MemoEntry} (he : e ∈ m.grown g memo h) :
    e.template = m.template := by
  simp only [grown, List.mem_append, List.mem_map] at he
  rcases he with (⟨_, _, rfl⟩ | ⟨_, _, rfl⟩) | he
  · rfl
  · rfl
  · split at he
    · rw [List.mem_singleton.1 he]
      rfl
    · simp at he

theorem template_of_mem_region {e : MemoEntry} (he : e ∈ m.region g memo h) :
    e.template = m.template := by
  unfold region at he
  split at he
  · exact template_of_mem_grown he
  · obtain ⟨grown, hgrown, rfl⟩ := List.mem_map.1 he
    show grown.template = _
    exact template_of_mem_grown hgrown
  · simp at he

/-- Matching a template at a hop changes nothing elsewhere. -/
theorem entries_explore_of_ne {id : HopId} (hne : id ≠ h.id) :
    (m.explore g memo h).entries id = memo.entries id := by
  have added (l : List MemoEntry) (memo : Memo) :
      (l.foldl (·.add h.id) memo).entries id = memo.entries id := by
    induction l generalizing memo with
    | nil => rfl
    | cons e rest ih =>
      rw [List.foldl_cons, ih, Memo.entries_add, if_neg fun h => hne h.1]
  unfold explore
  split
  · exact added _ _
  · rw [Memo.entries_close, if_neg hne, added]
  · rw [Memo.entries_remove, if_neg hne, added]

/-- Matching a template at a hop settles the entries there. -/
theorem entries_explore_self :
    (m.explore g memo h).entries h.id = m.settle g memo h (memo.entries h.id) := by
  have added : ((m.proposals g h.id (m.openInputs memo h)).foldl (·.add h.id) memo).entries h.id =
      memo.entries h.id ++ (m.grown g memo h).filter (· ∉ memo.entries h.id) := by
    rw [proposals_openInputs, Memo.entries_foldl_add nodup_grown, if_pos rfl]
  cases hclosing : m.closing g h.id with
  | stillOpen => simpa only [explore, settle, hclosing] using added
  | valid =>
    simp only [explore, settle, hclosing]
    rw [Memo.entries_close, if_pos rfl, added]
  | invalid =>
    simp only [explore, settle, hclosing]
    rw [Memo.entries_remove, if_pos rfl, added]

/-- At a hop without entries of the template, settling appends those of the rule. -/
theorem settle_of_unmatched {before : List MemoEntry}
    (hnone : ∀ e ∈ before, e.template ≠ m.template) :
    m.settle g memo h before = before ++ m.region g memo h := by
  have fresh : (m.grown g memo h).filter (· ∉ before) = m.grown g memo h :=
    List.filter_eq_self.2 fun e he =>
      decide_eq_true fun hold => hnone e hold (template_of_mem_grown he)
  simp only [settle, fresh]
  cases hclosing : m.closing g h.id with
  | stillOpen => simp only [region, hclosing]
  | valid =>
    simp only [region, hclosing, List.map_append]
    congr 1
    · exact (List.map_congr_left fun e he => if_neg (hnone e he)).trans (List.map_id _)
    · exact List.map_congr_left fun e he => if_pos (template_of_mem_grown he)
  | invalid =>
    simp only [region, hclosing, List.filter_append]
    congr 1
    · exact List.filter_eq_self.2 fun e he => decide_eq_true (hnone e he)
    · refine List.filter_eq_nil_iff.2 fun e he => ?_
      simp [template_of_mem_grown he]

end Matcher

namespace Memo

/-- The entries at a hop: those of the outer-product template and then those of the row template. -/
def regions (memo : Memo) (g : Graph) (config : Config) (h : Hop) : List MemoEntry :=
  Matcher.region ⟨.outerProduct, false, config⟩ g memo h
    ++ Matcher.region ⟨.rowAgg, false, config⟩ g memo h

variable {g : Graph} {config : Config} {memo : Memo}

theorem regions_congr {memo' : Memo} {h : Hop}
    (hopen : ∀ x ∈ h.inputs, memo.entries x = memo'.entries x) :
    memo.regions g config h = memo'.regions g config h := by
  unfold regions
  rw [Matcher.region_congr fun x hx => hasOpen_congr (hopen x hx),
    Matcher.region_congr fun x hx => hasOpen_congr (hopen x hx)]

/-- Of the entries at a hop, those of a template are the ones that the rule gives for it. -/
theorem filter_regions {h : Hop} {t : Template} :
    (memo.regions g config h).filter (·.template = t) =
      Matcher.region ⟨t, false, config⟩ g memo h := by
  have filter (t' : Template) : (Matcher.region ⟨t', false, config⟩ g memo h).filter
      (fun e => e.template = t) = if t' = t then Matcher.region ⟨t', false, config⟩ g memo h
        else [] := by
    split
    · rename_i heq
      refine List.filter_eq_self.2 fun e he => decide_eq_true ?_
      rw [Matcher.template_of_mem_region he]
      exact heq
    · rename_i hne
      refine List.filter_eq_nil_iff.2 fun e he => ?_
      rw [Matcher.template_of_mem_region he, decide_eq_true_eq]
      exact hne
  rw [regions, List.filter_append, filter, filter]
  cases t with
  | outerProduct => simp
  | rowAgg => simp

/-- The entries at a hop that held some before, settled for the outer-product template and then for
the row template. -/
def settled (memo : Memo) (g : Graph) (config : Config) (h : Hop) (before : List MemoEntry) :
    List MemoEntry :=
  Matcher.settle ⟨.rowAgg, false, config⟩ g memo h
    (Matcher.settle ⟨.outerProduct, false, config⟩ g memo h before)

theorem settled_congr {memo' : Memo} {h : Hop} {before : List MemoEntry}
    (hopen : ∀ x ∈ h.inputs, memo.entries x = memo'.entries x) :
    memo.settled g config h before = memo'.settled g config h before := by
  unfold settled
  rw [Matcher.settle_congr fun x hx => hasOpen_congr (hopen x hx),
    Matcher.settle_congr fun x hx => hasOpen_congr (hopen x hx)]

/-- A hop that held no entries settles with those of the rule. -/
theorem settled_nil {h : Hop} : memo.settled g config h [] = memo.regions g config h := by
  have first : Matcher.settle ⟨.outerProduct, false, config⟩ g memo h [] =
      Matcher.region ⟨.outerProduct, false, config⟩ g memo h := by
    rw [Matcher.settle_of_unmatched (by simp), List.nil_append]
  rw [settled, first, Matcher.settle_of_unmatched, regions]
  intro e he
  simp [Matcher.template_of_mem_region he]

/-- Matching every template at a hop changes nothing elsewhere. -/
theorem entries_exploreHop_of_ne (wf : g.WellFormed) {id other : HopId} (hne : other ≠ id) :
    (exploreHop g config memo id).entries other = memo.entries other := by
  unfold exploreHop
  split
  · rfl
  · rename_i h hh
    have hid : other ≠ h.id := wf.id_eq hh ▸ hne
    show (Matcher.explore _ g (Matcher.explore _ g memo h) h).entries other = _
    rw [Matcher.entries_explore_of_ne hid, Matcher.entries_explore_of_ne hid]

/-- Matching every template at a hop settles the entries there. -/
theorem entries_exploreHop_self (wf : g.WellFormed) {id : HopId} {h : Hop}
    (hh : g.hop? id = some h) :
    (exploreHop g config memo id).entries id = memo.settled g config h (memo.entries id) := by
  have hid : h.id = id := wf.id_eq hh
  subst hid
  have hne : ∀ x ∈ h.inputs, x ≠ h.id := fun x hx => Nat.ne_of_lt (wf.input_lt hh x hx)
  unfold exploreHop
  rw [hh]
  show (Matcher.explore ⟨.rowAgg, false, config⟩ g
    (Matcher.explore ⟨.outerProduct, false, config⟩ g memo h) h).entries h.id = _
  rw [Matcher.entries_explore_self, Matcher.entries_explore_self, settled]
  exact Matcher.settle_congr
    (fun x hx => hasOpen_congr (Matcher.entries_explore_of_ne (hne x hx))) _

/-! ## Whole walks -/

/-- What exploring the hops in `done` makes of a memo: their entries are settled, and all others are
as before. -/
structure Revises (before after : Memo) (g : Graph) (config : Config) (done : List HopId) :
    Prop where
  /-- Nothing changes elsewhere. -/
  outside {id : HopId} :
    (∀ h, g.hop? id = some h → id ∉ done) → after.entries id = before.entries id
  /-- What matches at a hop is settled by the rule, asked about the whole memo. -/
  inside {id : HopId} {h : Hop} : id ∈ done → g.hop? id = some h →
    after.entries id = after.settled g config h (before.entries id)

/-- A walk that puts inputs first settles the entries at each hop that it passes. -/
theorem revises_foldl (wf : g.WellFormed) {order : List HopId}
    (first : Dag.ChildrenFirst g.inputs order) :
    memo.Revises (order.foldl (exploreHop g config) memo) g config order := by
  induction first with
  | nil => exact ⟨fun _ => rfl, fun h => by simp at h⟩
  | @snoc done id hfirst hid hbelow ih =>
    rw [List.foldl_append, List.foldl_cons, List.foldl_nil]
    have kept {x : HopId} : x ∈ done → (exploreHop g config (done.foldl (exploreHop g config) memo)
        id).entries x = (done.foldl (exploreHop g config) memo).entries x := fun hx =>
      entries_exploreHop_of_ne wf fun heq => hid (heq ▸ hx)
    constructor
    · intro other hother
      have before : (done.foldl (exploreHop g config) memo).entries other = memo.entries other :=
        ih.outside fun h hh hmem => hother h hh (List.mem_append_left _ hmem)
      by_cases heq : other = id
      · have unknown : g.hop? id = none := Option.eq_none_iff_forall_ne_some.2 fun h hh =>
          hother h (heq ▸ hh) (List.mem_append_right _ (List.mem_singleton.2 heq))
        rw [exploreHop, unknown]
        exact before
      · rw [entries_exploreHop_of_ne wf heq, before]
    · intro other h hother hh
      -- Inputs of a hop passed so far were passed before it, so this step does not touch them.
      have inputs : ∀ x ∈ h.inputs, x ∈ done := by
        intro x hx
        rcases List.mem_append.1 hother with hother | hother
        · exact hfirst.closed hother (.single (Graph.inputs_of_hop? hh ▸ hx))
        · rw [List.mem_singleton.1 hother] at hh
          exact hbelow x (Graph.inputs_of_hop? hh ▸ hx)
      rw [← settled_congr fun x hx => (kept (inputs x hx)).symm]
      rcases List.mem_append.1 hother with hother | hother
      · rw [kept hother, ih.inside hother hh]
      · rw [List.mem_singleton.1 hother] at hh ⊢
        rw [entries_exploreHop_self wf hh, ih.outside fun _ _ => hid]

/-- Exploration settles the entries at what the roots reach, up to the first root that is
unknown. -/
theorem revises_explore (wf : g.WellFormed) (memo : Memo) (config : Config) (roots : List HopId) :
    memo.Revises (memo.explore g config roots).1 g config
      (Dag.postOrder g.inputs (roots.takeWhile g.contains)) :=
  revises_foldl wf (Dag.childrenFirst_postOrder wf.descending _)

/-- The hops in `done` hold the entries of the rule, and nothing else holds any. -/
structure ExploredBy (memo : Memo) (g : Graph) (config : Config) (done : List HopId) : Prop where
  /-- Nothing matches elsewhere. -/
  outside {id : HopId} : (∀ h, g.hop? id = some h → id ∉ done) → memo.entries id = []
  /-- What matches at a hop is what the rule says, asked about the whole memo. -/
  inside {id : HopId} {h : Hop} :
    id ∈ done → g.hop? id = some h → memo.entries id = memo.regions g config h

/-- Exploration from nothing leaves the entries of the rule at what the roots reach, up to the first
root that is unknown. -/
theorem exploredBy_explore (wf : g.WellFormed) (config : Config) (roots : List HopId) :
    (empty.explore g config roots).1.ExploredBy g config
      (Dag.postOrder g.inputs (roots.takeWhile g.contains)) := by
  have revises := revises_explore wf empty config roots
  refine ⟨fun hid => revises.outside hid, fun hid hh => ?_⟩
  rw [revises.inside hid hh, entries_empty, settled_nil]

/-- Memos explored along two walks agree at the hops that both have passed: by induction on their
numbers, since the rule asks about inputs only and walks pass those first. -/
theorem ExploredBy.entries_eq (wf : g.WellFormed) {memo' : Memo} {done done' : List HopId}
    (explored : memo.ExploredBy g config done) (explored' : memo'.ExploredBy g config done')
    (first : Dag.ChildrenFirst g.inputs done) (first' : Dag.ChildrenFirst g.inputs done') :
    ∀ {id : HopId} {h : Hop}, g.hop? id = some h → id ∈ done → id ∈ done' →
      memo.entries id = memo'.entries id := by
  intro id
  induction id using Nat.strong_induction_on with
  | _ id ih =>
    intro h hh hid hid'
    have input {x : HopId} (hx : x ∈ h.inputs) : x ∈ g.inputs id := Graph.inputs_of_hop? hh ▸ hx
    rw [explored.inside hid hh, explored'.inside hid' hh]
    refine regions_congr fun x hx => ?_
    obtain ⟨hopx, hhopx⟩ := wf.exists_input hh hx
    exact ih x (wf.input_lt hh x hx) hhopx (first.closed hid (.single (input hx)))
      (first'.closed hid' (.single (input hx)))

/-- What known roots reach is in the graph. -/
theorem exists_hop?_of_reachedFrom (wf : g.WellFormed) {roots : List HopId}
    (known : ∀ root ∈ roots, g.contains root) {id : HopId}
    (reached : Dag.ReachedFrom g.inputs roots id) : ∃ h, g.hop? id = some h := by
  obtain ⟨root, hroot, hid⟩ := reached
  obtain ⟨h, hh⟩ := Graph.contains_iff.1 (known root hroot)
  exact Graph.exists_hop?_iff.2
    (Nat.lt_of_le_of_lt (hid.le wf.descending) (Graph.lt_size_of_hop? hh))

/-- Exploration computes the region rule. After known roots were explored from nothing, a hop that
they do not reach has no entries, a hop that they reach has the entries which the rule derives from
the explored memo itself, and any other known roots that reach the hop leave it the same entries. -/
theorem explore_eq_regions (built : g.IsBuilt) (config : Config) {roots : List HopId}
    (known : ∀ root ∈ roots, g.contains root) :
    (empty.explore g config roots).2 = none ∧
      (∀ id, ¬ Dag.ReachedFrom g.inputs roots id →
        (empty.explore g config roots).1.entries id = []) ∧
      ∀ id, Dag.ReachedFrom g.inputs roots id →
        (∃ h, g.hop? id = some h ∧ (empty.explore g config roots).1.entries id =
          (empty.explore g config roots).1.regions g config h) ∧
        ∀ roots', (∀ root ∈ roots', g.contains root) → Dag.ReachedFrom g.inputs roots' id →
          (empty.explore g config roots').1.entries id =
            (empty.explore g config roots).1.entries id := by
  have wf := built.wellFormed
  have all {roots : List HopId} (known : ∀ root ∈ roots, g.contains root) :
      roots.takeWhile g.contains = roots := List.takeWhile_eq_self_iff.2 known
  have explored := exploredBy_explore wf config roots
  -- No known root is left out, so the hops explored are those that the roots reach.
  rw [all known] at explored
  have first (roots : List HopId) := Dag.childrenFirst_postOrder wf.descending roots
  have reached (roots : List HopId) (id : HopId) :
      id ∈ Dag.postOrder g.inputs roots ↔ Dag.ReachedFrom g.inputs roots id :=
    Dag.mem_postOrder wf.descending
  refine ⟨?_, fun id hid => explored.outside fun _ _ h => hid ((reached roots id).1 h), ?_⟩
  · have none : roots.find? (fun root => !g.contains root) = none :=
      List.find?_eq_none.2 fun root hroot => by simp [known root hroot]
    simp [explore, none]
  · intro id hid
    obtain ⟨h, hh⟩ := exists_hop?_of_reachedFrom wf known hid
    refine ⟨⟨h, hh, explored.inside ((reached roots id).2 hid) hh⟩, fun roots' known' hid' => ?_⟩
    have explored' := exploredBy_explore wf config roots'
    rw [all known'] at explored'
    exact explored'.entries_eq wf explored (first roots') (first roots) hh
      ((reached roots' id).2 hid') ((reached roots id).2 hid)

/-- A column sum over two divisions, the second by a product that reads the same row sums as the
first: `colSums((X / r) / (M %*% r))` with `r = rowSums(X)`. -/
def quotientRequests : List HopRequest :=
  [.data "X" 100 20, .data "M" 100 100, .rowSums 0, .matmul 1 2, .binary .div 0 2,
    .binary .div 4 3, .colSums 5]

/-- The graph of that column sum. -/
def quotient : Graph := Graph.empty.build quotientRequests

/-- Its explored memo. -/
def ofQuotient : Memo := (empty.explore quotient .default [6]).1

theorem explore_eq_regions_quotient :
    (∀ root ∈ [6], quotient.contains root) ∧ Dag.ReachedFrom quotient.inputs [6] 5 ∧
      ∃ h, quotient.hop? 5 = some h ∧ ofQuotient.entries 5 =
        ofQuotient.regions quotient .default h := by
  have known : ∀ root ∈ [6], quotient.contains root := by decide
  have reached : Dag.ReachedFrom quotient.inputs [6] 5 := ⟨6, by decide, .single (by decide)⟩
  have regions := (explore_eq_regions ⟨quotientRequests, rfl⟩ .default known).2.2 5 reached
  exact ⟨known, reached, regions.1⟩

/-- The quotient of the sample joins the regions of both operands; its own stays open. -/
example : ofQuotient.entries 5 =
    [.ofRefs .rowAgg [0], .ofRefs .rowAgg [1], .ofRefs .rowAgg [0, 1]] := by decide

end Memo

end OpFusion
