import OpFusion.Proofs.Memo.RowRegions
import OpFusion.Proofs.Plan.Dependence
import OpFusion.Proofs.Plan.RowLowering

/-!
# Chains of row operators

A chain combines the rows of a matrix with one operand after the other, each from the right
(`RowAgg.RowChain`), and a sum along rows or columns tops it (`RowAgg.SumsChain`). A genuine matrix
on the left keeps its extents whatever stands on the right, so every hop of the chain is one. The
memo marks the sum and the chain as one region: it borders on the matrix and the operands only
(`SumsChain.borders`), and nothing keeps it from being planned (`SumsChain.exists_plan`).
-/

namespace OpFusion

open Kernel

namespace RowAgg

/-- One operator of a chain, and the hop at its right. -/
structure RowStep where
  hop : HopId
  operand : HopId

/-- The hop combines each row of `left` with a cell of `operand`. -/
def CombinesRow (g : Graph) (id left operand : HopId) : Prop :=
  ∃ h op, g.hop? id = some h ∧ h.kind = .binary op ∧ op ∈ rowOperators ∧
    h.inputs = [left, operand]

/-- The hop at which a chain over `x` ends, given its steps from the last to the first. -/
def RowStep.top (x : HopId) : List RowStep → HopId
  | [] => x
  | s :: _ => s.hop

/-- A chain of row operators over `x`, from the last to the first. The best entry at the first
refers to no input, and at each of the others to the left one. -/
inductive RowChain (g : Graph) (memo : Memo) (x : HopId) : List RowStep → Prop
  | nil : RowChain g memo x []
  | step {s : RowStep} {rest : List RowStep} (below : RowChain g memo x rest)
      (combines : CombinesRow g s.hop (RowStep.top x rest) s.operand)
      (marks : memo.marks? .rowAgg g s.hop = some (if rest.isEmpty then [] else [0])) :
      RowChain g memo x (s :: rest)

/-- The hop `root` sums up what a chain computes, along each row or along each column. -/
structure SumsChain (g : Graph) (memo : Memo) (direction : Direction) (x : HopId)
    (steps : List RowStep) (root : HopId) : Prop where
  nonempty : steps ≠ []
  chain : RowChain g memo x steps
  /-- The chain starts at a matrix of several rows and several columns. -/
  genuine : ∃ h, g.hop? x = some h ∧ h.shape.isGenuineMatrix = true
  aggregate : ∃ h, g.hop? root = some h ∧ h.kind = .aggUnary .sum direction ∧
    h.inputs = [RowStep.top x steps]
  line : direction ≠ .rowCol
  /-- The best entry refers to the chain. -/
  marks : memo.marks? .rowAgg g root = some [0]
  /-- Each operand is a hop of its own, -/
  distinct : (x :: steps.map (·.operand)).Nodup
  /-- and none is a hop of the chain. -/
  outside : ∀ s ∈ steps, s.operand ∉ steps.map (·.hop)

variable {g : Graph} {memo : Memo} {config : Config} {table : NodeTable} {d : Draft}
  {direction : Direction} {x y root left operand id : HopId} {steps rest : List RowStep}
  {s : RowStep} {plan : Plan} {n : NodeId}

/-! ## The hops of a chain -/

theorem CombinesRow.lt (wf : g.WellFormed) (combines : CombinesRow g id left operand) :
    left < id ∧ operand < id := by
  obtain ⟨h, op, hh, _, _, hinputs⟩ := combines
  obtain rfl := wf.id_eq hh
  have hlt := wf.input_lt hh
  rw [hinputs] at hlt
  exact ⟨hlt left (by simp), hlt operand (by simp)⟩

/-- A chain goes down from its last hop to `x`. -/
theorem RowChain.descends (wf : g.WellFormed) (chain : RowChain g memo x steps) :
    (steps.map (·.hop) ++ [x]).Pairwise (· > ·) ∧
      ∀ y ∈ steps.map (·.hop) ++ [x], y ≤ RowStep.top x steps := by
  induction chain with
  | nil => simp [RowStep.top]
  | @step s rest below combines marks ih =>
    obtain ⟨hpairwise, hle⟩ := ih
    have hlt (y : HopId) (hy : y ∈ rest.map (·.hop) ++ [x]) : y < s.hop :=
      Nat.lt_of_le_of_lt (hle y hy) (combines.lt wf).1
    refine ⟨List.pairwise_cons.2 ⟨hlt, hpairwise⟩, fun y hy => ?_⟩
    rcases List.mem_cons.1 hy with rfl | hy
    · exact Nat.le_refl _
    · exact Nat.le_of_lt (hlt y hy)

theorem RowChain.nodup (wf : g.WellFormed) (chain : RowChain g memo x steps) :
    (steps.map (·.hop)).Nodup ∧ x ∉ steps.map (·.hop) := by
  have hnodup : (steps.map (·.hop) ++ [x]).Nodup :=
    (chain.descends wf).1.imp fun hlt => Nat.ne_of_gt hlt
  rw [List.nodup_append] at hnodup
  exact ⟨hnodup.1, fun hx => hnodup.2.2 x hx x (by simp) rfl⟩

theorem RowChain.of_suffix (chain : RowChain g memo x steps) (hsuffix : rest <:+ steps) :
    RowChain g memo x rest := by
  induction chain with
  | nil => rw [List.suffix_nil.1 hsuffix]; exact .nil
  | step below combines marks ih =>
    rcases List.suffix_cons_iff.1 hsuffix with rfl | hsuffix
    · exact .step below combines marks
    · exact ih hsuffix

/-- Each step is the last one of a chain. -/
theorem RowChain.of_mem (chain : RowChain g memo x steps) (hs : s ∈ steps) :
    ∃ rest, s :: rest <:+ steps ∧ CombinesRow g s.hop (RowStep.top x rest) s.operand ∧
      memo.marks? .rowAgg g s.hop = some (if rest.isEmpty then [] else [0]) := by
  obtain ⟨after, rest, rfl⟩ := List.append_of_mem hs
  have hsuffix : s :: rest <:+ after ++ s :: rest := List.suffix_append _ _
  cases chain.of_suffix hsuffix with
  | step _ combines marks => exact ⟨rest, hsuffix, combines, marks⟩

theorem CombinesRow.input?_left {l : Hop} (combines : CombinesRow g id left operand)
    (hleft : g.hop? left = some l) : g.input? id 0 = some l := by
  obtain ⟨h, op, hh, _, _, hinputs⟩ := combines
  exact (Graph.input?_iff_of_hop? hh).2 ⟨left, by simp [Hop.input?, hinputs], hleft⟩

/-- Whatever the operands are, the hops of a chain keep the extents of `x`. -/
theorem RowChain.isGenuineMatrix (typed : g.IsTyped) (chain : RowChain g memo x steps)
    (hgenuine : ∃ h, g.hop? x = some h ∧ h.shape.isGenuineMatrix = true) :
    ∃ h, g.hop? (RowStep.top x steps) = some h ∧ h.isGenuineMatrix = true := by
  induction chain with
  | nil =>
    obtain ⟨h, hh, hshape⟩ := hgenuine
    exact ⟨h, hh, typed.isGenuineMatrix hh hshape⟩
  | @step s rest below combines marks ih =>
    obtain ⟨left, hleft, hgenuine⟩ := ih
    have hx := combines.input?_left hleft
    obtain ⟨h, op, hh, hkind, _, hinputs⟩ := combines
    have hmem : s.operand ∈ h.inputs := by simp [hinputs]
    obtain ⟨right, hright⟩ := typed.isBuilt.wellFormed.exists_input hh hmem
    have hy : g.input? s.hop 1 = some right :=
      (Graph.input?_iff_of_hop? hh).2 ⟨s.operand, by simp [Hop.input?, hinputs], hright⟩
    obtain ⟨hmatrix, hshape⟩ := typed.shape_of_genuine_left hh hkind hx hy hgenuine
    refine ⟨h, hh, Hop.isGenuineMatrix_iff.2 ⟨hmatrix, ?_⟩⟩
    rw [hshape]
    exact (Hop.isGenuineMatrix_iff.1 hgenuine).2

/-! ## The region of a chain -/

theorem RowStep.top_mem (hsteps : steps ≠ []) : RowStep.top x steps ∈ steps.map (·.hop) := by
  cases steps with
  | nil => exact absurd rfl hsteps
  | cons s rest => exact List.mem_cons_self

/-- The sum of a chain and the hops of the chain refer to hops of the chain. What they read and do
not refer to is `x` or an operand. -/
theorem SumsChain.input_cases (sums : SumsChain g memo direction x steps root)
    (hid : id = root ∨ id ∈ steps.map (·.hop)) {h : Hop} (hh : g.hop? id = some h)
    {e : MemoEntry} (he : memo.best? id .rowAgg = some e) {i : Nat} (hy : h.input? i = some y) :
    (e.refersTo i = true ∧ y ∈ steps.map (·.hop)) ∨
      (e.refersTo i = false ∧ y ∈ x :: steps.map (·.operand)) := by
  rcases hid with rfl | hid
  · obtain ⟨h', hh', _, hinputs⟩ := sums.aggregate
    obtain rfl := Option.some.inj (hh.symm.trans hh')
    have hrefers := Memo.refersTo_iff_of_marks? hh sums.marks he hy
    rw [Hop.input?, hinputs] at hy
    obtain ⟨rfl, rfl⟩ : i = 0 ∧ RowStep.top x steps = y := by
      simpa using List.getElem?_eq_some_iff.1 hy
    exact .inl ⟨hrefers.2 (by simp), RowStep.top_mem sums.nonempty⟩
  · obtain ⟨s, hs, rfl⟩ := List.mem_map.1 hid
    obtain ⟨rest, hsuffix, ⟨h', op, hh', _, _, hinputs⟩, marks⟩ := sums.chain.of_mem hs
    obtain rfl := Option.some.inj (hh.symm.trans hh')
    have hrefers := Memo.refersTo_iff_of_marks? hh marks he hy
    rw [Hop.input?, hinputs] at hy
    cases i with
    | zero =>
      obtain rfl : RowStep.top x rest = y := by simpa using hy
      cases rest with
      | nil => exact .inr ⟨by simpa using hrefers, List.mem_cons_self⟩
      | cons below rest =>
        have hmem : below ∈ steps := hsuffix.subset (by simp)
        exact .inl ⟨hrefers.2 (by simp), List.mem_map_of_mem hmem⟩
    | succ i =>
      have hlt : i + 1 < 2 := (List.getElem?_eq_some_iff.1 hy).1
      obtain rfl : i = 0 := by omega
      obtain rfl : s.operand = y := by simpa using hy
      have hnot : e.refersTo 1 = false := by
        rw [← Bool.not_eq_true, hrefers]
        split <;> simp
      exact .inr ⟨hnot, List.mem_cons_of_mem _ (List.mem_map_of_mem hs)⟩

/-- The region below the sum of a chain consists of the sum and the chain. -/
theorem SumsChain.inRegion (sums : SumsChain g memo direction x steps root)
    (hregion : memo.InRegion .rowAgg g root y) : y = root ∨ y ∈ steps.map (·.hop) := by
  induction hregion with
  | refl => exact .inl rfl
  | tail _ hrefers ih =>
    obtain ⟨h, e, i, hh, he, hy, hi⟩ := hrefers
    rcases sums.input_cases ih hh he hy with ⟨_, hmem⟩ | ⟨hnot, _⟩
    · exact .inr hmem
    · rw [hi] at hnot
      exact Bool.noConfusion hnot

theorem SumsChain.kind_cases (sums : SumsChain g memo direction x steps root)
    (hid : id = root ∨ id ∈ steps.map (·.hop)) {h : Hop} (hh : g.hop? id = some h) :
    (id = root ∧ h.kind = .aggUnary .sum direction) ∨ ∃ op, h.kind = .binary op := by
  rcases hid with rfl | hid
  · obtain ⟨h', hh', hkind, _⟩ := sums.aggregate
    obtain rfl := Option.some.inj (hh.symm.trans hh')
    exact .inl ⟨rfl, hkind⟩
  · obtain ⟨s, hs, rfl⟩ := List.mem_map.1 hid
    obtain ⟨_, _, ⟨h', op, hh', hkind, _⟩, _⟩ := sums.chain.of_mem hs
    obtain rfl := Option.some.inj (hh.symm.trans hh')
    exact .inr ⟨op, hkind⟩

/-- The region borders on `x` and on the operands of the chain. -/
theorem SumsChain.borders (sums : SumsChain g memo direction x steps root)
    (hborders : Draft.Borders .rowAgg g memo root y) : y ∈ x :: steps.map (·.operand) := by
  obtain ⟨h, e, hregion, hh, he, hread⟩ := hborders
  have hid := sums.inRegion hregion
  rcases hread with ⟨i, hy, hi⟩ | habsorbed
  · rcases sums.input_cases hid hh he hy with ⟨hrefers, _⟩ | ⟨_, hmem⟩
    · rw [hi] at hrefers
      exact Bool.noConfusion hrefers
    · exact hmem
  · -- No hop of the region is a multiply.
    have hmatmul : h.isMatmul = false := by
      rcases sums.kind_cases hid hh with ⟨_, hkind⟩ | ⟨op, hkind⟩
      · simp [Hop.isMatmul, hkind]
      · simp [Hop.isMatmul, hkind]
    simp [Template.absorbed, absorbed, hmatmul] at habsorbed

/-- What the chain reads from outside is neither the sum nor a hop of the chain. -/
theorem SumsChain.not_inside (sums : SumsChain g memo direction x steps root) (wf : g.WellFormed)
    (hy : y ∈ x :: steps.map (·.operand)) : y ≠ root ∧ y ∉ steps.map (·.hop) := by
  obtain ⟨h, hh, _, hinputs⟩ := sums.aggregate
  obtain rfl := wf.id_eq hh
  have htop : RowStep.top x steps < h.id := wf.input_lt hh _ (by simp [hinputs])
  have hle := (sums.chain.descends wf).2
  rcases List.mem_cons.1 hy with rfl | hy
  · exact ⟨Nat.ne_of_lt (Nat.lt_of_le_of_lt (hle y (by simp)) htop), (sums.chain.nodup wf).2⟩
  · obtain ⟨s, hs, rfl⟩ := List.mem_map.1 hy
    obtain ⟨_, _, combines, _⟩ := sums.chain.of_mem hs
    have hlt := (combines.lt wf).2
    have hhop := hle s.hop (List.mem_append_left _ (List.mem_map_of_mem hs))
    exact ⟨Nat.ne_of_lt (Nat.lt_trans hlt (Nat.lt_of_le_of_lt hhop htop)), sums.outside s hs⟩

/-! ## Lowering a chain -/

theorem CombinesRow.isLowerable {l : Hop} (combines : CombinesRow g id left operand)
    (hleft : g.hop? left = some l) (hgenuine : l.isGenuineMatrix = true) :
    isLowerable g id = true := by
  have hx := combines.input?_left hleft
  obtain ⟨h, op, hh, hkind, hop, _⟩ := combines
  simp [RowAgg.isLowerable, hh, hkind, hx, (Hop.isGenuineMatrix_iff.1 hgenuine).2, hop]

/-- The sum of a chain has a plan. -/
theorem SumsChain.exists_plan (sums : SumsChain g memo direction x steps root) (typed : g.IsTyped)
    (config : Config) (table : NodeTable) :
    ∃ plan, Plan.construct .rowAgg g memo config table root = .ok plan := by
  have wf := typed.isBuilt.wellFormed
  obtain ⟨h, hh, hkind, _⟩ := sums.aggregate
  have matched {id : HopId} {marks : List Nat} (hmarks : memo.marks? .rowAgg g id = some marks) :
      memo.contains id .rowAgg = true := by
    obtain ⟨e, he, _⟩ := Option.map_eq_some_iff.1 hmarks
    exact Memo.contains_iff.2 ⟨e, he⟩
  have region (y : HopId) (hy : memo.InRegion .rowAgg g root y) :
      memo.contains y .rowAgg = true ∧ isLowerable g y = true := by
    rcases sums.inRegion hy with rfl | hy
    · refine ⟨matched sums.marks, ?_⟩
      simp [isLowerable, hh, hkind, sums.line]
    · obtain ⟨s, hs, rfl⟩ := List.mem_map.1 hy
      obtain ⟨rest, hsuffix, combines, hmarks⟩ := sums.chain.of_mem hs
      have below := sums.chain.of_suffix ((List.suffix_cons s rest).trans hsuffix)
      obtain ⟨l, hleft, hgenuine⟩ := below.isGenuineMatrix typed sums.genuine
      exact ⟨matched hmarks, combines.isLowerable hleft hgenuine⟩
  have ends : Ends (memo.Blocked .rowAgg g root)
      (Plan.construct .rowAgg g memo config table root) :=
    (Plan.construct_ends wf hh).imp fun _ hfails => by simpa using hfails
  rcases ends with hplan | ⟨err, blocked, _⟩
  · exact hplan
  · exact absurd blocked (not_blocked wf region)

end RowAgg

end OpFusion
