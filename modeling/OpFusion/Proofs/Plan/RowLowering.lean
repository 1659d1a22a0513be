import OpFusion.Proofs.Plan.Failure

/-!
# When row regions have plans

Which hops the row template can express is settled by their kinds and operands (`isLowerable`). If
all hops of a region are matched and lowerable, the region has a plan, and whenever planning fails
it blames a hop that is not (`Plan.rowAgg_outcome`). As in the general case nothing is assumed of the
memo.
-/

namespace OpFusion

open Kernel

/-! ## Operators and primitives -/

/-- A unary operator has the primitive of its name. -/
theorem UnaryOp.ofName?_name (op : UnaryOp) :
    (Named.ofName? (Named.name op) : Option UnaryPrim) = op.primitive? := by
  cases op <;> rfl

theorem BinaryOp.isSome_cellOp? (op : BinaryOp) : op.cellOp?.isSome = decide (op ≠ .solve) := by
  cases op <;> rfl

theorem TernaryOp.isSome_primitive? (op : TernaryOp) :
    op.primitive?.isSome = decide (op ∈ [.plusMult, .minusMult]) := by
  cases op <;> rfl

namespace RowAgg

/-- The operators that combine a row of a matrix with a cell. -/
def rowOperators : List BinaryOp :=
  [.mult, .div, .equal, .notEqual, .less, .lessEqual, .greater, .greaterEqual]

theorem isSome_rowOp? (op : BinaryOp) : op.rowOp?.isSome = decide (op ∈ rowOperators) := by
  cases op <;> rfl

/-- The row template can express the hop. -/
def isLowerable (g : Graph) (id : HopId) : Bool :=
  (g.hop? id).any fun h =>
    match h.kind with
    | .aggUnary op direction => op = .sum && direction ≠ .rowCol
    | .matmul => true
    | .unary op => (Named.ofName? (Named.name op) : Option UnaryPrim).isSome
    | .binary op =>
      if (g.input? id 0).any (·.shape.isGenuineMatrix) then op ∈ rowOperators else op ≠ .solve
    | .ternary op => op ∈ [.plusMult, .minusMult]
    | .builtin op _ => op = .replace && replacementParams.all fun name => (h.kind.param? name).isSome
    | .indexing => (g.input? id 0).any (·.shape.cols.isSome)
    | _ => false

/-- Planning at the hop fails with this error: the hop has no entry, or it has one and is not
lowerable. Of a replacement the first missing parameter is reported. -/
inductive Blames (memo : Memo) (g : Graph) (id : HopId) : PlanError → Prop
  | unmatched : memo.contains id .rowAgg = false → Blames memo g id (.missingMemoEntry id .rowAgg)
  | unsupported {h : Hop} : memo.contains id .rowAgg = true → g.hop? id = some h →
      isLowerable g id = false → (∀ params, h.kind ≠ .builtin .replace params) →
      Blames memo g id (.unsupported .rowAgg h)
  | parameter {h : Hop} {params : List (String × Nat)} {name : String} :
      memo.contains id .rowAgg = true → g.hop? id = some h → h.kind = .builtin .replace params →
      replacementParams.find? (fun name => (h.kind.param? name).isNone) = some name →
      Blames memo g id (.graph (.missingParameter h.kind name))

variable {g : Graph} {memo : Memo} {config : Config} {table : NodeTable} {d : Draft} {root : HopId}
  {h : Hop} {err : PlanError}

/-- A hop is refused unless it is lowerable. -/
theorem refusal?_eq_none_iff (wf : g.WellFormed) (hh : g.hop? h.id = some h) :
    refusal? g h = none ↔ isLowerable g h.id = true := by
  unfold isLowerable
  rw [hh, Option.any_some]
  cases hkind : h.kind with
  | data | literal | reorg => simp [refusal?, hkind]
  | matmul => simp [refusal?, hkind]
  | unary op =>
    simp only [refusal?, hkind, UnaryOp.ofName?_name]
    split <;> simp_all
  | binary op =>
    simp only [refusal?, hkind, isSome_rowOp?, BinaryOp.isSome_cellOp?]
    split <;> split <;> simp_all
  | ternary op =>
    simp only [refusal?, hkind, TernaryOp.isSome_primitive?]
    split <;> simp_all
  | aggUnary op direction =>
    cases op with
    | sum => cases direction <;> simp [refusal?, hkind]
    | _ => simp [refusal?, hkind]
  | indexing =>
    simp only [refusal?, hkind]
    split <;> simp_all
  | builtin op params =>
    cases op with
    | removeEmpty => simp [refusal?, hkind]
    | replace =>
      rw [refusal?_of_replace wf hh hkind, Option.map_eq_none_iff, List.find?_eq_none, hkind]
      simp [Option.isSome_iff_ne_none]

/-- What blocks a row region is blamed on one of its hops. -/
theorem exists_blames (wf : g.WellFormed) (blocked : memo.Blocked .rowAgg g root err) :
    ∃ x, memo.InRegion .rowAgg g root x ∧ Blames memo g x err := by
  cases blocked with
  | @unmatched x h hregion _ hnone =>
    have hnot : memo.contains x .rowAgg = false := by
      rw [← Bool.not_eq_true, Memo.contains_iff, hnone]
      simp
    exact ⟨x, hregion, .unmatched hnot⟩
  | @refused x h entry err hregion hh he hrefusal =>
    obtain rfl := wf.id_eq hh
    have hrefusal : refusal? g h = some err := hrefusal
    have hcontains : memo.contains h.id .rowAgg = true := Memo.contains_iff.2 ⟨entry, he⟩
    have hnot : isLowerable g h.id = false := by
      rw [← Bool.not_eq_true, ← refusal?_eq_none_iff wf hh, hrefusal]
      simp
    refine ⟨h.id, hregion, ?_⟩
    rcases refusal?_cases wf hh hrefusal with ⟨rfl, hother⟩ | ⟨params, name, hkind, hname, rfl⟩
    · exact .unsupported hcontains hh hnot hother
    · exact .parameter hcontains hh hkind hname

/-- If all hops of a region are matched and lowerable, nothing blocks it. -/
theorem not_blocked (wf : g.WellFormed)
    (hall : ∀ x, memo.InRegion .rowAgg g root x →
      memo.contains x .rowAgg = true ∧ isLowerable g x = true) :
    ¬ memo.Blocked .rowAgg g root err := by
  intro blocked
  cases blocked with
  | unmatched hregion _ hnone =>
    obtain ⟨e, he⟩ := Memo.contains_iff.1 (hall _ hregion).1
    rw [hnone] at he
    simp at he
  | refused hregion hh _ hrefusal =>
    obtain rfl := wf.id_eq hh
    have hrefusal : refusal? g _ = some err := hrefusal
    rw [(refusal?_eq_none_iff wf hh).2 (hall _ hregion).2] at hrefusal
    simp at hrefusal

/-- A hop that has been lowered is matched and lowerable. -/
theorem isLowerable_of_lowered (wf : g.WellFormed)
    (hd : Draft.ofRegion .rowAgg g memo config table root = .ok d) {x : HopId}
    (hx : x ∈ d.lowered) : memo.contains x .rowAgg = true ∧ isLowerable g x = true := by
  obtain ⟨h, e, _, _, rfl, _, _, ready, _⟩ := Draft.ofRegion_lowered wf hd hx
  refine ⟨Memo.contains_iff.2 ⟨e, ready.best⟩, ?_⟩
  exact (refusal?_eq_none_iff wf ready.hop).1 (Draft.refusal?_of_lowered wf hd hx ready.hop)

end RowAgg

/-- In a built graph a row region has a plan if all its hops are matched and lowerable. Planning
fails only with what a hop of the region is to blame for, and it never gets past a hop that is not
matched and lowerable unless the region borders on that hop or on one above it. -/
theorem Plan.rowAgg_outcome {g : Graph} (built : g.IsBuilt) (memo : Memo) (config : Config)
    (table : NodeTable) {root : HopId} (hroot : g.contains root = true) :
    ((∀ x, memo.InRegion .rowAgg g root x →
        memo.contains x .rowAgg = true ∧ RowAgg.isLowerable g x = true) →
      ∃ plan, construct .rowAgg g memo config table root = .ok plan) ∧
    (∀ err, construct .rowAgg g memo config table root = .error err →
      ∃ x, memo.InRegion .rowAgg g root x ∧ RowAgg.Blames memo g x err) ∧
    ∀ plan, construct .rowAgg g memo config table root = .ok plan →
      ∀ x, memo.InRegion .rowAgg g root x →
        (memo.contains x .rowAgg = true ∧ RowAgg.isLowerable g x = true) ∨
        ∃ y, memo.InRegion .rowAgg g root y ∧ memo.InRegion .rowAgg g y x ∧
          Draft.Borders .rowAgg g memo root y := by
  have wf := built.wellFormed
  obtain ⟨h, hh⟩ := Graph.contains_iff.1 hroot
  have hends : Ends (memo.Blocked .rowAgg g root) (construct .rowAgg g memo config table root) :=
    (construct_ends wf hh).imp fun err hfails => by simpa using hfails
  refine ⟨fun hall => ?_, fun err herr => ?_, fun plan hplan x hx => ?_⟩
  · rcases hends with hplan | ⟨err, blocked, _⟩
    · exact hplan
    · exact absurd blocked (RowAgg.not_blocked wf hall)
  · exact RowAgg.exists_blames wf (hends.of_error herr)
  · obtain ⟨d, hd, _⟩ := bind_eq_ok_iff.1 hplan
    exact (Draft.mem_lowered_or_borders wf hd hx).imp_left (RowAgg.isLowerable_of_lowered wf hd)

theorem Plan.rowAgg_outcome_patternless :
    patternless.IsBuilt ∧
      (∃ plan, construct .rowAgg patternless stray .default .empty 3 = .ok plan) ∧
      ∃ err x, construct .rowAgg patternless stray .default .empty 2 = .error err ∧
        stray.InRegion .rowAgg patternless 2 x ∧ RowAgg.Blames stray patternless x err := by
  have built : patternless.IsBuilt := ⟨_, rfl⟩
  have alone (x : HopId) : ¬ stray.Refers .rowAgg patternless 3 x := by
    rintro ⟨h, e, i, _, he, _, hi⟩
    obtain rfl : MemoEntry.ofRefs .rowAgg [] = e :=
      Option.some.inj ((by decide : stray.best? 3 .rowAgg = _).symm.trans he)
    simp at hi
  have hsums : patternless.contains 3 = true := by decide
  have hreplacement : patternless.contains 2 = true := by decide
  obtain ⟨succeeds, _, _⟩ := rowAgg_outcome built stray .default .empty hsums
  obtain ⟨_, fails, _⟩ := rowAgg_outcome built stray .default .empty hreplacement
  have hplan := succeeds fun x hx => by
    rcases Relation.ReflTransGen.cases_head hx with rfl | ⟨y, hy, _⟩
    · decide
    · exact absurd hy (alone y)
  have herr : construct .rowAgg patternless stray .default .empty 2 = .error (.graph
      (.missingParameter (.builtin .replace [("target", 0), ("replacement", 1)]) "pattern")) := by
    decide +kernel
  obtain ⟨x, hx, blames⟩ := fails _ herr
  exact ⟨built, hplan, _, x, herr, hx, blames⟩

end OpFusion
