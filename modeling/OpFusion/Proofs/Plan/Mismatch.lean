import OpFusion.Proofs.Graph.Extents
import OpFusion.Proofs.Plan.Refusal
import OpFusion.Proofs.Region.Rules

/-!
# Hops that match but cannot be lowered

The rules by which a template matches and those by which it lowers are separate, and they do not
agree everywhere. `Mismatch` lists where: a hop that a region of a typed graph takes in is refused
only in these cases (`mismatch_of_refusal?`).
-/

namespace OpFusion

/-- Where a template matches at a hop that it cannot lower, with the error that reports it. -/
inductive Mismatch (g : Graph) (h : Hop) : Template → PlanError → Prop
  /-- An aggregate matches whatever its function is, but only sums can be lowered. -/
  | aggregate {t : Template} {op : AggOp} {direction : Direction} :
      h.kind = .aggUnary op direction → op ≠ .sum → Mismatch g h t (.unsupported t h)
  /-- A genuine matrix combined with a scalar or a column matches whatever the operator is, but few
  operators work on a row and a cell. -/
  | rowOperator {op : BinaryOp} : h.kind = .binary op →
      (g.input? h.id 0).any (·.shape.isGenuineMatrix) = true → op.rowOp? = none →
      Mismatch g h .rowAgg (.unsupported .rowAgg h)
  /-- The solution of a linear system is no cell operation at all. -/
  | solve : h.kind = .binary .solve → Mismatch g h .rowAgg (.unsupported .rowAgg h)
  /-- A replacement matches without saying what is replaced or by what. -/
  | parameter {params : List (String × Nat)} {name : String} : h.kind = .builtin .replace params →
      name ∈ ["pattern", "replacement"] → h.kind.param? name = none →
      Mismatch g h .rowAgg (.graph (.missingParameter h.kind name))

variable {g : Graph} {h : Hop} {err : PlanError}

theorem BinaryOp.eq_solve_of_cellOp? {op : BinaryOp} (hop : op.cellOp?.isSome ≠ true) :
    op = .solve := by
  cases op with
  | solve => rfl
  | _ => exact absurd rfl hop

/-! ## Parameters -/

/-- A builtin of a typed graph has a target. -/
theorem Graph.IsTyped.target_isSome (typed : g.IsTyped) (hh : g.hop? h.id = some h) {op : BuiltinOp}
    {params : List (String × Nat)} (hkind : h.kind = .builtin op params) :
    (h.kind.param? "target").isSome = true := by
  obtain ⟨request, htyped, hreq, hspec⟩ := typed.request_of_kind hh hkind
  cases request with
  | builtin op' operands =>
    have hparams : h.kind.params = operands.zipIdx.map fun p => (p.1.1, p.2) := by
      obtain ⟨_, rfl⟩ : op' = op ∧ _ = params := by simpa [HopRequest.kind] using hreq
      rw [hkind]
      rfl
    rw [Operator.param?, hparams]
    simp only [HopRequest.spec] at hspec
    split at hspec
    · simp at hspec
    · rename_i target htarget
      obtain ⟨i, hi, _⟩ := Graph.exists_position_of_lookup htarget
      rw [hi]
      rfl
  | raw => simp [HopRequest.isTyped] at htyped
  | _ => simp [HopRequest.kind] at hreq

/-- A parameter that cannot be found has no name in the hop. -/
theorem Graph.param?_of_paramInput (wf : g.WellFormed) (hh : g.hop? h.id = some h) {name : String}
    {e : GraphError} (he : g.paramInput h.id name = .error e) :
    h.kind.param? name = none ∧ e = .missingParameter h.kind name := by
  unfold paramInput at he
  rw [hop_eq_ok_iff.2 hh, ok_bind] at he
  split at he
  · rename_i hnone
    exact ⟨hnone, (Except.error.inj he).symm⟩
  · rename_i position hposition
    -- Accepted hops have an input for each parameter.
    have hmem : (name, position) ∈ h.kind.params := by
      obtain ⟨before, after, hsplit, _⟩ := List.lookup_eq_some_iff.1 hposition
      rw [hsplit]
      simp
    have hlt := wf.param_lt hh hmem
    have hinput : h.input? position = some h.inputs[position] := List.getElem?_eq_getElem hlt
    rw [hinput] at he
    simp at he

/-! ## Refusals of matched hops -/

namespace RowAgg

/-- A replacement is refused for a parameter that it lacks, and never for its target. -/
theorem mismatch_of_replace (typed : g.IsTyped) (hh : g.hop? h.id = some h)
    {params : List (String × Nat)} (hkind : h.kind = .builtin .replace params)
    (hrefusal : refusal? g h = some err) : Mismatch g h .rowAgg err := by
  simp only [refusal?, hkind] at hrefusal
  obtain ⟨name, hname, hmissing⟩ := List.exists_of_findSome?_eq_some hrefusal
  split at hmissing
  · simp at hmissing
  · rename_i e he
    obtain rfl := Option.some.inj hmissing
    obtain ⟨hnone, rfl⟩ := Graph.param?_of_paramInput typed.isBuilt.wellFormed hh he
    have hne : name ≠ "target" := by
      rintro rfl
      have htarget := typed.target_isSome hh hkind
      rw [hnone] at htarget
      simp at htarget
    refine .parameter hkind ?_ hnone
    rcases List.mem_cons.1 hname with rfl | hname
    · exact absurd rfl hne
    · exact hname

/-- A hop at which the row template matches is refused only where matching and lowering disagree. -/
theorem mismatch_of_refusal? (typed : g.IsTyped) (hh : g.hop? h.id = some h)
    (hmatched : opens g h.id = true ∨ fuses g h.id = true)
    (hrefusal : refusal? g h = some err) : Mismatch g h .rowAgg err := by
  -- By the kind of the hop: most kinds either do not match or are always lowered.
  cases hkind : h.kind with
  | data | literal | ternary | reorg | indexing =>
    simp [opens, fuses, hh, hkind] at hmatched
  | matmul => simp [refusal?, hkind] at hrefusal
  | unary op =>
    have hprim : op.primitive?.isSome = true := by
      simpa [opens, fuses, hh, hkind, Operator.isCellwise, Operator.isSupported] using hmatched
    simp [refusal?, hkind, hprim] at hrefusal
  | binary op =>
    simp only [refusal?, hkind] at hrefusal
    split at hrefusal
    · rename_i hgenuine
      split at hrefusal
      · simp at hrefusal
      · rename_i hrow
        obtain rfl := Option.some.inj hrefusal
        exact .rowOperator hkind hgenuine (by simpa using hrow)
    · split at hrefusal
      · simp at hrefusal
      · rename_i hcell
        obtain rfl := Option.some.inj hrefusal
        rw [BinaryOp.eq_solve_of_cellOp? hcell] at hkind
        exact .solve hkind
  | aggUnary op direction =>
    have hdirection : direction ≠ .rowCol := by
      rcases hmatched with hopens | hfuses
      · simp only [opens, hh, hkind, Option.any_some, Bool.and_eq_true, decide_eq_true_eq]
          at hopens
        exact hopens.1
      · simpa [fuses, hh, hkind] using hfuses
    by_cases hsum : op = .sum
    · subst hsum
      cases direction with
      | rowCol => exact absurd rfl hdirection
      | row | col => simp [refusal?, hkind] at hrefusal
    · have herr : err = .unsupported .rowAgg h := by
        cases op with
        | sum => exact absurd rfl hsum
        | _ => simpa [refusal?, hkind] using hrefusal.symm
      rw [herr]
      exact .aggregate hkind hsum
  | builtin op params =>
    cases op with
    | replace => exact mismatch_of_replace typed hh hkind hrefusal
    | removeEmpty =>
      simp [opens, fuses, hh, hkind, Operator.isCellwise] at hmatched

end RowAgg

/-- A hop at which the outer-product template matches is refused only if it is an aggregate. -/
theorem OuterProduct.mismatch_of_refusal? {config : Config} (hh : g.hop? h.id = some h)
    (hmatched : opens g config h.id = true ∨ fuses g h.id = true)
    (hrefusal : refusal? h = some err) : Mismatch g h .outerProduct err := by
  have hmatched : h.isMatmul = true ∨ fuses g h.id = true := by
    refine hmatched.imp_left fun hopens => ?_
    simp only [opens, Bool.and_eq_true] at hopens
    exact Graph.isMatmul_of_isOuterProductLike hh hopens.1
  cases hkind : h.kind with
  | data | literal | ternary | indexing | builtin =>
    simp [Hop.isMatmul, Hop.isTranspose, fuses, hh, hkind] at hmatched
  | matmul => simp [refusal?, hkind] at hrefusal
  | reorg op =>
    have htranspose : op = .transpose := by
      simpa [Hop.isMatmul, Hop.isTranspose, fuses, hh, hkind] using hmatched
    simp [refusal?, hkind, htranspose] at hrefusal
  | unary op =>
    have hprim : op.primitive?.isSome = true := by
      simpa [Hop.isMatmul, fuses, hh, hkind, Operator.isSupported] using hmatched
    simp [refusal?, hkind, hprim] at hrefusal
  | binary op =>
    have hcell : op.cellOp?.isSome = true := by
      rcases hmatched with hm | hfuses
      · simp [Hop.isMatmul, hkind] at hm
      · simp only [fuses, hh, hkind, Option.any_some, Operator.isSupported, Bool.and_eq_true]
          at hfuses
        exact hfuses.1
    simp [refusal?, hkind, hcell] at hrefusal
  | aggUnary op direction =>
    obtain rfl : direction = .rowCol := by
      simpa [Hop.isMatmul, fuses, hh, hkind] using hmatched
    by_cases hsum : op = .sum
    · subst hsum
      simp [refusal?, hkind] at hrefusal
    · have herr : err = .unsupported .outerProduct h := by
        cases op with
        | sum => exact absurd rfl hsum
        | _ => simpa [refusal?, hkind] using hrefusal.symm
      rw [herr]
      exact .aggregate hkind hsum

/-- A hop that a region of a typed graph takes in is refused only where matching and lowering
disagree. -/
theorem mismatch_of_refusal? {t : Template} {config : Config} (typed : g.IsTyped)
    (hh : g.hop? h.id = some h)
    (hmatched : Matcher.opens ⟨t, false, config⟩ g h.id = true ∨
      Matcher.fuses ⟨t, false, config⟩ g h.id = true)
    (hrefusal : t.refusal? g h = some err) : Mismatch g h t err := by
  cases t with
  | outerProduct => exact OuterProduct.mismatch_of_refusal? hh hmatched hrefusal
  | rowAgg => exact RowAgg.mismatch_of_refusal? typed hh hmatched hrefusal

/-- Where matching and lowering disagree, the hop is refused. -/
theorem Mismatch.exists_refusal? {t : Template} (mismatch : Mismatch g h t err)
    (hh : g.hop? h.id = some h) : ∃ e, t.refusal? g h = some e := by
  cases mismatch with
  | @aggregate _ op direction hkind hsum =>
    refine ⟨.unsupported t h, ?_⟩
    cases t with
    | outerProduct =>
      cases op with
      | sum => exact absurd rfl hsum
      | _ => simp [Template.refusal?, OuterProduct.refusal?, hkind]
    | rowAgg =>
      cases op with
      | sum => exact absurd rfl hsum
      | _ => simp [Template.refusal?, RowAgg.refusal?, hkind]
  | rowOperator hkind hgenuine hrow =>
    exact ⟨_, by simp only [Template.refusal?, RowAgg.refusal?, hkind, hgenuine, hrow]; rfl⟩
  | solve hkind =>
    refine ⟨.unsupported .rowAgg h, ?_⟩
    simp only [Template.refusal?, RowAgg.refusal?, hkind]
    split
    · rfl
    · rfl
  | @parameter params name hkind hname hnone =>
    have hmissing : g.paramInput h.id name = .error (.missingParameter h.kind name) := by
      unfold Graph.paramInput
      rw [Graph.hop_eq_ok_iff.2 hh, ok_bind]
      simp only [hnone]
    refine Option.isSome_iff_exists.1 ?_
    simp only [Template.refusal?, RowAgg.refusal?, hkind, List.findSome?_isSome_iff]
    exact ⟨name, List.mem_cons_of_mem _ hname, by rw [hmissing]; rfl⟩

end OpFusion
