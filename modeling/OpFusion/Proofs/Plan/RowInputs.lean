import OpFusion.Proofs.InputOrder
import OpFusion.Proofs.Plan.Accumulation
import OpFusion.Proofs.Plan.Inputs

/-!
# Inputs of row kernels

The main input of a row kernel is recorded along with the primitive that walks over it: a row sum or
a dot product (`RowAgg.mainOf?_eq`). Around it the inputs are ordered, each hop that the body reads
once, and each bound to its own kernel input. All of this holds whatever the memo says
(`Plan.rowAgg_inputs`).
-/

namespace OpFusion

open Kernel

/-- The fragment reduces a row to a cell at its top. -/
def Kernel.Fragment.reducesRow : Fragment → Bool
  | .unary .rowSums _ | .binary .dotProduct _ _ => true
  | _ => false

namespace RowAgg

variable {g : Graph} {d d₀ : Draft} {h : Hop} {f : Fragment} {memo : Memo} {config : Config}
  {table : NodeTable} {root id x : HopId} {t : NodeTable} {a : NodeId} {plan : Plan}

/-! ## The main input -/

@[simp] theorem reducesRow_readUnlessScalar {lookup : UnaryPrim} (hlookup : lookup ≠ .rowSums) :
    (readUnlessScalar t lookup a).reducesRow = false := by
  unfold readUnlessScalar
  split
  · rfl
  · cases lookup with
    | rowSums => exact absurd rfl hlookup
    | _ => rfl

@[simp] theorem reducesRow_sumColumns : (sumColumns t a).reducesRow = false := by
  unfold sumColumns
  split <;> rfl

/-- No elementwise operator sums up rows. -/
theorem reducesRow_unary {op : UnaryOp} {prim : UnaryPrim} {f : Fragment}
    (hprim : op.primitive? = some prim) : (Fragment.unary prim f).reducesRow = false := by
  cases op with
  | cast | print | inverse => simp [UnaryOp.primitive?] at hprim
  | _ =>
    obtain rfl := Option.some.inj hprim
    rfl

/-- A hop designates a main input exactly if it is lowered to a primitive that reduces rows, and
then its first operand. -/
theorem mainOf?_eq (wf : g.WellFormed) (hh : g.hop? h.id = some h)
    (hf : fragment g d h = .ok f) :
    mainOf? g h.id = if f.reducesRow then h.input? 0 else none := by
  have operand {i : Nat} {y : Hop} (hy : Draft.operandHop g h i = .ok y) :
      h.input? i = some y.id ∧ g.input? h.id i = some y := by
    obtain ⟨z, hz, hhy⟩ := Draft.operandHop_eq_ok_iff.1 hy
    exact ⟨wf.id_eq hhy ▸ hz, (Graph.input?_iff_of_hop? hh).2 ⟨z, hz, hhy⟩⟩
  simp only [mainOf?, hh, Option.bind_eq_bind, Option.bind_some]
  cases becomes_of_fragment hf with
  | rowSumOfColumn hkind _ hy hcolumn =>
    simp [hkind, (operand hy).2, hcolumn]
  | rowSum hkind _ hy hwide =>
    simp [hkind, operand hy, hwide, Fragment.reducesRow]
  | columnSum hkind => simp [hkind]
  | addedRows hkind hy htransposed _ hb =>
    simp [hkind, (operand hy).2, htransposed, Fragment.reducesRow]
  | productOfCells hkind _ _ hy hz hcolumns =>
    simp [hkind, (operand hy).2, (operand hz).2, hcolumns, Fragment.reducesRow]
  | dotProduct hkind _ _ hy hz hstraight hwide =>
    simp [hkind, operand hy, (operand hz).2, hstraight, hwide, Fragment.reducesRow]
  | unary hkind hprim => simp [hkind, reducesRow_unary hprim]
  | rowAndCell hkind => simp [hkind, Fragment.reducesRow]
  | cells hkind => simp [hkind, Fragment.reducesRow]
  | ternary hkind => simp [hkind, Fragment.reducesRow]
  | replace hkind => simp [hkind, Fragment.reducesRow]
  | cellOfLiteral hkind => simp [hkind, Fragment.reducesRow]
  | cellOfNode hkind => simp [hkind, Fragment.reducesRow]

/-- Lowering `id` has recorded `x` as the main input: `id` was lowered to a row sum or a dot
product, and `x` is its first operand. -/
def Designates (g : Graph) (d : Draft) (id x : HopId) : Prop :=
  ∃ h d₀ f, g.hop? id = some h ∧ fragment g d₀ h = .ok f ∧ (d₀.bindLowered h f).Precedes d ∧
    f.reducesRow = true ∧ h.input? 0 = some x

/-- The main input is found from how the hops of the region were lowered. -/
theorem mainOf?_eq_some_iff (wf : g.WellFormed)
    (hd : Draft.ofRegion .rowAgg g memo config table root = .ok d) (hid : id ∈ d.lowered) :
    mainOf? g id = some x ↔ Designates g d id x := by
  constructor
  · intro hmain
    obtain ⟨h, e, d₀, f, rfl, _, _, ready, precedes⟩ := Draft.ofRegion_lowered wf hd hid
    have hf : fragment g d₀ h = .ok f := ready.fragment
    rw [mainOf?_eq wf ready.hop hf] at hmain
    split at hmain
    · exact ⟨h, d₀, f, ready.hop, hf, precedes, ‹_›, hmain⟩
    · simp at hmain
  · rintro ⟨h, d₀, f, hh, hf, _, hreduces, hx⟩
    obtain rfl := wf.id_eq hh
    rw [mainOf?_eq wf hh hf, if_pos hreduces]
    exact hx

/-! ## The layout -/

/-- How the inputs of a row kernel are laid out around its main input. -/
structure LaysOut (g : Graph) (d : Draft) (main : Option HopId) (plan : Plan) : Prop where
  /-- No hop is passed twice. -/
  nodup : plan.inputs.Nodup
  /-- What the body reads is passed, and nothing else. -/
  mem_iff : ∀ x, x ∈ plan.inputs ↔ x ∈ plan.hopsRead
  /-- The arguments are the kernel inputs for these hops, with their types and extents. -/
  binds : plan.BindsInputs g
  /-- Each input is found at its position. -/
  position : ∀ i x, plan.inputs[i]? = some x → plan.inputPosition? x = some i
  /-- No input comes before one of higher priority. -/
  sorted : plan.inputs.Pairwise (g.Outranks main)
  /-- Inputs of one priority come in the order in which the region's boundary was met. -/
  stable : ∀ p, (plan.inputs.filter fun x => g.inputPriority main x = p).Sublist d.boundary
  /-- A main input that is a matrix comes first. -/
  first : ∀ m h, main = some m → m ∈ plan.inputs → g.hop? m = some h → h.isMatrix = true →
    plan.inputs[0]? = some m

/-- A plan passes what is read in the order of priority. -/
theorem of_plan_eq_ok (hplan : RowAgg.plan g d root = .ok plan) :
    plan.LaidOver d root ∧
      plan.inputs = (g.orderByPriority (d.lowered.reverse.findSome? (mainOf? g)) d.boundary).filter
        (fun id => id ∈ plan.hopsRead) := by
  obtain ⟨output, houtput, hplan⟩ := bind_eq_ok_iff.1 hplan
  obtain ⟨arguments, harguments, hplan⟩ := bind_eq_ok_iff.1 hplan
  obtain rfl := pure_eq_ok_iff.1 hplan
  exact ⟨⟨rfl, Draft.node_eq_ok_iff.1 houtput, harguments⟩, rfl⟩

/-- The plan of a lowered region lays out its inputs. -/
theorem laysOut_of_plan (wf : g.WellFormed)
    (hd : Draft.ofRegion .rowAgg g memo config table root = .ok d)
    (hplan : RowAgg.plan g d root = .ok plan) :
    LaysOut g d (d.lowered.reverse.findSome? (mainOf? g)) plan := by
  obtain ⟨laidOver, hinputs⟩ := of_plan_eq_ok hplan
  have mem_iff (x : HopId) : x ∈ plan.inputs ↔ x ∈ plan.hopsRead := by
    rw [hinputs, List.mem_filter, Graph.orderByPriority_perm.mem_iff, decide_eq_true_eq,
      and_iff_right_iff_imp, laidOver.mem_hopsRead_iff wf hd]
    exact laidOver.mem_boundary_of_reads wf hd
  have nodup : plan.inputs.Nodup := by
    rw [hinputs]
    refine List.Nodup.filter _ (Graph.orderByPriority_perm.nodup_iff.2 ?_)
    exact (Draft.accounted_of_ofRegion wf hd).nodup_boundary
  have sorted : plan.inputs.Pairwise (g.Outranks (d.lowered.reverse.findSome? (mainOf? g))) := by
    rw [hinputs]
    exact Graph.pairwise_orderByPriority.filter _
  refine ⟨nodup, mem_iff, ?_, Plan.nodup_inputs_iff.1 nodup, sorted, fun p => ?_, ?_⟩
  · refine laidOver.bindsInputs fun x hx => ?_
    have hreads := (laidOver.mem_hopsRead_iff wf hd).1 ((mem_iff x).1 hx)
    exact laidOver.bindsInput_of_reads wf hd hreads
  · rw [hinputs, List.filter_comm, Graph.filter_orderByPriority]
    exact List.filter_sublist.trans List.filter_sublist
  · intro m h hmain hm hh hmatrix
    rw [hmain] at sorted
    rw [← List.head?_eq_getElem?]
    exact Graph.head?_of_main wf sorted hm hh (Hop.not_isScalar_of_isMatrix hmatrix)

end RowAgg

/-- In a plan of the row template, whatever the memo, each hop that the body reads is passed once,
through its own kernel input and in the order of priority; the main input is the one that was
recorded last. -/
theorem Plan.rowAgg_inputs {g : Graph} (built : g.IsBuilt) {memo : Memo} {config : Config}
    {table : NodeTable} {root : HopId} {plan : Plan}
    (hplan : Plan.construct .rowAgg g memo config table root = .ok plan) :
    ∃ d main, Draft.ofRegion .rowAgg g memo config table root = .ok d ∧
      IsLatest (RowAgg.Designates g d) d.lowered main ∧ RowAgg.LaysOut g d main plan := by
  have wf := built.wellFormed
  obtain ⟨d, hd, hplan⟩ := bind_eq_ok_iff.1 hplan
  refine ⟨d, _, hd, isLatest_findSome? fun id hid x => ?_, RowAgg.laysOut_of_plan wf hd hplan⟩
  exact RowAgg.mainOf?_eq_some_iff wf hd hid

theorem Plan.rowAgg_inputs_quotient :
    Plan.construct .rowAgg Memo.quotient Memo.ofQuotient .default .empty 6 = .ok ofQuotient ∧
      ofQuotient.inputs = [1, 0] ∧
      ∃ d main, Draft.ofRegion .rowAgg Memo.quotient Memo.ofQuotient .default .empty 6 = .ok d ∧
        IsLatest (RowAgg.Designates Memo.quotient d) d.lowered main ∧
        RowAgg.LaysOut Memo.quotient d main ofQuotient := by
  have hplan : Plan.construct .rowAgg Memo.quotient Memo.ofQuotient .default .empty 6 =
      .ok ofQuotient := by decide +kernel
  exact ⟨hplan, by decide +kernel, rowAgg_inputs ⟨Memo.quotientRequests, rfl⟩ hplan⟩

end OpFusion
