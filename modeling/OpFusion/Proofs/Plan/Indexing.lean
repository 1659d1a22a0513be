import OpFusion.Proofs.Plan.RowOperands

/-!
# Single cells of a row

An indexing hop is lowered to the look-up of one column in the current row. The look-up takes the
node of the target, the number of columns of the target and the last column of the block; this last
column is written into the kernel if it is a literal, whether literals are compiled or not
(`Plan.rowAgg_indexing`). The number of columns is unsigned and the literal that holds it is signed,
so from `2 ^ 63` columns on the literal is negative (`Plan.widest_extent_is_negative`).
-/

namespace OpFusion

open Kernel

/-- A signed literal holds an unsigned extent as it is up to half of the range; from there on it
falls short of it by the size of the range. -/
theorem toInt_toInt64 (n : UInt64) :
    n.toInt64.toInt =
      if 2 * n.toNat < UInt64.size then (n.toNat : Int) else n.toNat - UInt64.size :=
  BitVec.toInt_eq_toNat_cond n.toBitVec

namespace RowAgg

variable {g : Graph} {d : Draft} {memo : Memo} {config : Config} {table : NodeTable} {h : Hop}
  {e : MemoEntry} {f : Fragment} {root : HopId} {n top : NodeId}

/-- The node of an indexing hop looks up one column: of the target, which has `cols` columns, the
one that `bound` gives. -/
structure LooksUp (d : Draft) (h target bound : Hop) (cols : UInt64) (n a b c : NodeId) :
    Prop where
  node : d.node? h.id = some n
  top : ∃ k, d.table.node? n = some k ∧ k.op = .ternary .lookupColumn a b c
  /-- The first operand is the node of the target. -/
  target : d.node? target.id = some a
  /-- The second operand is the extent, as far as a signed literal can hold it. -/
  extent : d.table.node? b = some (.literal (.int cols.toInt64))
  /-- A literal bound is written into the kernel. -/
  constant : ∀ last, bound.literal? = some last → d.table.node? c = some (.literal last)
  /-- Any other bound is read through its node. -/
  other : bound.literal? = none → d.node? bound.id = some c

/-- Every lowered indexing hop looks up a column. -/
theorem exists_looksUp (wf : g.WellFormed)
    (hd : Draft.ofRegion .rowAgg g memo config table root = .ok d) (hlowered : h.id ∈ d.lowered)
    (hh : g.hop? h.id = some h) (hkind : h.kind = .indexing) :
    ∃ target bound cols n a b c, g.input? h.id 0 = some target ∧ g.input? h.id 4 = some bound ∧
      target.shape.cols = some cols ∧ LooksUp d h target bound cols n a b c := by
  obtain ⟨e, f, top, n, _, made⟩ := Draft.exists_made_of_hop? wf hd hlowered hh
  have input {i : Nat} {x : Hop} (hx : Draft.operandHop g h i = .ok x) :
      g.input? h.id i = some x := (Draft.operandHop_eq_ok_iff_input? hh).1 hx
  -- The node that is read at a position is that of the hop there.
  have operand {i : Nat} {x : Hop} {a : NodeId} (hx : Draft.operandHop g h i = .ok x)
      (ha : d.operand h i = .ok a) : d.node? x.id = some a := by
    obtain ⟨y, hy, hyx⟩ := Draft.operandHop_eq_ok_iff.1 hx
    obtain ⟨y', hy', hn⟩ := Draft.operand_eq_ok_iff.1 ha
    obtain rfl : y = y' := Option.some.inj (hy.symm.trans hy')
    rwa [wf.id_eq hyx]
  have becomes : Becomes g d h f := made.becomes
  have computes := made.computes
  cases becomes with
  | cellOfLiteral _ ha hx hcols hy hvalue =>
    obtain ⟨a, b, c, ⟨rfl, _⟩, hb, hc, htop⟩ := computes
    obtain ⟨k, hk, hop⟩ := made.exists_node htop
    refine ⟨_, _, _, n, a, b, c, input hx, input hy, hcols, ?_⟩
    refine ⟨made.node, ⟨k, hk, hop⟩, operand hx ha, hb, ?_, ?_⟩
    · intro last hlast
      obtain rfl := Option.some.inj (hvalue.symm.trans hlast)
      exact hc
    · intro hnone
      simp [hvalue] at hnone
  | cellOfNode _ ha hupper hx hcols hy hnone =>
    obtain ⟨a, b, c, ⟨rfl, _⟩, hb, ⟨rfl, _⟩, htop⟩ := computes
    obtain ⟨k, hk, hop⟩ := made.exists_node htop
    refine ⟨_, _, _, n, a, b, c, input hx, input hy, hcols, ?_⟩
    refine ⟨made.node, ⟨k, hk, hop⟩, operand hx ha, hb, ?_, ?_⟩
    · intro last hlast
      simp [hnone] at hlast
    · intro _
      exact operand hy hupper
  | _ kind => simp [hkind] at kind

end RowAgg

/-- In a plan of the row template, whatever the memo, the node of each lowered indexing hop looks up
a column of its target: the last column of the block, which is written into the kernel if it is a
literal. The number of columns is held as it is up to half of the unsigned range, which is `2 ^ 63`,
and is negative from there on. -/
theorem Plan.rowAgg_indexing {g : Graph} (built : g.IsBuilt) {memo : Memo} {config : Config}
    {table : NodeTable} {root : HopId} {plan : Plan}
    (hplan : Plan.construct .rowAgg g memo config table root = .ok plan) :
    ∃ d, Draft.ofRegion .rowAgg g memo config table root = .ok d ∧ plan.table = d.table ∧
      ∀ h, h.id ∈ d.lowered → g.hop? h.id = some h → h.kind = .indexing →
        ∃ target bound cols n a b c, g.input? h.id 0 = some target ∧
          g.input? h.id 4 = some bound ∧ target.shape.cols = some cols ∧
          RowAgg.LooksUp d h target bound cols n a b c ∧
          cols.toInt64.toInt =
            if 2 * cols.toNat < UInt64.size then (cols.toNat : Int)
            else cols.toNat - UInt64.size := by
  obtain ⟨d, hd, hplan⟩ := bind_eq_ok_iff.1 hplan
  obtain ⟨laidOver, _⟩ := RowAgg.of_plan_eq_ok hplan
  refine ⟨d, hd, laidOver.table, ?_⟩
  intro h hlowered hh hkind
  obtain ⟨target, bound, cols, n, a, b, c, htarget, hbound, hcols, looksUp⟩ :=
    RowAgg.exists_looksUp built.wellFormed hd hlowered hh hkind
  exact ⟨target, bound, cols, n, a, b, c, htarget, hbound, hcols, looksUp, toInt_toInt64 cols⟩

/-- The sums over the rows of the fifth column of a matrix. -/
def Plan.fifth (cols : UInt64) : Graph :=
  Graph.empty.build [.data "X" 100 cols, .literal (.int 1), .literal (.int 100), .literal (.int 5),
    .rightIndex 0 1 2 3 3, .rowSums 4]

/-- A memo in which the row sums take in the column. -/
def Memo.ofFifth : Memo := (Memo.empty.add 5 (.ofRefs .rowAgg [0])).add 4 (.ofRefs .rowAgg [])

/-- The plan for these sums. -/
def Plan.ofFifth (cols : UInt64) : Plan :=
  (Plan.construct .rowAgg (fifth cols) Memo.ofFifth .default .empty 5).toOption.getD
    ⟨[], .empty, [], 0, .rowAgg 0⟩

theorem Plan.rowAgg_indexing_fifth :
    Plan.construct .rowAgg (fifth 20) Memo.ofFifth .default .empty 5 = .ok (ofFifth 20) ∧
      ∃ d h target bound n a b c,
        Draft.ofRegion .rowAgg (fifth 20) Memo.ofFifth .default .empty 5 = .ok d ∧
        4 ∈ d.lowered ∧ (fifth 20).hop? 4 = some h ∧ h.kind = .indexing ∧
        target.shape.cols = some 20 ∧ bound.literal? = some (.int 5) ∧
        RowAgg.LooksUp d h target bound 20 n a b c := by
  have hplan : Plan.construct .rowAgg (fifth 20) Memo.ofFifth .default .empty 5 =
      .ok (ofFifth 20) := by decide +kernel
  obtain ⟨h, target, bound, hh, hid, hkind, htarget, hcols, hbound, hlast⟩ : ∃ h target bound,
      (fifth 20).hop? 4 = some h ∧ h.id = 4 ∧ h.kind = .indexing ∧
      (fifth 20).input? 4 0 = some target ∧ target.shape.cols = some 20 ∧
      (fifth 20).input? 4 4 = some bound ∧ bound.literal? = some (.int 5) :=
    ⟨_, _, _, rfl, rfl, rfl, rfl, rfl, rfl, rfl⟩
  have hlowers : ((Draft.ofRegion .rowAgg (fifth 20) Memo.ofFifth .default .empty 5).map
      (·.lowered)) = .ok [4, 5] := by decide +kernel
  have built : (fifth 20).IsBuilt := ⟨_, rfl⟩
  obtain ⟨d, hd, _, hlooksUp⟩ := rowAgg_indexing built hplan
  have hlowered : 4 ∈ d.lowered := by
    rw [hd] at hlowers
    have hlist : d.lowered = [4, 5] := Except.ok.inj hlowers
    simp [hlist]
  obtain ⟨target', bound', cols, n, a, b, c, htarget', hbound', hcols', looksUp, _⟩ :=
    hlooksUp h (hid ▸ hlowered) (hid ▸ hh) hkind
  rw [hid] at htarget' hbound'
  obtain rfl := Option.some.inj (htarget.symm.trans htarget')
  obtain rfl := Option.some.inj (hbound.symm.trans hbound')
  obtain rfl := Option.some.inj (hcols.symm.trans hcols')
  exact ⟨hplan, d, h, target, bound, n, a, b, c, hd, hlowered, hh, hkind, hcols, hlast, looksUp⟩

/-- Of a matrix with `2 ^ 63` columns, the literal for their number is negative. -/
theorem Plan.widest_extent_is_negative :
    Plan.construct .rowAgg (fifth 9223372036854775808) Memo.ofFifth .default .empty 5 =
        .ok (ofFifth 9223372036854775808) ∧
      ((fifth 9223372036854775808).input? 4 0).bind (·.shape.cols) = some 9223372036854775808 ∧
      ∃ d n a b c value,
        Draft.ofRegion .rowAgg (fifth 9223372036854775808) Memo.ofFifth .default .empty 5 = .ok d ∧
        4 ∈ d.lowered ∧ d.node? 4 = some n ∧
        (d.table.node? n).map (·.op) = some (.ternary .lookupColumn a b c) ∧
        d.table.node? b = some (.literal (.int value)) ∧
        value.toInt = -9223372036854775808 ∧ value.toInt ≠ 9223372036854775808 := by
  have hplan : Plan.construct .rowAgg (fifth 9223372036854775808) Memo.ofFifth .default .empty 5 =
      .ok (ofFifth 9223372036854775808) := by decide +kernel
  refine ⟨hplan, by decide +kernel, ?_⟩
  refine ⟨(Draft.ofRegion .rowAgg (fifth 9223372036854775808) Memo.ofFifth .default .empty
    5).toOption.getD ⟨.empty, []⟩, 6, 0, 4, 5, (9223372036854775808 : UInt64).toInt64, ?_⟩
  decide +kernel

end OpFusion
