import OpFusion.Proofs.Plan.Growth

/-!
# What a plan depends on

Of a memo, planning reads at each hop below its root which inputs the best entry of one template
refers to (`Memo.marks?`), and of a graph what lies below the root. So memos that agree there
(`Memo.AgreesBelow`) give the same plan or the same error, and they do so in every graph that the
given one grows into (`Plan.construct_sees_below`).
-/

namespace OpFusion

namespace Memo

variable {memo memo' : Memo} {t t' : Template} {g : Graph} {id other root : HopId} {e : MemoEntry}

/-- The inputs of a hop to which the best entry of a template refers, if there is such an entry. -/
def marks? (memo : Memo) (t : Template) (g : Graph) (id : HopId) : Option (List Nat) :=
  (memo.best? id t).map fun e => (List.range (g.inputs id).length).filter e.refersTo

/-- At what a root reaches, the best entries of a template refer to the same inputs. -/
def AgreesBelow (memo memo' : Memo) (t : Template) (g : Graph) (root : HopId) : Prop :=
  ∀ id, Dag.Reaches g.inputs root id → memo.marks? t g id = memo'.marks? t g id

/-- Where marks agree, both memos lack an entry, or the best entries refer to the same inputs. -/
theorem marks?_eq_cases (h : memo.marks? t g id = memo'.marks? t g id) :
    (memo.best? id t = none ∧ memo'.best? id t = none) ∨
      ∃ e e', memo.best? id t = some e ∧ memo'.best? id t = some e' ∧
        ∀ i < (g.inputs id).length, e.refersTo i = e'.refersTo i := by
  unfold marks? at h
  cases he : memo.best? id t with
  | none =>
    rw [he, Option.map_none, eq_comm, Option.map_eq_none_iff] at h
    exact .inl ⟨rfl, h⟩
  | some e =>
    rw [he, Option.map_some, eq_comm, Option.map_eq_some_iff] at h
    obtain ⟨e', he', hmarks⟩ := h
    refine .inr ⟨e, e', rfl, he', fun i hi => ?_⟩
    have hmem : i ∈ (List.range (g.inputs id).length).filter e'.refersTo ↔
        i ∈ (List.range (g.inputs id).length).filter e.refersTo := by rw [hmarks]
    simp only [List.mem_filter, List.mem_range, hi, true_and] at hmem
    exact (Bool.eq_iff_iff.2 hmem).symm

/-- A best entry refers to what it marks. -/
theorem refersTo_iff_of_marks? {h : Hop} {marks : List Nat} (hh : g.hop? id = some h)
    (hmarks : memo.marks? t g id = some marks) (he : memo.best? id t = some e) {i : Nat} {x : HopId}
    (hx : h.input? i = some x) : e.refersTo i = true ↔ i ∈ marks := by
  obtain ⟨e', he', rfl⟩ := Option.map_eq_some_iff.1 hmarks
  obtain rfl := Option.some.inj (he.symm.trans he')
  have hi : i < h.inputs.length := (List.getElem?_eq_some_iff.1 hx).1
  rw [List.mem_filter, List.mem_range, Graph.inputs_of_hop? hh]
  simp [hi]

/-! ## Changes that planning does not see -/

theorem marks?_of_entriesOf (h : memo.entriesOf id t = memo'.entriesOf id t) :
    memo.marks? t g id = memo'.marks? t g id := by
  rw [marks?, marks?, best?, best?, h]

/-- An entry of another template is not seen, nor one at a hop that the root does not reach, nor one
that refers to no more inputs than the best entry. -/
theorem agreesBelow_add (hunseen : e.template ≠ t ∨ ¬ Dag.Reaches g.inputs root id ∨
    ∃ best, memo.best? id t = some best ∧ e.refCount ≤ best.refCount) :
    memo.AgreesBelow (memo.add id e) t g root := by
  intro other hother
  have hadd : (memo.add id e).entriesOf other t = _ := entriesOf_add
  split at hadd
  · rename_i hnew
    obtain ⟨rfl, ht, _⟩ := hnew
    rcases hunseen with hne | hout | ⟨best, hbest, hle⟩
    · exact absurd ht hne
    · exact absurd hother hout
    · rw [marks?, marks?, best?_of_append hadd hbest (by simpa using hle), hbest]
  · exact marks?_of_entriesOf hadd.symm

/-- Which entries are closed is not seen. -/
theorem agreesBelow_close : memo.AgreesBelow (memo.close id t') t g root := by
  intro other _
  have hclose : (memo.close id t').entriesOf other t = _ := entriesOf_close
  split at hclose
  · have best := best?_of_map (f := MemoEntry.close) (fun _ => rfl) hclose
    rw [marks?, marks?, best, Option.map_map]
    rfl
  · exact marks?_of_entriesOf hclose.symm

theorem agreesBelow_remove (hunseen : t' ≠ t ∨ ¬ Dag.Reaches g.inputs root id) :
    memo.AgreesBelow (memo.remove id t') t g root := by
  intro other hother
  refine marks?_of_entriesOf ?_
  rw [entriesOf_remove, if_neg]
  rintro ⟨rfl, rfl⟩
  exact hunseen.elim (fun h => h rfl) fun h => h hother

end Memo

/-! ## Planning -/

variable {t : Template} {g g' : Graph} {memo memo' : Memo} {config : Config} {d : Draft}
  {id root : HopId} {h : Hop}

namespace Draft

/-- Memos that agree below a hop give the same draft, or the same error, in a graph and in a larger
one. -/
theorem lowerBelow_grown (grows : g.GrowsTo g') (wf : g.WellFormed) (hroot : root < g.size)
    (agrees : memo.AgreesBelow memo' t g root) {depth : Nat} :
    ∀ {d : Draft} {id : HopId}, Dag.Reaches g.inputs root id →
      lowerBelow t g' memo' config depth d id = lowerBelow t g memo config depth d id := by
  induction depth with
  | zero => exact fun _ => rfl
  | succ depth ih =>
    intro d id hid
    by_cases hnew : d.Binds id
    · rw [lowerBelow_of_binds hnew, lowerBelow_of_binds hnew]
    have hlt : id < g.size := Nat.lt_of_le_of_lt (hid.le wf.descending) hroot
    obtain ⟨h, hh⟩ := Graph.exists_hop?_iff.2 hlt
    have hh' := grows.hop?_of_hop? wf hh
    rcases Memo.marks?_eq_cases (agrees id hid) with ⟨he, he'⟩ | ⟨e, e', he, he', hmarks⟩
    · rw [lowerBelow_of_unmatched hnew hh he, lowerBelow_of_unmatched hnew hh' he']
    · rw [lowerBelow_of_not_binds hnew hh he, lowerBelow_of_not_binds hnew hh' he']
      obtain rfl := wf.id_eq hh
      have inputs : lowerInputs t g' memo' config depth d (g'.regrown h) e' =
          lowerInputs t g memo config depth d h e := by
        refine foldlM_congr (fun ⟨x, i⟩ hmem d => ?_) d
        have hx : h.inputs[i]? = some x := List.mk_mem_zipIdx_iff_getElem?.1 hmem
        have hread : x ∈ g.inputs h.id := Graph.inputs_of_hop? hh ▸ List.mem_of_getElem? hx
        have hi : i < (g.inputs h.id).length :=
          Graph.inputs_of_hop? hh ▸ (List.getElem?_eq_some_iff.1 hx).1
        have hxlt : x < g.size := Nat.lt_trans (wf.descending _ _ hread) hlt
        simp only [hmarks i hi, ih (hid.tail hread), bindBoundary_grown grows wf hxlt]
      rw [inputs]
      exact bind_congr_ok fun d _ => lower_grown grows wf hh

theorem ofRegion_grown (grows : g.GrowsTo g') (wf : g.WellFormed) (hroot : root < g.size)
    (agrees : memo.AgreesBelow memo' t g root) {table : Kernel.NodeTable} :
    ofRegion t g' memo' config table root = ofRegion t g memo config table root :=
  lowerBelow_grown grows wf hroot agrees .refl

end Draft

namespace Plan

theorem construct_grown (grows : g.GrowsTo g') (wf : g.WellFormed) (hroot : root < g.size)
    (agrees : memo.AgreesBelow memo' t g root) {table : Kernel.NodeTable} :
    construct t g' memo' config table root = construct t g memo config table root := by
  obtain ⟨h, hh⟩ := Graph.exists_hop?_iff.2 hroot
  unfold construct
  rw [Draft.ofRegion_grown grows wf hroot agrees]
  refine bind_congr_ok fun d hd => Template.plan_grown grows wf hh (fun x hx => ?_) fun x hx => ?_
  · obtain ⟨_, _, _, _, _, hregion, _⟩ := Draft.ofRegion_lowered wf hd hx
    exact Nat.lt_of_le_of_lt (hregion.le wf) hroot
  · exact Nat.lt_trans ((Draft.borders_of_mem_boundary wf hd hx).lt wf) hroot

/-- A plan depends on what lies below its root only. In every graph that further requests make of a
built one, each memo whose best entries of the template refer to the same inputs at what the root
reaches gives the same plan or the same error. In particular planning sees none of these: an entry
of another template or at a hop that the root does not reach, an entry that refers to no more inputs
than the best one, and which entries are closed. -/
theorem construct_sees_below (built : g.IsBuilt) (requests : List HopRequest)
    (hroot : g.contains root) (t : Template) (memo : Memo) (config : Config)
    (table : Kernel.NodeTable) :
    (∀ memo', memo.AgreesBelow memo' t g root →
        construct t (g.build requests) memo' config table root =
          construct t g memo config table root) ∧
      (∀ id e, (e.template ≠ t ∨ ¬ Dag.Reaches g.inputs root id ∨
          ∃ best, memo.best? id t = some best ∧ e.refCount ≤ best.refCount) →
        construct t (g.build requests) (memo.add id e) config table root =
          construct t g memo config table root) ∧
      (∀ id t', construct t (g.build requests) (memo.close id t') config table root =
        construct t g memo config table root) ∧
      ∀ id t', (t' ≠ t ∨ ¬ Dag.Reaches g.inputs root id) →
        construct t (g.build requests) (memo.remove id t') config table root =
          construct t g memo config table root := by
  have same {memo' : Memo} (agrees : memo.AgreesBelow memo' t g root) :
      construct t (g.build requests) memo' config table root =
        construct t g memo config table root :=
    construct_grown (Graph.growsTo_build g requests) built.wellFormed
      (Graph.exists_hop?_iff.1 (Graph.contains_iff.1 hroot)) agrees
  exact ⟨fun _ => same, fun _ _ hunseen => same (Memo.agreesBelow_add hunseen),
    fun _ _ => same Memo.agreesBelow_close,
    fun _ _ hunseen => same (Memo.agreesBelow_remove hunseen)⟩

/-- An entry of the row template that no exploration makes at the quotient of the sample: it refers
to one position, past the inputs of the hop, where the best entry refers to two inputs. -/
def unseen : MemoEntry := (MemoEntry.ofRefs .rowAgg [7]).close

theorem construct_sees_below_quotient :
    Memo.quotient.IsBuilt ∧ Memo.quotient.contains 6 = true ∧
      (construct .rowAgg Memo.quotient Memo.ofQuotient .default .empty 6).isOk = true ∧
      (∃ best, Memo.ofQuotient.best? 5 .rowAgg = some best ∧ unseen.refCount ≤ best.refCount) ∧
      Memo.ofQuotient.AgreesBelow (Memo.ofQuotient.add 5 unseen) .rowAgg Memo.quotient 6 ∧
      ∀ memo' ∈ [Memo.ofQuotient.add 5 unseen, Memo.ofQuotient.close 5 .rowAgg,
          Memo.ofQuotient.remove 5 .outerProduct],
        construct .rowAgg (Memo.quotient.build [.transpose 6]) memo' .default .empty 6 =
          construct .rowAgg Memo.quotient Memo.ofQuotient .default .empty 6 := by
  have built : Memo.quotient.IsBuilt := ⟨Memo.quotientRequests, rfl⟩
  have hroot : Memo.quotient.contains 6 = true := by decide
  have worse : ∃ best, Memo.ofQuotient.best? 5 .rowAgg = some best ∧
      unseen.refCount ≤ best.refCount := ⟨.ofRefs .rowAgg [0, 1], by decide +kernel, by decide⟩
  have agrees : Memo.ofQuotient.AgreesBelow (Memo.ofQuotient.add 5 unseen) .rowAgg
      Memo.quotient 6 := Memo.agreesBelow_add (.inr (.inr worse))
  obtain ⟨same, _, closed, removed⟩ :=
    construct_sees_below built [.transpose 6] hroot .rowAgg Memo.ofQuotient .default .empty
  refine ⟨built, hroot, by decide +kernel, worse, agrees, ?_⟩
  simp only [List.forall_mem_cons]
  exact ⟨same _ agrees, closed 5 .rowAgg, removed 5 .outerProduct (.inl (by decide)), by simp⟩

/-- What planning does see: an entry of the template itself at a hop of the region. -/
example : construct .rowAgg Memo.quotient (Memo.ofQuotient.remove 5 .rowAgg) .default .empty 6 =
    .error (.missingMemoEntry 5 .rowAgg) := by decide +kernel

end Plan

end OpFusion
