import OpFusion.Proofs.Memo.Chain
import OpFusion.Proofs.Plan.Run

/-!
# Lowering outer-product regions

The best entries of an outer-product region form a chain, and the hops of the region are lowered
along it: what a hop of the chain reads before the one it refers to has no open region, so binding
it from outside keeps nothing of the chain from being lowered.
-/

namespace OpFusion

namespace Draft

variable {g : Graph} {memo : Memo} {config : Config} {done : List HopId} {d d' : Draft}
  {id root x y : HopId} {h : Hop} {e : MemoEntry}

/-- What lies in the region below an input has an open region. -/
theorem hasOpen_of_inRegion {t : Template} (explored : memo.ExploredBy g config done)
    (hy : memo.Refers t g id y) (hx : memo.InRegion t g y x) : memo.hasOpen x t = true := by
  rcases Relation.ReflTransGen.cases_tail hx with rfl | ⟨z, _, hz⟩
  · exact explored.hasOpen_of_refers hy
  · exact explored.hasOpen_of_refers hz

/-- The inputs before the one that a hop refers to are bound from outside, and none of them belongs
to the region. -/
theorem not_binds_before (explored : memo.ExploredBy g config done) (typed : g.IsTyped)
    {depth i j : Nat} (hh : g.hop? h.id = some h) (he : memo.best? h.id .outerProduct = some e)
    (hi : e.refersTo i = true) (hy : h.input? i = some y) (hji : j < i) (hj : h.input? j = some x)
    (hcall : (if e.refersTo j then lowerBelow .outerProduct g memo config depth d x
      else bindBoundary g config d x) = .ok d')
    (hnew : ∀ z, memo.InRegion .outerProduct g y z → ¬ d.Binds z) :
    ∀ z, memo.InRegion .outerProduct g y z → ¬ d'.Binds z := by
  have justified := explored.justified_of_best hh he
  have hnot : e.refersTo j ≠ true := fun hj' =>
    absurd (explored.eq_of_refersTo typed hh justified hj' hi) (Nat.ne_of_lt hji)
  rw [if_neg hnot] at hcall
  intro z hz hbound
  rcases bindBoundary_cases typed.isBuilt.wellFormed hcall with ⟨_, rfl⟩ | ⟨hx, _, rfl, _, rfl⟩
  · exact hnew z hz hbound
  · rcases binds_bindOuter_iff.1 hbound with hbound | rfl
    · exact hnew z hz hbound
    · have hclosed := explored.hasOpen_eq_false_of_lt typed hh he hi hji hj
      rw [hasOpen_of_inRegion explored ⟨h, e, i, hh, he, hy, hi⟩ hz] at hclosed
      exact Bool.noConfusion hclosed

/-- If nothing of an outer-product region is bound before, all of it is lowered. -/
theorem lowered_of_inRegion (explored : memo.ExploredBy g config done) (typed : g.IsTyped)
    {depth : Nat} :
    ∀ {d d' : Draft} {id : HopId}, lowerBelow .outerProduct g memo config depth d id = .ok d' →
      (∀ x, memo.InRegion .outerProduct g id x → ¬ d.Binds x) →
      ∀ x, memo.InRegion .outerProduct g id x → x ∈ d'.lowered := by
  have wf := typed.isBuilt.wellFormed
  induction depth with
  | zero =>
    intro d d' id hcall
    simp [lowerBelow] at hcall
  | succ depth ih =>
    intro d d' id hcall hnew x hx
    have hid := hnew id .refl
    obtain ⟨h, hh, e, he⟩ := matched_of_lowerBelow hid hcall
    rw [lowerBelow_of_not_binds hid hh he] at hcall
    obtain rfl := wf.id_eq hh
    obtain ⟨d₁, hinputs, hcall⟩ := bind_eq_ok_iff.1 hcall
    obtain ⟨d₂, habsorbed, hcall⟩ := bind_eq_ok_iff.1 hcall
    obtain ⟨f, hf, hcall⟩ := bind_eq_ok_iff.1 hcall
    obtain rfl := pure_eq_ok_iff.1 hcall
    rcases Relation.ReflTransGen.cases_head hx with rfl | ⟨y, hy, hxy⟩
    · rw [lowered_bindLowered]
      simp
    · have hrefers := hy
      obtain ⟨h', e', i, hh', he', hinput, hi⟩ := hrefers
      obtain rfl : h = h' := Option.some.inj (hh.symm.trans hh')
      obtain rfl : e = e' := Option.some.inj (he.symm.trans he')
      have hrun : Run .outerProduct g memo config h.id d₁ d₂ := (bindAbsorbed_run wf hh he habsorbed).1
      refine precedes_bindLowered.lowered (hrun.precedes.lowered ?_)
      -- The input that the entry refers to comes after inputs that lie outside the region.
      obtain ⟨before, after, hsplit⟩ := List.append_of_mem (List.mk_mem_zipIdx_iff_getElem?.2 hinput)
      have position {a : HopId × Nat} (ha : a ∈ before ++ (y, i) :: after) :
          h.input? a.2 = some a.1 := List.mk_mem_zipIdx_iff_getElem?.1 (hsplit ▸ ha)
      have hlt : ∀ a ∈ before, a.2 < i := by
        have ascending : (h.inputs.zipIdx.map (·.2)).Pairwise (· < ·) := by
          rw [List.zipIdx_map_snd]
          exact List.pairwise_lt_range' ..
        rw [hsplit, List.map_append, List.pairwise_append] at ascending
        intro a ha
        exact ascending.2.2 a.2 (List.mem_map_of_mem ha) i (by simp)
      rw [lowerInputs, hsplit, List.foldlM_append, bind_eq_ok_iff] at hinputs
      obtain ⟨d₃, hbefore, hrest⟩ := hinputs
      rw [List.foldlM_cons, bind_eq_ok_iff] at hrest
      obtain ⟨d₄, hmiddle, hafter⟩ := hrest
      have hnew' : ∀ z, memo.InRegion .outerProduct g y z → ¬ d₃.Binds z := by
        refine foldlM_preserves (P := fun d => ∀ z, memo.InRegion .outerProduct g y z → ¬ d.Binds z)
          ?_ hbefore fun z hz => hnew z (.head hy hz)
        rintro ⟨z, j⟩ ha d d' hcall hd
        exact not_binds_before explored typed hh he hi hinput (hlt _ ha)
          (position (List.mem_append_left _ ha)) hcall hd
      have hlowered : x ∈ d₄.lowered := by
        have hcall : lowerBelow .outerProduct g memo config depth d₃ y = .ok d₄ := by
          simpa only [hi, if_true] using hmiddle
        exact ih hcall hnew' x hxy
      refine foldlM_preserves (P := fun d => x ∈ d.lowered) ?_ hafter hlowered
      rintro ⟨z, j⟩ ha d d' hcall hd
      have hz := position (List.mem_append_right _ (List.mem_cons_of_mem _ ha))
      have run := (lowerInput_run wf (fun hcall => lowerBelow_lowers wf hcall) hh he hz hcall).1
      exact run.precedes.lowered hd

end Draft

end OpFusion
