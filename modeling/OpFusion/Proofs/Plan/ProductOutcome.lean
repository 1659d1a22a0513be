import OpFusion.Proofs.Memo.Product
import OpFusion.Proofs.Plan.Failure

/-!
# How outer-product planning fails

At a hop with an entry of an explored memo, open or closed, outer-product planning can fail in two
ways: no hop of the region designates a main matrix, or its own hop is refused or gives a result
that lies nowhere (`Plan.outerProduct_fails_at_root`). A hop below the root is never refused, since a
region that takes in an aggregate ends there.
-/

namespace OpFusion

open Kernel

namespace OuterProduct

variable {memo : Memo} {g : Graph} {config : Config} {done : List HopId} {root : HopId}
  {e : MemoEntry} {table : NodeTable} {err : PlanError}

/-- In an explored memo only the root of a region can be refused. -/
theorem eq_of_blocked (explored : memo.ExploredBy g config done) (wf : g.WellFormed)
    (hbest : memo.best? root .outerProduct = some e)
    (blocked : memo.Blocked .outerProduct g root err) :
    ∃ h, g.hop? root = some h ∧ err = .unsupported .outerProduct h := by
  cases blocked with
  | unmatched hx _ hnone =>
    obtain ⟨_, _, e', he'⟩ := explored.matched hbest hx
    rw [hnone] at he'
    simp at he'
  | @refused x h entry err hx hh he hrefusal =>
    obtain rfl := wf.id_eq hh
    have hmatched := (explored.justified_of_best hh he).cases.imp_right And.left
    -- Of the hops that match, only aggregates are refused.
    cases mismatch_of_refusal? hh hmatched hrefusal with
    | aggregate hkind =>
      have hroot : root = h.id := by
        rcases Relation.reflTransGen_iff_eq_or_transGen.1 hx with heq | hbelow
        · exact heq.symm
        · obtain ⟨h', hh', hopen⟩ := explored.stillOpen_of_below hbelow
          obtain rfl : h = h' := Option.some.inj (hh.symm.trans hh')
          exact absurd hopen (closing_of_aggUnary hh hkind)
      exact ⟨h, hroot ▸ hh, rfl⟩

/-- Planning at a hop with an entry fails for want of a main matrix or with its own hop. -/
theorem construct_ends (explored : memo.ExploredBy g config done) (typed : g.IsTyped)
    (hbest : memo.best? root .outerProduct = some e) :
    Ends (fun err => (err = .missingFactor .main ∧
          ∀ x, memo.InRegion .outerProduct g root x → mainOf? g x = none) ∨
        ∃ h, g.hop? root = some h ∧ err = .unsupported .outerProduct h)
      (Plan.construct .outerProduct g memo config table root) := by
  have wf := typed.isBuilt.wellFormed
  obtain ⟨h, hh, _⟩ := explored.best hbest
  have hregion : Ends (memo.Blocked .outerProduct g root)
      (Draft.ofRegion .outerProduct g memo config table root) := Draft.ofRegion_ends wf hh
  refine (hregion.imp fun err blocked => ?_).bind fun d hd => ?_
  · exact .inr (eq_of_blocked explored wf hbest blocked)
  · obtain ⟨_, _, _, _, hcases⟩ := layout_cases explored typed hbest hh hd
    rcases hcases with ⟨hnone, herror⟩ | ⟨_, ⟨_, herror⟩ | ⟨_, hplan⟩⟩
    · exact .inr ⟨_, .inl ⟨rfl, hnone⟩, herror⟩
    · exact .inr ⟨_, .inr ⟨h, hh, rfl⟩, herror⟩
    · exact .inl hplan

end OuterProduct

/-- In a typed graph outer-product planning at a hop with an entry of the explored memo gives a plan,
or fails because no hop of the region designates a main matrix, or reports the hop itself as
unsupported. -/
theorem Plan.outerProduct_fails_at_root {g : Graph} (typed : g.IsTyped) (config : Config)
    (roots : List HopId) (table : NodeTable) {root : HopId}
    (hentry : (Memo.empty.explore g config roots).1.contains root .outerProduct = true) :
    Ends (fun err => (err = .missingFactor .main ∧
          ∀ x, (Memo.empty.explore g config roots).1.InRegion .outerProduct g root x →
            OuterProduct.mainOf? g x = none) ∨
        ∃ h, g.hop? root = some h ∧ err = .unsupported .outerProduct h)
      (construct .outerProduct g (Memo.empty.explore g config roots).1 config table root) := by
  have explored := Memo.exploredBy_explore typed.isBuilt.wellFormed config roots
  obtain ⟨e, hbest⟩ := Memo.contains_iff.1 hentry
  exact OuterProduct.construct_ends explored typed hbest

/-- The product alone designates no main matrix; only the hop that weights it does. -/
theorem Plan.outerProduct_fails_at_root_weighted :
    Memo.weighted.IsTyped ∧ Memo.ofWeighted.contains 4 .outerProduct = true ∧
      construct .outerProduct Memo.weighted Memo.ofWeighted .default .empty 4 =
        .error (.missingFactor .main) ∧
      ∀ x, Memo.ofWeighted.InRegion .outerProduct Memo.weighted 4 x →
        OuterProduct.mainOf? Memo.weighted x = none := by
  have typed : Memo.weighted.IsTyped := ⟨Memo.weightedRequests, by decide, rfl⟩
  have hentry : Memo.ofWeighted.contains 4 .outerProduct = true := by decide
  have herr : construct .outerProduct Memo.weighted Memo.ofWeighted .default .empty 4 =
      .error (.missingFactor .main) := by decide +kernel
  refine ⟨typed, hentry, herr, ?_⟩
  have hends := outerProduct_fails_at_root typed .default [6] .empty hentry
  rcases hends.of_error herr with ⟨_, hnone⟩ | ⟨h, _, hunsupported⟩
  · exact hnone
  · simp [PlanError.unsupported] at hunsupported

end OpFusion
