import OpFusion.Proofs.Plan.Closed

/-!
# How planning fails

Nothing is assumed of the memo here: its entries may be at any hop and refer to any position. Still
planning fails with few errors (`Plan.construct_ends`): a hop of the region has no entry or is
refused, or an outer-product region cannot be laid out. Whatever the builder itself looks up is
there (`Plan.lookups_succeed`).
-/

namespace OpFusion

open Kernel

variable {t : Template} {g : Graph} {memo : Memo} {config : Config} {table : NodeTable} {d : Draft}
  {id root : HopId} {h : Hop} {err : PlanError}

/-! ## Refusals -/

/-- The input for a parameter is found exactly if the hop has a parameter of that name. -/
theorem Graph.paramInput_cases (wf : g.WellFormed) (hh : g.hop? h.id = some h) (name : String) :
    ((∃ x, g.paramInput h.id name = .ok x) ∧ (h.kind.param? name).isNone = false) ∨
      g.paramInput h.id name = .error (.missingParameter h.kind name) ∧
        (h.kind.param? name).isNone = true := by
  cases hinput : g.paramInput h.id name with
  | error e =>
    obtain ⟨hnone, rfl⟩ := param?_of_paramInput wf hh hinput
    exact .inr ⟨rfl, by rw [hnone]; rfl⟩
  | ok x =>
    refine .inl ⟨⟨x, rfl⟩, ?_⟩
    unfold paramInput at hinput
    rw [hop_eq_ok_iff.2 hh, ok_bind] at hinput
    cases hparam : h.kind.param? name with
    | none => simp [hparam] at hinput
    | some position => rfl

namespace RowAgg

/-- The parameters of a replacement, in the order in which a missing one is reported. -/
def replacementParams : List String := ["target", "pattern", "replacement"]

/-- A replacement is refused for the first of its parameters that it lacks. -/
theorem refusal?_of_replace (wf : g.WellFormed) (hh : g.hop? h.id = some h)
    {params : List (String × Nat)} (hkind : h.kind = .builtin .replace params) :
    refusal? g h = (replacementParams.find? fun name => (h.kind.param? name).isNone).map
      fun name => .graph (.missingParameter h.kind name) := by
  simp only [refusal?, hkind, replacementParams]
  generalize ["target", "pattern", "replacement"] = names
  induction names with
  | nil => rfl
  | cons name rest ih =>
    rw [List.findSome?_cons, List.find?_cons, ← hkind]
    rw [← hkind] at ih
    rcases Graph.paramInput_cases wf hh name with ⟨⟨x, hx⟩, hsome⟩ | ⟨hmissing, hnone⟩
    · rw [hx, hsome]
      exact ih
    · rw [hmissing, hnone]
      rfl

/-- Other hops are refused as a whole. -/
theorem refusal?_of_not_replace (hkind : ∀ params, h.kind ≠ .builtin .replace params)
    (hrefusal : refusal? g h = some err) : err = .unsupported .rowAgg h := by
  unfold refusal? at hrefusal
  split at hrefusal
  case h_7 params hreplace => exact absurd hreplace (hkind params)
  all_goals grind

/-- A hop is refused as a whole, or for the first parameter that it lacks if it is a replacement. -/
theorem refusal?_cases (wf : g.WellFormed) (hh : g.hop? h.id = some h)
    (hrefusal : refusal? g h = some err) :
    (err = .unsupported .rowAgg h ∧ ∀ params, h.kind ≠ .builtin .replace params) ∨
      ∃ params name, h.kind = .builtin .replace params ∧
        replacementParams.find? (fun name => (h.kind.param? name).isNone) = some name ∧
        err = .graph (.missingParameter h.kind name) := by
  by_cases hreplace : ∃ params, h.kind = .builtin .replace params
  · obtain ⟨params, hkind⟩ := hreplace
    rw [refusal?_of_replace wf hh hkind] at hrefusal
    obtain ⟨name, hname, rfl⟩ := Option.map_eq_some_iff.1 hrefusal
    exact .inr ⟨params, name, hkind, hname, rfl⟩
  · have hother (params) : h.kind ≠ .builtin .replace params := fun hkind => hreplace ⟨_, hkind⟩
    exact .inl ⟨refusal?_of_not_replace hother hrefusal, hother⟩

end RowAgg

/-- A hop is refused as a whole, unless it is a replacement that lacks a parameter. -/
theorem Template.refusal?_cases (wf : g.WellFormed) (hh : g.hop? h.id = some h)
    (hrefusal : t.refusal? g h = some err) :
    err = .unsupported t h ∨ t = .rowAgg ∧ ∃ params name, h.kind = .builtin .replace params ∧
      h.kind.param? name = none ∧ err = .graph (.missingParameter h.kind name) := by
  cases t with
  | outerProduct =>
    left
    simp only [Template.refusal?, OuterProduct.refusal?] at hrefusal
    split at hrefusal
    all_goals grind
  | rowAgg =>
    rcases RowAgg.refusal?_cases wf hh hrefusal with
      ⟨rfl, _⟩ | ⟨params, name, hkind, hname, rfl⟩
    · exact .inl rfl
    · have hmissing := List.find?_some hname
      exact .inr ⟨rfl, params, name, hkind, by simpa using hmissing, rfl⟩

/-! ## Layout -/

/-- Once an outer-product region is lowered, laying it out fails only if a part is not found or the
result lies nowhere. -/
theorem OuterProduct.plan_ends (wf : g.WellFormed) (hh : g.hop? root = some h)
    (hd : Draft.ofRegion .outerProduct g memo config table root = .ok d) :
    Ends (fun err => (∃ role, err = .missingFactor role) ∨ err = .unsupported .outerProduct h)
      (OuterProduct.plan g d root) := by
  have hroot : d.Binds root := Draft.binds_of_mem_lowered (Draft.mem_lowered_of_ofRegion wf hd)
  have hop {x : HopId} (hx : x ∈ d.lowered) : ∃ h, g.hop? x = some h ∧ h.id = x := by
    obtain ⟨h, _, _, _, hid, _, _, ready, _⟩ := Draft.ofRegion_lowered wf hd hx
    exact ⟨h, hid ▸ ready.hop, hid⟩
  cases hfactors : d.lowered.reverse.findSome? (factorsOf? g) with
  | none =>
    obtain ⟨output, houtput⟩ := hroot
    unfold OuterProduct.plan
    rw [Draft.node_eq_ok_iff.2 houtput, ok_bind]
    simp only [hfactors, Option.map_none, inRole]
    cases d.lowered.reverse.findSome? (mainOf? g) with
    | none => exact .error (.inl ⟨_, rfl⟩)
    | some main => exact .error (.inl ⟨_, rfl⟩)
  | some factors =>
    obtain ⟨left, right⟩ := factors
    obtain ⟨p, hp, hfactorsp⟩ := List.exists_of_findSome?_eq_some hfactors
    have hp := List.mem_reverse.1 hp
    obtain ⟨hopp, hhp, rfl⟩ := hop hp
    obtain ⟨hleft, hright⟩ := mem_of_factorsOf? hhp wf hfactorsp
    have hmain : ∀ x ∈ d.lowered, ∀ main, mainOf? g x = some main → d.Binds main := by
      intro x hx main hmain
      obtain ⟨hopx, hhx, rfl⟩ := hop hx
      exact binds_of_lowered wf hd hx hhx (.inl (mem_inputs_of_mainOf? hhx wf hmain))
    rcases plan_cases hroot hh hfactors hmain (binds_of_lowered wf hd hp hhp (.inl hleft))
      (binds_of_lowered wf hd hp hhp hright) with
      ⟨_, herror⟩ | ⟨_, ⟨_, herror⟩ | ⟨_, hplan⟩⟩
    · exact .inr ⟨_, .inl ⟨_, rfl⟩, herror⟩
    · exact .inr ⟨_, .inr rfl, herror⟩
    · exact .inl hplan

/-! ## Planning -/

namespace Plan

/-- The root of a region has to be in the graph. -/
theorem construct_of_unknown (hh : g.hop? root = none) :
    construct t g memo config table root = .error (.graph (.unknownHop root)) := by
  have hnew : ¬ (⟨table, []⟩ : Draft).Binds root := by simp [Draft.binds_iff]
  have hregion : Draft.ofRegion t g memo config table root = .error (.graph (.unknownHop root)) :=
    Draft.lowerBelow_of_unknown hnew hh
  rw [construct, hregion]
  rfl

/-- Planning at a hop of the graph fails if the region below it is blocked, or if it is an
outer-product region that cannot be laid out. -/
theorem construct_ends (wf : g.WellFormed) (hh : g.hop? root = some h) :
    Ends (fun err => memo.Blocked t g root err ∨ t = .outerProduct ∧
        ((∃ role, err = .missingFactor role) ∨ err = .unsupported .outerProduct h))
      (construct t g memo config table root) := by
  have hregion : Ends (memo.Blocked t g root) (Draft.ofRegion t g memo config table root) :=
    Draft.ofRegion_ends wf hh
  refine (hregion.imp fun _ => .inl).bind fun d hd => ?_
  cases t with
  | outerProduct => exact (OuterProduct.plan_ends wf hh hd).imp fun _ hlayout => .inr ⟨rfl, hlayout⟩
  | rowAgg =>
    have hroot := Draft.binds_of_mem_lowered (Draft.mem_lowered_of_ofRegion wf hd)
    exact .inl (RowAgg.exists_plan hroot)

/-- In a built graph planning needs no more depth than the number of its hop gives it, and it never
fails for want of a node. It fails with an error of the graph only if the hop is unknown, or if the
row template comes to a replacement that lacks a parameter. -/
theorem lookups_succeed (built : g.IsBuilt) (t : Template) (memo : Memo) (config : Config)
    (table : NodeTable) (root : HopId) :
    (∀ depth, root < depth → Draft.lowerBelow t g memo config depth ⟨table, []⟩ root =
        Draft.ofRegion t g memo config table root) ∧
      ∀ err, construct t g memo config table root = .error err →
        (∀ x, err ≠ .missingNode x) ∧ ∀ e, err = .graph e →
          (g.contains root = false ∧ e = .unknownHop root) ∨
          (t = .rowAgg ∧ ∃ x h params name, memo.InRegion .rowAgg g root x ∧ g.hop? x = some h ∧
            h.kind = .builtin .replace params ∧ h.kind.param? name = none ∧
            e = .missingParameter h.kind name) := by
  have wf := built.wellFormed
  refine ⟨fun depth hdepth => Draft.lowerBelow_depth wf hdepth (Nat.lt_succ_self root), ?_⟩
  intro err herr
  cases hh : g.hop? root with
  | none =>
    rw [construct_of_unknown hh] at herr
    obtain rfl := Except.error.inj herr
    have hunknown : g.contains root = false := by
      rw [← Bool.not_eq_true, Graph.contains_iff, hh]
      simp
    refine ⟨by simp, fun e he => .inl ⟨hunknown, ?_⟩⟩
    exact (PlanError.graph.inj he).symm
  | some h =>
    rcases (construct_ends wf hh).of_error herr with blocked | ⟨_, ⟨role, rfl⟩ | rfl⟩
    · cases blocked with
      | unmatched => exact ⟨by simp, by simp⟩
      | @refused x hx entry err hregion hhx _ hrefusal =>
        obtain rfl := wf.id_eq hhx
        rcases Template.refusal?_cases wf hhx hrefusal with
          rfl | ⟨rfl, params, name, hkind, hnone, rfl⟩
        · exact ⟨by simp [PlanError.unsupported], by simp [PlanError.unsupported]⟩
        · refine ⟨by simp, fun e he => .inr ⟨rfl, hx.id, hx, params, name, hregion, hhx, hkind,
            hnone, ?_⟩⟩
          exact (PlanError.graph.inj he).symm
    · exact ⟨by simp, by simp⟩
    · exact ⟨by simp [PlanError.unsupported], by simp [PlanError.unsupported]⟩

/-- The sums of the rows of a matrix, and a replacement in it that does not say what is replaced:
`replace(X, replacement=s)`. -/
def patternless : Graph :=
  Graph.empty.build [.data "X" 100 20, .scalar "s",
    .builtin .replace [("target", 0), ("replacement", 1)], .rowSums 0]

/-- Entries that no exploration makes: one refers past the inputs of its hop, one is at a leaf and
one at a hop that is not there. -/
def stray : Memo :=
  ⟨[(2, [.ofRefs .rowAgg [7]]), (0, [.ofRefs .rowAgg [0]]), (9, [.ofRefs .rowAgg [3]]),
    (3, [.ofRefs .rowAgg []])], by decide⟩

theorem lookups_succeed_patternless :
    patternless.IsBuilt ∧ ∃ e,
      construct .rowAgg patternless stray .default .empty 2 = .error (.graph e) ∧
      ∃ x h params name, stray.InRegion .rowAgg patternless 2 x ∧ patternless.hop? x = some h ∧
        h.kind = .builtin .replace params ∧ h.kind.param? name = none ∧
        e = .missingParameter h.kind name := by
  have built : patternless.IsBuilt := ⟨_, rfl⟩
  have herr : construct .rowAgg patternless stray .default .empty 2 = .error (.graph
      (.missingParameter (.builtin .replace [("target", 0), ("replacement", 1)]) "pattern")) := by
    decide +kernel
  obtain ⟨_, hfails⟩ := lookups_succeed built .rowAgg stray .default .empty 2
  obtain ⟨_, hgraph⟩ := hfails _ herr
  rcases hgraph _ rfl with ⟨hunknown, _⟩ | ⟨_, hlacks⟩
  · exact absurd hunknown (by decide)
  · exact ⟨built, _, herr, hlacks⟩

end Plan

end OpFusion
