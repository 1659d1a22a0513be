import OpFusion.Proofs.Memo.Reexploration

/-!
# Histories of a memo

A memo comes about by adding entries, dropping those of a template at a hop, and exploring
(`Memo.Change`). An entry that is there already is not added again, but exploration closes entries
where it finds them, and does not look whether they are then there twice. So an entry is listed
twice at a hop exactly if an exploration once clashed with what it found there, and nothing has
dropped the entries of the template since (`nodup_after_iff`).
-/

namespace OpFusion

namespace MemoEntry

theorem eq_of_close_eq {e e' : MemoEntry} (h : e.close = e'.close)
    (hclosed : e.closed = e'.closed) : e = e' := by
  cases e
  cases e'
  simp_all [close]

/-- Closing leaves distinct entries distinct, unless one of them is there open and closed. -/
theorem nodup_map_close_iff {l : List MemoEntry} :
    (l.map (·.close)).Nodup ↔ l.Nodup ∧ ∀ e ∈ l, e.closed = false → e.close ∉ l := by
  constructor
  · intro hnodup
    refine ⟨.of_map _ hnodup, fun e he hopen hclosed => ?_⟩
    have heq : e = e.close := List.inj_on_of_nodup_map hnodup he hclosed rfl
    rw [heq] at hopen
    exact Bool.noConfusion hopen
  · rintro ⟨hnodup, hapart⟩
    refine hnodup.map_on fun x hx y hy heq => ?_
    cases hx' : x.closed with
    | false =>
      cases hy' : y.closed with
      | false => exact eq_of_close_eq heq (hx'.trans hy'.symm)
      | true =>
        have hyx : y = x.close := eq_of_close_eq heq.symm hy'
        exact absurd (hyx ▸ hy) (hapart x hx hx')
    | true =>
      cases hy' : y.closed with
      | false =>
        have hxy : x = y.close := eq_of_close_eq heq hx'
        exact absurd (hxy ▸ hx) (hapart y hy hy')
      | true => exact eq_of_close_eq heq (hx'.trans hy'.symm)

end MemoEntry

namespace Matcher

variable {m : Matcher} {g : Graph} {memo : Memo} {h : Hop} {before : List MemoEntry}

/-- The template ends its region at a hop and closes an entry which is there closed already: one
that was there open as well, or one that grows there now. -/
def Clashes (m : Matcher) (g : Graph) (memo : Memo) (h : Hop) (before : List MemoEntry) : Prop :=
  m.closing g h.id = .valid ∧
    ∃ e, e.closed = false ∧ e.close ∈ before ∧ (e ∈ before ∨ e ∈ m.grown g memo h)

/-- Settling a hop leaves its entries distinct if they are given up, or were distinct and do not
clash. -/
theorem nodup_settle_iff (own : ∀ e ∈ before, e.template = m.template) :
    (m.settle g memo h before).Nodup ↔
      m.closing g h.id = .invalid ∨ before.Nodup ∧ ¬ m.Clashes g memo h before := by
  have hmem (e : MemoEntry) : e ∈ before ++ (m.grown g memo h).filter (· ∉ before) ↔
      e ∈ before ∨ e ∈ m.grown g memo h := Memo.mem_append_filter_iff
  have hall : (before ++ (m.grown g memo h).filter (· ∉ before)).Nodup ↔ before.Nodup := by
    refine ⟨fun hnodup => (List.nodup_append.1 hnodup).1, fun hnodup => ?_⟩
    refine List.nodup_append.2 ⟨hnodup, nodup_grown.filter _, fun e he e' he' heq => ?_⟩
    exact of_decide_eq_true (List.mem_filter.1 he').2 (heq ▸ he)
  have htemplate : ∀ e ∈ before ++ (m.grown g memo h).filter (· ∉ before),
      e.template = m.template := fun e he =>
    ((hmem e).1 he).elim (own e) template_of_mem_grown
  simp only [settle]
  generalize before ++ (m.grown g memo h).filter (· ∉ before) = all at hmem hall htemplate
  cases hclosing : m.closing g h.id with
  | stillOpen => simpa [Clashes, hclosing] using hall
  | invalid =>
    have nothing : all.filter (·.template ≠ m.template) = [] :=
      List.filter_eq_nil_iff.2 fun e he => by simp [htemplate e he]
    simp only [nothing, List.nodup_nil, true_or]
  | valid =>
    have hclose : all.map (·.closeIf m.template) = all.map (·.close) :=
      List.map_congr_left fun e he => if_pos (htemplate e he)
    -- What grows is open, so an entry that is there closed was there before.
    have hclosed (e : MemoEntry) : e.close ∈ all ↔ e.close ∈ before := by
      rw [hmem, or_iff_left]
      exact fun hgrown => Bool.noConfusion (grows_of_mem_grown hgrown).closed_eq
    simp only [reduceCtorEq, false_or]
    rw [hclose, MemoEntry.nodup_map_close_iff, hall]
    simp only [Clashes, hclosing, true_and, not_exists, not_and, hclosed, hmem]
    exact and_congr_right fun _ => ⟨fun hapart e hopen hbefore he => hapart e he hopen hbefore,
      fun hapart e he hopen hbefore => hapart e hopen hbefore he⟩

end Matcher

namespace Memo

/-- A change to a memo. -/
inductive Change where
  | add (id : HopId) (e : MemoEntry)
  | remove (id : HopId) (t : Template)
  | explore (g : Graph) (config : Config) (roots : List HopId)

namespace Change

/-- The change does not fail: an exploration is one of a built graph, from roots that it has. -/
def Succeeds : Change → Prop
  | explore g _ roots => g.IsBuilt ∧ ∀ root ∈ roots, g.contains root
  | _ => True

/-- The memo after the change. -/
def apply (memo : Memo) : Change → Memo
  | add id e => memo.add id e
  | remove id t => memo.remove id t
  | explore g config roots => (memo.explore g config roots).1

/-- The change drops the entries of a template at a hop. -/
def Drops (id : HopId) (t : Template) : Change → Prop
  | add _ _ => False
  | remove id' t' => id' = id ∧ t' = t
  | explore g config roots => Dag.ReachedFrom g.inputs roots id ∧
      Matcher.closing ⟨t, false, config⟩ g id = .invalid

/-- The change is an exploration that closes an entry of a template at a hop, where the same entry
is in the memo closed already. -/
def Clashes (memo : Memo) (id : HopId) (t : Template) : Change → Prop
  | explore g config roots => Dag.ReachedFrom g.inputs roots id ∧ ∃ h, g.hop? id = some h ∧
      Matcher.Clashes ⟨t, false, config⟩ g (memo.explore g config roots).1 h (memo.entriesOf id t)
  | _ => False

/-- A region that is closed is not given up. -/
theorem Clashes.not_drops {memo : Memo} {id : HopId} {t : Template} {c : Change}
    (hclash : c.Clashes memo id t) (succeeds : c.Succeeds) : ¬ c.Drops id t := by
  cases c with
  | add => exact fun h => h
  | remove => exact hclash.elim
  | explore g config roots =>
    obtain ⟨_, h, hh, hvalid, _⟩ := hclash
    obtain rfl := succeeds.1.wellFormed.id_eq hh
    rintro ⟨_, hinvalid⟩
    rw [hvalid] at hinvalid
    exact Closing.noConfusion hinvalid

end Change

/-- The memo after a list of changes. -/
def after (memo : Memo) (changes : List Change) : Memo := changes.foldl Change.apply memo

variable {memo : Memo} {id other : HopId} {t : Template} {e : MemoEntry} {g : Graph}
  {config : Config} {roots : List HopId} {changes : List Change}

theorem after_snoc {last : Change} :
    memo.after (changes ++ [last]) = last.apply (memo.after changes) := by
  simp [after]

/-- Equal entries are of the same template, so the entries of each may be looked at apart. -/
theorem nodup_entries_iff : (memo.entries id).Nodup ↔ ∀ t, (memo.entriesOf id t).Nodup := by
  refine ⟨fun hnodup t => hnodup.filter _, fun hnodup => ?_⟩
  rw [List.nodup_iff_sublist]
  intro e htwice
  refine List.nodup_iff_sublist.1 (hnodup e.template) e ?_
  simpa [entriesOf] using htwice.filter (·.template = e.template)

theorem nodup_entriesOf_add :
    ((memo.add id e).entriesOf other t).Nodup ↔ (memo.entriesOf other t).Nodup := by
  rw [entriesOf_add]
  split
  · rename_i hnew
    obtain ⟨rfl, _, hnew⟩ := hnew
    rw [List.nodup_append_comm, List.singleton_append, List.nodup_cons, and_iff_right hnew]
  · rfl

theorem nodup_entriesOf_remove {t' : Template} :
    ((memo.remove id t').entriesOf other t).Nodup ↔
      (id = other ∧ t' = t) ∨ (memo.entriesOf other t).Nodup := by
  rw [entriesOf_remove, eq_comm (a := id)]
  split
  · rename_i hdropped
    simp [hdropped]
  · rename_i hkept
    simp [hkept]

theorem nodup_entriesOf_explore (built : g.IsBuilt) (known : ∀ root ∈ roots, g.contains root) :
    ((memo.explore g config roots).1.entriesOf id t).Nodup ↔
      (Change.explore g config roots).Drops id t ∨
        (memo.entriesOf id t).Nodup ∧ ¬ (Change.explore g config roots).Clashes memo id t := by
  have wf := built.wellFormed
  have revises := revises_explore wf memo config roots
  rw [List.takeWhile_eq_self_iff.2 known] at revises
  have hdone : id ∈ Dag.postOrder g.inputs roots ↔ Dag.ReachedFrom g.inputs roots id :=
    Dag.mem_postOrder wf.descending
  by_cases hreached : Dag.ReachedFrom g.inputs roots id
  · obtain ⟨h, hh⟩ := exists_hop?_of_reachedFrom wf known hreached
    have own : ∀ e ∈ memo.entriesOf id t, e.template = t := fun e he => (mem_entriesOf_iff.1 he).2
    obtain rfl := wf.id_eq hh
    rw [revises.entriesOf_eq (hdone.2 hreached) hh, Matcher.nodup_settle_iff own]
    simp [Change.Drops, Change.Clashes, hreached, hh]
  · have hentries : (memo.explore g config roots).1.entries id = memo.entries id :=
      revises.outside fun _ _ hid => hreached (hdone.1 hid)
    simp [entriesOf, hentries, Change.Drops, Change.Clashes, hreached]

/-- One change repeats an entry of a template at a hop if it clashes there, and leaves repeated
those that are unless it drops them. -/
theorem nodup_entriesOf_apply {c : Change} (succeeds : c.Succeeds) :
    ((c.apply memo).entriesOf id t).Nodup ↔
      c.Drops id t ∨ (memo.entriesOf id t).Nodup ∧ ¬ c.Clashes memo id t := by
  cases c with
  | add id' e => simpa [Change.apply, Change.Drops, Change.Clashes] using nodup_entriesOf_add
  | remove id' t' => simpa [Change.apply, Change.Drops, Change.Clashes] using nodup_entriesOf_remove
  | explore g config roots => exact nodup_entriesOf_explore succeeds.1 succeeds.2

/-- After a run of changes from the empty memo the entries at a hop are distinct exactly if,
whenever an exploration clashed with what it found there of a template, a later change has dropped
the entries of the template there. -/
theorem nodup_after_iff (succeed : ∀ c ∈ changes, c.Succeeds) (id : HopId) :
    ((empty.after changes).entries id).Nodup ↔
      ∀ t done c rest, changes = done ++ c :: rest → c.Clashes (empty.after done) id t →
        ∃ c' ∈ rest, c'.Drops id t := by
  rw [nodup_entries_iff]
  refine forall_congr' fun t => ?_
  induction changes using List.reverseRecOn with
  | nil => simp [after, entriesOf]
  | append_singleton front last ih =>
    have hfront := ih fun c hc => succeed c (List.mem_append_left _ hc)
    have hlast : last.Succeeds := succeed last (List.mem_append_right _ (List.mem_singleton_self _))
    rw [after_snoc, nodup_entriesOf_apply hlast, hfront]
    constructor
    · intro hstep done c rest heq hclash
      -- The clash is in the last change or before it.
      cases rest using List.reverseRecOn with
      | nil =>
        obtain ⟨rfl, rfl⟩ : front = done ∧ last = c := by simpa using heq
        rcases hstep with hdrops | ⟨_, hnone⟩
        · exact absurd hdrops (hclash.not_drops hlast)
        · exact absurd hclash hnone
      | append_singleton rest x _ =>
        rw [← List.cons_append, ← List.append_assoc] at heq
        obtain ⟨hsplit, hx⟩ := List.append_inj' heq rfl
        rcases hstep with hdrops | ⟨hbefore, _⟩
        · exact ⟨last, List.mem_append_right _ (hx ▸ List.mem_singleton_self _), hdrops⟩
        · obtain ⟨c', hc', hdrops⟩ := hbefore done c rest hsplit hclash
          exact ⟨c', List.mem_append_left _ hc', hdrops⟩
    · intro hall
      by_cases hdrops : last.Drops id t
      · exact .inl hdrops
      · refine .inr ⟨fun done c rest heq hclash => ?_, fun hclash => ?_⟩
        · obtain ⟨c', hc', hdrops'⟩ := hall done c (rest ++ [last]) (by simp [heq]) hclash
          rcases List.mem_append.1 hc' with hc' | hc'
          · exact ⟨c', hc', hdrops'⟩
          · exact absurd (List.mem_singleton.1 hc' ▸ hdrops') hdrops
        · obtain ⟨c', hc', _⟩ := hall front last [] rfl hclash
          simp at hc'

/-- The column sums of a matrix. -/
def columnSums : Graph := Graph.empty.build [.data "X" 100 20, .colSums 0]

/-- The exploration of the column sums. -/
def Change.sumsExplored : Change := .explore columnSums .default [1]

theorem Change.succeeds_sumsExplored : sumsExplored.Succeeds := ⟨⟨_, rfl⟩, by decide⟩

theorem nodup_after_iff_columnSums :
    (∀ c ∈ [Change.sumsExplored, .sumsExplored, .remove 1 .rowAgg], c.Succeeds) ∧
      Change.sumsExplored.Clashes (empty.after [.sumsExplored]) 1 .rowAgg ∧
      ((empty.after [.sumsExplored, .sumsExplored, .remove 1 .rowAgg]).entries 1).Nodup ∧
      ∃ c ∈ [Change.remove 1 .rowAgg], c.Drops 1 .rowAgg := by
  have succeed : ∀ c ∈ [Change.sumsExplored, .sumsExplored, .remove 1 .rowAgg], c.Succeeds := by
    simp only [List.forall_mem_cons]
    exact ⟨Change.succeeds_sumsExplored, Change.succeeds_sumsExplored, trivial, by simp⟩
  have clash : Change.sumsExplored.Clashes (empty.after [.sumsExplored]) 1 .rowAgg :=
    ⟨⟨1, by decide, .refl⟩, _, rfl, rfl, .ofRefs .rowAgg [], rfl, by decide, .inr (by decide)⟩
  have nodup : ((empty.after [.sumsExplored, .sumsExplored,
      .remove 1 .rowAgg]).entries 1).Nodup := by decide
  exact ⟨succeed, clash, nodup, (nodup_after_iff succeed 1).1 nodup .rowAgg [.sumsExplored]
    .sumsExplored [.remove 1 .rowAgg] rfl clash⟩

/-- Exploring the column sums twice lists the closed entry of the sum twice. -/
theorem columnSums_explored_twice_repeats :
    (∀ c ∈ [Change.sumsExplored, .sumsExplored], c.Succeeds) ∧
      ¬ ((empty.after [.sumsExplored, .sumsExplored]).entries 1).Nodup := by
  exact ⟨by simp [Change.succeeds_sumsExplored], by decide⟩

end Memo

end OpFusion
