import OpFusion.Memo.Basic

/-!
# Entries after a change

What the entries at a hop are after an entry was added somewhere, and after a template was closed
or dropped at a hop. Changes at one hop leave the entries at all others alone.
-/

namespace OpFusion

namespace MemoEntry

/-- An entry made from positions refers to exactly those. -/
@[simp] theorem refersTo_ofRefs {t : Template} {positions : List Nat} {p : Nat} :
    (ofRefs t positions).refersTo p = true ↔ p ∈ positions :=
  PositionSet.contains_ofList

/-- Without positions, an entry starts a region. -/
theorem ofRefs_nil {t : Template} : ofRefs t [] = starting t := rfl

/-- Entries made from positions are equal only if the positions are the same. -/
theorem mem_iff_of_ofRefs_eq {t : Template} {ps qs : List Nat} (h : ofRefs t ps = ofRefs t qs)
    (p : Nat) : p ∈ ps ↔ p ∈ qs := by
  rw [← refersTo_ofRefs (t := t), h, refersTo_ofRefs]

/-- The entry, closed if it is of the given template. -/
def closeIf (t : Template) (e : MemoEntry) : MemoEntry := if e.template = t then e.close else e

@[simp] theorem template_closeIf {t : Template} {e : MemoEntry} :
    (e.closeIf t).template = e.template := by
  unfold closeIf
  split <;> rfl

/-- An entry of another template is not closed. -/
theorem closeIf_of_ne {t : Template} {e : MemoEntry} (hne : e.template ≠ t) : e.closeIf t = e :=
  if_neg hne

@[simp] theorem closeIf_closeIf {t : Template} {e : MemoEntry} :
    (e.closeIf t).closeIf t = e.closeIf t := by
  by_cases ht : e.template = t
  · simp [closeIf, close, ht]
  · rw [closeIf_of_ne ht, closeIf_of_ne ht]

/-- Closing entries does not move them between templates. -/
theorem filter_map_closeIf {l : List MemoEntry} {t t' : Template} :
    (l.map (·.closeIf t')).filter (·.template = t) =
      (l.filter (·.template = t)).map (·.closeIf t') := by
  rw [List.filter_map]
  simp [Function.comp_def]

end MemoEntry

namespace Memo

variable {m m' : Memo} {id other : HopId} {t : Template} {e : MemoEntry}

@[simp] theorem entries_empty : empty.entries id = [] := rfl

/-! ## The lists of a memo -/

theorem list?_erase : (m.erase id).list? other = if other = id then none else m.list? other := by
  rw [list?, erase, List.find?_filter]
  split
  · rename_i heq
    rw [List.find?_eq_none.2 fun row _ => by simp [heq], Option.map_none]
  · rename_i hne
    congr 2
    funext row
    by_cases hrow : row.1 = other <;> simp [hrow, hne]

theorem list?_put {l : List MemoEntry} :
    (m.put id l).list? other = if other = id then some l else m.list? other := by
  have hput : (m.put id l).list? other =
      ((m.erase id).list? other).or (if other = id then some l else none) := by
    rw [list?, put, List.find?_append, Option.map_or, list?, List.find?_singleton]
    congr 1
    by_cases heq : other = id <;> simp [heq, Ne.symm]
  rw [hput, list?_erase]
  split
  · rfl
  · rw [Option.or_none]

theorem entries_erase : (m.erase id).entries other = if other = id then [] else m.entries other := by
  rw [entries, list?_erase]
  split <;> rfl

theorem entries_put {l : List MemoEntry} :
    (m.put id l).entries other = if other = id then l else m.entries other := by
  rw [entries, list?_put]
  split <;> rfl

theorem entries_of_list? {l : Option (List MemoEntry)} (h : m.list? id = l) :
    m.entries id = l.getD [] := by
  rw [entries, h]

/-! ## What a change leaves at a hop -/

/-- Adding an entry appends it at its hop, unless it is there already. -/
theorem entries_add :
    (m.add id e).entries other =
      if other = id ∧ e ∉ m.entries id then m.entries other ++ [e] else m.entries other := by
  rw [add, entries_put]
  by_cases heq : other = id
  · subst heq
    by_cases hmem : e ∈ m.entries other <;> simp [hmem]
  · simp [heq]

/-- A list and what another has beside it hold what either of them does. -/
theorem mem_append_filter_iff {l l' : List MemoEntry} :
    e ∈ l ++ l'.filter (· ∉ l) ↔ e ∈ l ∨ e ∈ l' := by
  by_cases he : e ∈ l <;> simp [he]

/-- Adding distinct entries at a hop appends those that are not there yet. -/
theorem entries_foldl_add {l : List MemoEntry} (nodup : l.Nodup) :
    (l.foldl (·.add id) m).entries other =
      if other = id then m.entries other ++ l.filter (· ∉ m.entries other) else m.entries other := by
  induction l generalizing m with
  | nil => simp
  | cons e rest ih =>
    obtain ⟨hnew, hrest⟩ := List.nodup_cons.1 nodup
    rw [List.foldl_cons, ih hrest, entries_add]
    by_cases heq : other = id
    · subst heq
      by_cases hmem : e ∈ m.entries other
      · simp [hmem]
      · -- The entries that follow differ from the one just added.
        have later : rest.filter (· ∉ m.entries other ++ [e]) =
            rest.filter (· ∉ m.entries other) := by
          refine List.filter_congr fun x hx => ?_
          have : x ≠ e := fun h => hnew (h ▸ hx)
          simp [this]
        simp only [hmem, not_false_eq_true, and_self, if_true, later, List.filter_cons,
          decide_true, List.append_assoc, List.singleton_append]
    · simp [heq]

/-- Closing a template at a hop closes its entries there and keeps their order. -/
theorem entries_close :
    (m.close id t).entries other =
      if other = id then (m.entries other).map (·.closeIf t) else m.entries other := by
  cases hlist : m.list? id with
  | none =>
    simp only [close, hlist]
    split
    · rename_i heq
      simp [heq, entries_of_list? hlist]
    · rfl
  | some present =>
    simp only [close, hlist, entries_put]
    split
    · rename_i heq
      rw [heq, entries_of_list? hlist]
      rfl
    · rfl

/-- Dropping a template at a hop leaves the entries of other templates there. -/
theorem entries_remove :
    (m.remove id t).entries other =
      if other = id then (m.entries other).filter (·.template ≠ t) else m.entries other := by
  cases hlist : m.list? id with
  | none =>
    simp only [remove, hlist]
    split
    · rename_i heq
      simp [heq, entries_of_list? hlist]
    · rfl
  | some present =>
    have kept : ((m.remove id t).entries other) =
        if other = id then present.filter (·.template ≠ t) else m.entries other := by
      simp only [remove, hlist]
      split
      · rename_i hnone
        rw [entries_erase, List.isEmpty_iff.1 hnone]
      · rw [entries_put]
    rw [kept]
    split
    · rename_i heq
      rw [heq, entries_of_list? hlist, Option.getD_some]
    · rfl

/-! ## The entries of one template -/

theorem mem_entriesOf_iff : e ∈ m.entriesOf id t ↔ e ∈ m.entries id ∧ e.template = t := by
  simp [entriesOf]

theorem entriesOf_add :
    (m.add id e).entriesOf other t =
      if other = id ∧ e.template = t ∧ e ∉ m.entriesOf id t then m.entriesOf other t ++ [e]
      else m.entriesOf other t := by
  unfold entriesOf
  rw [entries_add]
  by_cases heq : other = id
  · subst heq
    by_cases hmem : e ∈ m.entries other
    · simp [hmem]
    · by_cases ht : e.template = t <;> simp [hmem, ht, List.filter_append]
  · simp [heq]

theorem entriesOf_close {t' : Template} :
    (m.close id t').entriesOf other t =
      if other = id ∧ t' = t then (m.entriesOf other t).map (·.close) else m.entriesOf other t := by
  unfold entriesOf
  rw [entries_close]
  by_cases heq : other = id
  · rw [if_pos heq, MemoEntry.filter_map_closeIf]
    by_cases ht : t' = t
    · rw [if_pos ⟨heq, ht⟩]
      refine List.map_congr_left fun e he => if_pos ?_
      rw [of_decide_eq_true (List.mem_filter.1 he).2, ht]
    · rw [if_neg fun h => ht h.2]
      refine (List.map_congr_left fun e he => MemoEntry.closeIf_of_ne ?_).trans (List.map_id _)
      rw [of_decide_eq_true (List.mem_filter.1 he).2]
      exact Ne.symm ht
  · rw [if_neg heq, if_neg fun h => heq h.1]

theorem entriesOf_remove {t' : Template} :
    (m.remove id t').entriesOf other t =
      if other = id ∧ t' = t then [] else m.entriesOf other t := by
  unfold entriesOf
  rw [entries_remove]
  by_cases heq : other = id
  · rw [if_pos heq, List.filter_filter]
    by_cases ht : t' = t
    · rw [if_pos ⟨heq, ht⟩]
      exact List.filter_eq_nil_iff.2 fun e _ => by simp [ht]
    · rw [if_neg fun h => ht h.2]
      refine List.filter_congr fun e _ => ?_
      by_cases he : e.template = t <;> simp [he, Ne.symm ht]
  · rw [if_neg heq, if_neg fun h => heq h.1]

/-- Whether a region is open at a hop can be read off the entries there. -/
theorem hasOpen_congr (h : m.entries id = m'.entries id) : m.hasOpen id t = m'.hasOpen id t := by
  rw [hasOpen, hasOpen, h]

end Memo

end OpFusion
