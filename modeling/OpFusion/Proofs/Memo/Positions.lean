import Mathlib.Algebra.BigOperators.Intervals
import OpFusion.Proofs.Memo.Entries

/-!
# Entries as sets of positions

An entry keeps its references as marks, and entries are compared by their marks. Whatever the order
in which references are marked, and however often, the marks end with the last one of them. So an
entry is determined by its template, the positions that it refers to and whether it is closed
(`MemoEntry.eq_iff`), and a memo that leaves out an entry it has already leaves out those that say
the same (`MemoEntry.ofRefs_canonical`).
-/

namespace OpFusion

namespace PositionSet

variable {s : PositionSet} {p : Nat}

/-- The members, which are among the positions that have a mark. -/
def members (s : PositionSet) : Finset Nat :=
  (Finset.range s.marks.length).filter fun p => s.contains p = true

theorem mem_members : p ∈ s.members ↔ s.contains p = true := by
  rw [members, Finset.mem_filter, Finset.mem_range]
  exact and_iff_right_of_imp lt_length_of_contains

theorem count_marks (marks : List Bool) :
    marks.count true =
      ((Finset.range marks.length).filter fun p => marks.getD p false = true).card := by
  rw [Finset.card_filter]
  induction marks with
  | nil => rfl
  | cons mark rest ih =>
    rw [List.length_cons, Finset.sum_range_succ', List.count_cons, ih]
    cases mark <;> simp

theorem card_members : s.members.card = s.size := (count_marks s.marks).symm

end PositionSet

namespace MemoEntry

variable {e e' : MemoEntry}

/-- An entry counts the positions that it refers to. -/
theorem refCount_eq_card {positions : Finset Nat}
    (h : ∀ p, e.refersTo p = true ↔ p ∈ positions) : e.refCount = positions.card := by
  have hmembers : e.refs.members = positions := by
    ext p
    rw [PositionSet.mem_members]
    exact h p
  rw [refCount, ← PositionSet.card_members, hmembers]

/-- Entries are equal if they say the same. -/
theorem eq_iff :
    e = e' ↔ e.template = e'.template ∧ e.closed = e'.closed ∧
      ∀ p, e.refersTo p = e'.refersTo p := by
  constructor
  · rintro rfl
    exact ⟨rfl, rfl, fun _ => rfl⟩
  · rintro ⟨htemplate, hclosed, hrefs⟩
    have : e.refs = e'.refs := PositionSet.ext_contains hrefs
    cases e
    cases e'
    simp_all

theorem ofRefs_eq_ofRefs_iff {t t' : Template} {ps qs : List Nat} :
    ofRefs t ps = ofRefs t' qs ↔ t = t' ∧ ∀ p, p ∈ ps ↔ p ∈ qs := by
  rw [eq_iff]
  refine and_congr_right fun _ => ?_
  simp only [ofRefs, true_and]
  refine forall_congr' fun p => ?_
  rw [Bool.eq_iff_iff]
  exact iff_congr refersTo_ofRefs refersTo_ofRefs

theorem refCount_ofRefs {t : Template} {ps : List Nat} :
    (ofRefs t ps).refCount = ps.toFinset.card :=
  refCount_eq_card fun _ => refersTo_ofRefs.trans List.mem_toFinset.symm

/-- An entry made from positions depends on which they are, but not on their order and on how often
they are there. It refers to exactly these and counts each once, and from no positions it is the
entry that starts a region. A memo leaves out an entry exactly if it has one that says the same. -/
theorem ofRefs_canonical (t t' : Template) (ps qs : List Nat) :
    (ofRefs t ps = ofRefs t' qs ↔ t = t' ∧ ∀ p, p ∈ ps ↔ p ∈ qs) ∧
      (∀ p, (ofRefs t ps).refersTo p = true ↔ p ∈ ps) ∧
      (ofRefs t ps).refCount = ps.toFinset.card ∧
      ofRefs t [] = starting t ∧
      ∀ (memo : Memo) (id : HopId) (e : MemoEntry),
        (memo.add id e).entries id = memo.entries id ↔
          ∃ e' ∈ memo.entries id, e'.template = e.template ∧ e'.closed = e.closed ∧
            ∀ p, e'.refersTo p = e.refersTo p := by
  refine ⟨ofRefs_eq_ofRefs_iff, fun p => refersTo_ofRefs, refCount_ofRefs, ofRefs_nil,
    fun memo id e => ?_⟩
  simp only [← eq_iff, exists_eq_right]
  rw [Memo.entries_add]
  by_cases hmem : e ∈ memo.entries id <;> simp [hmem]

example : ofRefs .rowAgg [3, 0, 3] = ofRefs .rowAgg [0, 3] ∧
    ofRefs .rowAgg [3, 0, 3] ≠ ofRefs .rowAgg [0, 2] := by
  decide

end MemoEntry

end OpFusion
