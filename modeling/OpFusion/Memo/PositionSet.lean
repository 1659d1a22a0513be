/-!
# Sets of positions

A finite set of input positions is kept as marks, one for each position up to the last member. To
mark a position beyond the last one, everything in between is marked as being outside. The last mark
always is that of a member, so two sets are equal exactly when they have the same members
(`ext_contains`). `contains_ofList` says which those are for a set made from a list.
-/

namespace OpFusion

/-- A finite set of positions. -/
structure PositionSet where
  /-- For each position up to the last member, whether it is a member. A position without a mark is
  none. -/
  marks : List Bool
  /-- The last mark is that of a member. -/
  trimmed : marks ≠ [] → marks.getD (marks.length - 1) false = true
deriving DecidableEq

namespace PositionSet

/-- Marks a position, after continuing the marks as far as that position where they end before. -/
def markAt (marks : List Bool) (p : Nat) : List Bool :=
  (marks.rightpad (p + 1) false).set p true

theorem length_markAt {marks : List Bool} {p : Nat} :
    (markAt marks p).length = max (p + 1) marks.length := by
  simp only [markAt, List.rightpad, List.length_set, List.length_append, List.length_replicate]
  omega

/-- The marks that are added stand for positions that had no mark, so only one position changes. -/
theorem getD_markAt {marks : List Bool} {p q : Nat} :
    (markAt marks p).getD q false = if q = p then true else marks.getD q false := by
  have hp : p < (marks.rightpad (p + 1) false).length := by
    rw [← List.length_set (a := true), ← markAt, length_markAt]
    omega
  simp only [markAt, List.getD_eq_getElem?_getD]
  by_cases hq : q = p
  · rw [if_pos hq, hq, List.getElem?_set_self hp, Option.getD_some]
  · rw [if_neg hq, List.getElem?_set_ne (Ne.symm hq), List.rightpad, List.getElem?_append,
      List.getElem?_replicate]
    split
    · rfl
    · rename_i hbeyond
      rw [List.getElem?_eq_none (Nat.le_of_not_lt hbeyond)]
      split <;> rfl

/-- The position that was marked comes last, unless there was a later one. -/
theorem trimmed_markAt {marks : List Bool} {p : Nat}
    (trimmed : marks ≠ [] → marks.getD (marks.length - 1) false = true) :
    (markAt marks p).getD ((markAt marks p).length - 1) false = true := by
  rw [length_markAt, getD_markAt]
  split
  · rfl
  · have later : max (p + 1) marks.length = marks.length := by omega
    rw [later]
    exact trimmed (List.ne_nil_of_length_pos (by omega))

/-- No position. -/
def empty : PositionSet := ⟨[], fun h => absurd rfl h⟩

/-- The set with one more member. -/
def insert (s : PositionSet) (p : Nat) : PositionSet :=
  ⟨markAt s.marks p, fun _ => trimmed_markAt s.trimmed⟩

/-- The set of the positions in a list, in any order and perhaps repeated. -/
def ofList (positions : List Nat) : PositionSet := positions.foldl insert empty

/-- The position is a member. -/
def contains (s : PositionSet) (p : Nat) : Bool := s.marks.getD p false

/-- The number of members. -/
def size (s : PositionSet) : Nat := s.marks.count true

theorem contains_insert {s : PositionSet} {p q : Nat} :
    (s.insert p).contains q = true ↔ q = p ∨ s.contains q = true := by
  rw [contains, insert, getD_markAt]
  split
  · simp [*]
  · simp [*, contains]

theorem contains_foldl {positions : List Nat} {s : PositionSet} {p : Nat} :
    (positions.foldl insert s).contains p = true ↔ p ∈ positions ∨ s.contains p = true := by
  induction positions generalizing s with
  | nil => simp
  | cons q rest ih =>
    rw [List.foldl_cons, ih, contains_insert, List.mem_cons]
    grind

/-- A set made from a list has the members of the list. -/
theorem contains_ofList {positions : List Nat} {p : Nat} :
    (ofList positions).contains p = true ↔ p ∈ positions := by
  rw [ofList, contains_foldl]
  simp [contains, empty]

/-- Only positions with a mark are members. -/
theorem lt_length_of_contains {s : PositionSet} {p : Nat} (h : s.contains p = true) :
    p < s.marks.length := by
  refine Nat.lt_of_not_le fun hle => ?_
  simp [contains, List.getD_eq_getElem?_getD, hle] at h

/-- There are no more marks than another set with the same members has. -/
theorem length_le_of_contains {s s' : PositionSet} (h : ∀ p, s.contains p = s'.contains p) :
    s.marks.length ≤ s'.marks.length := by
  by_cases hnil : s.marks = []
  · simp [hnil]
  · -- The last mark is that of a member, so the other set has a mark there.
    have hlast : s.contains (s.marks.length - 1) = true := s.trimmed hnil
    have := lt_length_of_contains ((h _).symm.trans hlast)
    omega

/-- Sets with the same members are equal. -/
theorem ext_contains {s s' : PositionSet} (h : ∀ p, s.contains p = s'.contains p) : s = s' := by
  have hlength : s.marks.length = s'.marks.length :=
    Nat.le_antisymm (length_le_of_contains h) (length_le_of_contains fun p => (h p).symm)
  have hmarks : s.marks = s'.marks := by
    refine List.ext_getElem hlength fun p hp hp' => ?_
    simpa [contains, List.getD_eq_getElem?_getD, hp, hp'] using h p
  cases s
  cases s'
  simpa using hmarks

end PositionSet

end OpFusion
