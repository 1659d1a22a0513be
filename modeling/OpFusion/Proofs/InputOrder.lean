import Mathlib.Data.List.FinRange
import Mathlib.Data.List.Sort
import OpFusion.InputOrder
import OpFusion.Proofs.Graph.WellFormed

/-!
# The order of kernel inputs

Ordering by priority is an insertion sort, so it keeps all inputs, puts higher priorities first and
leaves inputs of equal priority in their order (`filter_orderByPriority`). Seen as a rearrangement of
the positions of the inputs it is thereby determined (`orderByPriority_stable`). The main input alone
has the highest priority, so it comes first wherever it is a matrix (`head?_of_main`).
-/

namespace OpFusion

namespace InputPriority

variable {p q : InputPriority}

/-- The first priority is higher: the main input comes before all others, then come the matrices of
unknown size, then those of known size, the larger the earlier, and then the scalars. -/
def Above : InputPriority → InputPriority → Prop
  | main, q => q ≠ main
  | unknown, q => q ≠ main ∧ q ≠ unknown
  | cells n, q => q = scalar ∨ ∃ n' < n, q = cells n'
  | scalar, _ => False

@[simp] theorem cells_above_cells {n n' : UInt64} : (cells n).Above (cells n') ↔ n' < n := by
  simp [Above]

theorem weight_cells_le {n : UInt64} : (cells n).weight ≤ UInt64.size := UInt64.toNat_lt n

/-- The weights rank priorities as they should. -/
theorem above_iff : p.Above q ↔ q.weight < p.weight := by
  cases p with
  | scalar => simp [Above, weight]
  | cells n =>
    have hn : (cells n).weight ≤ UInt64.size := weight_cells_le
    cases q with
    | scalar => simp [Above, weight]
    | cells n' =>
      rw [cells_above_cells, weight, weight, Nat.add_lt_add_iff_right, UInt64.lt_iff_toNat_lt]
    | unknown | main =>
      refine iff_of_false (by simp [Above]) ?_
      simp only [weight] at hn ⊢
      omega
  | unknown | main =>
    cases q with
    | cells n' =>
      exact iff_of_true (by simp [Above]) (Nat.lt_of_le_of_lt weight_cells_le (by simp [weight]))
    | _ => simp [Above, weight]

/-- Of two different priorities one is higher. -/
theorem above_or_eq_or_above (p q : InputPriority) : p.Above q ∨ p = q ∨ q.Above p := by
  cases p with
  | cells n =>
    cases q with
    | cells n' =>
      rcases Nat.lt_trichotomy n.toNat n'.toNat with hlt | heq | hlt
      · exact .inr (.inr (cells_above_cells.2 (UInt64.lt_iff_toNat_lt.2 hlt)))
      · exact .inr (.inl (congrArg cells (UInt64.toNat_inj.1 heq)))
      · exact .inl (cells_above_cells.2 (UInt64.lt_iff_toNat_lt.2 hlt))
    | _ => simp [Above]
  | _ => cases q <;> simp [Above]

theorem eq_of_weight_eq (h : p.weight = q.weight) : p = q := by
  rcases above_or_eq_or_above p q with habove | heq | habove
  · exact absurd (above_iff.1 habove) (Nat.not_lt_of_le (Nat.le_of_eq h))
  · exact heq
  · exact absurd (above_iff.1 habove) (Nat.not_lt_of_le (Nat.le_of_eq h.symm))

theorem ofHop_eq_scalar_iff {h : Hop} {m : Option HopId} :
    ofHop h m = scalar ↔ h.isScalar = true := by
  unfold ofHop
  split
  · simp [*]
  · split
    · simp [*]
    · split <;> simp [*]

theorem of_ofHop_eq_unknown {h : Hop} {m : Option HopId} (hunknown : ofHop h m = unknown) :
    h.isScalar = false ∧ h.shape.cells = none := by
  unfold ofHop at hunknown
  split at hunknown
  · simp at hunknown
  · split at hunknown
    · simp at hunknown
    · split at hunknown
      · simp at hunknown
      · exact ⟨by simpa using ‹¬ h.isScalar = true›, ‹_›⟩

/-- No priority is higher than that of the main input, and no other is as high. -/
theorem main_le_iff : main.weight ≤ p.weight ↔ p = main := by
  constructor
  · intro hle
    cases p with
    | scalar | unknown => exact absurd hle (by simp [weight])
    | cells count =>
      have hlt : count.toNat < UInt64.size := UInt64.toNat_lt count
      simp only [weight] at hle
      omega
    | main => rfl
  · rintro rfl
    exact Nat.le_refl _

end InputPriority

/-- Sorting keeps what is tied with each other in order, since that is in order already. -/
theorem filter_insertionSort {α : Type} {r : α → α → Prop} [DecidableRel r] {q : α → Bool}
    {l : List α} (tied : ∀ x y, q x = true → q y = true → r x y) :
    (l.insertionSort r).filter q = l.filter q := by
  have inOrder : (l.filter q).Pairwise r :=
    List.pairwise_of_forall_mem_list fun x hx y hy =>
      tied x y (List.mem_filter.1 hx).2 (List.mem_filter.1 hy).2
  have hsub := (List.sublist_insertionSort inOrder List.filter_sublist).filter q
  rw [List.filter_filter] at hsub
  simp only [Bool.and_self] at hsub
  exact (hsub.eq_of_length ((List.perm_insertionSort r l).filter q).length_eq.symm).symm

namespace Graph

variable {g : Graph} {main : Option HopId} {m x y : HopId} {l : List HopId} {h : Hop}
  {p : InputPriority}

/-- The priority of `x` is as high as that of `y`. -/
def Outranks (g : Graph) (main : Option HopId) (x y : HopId) : Prop :=
  (g.inputPriority main y).weight ≤ (g.inputPriority main x).weight

instance : DecidableRel (g.Outranks main) := fun _ _ => Nat.decLe _ _

instance : Std.Total (g.Outranks main) := ⟨fun _ _ => Nat.le_total _ _⟩

instance : IsTrans HopId (g.Outranks main) := ⟨fun _ _ _ hxy hyz => Nat.le_trans hyz hxy⟩

/-- Ordering by priority is an insertion sort. -/
theorem orderByPriority_eq_insertionSort :
    g.orderByPriority main l = l.insertionSort (g.Outranks main) := by
  have insert (x : HopId) (l : List HopId) :
      g.insertByPriority main x l = l.orderedInsert (g.Outranks main) x := by
    induction l with
    | nil => rfl
    | cons y rest ih =>
      rw [insertByPriority, List.orderedInsert, ih]
      rfl
  induction l with
  | nil => rfl
  | cons x rest ih =>
    show g.insertByPriority main x (g.orderByPriority main rest) = _
    rw [insert, ih, List.insertionSort_cons]

/-- Ordering keeps each input as often as it is there. -/
theorem orderByPriority_perm : (g.orderByPriority main l).Perm l := by
  rw [orderByPriority_eq_insertionSort]
  exact List.perm_insertionSort _ _

theorem pairwise_orderByPriority : (g.orderByPriority main l).Pairwise (g.Outranks main) := by
  rw [orderByPriority_eq_insertionSort]
  exact List.pairwise_insertionSort _ _

/-- Inputs of one priority keep their order. -/
theorem filter_orderByPriority :
    (g.orderByPriority main l).filter (fun x => g.inputPriority main x = p) =
      l.filter fun x => g.inputPriority main x = p := by
  rw [orderByPriority_eq_insertionSort]
  refine filter_insertionSort fun x y hx hy => ?_
  rw [Outranks, of_decide_eq_true hx, of_decide_eq_true hy]

theorem inputPriority_of_hop? (hh : g.hop? x = some h) :
    g.inputPriority main x = .ofHop h main := by
  rw [inputPriority, hh]

/-- Only the main input has its priority. -/
theorem main_eq_of_inputPriority_eq_main (wf : g.WellFormed)
    (hx : g.inputPriority main x = .main) : main = some x := by
  unfold inputPriority at hx
  split at hx
  · rename_i h hh
    rw [← wf.id_eq hh]
    unfold InputPriority.ofHop at hx
    split at hx
    · simp at hx
    · split at hx
      · assumption
      · split at hx <;> simp at hx
  · simp at hx

/-- A hop other than the main input has the priority that it has without one. -/
theorem inputPriority_of_ne (wf : g.WellFormed) (hne : main ≠ some x) :
    g.inputPriority main x = g.inputPriority none x := by
  unfold inputPriority
  split
  · rename_i h hh
    rw [← wf.id_eq hh] at hne
    simp [InputPriority.ofHop, hne]
  · rfl

/-- A matrix that is the main input comes first among inputs in order. -/
theorem head?_of_main (wf : g.WellFormed) (sorted : l.Pairwise (g.Outranks (some m)))
    (hm : m ∈ l) (hh : g.hop? m = some h) (hmatrix : h.isScalar = false) : l.head? = some m := by
  have hpriority : g.inputPriority (some m) m = .main := by
    rw [inputPriority_of_hop? hh, InputPriority.ofHop, wf.id_eq hh]
    simp [hmatrix]
  cases l with
  | nil => simp at hm
  | cons first rest =>
    rcases List.mem_cons.1 hm with rfl | hm
    · rfl
    · have hle : g.Outranks (some m) first m := (List.pairwise_cons.1 sorted).1 m hm
      rw [Outranks, hpriority, InputPriority.main_le_iff] at hle
      rw [List.head?_cons, main_eq_of_inputPriority_eq_main wf hle]

/-! ## The order as a rearrangement of positions -/

/-- The positions of the inputs, in the order in which the inputs at them come. -/
def placement (g : Graph) (main : Option HopId) (inputs : List HopId) : List (Fin inputs.length) :=
  (List.finRange inputs.length).insertionSort fun i j =>
    g.Outranks main (inputs.get i) (inputs.get j)

theorem orderByPriority_eq_map_placement :
    g.orderByPriority main l = (g.placement main l).map l.get := by
  rw [placement, List.map_insertionSort _ (g.Outranks main) _ _ fun _ _ _ _ => Iff.rfl,
    List.map_get_finRange, orderByPriority_eq_insertionSort]

/-- Of two positions in the order, the first has the higher priority, or the same and stood first
before. -/
theorem pairwise_placement :
    (g.placement main l).Pairwise fun i j =>
      (g.inputPriority main (l.get i)).Above (g.inputPriority main (l.get j)) ∨
        g.inputPriority main (l.get i) = g.inputPriority main (l.get j) ∧ i < j := by
  have sorted : (g.placement main l).Pairwise fun i j => g.Outranks main (l.get i) (l.get j) := by
    have hmap : (g.orderByPriority main l).Pairwise (g.Outranks main) := pairwise_orderByPriority
    rwa [orderByPriority_eq_map_placement, List.pairwise_map] at hmap
  rw [List.pairwise_iff_forall_sublist] at sorted ⊢
  intro i j hsub
  rcases Nat.lt_or_eq_of_le (sorted hsub) with hlt | heq
  · exact .inl (InputPriority.above_iff.2 hlt)
  · have hsame := InputPriority.eq_of_weight_eq heq.symm
    refine .inr ⟨hsame, ?_⟩
    -- Positions of one priority are not rearranged, so they ascend.
    have htied := hsub.filter fun k =>
      g.inputPriority main (l.get k) = g.inputPriority main (l.get j)
    rw [placement, filter_insertionSort fun x y hx hy => by
      rw [Outranks, of_decide_eq_true hx, of_decide_eq_true hy]] at htied
    have hpair := (List.pairwise_lt_finRange l.length).sublist (htied.trans List.filter_sublist)
    simpa only [List.filter_cons, hsame, decide_true, if_true, List.filter_nil, List.pairwise_pair]
      using hpair

/-- The number stands for a scalar. -/
def IsScalarAt (g : Graph) (x : HopId) : Prop := ∃ h, g.hop? x = some h ∧ h.isScalar = true

/-- The number stands for a matrix of unknown size, or for nothing in the graph. -/
def IsUnsizedAt (g : Graph) (x : HopId) : Prop :=
  ∀ h, g.hop? x = some h → h.isScalar = false ∧ h.shape.cells = none

theorem inputPriority_eq_scalar_iff : g.inputPriority main x = .scalar ↔ g.IsScalarAt x := by
  unfold IsScalarAt inputPriority
  cases g.hop? x with
  | none => simp
  | some h => simp [InputPriority.ofHop_eq_scalar_iff]

theorem isUnsizedAt_of_unknown (hx : g.inputPriority main x = .unknown) : g.IsUnsizedAt x := by
  intro h hh
  rw [inputPriority_of_hop? hh] at hx
  exact InputPriority.of_ofHop_eq_unknown hx

/-- A matrix of unknown size is ranked as such, unless it is the main input. -/
theorem inputPriority_of_isUnsizedAt (hx : g.IsUnsizedAt x) :
    g.inputPriority main x = .unknown ∨ g.inputPriority main x = .main := by
  unfold inputPriority
  cases hh : g.hop? x with
  | none => exact .inl rfl
  | some h =>
    obtain ⟨hscalar, hcells⟩ := hx h hh
    simp only [InputPriority.ofHop, hscalar, hcells, Bool.false_eq_true, if_false]
    split
    · exact .inr rfl
    · exact .inl rfl

/-- Only scalars have a priority that is not above that of a scalar. -/
theorem isScalarAt_of_not_above (hxy : ¬ (g.inputPriority main y).Above (g.inputPriority main x))
    (hx : g.IsScalarAt x) : g.IsScalarAt y := by
  have hscalar : g.inputPriority main x = .scalar := inputPriority_eq_scalar_iff.2 hx
  rw [hscalar] at hxy
  cases hy : g.inputPriority main y with
  | scalar => exact inputPriority_eq_scalar_iff.1 hy
  | _ => simp [hy, InputPriority.Above] at hxy

/-- Only the main input has a priority above that of a matrix of unknown size. -/
theorem main_or_isUnsizedAt_of_not_above (wf : g.WellFormed)
    (hxy : ¬ (g.inputPriority main y).Above (g.inputPriority main x)) (hy : g.IsUnsizedAt y) :
    main = some x ∨ g.IsUnsizedAt x := by
  cases hx : g.inputPriority main x with
  | main => exact .inl (main_eq_of_inputPriority_eq_main wf hx)
  | unknown => exact .inr (isUnsizedAt_of_unknown hx)
  | _ =>
    have hunsized : g.inputPriority main y = .unknown ∨ g.inputPriority main y = .main :=
      inputPriority_of_isUnsizedAt hy
    rcases hunsized with hunknown | hmain
    · simp [hx, hunknown, InputPriority.Above] at hxy
    · simp [hx, hmain, InputPriority.Above] at hxy

/-- Ordering inputs by priority is a stable sort, whatever the inputs are and however often they are
there. It rearranges their positions so that higher priorities come first, and among positions of
one priority the earlier ones; so no input is lost, none of a higher priority follows one of a lower,
and ordering once more changes nothing. Numbers outside the graph count as matrices of unknown size.
Scalars come last, and before the matrices of unknown size there is only the main input. -/
theorem orderByPriority_stable (built : g.IsBuilt) (main : Option HopId) (inputs : List HopId) :
    let ordered := g.orderByPriority main inputs
    let priority := g.inputPriority main
    (∃ positions : List (Fin inputs.length), positions.Perm (List.finRange inputs.length) ∧
        ordered = positions.map inputs.get ∧
        positions.Pairwise fun i j =>
          (priority (inputs.get i)).Above (priority (inputs.get j)) ∨
            priority (inputs.get i) = priority (inputs.get j) ∧ i < j) ∧
      ordered.Perm inputs ∧
      ordered.Pairwise (fun x y => ¬ (priority y).Above (priority x)) ∧
      g.orderByPriority main ordered = ordered ∧
      (∀ x, g.hop? x = none → priority x = .unknown) ∧
      ordered.Pairwise (fun x y => g.IsScalarAt x → g.IsScalarAt y) ∧
      ordered.Pairwise (fun x y => g.IsUnsizedAt y → main = some x ∨ g.IsUnsizedAt x) := by
  intro ordered priority
  have sorted : ordered.Pairwise (g.Outranks main) := pairwise_orderByPriority
  have falling : ordered.Pairwise fun x y => ¬ (priority y).Above (priority x) :=
    sorted.imp fun hxy habove => Nat.not_lt_of_le hxy (InputPriority.above_iff.1 habove)
  refine ⟨⟨g.placement main inputs, List.perm_insertionSort _ _, orderByPriority_eq_map_placement,
    pairwise_placement⟩, orderByPriority_perm, falling, ?_, fun x hx => ?_,
    falling.imp isScalarAt_of_not_above,
    falling.imp (main_or_isUnsizedAt_of_not_above built.wellFormed)⟩
  · rw [orderByPriority_eq_insertionSort, sorted.insertionSort_eq]
  · show g.inputPriority main x = .unknown
    rw [inputPriority, hx]

/-- A scalar, a column, a matrix of unknown extents and two matrices. -/
def mixedInputs : Graph :=
  Graph.empty.build [.scalar "s", .data "w" 100 1, .dataUnknown "U", .data "Y" 50 50,
    .data "X" 100 20]

/-- With `X` as the main input: the number 9 is outside the graph, and `w` is there twice. -/
theorem orderByPriority_stable_mixed :
    mixedInputs.IsBuilt ∧
      mixedInputs.orderByPriority (some 4) [0, 1, 9, 2, 3, 4, 1] = [4, 9, 2, 3, 1, 1, 0] ∧
      mixedInputs.orderByPriority (some 4) [4, 9, 2, 3, 1, 1, 0] = [4, 9, 2, 3, 1, 1, 0] := by
  have built : mixedInputs.IsBuilt := ⟨_, rfl⟩
  have hordered : mixedInputs.orderByPriority (some 4) [0, 1, 9, 2, 3, 4, 1] =
      [4, 9, 2, 3, 1, 1, 0] := by decide
  obtain ⟨-, -, -, again, -⟩ := orderByPriority_stable built (some 4) [0, 1, 9, 2, 3, 4, 1]
  rw [hordered] at again
  exact ⟨built, hordered, again⟩

end Graph

/-- Pinned inputs come first, each as often as it is pinned, and the others as they were. -/
theorem filter_pinFirst {pinned inputs read : List HopId} :
    (pinFirst pinned inputs).filter (fun x => x ∈ pinned ∨ x ∈ read) =
      pinned ++ inputs.filter fun x => x ∉ pinned ∧ x ∈ read := by
  have first : pinned.filter (fun x => x ∈ pinned ∨ x ∈ read) = pinned :=
    List.filter_eq_self.2 fun x hx => by simp [hx]
  rw [pinFirst, List.filter_append, first, List.filter_filter]
  congr 1
  refine List.filter_congr fun x _ => ?_
  by_cases hx : x ∈ pinned
  · simp [hx]
  · simp [hx]

end OpFusion
