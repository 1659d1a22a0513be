import Mathlib.Data.List.Lex
import OpFusion.Proofs.Dag.Reachability

/-!
# Addresses

An address is a list of positions of children and leads from a node to what lies below it. The order
of addresses is lexicographic, so that smaller addresses come first when a depth-first walk passes
nodes before their children. Of two addresses of which the first is smaller, it is an initial piece
of the second or they fork (`forks_or_prefix_of_lt`), and forked addresses stay apart however they
are prolonged.
-/

namespace OpFusion.Dag

variable {children : Nat → List Nat} {root id c position other : Nat} {a b rest rest' : List Nat}

/-- The node at an address below a node. -/
def nodeAt? (children : Nat → List Nat) : Nat → List Nat → Option Nat
  | id, [] => some id
  | id, position :: rest => (children id)[position]?.bind fun c => nodeAt? children c rest

@[simp] theorem nodeAt?_nil : nodeAt? children id [] = some id := rfl

theorem nodeAt?_cons_eq_some_iff :
    nodeAt? children id (position :: rest) = some other ↔
      ∃ c, (children id)[position]? = some c ∧ nodeAt? children c rest = some other :=
  Option.bind_eq_some_iff

theorem nodeAt?_append :
    nodeAt? children id (a ++ b) = (nodeAt? children id a).bind fun c => nodeAt? children c b := by
  induction a generalizing id with
  | nil => rfl
  | cons position rest ih =>
    show (children id)[position]?.bind _ = ((children id)[position]?.bind _).bind _
    cases (children id)[position]? with
    | none => rfl
    | some c => exact ih

/-- One step further down. -/
theorem nodeAt?_snoc (h : nodeAt? children root a = some id) :
    nodeAt? children root (a ++ [position]) = (children id)[position]? := by
  rw [nodeAt?_append, h, Option.bind_some]
  exact Option.bind_fun_some _

theorem reaches_of_nodeAt? (h : nodeAt? children root a = some id) :
    Reaches children root id := by
  induction a generalizing root with
  | nil => exact Option.some.inj h ▸ .refl
  | cons position rest ih =>
    obtain ⟨c, hc, hrest⟩ := nodeAt?_cons_eq_some_iff.1 h
    exact .head (List.mem_of_getElem? hc) (ih hrest)

/-- Where children descend, no address leads from a node back to it. -/
theorem DescendingFrom.eq_nil_of_nodeAt?_self (desc : DescendingFrom children id)
    (h : nodeAt? children id a = some id) : a = [] := by
  cases a with
  | nil => rfl
  | cons position rest =>
    obtain ⟨c, hc, hrest⟩ := nodeAt?_cons_eq_some_iff.1 h
    have hmem : c ∈ children id := List.mem_of_getElem? hc
    have hle : id ≤ c := (desc.child hmem).le (reaches_of_nodeAt? hrest)
    exact absurd (desc id .refl c hmem) (Nat.not_lt.2 hle)

/-! ## The order of addresses -/

/-- After a common piece the first address goes to an earlier child. -/
def Forks (a b : List Nat) : Prop :=
  ∃ shared i j, i < j ∧ shared ++ [i] <+: a ∧ shared ++ [j] <+: b

theorem Forks.lt (h : Forks a b) : a < b := by
  obtain ⟨shared, i, j, hlt, ⟨rest, rfl⟩, ⟨rest', rfl⟩⟩ := h
  rw [List.append_assoc, List.append_assoc]
  exact List.append_left_lt (List.cons_lt_cons_iff.2 (.inl hlt))

theorem Forks.append (h : Forks a b) (rest rest' : List Nat) : Forks (a ++ rest) (b ++ rest') := by
  obtain ⟨shared, i, j, hlt, ha, hb⟩ := h
  exact ⟨shared, i, j, hlt, ha.trans (List.prefix_append _ _), hb.trans (List.prefix_append _ _)⟩

theorem Forks.append_left (h : Forks a b) (rest : List Nat) : Forks (a ++ rest) b := by
  simpa using h.append rest []

theorem forks_snoc {i j : Nat} (h : i < j) : Forks (a ++ [i]) (a ++ [j]) :=
  ⟨a, i, j, h, List.prefix_rfl, List.prefix_rfl⟩

theorem lt_append_cons : a < a ++ position :: rest := by
  have hlt : a ++ [] < a ++ position :: rest := List.append_left_lt (List.nil_lt_cons _ _)
  rwa [List.append_nil] at hlt

/-- A smaller address leads to something above, or to the side. -/
theorem forks_or_prefix_of_lt (h : a < b) : Forks a b ∨ a <+: b := by
  induction a generalizing b with
  | nil => exact .inr List.nil_prefix
  | cons i a ih =>
    cases b with
    | nil => exact absurd h (List.not_lt_nil _)
    | cons j b =>
      rcases List.cons_lt_cons_iff.1 h with hlt | ⟨rfl, hlt⟩
      · exact .inl ⟨[], i, j, hlt, ⟨a, rfl⟩, ⟨b, rfl⟩⟩
      · rcases ih hlt with ⟨shared, k, l, hkl, ha, hb⟩ | hprefix
        · exact .inl ⟨i :: shared, k, l, hkl, List.cons_prefix_cons.2 ⟨rfl, ha⟩,
            List.cons_prefix_cons.2 ⟨rfl, hb⟩⟩
        · exact .inr (List.cons_prefix_cons.2 ⟨rfl, hprefix⟩)

/-- Two ways to one node fork, where children descend. -/
theorem DescendingFrom.forks_of_lt (desc : DescendingFrom children root)
    (ha : nodeAt? children root a = some id) (hb : nodeAt? children root b = some id)
    (hlt : a < b) : Forks a b := by
  rcases forks_or_prefix_of_lt hlt with hforks | ⟨rest, rfl⟩
  · exact hforks
  · rw [nodeAt?_append, ha, Option.bind_some] at hb
    have below : DescendingFrom children id := fun x hx =>
      desc x ((reaches_of_nodeAt? ha).trans hx)
    rw [below.eq_nil_of_nodeAt?_self hb, List.append_nil] at hlt
    exact absurd hlt (List.lt_irrefl a)

end OpFusion.Dag
