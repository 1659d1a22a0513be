/-!
# Named enumerations

Operators and primitives are finite families whose members have a fixed upper-case name. `Named`
lists the members in declaration order and gives each its name; `Named.ofName?` reads a name back.
-/

namespace OpFusion

/-- A finite family whose members are listed in order and told apart by their names. -/
class Named (α : Type) where
  /-- All members, in declaration order. -/
  all : List α
  /-- The canonical upper-case name of a member. -/
  name : α → String

/-- The first member called `s`, if there is one. -/
def Named.ofName? {α : Type} [Named α] (s : String) : Option α :=
  (Named.all : List α).find? fun a => Named.name a == s

end OpFusion
