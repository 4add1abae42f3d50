import Std.Data.ExtTreeMap
import Std.Data.ExtTreeSet

/-!
# StorageFlow.Name

Names of variables, functions and types, and the containers keyed by them.

* `NameMap`, `NameSet` — finite maps and sets of names, ordered by code point and extensional:
  two maps with the same look-ups are equal.
* `appendNew`, `appendAllNew` — lists that hold each name once, in the order of first occurrence.
-/

namespace StorageFlow

/-- The name of a variable, a function or a type. -/
abbrev Name := String

/-- A finite map from names, traversed in the order of the names. -/
abbrev NameMap (α : Type) := Std.ExtTreeMap Name α

/-- A finite set of names, traversed in the order of the names. -/
abbrev NameSet := Std.ExtTreeSet Name

/-- Adds `name` at the end of `names`, unless it is already listed. -/
def appendNew (names : List Name) (name : Name) : List Name :=
  if name ∈ names then names else names ++ [name]

/-- Adds each name of `more` in turn at the end of `names`, unless it is already listed. -/
def appendAllNew (names more : List Name) : List Name :=
  more.foldl appendNew names

theorem mem_appendNew {names : List Name} {name n : Name} :
    n ∈ appendNew names name ↔ n ∈ names ∨ n = name := by
  unfold appendNew
  split <;> simp_all

theorem mem_appendAllNew {names more : List Name} {n : Name} :
    n ∈ appendAllNew names more ↔ n ∈ names ∨ n ∈ more := by
  induction more generalizing names with
  | nil => simp [appendAllNew]
  | cons m ms ih =>
      rw [appendAllNew, List.foldl_cons, ← appendAllNew, ih, mem_appendNew, List.mem_cons, or_assoc]

end StorageFlow
