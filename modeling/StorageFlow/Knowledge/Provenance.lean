import StorageFlow.Error
import StorageFlow.Knowledge.LinkIndex

/-!
# StorageFlow.Knowledge.Provenance

Which variables the value of a variable was computed from.

* `Provenance` — the sources of each variable and, the other way round, the variables computed
  from it.
* `Provenance.replace` — gives a variable new sources; `Provenance.remove` — takes all away.
* `Provenance.check` — the executable test that both directions hold the same edges.
-/

namespace StorageFlow

/-- Edges from variables to the sources of their values, kept in both directions. -/
structure Provenance where
  /-- The variables that the value of a variable was computed from. -/
  sources : LinkIndex Name
  /-- The variables whose values were computed from a variable. -/
  dependents : LinkIndex Name
  deriving DecidableEq

namespace Provenance

/-- No edges. -/
def empty : Provenance := ⟨∅, ∅⟩

instance : EmptyCollection Provenance := ⟨empty⟩

instance : Inhabited Provenance := ⟨empty⟩

/-- Adds the edge from `name` to one source. -/
def addSource (edges : Provenance) (name source : Name) : Provenance :=
  ⟨edges.sources.link name source, edges.dependents.link source name⟩

/-- Adds the edges from `name` to each of `sources`. -/
def addSources (edges : Provenance) (name : Name) (sources : List Name) : Provenance :=
  sources.foldl (addSource · name) edges

/-- Removes the edges from `name` to its sources. -/
def remove (edges : Provenance) (name : Name) : Provenance :=
  ⟨edges.sources.erase name,
    (edges.sources.linked name).toList.foldl (LinkIndex.unlink · · name) edges.dependents⟩

/-- Removes the edges from `name` to its sources and adds those to `sources`. -/
def replace (edges : Provenance) (name : Name) (sources : List Name) : Provenance :=
  (edges.remove name).addSources name sources

/-- The variables that have one of `names` among their sources. -/
def dependentsOf (edges : Provenance) (names : List Name) : List Name :=
  names.flatMap fun name => (edges.dependents.linked name).toList

/-- Tests that both directions hold the same edges. -/
def check (edges : Provenance) : Except Error Unit :=
  match edges.sources.unmatched? edges.dependents with
  | some (name, source) =>
    .error (.contradiction
      ("`" ++ name ++ "` references `" ++ source ++ "` without a reverse edge"))
  | none =>
    match edges.dependents.unmatched? edges.sources with
    | some (source, name) =>
      .error (.contradiction
        ("reverse edge from `" ++ source ++ "` to `" ++ name ++ "` without a forward edge"))
    | none => .ok ()

end Provenance

end StorageFlow
