import StorageFlow.Effect.Summary
import StorageFlow.Knowledge.Provenance
import StorageFlow.Knowledge.TwoWayMap
import StorageFlow.Syntax.Equality

/-!
# StorageFlow.Knowledge.Basic

What is known at one point of a program.

* `Knowledge` — known values of variables, what they were computed from, and facts about storage.
* `Knowledge.clear` — forgets everything that may change with some variables.
* `Knowledge.assign`, `Knowledge.assignZero` — what an assignment changes.
* `Knowledge.check` — the executable test that the parts agree.
-/

namespace StorageFlow

/-- What is known at one point of a program. -/
structure Knowledge where
  /-- The expression whose value a variable holds. -/
  values : NameMap Expr
  /-- The variables that the last value of a variable was computed from. -/
  provenance : Provenance
  /-- From `slot` to `value` if storage at the word in `slot` holds the word in `value`. -/
  storage : TwoWayMap Name
  deriving DecidableEq

namespace Knowledge

/-- No knowledge. -/
def empty : Knowledge := ⟨∅, ∅, ∅⟩

instance : EmptyCollection Knowledge := ⟨empty⟩

instance : Inhabited Knowledge := ⟨empty⟩

/-- The expression whose value the variable holds. -/
def value? (knowledge : Knowledge) (name : Name) : Option Expr :=
  knowledge.values[name]?

/-- The variables that the last value of the variable was computed from, if there are any. -/
def sources? (knowledge : Knowledge) (name : Name) : Option NameSet :=
  knowledge.provenance.sources[name]?

/-- The variable whose value is stored at the slot that `slot` holds. -/
def storedAt? (knowledge : Knowledge) (slot : Name) : Option Name :=
  knowledge.storage.get? slot

/-- Whether there is neither a known value, nor a source of one, nor a fact about storage. -/
def isEmpty (knowledge : Knowledge) : Bool :=
  knowledge.values.isEmpty && knowledge.provenance.sources.isEmpty && knowledge.storage.isEmpty

/-- Tests that both directions of the provenance and of the storage facts agree. -/
def check (knowledge : Knowledge) : Except Error Unit := do
  knowledge.provenance.check
  knowledge.storage.check

/-- Forgets the value of `name`, its sources, and the storage facts that mention it. -/
def forget (knowledge : Knowledge) (name : Name) : Knowledge where
  values := knowledge.values.erase name
  provenance := knowledge.provenance.remove name
  storage := (knowledge.storage.erase name).eraseByValue name

/-- Forgets everything about `names` and about the variables that were computed from one of them. -/
def clear (knowledge : Knowledge) (names : List Name) : Knowledge :=
  (names ++ knowledge.provenance.dependentsOf names).foldl forget knowledge

/-- Records the value of a variable. -/
def learn (knowledge : Knowledge) (name : Name) (value : Expr) : Knowledge :=
  { knowledge with values := knowledge.values.insert name value }

/-- Records that each of `names` was computed from `sources`. -/
def derive (knowledge : Knowledge) (names sources : List Name) : Knowledge :=
  { knowledge with
    provenance := names.foldl (fun edges name => edges.replace name sources) knowledge.provenance }

/-- The effect of giving `names` the results of `value`. The value is recorded if it goes to a
single variable, may be evaluated elsewhere and does not read that variable. -/
def assign (knowledge : Knowledge) (dialect : Dialect) (names : List Name) (value : Expr) :
    Knowledge :=
  let summary := EffectSummary.ofExpr dialect value
  let cleared := knowledge.clear names
  let learned :=
    match names with
    | [name] =>
      if summary.movable && !summary.reads.contains name then cleared.learn name value
      else cleared
    | _ => cleared
  learned.derive names summary.reads

/-- The effect of setting `names` to zero. -/
def assignZero (knowledge : Knowledge) (names : List Name) : Knowledge :=
  let zeroed := names.foldl (fun k name => k.learn name (.literal .zero)) (knowledge.clear names)
  zeroed.derive names []

end Knowledge

end StorageFlow
