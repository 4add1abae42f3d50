import StorageFlow.Knowledge.Basic
import StorageFlow.Rewriting.Simplifier

/-!
# StorageFlow.Knowledge.Storage

What stores, branches and unknown operations change about the facts of storage.

* `Knowledge.store` — a store at one slot keeps the facts about other slots that it cannot falsify.
* `Knowledge.joinStorage` — what holds whether a branch was taken or not.
* `Knowledge.forgetStorage` — what holds after an operation that may write any slot.
-/

namespace StorageFlow.Knowledge

/-- Whether a store of `value` at `slot` may falsify a fact about storage: the fact is about another
variable's slot, that slot is not proved different, and its value is not proved equal. -/
def mayFalsify (prover : Simplifier) (slot value : Name) (fact : Name × Name) :
    Except Error Bool :=
  if fact.1 = slot then .ok false
  else do
    if ← prover.provablyDifferent fact.1 slot then
      return false
    return !(← prover.provablyEqual fact.2 value)

/-- The slots of the facts that a store of `value` at `slot` may falsify. -/
def falsified (prover : Simplifier) (slot value : Name) :
    List (Name × Name) → Except Error (List Name)
  | [] => .ok []
  | fact :: facts => do
    let mayBeFalse ← mayFalsify prover slot value fact
    let rest ← falsified prover slot value facts
    return if mayBeFalse then fact.1 :: rest else rest

/-- The effect of a store of `value` at `slot`. If a proof fails, nothing is changed. -/
def store (knowledge : Knowledge) (prover : Simplifier) (slot value : Name) :
    Except Error Knowledge := do
  let dropped ← falsified prover slot value knowledge.storage.entries
  let kept := dropped.foldl TwoWayMap.erase knowledge.storage
  return { knowledge with storage := kept.set slot value }

/-- Keeps the facts about storage that also held before a branch. -/
def joinStorage (knowledge : Knowledge) (before : TwoWayMap Name) : Knowledge :=
  { knowledge with
    storage := knowledge.storage.retain fun slot value => before.get? slot == some value }

/-- Forgets all facts about storage. -/
def forgetStorage (knowledge : Knowledge) : Knowledge :=
  { knowledge with storage := knowledge.storage.clear }

end StorageFlow.Knowledge
