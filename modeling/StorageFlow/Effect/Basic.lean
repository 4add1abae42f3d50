import StorageFlow.Instruction

/-!
# StorageFlow.Effect.Basic

What the evaluation of an operation may do.

* `Effects` — five facts about an operation.
* `Effects.pure`, `Effects.unknown` — a mere computation, and a call of which nothing is known.
* `Instruction.effects` — the facts of the native instructions.
-/

namespace StorageFlow

/-- What evaluating one operation may do. -/
structure Effects where
  /-- It may be evaluated elsewhere or twice while its arguments are unchanged. -/
  movable : Bool
  /-- It may be dropped if its result is not used. -/
  sideEffectFree : Bool
  /-- It may change storage slots in a way that is not tracked. -/
  clobbersStorage : Bool
  /-- It never returns. -/
  terminates : Bool
  /-- It writes the storage slot named by its first argument. -/
  writesSlot : Bool
  deriving DecidableEq

namespace Effects

/-- The facts of a mere computation. -/
protected def pure : Effects where
  movable := true
  sideEffectFree := true
  clobbersStorage := false
  terminates := false
  writesSlot := false

/-- The facts assumed of a call that is not known to be a builtin. -/
def unknown : Effects where
  movable := false
  sideEffectFree := false
  clobbersStorage := true
  terminates := false
  writesSlot := false

instance : Inhabited Effects := ⟨.pure⟩

end Effects

namespace Instruction

/-- Whether the instruction does more than compute a result. -/
def isEffectful : Instruction → Bool
  | stop | mstore | sstore | log0 | log1 | call | callcode | delegatecall | staticcall | create
  | create2 | ret | revert | invalid | selfdestruct => true
  | _ => false

/-- Whether the result of an instruction without side effects depends on what others change. -/
def readsState : Instruction → Bool
  | keccak256 | balance | extcodesize | extcodehash | returndatasize | sload | mload | msize
  | gas => true
  | _ => false

/-- Whether the instruction may change storage. -/
def changesStorage : Instruction → Bool
  | sstore | call | callcode | delegatecall | create | create2 => true
  | _ => false

/-- Whether the instruction ends the execution. -/
def halts : Instruction → Bool
  | stop | ret | revert | invalid | selfdestruct => true
  | _ => false

/-- What evaluating the instruction may do. -/
def effects (instruction : Instruction) : Effects where
  movable := !instruction.isEffectful && !instruction.readsState
  sideEffectFree := !instruction.isEffectful
  clobbersStorage := instruction.changesStorage
  terminates := instruction.halts
  writesSlot := instruction == sstore

end Instruction

end StorageFlow
