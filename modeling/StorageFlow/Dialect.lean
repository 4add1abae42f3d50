import StorageFlow.Name
import StorageFlow.Effect.Basic

/-!
# StorageFlow.Dialect

A dialect decides which names are builtins and what builtins and instructions may do.

* `Builtin` — a function that a dialect provides, possibly another spelling of an instruction.
* `Dialect` — the questions that an analysis asks.
* `BuiltinTable` — builtins by name; `BuiltinTable.evm` has one for each native instruction, and
  `BuiltinTable.toDialect` answers a dialect's questions from a table.
-/

namespace StorageFlow

/-- A function that a dialect provides. -/
structure Builtin where
  name : Name
  parameters : Nat
  results : Nat
  effects : Effects
  /-- The instruction that the builtin stands for, if any. -/
  instruction? : Option Instruction
  deriving DecidableEq

namespace Builtin

/-- The builtin that stands for `instruction`, under its written form. -/
def ofInstruction (instruction : Instruction) : Builtin where
  name := instruction.mnemonic
  parameters := instruction.arity
  results := instruction.results
  effects := instruction.effects
  instruction? := some instruction

/-- A builtin that stands for no instruction. -/
def ofEffects (name : Name) (parameters results : Nat) (effects : Effects) : Builtin where
  name
  parameters
  results
  effects
  instruction? := none

end Builtin

/-- What a dialect answers. -/
structure Dialect where
  name : String
  /-- The builtin of a name; a name without one is that of a function of the program. -/
  builtin? : Name → Option Builtin
  /-- What an instruction may do. -/
  instructionEffects : Instruction → Effects := Instruction.effects
  /-- What a call by name may do, if the name is that of a builtin. -/
  callEffects? : Name → Option Effects := fun name => (builtin? name).map Builtin.effects

/-- What a call by name may do. -/
def Dialect.callEffects (dialect : Dialect) (name : Name) : Effects :=
  (dialect.callEffects? name).getD .unknown

/-- Builtins by name. -/
structure BuiltinTable where
  name : String
  builtins : NameMap Builtin

namespace BuiltinTable

/-- Adds a builtin, in place of any other of the same name. -/
def define (table : BuiltinTable) (builtin : Builtin) : BuiltinTable :=
  { table with builtins := table.builtins.insert builtin.name builtin }

/-- The table that exposes every native instruction under its written form. -/
def evm : BuiltinTable :=
  (Instruction.all.map Builtin.ofInstruction).foldl define ⟨"evm", ∅⟩

/-- The number of builtins. -/
def size (table : BuiltinTable) : Nat :=
  table.builtins.size

/-- The names of the builtins, in order. -/
def names (table : BuiltinTable) : List Name :=
  table.builtins.keys

/-- The builtin of a name. -/
def find? (table : BuiltinTable) (name : Name) : Option Builtin :=
  table.builtins[name]?

/-- The dialect whose builtins are those of the table. -/
def toDialect (table : BuiltinTable) : Dialect where
  name := table.name
  builtin? := table.find?

end BuiltinTable

end StorageFlow
