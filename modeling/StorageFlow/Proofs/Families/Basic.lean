import StorageFlow.Families
import StorageFlow.Proofs.Analysis.StorageTransfer
import StorageFlow.Proofs.Semantics.Reference

/-!
# StorageFlow.Proofs.Families.Basic

The expressions of the families, in the native dialect.

* `Context.native` — the native dialect with the default settings.
* `Dialect.callEffects?_evm`, `Dialect.operation?_evm` — a call of a builtin has the effects of its
  instruction, and is treated like it.
* `Context.trackedStore?_native` — a store of a variable at a variable is tracked.
* `Family.nodes_callOn`, `Family.operations_callOn`, `Family.reads_callOn` — calls on variables.
-/

namespace StorageFlow

/-- The native dialect, with the standard rules and the default configuration. -/
abbrev Context.native : Context where
  dialect := BuiltinTable.evm.toDialect

theorem Context.rules_native : ∀ rule ∈ native.rules, rule ∈ RuleTable.standard :=
  fun _ hrule => hrule

/-! ### Calls of builtins -/

section Native

variable (operator : Instruction)

theorem Dialect.callEffects?_evm :
    BuiltinTable.evm.toDialect.callEffects? operator.mnemonic = some operator.effects := by
  simp [BuiltinTable.toDialect, BuiltinTable.find?_evm_mnemonic, Builtin.ofInstruction]

theorem Dialect.effectsOf_call_evm :
    BuiltinTable.evm.toDialect.effectsOf (.call operator.mnemonic) = operator.effects := by
  rw [effectsOf, callEffects, callEffects?_evm, Option.getD_some]

theorem Dialect.operation?_evm {arguments : List Expr}
    (harity : arguments.length = operator.arity) :
    BuiltinTable.evm.toDialect.operation? (.callOf operator.mnemonic arguments) =
      some (operator, arguments) := by
  have hbuiltin : BuiltinTable.evm.toDialect.builtin? operator.mnemonic =
      some (.ofInstruction operator) := BuiltinTable.find?_evm_mnemonic operator
  simp [operation?, Expr.callOf, Identifier.ofName, hbuiltin, Builtin.ofInstruction, harity]

theorem Dialect.not_changes_evm (operators : List Instruction)
    (h : ∀ operator ∈ operators, operator.effects.mayChangeStorage = false) :
    ¬ BuiltinTable.evm.toDialect.Changes
      (operators.map fun operator => .call operator.mnemonic) := by
  rintro ⟨op, hop, hchanges⟩
  obtain ⟨operator, hmem, rfl⟩ := List.mem_map.1 hop
  rw [changesStorage, effectsOf_call_evm, h operator hmem] at hchanges
  cases hchanges

end Native

theorem Context.trackedStore?_native (slot value : Name) :
    native.trackedStore? (Family.callOn "sstore" [slot, value]) = some (slot, value) := by
  have hstore : native.dialect.callEffects? "sstore" = some Instruction.sstore.effects :=
    Dialect.callEffects?_evm .sstore
  show (if (native.dialect.callEffects? "sstore").any Effects.writesSlot then some (slot, value)
    else none) = some (slot, value)
  rw [hstore]
  rfl

/-! ### Variables as arguments -/

namespace Expr

theorem nodesAll_ofName (names : List Name) :
    nodesAll (names.map .ofName) = names.map .ofName := by
  induction names with
  | nil => rfl
  | cons name names ih => exact congrArg (.ofName name :: ·) ih

theorem operationsAll_ofName (names : List Name) : operationsAll (names.map .ofName) = [] := by
  induction names with
  | nil => rfl
  | cons name names ih => exact ih

theorem readsAll_ofName (names : List Name) : readsAll (names.map .ofName) = names := by
  induction names with
  | nil => rfl
  | cons name names ih => exact congrArg (name :: ·) ih

end Expr

namespace Family

variable (name : Name) (names : List Name) (n : Nat)

@[simp] theorem nodes_callOn :
    (callOn name names).nodes = names.map .ofName ++ [callOn name names] := by
  rw [callOn, Expr.callOf, Expr.nodes, Expr.nodesAll_ofName]

@[simp] theorem operations_callOn : (callOn name names).operations = [.call name] := by
  rw [callOn, Expr.callOf, Expr.operations, Expr.operationsAll_ofName]
  rfl

@[simp] theorem reads_callOn : (callOn name names).reads = names := by
  rw [callOn, Expr.callOf, Expr.reads, Expr.readsAll_ofName]

@[simp] theorem operations_inputWord : (inputWord n).operations = [.call "calldataload"] := rfl

@[simp] theorem reads_inputWord : (inputWord n).reads = [] := rfl

@[simp] theorem operations_number : (Expr.number n).operations = [] := rfl

@[simp] theorem reads_number : (Expr.number n).reads = [] := rfl

end Family

end StorageFlow
