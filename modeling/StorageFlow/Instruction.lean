/-!
# StorageFlow.Instruction

The native instructions of the target machine.

* `Instruction` — their identities; `Instruction.all` lists them in order.
* `Instruction.mnemonic`, `Instruction.ofMnemonic?` — the written form and its reader.
* `Instruction.arity`, `Instruction.results` — how many words an instruction takes and gives.

What an instruction does is knowledge of a dialect, not of this module.
-/

namespace StorageFlow

/-- A native instruction of the target machine. -/
inductive Instruction
  | stop
  | add | sub | mul | div | sdiv | mod | smod | exp
  | not | lt | gt | slt | sgt | eq | iszero | and | or | xor
  | byte | shl | shr | sar | keccak256
  | address | balance | caller | callvalue | calldataload | calldatasize | returndatasize
  | extcodesize | extcodehash | gas | msize
  | pop | mload | mstore | sload | sstore
  | log0 | log1
  | call | callcode | delegatecall | staticcall | create | create2
  | ret | revert | invalid | selfdestruct
  deriving DecidableEq

namespace Instruction

/-- Every instruction, in order. -/
def all : List Instruction :=
  [.stop,
    .add, .sub, .mul, .div, .sdiv, .mod, .smod, .exp,
    .not, .lt, .gt, .slt, .sgt, .eq, .iszero, .and, .or, .xor,
    .byte, .shl, .shr, .sar, .keccak256,
    .address, .balance, .caller, .callvalue, .calldataload, .calldatasize, .returndatasize,
    .extcodesize, .extcodehash, .gas, .msize,
    .pop, .mload, .mstore, .sload, .sstore,
    .log0, .log1,
    .call, .callcode, .delegatecall, .staticcall, .create, .create2,
    .ret, .revert, .invalid, .selfdestruct]

/-- The written form, which also names the builtin that exposes the instruction. -/
def mnemonic : Instruction → String
  | stop => "stop"
  | add => "add"
  | sub => "sub"
  | mul => "mul"
  | div => "div"
  | sdiv => "sdiv"
  | mod => "mod"
  | smod => "smod"
  | exp => "exp"
  | not => "not"
  | lt => "lt"
  | gt => "gt"
  | slt => "slt"
  | sgt => "sgt"
  | eq => "eq"
  | iszero => "iszero"
  | and => "and"
  | or => "or"
  | xor => "xor"
  | byte => "byte"
  | shl => "shl"
  | shr => "shr"
  | sar => "sar"
  | keccak256 => "keccak256"
  | address => "address"
  | balance => "balance"
  | caller => "caller"
  | callvalue => "callvalue"
  | calldataload => "calldataload"
  | calldatasize => "calldatasize"
  | returndatasize => "returndatasize"
  | extcodesize => "extcodesize"
  | extcodehash => "extcodehash"
  | gas => "gas"
  | msize => "msize"
  | pop => "pop"
  | mload => "mload"
  | mstore => "mstore"
  | sload => "sload"
  | sstore => "sstore"
  | log0 => "log0"
  | log1 => "log1"
  | call => "call"
  | callcode => "callcode"
  | delegatecall => "delegatecall"
  | staticcall => "staticcall"
  | create => "create"
  | create2 => "create2"
  | ret => "return"
  | revert => "revert"
  | invalid => "invalid"
  | selfdestruct => "selfdestruct"

/-- The instruction whose written form is exactly `text`. -/
def ofMnemonic? (text : String) : Option Instruction :=
  all.find? fun instruction => instruction.mnemonic == text

/-- The number of argument words. -/
def arity : Instruction → Nat
  | stop | invalid | address | caller | callvalue | calldatasize | returndatasize | gas | msize => 0
  | not | iszero | balance | calldataload | extcodesize | extcodehash | pop | mload | sload
  | selfdestruct => 1
  | log1 | create => 3
  | create2 => 4
  | delegatecall | staticcall => 6
  | call | callcode => 7
  | add | sub | mul | div | sdiv | mod | smod | exp | lt | gt | slt | sgt | eq | and | or | xor
  | byte | shl | shr | sar | keccak256 | mstore | sstore | log0 | ret | revert => 2

/-- The number of result words, at most one. -/
def results : Instruction → Nat
  | stop | pop | mstore | sstore | log0 | log1 | ret | revert | invalid | selfdestruct => 0
  | _ => 1

theorem mem_all (instruction : Instruction) : instruction ∈ all := by
  cases instruction <;> decide

theorem ofMnemonic?_mnemonic (instruction : Instruction) :
    ofMnemonic? instruction.mnemonic = some instruction := by
  cases instruction <;> rfl

end Instruction

end StorageFlow
