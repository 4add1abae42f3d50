import StorageFlow.Proofs.Semantics.Exec

/-!
# StorageFlow.Proofs.Semantics.Reference

A model of the native instructions.

* `BuiltinTable.find?_evm`, `BuiltinTable.find?_evm_mnemonic` — every builtin of the native table
  spells an instruction, and every instruction has its builtin.
* `Instruction.value?`, `Instruction.run` — arithmetic, comparisons, loads and stores.
* `lexicalCalls` — calls find the functions of the blocks around them, up to a depth.
* `Model.native` — the model made of these; it spells builtins as instructions.

Instructions that depend on more than words and storage are left without a meaning.
-/

namespace StorageFlow

variable {W : Type}

/-! ### The native table -/

/-- Every builtin of the native table spells the instruction whose written form is its name. -/
theorem BuiltinTable.find?_evm {name : Name} {builtin : Builtin}
    (h : evm.find? name = some builtin) :
    ∃ operator, builtin = .ofInstruction operator ∧
      Instruction.ofMnemonic? name = some operator := by
  have hdefine : ∀ (operators : List Instruction) {table : BuiltinTable},
      (∀ {name builtin}, table.find? name = some builtin →
        ∃ operator, builtin = .ofInstruction operator ∧ operator.mnemonic = name) →
      ∀ {name builtin},
        ((operators.map Builtin.ofInstruction).foldl define table).find? name = some builtin →
          ∃ operator, builtin = .ofInstruction operator ∧ operator.mnemonic = name := by
    intro operators
    induction operators with
    | nil => exact fun htable => htable
    | cons operator operators ih =>
        intro table htable
        refine ih fun {name builtin} hfind => ?_
        rw [find?, define, Std.ExtTreeMap.getElem?_insert] at hfind
        split at hfind
        next hname =>
          cases hfind
          exact ⟨operator, rfl, Std.LawfulEqCmp.compare_eq_iff_eq.1 hname⟩
        next => exact htable hfind
  obtain ⟨operator, hbuiltin, hname⟩ := hdefine Instruction.all (fun hfind => by
    rw [find?, Std.ExtTreeMap.getElem?_empty] at hfind
    cases hfind) h
  exact ⟨operator, hbuiltin, hname ▸ Instruction.ofMnemonic?_mnemonic operator⟩

/-- The native table has every instruction under its written form. -/
theorem BuiltinTable.find?_evm_mnemonic (operator : Instruction) :
    evm.find? operator.mnemonic = some (.ofInstruction operator) := by
  have hall : ∀ operator ∈ Instruction.all,
      evm.find? operator.mnemonic = some (.ofInstruction operator) := by decide +kernel
  exact hall operator operator.mem_all

/-! ### Instructions -/

/-- A truth value as a word. -/
def truthWord (p : Bool) : Word :=
  if p then 1 else 0

/-- The word that an instruction computes from words; `input` is the call data. -/
def Instruction.value? (input : Word → Word) : Instruction → List Word → Option Word
  | .add, [a, b] => some (a + b)
  | .sub, [a, b] => some (a - b)
  | .mul, [a, b] => some (a * b)
  | .div, [a, b] => some (a / b)
  | .mod, [a, b] => some (if b = 0 then 0 else a % b)
  | .not, [a] => some (~~~a)
  | .and, [a, b] => some (a &&& b)
  | .or, [a, b] => some (a ||| b)
  | .xor, [a, b] => some (a ^^^ b)
  | .lt, [a, b] => some (truthWord (a.ult b))
  | .gt, [a, b] => some (truthWord (b.ult a))
  | .slt, [a, b] => some (truthWord (a.slt b))
  | .sgt, [a, b] => some (truthWord (b.slt a))
  | .eq, [a, b] => some (truthWord (a == b))
  | .iszero, [a] => some (truthWord (a == 0))
  | .calldataload, [a] => some (input a)
  | _, _ => none

/-- What an instruction does. -/
def Instruction.run (input : Word → Word) (operator : Instruction) (words : List Word)
    (m : Machine W) : Outcome W (List Word) :=
  if operator.halts then .halted m
  else
    match operator, words with
    | .sload, [a] => .done [m.storage a] m
    | .sstore, [a, b] =>
        .done [] { m with storage := fun slot => if slot = a then b else m.storage slot }
    | .pop, [_] => .done [] m
    | operator, words =>
      match operator.value? input words with
      | some word => .done [word] m
      | none => .stuck

/-- An instruction that comes to its end reads or writes storage, drops a word or computes one. -/
theorem Instruction.run_eq_done {input : Word → Word} {operator : Instruction} {words : List Word}
    {m m' : Machine W} {results : List Word} (h : operator.run input words m = .done results m') :
    (operator = .sload ∧ m' = m) ∨
      (∃ a b, operator = .sstore ∧ words = [a, b] ∧
        m'.storage = fun slot => if slot = a then b else m.storage slot) ∨
      (results = (operator.value? input words).toList ∧ m' = m) := by
  unfold run at h
  split at h
  · cases h
  · split at h
    · cases h
      exact .inl ⟨rfl, rfl⟩
    next a b _ =>
      cases h
      exact .inr (.inl ⟨a, b, rfl, rfl, rfl⟩)
    · cases h
      exact .inr (.inr ⟨rfl, rfl⟩)
    · split at h
      next word hvalue =>
        cases h
        exact .inr (.inr ⟨by rw [hvalue]; rfl, rfl⟩)
      next => cases h

/-! ### Calls -/

/-- Calls find the functions of their block first, and those of the blocks around it after that. A
call that nests too deep is given up. -/
def lexicalCalls (functions : List (Name × Meaning W)) (outer : Calls W) : Nat → Calls W
  | 0 => fun callee words m =>
    match functions.lookup callee with
    | some _ => .exhausted
    | none => outer callee words m
  | depth + 1 => fun callee words m =>
    match functions.lookup callee with
    | some meaning => meaning (lexicalCalls functions outer depth) words m
    | none => outer callee words m

/-! ### The model -/

/-- The instruction that an operation is, or that it spells. -/
def Operation.instruction? : Operation → Option Instruction
  | .instruction operator => some operator
  | .call callee => Instruction.ofMnemonic? callee

/-- An operation of the native dialect that it knows has the effects of its instruction. -/
theorem effectsOf_evm (op : Operation) :
    BuiltinTable.evm.toDialect.effectsOf op = .unknown ∨
      ∃ operator, op.instruction? = some operator ∧
        BuiltinTable.evm.toDialect.effectsOf op = operator.effects := by
  cases op with
  | instruction operator => exact .inr ⟨operator, rfl, rfl⟩
  | call callee =>
      rw [Dialect.effectsOf, Dialect.callEffects]
      cases hfind : BuiltinTable.evm.find? callee with
      | none => exact .inl (by simp [BuiltinTable.toDialect, hfind])
      | some builtin =>
          obtain ⟨operator, rfl, hname⟩ := BuiltinTable.find?_evm hfind
          exact .inr ⟨operator, hname, by simp [BuiltinTable.toDialect, hfind]; rfl⟩

/-- What an operation of the native dialect does. -/
def Operation.runNative (input : Word → Word) (op : Operation) (words : List Word)
    (m : Machine W) : Outcome W (List Word) :=
  match op.instruction? with
  | some operator => operator.run input words m
  | none => .stuck

/-- The model of the native instructions, with arguments evaluated from the last to the first. -/
def Model.native (input : Word → Word) (depth rounds : Nat) :
    Model BuiltinTable.evm.toDialect W where
  literal kind text :=
    match (Literal.mk kind text .synthetic).toNat? with
    | some n => BitVec.ofNat 256 n
    | none => 0
  operation := Operation.runNative input
  result op words := (op.instruction?.bind fun operator => operator.value? input words).toList
  leftToRight := false
  rounds := rounds
  link functions outer := lexicalCalls functions outer depth
  literal_of_toNat? {l n} h := by
    have h : (Literal.mk l.kind l.text .synthetic).toNat? = some n := h
    rw [h]
  result_of_movable {op words m results m'} hmovable h := by
    rcases effectsOf_evm op with hunknown | ⟨operator, hop, heffects⟩
    · rw [hunknown] at hmovable
      cases hmovable
    · rw [Operation.runNative, hop] at h
      rw [hop]
      -- loads and stores are not movable
      rcases Instruction.run_eq_done h with ⟨rfl, _⟩ | ⟨_, _, rfl, _⟩ | ⟨hresults, _⟩
      · rw [heffects] at hmovable
        cases hmovable
      · rw [heffects] at hmovable
        cases hmovable
      · exact hresults
  storage_unchanged {op words m results m'} hno h := by
    rcases effectsOf_evm op with hunknown | ⟨operator, hop, heffects⟩
    · rw [Dialect.changesStorage, hunknown] at hno
      cases hno
    · rw [Operation.runNative, hop] at h
      rcases Instruction.run_eq_done h with ⟨_, rfl⟩ | ⟨_, _, rfl, _⟩ | ⟨_, rfl⟩
      · rfl
      · rw [Dialect.changesStorage, heffects] at hno
        cases hno
      · rfl
  storage_written {op a b m results m'} hwrites h := by
    rcases effectsOf_evm op with hunknown | ⟨operator, hop, heffects⟩
    · rw [hunknown] at hwrites
      cases hwrites
    · rw [heffects] at hwrites
      obtain rfl : operator = .sstore := of_decide_eq_true hwrites
      rw [Operation.runNative, hop] at h
      cases h
      rfl

/-- In the model of the native instructions, builtins act as the instructions they stand for. -/
theorem Model.native_spells (input : Word → Word) (depth rounds : Nat) :
    (Model.native (W := W) input depth rounds).Spells where
  sload _ _ := rfl
  builtin {callee builtin operator words} hfind hspelt _ := by
    obtain ⟨_, rfl, hname⟩ := BuiltinTable.find?_evm hfind
    obtain rfl := Option.some.inj hspelt
    have hcallee : (Operation.call callee).instruction? = some _ := hname
    funext m
    simp only [Model.native, Operation.runNative, hcallee]
    rfl

end StorageFlow
