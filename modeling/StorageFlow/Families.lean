import StorageFlow.Syntax.Stmt

/-!
# StorageFlow.Families

Families of programs of growing size.

* `Family.straightLine` — groups of declarations, each with a store to a slot of its own.
* `Family.nested` — branches and loops nested around one store and one load.
* `Family.functions` — small functions, each with a store and a load.
-/

namespace StorageFlow.Family

/-- The call of a builtin on variables. -/
def callOn (name : Name) (arguments : List Name) : Expr :=
  .callOf name (arguments.map .ofName)

/-- The declaration of one variable with a value. -/
def declareOne (name : Name) (value : Expr) : Stmt :=
  .declareAs [name] (some value)

/-- The word at the given byte offset of the input. -/
def inputWord (offset : Nat) : Expr :=
  .callOf "calldataload" [.number offset]

/-- One group: a slot, a word of the input, their sum, and the store of the word at the slot. -/
def group (i : Nat) : List Stmt :=
  let slot := "s" ++ toString i
  let value := "v" ++ toString i
  let sum := "c" ++ toString i
  [declareOne slot (.number i),
    declareOne value (inputWord (i * 32)),
    declareOne sum (callOn "add" [value, slot]),
    .eval (callOn "sstore" [slot, value])]

/-- Straight-line code of `size` groups. -/
def straightLine (size : Nat) : Block :=
  .ofStatements ((List.range size).flatMap group)

/-- Wraps statements into the construct of one level: a branch, a switch or a loop in turn. -/
def nest (level : Nat) (body : List Stmt) : Stmt :=
  let inner := Block.ofStatements body
  let condition := Expr.ofName "cond"
  match level % 3 with
  | 0 => .when condition inner
  | 1 => .switchOn condition
      [.ofValue (.number 0) inner, .otherwise (.ofStatements [.continueLoop .synthetic])]
  | _ => .loop condition .empty inner

/-- A store and a load below `depth` levels of branches and loops. -/
def nestedBody : Nat → List Stmt
  | 0 => [.eval (callOn "sstore" ["x", "y"]), .assignTo ["y"] (callOn "sload" ["x"])]
  | depth + 1 => [nest depth (nestedBody depth)]

/-- A loop around a store and a load below `depth` levels of branches and loops. -/
def nested (depth : Nat) : Block :=
  .ofStatements
    [declareOne "x" (inputWord 0),
      declareOne "y" (inputWord 32),
      declareOne "cond" (inputWord 64),
      .loop (.ofName "cond") .empty (.ofStatements (nestedBody depth))]

/-- A function that stores its second parameter at its first and loads it again. -/
def storingFunction (i : Nat) : Stmt :=
  .define ("f" ++ toString i) ["a", "b"] ["r"]
    (.ofStatements
      [.eval (callOn "sstore" ["a", "b"]),
        .assignTo ["r"] (.callOf "add" [callOn "sload" ["a"], .ofName "b"])])

/-- A program of `count` small functions. -/
def functions (count : Nat) : Block :=
  .ofStatements ((List.range count).map storingFunction)

end StorageFlow.Family
