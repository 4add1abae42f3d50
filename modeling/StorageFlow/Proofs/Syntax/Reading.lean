import Mathlib.Order.Filter.AtTopBot.Basic
import StorageFlow.Proofs.Syntax.Legible
import StorageFlow.Proofs.Syntax.Spelling

/-!
# StorageFlow.Proofs.Syntax.Reading

Written forms are unambiguous.

* `Reader` — takes a value off the front of a list of tokens. `Reader.expr` and `Reader.stmt` take
  a bound on the depth of what they read, and on the lengths of its lists.
* `Takes` — a reader finds a value in given tokens, whatever follows them.
* `Expr.takes`, `Stmt.takes`, `Block.takes` — what the tokens of a tree are read as.
* `Block.toText_eq_iff` — legible blocks are written alike if and only if they differ at most in
  source locations and in how instructions are spelled.
-/

namespace StorageFlow

/-! ### Readers -/

/-- Takes a value off the front of a list of tokens and leaves the others. -/
abbrev Reader (α : Type) := List Token → Option (α × List Token)

namespace Reader

variable {α : Type}

/-- Leaves what follows an expected token. -/
def skip (expected : Token) : List Token → Option (List Token)
  | [] => none
  | token :: rest => if token = expected then some rest else none

@[simp] theorem skip_cons (token : Token) (rest : List Token) :
    skip token (token :: rest) = some rest := if_pos rfl

/-- Reads values with commas between them, one at least. -/
def separated (item : Reader α) : Nat → Reader (List α)
  | 0, _ => none
  | n + 1, tokens => do
    let (x, rest) ← item tokens
    match rest with
    | .mark .comma :: rest =>
      let (xs, rest) ← separated item n rest
      some (x :: xs, rest)
    | _ => some ([x], rest)

/-- Reads a list in parentheses. -/
def inParens (item : Reader α) (n : Nat) : Reader (List α) := fun tokens => do
  let rest ← skip (.mark .openParen) tokens
  let (xs, rest) := (separated item n rest).getD ([], rest)
  let rest ← skip (.mark .closeParen) rest
  some (xs, rest)

/-- Reads values as long as there are any. -/
def repeated (item : Reader α) : Nat → Reader (List α)
  | 0, _ => none
  | n + 1, tokens =>
    match item tokens with
    | none => some ([], tokens)
    | some (x, rest) => do
      let (xs, rest) ← repeated item n rest
      some (x :: xs, rest)

/-- Reads an occurrence of a name. -/
def identifier : Reader Identifier
  | .name name :: rest => some (.ofName name, rest)
  | _ => none

/-- Reads a declared name with its type. -/
def binder : Reader Binder
  | .name name :: .mark .colon :: .name type :: rest => some (⟨name, some type, .synthetic⟩, rest)
  | .name name :: rest => some (.ofName name, rest)
  | _ => none

/-- Reads an expression. -/
def expr : Nat → Reader Expr
  | 0, _ => none
  | n + 1, tokens =>
    match tokens with
    | .literal kind text :: rest => some (.literal ⟨kind, text, .synthetic⟩, rest)
    | .name callee :: .mark .openParen :: rest => do
      let (arguments, rest) ← inParens (expr n) n (.mark .openParen :: rest)
      some (.callOf callee arguments, rest)
    | .name name :: rest => some (.ofName name, rest)
    | _ => none

/-- Reads the value of a declaration, if there is one. -/
def assigned (n : Nat) : Reader (Option Expr)
  | .mark .colon :: .mark .equals :: rest => do
    let (value, rest) ← expr n rest
    some (value, rest)
  | tokens => some (none, tokens)

/-- Reads the note that a value is missing. -/
def missing : List Token → Option (List Token)
  | .mark .less :: .name _ :: .mark .greater :: rest => some rest
  | _ => none

/-- Reads the value of an assignment, or the note that it is missing. -/
def expected (n : Nat) : Reader (Option Expr) := fun tokens =>
  (expr n tokens).map (fun (value, rest) => (some value, rest)) <|>
    (missing tokens).map fun rest => (none, rest)

/-- Reads the results of a function, if there are any. -/
def results (n : Nat) : Reader (List Binder)
  | .mark .dash :: .mark .greater :: rest => separated binder n rest
  | tokens => some ([], tokens)

/-- Reads an assignment. -/
def assignment (n : Nat) : Reader Stmt := fun tokens => do
  let (targets, rest) ← separated identifier n tokens
  let rest ← skip (.mark .colon) rest
  let rest ← skip (.mark .equals) rest
  let (value?, rest) ← expected n rest
  some (.assign targets value? .synthetic, rest)

/-- Reads a block. -/
def block (stmt : Reader Stmt) (n : Nat) : Reader Block := fun tokens => do
  let rest ← skip (.mark .openBrace) tokens
  let (stmts, rest) ← repeated stmt n rest
  let rest ← skip (.mark .closeBrace) rest
  some (.ofStatements stmts, rest)

/-- Reads a case. -/
def case (body : Reader Block) : Reader Case
  | .keyword .case :: .literal kind text :: rest => do
    let (body, rest) ← body rest
    some (.ofValue ⟨kind, text, .synthetic⟩ body, rest)
  | .keyword .default :: rest => do
    let (body, rest) ← body rest
    some (.otherwise body, rest)
  | _ => none

/-- Reads a statement. -/
def stmt : Nat → Reader Stmt
  | 0, _ => none
  | n + 1, tokens =>
    match tokens with
    | .keyword .declare :: rest => do
      let (declared, rest) ← separated binder n rest
      let (value?, rest) ← assigned n rest
      some (.declare declared value? .synthetic, rest)
    | .keyword .branch :: rest => do
      let (condition, rest) ← expr n rest
      let (body, rest) ← block (stmt n) n rest
      some (.when condition body, rest)
    | .keyword .switch :: rest => do
      let (scrutinee, rest) ← expr n rest
      let (cases, rest) ← repeated (case (block (stmt n) n)) n rest
      some (.switchOn scrutinee cases, rest)
    | .keyword .loop :: rest => do
      let (initial, rest) ← block (stmt n) n rest
      let (condition, rest) ← expr n rest
      let (post, rest) ← block (stmt n) n rest
      let (body, rest) ← block (stmt n) n rest
      some (.forLoop initial condition post body .synthetic, rest)
    | .keyword .function :: .name name :: rest => do
      let (parameters, rest) ← inParens binder n rest
      let (results, rest) ← results n rest
      let (body, rest) ← block (stmt n) n rest
      some (.function name parameters results body .synthetic, rest)
    | .keyword .breakLoop :: rest => some (.breakLoop .synthetic, rest)
    | .keyword .continueLoop :: rest => some (.continueLoop .synthetic, rest)
    | .mark .openBrace :: rest =>
      (block (stmt n) n (.mark .openBrace :: rest)).map fun (body, rest) => (.block body, rest)
    | tokens =>
      assignment n tokens <|> (expr n tokens).map fun (value, rest) => (.eval value, rest)

end Reader

/-! ### What follows -/

/-- The list does not start with one of the barred tokens. -/
def Ends (barred : List Token) (rest : List Token) : Prop :=
  ∀ token ∈ rest.head?, token ∉ barred

@[simp] theorem ends_cons {barred rest : List Token} {token : Token} :
    Ends barred (token :: rest) ↔ token ∉ barred := by
  simp [Ends]

theorem Ends.mono {barred fewer rest : List Token} (h : Ends barred rest)
    (hfewer : ∀ token ∈ fewer, token ∈ barred) : Ends fewer rest :=
  fun token hhead hmem => h token hhead (hfewer token hmem)

/-- The reader finds the value in the tokens, whatever follows them and is allowed there. -/
def Takes {α : Type} (reader : Reader α) (ends : List Token → Prop) (tokens : List Token)
    (value : α) : Prop :=
  ∀ rest, ends rest → reader (tokens ++ rest) = some (value, rest)

namespace Takes

variable {α β : Type} {item : Reader β} {ends : List Token → Prop} {cut : α → List Token}
  {value : α → β} {xs : List α} {n : Nat}

theorem separated (h : ∀ x ∈ xs, Takes item ends (cut x) (value x)) (hne : xs ≠ [])
    (hlength : xs.length ≤ n) (hcomma : ∀ rest, ends (.mark .comma :: rest)) :
    Takes (Reader.separated item n) (fun rest => ends rest ∧ Ends [.mark .comma] rest)
      (commaTokens (xs.map cut)) (xs.map value) := by
  intro rest hrest
  induction xs generalizing n with
  | nil => exact absurd rfl hne
  | cons x xs ih =>
      rw [List.forall_mem_cons] at h
      cases n with
      | zero => simp at hlength
      | succ n =>
          cases xs with
          | nil =>
              have hlast := hrest.2
              simp only [List.map_cons, List.map_nil, commaTokens_singleton, Reader.separated,
                h.1 rest hrest.1, Option.bind_eq_bind, Option.bind_some]
              split
              · exact absurd (hlast _ rfl) (by simp)
              · rfl
          | cons y ys =>
              have hmore := ih h.2 (by simp) (by simpa using hlength)
              simp only [List.map_cons] at hmore
              simp [Reader.separated, h.1 _ (hcomma _), hmore]

/-- A list in parentheses may be empty, and anything may follow it. -/
theorem inParens (h : ∀ x ∈ xs, Takes item ends (cut x) (value x)) (hlength : xs.length ≤ n)
    (hcomma : ∀ rest, ends (.mark .comma :: rest))
    (hclose : ∀ rest, ends (.mark .closeParen :: rest))
    (hnone : ∀ rest, item (.mark .closeParen :: rest) = none) :
    Takes (Reader.inParens item n) (fun _ => True) (parenTokens (xs.map cut)) (xs.map value) := by
  intro rest _
  by_cases hne : xs = []
  · have hempty : Reader.separated item n (.mark .closeParen :: rest) = none := by
      cases n <;> simp [Reader.separated, hnone]
    simp [hne, Reader.inParens, parenTokens, hempty]
  · have hitems := separated h hne hlength hcomma (.mark .closeParen :: rest)
      ⟨hclose rest, by simp [Ends]⟩
    simp [Reader.inParens, parenTokens, hitems]

/-- Values are read one after another until none can be read. -/
theorem repeated (h : ∀ x ∈ xs, Takes item ends (cut x) (value x)) (hlength : xs.length < n)
    (hnext : ∀ x ∈ xs, ∀ rest, ends (cut x ++ rest)) {rest : List Token} (hends : ends rest)
    (hnone : item rest = none) :
    Reader.repeated item n (xs.flatMap cut ++ rest) = some (xs.map value, rest) := by
  induction xs generalizing n with
  | nil =>
      cases n with
      | zero => simp at hlength
      | succ n => simp [Reader.repeated, hnone]
  | cons x xs ih =>
      rw [List.forall_mem_cons] at h hnext
      cases n with
      | zero => simp at hlength
      | succ n =>
          have hmore := ih h.2 (by simpa using hlength) hnext.2
          -- What follows `x` is the next value, or what follows all of them.
          have hbehind : ends (xs.flatMap cut ++ rest) := by
            cases xs with
            | nil => exact hends
            | cons y ys =>
                rw [List.flatMap_cons, List.append_assoc]
                exact hnext.2 y (by simp) _
          simp [Reader.repeated, h.1 _ hbehind, hmore]

end Takes

/-! ### Expressions -/

open Filter

/-- A property of bounds holds of all great enough ones if it does of their successors. -/
theorem eventually_of_succ {p : Nat → Prop} (h : ∀ᶠ n in atTop, p (n + 1)) :
    ∀ᶠ n in atTop, p n := by
  rwa [← map_add_atTop_eq_nat 1, eventually_map]

/-- Within the bound, the tokens of the expression are read as what its written form tells of it. A
parenthesis behind a name would make a call of it. -/
def Expr.ReadWithin (e : Expr) (n : Nat) : Prop :=
  Takes (Reader.expr n) (Ends [.mark .openParen]) e.tokens e.written

/-- No expression starts with a mark. -/
theorem Reader.expr_mark (n : Nat) (mark : Mark) (rest : List Token) :
    Reader.expr n (.mark mark :: rest) = none := by
  cases n <;> rfl

namespace Expr

theorem takes_identifier (x : Identifier) (n : Nat) : (identifier x).ReadWithin (n + 1) := by
  intro rest hrest
  simp only [tokens, List.singleton_append, Reader.expr]
  split
  · next h => cases h
  · next h =>
    cases h
    exact absurd (ends_cons.1 hrest) (by simp)
  · next h =>
    cases h
    rfl
  · next h => exact absurd rfl (h _ _)

theorem takes_call {arguments : List Expr} (name : Name)
    (h : ∀ᶠ n in atTop, ∀ e ∈ arguments, e.ReadWithin n) :
    ∀ᶠ n in atTop, Takes (Reader.expr n) (Ends [.mark .openParen])
      ([.name name] ++ parenTokens (tokensAll arguments))
      (callOf name (arguments.map written)) := by
  refine eventually_of_succ ?_
  filter_upwards [h, eventually_ge_atTop arguments.length] with n harguments hlength rest _
  have hread := Takes.inParens harguments hlength (by simp) (by simp)
    (Reader.expr_mark n .closeParen) rest trivial
  rw [← tokensAll_eq_map] at hread
  simp only [parenTokens, List.append_assoc, List.cons_append, List.nil_append] at hread ⊢
  simp [Reader.expr, hread]

mutual

theorem takes : ∀ e : Expr, ∀ᶠ n in atTop, e.ReadWithin n
  | .literal _ => eventually_of_succ (.of_forall fun _ _ _ => rfl)
  | .identifier x => eventually_of_succ (.of_forall (takes_identifier x))
  | .call callee arguments span => by
      simp only [ReadWithin, written_call]
      exact takes_call callee.name (takes_all arguments)
  | .instruction operator arguments span => by
      simp only [ReadWithin, written_instruction]
      exact takes_call operator.mnemonic (takes_all arguments)

/-- The tokens of an expression are read as what its written form tells of it. -/
theorem takes_all : ∀ es : List Expr, ∀ᶠ n in atTop, ∀ e ∈ es, e.ReadWithin n
  | [] => .of_forall nofun
  | e :: es => by
      simp only [List.forall_mem_cons]
      exact (takes e).and (takes_all es)

end

end Expr

/-! ### Declared names and values -/

/-- The tokens do not start with a type. -/
def EndsBinder (rest : List Token) : Prop :=
  ∀ type more, rest ≠ .mark .colon :: .name type :: more

theorem Ends.endsBinder {barred rest : List Token} (h : Ends barred rest)
    (hcolon : .mark .colon ∈ barred) : EndsBinder rest := by
  rintro type more rfl
  exact ends_cons.1 h hcolon

theorem Binder.takes (declared : Binder) :
    Takes Reader.binder EndsBinder declared.tokens declared.withoutSpan := by
  intro rest hrest
  obtain ⟨name, type?, span⟩ := declared
  cases type? with
  | none =>
      simp only [Binder.tokens, List.singleton_append, Reader.binder]
      split
      · next h =>
        cases h
        exact absurd rfl (hrest _ _)
      · next h =>
        cases h
        rfl
      · next h => exact absurd rfl (h _ _)
  | some type => rfl

/-- The tokens that can go on a statement, and start none. -/
def goingOn : List Token :=
  [.mark .openParen, .mark .comma, .mark .colon, .keyword .case, .keyword .default]

namespace Takes

theorem identifier (x : Identifier) :
    Takes Reader.identifier (fun _ => True) [.name x.name] x.withoutSpan :=
  fun _ _ => rfl

theorem declared {declared : List Binder} {n : Nat} (hne : declared ≠ [])
    (hlength : declared.length ≤ n) :
    Takes (Reader.separated Reader.binder n)
      (fun rest => EndsBinder rest ∧ Ends [.mark .comma] rest)
      (commaTokens (declared.map Binder.tokens)) (declared.map Binder.withoutSpan) :=
  .separated (fun declared _ => declared.takes) hne hlength nofun

theorem parameters {parameters : List Binder} {n : Nat} (hlength : parameters.length ≤ n) :
    Takes (Reader.inParens Reader.binder n) (fun _ => True)
      (parenTokens (parameters.map Binder.tokens)) (parameters.map Binder.withoutSpan) :=
  .inParens (fun declared _ => declared.takes) hlength nofun nofun fun _ => rfl

theorem results {results : List Binder} {n : Nat} (hlength : results.length ≤ n) :
    Takes (Reader.results n) (Ends [.mark .dash, .mark .comma, .mark .colon])
      (resultTokens results) (results.map Binder.withoutSpan) := by
  intro rest hrest
  by_cases hne : results = []
  · subst hne
    simp only [resultTokens, List.isEmpty_nil, if_true, List.nil_append, Reader.results]
    split
    · exact absurd (ends_cons.1 hrest) (by simp)
    · rfl
  · have hread := Takes.declared hne hlength rest
      ⟨hrest.endsBinder (by simp), hrest.mono (by simp)⟩
    simp [resultTokens, hne, Reader.results, hread]

theorem assigned (value? : Option Expr) :
    ∀ᶠ n in atTop, Takes (Reader.assigned n) (Ends goingOn) (Expr.assignedTokens value?)
      (value?.map Expr.written) := by
  cases value? with
  | none =>
      refine .of_forall fun n rest hrest => ?_
      simp only [Expr.assignedTokens, List.nil_append, Reader.assigned]
      split
      · exact absurd (ends_cons.1 hrest) (by simp [goingOn])
      · rfl
  | some e =>
      filter_upwards [e.takes] with n he rest hrest
      have hread := he rest (hrest.mono (by simp [goingOn]))
      simp [Expr.assignedTokens, Reader.assigned, hread]

theorem expected (value? : Option Expr) :
    ∀ᶠ n in atTop, Takes (Reader.expected n) (Ends goingOn) (Expr.expectedTokens value?)
      (value?.map Expr.written) := by
  cases value? with
  | none =>
      refine .of_forall fun n rest _ => ?_
      simp [Expr.expectedTokens, Reader.expected, Reader.missing, Reader.expr_mark]
  | some e =>
      filter_upwards [e.takes] with n he rest hrest
      have hread := he rest (hrest.mono (by simp [goingOn]))
      simp [Expr.expectedTokens, Reader.expected, hread]

theorem assignment {targets : List Identifier} (hne : targets ≠ []) (value? : Option Expr)
    (span : Span) : ∀ᶠ n in atTop,
      Takes (Reader.assignment n) (Ends goingOn) (Stmt.assign targets value? span).tokens
        (Stmt.assign targets value? span).written := by
  filter_upwards [Takes.expected value?, eventually_ge_atTop targets.length] with n hvalue hlength
    rest hrest
  have htargets := Takes.separated (fun x (_ : x ∈ targets) => Takes.identifier x) hne hlength
    (fun _ => trivial)
    (.mark .colon :: .mark .equals :: (Expr.expectedTokens value? ++ rest)) ⟨trivial, by simp⟩
  simp [Stmt.tokens, Reader.assignment, htargets, hvalue rest hrest]

end Takes

/-! ### Expressions and assignments apart -/

namespace Reader

/-- A name is no target unless a comma or a colon follows it. -/
theorem assignment_name {name : Name} {n : Nat} {rest : List Token}
    (hrest : Ends [.mark .comma, .mark .colon] rest) :
    assignment n (.name name :: rest) = none := by
  cases n with
  | zero => rfl
  | succ n =>
      simp only [assignment, separated, identifier, Option.bind_eq_bind, Option.bind_some]
      split
      · exact absurd (ends_cons.1 hrest) (by simp)
      · cases rest with
        | nil => rfl
        | cons token rest =>
            have hcolon : token ≠ .mark .colon := fun h => ends_cons.1 hrest (by simp [h])
            simp [skip, hcolon]

/-- What starts with an expression is no assignment unless a comma or a colon follows it. -/
theorem assignment_expr (e : Expr) {n : Nat} {rest : List Token} (hrest : Ends goingOn rest) :
    assignment n (e.tokens ++ rest) = none := by
  cases e with
  | literal value => cases n <;> rfl
  | identifier x => exact assignment_name (hrest.mono (by simp [goingOn]))
  -- The parenthesis behind the name of a call is neither of the two.
  | call callee arguments => exact assignment_name (by simp [parenTokens])
  | instruction operator arguments => exact assignment_name (by simp [parenTokens])

/-- Without a keyword or a brace in front, an assignment is tried before an expression. -/
theorem stmt_of_name_or_literal {n : Nat} {tokens : List Token}
    (h : (∃ name more, tokens = .name name :: more) ∨
      ∃ kind text more, tokens = .literal kind text :: more) :
    stmt (n + 1) tokens =
      (assignment n tokens <|> (expr n tokens).map fun (value, rest) => (.eval value, rest)) := by
  rcases h with ⟨name, more, rfl⟩ | ⟨kind, text, more, rfl⟩ <;> rfl

end Reader

/-! ### What statements and cases start with -/

theorem Block.ends_tokens (block : Block) {barred : List Token} (h : .mark .openBrace ∉ barred)
    (rest : List Token) : Ends barred (block.tokens ++ rest) := by
  cases block
  simpa [Block.tokens] using h

theorem Expr.ends_tokens (e : Expr) (rest : List Token) : Ends goingOn (e.tokens ++ rest) := by
  cases e <;> simp [Expr.tokens, Literal.token, goingOn]

/-- No statement goes on the one before it. -/
theorem Stmt.ends_tokens {stmt : Stmt} (h : stmt.isLegible = true) (rest : List Token) :
    Ends goingOn (stmt.tokens ++ rest) := by
  cases stmt with
  | expression e => exact e.ends_tokens rest
  | assign targets value? =>
      obtain ⟨x, xs, rfl⟩ : ∃ x xs, targets = x :: xs := by
        refine List.exists_cons_of_ne_nil ?_
        rintro rfl
        simp [Stmt.isLegible] at h
      cases xs <;> simp [Stmt.tokens, goingOn]
  | block body => exact body.ends_tokens (by simp [goingOn]) rest
  | _ => simp [Stmt.tokens, signatureTokens, goingOn]

theorem Case.ends_allTokens (cases : List Case) {rest : List Token}
    (h : Ends [.mark .openParen] rest) :
    Ends [.mark .openParen] (Case.allTokens cases ++ rest) := by
  cases cases with
  | nil => exact h
  | cons case cases =>
      obtain ⟨_ | value, body, span⟩ := case <;> simp [Case.allTokens, Case.tokens]

theorem Reader.stmt_closeBrace (n : Nat) (rest : List Token) :
    Reader.stmt n (.mark .closeBrace :: rest) = none := by
  cases n with
  | zero => rfl
  | succ n => cases n <;> rfl

theorem Reader.case_eq_none {body : Reader Block} {rest : List Token} (h : Ends goingOn rest) :
    Reader.case body rest = none := by
  unfold Reader.case
  split
  · exact absurd (ends_cons.1 h) (by simp [goingOn])
  · exact absurd (ends_cons.1 h) (by simp [goingOn])
  · rfl

/-! ### Statements -/

/-- Within the bound, the tokens of the statement are read as what its written form tells of it. -/
def Stmt.ReadWithin (stmt : Stmt) (n : Nat) : Prop :=
  Takes (Reader.stmt n) (Ends goingOn) stmt.tokens stmt.written

/-- Within the bound, the tokens of the case are read as what its written form tells of it. -/
def Case.ReadWithin (case : Case) (n : Nat) : Prop :=
  Takes (Reader.case (Reader.block (Reader.stmt n) n)) (fun _ => True) case.tokens case.written

/-- Within the bound, the tokens of the block are read as what its written form tells of it. -/
def Block.ReadWithin (block : Block) (n : Nat) : Prop :=
  Takes (Reader.block (Reader.stmt n) n) (fun _ => True) block.tokens block.written

namespace Stmt

theorem takes_expression (e : Expr) (span : Span) :
    ∀ᶠ n in atTop, (expression e span).ReadWithin n := by
  refine eventually_of_succ ?_
  filter_upwards [e.takes] with n he rest hrest
  have hread := he rest (hrest.mono (by simp [goingOn]))
  rw [tokens, Reader.stmt_of_name_or_literal, Reader.assignment_expr e hrest, hread]
  · rfl
  · cases e <;> simp [Expr.tokens, Literal.token]

theorem takes_assign {targets : List Identifier} (hne : targets ≠ []) (value? : Option Expr)
    (span : Span) : ∀ᶠ n in atTop, (assign targets value? span).ReadWithin n := by
  refine eventually_of_succ ?_
  filter_upwards [Takes.assignment hne value? span] with n hread rest hrest
  rw [Reader.stmt_of_name_or_literal, hread rest hrest]
  · rfl
  · obtain ⟨x, xs, rfl⟩ := List.exists_cons_of_ne_nil hne
    cases xs <;> simp [tokens]

theorem takes_declare {declared : List Binder} (hne : declared ≠ []) (value? : Option Expr)
    (span : Span) : ∀ᶠ n in atTop, (declare declared value? span).ReadWithin n := by
  refine eventually_of_succ ?_
  filter_upwards [Takes.assigned value?, eventually_ge_atTop declared.length] with n hvalue hlength
    rest hrest
  have hends : EndsBinder (Expr.assignedTokens value? ++ rest) ∧
      Ends [.mark .comma] (Expr.assignedTokens value? ++ rest) := by
    cases value? with
    | none => exact ⟨hrest.endsBinder (by simp [goingOn]), hrest.mono (by simp [goingOn])⟩
    | some e => exact ⟨nofun, by simp [Expr.assignedTokens]⟩
  have hdeclared := Takes.declared hne hlength _ hends
  simp [tokens, Reader.stmt, hdeclared, hvalue rest hrest]

theorem takes_function {parameters results : List Binder} {body : Block} (name : Name)
    (h : ∀ᶠ n in atTop, body.ReadWithin n) (span : Span) :
    ∀ᶠ n in atTop, (function name parameters results body span).ReadWithin n := by
  refine eventually_of_succ ?_
  filter_upwards [h, eventually_ge_atTop parameters.length, eventually_ge_atTop results.length]
    with n hbody hparameters hresults rest _
  have hresults := Takes.results hresults _ (body.ends_tokens (by simp) rest)
  have hparameters :=
    Takes.parameters hparameters (resultTokens results ++ (body.tokens ++ rest)) trivial
  simp [tokens, signatureTokens, Reader.stmt, hparameters, hresults, hbody rest trivial]

/-- The cases of a switch are read up to what no case starts with. -/
theorem takes_switch {cases : List Case} (scrutinee : Expr)
    (h : ∀ᶠ n in atTop, ∀ case ∈ cases, case.ReadWithin n) (span : Span) :
    ∀ᶠ n in atTop, (switch scrutinee cases span).ReadWithin n := by
  refine eventually_of_succ ?_
  filter_upwards [scrutinee.takes, h, eventually_gt_atTop cases.length]
    with n hscrutinee hcases hlength rest hrest
  have hscrutinee := hscrutinee _ (Case.ends_allTokens cases (hrest.mono (by simp [goingOn])))
  have hread := Takes.repeated hcases hlength (fun _ _ _ => trivial) trivial
    (Reader.case_eq_none hrest)
  rw [← Case.allTokens_eq_flatMap] at hread
  simp [tokens, Reader.stmt, hscrutinee, hread]

end Stmt

/-- The statements of a block are read up to the brace that closes it. -/
theorem Block.takes_mk {stmts : List Stmt} (hlegible : Stmt.allLegible stmts = true)
    (h : ∀ᶠ n in atTop, ∀ stmt ∈ stmts, stmt.ReadWithin n) (span : Span) :
    ∀ᶠ n in atTop, (Block.mk stmts span).ReadWithin n := by
  filter_upwards [h, eventually_gt_atTop stmts.length] with n hstmts hlength rest _
  have hnext : ∀ stmt ∈ stmts, ∀ rest, Ends goingOn (stmt.tokens ++ rest) :=
    fun stmt hmem => Stmt.ends_tokens (Stmt.allLegible_iff.1 hlegible stmt hmem)
  have hread := Takes.repeated hstmts hlength hnext (by simp [goingOn])
    (Reader.stmt_closeBrace n rest)
  rw [← Stmt.allTokens_eq_flatMap] at hread
  simp [Block.tokens, Reader.block, hread]

mutual

theorem Stmt.takes : ∀ stmt : Stmt, stmt.isLegible = true → ∀ᶠ n in atTop, stmt.ReadWithin n
  | .expression e span, _ => Stmt.takes_expression e span
  | .assign targets value? span, h => by
      simp only [Stmt.isLegible, Bool.and_eq_true, Bool.not_eq_true',
        List.isEmpty_eq_false_iff] at h
      exact Stmt.takes_assign h.1.1 value? span
  | .declare declared value? span, h => by
      simp only [Stmt.isLegible, Bool.and_eq_true, Bool.not_eq_true',
        List.isEmpty_eq_false_iff] at h
      exact Stmt.takes_declare h.1.1 value? span
  | .ifThen condition body span, h => by
      refine eventually_of_succ ?_
      filter_upwards [condition.takes, body.takes (Bool.and_eq_true_iff.1 h).2]
        with n hcondition hbody rest _
      have hcondition := hcondition _ (body.ends_tokens (by simp) rest)
      simp [Stmt.tokens, Reader.stmt, hcondition, hbody rest trivial]
  | .switch scrutinee cases span, h =>
      Stmt.takes_switch scrutinee (Case.takes_all cases (Bool.and_eq_true_iff.1 h).2) span
  | .forLoop initial condition post body span, h => by
      simp only [Stmt.isLegible, Bool.and_eq_true] at h
      obtain ⟨⟨⟨hinitial, _⟩, hpost⟩, hbody⟩ := h
      refine eventually_of_succ ?_
      filter_upwards [initial.takes hinitial, condition.takes, post.takes hpost, body.takes hbody]
        with n hinitial hcondition hpost hbody rest _
      have hcondition := hcondition _ (post.ends_tokens (by simp) (body.tokens ++ rest))
      simp [Stmt.tokens, Reader.stmt, hinitial _ trivial, hcondition, hpost _ trivial,
        hbody rest trivial]
  | .function name parameters results body span, h =>
      Stmt.takes_function name (body.takes (Bool.and_eq_true_iff.1 h).2) span
  | .breakLoop _, _ => eventually_of_succ (.of_forall fun _ _ _ => rfl)
  | .continueLoop _, _ => eventually_of_succ (.of_forall fun _ _ _ => rfl)
  | .block body, h => by
      refine eventually_of_succ ?_
      filter_upwards [body.takes h] with n hbody rest _
      have hstmt : Reader.stmt (n + 1) (body.tokens ++ rest) =
          (Reader.block (Reader.stmt n) n (body.tokens ++ rest)).map
            fun (body, rest) => (.block body, rest) := by
        cases body
        rfl
      simp [Stmt.tokens, hstmt, hbody rest trivial]

theorem Stmt.takes_all : ∀ stmts : List Stmt, Stmt.allLegible stmts = true →
    ∀ᶠ n in atTop, ∀ stmt ∈ stmts, stmt.ReadWithin n
  | [], _ => .of_forall nofun
  | stmt :: stmts, h => by
      obtain ⟨hstmt, hstmts⟩ := Bool.and_eq_true_iff.1 h
      simp only [List.forall_mem_cons]
      exact (stmt.takes hstmt).and (Stmt.takes_all stmts hstmts)

theorem Case.takes : ∀ case : Case, case.isLegible = true → ∀ᶠ n in atTop, case.ReadWithin n
  | ⟨none, body, _⟩, h => by
      filter_upwards [body.takes h] with n hbody rest _
      simp [Case.tokens, Reader.case, Case.otherwise, hbody rest trivial]
  | ⟨some value, body, _⟩, h => by
      filter_upwards [body.takes (Bool.and_eq_true_iff.1 h).2] with n hbody rest _
      simp [Case.tokens, Literal.token, Reader.case, Case.ofValue, Literal.withoutSpan,
        hbody rest trivial]

theorem Case.takes_all : ∀ cases : List Case, Case.allLegible cases = true →
    ∀ᶠ n in atTop, ∀ case ∈ cases, case.ReadWithin n
  | [], _ => .of_forall nofun
  | case :: cases, h => by
      obtain ⟨hcase, hcases⟩ := Bool.and_eq_true_iff.1 h
      simp only [List.forall_mem_cons]
      exact (case.takes hcase).and (Case.takes_all cases hcases)

/-- The tokens of a legible block are read as what its written form tells of it. -/
theorem Block.takes : ∀ block : Block, block.isLegible = true →
    ∀ᶠ n in atTop, block.ReadWithin n
  | ⟨stmts, span⟩, h => Block.takes_mk h (Stmt.takes_all stmts h) span

end

/-! ### Written forms tell blocks apart -/

/-- Legible blocks are written alike if and only if they differ at most in source locations, and in
whether an instruction is used directly or called by its name. -/
theorem Block.toText_eq_iff {a b : Block} (ha : a.isLegible = true) (hb : b.isLegible = true) :
    a.toText = b.toText ↔ a.written = b.written := by
  constructor
  · intro h
    have htokens : a.tokens = b.tokens := by
      rw [← Block.lex_toText ha, ← Block.lex_toText hb, h]
    -- One bound suffices for both blocks, and within it the same tokens give one value.
    obtain ⟨n, hreada, hreadb⟩ := ((a.takes ha).and (b.takes hb)).exists
    have hread : some (a.written, []) = some (b.written, ([] : List Token)) := by
      rw [← hreada [] trivial, ← hreadb [] trivial, htokens]
    exact (Prod.mk.inj (Option.some.inj hread)).1
  · intro h
    rw [← a.toText_written, ← b.toText_written, h]

/-- A loop that stores a declared word, at some place of a source. -/
def storingLoop (store : Expr) (span : Span) : Block :=
  ⟨[.loop (.callOf "lt" [.ofName "i", .number 10]) .empty
      (.ofStatements [.declare [⟨"word", some "u256", .synthetic⟩] none .synthetic, .eval store])],
    span⟩

/-- The store as an instruction, and as a call at another place of a source: the equal texts show
that nothing else tells the two loops apart. -/
theorem Block.toText_eq_iff_storingLoop :
    let native := storingLoop (.native .sstore [.ofName "i", .ofName "word"]) .synthetic
    let called := storingLoop (.callOf "sstore" [.ofName "i", .ofName "word"]) ⟨0, 58⟩
    native.isLegible = true ∧ called.isLegible = true ∧ native.toText = called.toText ∧
      native.written = called.written ∧ native ≠ called := by
  intro native called
  have hnative : native.isLegible = true := by decide
  have hcalled : called.isLegible = true := by decide
  have htext : native.toText = called.toText := by decide
  refine ⟨hnative, hcalled, htext, (Block.toText_eq_iff hnative hcalled).1 htext, fun h => ?_⟩
  exact absurd (congrArg Block.span h) (by decide)

end StorageFlow
