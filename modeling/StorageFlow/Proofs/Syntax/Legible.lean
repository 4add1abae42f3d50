import StorageFlow.Proofs.Text.Lexing

/-!
# StorageFlow.Proofs.Syntax.Legible

The tokens of a tree.

* `Expr.isLegible`, `Block.isLegible` — names are words of their own, and so are literals.
* `Expr.tokens`, `Block.tokens` — the tokens of the written form, defined along the tree.
* `Block.lex_toText` — a legible block is written as its tokens.
-/

namespace StorageFlow

open Text

/-! ### Legible trees -/

/-- Whether the text of a literal shows its kind and its end. -/
def Literal.isLegible (literal : Literal) : Bool :=
  match literal.kind with
  | .number => isNumeral literal.text
  | .boolean => isBoolean literal.text
  | .string => isQuotable literal.text

/-- Whether the declared name and its type are names. -/
def Binder.isLegible (declared : Binder) : Bool :=
  isName declared.name && declared.type?.all isName

mutual

/-- Whether all names and literals of the expression are legible. -/
def Expr.isLegible : Expr → Bool
  | .literal value => value.isLegible
  | .identifier x => isName x.name
  | .call callee arguments _ => isName callee.name && Expr.allLegible arguments
  | .instruction _ arguments _ => Expr.allLegible arguments

/-- Whether all expressions are legible. -/
def Expr.allLegible : List Expr → Bool
  | [] => true
  | e :: es => e.isLegible && Expr.allLegible es

end

mutual

/-- Whether all names and literals of the statement are legible, and every assignment and every
declaration in it has a name to write. -/
def Stmt.isLegible : Stmt → Bool
  | .expression e _ => e.isLegible
  | .assign targets value? _ =>
      !targets.isEmpty && targets.all (fun target => isName target.name) &&
        value?.all Expr.isLegible
  | .declare declared value? _ =>
      !declared.isEmpty && declared.all Binder.isLegible && value?.all Expr.isLegible
  | .ifThen condition body _ => condition.isLegible && body.isLegible
  | .switch scrutinee cases _ => scrutinee.isLegible && Case.allLegible cases
  | .forLoop initial condition post body _ =>
      initial.isLegible && condition.isLegible && post.isLegible && body.isLegible
  | .function name parameters results body _ =>
      isName name && parameters.all Binder.isLegible && results.all Binder.isLegible &&
        body.isLegible
  | .breakLoop _ => true
  | .continueLoop _ => true
  | .block body => body.isLegible

/-- Whether all statements are legible. -/
def Stmt.allLegible : List Stmt → Bool
  | [] => true
  | stmt :: stmts => stmt.isLegible && Stmt.allLegible stmts

/-- Whether the value and the body of the case are legible. -/
def Case.isLegible : Case → Bool
  | ⟨value?, body, _⟩ => value?.all Literal.isLegible && body.isLegible

/-- Whether all cases are legible. -/
def Case.allLegible : List Case → Bool
  | [] => true
  | case :: cases => case.isLegible && Case.allLegible cases

/-- Whether all statements of the block are legible. -/
def Block.isLegible : Block → Bool
  | ⟨stmts, _⟩ => Stmt.allLegible stmts

end

theorem Stmt.allLegible_iff {stmts : List Stmt} :
    Stmt.allLegible stmts = true ↔ ∀ stmt ∈ stmts, stmt.isLegible = true := by
  induction stmts with
  | nil => simp [Stmt.allLegible]
  | cons stmt stmts ih => rw [Stmt.allLegible, Bool.and_eq_true, ih, List.forall_mem_cons]

/-! ### Tokens -/

/-- The token of a literal, quotes left out. -/
def Literal.token (literal : Literal) : Token :=
  .literal literal.kind literal.text

/-- The tokens of a declared name and its type. -/
def Binder.tokens (declared : Binder) : List Token :=
  match declared.type? with
  | some type => [.name declared.name, .mark .colon, .name type]
  | none => [.name declared.name]

/-- The tokens of a list in parentheses. -/
def parenTokens (items : List (List Token)) : List Token :=
  [.mark .openParen] ++ commaTokens items ++ [.mark .closeParen]

namespace Expr

mutual

/-- The tokens of an expression. -/
def tokens : Expr → List Token
  | .literal value => [value.token]
  | .identifier x => [.name x.name]
  | .call callee arguments _ => [.name callee.name] ++ parenTokens (tokensAll arguments)
  | .instruction operator arguments _ =>
      [.name operator.mnemonic] ++ parenTokens (tokensAll arguments)

/-- The tokens of each expression. -/
def tokensAll : List Expr → List (List Token)
  | [] => []
  | e :: es => e.tokens :: tokensAll es

end

theorem tokensAll_eq_map (es : List Expr) : tokensAll es = es.map tokens := by
  induction es with
  | nil => rfl
  | cons e es ih => rw [tokensAll, ih, List.map_cons]

/-- The tokens of the value of a declaration, if it has one. -/
def assignedTokens : Option Expr → List Token
  | some value => [.mark .colon, .mark .equals] ++ value.tokens
  | none => []

/-- The tokens of the value of an assignment, or of the note that it is missing. -/
def expectedTokens : Option Expr → List Token
  | some value => value.tokens
  | none => [.mark .less, .name "missing", .mark .greater]

end Expr

/-- The tokens of the results of a function, if it has any. -/
def resultTokens (results : List Binder) : List Token :=
  if results.isEmpty then []
  else [.mark .dash, .mark .greater] ++ commaTokens (results.map Binder.tokens)

/-- The tokens of the head of a function definition. -/
def signatureTokens (name : Name) (parameters results : List Binder) : List Token :=
  [.keyword .function, .name name] ++ parenTokens (parameters.map Binder.tokens) ++
    resultTokens results

mutual

/-- The tokens of a statement. -/
def Stmt.tokens : Stmt → List Token
  | .expression e _ => e.tokens
  | .assign targets value? _ =>
      commaTokens (targets.map fun target => [.name target.name]) ++
        [.mark .colon, .mark .equals] ++ Expr.expectedTokens value?
  | .declare declared value? _ =>
      [.keyword .declare] ++ commaTokens (declared.map Binder.tokens) ++ Expr.assignedTokens value?
  | .ifThen condition body _ => [.keyword .branch] ++ condition.tokens ++ body.tokens
  | .switch scrutinee cases _ => [.keyword .switch] ++ scrutinee.tokens ++ Case.allTokens cases
  | .forLoop initial condition post body _ =>
      [.keyword .loop] ++ initial.tokens ++ condition.tokens ++ post.tokens ++ body.tokens
  | .function name parameters results body _ =>
      signatureTokens name parameters results ++ body.tokens
  | .breakLoop _ => [.keyword .breakLoop]
  | .continueLoop _ => [.keyword .continueLoop]
  | .block body => body.tokens

/-- The tokens of statements, one after another. -/
def Stmt.allTokens : List Stmt → List Token
  | [] => []
  | stmt :: stmts => stmt.tokens ++ Stmt.allTokens stmts

/-- The tokens of a case. -/
def Case.tokens : Case → List Token
  | ⟨some value, body, _⟩ => [.keyword .case, value.token] ++ body.tokens
  | ⟨none, body, _⟩ => [.keyword .default] ++ body.tokens

/-- The tokens of cases, one after another. -/
def Case.allTokens : List Case → List Token
  | [] => []
  | case :: cases => case.tokens ++ Case.allTokens cases

/-- The tokens of a block. -/
def Block.tokens : Block → List Token
  | ⟨stmts, _⟩ => [.mark .openBrace] ++ Stmt.allTokens stmts ++ [.mark .closeBrace]

end

theorem Stmt.allTokens_eq_flatMap (stmts : List Stmt) :
    Stmt.allTokens stmts = stmts.flatMap Stmt.tokens := by
  induction stmts with
  | nil => rfl
  | cons stmt stmts ih => rw [Stmt.allTokens, ih, List.flatMap_cons]

theorem Case.allTokens_eq_flatMap (cases : List Case) :
    Case.allTokens cases = cases.flatMap Case.tokens := by
  induction cases with
  | nil => rfl
  | cons case cases ih => rw [Case.allTokens, ih, List.flatMap_cons]

/-! ### Leaves -/

theorem Instruction.isName_mnemonic (operator : Instruction) :
    isName operator.mnemonic = true := by
  cases operator <;> decide

theorem Literal.lexes {literal : Literal} (h : literal.isLegible = true) :
    Lexes literal.toText [literal.token] := by
  obtain ⟨kind, text, span⟩ := literal
  cases kind with
  | number => exact .numeral h
  | boolean => exact .boolean h
  | string => exact (Delimited.quoted h).lexes

theorem Binder.lexes {declared : Binder} (h : declared.isLegible = true) :
    Lexes declared.toText declared.tokens := by
  obtain ⟨name, type?, span⟩ := declared
  obtain ⟨hname, htype⟩ := Bool.and_eq_true_iff.1 h
  cases type? with
  | none => exact .name hname
  | some type => exact ((Lexes.name hname).separated ":" (by decide)).append_lexes (.name htype)

variable {text : String} {tokens : List Token}

/-- The tokens of a list in parentheses follow those of what stands before it. -/
theorem Lexes.append_parens {items : List String} {inner : List (List Token)}
    (htext : Lexes text tokens)
    (hitems : Lexes (StorageFlow.commaSeparated items) (commaTokens inner)) :
    Delimited (text ++ "(" ++ StorageFlow.commaSeparated items ++ ")")
      (tokens ++ parenTokens inner) := by
  have hinner := (htext.separated "(" (by decide)).append_lexes hitems
  have houter := hinner.separated ")" (by decide)
  rwa [List.append_assoc, List.append_assoc] at houter

/-! ### Expressions -/

theorem Binder.lexes_all {declared : List Binder} (h : declared.all Binder.isLegible = true) :
    Lexes (commaSeparated (declared.map Binder.toText))
      (commaTokens (declared.map Binder.tokens)) :=
  .commaSeparated fun _ hmem => Binder.lexes (List.all_eq_true.1 h _ hmem)

theorem Lexes.arguments {es : List Expr} (h : ∀ e ∈ es, Lexes e.toText e.tokens) :
    Lexes (StorageFlow.commaSeparated (Expr.textAll es)) (commaTokens (Expr.tokensAll es)) := by
  rw [Expr.textAll_eq_map, Expr.tokensAll_eq_map]
  exact .commaSeparated h

namespace Expr

mutual

theorem lexes : ∀ e : Expr, e.isLegible = true → Lexes e.toText e.tokens
  | .literal _, h => Literal.lexes h
  | .identifier _, h => .name h
  | .call _ arguments _, h => by
      obtain ⟨hcallee, harguments⟩ := Bool.and_eq_true_iff.1 h
      exact ((Lexes.name hcallee).append_parens (.arguments (lexes_all arguments harguments))).lexes
  | .instruction operator arguments _, h =>
      ((Lexes.name operator.isName_mnemonic).append_parens
        (.arguments (lexes_all arguments h))).lexes

/-- A legible expression is written as its tokens. -/
theorem lexes_all : ∀ es : List Expr, allLegible es = true → ∀ e ∈ es, Lexes e.toText e.tokens
  | [], _ => fun _ hmem => nomatch hmem
  | e :: es, h => by
      obtain ⟨he, hes⟩ := Bool.and_eq_true_iff.1 h
      exact List.forall_mem_cons.2 ⟨lexes e he, lexes_all es hes⟩

end

theorem lexes_assigned {value? : Option Expr} (h : value?.all isLegible = true) :
    Lexes (assignedText value?) (assignedTokens value?) := by
  cases value? with
  | none => exact fun _ _ => rfl
  | some e => exact (Delimited.separator " := " (by decide)).append_lexes (e.lexes h)

end Expr

/-! ### Statements -/

/-- An assignment without a value notes that it is missing. -/
theorem Lexes.append_missing (htext : Lexes text tokens) :
    Lexes (text ++ " := <missing>")
      (tokens ++ [.mark .colon, .mark .equals] ++ Expr.expectedTokens none) := by
  have hname : Lexes "missing" [.name "missing"] := .name (by decide)
  have hnote := ((Delimited.separator "<" (by decide)).append_lexes hname).separated ">" (by decide)
  have h := (htext.separated " := " (by decide)).append hnote
  rw [String.append_assoc] at h
  exact h.lexes

theorem lexes_signature {name : Name} {parameters results : List Binder}
    (hname : isName name = true) (hparameters : parameters.all Binder.isLegible = true)
    (hresults : results.all Binder.isLegible = true) :
    Lexes (signatureText name parameters results) (signatureTokens name parameters results) := by
  have hhead := ((Delimited.keyword .function).append_lexes (.name hname)).append_parens
    (Binder.lexes_all hparameters)
  unfold signatureText signatureTokens resultTokens
  split
  · rw [List.append_nil]
    exact hhead.lexes
  · rw [← List.append_assoc]
    exact (hhead.append (.separator " -> " (by decide))).append_lexes (Binder.lexes_all hresults)

theorem Stmt.apart_spacedText : ∀ stmts : List Stmt, Apart (Stmt.spacedText stmts).toList
  | [] => nofun
  | stmt :: stmts => by
      rw [Stmt.spacedText, String.append_assoc]
      exact apart_blank _

theorem Case.apart_spacedText : ∀ cases : List Case, Apart (Case.spacedText cases).toList
  | [] => nofun
  | case :: cases => by
      rw [Case.spacedText, String.append_assoc]
      exact apart_blank _

theorem Expr.apart_assignedText (value? : Option Expr) :
    Apart (Expr.assignedText value?).toList := by
  cases value? with
  | none => nofun
  | some e => exact apart_blank (":= " ++ e.toText)

mutual

theorem Stmt.lexes : ∀ stmt : Stmt, stmt.isLegible = true → Lexes stmt.toText stmt.tokens
  | .expression e _, h => e.lexes h
  | .assign targets value? _, h => by
      simp only [Stmt.isLegible, Bool.and_eq_true, List.all_eq_true] at h
      have htargets : Lexes (commaSeparated (targets.map Identifier.name))
          (commaTokens (targets.map fun target => [.name target.name])) :=
        .commaSeparated fun target hmem => .name (h.1.2 target hmem)
      cases value? with
      | none => exact htargets.append_missing
      | some e => exact (htargets.separated " := " (by decide)).append_lexes (e.lexes h.2)
  | .declare declared value? _, h => by
      simp only [Stmt.isLegible, Bool.and_eq_true] at h
      -- Without a value, what follows the statement has to end the last name.
      exact ((Delimited.keyword .declare).append_lexes (Binder.lexes_all h.1.2)).append
        (Expr.lexes_assigned h.2) (Expr.apart_assignedText value?)
  | .ifThen condition body _, h => by
      simp only [Stmt.isLegible, Bool.and_eq_true] at h
      have hhead := (Delimited.keyword .branch).append_lexes (condition.lexes h.1)
      exact hhead.append_blank.append_lexes (body.lexes h.2)
  | .switch scrutinee cases _, h => by
      simp only [Stmt.isLegible, Bool.and_eq_true] at h
      have hhead := (Delimited.keyword .switch).append_lexes (scrutinee.lexes h.1)
      exact hhead.append (Case.lexes_all cases h.2) (Case.apart_spacedText cases)
  | .forLoop initial condition post body _, h => by
      simp only [Stmt.isLegible, Bool.and_eq_true] at h
      obtain ⟨⟨⟨hinitial, hcondition⟩, hpost⟩, hbody⟩ := h
      have hhead := (Delimited.keyword .loop).append_lexes (initial.lexes hinitial)
      have hcondition := hhead.append_blank.append_lexes (condition.lexes hcondition)
      have hpost := hcondition.append_blank.append_lexes (post.lexes hpost)
      exact hpost.append_blank.append_lexes (body.lexes hbody)
  | .function name parameters results body _, h => by
      simp only [Stmt.isLegible, Bool.and_eq_true] at h
      have hhead := lexes_signature h.1.1.1 h.1.1.2 h.1.2
      exact hhead.append_blank.append_lexes (body.lexes h.2)
  | .breakLoop _, _ => .keyword .breakLoop
  | .continueLoop _, _ => .keyword .continueLoop
  | .block body, h => body.lexes h

theorem Stmt.lexes_all : ∀ stmts : List Stmt, Stmt.allLegible stmts = true →
    Lexes (Stmt.spacedText stmts) (Stmt.allTokens stmts)
  | [], _ => fun _ _ => rfl
  | stmt :: stmts, h => by
      obtain ⟨hstmt, hstmts⟩ := Bool.and_eq_true_iff.1 h
      have hspaced := Delimited.blank.append_lexes (stmt.lexes hstmt)
      exact hspaced.append (Stmt.lexes_all stmts hstmts) (Stmt.apart_spacedText stmts)

theorem Case.lexes : ∀ case : Case, case.isLegible = true → Lexes case.toText case.tokens
  | ⟨none, body, _⟩, h => (Delimited.keyword .default).append_lexes (body.lexes h)
  | ⟨some value, body, _⟩, h => by
      obtain ⟨hvalue, hbody⟩ := Bool.and_eq_true_iff.1 h
      have hhead := (Delimited.keyword .case).append_lexes (Literal.lexes hvalue)
      exact hhead.append_blank.append_lexes (body.lexes hbody)

theorem Case.lexes_all : ∀ cases : List Case, Case.allLegible cases = true →
    Lexes (Case.spacedText cases) (Case.allTokens cases)
  | [], _ => fun _ _ => rfl
  | case :: cases, h => by
      obtain ⟨hcase, hcases⟩ := Bool.and_eq_true_iff.1 h
      have hspaced := Delimited.blank.append_lexes (case.lexes hcase)
      exact hspaced.append (Case.lexes_all cases hcases) (Case.apart_spacedText cases)

/-- A legible block is written as its tokens. -/
theorem Block.lexes : ∀ block : Block, block.isLegible = true → Lexes block.toText block.tokens
  | ⟨stmts, _⟩, h => by
      have hinner := (Delimited.separator "\x7b" (by decide)).append_lexes (Stmt.lexes_all stmts h)
      exact (hinner.separated " \x7d" (by decide)).lexes

end

/-- The tokens of a legible block are those of its written form. -/
theorem Block.lex_toText {block : Block} (h : block.isLegible = true) :
    lex block.toText.toList = block.tokens := by
  have hlex := block.lexes h [] nofun
  rwa [List.append_nil, lex, List.append_nil] at hlex

end StorageFlow
