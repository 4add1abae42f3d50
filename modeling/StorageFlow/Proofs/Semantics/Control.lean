import StorageFlow.Effect.Exit
import StorageFlow.Proofs.Semantics.Frame

/-!
# StorageFlow.Proofs.Semantics.Control

All ways that control may take through a program.

* `Ways` — from a state, how control leaves a part of a program, and in which state.
* `Behaviour` — what operations do, and how variables and scopes change a state. Nothing is asked
  of any of them.
* `Expr.ways`, `Stmt.ways`, `Block.ways` — the ways through a tree: arguments may be evaluated in
  any order, conditions may turn out either way, any case may be selected, and a loop may have any
  number of rounds.
* `Stmt.Reaches` — control comes to a position in a list of statements.
* `Behaviour.ofModel`, `Stmt.ways_of_exec` — what a model runs to its end takes one of these ways.

Words play no part here. A program has more ways than runs, as a condition has a word in each run;
what holds of all ways holds of all runs.
-/

namespace StorageFlow

/-- The ways through a part of a program: from a state, how control leaves it, and the state then. -/
abbrev Ways (σ : Type) := σ → Exit → σ → Prop

/-- How a loop is left if one of its blocks is left so, and none if the loop goes on: a `continue`
is the end of the body only, and a `break` the end of the loop. -/
def Exit.ofLoop? : Exit → Option Exit
  | .next => none
  | .continueLoop => none
  | .breakLoop => some .next
  | .halt => some .halt

namespace Ways

variable {σ : Type}

/-- Control goes on, in a state that `step` leads to. -/
def passing (step : σ → σ → Prop) : Ways σ :=
  fun s kind s' => kind = .next ∧ step s s'

/-- Control leaves in the given way, and the state stays as it is. -/
def leaving (kind : Exit) : Ways σ :=
  fun s kind' s' => kind' = kind ∧ s' = s

/-- The second part is entered where control goes on behind the first one. -/
def andThen (first second : Ways σ) : Ways σ :=
  fun s kind s'' =>
    (kind ≠ .next ∧ first s kind s'') ∨ ∃ s', first s .next s' ∧ second s' kind s''

/-- One of the two parts is entered. -/
def orElse (first second : Ways σ) : Ways σ :=
  fun s kind s' => first s kind s' ∨ second s kind s'

/-- All parts are entered one after another. -/
def inTurn : List (Ways σ) → Ways σ
  | [] => leaving .next
  | first :: more => first.andThen (inTurn more)

/-- All parts are entered, in some order. -/
def inSomeOrder (parts : List (Ways σ)) : Ways σ :=
  fun s kind s' => ∃ order, order.Perm parts ∧ inTurn order s kind s'

/-- A scope around a part: it is closed however control leaves the part. -/
def inScope (closes : σ → σ → σ → Prop) (inner : Ways σ) : Ways σ :=
  fun s kind s'' => ∃ s', inner s kind s' ∧ closes s s' s''

/-- The rounds of a loop: the condition, then the body, then the post block. -/
inductive rounds (condition body post : Ways σ) : Ways σ
  | leftAtCondition {s kind s'} : condition s kind s' → rounds condition body post s kind s'
  | leftInBody {s s₁ s₂ kind kind'} : condition s .next s₁ → body s₁ kind s₂ →
      kind.ofLoop? = some kind' → rounds condition body post s kind' s₂
  | leftInPost {s s₁ s₂ s₃ kind kind' kind''} : condition s .next s₁ → body s₁ kind s₂ →
      kind.ofLoop? = none → post s₂ kind' s₃ → kind'.ofLoop? = some kind'' →
        rounds condition body post s kind'' s₃
  | again {s s₁ s₂ s₃ s₄ kind kind' kind''} : condition s .next s₁ → body s₁ kind s₂ →
      kind.ofLoop? = none → post s₂ kind' s₃ → kind'.ofLoop? = none →
        rounds condition body post s₃ kind'' s₄ → rounds condition body post s kind'' s₄

end Ways

/-- What may happen to a state where control stays. -/
structure Behaviour (σ : Type) where
  /-- An operation returns. A call of a function of the program is one operation. -/
  returns : Operation → σ → σ → Prop
  /-- An operation ends the execution. -/
  halts : Operation → σ → σ → Prop
  /-- The names get values. -/
  binds : List Name → σ → σ → Prop
  /-- The scope of the names is closed: from the states in front of it and at its end, the state
  behind it. -/
  closes : List Name → σ → σ → σ → Prop

variable {σ : Type}

/-- An operation returns, or it ends the execution. -/
def Behaviour.operation (B : Behaviour σ) (op : Operation) : Ways σ :=
  fun s kind s' => (kind = .next ∧ B.returns op s s') ∨ (kind = .halt ∧ B.halts op s s')

mutual

/-- The ways through an expression: through its arguments first. -/
def Expr.ways (B : Behaviour σ) : Expr → Ways σ
  | .literal _ => .leaving .next
  | .identifier _ => .leaving .next
  | .call callee arguments _ =>
      (Ways.inSomeOrder (Expr.waysAll B arguments)).andThen (B.operation (.call callee.name))
  | .instruction operator arguments _ =>
      (Ways.inSomeOrder (Expr.waysAll B arguments)).andThen (B.operation (.instruction operator))

/-- The ways through each of the expressions. -/
def Expr.waysAll (B : Behaviour σ) : List Expr → List (Ways σ)
  | [] => []
  | e :: es => e.ways B :: Expr.waysAll B es

end

/-- The ways through an expression that may be absent. -/
def Expr.waysOption (B : Behaviour σ) : Option Expr → Ways σ
  | none => .leaving .next
  | some e => e.ways B

mutual

/-- The ways through a statement. -/
def Stmt.ways (B : Behaviour σ) : Stmt → Ways σ
  | .expression e _ => e.ways B
  | .assign targets value? _ =>
      (Expr.waysOption B value?).andThen (.passing (B.binds (targetNames targets)))
  | .declare declared value? _ =>
      (Expr.waysOption B value?).andThen (.passing (B.binds (declared.map Binder.name)))
  | .ifThen condition body _ =>
      (condition.ways B).andThen (.orElse (body.ways B) (.leaving .next))
  | .switch scrutinee cases _ => (scrutinee.ways B).andThen (Case.waysAny B cases)
  | .forLoop ⟨initial, _⟩ condition post body _ =>
      .inScope (B.closes (Stmt.declaredAll initial))
        ((Ways.inTurn (Stmt.waysAll B initial)).andThen
          (.rounds (condition.ways B) (body.ways B) (post.ways B)))
  | .function _ _ _ _ _ => .leaving .next
  | .breakLoop _ => .leaving .breakLoop
  | .continueLoop _ => .leaving .continueLoop
  | .block body => body.ways B

/-- The ways through each of the statements. -/
def Stmt.waysAll (B : Behaviour σ) : List Stmt → List (Ways σ)
  | [] => []
  | stmt :: stmts => stmt.ways B :: Stmt.waysAll B stmts

/-- The ways through the body of any of the cases, and past all of them. -/
def Case.waysAny (B : Behaviour σ) : List Case → Ways σ
  | [] => .leaving .next
  | ⟨_, body, _⟩ :: cases => .orElse (body.ways B) (Case.waysAny B cases)

/-- The ways through a block. -/
def Block.ways (B : Behaviour σ) : Block → Ways σ
  | ⟨stmts, _⟩ =>
      .inScope (B.closes (Stmt.declaredAll stmts)) (Ways.inTurn (Stmt.waysAll B stmts))

end

/-- Control that enters a list of statements in state `s` comes to position `n` in state `s'`. The
position behind the last statement is the end of the list. -/
inductive Stmt.Reaches (B : Behaviour σ) : List Stmt → Nat → σ → σ → Prop
  | start {stmts s} : Reaches B stmts 0 s s
  | behind {stmt stmts n s s' s''} : stmt.ways B s .next s' → Reaches B stmts n s' s'' →
      Reaches B (stmt :: stmts) (n + 1) s s''

/-! ### Runs of a model -/

variable {dialect : Dialect} {W : Type}

/-- How control leaves a statement whose run tells so. -/
def Flow.exit : Flow → Exit
  | .next => .next
  | .breaks => .breakLoop
  | .continues => .continueLoop

theorem Flow.exit_eq_next {flow : Flow} : flow.exit = .next ↔ flow = .next := by
  cases flow <;> simp [exit]

/-- A loop goes on behind a block of it that was not left by a `break`. -/
theorem Flow.ofLoop?_exit {flow : Flow} (h : flow ≠ .breaks) : flow.exit.ofLoop? = none := by
  cases flow with
  | next => rfl
  | breaks => exact absurd rfl h
  | continues => rfl

/-- What may happen in the runs of a model, whatever calls do. -/
def Behaviour.ofModel (M : Model dialect W) : Behaviour (Env × Machine W) where
  returns op s s' :=
    s'.1 = s.1 ∧ ∃ calls words results, M.apply calls op words s.2 = .done results s'.2
  halts op s s' := s'.1 = s.1 ∧ ∃ calls words, M.apply calls op words s.2 = .halted s'.2
  binds names s s' := s'.2 = s.2 ∧ ∃ words, s'.1 = s.1.bindAll names words
  closes declared outer inner s := s = (inner.1.leave declared outer.1, inner.2)

section

variable {M : Model dialect W}

/-- One more part is entered where control goes on behind all others. -/
theorem Ways.inTurn_concat {parts : List (Ways σ)} {last : Ways σ} {s s' s'' : σ}
    (h : inTurn parts s .next s') (hlast : last s' .next s'') :
    inTurn (parts ++ [last]) s .next s'' := by
  induction parts generalizing s with
  | nil =>
      obtain ⟨-, rfl⟩ := h
      exact .inr ⟨s'', hlast, rfl, rfl⟩
  | cons first parts ih =>
      rcases h with ⟨hkind, -⟩ | ⟨s₁, hfirst, hrest⟩
      · exact absurd rfl hkind
      · exact .inr ⟨s₁, hfirst, ih hrest⟩

mutual

/-- An expression that is evaluated leaves the variables as they are, and control goes on. -/
theorem Expr.ways_of_eval : ∀ (e : Expr) {calls : Calls W} {env : Env} {m m' : Machine W}
    {words : List Word}, e.eval M calls env m = .done words m' →
      e.ways (.ofModel M) (env, m) .next (env, m')
  | .literal _, _, _, _, _, _, h => by
      cases h
      exact ⟨rfl, rfl⟩
  | .identifier _, _, _, _, _, _, h => by
      obtain ⟨_, _, _, rfl⟩ := Expr.eval_identifier_eq_done h
      exact ⟨rfl, rfl⟩
  | .call _ arguments _, _, _, _, _, _, h => by
      obtain ⟨words, m₁, harguments, hop⟩ := Outcome.andThen_eq_done.1 h
      exact .inr ⟨_, Expr.waysAll_of_evalAll arguments harguments, .inl ⟨rfl, rfl, _, _, _, hop⟩⟩
  | .instruction _ arguments _, _, _, _, _, _, h => by
      obtain ⟨words, m₁, harguments, hop⟩ := Outcome.andThen_eq_done.1 h
      exact .inr ⟨_, Expr.waysAll_of_evalAll arguments harguments, .inl ⟨rfl, rfl, _, _, _, hop⟩⟩

theorem Expr.waysAll_of_evalAll : ∀ (es : List Expr) {calls : Calls W} {env : Env}
    {m m' : Machine W} {words : List Word}, Expr.evalAll M calls env es m = .done words m' →
      Ways.inSomeOrder (Expr.waysAll (.ofModel M) es) (env, m) .next (env, m')
  | [], _, _, _, _, _, h => by
      cases h
      exact ⟨[], .refl _, rfl, rfl⟩
  | e :: es, _, _, _, _, _, h => by
      rcases Expr.evalAll_cons_eq_done h with ⟨_, _, _, ⟨m₁, he, hes⟩ | ⟨m₁, hes, he⟩⟩
      · obtain ⟨order, hperm, hes⟩ := Expr.waysAll_of_evalAll es hes
        exact ⟨_, hperm.cons _, .inr ⟨_, e.ways_of_eval he, hes⟩⟩
      · obtain ⟨order, hperm, hes⟩ := Expr.waysAll_of_evalAll es hes
        exact ⟨_, (List.perm_append_singleton _ _).trans (hperm.cons _),
          Ways.inTurn_concat hes (e.ways_of_eval he)⟩

end

/-- The rounds of a loop in a run are rounds of its ways, if its parts run along their ways. -/
theorem Ways.rounds_of_iterate {condition : Env → Machine W → Outcome W (List Word)}
    {body post : Env → Machine W → Outcome W (Flow × Env)} {atHead inBody inPost : Ways _}
    (hcondition : ∀ {env m words m'}, condition env m = .done words m' →
      atHead (env, m) .next (env, m'))
    (hbody : ∀ {env m flow env' m'}, body env m = .done (flow, env') m' →
      inBody (env, m) flow.exit (env', m'))
    (hpost : ∀ {env m flow env' m'}, post env m = .done (flow, env') m' →
      inPost (env, m) flow.exit (env', m'))
    {n : Nat} {env env' : Env} {m m' : Machine W} {flow : Flow}
    (h : iterate condition body post n env m = .done (flow, env') m') :
    rounds atHead inBody inPost (env, m) flow.exit (env', m') := by
  induction n generalizing env m with
  | zero => cases h
  | succ n ih =>
      rw [iterate] at h
      obtain ⟨word, m₁, hword, h⟩ := Outcome.single_eq_done.1 h
      have hhead := hcondition hword
      -- the loop ends here, behind the body or behind the post block
      split at h
      · cases h
        exact .leftAtCondition hhead
      · obtain ⟨⟨flow₁, env₁⟩, m₂, hrun, h⟩ := Outcome.andThen_eq_done.1 h
        have hinner := hbody hrun
        split at h
        next hbreaks =>
          cases h
          cases hbreaks
          exact .leftInBody hhead hinner rfl
        next hflow =>
          obtain ⟨⟨flow₂, env₂⟩, m₃, hrun, h⟩ := Outcome.andThen_eq_done.1 h
          have hagain := hpost hrun
          split at h
          next hbreaks =>
            cases h
            cases hbreaks
            exact .leftInPost hhead hinner (Flow.ofLoop?_exit hflow) hagain rfl
          next hflow' =>
            exact .again hhead hinner (Flow.ofLoop?_exit hflow) hagain (Flow.ofLoop?_exit hflow')
              (ih h)

/-- No case needs to be selected. -/
theorem Case.waysAny_past {B : Behaviour σ} {s : σ} (cases : List Case) :
    Case.waysAny B cases s .next s := by
  induction cases with
  | nil => exact ⟨rfl, rfl⟩
  | cons case cases ih =>
      obtain ⟨_, _, _⟩ := case
      exact .inr ih

mutual

/-- A statement that a model runs to its end is left in one of its ways. -/
theorem Stmt.ways_of_exec : ∀ (stmt : Stmt) {calls : Calls W} {env env' : Env} {m m' : Machine W}
    {flow : Flow}, stmt.exec M calls env m = .done (flow, env') m' →
      stmt.ways (.ofModel M) (env, m) flow.exit (env', m')
  | .expression e _, _, _, _, _, _, _, h => by
      obtain ⟨_, _, he, h⟩ := Outcome.andThen_eq_done.1 h
      cases h
      exact e.ways_of_eval he
  | .assign _ none _, _, _, _, _, _, _, h => by cases h
  | .assign _ (some e) _, _, _, _, _, _, _, h => by
      obtain ⟨words, _, he, h⟩ := Outcome.andThen_eq_done.1 h
      split at h
      next hassign =>
        cases h
        obtain ⟨-, -, rfl⟩ := Env.assign?_eq_some hassign
        exact .inr ⟨_, e.ways_of_eval he, rfl, rfl, words, rfl⟩
      next => cases h
  | .declare _ none _, _, _, _, _, _, _, h => by
      cases h
      exact .inr ⟨_, ⟨rfl, rfl⟩, rfl, rfl, _, rfl⟩
  | .declare _ (some e) _, _, _, _, _, _, _, h => by
      obtain ⟨words, _, he, h⟩ := Outcome.andThen_eq_done.1 h
      split at h
      · cases h
        exact .inr ⟨_, e.ways_of_eval he, rfl, rfl, words, rfl⟩
      · cases h
  | .ifThen condition body _, _, _, _, _, _, _, h => by
      obtain ⟨_, _, hcondition, h⟩ := Outcome.single_eq_done.1 h
      have hcondition := condition.ways_of_eval hcondition
      split at h
      · cases h
        exact .inr ⟨_, hcondition, .inr ⟨rfl, rfl⟩⟩
      · exact .inr ⟨_, hcondition, .inl (body.ways_of_exec h)⟩
  | .switch scrutinee cases _, _, _, _, _, _, _, h => by
      obtain ⟨_, _, hscrutinee, h⟩ := Outcome.single_eq_done.1 h
      have hscrutinee := scrutinee.ways_of_eval hscrutinee
      split at h
      · exact .inr ⟨_, hscrutinee, Case.ways_of_execNth cases h⟩
      · cases h
        exact .inr ⟨_, hscrutinee, Case.waysAny_past cases⟩
  | .forLoop ⟨initial, _⟩ condition post body _, _, _, _, _, _, _, h => by
      unfold Stmt.exec at h
      split at h
      next hempty =>
        obtain rfl : initial = [] := List.isEmpty_iff.1 hempty
        have hrounds := Ways.rounds_of_iterate condition.ways_of_eval body.ways_of_exec
          post.ways_of_exec h
        exact ⟨_, .inr ⟨_, ⟨rfl, rfl⟩, hrounds⟩, rfl⟩
      next => cases h
  | .function _ _ _ _ _, _, _, _, _, _, _, h => by
      cases h
      exact ⟨rfl, rfl⟩
  | .breakLoop _, _, _, _, _, _, _, h => by
      cases h
      exact ⟨rfl, rfl⟩
  | .continueLoop _, _, _, _, _, _, _, h => by
      cases h
      exact ⟨rfl, rfl⟩
  | .block body, _, _, _, _, _, _, h => body.ways_of_exec h

/-- Statements that a model runs one after another are left in one of their ways. -/
theorem Stmt.ways_of_execAll : ∀ (stmts : List Stmt) {calls : Calls W} {env env' : Env}
    {m m' : Machine W} {flow : Flow}, Stmt.execAll M calls stmts env m = .done (flow, env') m' →
      Ways.inTurn (Stmt.waysAll (.ofModel M) stmts) (env, m) flow.exit (env', m')
  | [], _, _, _, _, _, _, h => by
      cases h
      exact ⟨rfl, rfl⟩
  | stmt :: stmts, _, _, _, _, _, _, h => by
      obtain ⟨⟨flow₁, env₁⟩, m₁, hrun, h⟩ := Outcome.andThen_eq_done.1 h
      have hfirst := stmt.ways_of_exec hrun
      split at h
      next hnext =>
        cases hnext
        exact .inr ⟨_, hfirst, Stmt.ways_of_execAll stmts h⟩
      next hflow =>
        cases h
        exact .inl ⟨fun hnext => hflow (Flow.exit_eq_next.1 hnext), hfirst⟩

theorem Case.ways_of_execNth : ∀ (cases : List Case) {calls : Calls W} {n : Nat} {env env' : Env}
    {m m' : Machine W} {flow : Flow}, Case.execNth M calls cases n env m = .done (flow, env') m' →
      Case.waysAny (.ofModel M) cases (env, m) flow.exit (env', m')
  | [], _, _, _, _, _, _, _, h => by
      cases h
      exact ⟨rfl, rfl⟩
  | ⟨_, body, _⟩ :: _, _, 0, _, _, _, _, _, h => .inl (body.ways_of_exec h)
  | ⟨_, _, _⟩ :: cases, _, _ + 1, _, _, _, _, _, h => .inr (Case.ways_of_execNth cases h)

theorem Block.ways_of_exec : ∀ (block : Block) {calls : Calls W} {env env' : Env}
    {m m' : Machine W} {flow : Flow}, block.exec M calls env m = .done (flow, env') m' →
      block.ways (.ofModel M) (env, m) flow.exit (env', m')
  | ⟨stmts, _⟩, _, _, _, _, _, _, h => by
      obtain ⟨⟨flow, env₁⟩, m₁, hrun, h⟩ := Outcome.andThen_eq_done.1 h
      cases h
      exact ⟨_, Stmt.ways_of_execAll stmts hrun, rfl⟩

end

end

end StorageFlow
