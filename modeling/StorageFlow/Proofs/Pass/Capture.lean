import StorageFlow.Families
import StorageFlow.Proofs.Analysis.Frames
import StorageFlow.Proofs.Analysis.Recorded
import StorageFlow.Proofs.Pass.Meaning

/-!
# StorageFlow.Proofs.Pass.Capture

Which declarations the names belong to that passes write.

* `Analysis.Follows` — the scopes of an analysis are the frames of a resolution, and its facts are
  faithful.
* `Analysis.follows_analyseBlock`, `Analysis.records_places` — this holds all along an analysis, and
  the hook is called at the places of the program.
* `Pass.written_name_resolves` — a name that a pass writes belongs to another declaration than in
  the fact it was taken from exactly if that name is just being declared.
* `Pass.captured` — a program where this happens.
-/

namespace StorageFlow

variable {σ : Type}

namespace Analysis

variable {context : Context} {hook : Hook σ}

/-- The scopes of the state are those of the frames, and its facts are faithful. -/
structure Follows (s : State σ) (r : Resolution) : Prop where
  scopes : s.scopes = r.frames.map Frame.scope
  faithful : Faithful s.knowledge r

namespace Follows

variable {s s' : State σ} {r : Resolution}

theorem mono (h : Follows s r) (hscopes : s'.scopes = s.scopes)
    (hsub : s'.knowledge.Sub s.knowledge) : Follows s' r :=
  ⟨hscopes.trans h.scopes, h.faithful.mono hsub⟩

theorem forgetStorageIf (h : Follows s r) (changed : Bool) :
    Follows (s.forgetStorageIf changed) r :=
  h.mono (State.scopes_forgetStorageIf changed) (sub_forgetStorageIf changed s)

theorem clear (h : Follows s r) (names : List Name) : Follows (s.clear names) r :=
  h.mono rfl (Knowledge.sub_clear names)

theorem analyseExpr (h : Follows s r) (e : Expr) :
    Follows (analyseExpr context hook e s).state r where
  scopes := (scopes_analyseExpr e s).trans h.scopes
  faithful := by
    rw [knowledge_analyseExpr]
    exact h.faithful

theorem evaluate (h : Follows s r) (e : Expr) : Follows (evaluate context hook e s).state r :=
  (h.forgetStorageIf _).analyseExpr e

theorem store (h : Follows s r) {prover : Simplifier} {slot value : Name} {k : Knowledge}
    (hstore : s.knowledge.store prover slot value = .ok k) :
    Follows { s with knowledge := k } (r.store slot) :=
  ⟨h.scopes, h.faithful.store hstore⟩

/-- Behind a declaration its names belong to the innermost frame, and nothing else is known of
them. -/
theorem declare (h : Follows s r) {names : List Name}
    (hscopes : s'.scopes = addNames names s.scopes) (hsub : s'.knowledge.Sub s.knowledge)
    (hcoherent : s'.knowledge.Coherent context.dialect) :
    Follows (s'.clear names) (r.declare names) where
  scopes := by
    rw [State.scopes_clear, hscopes, h.scopes]
    exact (scope_declareIn names r.frames).symm
  faithful := (h.faithful.mono ((Knowledge.sub_clear names).trans hsub)).declare
    (hcoherent.avoids_clear names)

theorem assign {names : List Name} (h : Follows (s.clear names) r) (e : Expr) :
    Follows (s.assign context names e) (r.assign names) :=
  ⟨h.scopes, h.faithful.assign⟩

theorem assignZero {names : List Name} (h : Follows (s.clear names) r) :
    Follows (s.assignZero names) (r.assign names) :=
  ⟨h.scopes, h.faithful.assignZero⟩

theorem openScope (h : Follows s r) : Follows (s.openScope false) (r.openFrame false) where
  scopes := congrArg (Scope.mk ∅ false :: ·) h.scopes
  faithful := h.faithful.openFrame

theorem closeScope (h : Follows s r) (hcoherent : s.knowledge.Coherent context.dialect)
    {scope : Scope} {outer : List Scope} (hscopes : s.scopes = scope :: outer)
    (hboundary : scope.isBoundary = false) : Follows s.closeScope r.closeFrame := by
  have hframes := hscopes.symm.trans h.scopes
  cases hr : r.frames with
  | nil => simp [hr] at hframes
  | cons frame frames =>
      rw [hr, List.map_cons, List.cons.injEq] at hframes
      obtain ⟨rfl, rfl⟩ := hframes
      refine ⟨?_, ?_⟩
      · rw [State.scopes_closeScope, h.scopes, ← List.map_tail]
        rfl
      · unfold State.closeScope
        rw [hscopes]
        exact (h.faithful.mono (Knowledge.sub_clear _)).closeFrame hr hboundary
          (hcoherent.avoids_clear _)

/-- Nothing is known at the start of a function that mentions a name. -/
theorem enterFunction (h : Follows s r) (parameters results : List Name) :
    Follows (s.enterFunction parameters results) (r.enterFunction parameters results) where
  scopes := by
    rw [State.scopes_enterFunction, h.scopes]
    exact (scope_declareIn (parameters ++ results) (r.openFrame true).frames).symm
  faithful := by
    refine ⟨fun {x e} hx y hy => ?_, fun {slot value} hs => ?_⟩
    · rcases value?_declareResults hx with ⟨_, rfl⟩ | hx
      · cases hy
      · rw [knowledge_declare] at hx
        cases hx
    · have hs := storedAt?_declareResults hs
      rw [knowledge_declare] at hs
      cases hs

theorem leaveFunction (h : Follows s r) {inner : State σ} {scope : Scope}
    (hscopes : inner.scopes = scope :: s.scopes) (inside : Resolution) :
    Follows (inner.leaveFunction s.knowledge) (r.leaveFunction inside) where
  scopes := by
    have hscopes' : (inner.leaveFunction s.knowledge).scopes = inner.scopes.tail :=
      State.scopes_closeScope
    rw [hscopes', hscopes]
    exact h.scopes
  faithful := h.faithful.leaveFunction inside

end Follows

/-! ### All along an analysis -/

mutual

theorem follows_analyseStmt : ∀ (stmt : Stmt) {s : State σ} {r : Resolution},
    (analyseStmt context hook stmt s).error? = none → s.knowledge.Coherent context.dialect →
      Follows s r → Follows (analyseStmt context hook stmt s).state (stmt.places context r).2
  | .expression e _, s, r, h, hcoherent, hfollows => by
      cases htracked : context.trackedStore? e with
      | some store =>
          obtain ⟨_, k, hstore, heq⟩ := analyseStmt_trackedStore htracked h
          rw [heq]
          simp only [Stmt.places, htracked]
          rw [← knowledge_analyseExpr e s] at hstore
          exact (hfollows.analyseExpr e).store hstore
      | none =>
          obtain ⟨_, heq⟩ := analyseStmt_expression htracked h
          rw [heq]
          simp only [Stmt.places, htracked]
          exact hfollows.evaluate e
  | .assign _ none _, _, _, h, _, _ => by cases h
  | .assign targets (some e) _, _, _, h, _, hfollows => by
      obtain ⟨_, heq⟩ := analyseStmt_assign h
      rw [heq]
      exact ((hfollows.evaluate e).clear (targetNames targets)).assign _
  | .declare declared none _, s, _, _, hcoherent, hfollows => by
      rw [← knowledge_declare (declared.map Binder.name) s] at hcoherent
      exact (hfollows.declare (State.scopes_declare _) (.of_eq (knowledge_declare _ s))
        hcoherent).assignZero
  | .declare declared (some e) _, s, _, h, hcoherent, hfollows => by
      obtain ⟨_, heq⟩ := analyseStmt_declare h
      rw [heq]
      rw [← knowledge_declare (declared.map Binder.name) s] at hcoherent
      exact (hfollows.declare ((scopes_evaluate e _).trans (State.scopes_declare _))
        ((sub_evaluate e _).trans (.of_eq (knowledge_declare _ s)))
        (coherent_evaluate hcoherent)).assign _
  | .ifThen condition body _, _, _, h, hcoherent, hfollows => by
      obtain ⟨_, hb, heq⟩ := analyseStmt_ifThen h
      rw [heq]
      exact (follows_analyseBlock body hb (coherent_evaluate hcoherent)
        (hfollows.evaluate condition)).mono rfl (sub_branchEnd _ _ _)
  | .switch scrutinee cases _, _, _, h, hcoherent, hfollows => by
      obtain ⟨_, hcs, heq⟩ := analyseStmt_switch h
      rw [heq]
      exact (follows_analyseCases cases hcs (coherent_evaluate hcoherent)
        (hfollows.evaluate scrutinee)).mono (State.scopes_forgetStorageIf _) (sub_leaveCases _ _)
  | .forLoop _ condition post body _, s, r, h, hcoherent, hfollows => by
      obtain ⟨_, _, hb, hp, heq⟩ := analyseStmt_forLoop h
      have hhead : Follows (loopHead context condition post body s) r :=
        (hfollows.clear _).forgetStorageIf _
      have hcoherentBody : Knowledge.Coherent context.dialect (analyseExpr context hook condition
          (loopHead context condition post body s)).state.knowledge :=
        coherent_loopBody condition post body hcoherent
      have hbody := follows_analyseBlock body hb hcoherentBody (hhead.analyseExpr condition)
      have hpost := follows_analyseBlock post hp
        (coherent_postHead _ _ (coherent_analyseBlock body hcoherentBody))
        ((hbody.clear _).forgetStorageIf _)
      rw [heq]
      exact (hpost.clear _).forgetStorageIf _
  | .function _ parameters results body _, s, _, h, _, hfollows => by
      obtain ⟨_, heq⟩ := analyseStmt_function h
      rw [heq]
      obtain ⟨_, hscopes⟩ := scopes_functionBody (parameters.map Binder.name)
        (results.map Binder.name) body s
      exact hfollows.leaveFunction hscopes _
  | .breakLoop _, _, _, _, _, hfollows => hfollows
  | .continueLoop _, _, _, _, _, hfollows => hfollows
  | .block body, _, _, h, hcoherent, hfollows => by
      obtain ⟨hb, heq⟩ := analyseStmt_block h
      rw [heq]
      exact follows_analyseBlock body hb hcoherent hfollows

theorem follows_analyseStmts : ∀ (stmts : List Stmt) {s : State σ} {r : Resolution},
    (analyseStmts context hook stmts s).error? = none → s.knowledge.Coherent context.dialect →
      Follows s r →
      Follows (analyseStmts context hook stmts s).state (Stmt.placesAll context stmts r).2
  | [], _, _, _, _, hfollows => hfollows
  | stmt :: stmts, _, _, h, hcoherent, hfollows => by
      obtain ⟨hfirst, hrest, heq⟩ := analyseStmts_cons h
      rw [heq]
      exact follows_analyseStmts stmts hrest (coherent_analyseStmt stmt hcoherent)
        (follows_analyseStmt stmt hfirst hcoherent hfollows)

theorem follows_analyseCases : ∀ (cases : List Case) {s : State σ} {r : Resolution},
    (analyseCases context hook cases s).error? = none → s.knowledge.Coherent context.dialect →
      Follows s r →
      Follows (analyseCases context hook cases s).state (Case.placesAll context cases r).2
  | [], _, _, _, _, hfollows => hfollows
  | ⟨_, body, _⟩ :: cases, _, _, h, hcoherent, hfollows => by
      obtain ⟨hfirst, hrest, heq⟩ := analyseCases_cons h
      obtain ⟨hb, hcase⟩ := analyseCase_mk hfirst
      rw [heq]
      refine follows_analyseCases cases hrest (coherent_analyseCase _ hcoherent) ?_
      rw [hcase]
      exact (follows_analyseBlock body hb hcoherent hfollows).mono
        (State.scopes_forgetStorageIf _)
        ((sub_forgetStorageIf _ _).trans (sub_branchEnd _ _ _))

theorem follows_analyseBlock : ∀ (block : Block) {s : State σ} {r : Resolution},
    (analyseBlock context hook block s).error? = none → s.knowledge.Coherent context.dialect →
      Follows s r → Follows (analyseBlock context hook block s).state (block.places context r).2
  | ⟨stmts, _⟩, s, _, h, hcoherent, hfollows => by
      obtain ⟨hinner, heq, _⟩ := analyseBlock_mk h
      obtain ⟨_, hboundary, hscopes⟩ := scopes_inBlock stmts s
      have hend : Knowledge.Coherent context.dialect
          (analyseStmts context hook stmts (s.openScope false)).state.knowledge :=
        coherent_analyseStmts stmts hcoherent
      rw [heq]
      exact (follows_analyseStmts stmts hinner hcoherent hfollows.openScope).closeScope hend
        hscopes hboundary

end

/-! ### The calls of a hook -/

/-- What a hook is shown at a place: the scopes are those of the open frames, and the facts are
faithful to where names belong in front of the statement. -/
def Placed (call : View × Expr) (place : Place) : Prop :=
  call.1.scopes = visibleScopes (place.frames.map Frame.scope) ∧
    Faithful call.1.knowledge place.resolution

/-- An operation is analysed behind its arguments, at the same place. -/
theorem records_operation_at {e : Expr} {op : Operation} (hroot : e.root? = some op)
    {s : State (σ × Hook.Log)} {place : Place}
    (hscopes : s.scopes = place.frames.map Frame.scope)
    (hfaithful : Faithful s.knowledge place.resolution)
    (harguments : Records Placed s.hook.2 (List.replicate (Expr.countAll e.arguments) place)
      (analyseExprs context hook.recorded e.arguments s)) :
    Records Placed s.hook.2 (List.replicate (Expr.countAll e.arguments + 1) place)
      (analyseExpr context hook.recorded e s) := by
  rw [analyseExpr_of_root? hroot, List.replicate_succ']
  refine harguments.andThen fun _ => records_callHook ?_
  rw [← scopes_analyseExprs e.arguments s] at hscopes
  rw [← knowledge_analyseExprs e.arguments s] at hfaithful
  exact ⟨congrArg visibleScopes hscopes, hfaithful⟩

mutual

theorem records_expr : ∀ (e : Expr) {s : State (σ × Hook.Log)} {place : Place},
    s.scopes = place.frames.map Frame.scope → Faithful s.knowledge place.resolution →
      Records Placed s.hook.2 (List.replicate e.count place)
        (analyseExpr context hook.recorded e s)
  | .literal _, _, _, hscopes, hfaithful =>
      records_callHook ⟨congrArg visibleScopes hscopes, hfaithful⟩
  | .identifier _, _, _, hscopes, hfaithful =>
      records_callHook ⟨congrArg visibleScopes hscopes, hfaithful⟩
  | .call _ arguments _, _, _, hscopes, hfaithful =>
      records_operation_at rfl hscopes hfaithful (records_exprs arguments hscopes hfaithful)
  | .instruction _ arguments _, _, _, hscopes, hfaithful =>
      records_operation_at rfl hscopes hfaithful (records_exprs arguments hscopes hfaithful)

theorem records_exprs : ∀ (es : List Expr) {s : State (σ × Hook.Log)} {place : Place},
    s.scopes = place.frames.map Frame.scope → Faithful s.knowledge place.resolution →
      Records Placed s.hook.2 (List.replicate (Expr.countAll es) place)
        (analyseExprs context hook.recorded es s)
  | [], _, _, _, _ => .done rfl
  | e :: es, s, _, hscopes, hfaithful => by
      rw [Expr.countAll, ← List.replicate_append_replicate]
      refine (records_expr e hscopes hfaithful).andThen fun _ => (records_exprs es ?_ ?_).map _
      · rw [scopes_analyseExpr, hscopes]
      · rwa [knowledge_analyseExpr]

end

/-- With the names that are declared already, the scopes are those of the place. -/
theorem Follows.scopes_place {s s' : State σ} {r : Resolution} (h : Follows s r)
    {pending : List Name} (hscopes : s'.scopes = addNames pending s.scopes) :
    s'.scopes = (Place.mk r pending).frames.map Frame.scope := by
  rw [hscopes, h.scopes]
  exact (scope_declareIn pending r.frames).symm

theorem records_evaluated {s s' : State (σ × Hook.Log)} {r : Resolution} (hfollows : Follows s r)
    {pending : List Name} (hscopes : s'.scopes = addNames pending s.scopes)
    (hknowledge : s'.knowledge = s.knowledge) (e : Expr) :
    Records Placed s'.hook.2 (e.places r pending) (evaluate context hook.recorded e s') := by
  rw [← hook_forgetStorageIf (e.mayChangeStorage context.dialect)]
  refine records_expr e (hfollows.scopes_place ?_) (hfollows.faithful.mono
    ((sub_forgetStorageIf _ _).trans (.of_eq hknowledge)))
  rw [State.scopes_forgetStorageIf, hscopes]

/-- Only the initialiser of a declaration is analysed where names are pending. -/
theorem records_inPlace {s : State (σ × Hook.Log)} {r : Resolution} (hfollows : Follows s r)
    (e : Expr) : Records Placed s.hook.2 (e.places r []) (evaluate context hook.recorded e s) :=
  records_evaluated hfollows (addNames_nil _).symm rfl e

mutual

theorem records_places_stmt : ∀ (stmt : Stmt) {s : State (σ × Hook.Log)} {r : Resolution},
    s.knowledge.Coherent context.dialect → Follows s r →
      Records Placed s.hook.2 (stmt.places context r).1
        (analyseStmt context hook.recorded stmt s)
  | .expression e _, s, r, _, hfollows => by
      cases htracked : context.trackedStore? e with
      | some store =>
          simp only [analyseStmt, Stmt.places, htracked]
          exact (records_expr e (hfollows.scopes_place (addNames_nil _).symm)
            hfollows.faithful).andThen_silent fun _ s => records_attempt_store _ s _ _
      | none =>
          simp only [analyseStmt, Stmt.places, htracked]
          exact (records_inPlace hfollows e).map _
  | .assign _ none _, _, _, _, _ => .stopped
  | .assign _ (some e) _, _, _, _, hfollows =>
      (records_inPlace hfollows e).andThen_silent fun _ _ => .done rfl
  | .declare _ none _, s, _, _, _ => .done (hook_declare _ s)
  | .declare declared (some e) _, s, _, _, hfollows => by
      -- the names are in scope already, and what was known of them is not cleared yet
      rw [← hook_declare (declared.map Binder.name) s]
      exact (records_evaluated hfollows (State.scopes_declare _) (knowledge_declare _ s)
        e).andThen_silent fun _ _ => .done rfl
  | .ifThen condition body _, _, _, hcoherent, hfollows =>
      (records_inPlace hfollows condition).andThen fun _ =>
        (records_places_block body (coherent_evaluate hcoherent)
          (hfollows.evaluate condition)).andThen_silent fun _ _ => .done rfl
  | .switch scrutinee cases _, _, _, hcoherent, hfollows =>
      (records_inPlace hfollows scrutinee).andThen fun _ =>
        (records_places_cases cases (coherent_evaluate hcoherent)
          (hfollows.evaluate scrutinee)).andThen_silent fun _ _ =>
            .done (hook_forgetStorageIf _)
  | .forLoop initial condition post body _, s, r, hcoherent, hfollows => by
      unfold analyseStmt
      split
      · have hhead : Follows (loopHead context condition post body s) r :=
          (hfollows.clear _).forgetStorageIf _
        have hcoherentBody : Knowledge.Coherent context.dialect (analyseExpr context hook.recorded
            condition (loopHead context condition post body s)).state.knowledge :=
          coherent_loopBody condition post body hcoherent
        have hinside : Follows (analyseExpr context hook.recorded condition
            (loopHead context condition post body s)).state r := hhead.analyseExpr condition
        rw [← hook_loopHead condition post body s]
        refine (records_expr condition (hhead.scopes_place (addNames_nil _).symm)
          hhead.faithful).andThen fun _ => ?_
        refine (records_places_block body hcoherentBody hinside).andThen fun hb => ?_
        have hbody := follows_analyseBlock body hb hcoherentBody hinside
        rw [← hook_postHead body]
        exact (records_places_block post
          (coherent_postHead _ _ (coherent_analyseBlock body hcoherentBody))
          ((hbody.clear _).forgetStorageIf _)).andThen_silent fun _ _ =>
            .done (hook_forgetStorageIf _)
      · exact .stopped
  | .function _ parameters results body _, s, _, hcoherent, hfollows => by
      rw [← hook_enterFunction (parameters.map Binder.name) (results.map Binder.name) s]
      have hbody := records_places_block body (coherent_enterFunction _ _ hcoherent)
        (hfollows.enterFunction (parameters.map Binder.name) (results.map Binder.name))
      exact hbody.mapState (f := (·.leaveFunction s.knowledge)) hook_closeScope
  | .breakLoop _, _, _, _, _ => .done rfl
  | .continueLoop _, _, _, _, _ => .done rfl
  | .block body, _, _, hcoherent, hfollows =>
      (records_places_block body hcoherent hfollows).map _

theorem records_places_stmts : ∀ (stmts : List Stmt) {s : State (σ × Hook.Log)}
    {r : Resolution}, s.knowledge.Coherent context.dialect → Follows s r →
      Records Placed s.hook.2 (Stmt.placesAll context stmts r).1
        (analyseStmts context hook.recorded stmts s)
  | [], _, _, _, _ => .done rfl
  | stmt :: stmts, _, _, hcoherent, hfollows =>
      (records_places_stmt stmt hcoherent hfollows).andThen fun hdone =>
        (records_places_stmts stmts (coherent_analyseStmt stmt hcoherent)
          (follows_analyseStmt stmt hdone hcoherent hfollows)).map _

theorem records_places_cases : ∀ (cases : List Case) {s : State (σ × Hook.Log)}
    {r : Resolution}, s.knowledge.Coherent context.dialect → Follows s r →
      Records Placed s.hook.2 (Case.placesAll context cases r).1
        (analyseCases context hook.recorded cases s)
  | [], _, _, _, _ => .done rfl
  | ⟨value?, body, span⟩ :: cases, s, r, hcoherent, hfollows => by
      have hfirst : Records Placed s.hook.2 (body.places context r).1
          (analyseCase context hook.recorded ⟨value?, body, span⟩ s) :=
        (records_places_block body hcoherent hfollows).andThen_silent
          fun _ _ => .done (hook_forgetStorageIf _)
      refine hfirst.andThen fun hdone => ?_
      obtain ⟨hb, hcase⟩ := analyseCase_mk hdone
      refine (records_places_cases cases (coherent_analyseCase _ hcoherent) ?_).map _
      rw [hcase]
      exact (follows_analyseBlock body hb hcoherent hfollows).mono
        (State.scopes_forgetStorageIf _)
        ((sub_forgetStorageIf _ _).trans (sub_branchEnd _ _ _))

theorem records_places_block : ∀ (block : Block) {s : State (σ × Hook.Log)} {r : Resolution},
    s.knowledge.Coherent context.dialect → Follows s r →
      Records Placed s.hook.2 (block.places context r).1
        (analyseBlock context hook.recorded block s)
  | ⟨stmts, _⟩, s, r, hcoherent, hfollows => by
      have hinner : Records Placed s.hook.2 (Stmt.placesAll context stmts (r.openFrame false)).1
          (analyseStmts context hook.recorded stmts (s.openScope false)) :=
        records_places_stmts stmts hcoherent hfollows.openScope
      exact (hinner.mapState hook_closeScope).map _

end

/-- Each call of a hook in a run is made at its place. -/
theorem placed_of_recorded {program : Block} {state : σ} {i : Nat} {call : View × Expr}
    (h : (run context hook.recorded program (.initial (state, []))).state.hook.2[i]? = some call) :
    ∃ place, (program.places context .initial).1[i]? = some place ∧ Placed call place := by
  have hstart : Follows (State.initial (state, ([] : Hook.Log))) .initial :=
    ⟨rfl, Faithful.empty _⟩
  exact (records_run (records_places_block program Knowledge.coherent_empty hstart)).of_getElem? h

end Analysis

/-! ### Names that passes write -/

namespace Pass

/-- Where names belonged when the fact was recorded that a pass uses to replace an expression. -/
def factFrame? (pass : Pass) (context : Context) (r : Resolution) (e : Expr) :
    Name → Option Nat :=
  match pass with
  | copyPropagation =>
    match e.identifier? with
    | some x => r.assignedAt x.name
    | none => fun _ => none
  | loadForwarding =>
    match context.dialect.operation? e with
    | some (.sload, [.identifier slot]) => r.storedAt slot.name
    | _ => fun _ => none

/-- A name that a pass writes is visible, and belonged where it belongs in front of the statement
when the fact was recorded. -/
theorem factFrame?_of_replacement {pass : Pass} {view : View} {r : Resolution} {e replaced : Expr}
    (h : pass.replacement? view e = some replaced) (hfaithful : Faithful view.knowledge r)
    {y : Name} (hy : y ∈ replaced.reads) :
    view.isVisible y = true ∧ pass.factFrame? view.context r e y = r.frame? y := by
  cases replaces_of_replacement? h with
  | literal => cases hy
  | copy x _ known visible =>
      obtain rfl := List.mem_singleton.1 hy
      exact ⟨visible, hfaithful.values known _ (List.mem_singleton_self _)⟩
  | load slot value loads stored visible =>
      obtain rfl := List.mem_singleton.1 hy
      refine ⟨visible, ?_⟩
      simp only [factFrame?, loads]
      exact hfaithful.stored stored

/-- A name that a pass writes belongs to the declaration that it belonged to when the fact used was
recorded, unless it is written into the initialiser of a declaration of that name, in a frame that
did not declare it before. Then it belongs to that declaration, and it is captured. -/
theorem written_name_resolves (dialect : Dialect) (passes : List Pass) (program : Block)
    (counts : PassCounts) {i : Nat} {view : View} {e : Expr}
    (hcall : (Analysis.run { dialect } (hookOf passes).recorded program
      (.initial (counts, []))).state.hook.2[i]? = some (view, e)) :
    ∃ place, (program.places { dialect } .initial).1[i]? = some place ∧
      view.scopes = visibleScopes (place.frames.map Frame.scope) ∧
        ∀ (pass : Pass) (e replaced : Expr), pass.replacement? view e = some replaced →
          ∀ y ∈ replaced.reads, (place.frame? y).isSome ∧
            pass.factFrame? view.context place.resolution e y = place.resolution.frame? y ∧
              (place.frame? y = pass.factFrame? view.context place.resolution e y ↔
                ¬ place.Redeclares y) := by
  obtain ⟨place, hplace, hscopes, hfaithful⟩ := Analysis.placed_of_recorded hcall
  refine ⟨place, hplace, hscopes, fun pass e replaced hreplaced y hy => ?_⟩
  obtain ⟨hvisible, hfact⟩ := factFrame?_of_replacement hreplaced hfaithful hy
  refine ⟨?_, hfact, ?_⟩
  · -- the pass found the name visible in the scopes that it was shown
    rw [Place.frame?, isSome_frameOf?, ← hscopes]
    exact hvisible
  · rw [hfact]
    exact place.frame?_eq_iff y

/-- An inner block that declares a name anew, from a copy of the outer variable of that name. -/
def shadowing : Block :=
  .ofStatements [
    .declareAs ["a"] (some (.callOf "calldataload" [.number 0])),
    .declareAs ["b"] (some (.ofName "a")),
    .block (.ofStatements [.declareAs ["a"] (some (.ofName "b"))])]

/-- The inner initialiser is the fourth expression. The copy was made of the variable in the first
frame, and the name that is written belongs to the second one. -/
theorem shadowing_call :
    let step := Analysis.run { dialect := BuiltinTable.evm.toDialect }
      (hookOf [copyPropagation]).recorded shadowing (.initial ({}, []))
    ∃ view e place, step.state.hook.2[3]? = some (view, e) ∧
      (shadowing.places { dialect := BuiltinTable.evm.toDialect } .initial).1[3]? = some place ∧
        copyPropagation.replacement? view e = some (.ofName "a") ∧
          copyPropagation.factFrame? view.context place.resolution e "a" = some 0 ∧
            place.frame? "a" = some 1 := by
  intro step
  have hframes : (step.state.hook.2[3]?.bind fun call =>
      (shadowing.places { dialect := BuiltinTable.evm.toDialect } .initial).1[3]?.map fun place =>
        (copyPropagation.replacement? call.1 call.2,
          copyPropagation.factFrame? call.1.context place.resolution call.2 "a",
          place.frame? "a")) = some (some (.ofName "a"), some 0, some 1) := by decide +kernel
  obtain ⟨⟨view, e⟩, hcall, hframes⟩ := Option.bind_eq_some_iff.1 hframes
  obtain ⟨place, hplace, heq⟩ := Option.map_eq_some_iff.1 hframes
  simp only [Prod.mk.injEq] at heq
  exact ⟨view, e, place, hcall, hplace, heq⟩

/-- An initialiser that does not read the declared name is made into one that does. -/
theorem captured_initialiser :
    let step := Analysis.run { dialect := BuiltinTable.evm.toDialect }
      (hookOf [copyPropagation]).recorded shadowing (.initial ({}, []))
    shadowing.toText = "\x7b let a := calldataload(0) let b := a \x7b let a := b \x7d \x7d" ∧
      step.node.toText = "\x7b let a := calldataload(0) let b := a \x7b let a := a \x7d \x7d" ∧
        ∃ view e place, step.state.hook.2[3]? = some (view, e) ∧
          (shadowing.places { dialect := BuiltinTable.evm.toDialect } .initial).1[3]? = some place ∧
            copyPropagation.replacement? view e = some (.ofName "a") ∧
              place.frame? "a" ≠
                copyPropagation.factFrame? view.context place.resolution e "a" := by
  obtain ⟨view, e, place, hcall, hplace, hreplaced, hfact, hnow⟩ := shadowing_call
  refine ⟨by decide +kernel, by decide +kernel, view, e, place, hcall, hplace, hreplaced, ?_⟩
  rw [hfact, hnow]
  exact nofun

theorem written_name_resolves_shadowing :
    let step := Analysis.run { dialect := BuiltinTable.evm.toDialect }
      (hookOf [copyPropagation]).recorded shadowing (.initial ({}, []))
    ∃ view e place, step.state.hook.2[3]? = some (view, e) ∧
      (shadowing.places { dialect := BuiltinTable.evm.toDialect } .initial).1[3]? = some place ∧
        copyPropagation.replacement? view e = some (.ofName "a") ∧ place.Redeclares "a" := by
  intro step
  obtain ⟨view, e, place, hcall, hplace, hreplaced, hfact, hnow⟩ := shadowing_call
  obtain ⟨place', hplace', _, hwritten⟩ :=
    written_name_resolves BuiltinTable.evm.toDialect [copyPropagation] shadowing {} hcall
  obtain rfl := Option.some.inj (hplace.symm.trans hplace')
  obtain ⟨_, _, hiff⟩ := hwritten copyPropagation e _ hreplaced "a" (List.mem_singleton_self _)
  refine ⟨view, e, place, hcall, hplace, hreplaced, Classical.byContradiction fun hno => ?_⟩
  rw [← hiff, hfact, hnow] at hno
  cases hno

end Pass

end StorageFlow
