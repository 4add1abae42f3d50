import Mathlib.Order.Bounds.Basic
import StorageFlow.Proofs.Semantics.Control
import StorageFlow.Proofs.Semantics.Reference

/-!
# StorageFlow.Proofs.Effect.Exit

Control never passes a statement that is reported to divert it.

* `Stmt.Diverts` — the statements that control never passes, by their form.
* `firstDiversion_cases` — a list is split at the first of them, or has none.
* `Ways.Straight`, `Expr.straight` — no `break` and no `continue` comes out of an expression.
* `Stmt.Diverts.kind_of_ways` — how such a statement is left, in whatever way.
* `firstDiversion_real` — what is reported of a list of statements is so in all ways through it.
-/

namespace StorageFlow

variable {dialect : Dialect} {σ : Type} {B : Behaviour σ}

/-! ### The first diversion -/

/-- A statement that control never passes: a `break`, a `continue`, or the evaluation of an
operation that never returns. -/
inductive Stmt.Diverts (dialect : Dialect) : Stmt → Exit → Prop
  | breakLoop {span} : Diverts dialect (.breakLoop span) .breakLoop
  | continueLoop {span} : Diverts dialect (.continueLoop span) .continueLoop
  | halt {e op span} : e.root? = some op → (dialect.effectsOf op).terminates = true →
      Diverts dialect (.expression e span) .halt

/-- The positions of the statements of a list that control never passes. -/
def diversions (dialect : Dialect) (stmts : List Stmt) : Set Nat :=
  {n | ∃ stmt ∈ stmts[n]?, ∃ kind, stmt.Diverts dialect kind}

theorem Expr.terminates_iff {e : Expr} : e.terminates dialect = true ↔
    ∃ op, e.root? = some op ∧ (dialect.effectsOf op).terminates = true := by
  cases e with
  | literal _ => simp [terminates, root?]
  | identifier _ => simp [terminates, root?]
  | call callee _ _ =>
      -- a call that is not known counts as returning on both sides
      cases hcall : dialect.callEffects? callee.name <;>
        simp [terminates, root?, Dialect.effectsOf, Dialect.callEffects, hcall, Effects.unknown]
  | instruction _ _ _ => simp [terminates, root?, Dialect.effectsOf]

/-- The form of a statement tells whether it diverts control, and how. -/
theorem Stmt.diverts_iff {stmt : Stmt} {kind : Exit} :
    stmt.Diverts dialect kind ↔ stmt.exit dialect = kind ∧ kind ≠ .next := by
  constructor
  · rintro (_ | _ | ⟨hroot, hop⟩)
    · exact ⟨rfl, nofun⟩
    · exact ⟨rfl, nofun⟩
    · rw [exit, if_pos (Expr.terminates_iff.2 ⟨_, hroot, hop⟩)]
      exact ⟨rfl, nofun⟩
  · rintro ⟨rfl, hnext⟩
    cases stmt with
    | expression e _ =>
        by_cases h : e.terminates dialect = true
        · obtain ⟨op, hroot, hop⟩ := Expr.terminates_iff.1 h
          rw [exit, if_pos h]
          exact .halt hroot hop
        · rw [exit, if_neg h] at hnext
          exact absurd rfl hnext
    | breakLoop _ => exact .breakLoop
    | continueLoop _ => exact .continueLoop
    | _ => exact absurd rfl hnext

theorem Stmt.Diverts.unique {stmt : Stmt} {kind kind' : Exit} (h : stmt.Diverts dialect kind)
    (h' : stmt.Diverts dialect kind') : kind = kind' :=
  (Stmt.diverts_iff.1 h).1.symm.trans (Stmt.diverts_iff.1 h').1

theorem firstDiversion_cons_of_diverts {stmt : Stmt} {stmts : List Stmt} {kind : Exit}
    (h : stmt.Diverts dialect kind) : firstDiversion dialect (stmt :: stmts) = (kind, some 0) := by
  obtain ⟨hexit, hnext⟩ := Stmt.diverts_iff.1 h
  rw [firstDiversion, hexit]
  split
  · exact absurd rfl hnext
  · rfl

theorem firstDiversion_cons_of_not_diverts {stmt : Stmt} {stmts : List Stmt}
    (h : ∀ kind, ¬ stmt.Diverts dialect kind) :
    firstDiversion dialect (stmt :: stmts) =
      ((firstDiversion dialect stmts).1, (firstDiversion dialect stmts).2.map (· + 1)) := by
  have hexit : stmt.exit dialect = .next := by
    by_contra hexit
    exact h _ (Stmt.diverts_iff.2 ⟨rfl, hexit⟩)
  rw [firstDiversion, hexit]

/-- A list is split at the first statement that control never passes, which is the one that is
reported; or no statement diverts control, and nothing is reported. -/
theorem firstDiversion_cases (dialect : Dialect) (stmts : List Stmt) :
    (∃ front stmt back kind, stmts = front ++ stmt :: back ∧ stmt.Diverts dialect kind ∧
      (∀ earlier ∈ front, ∀ kind', ¬ earlier.Diverts dialect kind') ∧
        firstDiversion dialect stmts = (kind, some front.length)) ∨
    ((∀ stmt ∈ stmts, ∀ kind, ¬ stmt.Diverts dialect kind) ∧
      firstDiversion dialect stmts = (.next, none)) := by
  induction stmts with
  | nil => exact .inr ⟨nofun, rfl⟩
  | cons stmt stmts ih =>
      by_cases h : ∃ kind, stmt.Diverts dialect kind
      · obtain ⟨kind, hkind⟩ := h
        exact .inl ⟨[], stmt, stmts, kind, rfl, hkind, nofun, firstDiversion_cons_of_diverts hkind⟩
      · have hstmt : ∀ kind, ¬ stmt.Diverts dialect kind := not_exists.1 h
        rw [firstDiversion_cons_of_not_diverts hstmt]
        rcases ih with ⟨front, first, back, kind, rfl, hkind, hfront, hfound⟩ | ⟨hnone, hfound⟩
        · refine .inl ⟨stmt :: front, first, back, kind, rfl, hkind, ?_, by rw [hfound]; rfl⟩
          exact List.forall_mem_cons.2 ⟨hstmt, hfront⟩
        · exact .inr ⟨List.forall_mem_cons.2 ⟨hstmt, hnone⟩, by rw [hfound]; rfl⟩

/-- The first statement that control never passes stands behind those in front of it. -/
theorem isLeast_diversions {front : List Stmt} {stmt : Stmt} {kind : Exit}
    (hstmt : stmt.Diverts dialect kind)
    (hfront : ∀ earlier ∈ front, ∀ kind', ¬ earlier.Diverts dialect kind') (back : List Stmt) :
    IsLeast (diversions dialect (front ++ stmt :: back)) front.length := by
  refine ⟨⟨stmt, by simp, kind, hstmt⟩, ?_⟩
  rintro n ⟨other, hother, kind', hdiverts⟩
  by_contra hlt
  rw [List.getElem?_append_left (by omega)] at hother
  exact hfront other (List.mem_of_getElem? hother) kind' hdiverts

/-- A position is reported if and only if it is the least one of a diversion, together with how the
statement there diverts control. -/
theorem firstDiversion_eq_some_iff {stmts : List Stmt} {kind : Exit} {n : Nat} :
    firstDiversion dialect stmts = (kind, some n) ↔
      IsLeast (diversions dialect stmts) n ∧ ∃ stmt ∈ stmts[n]?, stmt.Diverts dialect kind := by
  rcases firstDiversion_cases dialect stmts with
    ⟨front, first, back, found, rfl, hfirst, hfront, hreport⟩ | ⟨hnone, hreport⟩
  · have hleast := isLeast_diversions hfirst hfront back
    have hat : (front ++ first :: back)[front.length]? = some first := by simp
    rw [hreport]
    constructor
    · rintro ⟨rfl, rfl⟩
      exact ⟨hleast, first, hat, hfirst⟩
    · rintro ⟨hn, stmt, hstmt, hkind⟩
      obtain rfl := hn.unique hleast
      obtain rfl := Option.some.inj (hat.symm.trans hstmt)
      rw [hfirst.unique hkind]
  · rw [hreport]
    constructor
    · nofun
    · rintro ⟨-, stmt, hstmt, hkind⟩
      exact absurd hkind (hnone stmt (List.mem_of_getElem? hstmt) kind)

/-- Nothing is reported if and only if no statement diverts control. -/
theorem firstDiversion_eq_none_iff {stmts : List Stmt} {kind : Exit} :
    firstDiversion dialect stmts = (kind, none) ↔
      kind = .next ∧ diversions dialect stmts = ∅ := by
  rcases firstDiversion_cases dialect stmts with
    ⟨front, first, back, found, rfl, hfirst, hfront, hreport⟩ | ⟨hnone, hreport⟩
  · have hleast := isLeast_diversions hfirst hfront back
    rw [hreport]
    constructor
    · nofun
    · rintro ⟨-, hempty⟩
      exact absurd hleast.1 (hempty ▸ Set.notMem_empty _)
  · have hempty : diversions dialect stmts = ∅ := by
      refine Set.eq_empty_of_forall_notMem ?_
      rintro n ⟨stmt, hstmt, kind', hkind⟩
      exact hnone stmt (List.mem_of_getElem? hstmt) kind' hkind
    rw [hreport, Prod.mk.injEq, eq_comm]
    simp [hempty]

/-! ### Ways through diversions -/

namespace Ways

/-- Control goes on or the execution ends: no loop is left or continued. -/
def Straight (w : Ways σ) : Prop :=
  ∀ s kind s', w s kind s' → kind = .next ∨ kind = .halt

theorem straight_leaving : Straight (leaving .next : Ways σ) := by
  rintro s kind s' ⟨rfl, -⟩
  exact .inl rfl

theorem straight_operation (op : Operation) : Straight (B.operation op) := by
  rintro s kind s' (⟨rfl, -⟩ | ⟨rfl, -⟩)
  · exact .inl rfl
  · exact .inr rfl

theorem Straight.andThen {first second : Ways σ} (h : first.Straight) (h' : second.Straight) :
    (first.andThen second).Straight := by
  rintro s kind s' (⟨-, hfirst⟩ | ⟨s₁, -, hsecond⟩)
  · exact h _ _ _ hfirst
  · exact h' _ _ _ hsecond

theorem straight_inTurn {parts : List (Ways σ)} (h : ∀ w ∈ parts, w.Straight) :
    (inTurn parts).Straight := by
  induction parts with
  | nil => exact straight_leaving
  | cons first parts ih =>
      obtain ⟨hfirst, hparts⟩ := List.forall_mem_cons.1 h
      exact hfirst.andThen (ih hparts)

theorem straight_inSomeOrder {parts : List (Ways σ)} (h : ∀ w ∈ parts, w.Straight) :
    (inSomeOrder parts).Straight := by
  rintro s kind s' ⟨order, hperm, hturn⟩
  exact straight_inTurn (fun w hw => h w (hperm.mem_iff.1 hw)) _ _ _ hturn

end Ways

namespace Expr

mutual

/-- No `break` and no `continue` comes out of an expression. -/
theorem straight (B : Behaviour σ) : ∀ e : Expr, (e.ways B).Straight
  | .literal _ => Ways.straight_leaving
  | .identifier _ => Ways.straight_leaving
  | .call _ arguments _ =>
      (Ways.straight_inSomeOrder (straightAll B arguments)).andThen (Ways.straight_operation _)
  | .instruction _ arguments _ =>
      (Ways.straight_inSomeOrder (straightAll B arguments)).andThen (Ways.straight_operation _)

theorem straightAll (B : Behaviour σ) : ∀ es : List Expr, ∀ w ∈ waysAll B es, w.Straight
  | [] => nofun
  | e :: es => List.forall_mem_cons.2 ⟨straight B e, straightAll B es⟩

end

theorem ways_of_root? {e : Expr} {op : Operation} (h : e.root? = some op) :
    e.ways B = (Ways.inSomeOrder (waysAll B e.arguments)).andThen (B.operation op) := by
  cases e with
  | literal _ => cases h
  | identifier _ => cases h
  | call _ _ _ =>
      cases h
      rfl
  | instruction _ _ _ =>
      cases h
      rfl

/-- If an operation never returns, its evaluation ends the execution, here or in an argument. -/
theorem kind_of_ways {e : Expr} {op : Operation} {kind : Exit} {s s' : σ} (hroot : e.root? = some op)
    (hop : ∀ s s', ¬ B.returns op s s') (h : e.ways B s kind s') : kind = .halt := by
  rw [ways_of_root? hroot] at h
  rcases h with ⟨hkind, harguments⟩ | ⟨_, -, ⟨-, hreturns⟩ | ⟨hhalts, -⟩⟩
  · exact (Ways.straight_inSomeOrder (straightAll B e.arguments) _ _ _ harguments).resolve_left hkind
  · exact absurd hreturns (hop _ _)
  · exact hhalts

end Expr

/-- The operations that terminate by what a dialect says never return. -/
def Behaviour.Terminates (B : Behaviour σ) (dialect : Dialect) : Prop :=
  ∀ op s s', (dialect.effectsOf op).terminates = true → ¬ B.returns op s s'

namespace Stmt

/-- A statement that diverts control is left in this way only. -/
theorem Diverts.kind_of_ways {stmt : Stmt} {kind kind' : Exit} {s s' : σ}
    (h : stmt.Diverts dialect kind) (hB : B.Terminates dialect) (hways : stmt.ways B s kind' s') :
    kind' = kind := by
  cases h with
  | breakLoop => exact hways.1
  | continueLoop => exact hways.1
  | halt hroot hop => exact Expr.kind_of_ways hroot (fun s s' => hB _ s s' hop) hways

/-- A `break` or a `continue` can always be left. -/
theorem Diverts.ways_self {stmt : Stmt} {kind : Exit} (h : stmt.Diverts dialect kind)
    (hkind : kind ≠ .halt) (s : σ) : stmt.ways B s kind s := by
  cases h with
  | breakLoop => exact ⟨rfl, rfl⟩
  | continueLoop => exact ⟨rfl, rfl⟩
  | halt _ _ => exact absurd rfl hkind

/-- Control comes to a position only behind all statements in front of it. -/
theorem Reaches.passes {stmts : List Stmt} {n i : Nat} {s s' : σ} (h : Reaches B stmts n s s')
    (hi : i < n) {stmt : Stmt} (hstmt : stmts[i]? = some stmt) :
    ∃ s₁ s₂, stmt.ways B s₁ .next s₂ := by
  induction h generalizing i with
  | start => cases hi
  | behind hfirst _ ih =>
      cases i with
      | zero =>
          cases hstmt
          exact ⟨_, _, hfirst⟩
      | succ i => exact ih (Nat.lt_of_succ_lt_succ hi) hstmt

/-- Control goes on behind a list of statements if it comes to the end of the list. -/
theorem reaches_length_iff {stmts : List Stmt} {s s' : σ} :
    Reaches B stmts stmts.length s s' ↔ Ways.inTurn (waysAll B stmts) s .next s' := by
  induction stmts generalizing s with
  | nil =>
      constructor
      · rintro ⟨⟩
        exact ⟨rfl, rfl⟩
      · rintro ⟨-, rfl⟩
        exact .start
  | cons stmt stmts ih =>
      constructor
      · rintro (_ | ⟨hfirst, hrest⟩)
        exact .inr ⟨_, hfirst, ih.1 hrest⟩
      · rintro (⟨hkind, -⟩ | ⟨s₁, hfirst, hrest⟩)
        · exact absurd rfl hkind
        · exact .behind hfirst (ih.2 hrest)

/-- Control never comes to a position behind a statement that diverts it. -/
theorem Diverts.not_reaches {stmts : List Stmt} {stmt : Stmt} {kind : Exit} {n later : Nat}
    (h : stmt.Diverts dialect kind) (hB : B.Terminates dialect) (hstmt : stmts[n]? = some stmt)
    (hlater : n < later) (s s' : σ) : ¬ Reaches B stmts later s s' := by
  intro hreaches
  obtain ⟨s₁, s₂, hways⟩ := hreaches.passes hlater hstmt
  have hkind : Exit.next = kind := h.kind_of_ways hB hways
  exact (Stmt.diverts_iff.1 h).2 hkind.symm

end Stmt

/-- What is reported of a list of statements is so in all ways through it. A position is reported
with a way to leave if and only if it is the least one at which a `break`, a `continue` or the
evaluation of a terminating operation stands, and the statement there is left in that way; nothing
is reported if and only if there is no such position. If terminating operations never return, then
control never comes to a position behind the one that is reported, it does not go on behind the
list, and the reported statement is left in the reported way alone. -/
theorem firstDiversion_real (dialect : Dialect) (stmts : List Stmt) :
    (∀ kind n, firstDiversion dialect stmts = (kind, some n) ↔
      IsLeast (diversions dialect stmts) n ∧
        ∃ stmt ∈ stmts[n]?, stmt.Diverts dialect kind) ∧
    (∀ kind, firstDiversion dialect stmts = (kind, none) ↔
      kind = .next ∧ diversions dialect stmts = ∅) ∧
    ∀ {σ : Type} (B : Behaviour σ), B.Terminates dialect →
      ∀ kind n, firstDiversion dialect stmts = (kind, some n) →
        (∀ later s s', n < later → ¬ Stmt.Reaches B stmts later s s') ∧
        (∀ s s', ¬ Ways.inTurn (Stmt.waysAll B stmts) s .next s') ∧
        ∀ stmt ∈ stmts[n]?, ∀ s, (∀ kind' s', stmt.ways B s kind' s' → kind' = kind) ∧
          (kind ≠ .halt → stmt.ways B s kind s) := by
  refine ⟨fun _ _ => firstDiversion_eq_some_iff, fun _ => firstDiversion_eq_none_iff, ?_⟩
  intro σ B hB kind n hfound
  obtain ⟨-, first, hfirst, hkind⟩ := firstDiversion_eq_some_iff.1 hfound
  have hbehind : ∀ later s s', n < later → ¬ Stmt.Reaches B stmts later s s' :=
    fun later s s' hlater => hkind.not_reaches hB hfirst hlater s s'
  refine ⟨hbehind, fun s s' hends => ?_, fun stmt hstmt s => ?_⟩
  · have hlt : n < stmts.length := (List.getElem?_eq_some_iff.1 hfirst).1
    exact hbehind _ s s' hlt (Stmt.reaches_length_iff.2 hends)
  · obtain rfl := Option.some.inj (hfirst.symm.trans hstmt)
    exact ⟨fun kind' s' hways => hkind.kind_of_ways hB hways, fun hhalt => hkind.ways_self hhalt s⟩

/-! ### The native model -/

/-- The operations of a model that terminate by what the dialect says never come to their end, so
they never return on its ways. -/
theorem Behaviour.terminates_ofModel {W : Type} {M : Model dialect W}
    (h : ∀ {op words m results m'}, (dialect.effectsOf op).terminates = true →
      M.operation op words m ≠ .done results m') : (Behaviour.ofModel M).Terminates dialect := by
  rintro op s s' hop ⟨-, calls, words, results, hreturns⟩
  have hknown : dialect.effectsOf op ≠ .unknown := by
    intro hunknown
    rw [hunknown] at hop
    cases hop
  rw [Model.apply_eq_operation hknown] at hreturns
  exact h hop hreturns

theorem Model.native_terminates {W : Type} (input : Word → Word) (depth rounds : Nat) :
    (Behaviour.ofModel (Model.native (W := W) input depth rounds)).Terminates
      BuiltinTable.evm.toDialect := by
  refine Behaviour.terminates_ofModel fun {op words m results m'} hop => ?_
  rcases effectsOf_evm op with hunknown | ⟨operator, hspelt, heffects⟩
  · rw [hunknown] at hop
    cases hop
  · rw [heffects] at hop
    have hhalts : operator.halts = true := hop
    simp [Model.native, Operation.runNative, hspelt, Instruction.run, hhalts]

/-- A list that stops in the middle: behind a branch that may break there is a `revert`, and a
`break` behind it. -/
def stoppingList : List Stmt :=
  [.assignTo ["a"] (.number 1),
    .when (.ofName "c") (.ofStatements [.breakLoop .synthetic]),
    .eval (.callOf "revert" [.number 0, .number 0]),
    .breakLoop .synthetic]

/-- The `revert` is reported, not the `break` in the branch, and a run of the native model never
comes to the end of the list. -/
theorem firstDiversion_real_stoppingList :
    firstDiversion BuiltinTable.evm.toDialect stoppingList = (.halt, some 2) ∧
      ∀ (calls : Calls Unit) (env env' : Env) (m m' : Machine Unit),
        Stmt.execAll (Model.native (fun _ => 0) 1 1) calls stoppingList env m ≠
          .done (.next, env') m' := by
  have hfound : firstDiversion BuiltinTable.evm.toDialect stoppingList = (.halt, some 2) := by
    decide +kernel
  refine ⟨hfound, fun calls env env' m m' hrun => ?_⟩
  obtain ⟨-, -, hreal⟩ := firstDiversion_real BuiltinTable.evm.toDialect stoppingList
  obtain ⟨-, hends, -⟩ := hreal _ (Model.native_terminates (fun _ => 0) 1 1) _ _ hfound
  exact hends _ _ (Stmt.ways_of_execAll _ hrun)

end StorageFlow
