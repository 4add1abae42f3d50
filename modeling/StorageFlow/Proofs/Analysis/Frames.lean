import StorageFlow.Proofs.Analysis.Shape
import StorageFlow.Proofs.Soundness.Holds

/-!
# StorageFlow.Proofs.Analysis.Frames

Which declarations the names of a program belong to.

* `Frame`, `frameOf?` — a scope with an identity of its own; the innermost visible frame that
  declares a name.
* `Resolution` — the open frames at one point on the way through a program, and where names belonged
  when the facts known there were recorded.
* `Place`, `Block.places` — where the names belong at each expression of a program, in the order of
  an analysis, and which names are declared there that get their value only behind it.
* `Faithful` — the names in facts belong where they belonged when the facts were recorded.

A value is recorded where its variable is assigned, and that drops what was known of the variable
before. So the value that is known was recorded at the last assignment on the way, and what is known
to be stored at a slot was recorded at the last store to it.
-/

namespace StorageFlow

/-! ### Frames -/

/-- An open scope. Each scope that is ever opened has an identity of its own. -/
structure Frame where
  id : Nat
  scope : Scope

/-- The innermost visible frame that declares a name. -/
def frameOf? : List Frame → Name → Option Nat
  | [], _ => none
  | frame :: outer, x =>
    if frame.scope.names.contains x then some frame.id
    else if frame.scope.isBoundary then none else frameOf? outer x

/-- The frames with more names in the innermost one. -/
def declareIn (names : List Name) : List Frame → List Frame
  | [] => []
  | frame :: outer =>
    { frame with
      scope := { frame.scope with names := frame.scope.names.insertMany names } } :: outer

@[simp] theorem scope_declareIn (names : List Name) (frames : List Frame) :
    (declareIn names frames).map Frame.scope =
      Analysis.addNames names (frames.map Frame.scope) := by
  cases frames <;> rfl

@[simp] theorem id_declareIn (names : List Name) (frames : List Frame) :
    (declareIn names frames).map Frame.id = frames.map Frame.id := by
  cases frames <;> rfl

/-- A declaration does not change where other names belong. -/
theorem frameOf?_declareIn_of_not_mem {names : List Name} {x : Name} (h : x ∉ names)
    (frames : List Frame) : frameOf? (declareIn names frames) x = frameOf? frames x := by
  cases frames with
  | nil => rfl
  | cons frame outer => simp [declareIn, frameOf?, h]

/-- A name is visible where some frame declares it. -/
theorem isSome_frameOf? (frames : List Frame) (x : Name) :
    (frameOf? frames x).isSome =
      (visibleScopes (frames.map Frame.scope)).any fun scope => scope.names.contains x := by
  induction frames with
  | nil => rfl
  | cons frame outer ih =>
      rw [frameOf?, List.map_cons, visibleScopes, List.any_cons]
      cases frame.scope.names.contains x with
      | true => rfl
      | false => cases frame.scope.isBoundary <;> simp [ih]

theorem id_mem_of_frameOf? {frames : List Frame} {x : Name} {id : Nat}
    (h : frameOf? frames x = some id) : id ∈ frames.map Frame.id := by
  induction frames with
  | nil => cases h
  | cons frame outer ih =>
      rw [frameOf?] at h
      split at h
      · cases h
        exact List.mem_cons_self
      · split at h
        · cases h
        · exact List.mem_cons_of_mem _ (ih h)

/-! ### The way through a program -/

/-- Where names belong at one point on the way through a program, and where they belonged when the
facts known there were recorded. -/
structure Resolution where
  /-- The open frames, innermost first. -/
  frames : List Frame
  /-- The number of frames opened so far. -/
  opened : Nat
  /-- For each variable, where names belonged when it was assigned last. -/
  assignedAt : Name → Name → Option Nat
  /-- For each slot, where names belonged when it was stored to last. -/
  storedAt : Name → Name → Option Nat
  fresh : ∀ id ∈ frames.map Frame.id, id < opened
  distinct : (frames.map Frame.id).Nodup

namespace Resolution

/-- No scope is open and nothing was recorded. -/
def initial : Resolution where
  frames := []
  opened := 0
  assignedAt _ _ := none
  storedAt _ _ := none
  fresh := by simp
  distinct := by simp

variable (r : Resolution)

/-- The frame that a name belongs to. -/
def frame? (x : Name) : Option Nat :=
  frameOf? r.frames x

/-- Opens a frame inside the others. -/
def openFrame (isBoundary : Bool) : Resolution where
  frames := ⟨r.opened, ⟨∅, isBoundary⟩⟩ :: r.frames
  opened := r.opened + 1
  assignedAt := r.assignedAt
  storedAt := r.storedAt
  fresh id h := by
    rcases List.mem_cons.1 h with rfl | h
    · exact Nat.lt_succ_self _
    · exact Nat.lt_succ_of_lt (r.fresh id h)
  distinct := List.nodup_cons.2 ⟨fun h => Nat.lt_irrefl _ (r.fresh _ h), r.distinct⟩

/-- Closes the innermost frame. -/
def closeFrame : Resolution where
  frames := r.frames.tail
  opened := r.opened
  assignedAt := r.assignedAt
  storedAt := r.storedAt
  fresh id h := by
    rw [List.map_tail] at h
    exact r.fresh id (List.mem_of_mem_tail h)
  distinct := by
    rw [List.map_tail]
    exact r.distinct.sublist (List.tail_sublist _)

/-- Declares names in the innermost frame. -/
def declare (names : List Name) : Resolution where
  frames := declareIn names r.frames
  opened := r.opened
  assignedAt := r.assignedAt
  storedAt := r.storedAt
  fresh := by simpa using r.fresh
  distinct := by simpa using r.distinct

/-- Records an assignment. -/
def assign (names : List Name) : Resolution :=
  { r with assignedAt := fun x => if x ∈ names then r.frame? else r.assignedAt x }

/-- Records a store. -/
def store (slot : Name) : Resolution :=
  { r with storedAt := fun s => if s = slot then r.frame? else r.storedAt s }

/-- Enters a function, whose parameters and results are declared in a frame of their own. -/
def enterFunction (parameters results : List Name) : Resolution :=
  (r.openFrame true).declare (parameters ++ results)

/-- Leaves a function. Its frames are not used again. -/
def leaveFunction (inner : Resolution) : Resolution :=
  { r with
    opened := max r.opened inner.opened
    fresh := fun id h => Nat.lt_of_lt_of_le (r.fresh id h) (Nat.le_max_left _ _) }

end Resolution

/-! ### Places -/

/-- An expression in a program: where names belong in front of its statement, and the names that are
declared already but have no value yet, if it is the initialiser of a declaration. -/
structure Place where
  resolution : Resolution
  pending : List Name

namespace Place

/-- The frames that are open while the expression is analysed. -/
def frames (place : Place) : List Frame :=
  declareIn place.pending place.resolution.frames

/-- The frame that a name belongs to while the expression is analysed. -/
def frame? (place : Place) (x : Name) : Option Nat :=
  frameOf? place.frames x

/-- The expression is the initialiser of a declaration of the name, and the innermost frame did not
declare that name before. -/
def Redeclares (place : Place) (x : Name) : Prop :=
  x ∈ place.pending ∧
    ∃ frame ∈ place.resolution.frames.head?, frame.scope.names.contains x = false

/-- Only a declaration of a name changes where it belongs, while its initialiser is analysed. -/
theorem frame?_eq_iff (place : Place) (x : Name) :
    place.frame? x = place.resolution.frame? x ↔ ¬ place.Redeclares x := by
  obtain ⟨⟨frames, opened, assignedAt, storedAt, fresh, distinct⟩, pending⟩ := place
  by_cases hpending : x ∈ pending
  · cases frames with
    | nil => simp [frame?, Resolution.frame?, Place.frames, declareIn, Redeclares]
    | cons frame outer =>
        have hinner : frameOf? (declareIn pending (frame :: outer)) x = some frame.id := by
          simp [declareIn, frameOf?, hpending]
        have houter : frameOf? outer x ≠ some frame.id := fun h =>
          (List.nodup_cons.1 distinct).1 (id_mem_of_frameOf? h)
        simp only [frame?, Resolution.frame?, Place.frames, Redeclares, hinner, List.head?_cons]
        cases hnames : frame.scope.names.contains x with
        | true => simp [frameOf?, hnames]
        | false =>
            -- the name moves to the innermost frame, and no outer frame has the same identity
            have hother : (if frame.scope.isBoundary then none else frameOf? outer x) ≠
                some frame.id := by
              split
              · exact nofun
              · exact houter
            simp [frameOf?, hnames, hpending, Ne.symm hother]
  · simp [frame?, Resolution.frame?, Place.frames, Redeclares, hpending,
      frameOf?_declareIn_of_not_mem hpending]

end Place

mutual

/-- The number of expressions in an expression. -/
def Expr.count : Expr → Nat
  | .literal _ => 1
  | .identifier _ => 1
  | .call _ arguments _ => Expr.countAll arguments + 1
  | .instruction _ arguments _ => Expr.countAll arguments + 1

/-- The number of expressions in arguments. -/
def Expr.countAll : List Expr → Nat
  | [] => 0
  | e :: es => e.count + Expr.countAll es

end

/-- The places of the expressions in an expression. -/
def Expr.places (e : Expr) (r : Resolution) (pending : List Name) : List Place :=
  List.replicate e.count ⟨r, pending⟩

mutual

/-- The places of the expressions in a statement, and where names belong behind it. -/
def Stmt.places (context : Context) : Stmt → Resolution → List Place × Resolution
  | .expression e _, r =>
    match context.trackedStore? e with
    | some (slot, _) => (e.places r [], r.store slot)
    | none => (e.places r [], r)
  | .assign _ none _, r => ([], r)
  | .assign targets (some e) _, r => (e.places r [], r.assign (targetNames targets))
  | .declare declared none _, r =>
      ([], (r.declare (declared.map Binder.name)).assign (declared.map Binder.name))
  | .declare declared (some e) _, r =>
      (e.places r (declared.map Binder.name),
        (r.declare (declared.map Binder.name)).assign (declared.map Binder.name))
  | .ifThen condition body _, r =>
      (condition.places r [] ++ (body.places context r).1, (body.places context r).2)
  | .switch scrutinee cases _, r =>
      (scrutinee.places r [] ++ (Case.placesAll context cases r).1,
        (Case.placesAll context cases r).2)
  | .forLoop _ condition post body _, r =>
      (condition.places r [] ++ ((body.places context r).1 ++
          (post.places context (body.places context r).2).1),
        (post.places context (body.places context r).2).2)
  | .function _ parameters results body _, r =>
      let inner := body.places context
        (r.enterFunction (parameters.map Binder.name) (results.map Binder.name))
      (inner.1, r.leaveFunction inner.2)
  | .breakLoop _, r => ([], r)
  | .continueLoop _, r => ([], r)
  | .block body, r => body.places context r

/-- The places of the expressions in statements. -/
def Stmt.placesAll (context : Context) : List Stmt → Resolution → List Place × Resolution
  | [], r => ([], r)
  | stmt :: stmts, r =>
      ((stmt.places context r).1 ++ (Stmt.placesAll context stmts (stmt.places context r).2).1,
        (Stmt.placesAll context stmts (stmt.places context r).2).2)

/-- The places of the expressions in the bodies of cases. -/
def Case.placesAll (context : Context) : List Case → Resolution → List Place × Resolution
  | [], r => ([], r)
  | ⟨_, body, _⟩ :: cases, r =>
      ((body.places context r).1 ++ (Case.placesAll context cases (body.places context r).2).1,
        (Case.placesAll context cases (body.places context r).2).2)

/-- The places of the expressions in a block, which has a frame of its own. -/
def Block.places (context : Context) : Block → Resolution → List Place × Resolution
  | ⟨stmts, _⟩, r =>
      let inner := Stmt.placesAll context stmts (r.openFrame false)
      (inner.1, inner.2.closeFrame)

end

/-! ### Facts -/

/-- The names in facts belong where they belonged when the facts were recorded. -/
structure Faithful (k : Knowledge) (r : Resolution) : Prop where
  values : ∀ {x e}, k.value? x = some e → ∀ y ∈ e.reads, r.assignedAt x y = r.frame? y
  stored : ∀ {slot value}, k.storedAt? slot = some value → r.storedAt slot value = r.frame? value

namespace Faithful

variable {k k' : Knowledge} {r r' : Resolution} {names : List Name}

theorem empty (r : Resolution) : Faithful ∅ r where
  values h := by simp at h
  stored h := by simp at h

theorem mono (h : Faithful k r) (hsub : k'.Sub k) : Faithful k' r where
  values hx := h.values (hsub.values hx)
  stored hs := h.stored (hsub.stored hs)

/-- Facts stay faithful if the names in them stay where they are. -/
theorem frame (h : Faithful k r) (hassigned : r'.assignedAt = r.assignedAt)
    (hstored : r'.storedAt = r.storedAt) (havoids : k.Avoids names)
    (hframe : ∀ x, x ∉ names → r'.frame? x = r.frame? x) : Faithful k r' where
  values hx y hy := by
    rw [hassigned, hframe y ((havoids.values hx).2 y hy), h.values hx y hy]
  stored hs := by
    rw [hstored, hframe _ (havoids.stored hs).2, h.stored hs]

theorem declare (h : Faithful k r) (havoids : k.Avoids names) : Faithful k (r.declare names) :=
  h.frame rfl rfl havoids fun _ hx => frameOf?_declareIn_of_not_mem hx r.frames

theorem openFrame (h : Faithful k r) : Faithful k (r.openFrame false) :=
  h.frame rfl rfl k.avoids_nil fun x _ => by
    simp [Resolution.frame?, Resolution.openFrame, frameOf?]

/-- The names of a closed frame are not mentioned any more. -/
theorem closeFrame {frame : Frame} {outer : List Frame} (h : Faithful k r)
    (hframes : r.frames = frame :: outer) (hboundary : frame.scope.isBoundary = false)
    (havoids : k.Avoids frame.scope.names.toList) : Faithful k r.closeFrame :=
  h.frame rfl rfl havoids fun x hx => by
    have hx : frame.scope.names.contains x = false := by
      rw [← Bool.not_eq_true, Std.ExtTreeSet.contains_iff_mem]
      exact fun hmem => hx (Std.ExtTreeSet.mem_toList.2 hmem)
    simp [Resolution.frame?, Resolution.closeFrame, hframes, frameOf?, hboundary, hx]

/-- An assignment records its value, where nothing is known of the assigned variables any more. -/
theorem assign {dialect : Dialect} {e : Expr} (h : Faithful (k.clear names) r) :
    Faithful (k.assign dialect names e) (r.assign names) where
  values {x e'} hx y hy := by
    rcases Knowledge.value?_assign_eq_some.1 hx with ⟨⟨rfl, _⟩, rfl⟩ | ⟨_, hx⟩
    · exact congrFun (if_pos (List.mem_singleton_self x)) y
    · exact (congrFun (if_neg (Knowledge.value?_of_clear hx).2) y).trans (h.values hx y hy)
  stored {slot value} hs := by
    rw [Knowledge.storedAt?, Knowledge.storage_assign] at hs
    exact h.stored hs

theorem assignZero (h : Faithful (k.clear names) r) :
    Faithful (k.assignZero names) (r.assign names) where
  values {x e} hx y hy := by
    rw [Knowledge.value?_assignZero] at hx
    split at hx
    · cases hx
      cases hy
    next hnames => exact (congrFun (if_neg hnames) y).trans (h.values hx y hy)
  stored {slot value} hs := by
    rw [Knowledge.storedAt?, Knowledge.storage_assignZero] at hs
    exact h.stored hs

/-- A store records what is stored. -/
theorem store {prover : Simplifier} {slot value : Name} (h : Faithful k r)
    (hstore : k.store prover slot value = .ok k') : Faithful k' (r.store slot) where
  values hx := by
    rw [Knowledge.value?_store hstore] at hx
    exact h.values hx
  stored {s v} hs := by
    rcases (Knowledge.storedAt?_store_eq_some hstore).1 hs with ⟨rfl, rfl⟩ | ⟨hne, hs, _⟩
    · exact congrFun (if_pos rfl) v
    · exact (congrFun (if_neg hne) v).trans (h.stored hs)

theorem leaveFunction (h : Faithful k r) (inner : Resolution) :
    Faithful k (r.leaveFunction inner) :=
  h.frame rfl rfl k.avoids_nil fun _ _ => rfl

end Faithful

end StorageFlow
