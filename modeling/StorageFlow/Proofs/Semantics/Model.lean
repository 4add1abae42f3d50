import StorageFlow.Dialect
import StorageFlow.Proofs.Syntax.Collectors

/-!
# StorageFlow.Proofs.Semantics.Model

What the operations of a program may do when it runs.

* `Word`, `Machine`, `Outcome` — words of 256 bits; storage and the world around it; how an
  evaluation ends.
* `Calls`, `Meaning` — what calls by name do, and what a function body does once they are known.
* `Model` — an interpretation of literals and operations that agrees with what a dialect says of
  them.
* `Model.Spells` — builtins act as the instructions that they stand for, and loads read storage.
* `Env` — the words that the variables of a program hold.
-/

namespace StorageFlow

/-- A word of the machine. -/
abbrev Word := BitVec 256

/-- Storage, and everything else that is not a variable. -/
structure Machine (W : Type) where
  storage : Word → Word
  world : W

/-- How an evaluation ends. -/
inductive Outcome (W α : Type)
  /-- It came to its end. -/
  | done (value : α) (machine : Machine W)
  /-- A terminating operation ended the execution. -/
  | halted (machine : Machine W)
  /-- The tree has no meaning: a name is not bound, or the number of values is wrong. -/
  | stuck
  /-- A loop was given up after the rounds that it was allowed. -/
  | exhausted

namespace Outcome

variable {W α β : Type}

/-- Goes on with `next` behind an evaluation that came to its end. -/
def andThen (outcome : Outcome W α) (next : α → Machine W → Outcome W β) : Outcome W β :=
  match outcome with
  | done value machine => next value machine
  | halted machine => halted machine
  | stuck => stuck
  | exhausted => exhausted

/-- Goes on with the only word of a result; any other number of words has no meaning. -/
def single (outcome : Outcome W (List Word)) (next : Word → Machine W → Outcome W β) :
    Outcome W β :=
  outcome.andThen fun
    | [word], machine => next word machine
    | _, _ => stuck

@[simp] theorem andThen_done (value : α) (m : Machine W) (next : α → Machine W → Outcome W β) :
    (done value m).andThen next = next value m := rfl

@[simp] theorem single_done (word : Word) (m : Machine W) (next : Word → Machine W → Outcome W β) :
    (done [word] m).single next = next word m := rfl

/-- Two evaluations one after another came to their end if each of them did. -/
theorem andThen_eq_done {outcome : Outcome W α} {next : α → Machine W → Outcome W β} {b : β}
    {m' : Machine W} :
    outcome.andThen next = done b m' ↔ ∃ a m, outcome = done a m ∧ next a m = done b m' := by
  cases outcome with
  | done a m =>
      refine ⟨fun h => ⟨a, m, rfl, h⟩, ?_⟩
      rintro ⟨_, _, ⟨⟩, h⟩
      exact h
  | halted m => simp [andThen]
  | stuck => simp [andThen]
  | exhausted => simp [andThen]

theorem single_eq_done {outcome : Outcome W (List Word)} {next : Word → Machine W → Outcome W β}
    {b : β} {m' : Machine W} :
    outcome.single next = done b m' ↔ ∃ w m, outcome = done [w] m ∧ next w m = done b m' := by
  rw [single, andThen_eq_done]
  constructor
  · rintro ⟨words, m, houtcome, hnext⟩
    split at hnext
    · exact ⟨_, m, houtcome, hnext⟩
    · cases hnext
  · rintro ⟨w, m, houtcome, hnext⟩
    exact ⟨[w], m, houtcome, hnext⟩

/-- What goes on behind an evaluation matters only where it came to its end. -/
theorem andThen_congr {outcome outcome' : Outcome W α} {next next' : α → Machine W → Outcome W β}
    (h : outcome = outcome') (hnext : ∀ a m, outcome' = done a m → next a m = next' a m) :
    outcome.andThen next = outcome'.andThen next' := by
  subst h
  cases outcome with
  | done a m => exact hnext a m rfl
  | halted m => rfl
  | stuck => rfl
  | exhausted => rfl

theorem single_congr {outcome outcome' : Outcome W (List Word)}
    {next next' : Word → Machine W → Outcome W β} (h : outcome = outcome')
    (hnext : ∀ w m, outcome' = done [w] m → next w m = next' w m) :
    outcome.single next = outcome'.single next' := by
  refine andThen_congr h fun words m hwords => ?_
  split
  · exact hnext _ m hwords
  · rfl

end Outcome

/-- What a call by name does with its argument words. -/
abbrev Calls (W : Type) := Name → List Word → Machine W → Outcome W (List Word)

/-- What a function body does with its argument words, once it is known what calls do. -/
abbrev Meaning (W : Type) := Calls W → List Word → Machine W → Outcome W (List Word)

/-- An interpretation of literals and operations that agrees with a dialect. Nothing is asked of an
operation but what the dialect says about it. -/
structure Model (dialect : Dialect) (W : Type) where
  /-- The word that a literal denotes, by its kind and its text. -/
  literal : Literal.Kind → String → Word
  /-- What an operation does with its argument words; a call only if the dialect knows it. -/
  operation : Operation → List Word → Machine W → Outcome W (List Word)
  /-- The result of a movable operation. -/
  result : Operation → List Word → List Word
  /-- Whether arguments are evaluated from left to right. -/
  leftToRight : Bool
  /-- After how many rounds a loop is given up. -/
  rounds : Nat
  /-- What calls do inside of a block that defines functions. -/
  link : List (Name × Meaning W) → Calls W → Calls W
  literal_of_toNat? : ∀ {l : Literal} {n : Nat}, l.toNat? = some n →
    literal l.kind l.text = BitVec.ofNat 256 n
  /-- The result of a movable operation depends on its argument words only. -/
  result_of_movable : ∀ {op words m results m'}, (dialect.effectsOf op).movable = true →
    operation op words m = .done results m' → results = result op words
  /-- An operation that neither clobbers storage nor writes a slot leaves storage alone. -/
  storage_unchanged : ∀ {op words m results m'}, dialect.changesStorage op = false →
    operation op words m = .done results m' → m'.storage = m.storage
  /-- An operation of two arguments that writes a slot writes the second one at the first one. -/
  storage_written : ∀ {op a b m results m'}, (dialect.effectsOf op).writesSlot = true →
    operation op [a, b] m = .done results m' →
      m'.storage = fun slot => if slot = a then b else m.storage slot

namespace Model

variable {dialect : Dialect} {W : Type}

/-- What an operation of a program does: calls of names that the dialect does not know are left to
`calls`. -/
def apply (M : Model dialect W) (calls : Calls W) (op : Operation) (words : List Word)
    (m : Machine W) : Outcome W (List Word) :=
  match op with
  | .instruction operator => M.operation (.instruction operator) words m
  | .call callee =>
    if (dialect.callEffects? callee).isSome then M.operation (.call callee) words m
    else calls callee words m

/-- Builtins act as the instructions that they stand for, and a load reads storage. -/
structure Spells (M : Model dialect W) : Prop where
  sload : ∀ a m, M.operation (.instruction .sload) [a] m = .done [m.storage a] m
  builtin : ∀ {callee builtin operator words}, dialect.builtin? callee = some builtin →
    builtin.instruction? = some operator → words.length = operator.arity →
      M.operation (.call callee) words = M.operation (.instruction operator) words

/-- An operation whose effects are unknown is one that the dialect does not know. -/
theorem apply_eq_operation {M : Model dialect W} {calls : Calls W} {op : Operation}
    (h : dialect.effectsOf op ≠ .unknown) : M.apply calls op = M.operation op := by
  cases op with
  | instruction operator => rfl
  | call callee =>
      funext words m
      refine if_pos ?_
      cases hcall : dialect.callEffects? callee with
      | some effects => rfl
      | none => simp [Dialect.effectsOf, Dialect.callEffects, hcall] at h

theorem apply_storage {M : Model dialect W} {calls : Calls W} {op : Operation} {words : List Word}
    {m m' : Machine W} {results : List Word} (hop : dialect.changesStorage op = false)
    (h : M.apply calls op words m = .done results m') : m'.storage = m.storage := by
  have hknown : dialect.effectsOf op ≠ .unknown := by
    intro hunknown
    rw [Dialect.changesStorage, hunknown] at hop
    cases hop
  rw [apply_eq_operation hknown] at h
  exact M.storage_unchanged hop h

theorem apply_movable {M : Model dialect W} {calls : Calls W} {op : Operation} {words : List Word}
    {m m' : Machine W} {results : List Word} (hop : (dialect.effectsOf op).movable = true)
    (h : M.apply calls op words m = .done results m') : results = M.result op words := by
  have hknown : dialect.effectsOf op ≠ .unknown := by
    intro hunknown
    rw [hunknown] at hop
    cases hop
  rw [apply_eq_operation hknown] at h
  exact M.result_of_movable hop h

theorem apply_store {M : Model dialect W} {calls : Calls W} {op : Operation} {a b : Word}
    {m m' : Machine W} {results : List Word} (hop : (dialect.effectsOf op).writesSlot = true)
    (h : M.apply calls op [a, b] m = .done results m') :
    m'.storage = fun slot => if slot = a then b else m.storage slot := by
  have hknown : dialect.effectsOf op ≠ .unknown := by
    intro hunknown
    rw [hunknown] at hop
    cases hop
  rw [apply_eq_operation hknown] at h
  exact M.storage_written hop h

end Model

/-! ### Variables -/

/-- The words that variables hold; a name that is not bound holds none. -/
abbrev Env := Name → Option Word

namespace Env

/-- No variable is bound. -/
def empty : Env := fun _ => none

/-- Binds a name to a word. -/
def bind (env : Env) (name : Name) (word : Word) : Env :=
  fun x => if x = name then some word else env x

/-- Binds names to words, one after another. -/
def bindAll (env : Env) : List Name → List Word → Env
  | name :: names, word :: words => (env.bind name word).bindAll names words
  | _, _ => env

/-- Binds names to zero. -/
def bindZeros (env : Env) (names : List Name) : Env :=
  env.bindAll names (names.map fun _ => 0)

/-- What names hold at the end of a block that declares `declared`: those get back what they held
outside. -/
def leave (inner : Env) (declared : List Name) (outer : Env) : Env :=
  fun x => if x ∈ declared then outer x else inner x

theorem bindAll_of_not_mem {names : List Name} {words : List Word} {env : Env} {x : Name}
    (h : x ∉ names) : env.bindAll names words x = env x := by
  induction names generalizing words env with
  | nil => rfl
  | cons name names ih =>
      rw [List.mem_cons, not_or] at h
      cases words with
      | nil => rfl
      | cons word words => rw [bindAll, ih h.2, bind, if_neg h.1]

theorem bindZeros_of_mem {names : List Name} {env : Env} {x : Name} (h : x ∈ names) :
    env.bindZeros names x = some 0 := by
  induction names generalizing env with
  | nil => cases h
  | cons name names ih =>
      rw [bindZeros, List.map_cons, bindAll]
      by_cases hmem : x ∈ names
      · exact ih hmem
      · obtain rfl : x = name := (List.mem_cons.1 h).resolve_right hmem
        rw [bindAll_of_not_mem hmem, bind, if_pos rfl]

theorem bindZeros_of_not_mem {names : List Name} {env : Env} {x : Name} (h : x ∉ names) :
    env.bindZeros names x = env x :=
  bindAll_of_not_mem h

end Env

end StorageFlow
