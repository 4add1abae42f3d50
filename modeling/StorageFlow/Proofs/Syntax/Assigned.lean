import StorageFlow.Proofs.Syntax.Collectors
import StorageFlow.Proofs.Syntax.Positions

/-!
# StorageFlow.Proofs.Syntax.Assigned

Assigned names by the positions of their assignments.

* `Node.openPositions` — the positions outside function definitions, in the order of traversal.
* `behindContinue` — the positions behind a `continue` that no loop is around.
* `Node.run_visit_assignedVisitor`, `Node.run_visit_afterContinueVisitor` — what a collector knows
  behind a node, by the open positions of the node.
* `Block.collectors_exact` — so both collectors find the names at these positions, and nothing else,
  over any number of blocks.

A collector that walks a tree has the loops around the current node only as a number, and knows
that a `continue` was passed only by a mark that stays. Both are read off the positions here.
-/

namespace StorageFlow

namespace Node

/-- Whether the node is a function definition. -/
def isFunction : Node → Bool
  | .stmt (.function _ _ _ _ _) => true
  | _ => false

/-- Whether the node is a loop. -/
def isLoop : Node → Bool
  | .stmt (.forLoop _ _ _ _ _) => true
  | _ => false

/-- Whether the node is a `continue`. -/
def isContinue : Node → Bool
  | .stmt (.continueLoop _) => true
  | _ => false

/-- The names that the node assigns itself. -/
def assigns : Node → List Name
  | .stmt (.assign targets _ _) => targetNames targets
  | _ => []

end Node

namespace Position

/-- No function definition is around the node. -/
def isOpen (position : Position) : Bool :=
  !position.around.any Node.isFunction

/-- The node is a `continue` that no loop is around. -/
def leavesTree (position : Position) : Bool :=
  position.node.isContinue && !position.around.any Node.isLoop

end Position

/-- The names that are assigned at the positions. -/
def assignedAt (positions : List Position) : List Name :=
  positions.flatMap (·.node.assigns)

/-- The positions that come behind a `continue` which no loop is around. -/
def behindContinue (positions : List Position) : List Position :=
  (positions.dropWhile fun position => !position.leavesTree).tail

/-- The positions of a node that are outside function definitions. -/
def Node.openPositions (around : List Node) (n : Node) : List Position :=
  (n.positions around).filter Position.isOpen

/-- The positions of a block that are outside function definitions. -/
def Block.openPositions (block : Block) : List Position :=
  (Node.block block).openPositions []

/-! ### Positions behind a `continue` -/

@[simp] theorem assignedAt_nil : assignedAt [] = [] := rfl

@[simp] theorem assignedAt_cons (position : Position) (positions : List Position) :
    assignedAt (position :: positions) = position.node.assigns ++ assignedAt positions := rfl

@[simp] theorem assignedAt_append (positions positions' : List Position) :
    assignedAt (positions ++ positions') = assignedAt positions ++ assignedAt positions' :=
  List.flatMap_append

theorem behindContinue_cons (position : Position) (positions : List Position) :
    behindContinue (position :: positions) =
      if position.leavesTree then positions else behindContinue positions := by
  rw [behindContinue, List.dropWhile_cons]
  cases position.leavesTree <;> rfl

theorem behindContinue_append (positions positions' : List Position) :
    behindContinue (positions ++ positions') =
      behindContinue positions ++
        if positions.any Position.leavesTree then positions' else behindContinue positions' := by
  induction positions with
  | nil => rfl
  | cons position positions ih =>
      rw [List.cons_append, behindContinue_cons, behindContinue_cons, List.any_cons]
      cases position.leavesTree with
      | true => rfl
      | false => exact ih

/-- A position comes behind a `continue` if one stands in front of it. -/
theorem mem_behindContinue {positions : List Position} {position : Position} :
    position ∈ behindContinue positions ↔
      ∃ before after, positions = before ++ position :: after ∧
        ∃ other ∈ before, other.leavesTree = true := by
  constructor
  · intro h
    induction positions with
    | nil => cases h
    | cons first positions ih =>
        rw [behindContinue_cons] at h
        split at h
        next hfirst =>
          obtain ⟨before, after, rfl⟩ := List.append_of_mem h
          exact ⟨first :: before, after, rfl, first, List.mem_cons_self, hfirst⟩
        next =>
          obtain ⟨before, after, rfl, other, hother, hleaves⟩ := ih h
          exact ⟨first :: before, after, rfl, other, List.mem_cons_of_mem _ hother, hleaves⟩
  · rintro ⟨before, after, rfl, other, hother, hleaves⟩
    rw [behindContinue_append, if_pos (List.any_eq_true.2 ⟨other, hother, hleaves⟩)]
    exact List.mem_append_right _ List.mem_cons_self

/-! ### Open positions -/

namespace Node

variable {around : List Node}

/-- What is around a node is around all nodes in it. -/
theorem mem_around_of_mem_positions {n outer : Node} {position : Position}
    (h : position ∈ n.positions around) (houter : outer ∈ around) : outer ∈ position.around := by
  induction n using Node.induction generalizing around with
  | node n ih =>
      rw [positions_eq] at h
      rcases List.mem_cons.1 h with rfl | h
      · exact houter
      · obtain ⟨child, hchild, h⟩ := List.mem_flatMap.1 h
        exact ih child hchild h (List.mem_cons_of_mem _ houter)

theorem openPositions_inside (h : around.any isFunction = true) (n : Node) :
    n.openPositions around = [] := by
  obtain ⟨function, hmem, hfunction⟩ := List.any_eq_true.1 h
  refine List.filter_eq_nil_iff.2 fun position hposition => ?_
  have hinside : position.around.any isFunction = true :=
    List.any_eq_true.2 ⟨function, mem_around_of_mem_positions hposition hmem, hfunction⟩
  simp [Position.isOpen, hinside]

/-- The open positions of a node are its own and those of its children, unless it is a function. -/
theorem openPositions_eq (h : around.any isFunction = false) (n : Node) :
    n.openPositions around = ⟨n, around⟩ :: n.children.flatMap (openPositions (n :: around)) := by
  rw [openPositions, positions_eq, List.filter_cons_of_pos (by simp [Position.isOpen, h]),
    List.filter_flatMap]
  rfl

theorem openPositions_function (h : around.any isFunction = false) {n : Node}
    (hfunction : n.isFunction = true) : n.openPositions around = [⟨n, around⟩] := by
  have hinside : (n :: around).any isFunction = true := by rw [List.any_cons, hfunction]; rfl
  rw [openPositions_eq h,
    List.flatMap_eq_nil_iff.2 fun child _ => openPositions_inside hinside child]

theorem outside_cons (hopen : around.any isFunction = false) {n : Node}
    (hplain : n.isFunction = false) : (n :: around).any isFunction = false := by
  rw [List.any_cons, hplain, hopen, Bool.or_self]

/-! ### All assigned names -/

/-- Behind a node, the names assigned at its open positions are collected. -/
theorem run_visit_assignedVisitor (n : Node) (hopen : around.any isFunction = false)
    (found : List Name) :
    (n.visit assignedVisitor).run found =
      ((), appendAllNew found (assignedAt (n.openPositions around))) := by
  induction n using Node.induction generalizing around found with
  | node n ih =>
      have hchildren (hplain : n.isFunction = false) (found : List Name) :
          (n.children.forM (visit assignedVisitor)).run found =
            ((), appendAllNew found
              (assignedAt (n.children.flatMap (openPositions (n :: around))))) := by
        refine run_forM_visit (openPositions (n :: around))
          (fun found positions => appendAllNew found (assignedAt positions)) (fun _ => True)
          (fun _ => rfl) ?_ (fun _ _ h => h)
          (fun child hmem found _ => ih child hmem (outside_cons hopen hplain) found) found trivial
        intro found before behind
        rw [assignedAt_append, appendAllNew_append]
      rw [visit_eq, openPositions_eq hopen]
      match n with
      | .block _ => exact hchildren rfl found
      | .expr e => cases e <;> exact hchildren rfl found
      | .stmt (.function _ _ _ _ _) =>
          rw [← openPositions_eq hopen, openPositions_function hopen rfl]
          rfl
      | .stmt (.assign targets _ _) =>
          rw [assignedAt_cons, appendAllNew_append]
          exact hchildren rfl _
      | .stmt (.expression _ _) | .stmt (.declare _ _ _) | .stmt (.ifThen _ _ _)
      | .stmt (.switch _ _ _) | .stmt (.forLoop _ _ _ _ _) | .stmt (.breakLoop _)
      | .stmt (.continueLoop _) | .stmt (.block _) => exact hchildren rfl found

end Node

/-! ### Names assigned behind a `continue` -/

namespace AfterContinue

/-- What is found behind a part of a tree, by the open positions of that part. -/
def after (found : AfterContinue) (positions : List Position) : AfterContinue where
  names := appendAllNew found.names
    (assignedAt (if found.passed then positions else behindContinue positions))
  loopDepth := found.loopDepth
  passed := found.passed || positions.any Position.leavesTree

theorem after_nil (found : AfterContinue) : found.after [] = found := by
  obtain ⟨names, depth, passed⟩ := found
  cases passed <;> rfl

theorem after_append (found : AfterContinue) (before behind : List Position) :
    found.after (before ++ behind) = (found.after before).after behind := by
  obtain ⟨names, depth, passed⟩ := found
  cases passed with
  | true => simp [after, appendAllNew_append]
  | false =>
      -- the rest counts as a whole if a `continue` of the first part leaves the tree
      cases hleaves : before.any Position.leavesTree <;>
        simp [after, behindContinue_append, appendAllNew_append, hleaves]

/-- A node that assigns nothing and is no `continue` changes nothing by itself. -/
theorem after_cons_of_plain (found : AfterContinue) {position : Position}
    (hassigns : position.node.assigns = []) (hcontinue : position.node.isContinue = false)
    (positions : List Position) :
    found.after (position :: positions) = found.after positions := by
  have hleaves : position.leavesTree = false := by rw [Position.leavesTree, hcontinue]; rfl
  obtain ⟨names, depth, passed⟩ := found
  cases passed <;> simp [after, behindContinue_cons, hleaves, hassigns]

/-- An assignment counts if a `continue` was passed. -/
theorem after_assign (found : AfterContinue) (around : List Node) (targets : List Identifier)
    (value? : Option Expr) (span : Span) :
    found.after [⟨.stmt (.assign targets value? span), around⟩] =
      if found.passed then { found with names := appendAllNew found.names (targetNames targets) }
      else found := by
  obtain ⟨names, depth, passed⟩ := found
  cases passed <;> simp [after, behindContinue, Position.leavesTree, Node.isContinue, Node.assigns]

/-- A `continue` that no loop is around is passed. -/
theorem after_continue (found : AfterContinue) (around : List Node) (span : Span) :
    found.after [⟨.stmt (.continueLoop span), around⟩] =
      { found with passed := found.passed || !around.any Node.isLoop } := by
  obtain ⟨names, depth, passed⟩ := found
  cases passed <;> cases h : around.any Node.isLoop <;>
    simp [after, behindContinue, Position.leavesTree, Node.isContinue, Node.assigns, h]

end AfterContinue

namespace Node

variable {around : List Node}

/-- Behind a node, the collector knows what its open positions say, if the loops around the node
are counted. -/
theorem run_visit_afterContinueVisitor (n : Node) (hopen : around.any isFunction = false)
    (found : AfterContinue) (hdepth : (found.loopDepth == 0) = !around.any isLoop) :
    (n.visit AfterContinue.visitor).run found = ((), found.after (n.openPositions around)) := by
  induction n using Node.induction generalizing around found with
  | node n ih =>
      have hchildren (hplain : n.isFunction = false) (found : AfterContinue)
          (hdepth : (found.loopDepth == 0) = !(n :: around).any isLoop) :
          (n.children.forM (visit AfterContinue.visitor)).run found =
            ((), found.after (n.children.flatMap (openPositions (n :: around)))) :=
        run_forM_visit (openPositions (n :: around)) AfterContinue.after
          (fun found => (found.loopDepth == 0) = !(n :: around).any isLoop)
          AfterContinue.after_nil AfterContinue.after_append (fun _ _ h => h)
          (fun child hmem found h => ih child hmem (outside_cons hopen hplain) found h) found hdepth
      rw [visit_eq, openPositions_eq hopen]
      match n with
      | .block _ =>
          rw [AfterContinue.after_cons_of_plain found rfl rfl]
          exact hchildren rfl found hdepth
      | .expr e =>
          rw [AfterContinue.after_cons_of_plain found rfl rfl]
          cases e <;> exact hchildren rfl found hdepth
      | .stmt (.function _ _ _ _ _) =>
          rw [← openPositions_eq hopen, openPositions_function hopen rfl,
            AfterContinue.after_cons_of_plain found rfl rfl, AfterContinue.after_nil]
          rfl
      | .stmt (.forLoop initial condition post body span) =>
          rw [AfterContinue.after_cons_of_plain found rfl rfl]
          -- the marks of a state do not depend on its number of loops, which is put back behind
          have h := hchildren rfl { found with loopDepth := found.loopDepth + 1 } rfl
          exact congrArg (fun r : Unit × AfterContinue =>
            ((), { r.2 with loopDepth := r.2.loopDepth - 1 })) h
      | .stmt (.assign targets value? span) =>
          rw [← List.singleton_append, AfterContinue.after_append]
          have h := hchildren rfl (found.after [⟨.stmt (.assign targets value? span), around⟩])
            hdepth
          rw [AfterContinue.after_assign] at h ⊢
          exact h
      | .stmt (.continueLoop span) =>
          have hafter := AfterContinue.after_continue found around span
          rw [← hdepth] at hafter
          exact congrArg (Prod.mk ()) hafter.symm
      | .stmt (.expression _ _) | .stmt (.declare _ _ _) | .stmt (.ifThen _ _ _)
      | .stmt (.switch _ _ _) | .stmt (.breakLoop _) | .stmt (.block _) =>
          rw [AfterContinue.after_cons_of_plain found rfl rfl]
          exact hchildren rfl found hdepth

end Node

namespace Block

theorem collectAssigned_openPositions (found : List Name) (block : Block) :
    collectAssigned found block = appendAllNew found (assignedAt block.openPositions) := by
  rw [collectAssigned]
  exact congrArg Prod.snd ((Node.block block).run_visit_assignedVisitor rfl found)

theorem collect_openPositions (found : AfterContinue) (block : Block) (h : found.loopDepth = 0) :
    found.collect block = found.after block.openPositions :=
  congrArg Prod.snd ((Node.block block).run_visit_afterContinueVisitor rfl found (by rw [h]; rfl))

theorem foldl_collectAssigned (found : List Name) (blocks : List Block) :
    blocks.foldl collectAssigned found =
      appendAllNew found (assignedAt (blocks.flatMap openPositions)) := by
  induction blocks generalizing found with
  | nil => rfl
  | cons block blocks ih =>
      rw [List.foldl_cons, ih, collectAssigned_openPositions, ← appendAllNew_append,
        ← assignedAt_append, ← List.flatMap_cons]

theorem foldl_collect (found : AfterContinue) (blocks : List Block) (h : found.loopDepth = 0) :
    blocks.foldl AfterContinue.collect found = found.after (blocks.flatMap openPositions) := by
  induction blocks generalizing found with
  | nil => exact (AfterContinue.after_nil found).symm
  | cons block blocks ih =>
      rw [List.foldl_cons, collect_openPositions found block h, List.flatMap_cons,
        AfterContinue.after_append]
      exact ih _ h

/-- **Both collectors are exact.** Over any number of blocks, all assigned names are those at the
open positions, and the ones behind a `continue` are those at the open positions in front of which
a `continue` stands that no loop is around; each name once, where it occurs first. So the second
collector finds nothing that the first does not. -/
theorem collectors_exact (blocks : List Block) :
    let positions := blocks.flatMap openPositions
    blocks.foldl collectAssigned [] = (assignedAt positions).eraseDups ∧
    (blocks.foldl AfterContinue.collect {}).names =
      (assignedAt (behindContinue positions)).eraseDups ∧
    (∀ position, position ∈ behindContinue positions ↔
      ∃ before after, positions = before ++ position :: after ∧
        ∃ other ∈ before, other.leavesTree = true) ∧
    ∀ block : Block, block.assignedAfterContinue ⊆ block.assigned := by
  refine ⟨?_, ?_, fun _ => mem_behindContinue, fun block x hx => ?_⟩
  · rw [foldl_collectAssigned, appendAllNew_nil_left]
  · rw [foldl_collect _ blocks rfl]
    exact appendAllNew_nil_left _
  · rw [mem_assignedAfterContinue] at hx
    exact mem_assigned.2 (lateTargets_subset block hx)

end Block

end StorageFlow
