import RocGui.GraphState

/-! Validation of a staged fragment: its nodes, with retained roots as opaque leaves,
form one tree. -/
namespace FragmentValidation

open FiniteMaps Methods GraphState

def maxStagedNodes : ℕ := 1048576

inductive FragmentError where
  | reserved
  | tooLarge
  | duplicateNode (id : ℕ)
  | missingRoot (root : ℕ)
  | twoDialogs
  | emptyLabel
  | duplicateInstance (instanceId : ℕ)
  | leafWithChildren (id : ℕ)
  | boundaryContent (id : ℕ)
  | popoverAnchor (id : ℕ)
  | popoverDelay (id : ℕ)
  | scrollContent (id : ℕ)
  | splitPanes (id : ℕ)
  | splitBounds (id : ℕ)
  | itemContent (id : ℕ)
  | rowHeight (id : ℕ)
  | rowsExtent (id : ℕ)
  | nonItemChild (id : ℕ)
  | duplicateItemKey (id key : ℕ)
  | missingChild (id child : ℕ)
  | twoParents (child : ℕ)
  | rootHasParent (root : ℕ)
  | cycle (id : ℕ)
  | duplicateLabel (label : String)
  | disconnected
  deriving DecidableEq, Repr

/-- The message of each error; `debug` quotes a label as Rust's `{:?}` does. -/
def FragmentError.text (debug : String → String) : FragmentError → String
  | reserved => "node id 0 is reserved"
  | tooLarge => s!"native subtree exceeds {maxStagedNodes} nodes"
  | duplicateNode id => s!"duplicate node id {id}"
  | missingRoot root => s!"subtree root {root} is missing"
  | twoDialogs => "native subtree contains more than one modal dialog"
  | emptyLabel => "text input label must not be empty"
  | duplicateInstance instanceId => s!"duplicate component instance {instanceId}"
  | leafWithChildren id => s!"leaf node {id} has children"
  | boundaryContent id => s!"boundary node {id} must have one content child"
  | popoverAnchor id => s!"popover node {id} must have an anchor child"
  | popoverDelay id => s!"popover node {id} delay exceeds 60000 milliseconds"
  | scrollContent id => s!"scroll node {id} must have one content child"
  | splitPanes id => s!"split node {id} must have two panes"
  | splitBounds id => s!"split node {id} holds a size outside its bounds"
  | itemContent id => s!"virtual item node {id} must have one content child"
  | rowHeight id => s!"virtual list node {id} has invalid row height"
  | rowsExtent id => s!"virtual list node {id} mounts rows outside its provided extent"
  | nonItemChild id => s!"virtual list node {id} has a non-item child"
  | duplicateItemKey id key => s!"virtual list node {id} has duplicate item key {key}"
  | missingChild id child => s!"node {id} references missing child {child}"
  | twoParents child => s!"node {child} has more than one parent"
  | rootHasParent root => s!"subtree root {root} has a parent"
  | cycle id => s!"cycle in native subtree at node {id}"
  | duplicateLabel label => s!"native subtree contains duplicate text input label {debug label}"
  | disconnected => "native subtree is disconnected"

/-- `fresh` is `indices` with each index followed to the node it names. -/
structure ValidatedFragment (K : Type) where
  fresh : FiniteMap ℕ (Node K)
  inputOwners : FiniteMap ℕ (Option ℕ)
  /-- Fresh nodes only, with children before their parents. -/
  postorder : List ℕ
  visits : ℕ

variable {K : Type}

def ValidatedFragment.lookup (validated : ValidatedFragment K) (mounted : ℕ → Option (Node K))
    (id : ℕ) : Option (Node K) := (validated.fresh.get id).or (mounted id)

/-- The first loop: no id is reserved, staged twice or also retained. -/
def indexNodes (retained : Finset ℕ) :
    FiniteMap ℕ (Node K) → List (Node K) → Except FragmentError (FiniteMap ℕ (Node K))
  | fresh, [] => .ok fresh
  | fresh, node :: rest =>
    if node.id = 0 then .error .reserved
    else if node.id ∈ retained ∨ (fresh.get node.id).isSome then .error (.duplicateNode node.id)
    else indexNodes retained (fresh.set node.id node) rest

def virtualKeys (lookup : ℕ → Option (Node K)) (list : ℕ) :
    Finset ℕ → List ℕ → Except FragmentError Unit
  | _, [] => .ok ()
  | keys, child :: rest =>
    match lookup child with
    | some ⟨_, .virtualItem key, _⟩ =>
      if key ∈ keys then .error (.duplicateItemKey list key)
      else virtualKeys lookup list (insert key keys) rest
    | _ => .error (.nonItemChild list)

/-- `validate_virtual_keys`. -/
def validateVirtualKeys (lookup : ℕ → Option (Node K)) (list : Node K) :
    Except FragmentError Unit := virtualKeys lookup list.id ∅ list.children

/-- The checks on one node's kind and how many children it has. -/
def checkShape (lookup : ℕ → Option (Node K)) (node : Node K) : Except FragmentError Unit :=
  match node.kind with
  | .text | .styledText | .checkbox .. | .button .. | .textarea .. | .image .. | .canvas ..
  | .textInput .. =>
    if node.children ≠ [] then .error (.leafWithChildren node.id) else .ok ()
  | .boundary _ => if node.children.length ≠ 1 then .error (.boundaryContent node.id) else .ok ()
  | .popover _ delayMs .. =>
    if node.children = [] then .error (.popoverAnchor node.id)
    else if 60000 < delayMs then .error (.popoverDelay node.id) else .ok ()
  | .scroll _ => if node.children.length ≠ 1 then .error (.scrollContent node.id) else .ok ()
  | .split _ _ size min max .. =>
    if node.children.length ≠ 2 then .error (.splitPanes node.id)
    else if ¬(min ≤ size ∧ size ≤ max) then .error (.splitBounds node.id) else .ok ()
  | .virtualItem _ => if node.children.length ≠ 1 then .error (.itemContent node.id) else .ok ()
  | .virtualList _ rowHeight rows =>
    if ¬(1 ≤ rowHeight ∧ rowHeight ≤ 16384) then .error (.rowHeight node.id)
    else match rows with
      | some rows =>
        if rows.instanceId = 0 ∨ 2 ^ 64 ≤ rows.first + node.children.length ∨
            rows.count < rows.first + node.children.length then .error (.rowsExtent node.id)
        else validateVirtualKeys lookup node
      | none => validateVirtualKeys lookup node
  | _ => .ok ()

/-- Every child is staged or retained and has one parent. -/
def own (listed : ℕ → Bool) (id : ℕ) : Finset ℕ → List ℕ → Except FragmentError (Finset ℕ)
  | ownership, [] => .ok ownership
  | ownership, child :: rest =>
    if ¬listed child then .error (.missingChild id child)
    else if child ∈ ownership then .error (.twoParents child)
    else own listed id (insert child ownership) rest

structure Tally where
  dialogs : ℕ
  instances : Finset ℕ
  ownership : Finset ℕ

/-- What may stand only once in a fragment. -/
def tallyNode (tally : Tally) (node : Node K) : Except FragmentError Tally :=
  match node.kind with
  | .dialog _ =>
    if 1 ≤ tally.dialogs then .error .twoDialogs
    else .ok { tally with dialogs := tally.dialogs + 1 }
  | .textInput label _ => if label = "" then .error .emptyLabel else .ok tally
  | .boundary instanceId =>
    if instanceId ∈ tally.instances then .error (.duplicateInstance instanceId)
    else .ok { tally with instances := insert instanceId tally.instances }
  | _ => .ok tally

def checkNode (lookup : ℕ → Option (Node K)) (listed : ℕ → Bool) (tally : Tally) (node : Node K) :
    Except FragmentError Tally := do
  let tally ← tallyNode tally node
  checkShape lookup node
  return { tally with ownership := ← own listed node.id tally.ownership node.children }

structure Traversal where
  pending : List (ℕ × Bool × Option ℕ)
  reached : Finset ℕ
  inputLabels : Finset (Option ℕ × String)
  inputOwners : FiniteMap ℕ (Option ℕ)
  postorder : List ℕ
  visits : ℕ

/-- One turn of the walk, `pending` having been popped. -/
def visit (fresh : FiniteMap ℕ (Node K)) (retained : Finset ℕ) (t : Traversal) (id : ℕ)
    (exiting : Bool) (owner : Option ℕ) : Except (Failure FragmentError) Traversal :=
  if exiting then .ok { t with postorder := t.postorder ++ [id] }
  else
    if id ∈ t.reached then .error (.error (.cycle id))
    else
      let t := { t with visits := t.visits + 1, reached := insert id t.reached }
      if id ∈ retained then .ok t
      else match fresh.get id with
        | none => .error (.panic "no entry found for key")
        | some node =>
          let descend (owner : Option ℕ) (t : Traversal) : Traversal :=
            { t with pending :=
                node.children.map (fun child => (child, false, owner)) ++ (id, true, owner) ::
                  t.pending }
          match node.kind with
          | .boundary instanceId => .ok (descend (some instanceId) t)
          | .textInput label _ =>
            if (owner, label) ∈ t.inputLabels then .error (.error (.duplicateLabel label))
            else .ok (descend owner { t with
              inputLabels := insert (owner, label) t.inputLabels
              inputOwners := t.inputOwners.set id owner })
          | _ => .ok (descend owner t)

def traverse (fresh : FiniteMap ℕ (Node K)) (retained : Finset ℕ) :
    ℕ → Traversal → Except (Failure FragmentError) Traversal
  | 0, t => if t.pending = [] then .ok t else .error .diverges
  | fuel + 1, t =>
    match t.pending with
    | [] => .ok t
    | (id, exiting, owner) :: pending => do
      traverse fresh retained fuel (← visit fresh retained { t with pending } id exiting owner)

def refuseFragment {α : Type} (answer : Except FragmentError α) :
    Except (Failure FragmentError) α := answer.mapError .error

def validateFragment (root : ℕ) (nodes : List (Node K)) (retained : Finset ℕ) (owner : Option ℕ)
    (mounted : ℕ → Option (Node K)) : Except (Failure FragmentError) (ValidatedFragment K) := do
  if root = 0 then throw (.error .reserved)
  if maxStagedNodes < nodes.length + retained.card then throw (.error .tooLarge)
  let fresh ← refuseFragment (indexNodes retained ∅ nodes)
  let listed (id : ℕ) : Bool := (fresh.get id).isSome || id ∈ retained
  if ¬listed root then throw (.error (.missingRoot root))
  let lookup (id : ℕ) := (fresh.get id).or (mounted id)
  let tally ← refuseFragment (nodes.foldlM (checkNode lookup listed) ⟨0, ∅, ∅⟩)
  if root ∈ tally.ownership then throw (.error (.rootHasParent root))
  -- every id is entered once and left once
  let t ← traverse fresh retained (2 * (nodes.length + retained.card) + 1)
    ⟨[(root, false, owner)], ∅, ∅, ∅, [], nodes.length⟩
  if t.reached.card ≠ nodes.length + retained.card then throw (.error .disconnected)
  return ⟨fresh, t.inputOwners, t.postorder, t.visits⟩

/-- `validate_tree`. -/
def validateTree (root : ℕ) (nodes : List (Node K)) : Except (Failure FragmentError) Unit := do
  let _ ← validateFragment root nodes ∅ none fun _ => none

end FragmentValidation
