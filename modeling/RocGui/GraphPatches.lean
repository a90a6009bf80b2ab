import Mathlib.Algebra.Ring.Nat
import RocGui.FragmentValidation

/-! `MountedGraph::apply`: every kind of patch, with what it checks before it writes
and what it writes. -/
namespace GraphPatches

open FiniteMaps Methods KeyedOrder GraphState FragmentValidation

inductive KeyedGraphOperation (K : Type) where
  | insert (key : K) (before : Option K) (root : ℕ) (nodes : List (Node K))
  | remove (key : K)
  | move (key : K) (before : Option K)
  | set (key : K) (root : ℕ) (nodes : List (Node K))
  deriving DecidableEq, Repr

inductive Patch (K : Type) where
  | mount (root : ℕ) (nodes : List (Node K))
  | noChange
  | replace (oldRoot root : ℕ) (nodes : List (Node K))
  /-- Fresh nodes joined to complete, still-mounted component subtrees. -/
  | replaceRetaining (oldRoot root : ℕ) (nodes : List (Node K)) (retainedRoots : List ℕ)
  | keyed (container baseRevision newRevision : ℕ) (operations : List (KeyedGraphOperation K))
  deriving DecidableEq, Repr

inductive KeyedNativeEdit (K : Type) where
  | insert (key : K) (before : Option K) (root : ℕ)
  | remove (key : K) (root : ℕ)
  | move (key : K) (before : Option K)
  | set (key : K) (oldRoot root : ℕ)
  deriving DecidableEq, Repr

inductive GraphError (K : Type) where
  | fragment (error : FragmentError)
  | keyedOrder (error : KeyedOrderError K)
  | containerMissing (container : ℕ)
  | ordinaryContainer
  | itemRootKind
  | itemInstance
  | twoDialogs
  | duplicateLabel (label : String)
  | alreadyMounted (instanceId : ℕ)
  | retired (instanceId : ℕ)
  | keyedReusedId
  | keyedTwice (instanceId : ℕ)
  | mountedTwice
  | targetMissing (id : ℕ)
  | targetDetached
  | retainedTwice (id : ℕ)
  | retainedNotMounted (id : ℕ)
  | retainedKind (id : ℕ)
  | retainedTarget
  | retainedOverlap
  | reusedId
  | retainedScope (id : ℕ)
  | instanceScope (instanceId : ℕ)
  deriving DecidableEq, Repr

/-- The message of each error. `debugOrder` and `debug` print what the messages
show through `{:?}`. -/
def GraphError.text {K : Type} (debugOrder : KeyedOrderError K → String) (debug : String → String) :
    GraphError K → String
  | fragment error => error.text debug
  | keyedOrder error => s!"keyed order rejected transaction: {debugOrder error}"
  | containerMissing container => s!"keyed container {container} is missing"
  | ordinaryContainer => "an ordinary container cannot become keyed after mounting children"
  | itemRootKind => "a keyed item root must be a component boundary"
  | itemInstance => "a keyed Set must preserve its component instance"
  | twoDialogs => "mounted graph would contain more than one modal dialog"
  | duplicateLabel label => s!"mounted graph contains duplicate text input label {debug label}"
  | alreadyMounted instanceId => s!"component instance {instanceId} is already mounted"
  | retired instanceId => s!"component instance {instanceId} was retired"
  | keyedReusedId => "keyed transaction reused a previously issued node id"
  | keyedTwice instanceId => s!"component instance {instanceId} appears twice in keyed transaction"
  | mountedTwice => "application attempted to mount twice"
  | targetMissing id => s!"replacement target {id} is missing"
  | targetDetached => "replacement target is detached"
  | retainedTwice id => s!"duplicate retained root {id}"
  | retainedNotMounted id => s!"retained root {id} is not mounted"
  | retainedKind id => s!"retained root {id} is not a component boundary"
  | retainedTarget => "retain of replacement target must use NoChange"
  | retainedOverlap => "retained roots overlap or are outside the replacement target"
  | reusedId => "replacement reused a previously issued node id"
  | retainedScope id => s!"retained component {id} changed structural scope"
  | instanceScope instanceId => s!"component instance {instanceId} changed structural scope"

structure ApplyFacts where
  kind : String
  staged : ℕ
  removed : ℕ
  live : ℕ
  scanned : ℕ
  retainedNodes : ℕ
  validationVisits : ℕ
  keyedGraphVisits : ℕ
  keyedOriginalReads : ℕ
  keyedFirstTouches : ℕ
  deriving DecidableEq, Repr

structure GraphApply (K : Type) where
  facts : ApplyFacts
  root : Option ℕ
  stagedIds : List ℕ
  removedIds : List ℕ
  retiredRoot : Bool
  parent : Option (ℕ × ℕ)
  retainedRoots : List ℕ
  removedInstances : List ℕ
  stagedInstances : List ℕ
  keyedEdits : List (KeyedNativeEdit K)
  deriving DecidableEq, Repr

abbrev GraphMethod (K α : Type) := Method (MountedGraph K) (GraphError K) α
abbrev Reading (K α : Type) := Except (Failure (GraphError K)) α

variable {K : Type} [DecidableEq K]

def reject {α : Type} (error : GraphError K) : Reading K α := .error (.error error)

omit [DecidableEq K] in
theorem reject_guard_ok {α β : Type} {c : Prop} [Decidable c] {e : GraphError K}
    {rest : Reading K β} {b : β} :
    (if c then (reject e : Reading K α) >>= fun _ => rest else rest) = .ok b ↔ ¬c ∧ rest = .ok b := by
  by_cases h : c
  · simp [h, reject, bind, Except.bind]
  · simp [h]

def query {α : Type} (f : MountedGraph K → Reading K α) : GraphMethod K α := do
  MonadExcept.ofExcept (f (← get))

/-- `get_mut(&id).expect(message)`, written through. -/
def alter (message : String) (id : ℕ) (f : MountedNode K → MountedNode K) : GraphMethod K Unit := do
  let entry ← expect message ((← get).nodes.get id)
  modify fun g => { g with nodes := g.nodes.set id (f entry) }

omit [DecidableEq K] in
theorem query_ok {g : MountedGraph K} {α : Type} {f : MountedGraph K → Reading K α} {a : α} (h : f g = .ok a) :
    (query f).run g = .ok a g := by
  rw [query, run_bind_ok (EStateM.run_get g), h]
  rfl

omit [DecidableEq K] in
theorem query_error {g : MountedGraph K} {α : Type} {f : MountedGraph K → Reading K α} {e : Failure (GraphError K)}
    (h : f g = .error e) : (query f).run g = .error e g := by
  rw [query, run_bind_ok (EStateM.run_get g), h]
  rfl

omit [DecidableEq K] in
theorem query_run_ok {g g' : MountedGraph K} {α : Type} {f : MountedGraph K → Reading K α} {a : α} :
    (query f).run g = .ok a g' ↔ f g = .ok a ∧ g = g' := by
  rw [query, run_bind_ok (EStateM.run_get g), ofExcept_run_ok]

omit [DecidableEq K] in
theorem alter_run {g : MountedGraph K} (message : String) {id : ℕ} {entry : MountedNode K}
    (f : MountedNode K → MountedNode K) (h : g.nodes.get id = some entry) :
    (alter message id f).run g = .ok () { g with nodes := g.nodes.set id (f entry) } := by
  rw [alter, run_bind_ok (EStateM.run_get g), h]
  rfl

omit [DecidableEq K] in
theorem alter_run_ok {g g' : MountedGraph K} {message : String} {id : ℕ}
    {f : MountedNode K → MountedNode K} {u : Unit} : (alter message id f).run g = .ok u g' ↔
      ∃ e, g.nodes.get id = some e ∧ g' = { g with nodes := g.nodes.set id (f e) } := by
  simp only [alter, bind_ok, get_ok, expect_ok, modify_ok]
  constructor
  · rintro ⟨_, _, ⟨rfl, rfl⟩, e, _, ⟨he, rfl⟩, rfl⟩
    exact ⟨e, he, rfl⟩
  · rintro ⟨e, he, rfl⟩
    exact ⟨g, g, ⟨rfl, rfl⟩, e, g, ⟨he, rfl⟩, rfl⟩

section Interaction

/-- Interaction state of retired nodes, carried by identity to the nodes that
replace them. -/
structure InteractionCarry where
  hovered : Finset ElementIdentity
  shown : Finset ElementIdentity
  pending : Finset ElementIdentity
  focusWithin : Finset ElementIdentity
  focusSerials : FiniteMap ElementIdentity ℕ
  canvasSizes : FiniteMap ElementIdentity (ℕ × ℕ)

def InteractionCarry.empty : InteractionCarry := ⟨∅, ∅, ∅, ∅, ∅, ∅⟩

def InteractionCarry.isEmpty (carry : InteractionCarry) : Bool :=
  carry.hovered = ∅ ∧ carry.shown = ∅ ∧ carry.pending = ∅ ∧ carry.focusWithin = ∅ ∧
    carry.canvasSizes = ∅

def noteIf (present : Bool) (identity : ElementIdentity) (carried : Finset ElementIdentity) :
    Finset ElementIdentity := if present then insert identity carried else carried

def Interaction.forget (i : Interaction) (id : ℕ) : Interaction where
  hovered := i.hovered.erase id
  popovers := { i.popovers with
    shown := i.popovers.shown.erase id
    pending := i.popovers.pending.erase id
    focusWithin := i.popovers.focusWithin.erase id }
  keyboard := { i.keyboard with
    regions := i.keyboard.regions.erase id
    windowRegions := i.keyboard.windowRegions.erase id
    serials := i.keyboard.serials.remove id }
  canvasSizes := i.canvasSizes.remove id

def noteSerial (i : Interaction) (id : ℕ) (carry : InteractionCarry) :
    GraphMethod K InteractionCarry :=
  match i.keyboard.serials.get id with
  | none => return carry
  | some serial => do
    let identity ← query fun g => g.identity id
    return { carry with focusSerials := carry.focusSerials.set identity serial }

def noteSize (i : Interaction) (id : ℕ) (carry : InteractionCarry) :
    GraphMethod K InteractionCarry :=
  match i.canvasSizes.get id with
  | none => return carry
  | some size => do
    let identity ← query fun g => g.identity id
    return { carry with canvasSizes := carry.canvasSizes.set identity size }

def noteEdges (i : Interaction) (id : ℕ) (carry : InteractionCarry) :
    GraphMethod K InteractionCarry :=
  if id ∈ i.hovered ∨ id ∈ i.popovers.shown ∨ id ∈ i.popovers.pending ∨
      id ∈ i.popovers.focusWithin then do
    let identity ← query fun g => g.identity id
    return { carry with
      hovered := noteIf (id ∈ i.hovered) identity carry.hovered
      shown := noteIf (id ∈ i.popovers.shown) identity carry.shown
      pending := noteIf (id ∈ i.popovers.pending) identity carry.pending
      focusWithin := noteIf (id ∈ i.popovers.focusWithin) identity carry.focusWithin }
  else return carry

/-- One turn of `carry_interaction`: what `id` held is noted under its identity,
which is only computed when there is something to note. -/
def carryOne (carry : InteractionCarry) (id : ℕ) : GraphMethod K InteractionCarry := do
  let i := (← get).interaction
  let carry ← noteSerial i id carry
  let carry ← noteSize i id carry
  let carry ← noteEdges i id carry
  modify fun g => { g with interaction := Interaction.forget g.interaction id }
  return carry

def carryInteraction (removed : List ℕ) : GraphMethod K InteractionCarry :=
  removed.foldlM carryOne .empty

/-- A region asks for focus when its serial is one its identity has not asked with
before. -/
def requestFocus (carry : InteractionCarry) (region : ℕ) : GraphMethod K Unit := do
  let node := (← get).node region
  match node.map Node.kind with
  | some (.popover _ _ _ _ _ focusSerial) =>
    let before := carry.focusSerials.get (← query fun g => g.identity region)
    modify fun g => { g with interaction := { g.interaction with keyboard :=
      { g.interaction.keyboard with
        serials := g.interaction.keyboard.serials.set region focusSerial
        requests := if before = some focusSerial then g.interaction.keyboard.requests
          else g.interaction.keyboard.requests ++ [region] } } }
  | _ => return ()

/-- What a staged node takes over from the carried node of the same identity. -/
def adopt (carry : InteractionCarry) (presents : Bool) (id : ℕ) (identity : ElementIdentity)
    (i : Interaction) : Interaction where
  hovered := if identity ∈ carry.hovered then insert id i.hovered else i.hovered
  popovers := if ¬presents then i.popovers else { i.popovers with
    shown := if identity ∈ carry.shown then insert id i.popovers.shown else i.popovers.shown
    pending := if identity ∈ carry.pending then insert id i.popovers.pending
      else i.popovers.pending
    focusWithin := if identity ∈ carry.focusWithin then insert id i.popovers.focusWithin
      else i.popovers.focusWithin }
  keyboard := i.keyboard
  canvasSizes := i.canvasSizes

def restoreOne (carry : InteractionCarry) (id : ℕ) : GraphMethod K Unit := do
  let node := (← get).node id
  match node.map Node.kind with
  | none => return ()
  | some (.canvas _ true) =>
    match carry.canvasSizes.get (← query fun g => g.identity id) with
    | some size => modify fun g => { g with interaction :=
        { g.interaction with canvasSizes := g.interaction.canvasSizes.set id size } }
    | none => return ()
  | some kind =>
    if ¬kind.tracksHover then return ()
    let identity ← query fun g => g.identity id
    modify fun g => { g with interaction := adopt carry (g.presents id) id identity g.interaction }

def restoreInteraction (staged : List ℕ) (carry : InteractionCarry) : GraphMethod K Unit := do
  let requests := (← get).interaction.keyboard.stagedRequests
  modify fun g => { g with interaction := { g.interaction with keyboard :=
    { g.interaction.keyboard with stagedRequests := [] } } }
  requests.forM (requestFocus carry)
  if carry.isEmpty then return ()
  staged.forM (restoreOne carry)

def blockedBy (g : MountedGraph K) (dialog : ℕ) : List ℕ → Reading K (List ℕ)
  | [] => .ok []
  | id :: rest => do
    let inside ← g.isDescendantOf id dialog
    let blocked ← blockedBy g dialog rest
    return if inside then blocked else id :: blocked

/-- Closing is one transition per presenting popover, whatever the order. -/
def Interaction.block (blocked : Finset ℕ) (i : Interaction) : Interaction := { i with
  hovered := i.hovered \ blocked
  popovers := { i.popovers with
    shown := i.popovers.shown \ blocked
    pending := i.popovers.pending \ blocked
    focusWithin := i.popovers.focusWithin \ blocked
    closed := i.popovers.closed + (i.popovers.shown ∩ blocked).card } }

def retireBehindDialog (dialog : ℕ) : GraphMethod K Unit := do
  let i := (← get).interaction
  let candidates := ascending
    (i.hovered ∪ i.popovers.shown ∪ i.popovers.pending ∪ i.popovers.focusWithin)
  let blocked ← query fun g => blockedBy g dialog candidates
  modify fun g => { g with interaction := Interaction.block blocked.toFinset g.interaction }

end Interaction

section Mounting

def indexError : String := "no entry found for key"

def newestInstance (seen : Option ℕ) (instanceId : ℕ) : Option ℕ :=
  some (seen.elim instanceId (max · instanceId))

/-- What mounting a region adds for the keyboard. -/
def KeyboardState.mount (k : KeyboardState) (id : ℕ) (shortcuts : List Shortcut)
    (focusSerial : ℕ) : KeyboardState := { k with
  regions := if shortcuts ≠ [] then insert id k.regions else k.regions
  windowRegions := if shortcuts.any (·.scope = .window) then insert id k.windowRegions
    else k.windowRegions
  stagedRequests := if focusSerial ≠ 0 then k.stagedRequests ++ [id] else k.stagedRequests }

def indexNode (validated : ValidatedFragment K) (node : Node K) : GraphMethod K Unit := do
  modify fun g => { g with maxSeenNodeId := max g.maxSeenNodeId node.id }
  match node.kind with
  | .boundary instanceId => modify fun g => { g with
      boundaryInstances := g.boundaryInstances.set instanceId node.id
      maxSeenInstance := newestInstance g.maxSeenInstance instanceId }
  | .textInput label _ => do
    let owner ← expect indexError (validated.inputOwners.get node.id)
    modify fun g => { g with
      inputOwners := g.inputOwners.set node.id owner
      inputLabels := g.inputLabels.set (owner, label) node.id }
  | .dialog _ => modify fun g => { g with dialog := some node.id }
  | .popover _ _ _ _ shortcuts focusSerial => modify fun g => { g with interaction :=
      { g.interaction with keyboard :=
        KeyboardState.mount g.interaction.keyboard node.id shortcuts focusSerial } }
  | .split _ _ _ _ _ _ _ shortcuts => if shortcuts ≠ [] then modify fun g => { g with interaction :=
      { g.interaction with keyboard := { g.interaction.keyboard with
        regions := insert node.id g.interaction.keyboard.regions } } }
  | _ => return ()

def mountNode (validated : ValidatedFragment K) (node : Node K) : GraphMethod K Unit := do
  indexNode validated node
  modify fun g => { g with nodes := g.nodes.set node.id ⟨node, none, 1, .of node 0 0, none⟩ }

def seedEntry (g : MountedGraph K) (seed : K × ℕ) : Reading K (K × ℕ × ℕ) :=
  match (g.node seed.2).map Node.kind with
  | none => .error (.panic indexError)
  | some (.boundary instanceId) => .ok (seed.1, seed.2, instanceId)
  | some _ => .error (.panic
      "internal error: entered unreachable code: validated keyed seed child is a boundary")

/-- A staged keyed column takes its first order from its keys and children. -/
def seedNode (node : Node K) : GraphMethod K Unit := do
  match node.kind with
  | .keyedColumn _ revision keys =>
    let entries ← query fun g => (keys.zip node.children).mapM (seedEntry g)
    let order ← expect "validated keyed seed has unique keys" (fromSeed revision entries).toOption
    alter "seeded keyed container was inserted" node.id fun e => { e with keyedChildren := some order }
  | _ => return ()

/-- Where the child at `position` of a mounted parent is. -/
def locate (g : MountedGraph K) (id position : ℕ) : Reading K (ParentLocation K) :=
  match g.nodes.get id with
  | none => .error (.panic indexError)
  | some entry =>
    match entry.keyedChildren with
    | none => .ok (.ordinaryIndex id position)
    | some order => do
      let children ← (forward order).mapError (Failure.mapError Empty.elim)
      match children[position]? with
      | some (key, child) => return .keyed id key child.instanceId
      | none => .error (.panic "keyed child")

def setParent (id : ℕ) (message : String) (location : Option (ParentLocation K)) :
    GraphMethod K Unit := alter message id fun e => { e with parent := location }

def setSegment (message : String) (child : ℕ × IdentitySegment) : GraphMethod K Unit :=
  alter message child.1 fun e => { e with segment := child.2 }

def refreshChildSegments (parent : ℕ) : GraphMethod K Unit := do
  (← query fun g => g.childSegments parent).forM (setSegment "mounted child")

def mountedSize (g : MountedGraph K) (id : ℕ) : Reading K ℕ :=
  match g.subtreeSize id with
  | some size => .ok size
  | none => .error (.panic indexError)

/-- One turn of the last loop of `insert_nodes`: size, parents and segments below a
node whose children are settled. -/
def settle (id : ℕ) : GraphMethod K Unit := do
  let entry ← expect indexError ((← get).nodes.get id)
  let sizes ← query fun g => entry.node.children.mapM (mountedSize g)
  alter "inserted node" id fun e => { e with subtreeSize := 1 + sizes.sum }
  entry.node.children.zipIdx.forM fun (child, position) => do
    setParent child "validated child" (some (← query fun g => locate g id position))
  refreshChildSegments id

def insertNodes (nodes : List (Node K)) (validated : ValidatedFragment K) : GraphMethod K Unit := do
  nodes.forM (mountNode validated)
  nodes.forM seedNode
  validated.postorder.forM settle

/-- One turn of the loop that retires nodes; what it returns is the instance that
ends. -/
def retire (message : String) (instances : List ℕ) (id : ℕ) : GraphMethod K (List ℕ) := do
  let entry ← expect message ((← get).nodes.get id)
  modify fun g => { g with nodes := g.nodes.remove id }
  match entry.node.kind with
  | .boundary instanceId => do
    modify fun g => { g with boundaryInstances := g.boundaryInstances.remove instanceId }
    return instances ++ [instanceId]
  | .textInput label _ => do
    modify fun g =>
      let owner := (g.inputOwners.get id).join
      { g with
        inputOwners := g.inputOwners.remove id
        inputLabels := g.inputLabels.remove (owner, label) }
    return instances
  | .dialog _ => do
    modify fun g => { g with dialog := none }
    return instances
  | _ => return instances

/-- Sizes from `current` to the root after a subtree of `oldSize` became `newSize`. -/
def resizeFrom (oldSize newSize : ℕ) : ℕ → Option ℕ → GraphMethod K Unit
  | _, none => return ()
  | 0, some _ => throw .diverges
  | fuel + 1, some id => do
    alter "mounted ancestor" id fun e =>
      { e with subtreeSize := e.subtreeSize - oldSize + newSize }
    let parent := ((← get).parentLocation id).map (·.parent)
    resizeFrom oldSize newSize fuel parent

def resizeAncestors (oldSize newSize : ℕ) (current : Option ℕ) : GraphMethod K Unit := do
  let fuel := (← get).climb
  resizeFrom oldSize newSize fuel current

def instancesOf (nodes : List (Node K)) : List ℕ := nodes.filterMap fun node =>
  match node.kind with
  | .boundary instanceId => some instanceId
  | _ => none

/-- The last steps of every patch that mounts nodes. -/
def finishInteraction (previousDialog : Option ℕ) (stagedIds : List ℕ)
    (carried : InteractionCarry) : GraphMethod K Unit := do
  restoreInteraction stagedIds carried
  let dialog := (← get).dialog
  match dialog with
  | some id => if dialog ≠ previousDialog then retireBehindDialog id
  | none => return ()

end Mounting

section Replacement

structure Replacement (K : Type) where
  oldRoot : Option ℕ
  root : ℕ
  nodes : List (Node K)
  retainedRoots : List ℕ

structure ReplacementPlan (K : Type) where
  parentLocation : Option (ParentLocation K)
  parent : Option (ℕ × ℕ)
  frontier : Finset ℕ
  retainedNodes : ℕ
  removedIds : List ℕ
  validated : ValidatedFragment K
  rootSegment : IdentitySegment
  parentSegmentsUnchanged : Bool
  validationVisits : ℕ

/-- A keyed child's position is not looked up: its segment is its instance. -/
def attachment : ParentLocation K → ℕ × ℕ
  | .ordinaryIndex parent index => (parent, index)
  | .keyed container .. => (container, 0)

def checkRetained (g : MountedGraph K) (oldRoot : Option ℕ) :
    Finset ℕ → ℕ → List ℕ → Reading K (Finset ℕ × ℕ)
  | frontier, count, [] => .ok (frontier, count)
  | frontier, count, id :: rest =>
    if id ∈ frontier then reject (.retainedTwice id)
    else match g.nodes.get id with
      | none => reject (.retainedNotMounted id)
      | some entry =>
        match entry.node.kind with
        | .boundary _ =>
          if some id = oldRoot then reject .retainedTarget
          else checkRetained g oldRoot (insert id frontier) (count + entry.subtreeSize) rest
        | _ => reject (.retainedKind id)

/-- Walks the retired portion only: the walk stops at the frontier and notes which
part of it was met. -/
def collectRetired (g : MountedGraph K) (frontier : Finset ℕ) :
    ℕ → List ℕ → Reading K (List ℕ × Finset ℕ)
  | _, [] => .ok ([], ∅)
  | 0, _ :: _ => .error .diverges
  | fuel + 1, id :: pending =>
    if id ∈ frontier then do
      let (removed, found) ← collectRetired g frontier fuel pending
      return (removed, insert id found)
    else do
      let children ← g.childrenOfRev id
      let (removed, found) ← collectRetired g frontier fuel (children.reverse ++ pending)
      return (id :: removed, found)

def checkStaged (g : MountedGraph K) (removed : Finset ℕ) (validated : ValidatedFragment K)
    (node : Node K) : Reading K Unit :=
  if node.id ≤ g.maxSeenNodeId then reject .reusedId
  else match node.kind with
    | .dialog _ =>
      if ∃ id ∈ g.dialog, id ∉ removed then reject .twoDialogs else .ok ()
    | .textInput label _ =>
      match validated.inputOwners.get node.id with
      | none => .error (.panic indexError)
      | some owner =>
        if ∃ id ∈ g.inputLabels.get (owner, label), id ∉ removed then reject (.duplicateLabel label)
        else .ok ()
    | .boundary instanceId =>
      match g.boundaryInstances.get instanceId with
      | some id => if id ∉ removed then reject (.alreadyMounted instanceId) else .ok ()
      | none =>
        if ∃ newest ∈ g.maxSeenInstance, instanceId ≤ newest then reject (.retired instanceId)
        else .ok ()
    | _ => .ok ()

def countNamesakes (g : MountedGraph K) (node : Node K) (name : String) : List ℕ → Reading K ℕ
  | [] => .ok 0
  | id :: rest =>
    match g.node id with
    | none => .error (.panic indexError)
    | some other => do
      let count ← countNamesakes g node name rest
      return if other.kind.tag = node.kind.tag ∧ other.kind.siblingName = some name then count + 1
        else count

def rootSegmentOf (g : MountedGraph K) (parent : Option (ℕ × ℕ)) (node : Node K) :
    Reading K IdentitySegment :=
  match parent with
  | none => .ok (.of node 0 0)
  | some (parentId, position) => do
    let occurrence ← match node.kind.siblingName with
      | some name => do
        countNamesakes g node name ((← g.childrenOf parentId).take position)
      | none => pure 0
    return .of node position occurrence

def stagedSegments (lookup : ℕ → Option (Node K)) (node : Node K) :
    Reading K (List (ℕ × IdentitySegment)) :=
  if ∀ child ∈ node.children, (lookup child).isSome then
    .ok (siblingSegments lookup ∅ 0 node.children)
  else .error (.panic "validated child")

/-- A live component may be rebuilt or retained only in its original structural
scope. `identity` is the path to the node that was last entered. -/
def checkScopes (g : MountedGraph K) (frontier : Finset ℕ) (validated : ValidatedFragment K)
    (rootSegment : IdentitySegment) :
    ℕ → ElementIdentity → List (ℕ × IdentitySegment × Bool) → Reading K Unit
  | _, _, [] => .ok ()
  | 0, _, _ :: _ => .error .diverges
  | fuel + 1, identity, (_, _, true) :: pending =>
    checkScopes g frontier validated rootSegment fuel identity.dropLast pending
  | fuel + 1, identity, (id, segment, false) :: pending =>
    if id ∈ frontier then do
      if (← g.identity id) ≠ identity ++ [segment] then reject (.retainedScope id)
      checkScopes g frontier validated rootSegment fuel identity pending
    else match validated.fresh.get id with
      | none => .error (.panic indexError)
      | some node => do
        match node.kind with
        | .boundary instanceId =>
          match g.boundaryInstances.get instanceId with
          | some old =>
            if (← g.identity old) ≠ identity ++ [segment] then reject (.instanceScope instanceId)
          | none => pure ()
        | _ => pure ()
        let children ← stagedSegments (validated.lookup g.node) node
        checkScopes g frontier validated rootSegment fuel (identity ++ [segment])
          (children.map (fun (child, segment) => (child, segment, false)) ++
            (id, rootSegment, true) :: pending)

/-- The target is mounted, and the root of the graph when it has no parent. -/
def checkTarget (r : Replacement K) (g : MountedGraph K) : Reading K Unit :=
  match r.oldRoot with
  | none => if g.root.isSome then reject .mountedTwice else .ok ()
  | some id =>
    if (g.nodes.get id).isNone then reject (.targetMissing id)
    else if (g.parentLocation id).isNone ∧ g.root ≠ some id then reject .targetDetached
    else .ok ()

def ownerAt (g : MountedGraph K) : Option (ℕ × ℕ) → Reading K (Option ℕ)
  | some (id, _) => g.componentOwner id
  | none => .ok none

def identityAt (g : MountedGraph K) : Option (ℕ × ℕ) → Reading K ElementIdentity
  | some (id, _) => g.identity id
  | none => .ok []

def validatedRoot (g : MountedGraph K) (validated : ValidatedFragment K) (root : ℕ) :
    Reading K (Node K) :=
  match validated.lookup g.node root with
  | some node => .ok node
  | none => .error (.panic "validated root")

/-- Every check of `apply_inner`, in its order; nothing is written. -/
def planReplacement (r : Replacement K) (g : MountedGraph K) : Reading K (ReplacementPlan K) := do
  checkTarget r g
  let parentLocation := r.oldRoot.bind g.parentLocation
  let parent := parentLocation.map attachment
  let (frontier, retainedNodes) ← checkRetained g r.oldRoot ∅ 0 r.retainedRoots
  let (removedIds, found) ← collectRetired g frontier g.climb r.oldRoot.toList
  if found ≠ frontier then reject .retainedOverlap
  let owner ← ownerAt g parent
  let validated ← (validateFragment r.root r.nodes frontier owner g.node).mapError
    (Failure.mapError .fragment)
  r.nodes.forM (checkStaged g removedIds.toFinset validated)
  let outerIdentity ← identityAt g parent
  let rootNode ← validatedRoot g validated r.root
  let rootSegment ← rootSegmentOf g parent rootNode
  checkScopes g frontier validated rootSegment (2 * (r.nodes.length + frontier.card) + 1)
    outerIdentity [(r.root, rootSegment, false)]
  return {
    parentLocation, parent, frontier, retainedNodes, removedIds, validated, rootSegment
    parentSegmentsUnchanged := r.oldRoot.bind g.cachedSegment = some rootSegment
    validationVisits := r.retainedRoots.length + removedIds.length + validated.visits }

def attachRoot (location : ParentLocation K) (root : ℕ) : GraphMethod K Unit := do
  match location with
  | .keyed container key _ => do
    let entry ← expect "validated keyed parent" ((← get).nodes.get container)
    let order ← expect "keyed parent has order" entry.keyedChildren
    let child ← expect "keyed parent contains child" (order.children.get key)
    alter "validated keyed parent" container fun e =>
      { e with keyedChildren := some (order.withChild key { child with root }) }
  | .ordinaryIndex parent index => do
    let entry ← expect "validated parent" ((← get).nodes.get parent)
    if entry.node.children.length ≤ index then panics "index out of bounds"
    alter "validated parent" parent fun e =>
      { e with node := { e.node with children := e.node.children.set index root } }

/-- The parent takes the new root and every ancestor its size; without a parent the
new root is the graph's. -/
def attach (r : Replacement K) (plan : ReplacementPlan K) (oldSize newSize : ℕ) :
    GraphMethod K Unit :=
  match plan.parentLocation with
  | some location => do
    attachRoot location r.root
    if ¬plan.parentSegmentsUnchanged then refreshChildSegments location.parent
    resizeAncestors oldSize newSize (some location.parent)
  | none => modify fun g => { g with root := some r.root }

/-- The structural half of a replacement; it returns the instances that ended. -/
def exchange (r : Replacement K) (plan : ReplacementPlan K) (oldSize : ℕ) :
    GraphMethod K (List ℕ) := do
  let removedInstances ← plan.removedIds.foldlM (retire "validated retirement") []
  insertNodes r.nodes plan.validated
  setParent r.root "validated root" plan.parentLocation
  setSegment "validated root" (r.root, plan.rootSegment)
  let newSize ← query fun g => mountedSize g r.root
  attach r plan oldSize newSize
  return removedInstances

def commitReplacement (r : Replacement K) (plan : ReplacementPlan K)
    (previousDialog : Option ℕ) : GraphMethod K (GraphApply K) := do
  let g ← get
  let oldSize := (r.oldRoot.bind g.subtreeSize).getD 0
  let stagedIds := r.nodes.map (·.id)
  let carried ← carryInteraction plan.removedIds
  let removedInstances ← exchange r plan oldSize
  finishInteraction previousDialog stagedIds carried
  let live := (← get).nodes.size
  return {
    facts := {
      kind := if r.oldRoot.isSome then "replace" else "mount"
      staged := stagedIds.length
      removed := plan.removedIds.length
      live
      scanned := if plan.parent.isSome then 1 else 0
      retainedNodes := plan.retainedNodes
      validationVisits := plan.validationVisits
      keyedGraphVisits := 0
      keyedOriginalReads := 0
      keyedFirstTouches := 0 }
    root := some r.root
    stagedIds
    removedIds := plan.removedIds
    retiredRoot := r.oldRoot = g.root ∧ r.oldRoot.isSome ∧ plan.frontier = ∅
    parent := plan.parent
    retainedRoots := r.retainedRoots
    removedInstances
    stagedInstances := instancesOf r.nodes
    keyedEdits := [] }

def applyReplacement (r : Replacement K) : GraphMethod K (GraphApply K) := do
  let previousDialog := (← get).dialog
  let plan ← query (planReplacement r)
  commitReplacement r plan previousDialog

end Replacement

section Keyed

structure FragmentPlan (K : Type) where
  key : K
  root : ℕ
  nodes : List (Node K)
  validated : ValidatedFragment K

/-- The locals of the loop over the operations of a keyed transaction. -/
structure KeyedProgress (K : Type) where
  fragments : List (FragmentPlan K)
  nativeEdits : List (KeyedNativeEdit K)
  stagedIds : Finset ℕ
  stagedInstances : Finset ℕ
  graphVisits : ℕ

structure KeyedGraphApply (K : Type) where
  revision : ℕ
  staged : ℕ
  removed : ℕ
  graphVisits : ℕ
  originalReads : ℕ
  firstTouches : ℕ
  stagedIds : List ℕ
  removedIds : List ℕ
  stagedInstances : List ℕ
  removedInstances : List ℕ
  nativeEdits : List (KeyedNativeEdit K)

abbrev StagingMethod (K α : Type) := Method (KeyedOrderJournal K) (GraphError K) α

def refuseOrder {α : Type} (m : JournalMethod K α) : StagingMethod K α :=
  mapError GraphError.keyedOrder m

def validateKeyedStagedFragment (g : MountedGraph K) (replacing : Option ℕ) :
    Finset ℕ → Finset ℕ → List (Node K) → Reading K (Finset ℕ × Finset ℕ)
  | ids, instances, [] => .ok (ids, instances)
  | ids, instances, node :: rest =>
    if node.id ≤ g.maxSeenNodeId ∨ node.id ∈ ids then reject .keyedReusedId
    else match node.kind with
      | .boundary instanceId =>
        if instanceId ∈ instances then reject (.keyedTwice instanceId)
        else if some instanceId ≠ replacing ∧ ∃ newest ∈ g.maxSeenInstance, instanceId ≤ newest then
          reject (.retired instanceId)
        else validateKeyedStagedFragment g replacing (insert node.id ids)
          (insert instanceId instances) rest
      | _ => validateKeyedStagedFragment g replacing (insert node.id ids) instances rest

def itemInstance (g : MountedGraph K) (root : ℕ) (validated : ValidatedFragment K) : Reading K ℕ :=
  match (validated.lookup g.node root).map Node.kind with
  | some (.boundary instanceId) => .ok instanceId
  | _ => reject .itemRootKind

def validateItem (g : MountedGraph K) (owner : Option ℕ) (root : ℕ) (nodes : List (Node K)) :
    Reading K (ValidatedFragment K) :=
  (validateFragment root nodes ∅ owner g.node).mapError (Failure.mapError .fragment)

def KeyedProgress.push (progress : KeyedProgress K) (fragment : FragmentPlan K)
    (edit : KeyedNativeEdit K) (staged : Finset ℕ × Finset ℕ) : KeyedProgress K where
  fragments := progress.fragments ++ [fragment]
  nativeEdits := progress.nativeEdits ++ [edit]
  stagedIds := staged.1
  stagedInstances := staged.2
  graphVisits := progress.graphVisits + fragment.validated.visits

def KeyedProgress.note (progress : KeyedProgress K) (edit : KeyedNativeEdit K) : KeyedProgress K :=
  { progress with nativeEdits := progress.nativeEdits ++ [edit] }

/-- One turn of the loop over the operations. The graph is only read. -/
def stageOperation (g : MountedGraph K) (owner : Option ℕ) (progress : KeyedProgress K) :
    KeyedGraphOperation K → StagingMethod K (KeyedProgress K)
  | .insert key before root nodes => do
    let validated ← MonadExcept.ofExcept (validateItem g owner root nodes)
    let instanceId ← MonadExcept.ofExcept (itemInstance g root validated)
    let staged ← MonadExcept.ofExcept (validateKeyedStagedFragment g none
      progress.stagedIds progress.stagedInstances nodes)
    refuseOrder (KeyedOrderJournal.insert key root instanceId before)
    return progress.push ⟨key, root, nodes, validated⟩ (.insert key before root) staged
  | .remove key => do
    let child ← refuseOrder (KeyedOrderJournal.child key)
    refuseOrder (KeyedOrderJournal.remove key)
    return progress.note (.remove key child.root)
  | .move key before => do
    refuseOrder (KeyedOrderJournal.moveBefore key before)
    return progress.note (.move key before)
  | .set key root nodes => do
    let child ← refuseOrder (KeyedOrderJournal.child key)
    let validated ← MonadExcept.ofExcept (validateItem g owner root nodes)
    let instanceId ← MonadExcept.ofExcept (itemInstance g root validated)
    if instanceId ≠ child.instanceId then refuse .itemInstance
    let staged ← MonadExcept.ofExcept (validateKeyedStagedFragment g (some child.instanceId)
      progress.stagedIds progress.stagedInstances nodes)
    refuseOrder (KeyedOrderJournal.replace key root)
    return progress.push ⟨key, root, nodes, validated⟩ (.set key child.root root) staged

/-- The roots that the journal took out of the order, in the order its originals are
iterated. -/
def removedRoots (hashOrder : Enumeration K (Option (KeyedChild K))) (j : KeyedOrderJournal K) :
    List ℕ :=
  (hashOrder.entries j.originals).filterMap fun (key, original) => original.bind fun original =>
    match j.order.children.get key with
    | some child => if child.root ≠ original.root then some original.root else none
    | none => some original.root

def collectRemoved (g : MountedGraph K) : ℕ → List ℕ → Reading K (List ℕ)
  | _, [] => .ok []
  | 0, _ :: _ => .error .diverges
  | fuel + 1, id :: pending => do
    let children ← g.childrenOf id
    return id :: (← collectRemoved g fuel (children.reverse ++ pending))

def survives (order : KeyedChildOrder K) (fragment : FragmentPlan K) : Bool :=
  ∃ child ∈ order.children.get fragment.key, child.root = fragment.root

def checkSurvivor (g : MountedGraph K) (removed : Finset ℕ) (validated : ValidatedFragment K)
    (seen : Bool × Finset (Option ℕ × String)) (node : Node K) :
    Reading K (Bool × Finset (Option ℕ × String)) :=
  match node.kind with
  | .dialog _ =>
    if seen.1 ∨ ∃ id ∈ g.dialog, id ∉ removed then reject .twoDialogs else .ok (true, seen.2)
  | .textInput label _ =>
    match validated.inputOwners.get node.id with
    | none => .error (.panic indexError)
    | some owner =>
      if (owner, label) ∈ seen.2 ∨ ∃ id ∈ g.inputLabels.get (owner, label), id ∉ removed then
        reject (.duplicateLabel label)
      else .ok (seen.1, insert (owner, label) seen.2)
  | .boundary instanceId =>
    if ∃ id ∈ g.boundaryInstances.get instanceId, id ∉ removed then
      reject (.alreadyMounted instanceId)
    else .ok seen
  | _ => .ok seen

structure PreparedFragments (K : Type) where
  fragments : List (FragmentPlan K)
  removedIds : List ℕ
  graphVisits : ℕ
  nativeEdits : List (KeyedNativeEdit K)

/-- The closure `prepared`: every operation, then the checks on what they leave. -/
def prepare (hashOrder : Enumeration K (Option (KeyedChild K))) (g : MountedGraph K)
    (owner : Option ℕ) (operations : List (KeyedGraphOperation K)) :
    StagingMethod K (PreparedFragments K) := do
  let progress ← operations.foldlM (stageOperation g owner) ⟨[], [], ∅, ∅, 0⟩
  let j ← get
  let removedIds ← MonadExcept.ofExcept ((removedRoots hashOrder j).mapM fun root =>
    collectRemoved g g.climb [root])
  let removedIds := removedIds.flatten
  let fragments := progress.fragments.filter (survives j.order)
  let _ ← MonadExcept.ofExcept (fragments.foldlM (fun seen fragment =>
    fragment.nodes.foldlM (checkSurvivor g removedIds.toFinset fragment.validated) seen)
    (false, ∅))
  return ⟨fragments, removedIds, progress.graphVisits + removedIds.length, progress.nativeEdits⟩

def mountFragment (container : ℕ) (order : KeyedChildOrder K) (fragment : FragmentPlan K) :
    GraphMethod K Unit := do
  insertNodes fragment.nodes fragment.validated
  let child ← expect "final keyed root" (order.children.get fragment.key)
  alter "inserted root" fragment.root fun e => { e with
    parent := some (.keyed container fragment.key child.instanceId)
    segment := .boundary child.instanceId }

def resizeContainer (container oldSize keyedSize : ℕ) : GraphMethod K Unit :=
  if keyedSize = oldSize then return () else do
    alter "validated container" container fun e => { e with subtreeSize := keyedSize }
    let parent := ((← get).parentLocation container).map (·.parent)
    resizeAncestors oldSize keyedSize parent

def putOrder (container : ℕ) (order : Option (KeyedChildOrder K)) : GraphMethod K Unit :=
  alter "validated container" container fun e => { e with keyedChildren := order }

/-- The graph with another order in `container`, whose entry is given. -/
def withOrder (container : ℕ) (entry : MountedNode K) (order : Option (KeyedChildOrder K))
    (g : MountedGraph K) : MountedGraph K :=
  { g with nodes := g.nodes.set container { entry with keyedChildren := order } }

omit [DecidableEq K] in
theorem putOrder_run {g : MountedGraph K} {container : ℕ} {entry : MountedNode K}
    {order : Option (KeyedChildOrder K)} (h : g.nodes.get container = some entry) :
    (putOrder container order).run g = .ok () (withOrder container entry order g) :=
  alter_run _ _ h

/-- The structural half of a keyed transaction; it returns the instances that ended. -/
def exchangeKeyed (container : ℕ) (order : KeyedChildOrder K) (prepared : PreparedFragments K)
    (oldSize keyedSize : ℕ) : GraphMethod K (List ℕ) := do
  let removedInstances ← prepared.removedIds.foldlM (retire "prevalidated retirement") []
  prepared.fragments.forM (mountFragment container order)
  resizeContainer container oldSize keyedSize
  putOrder container (some order)
  return removedInstances

def PreparedFragments.nodes (prepared : PreparedFragments K) : List (Node K) :=
  (prepared.fragments.map (·.nodes)).flatten

def commitKeyed (container newRevision : ℕ) (j : KeyedOrderJournal K)
    (prepared : PreparedFragments K) (previousDialog : Option ℕ) :
    GraphMethod K (KeyedGraphApply K) := do
  let nodes := prepared.nodes
  let stagedIds := nodes.map (·.id)
  let oldSize ← query fun g => mountedSize g container
  let carried ← carryInteraction prepared.removedIds
  let removedInstances ← exchangeKeyed container { j.order with revision := newRevision } prepared
    oldSize (oldSize - prepared.removedIds.length + nodes.length)
  finishInteraction previousDialog stagedIds carried
  return {
    revision := newRevision
    staged := nodes.length
    removed := prepared.removedIds.length
    graphVisits := prepared.graphVisits
    originalReads := j.originalReads
    firstTouches := j.firstTouches
    stagedIds
    removedIds := prepared.removedIds
    stagedInstances := instancesOf nodes
    removedInstances
    nativeEdits := prepared.nativeEdits }

def keyedContainer (container : ℕ) (g : MountedGraph K) : Reading K (MountedNode K) :=
  match g.nodes.get container with
  | none => reject (.containerMissing container)
  | some entry =>
    if entry.keyedChildren.isNone ∧ entry.node.children ≠ [] then reject .ordinaryContainer
    else .ok entry

def checkRevisions (order : KeyedChildOrder K) (baseRevision newRevision : ℕ) :
    Except (KeyedOrderError K) Unit := do
  checkRevision order baseRevision
  if newRevision ≤ baseRevision then throw (.staleNewRevision baseRevision newRevision)

/-- The order is taken out of its container while it is edited, and put back as it
was when the transaction is refused. -/
def applyKeyed (hashOrder : Enumeration K (Option (KeyedChild K)))
    (container baseRevision newRevision : ℕ) (operations : List (KeyedGraphOperation K)) :
    GraphMethod K (KeyedGraphApply K) := do
  let previousDialog := (← get).dialog
  let entry ← query (keyedContainer container)
  let order := entry.keyedChildren.getD .empty
  putOrder container none
  match checkRevisions order baseRevision newRevision with
  | .error error => do
    putOrder container (entry.keyedChildren.map fun _ => order)
    refuse (.keyedOrder error)
  | .ok () => do
    let owner ← query fun g => g.componentOwner container
    let g ← get
    match (prepare hashOrder g owner operations).run (KeyedOrderJournal.new order) with
    | .error (.error error) j => do
      putOrder container (entry.keyedChildren.map fun _ => j.rollback hashOrder)
      refuse error
    | .error failure _ => throw failure
    | .ok prepared j => commitKeyed container newRevision j prepared previousDialog

end Keyed

/-- `apply_inner`. -/
def apply (hashOrder : Enumeration K (Option (KeyedChild K))) (patch : Patch K) :
    GraphMethod K (GraphApply K) :=
  match patch with
  | .noChange => do
    let live := (← get).nodes.size
    return ⟨⟨"no_change", 0, 0, live, 0, 0, 0, 0, 0, 0⟩, none, [], [], false, none, [], [], [], []⟩
  | .mount root nodes => applyReplacement ⟨none, root, nodes, []⟩
  | .replace oldRoot root nodes => applyReplacement ⟨some oldRoot, root, nodes, []⟩
  | .replaceRetaining oldRoot root nodes retainedRoots =>
    applyReplacement ⟨some oldRoot, root, nodes, retainedRoots⟩
  | .keyed container baseRevision newRevision operations => do
    let keyed ← applyKeyed hashOrder container baseRevision newRevision operations
    let live := (← get).nodes.size
    return {
      facts := ⟨"keyed", keyed.staged, keyed.removed, live, 0, 0, keyed.graphVisits,
        keyed.graphVisits, keyed.originalReads, keyed.firstTouches⟩
      root := some container
      stagedIds := keyed.stagedIds
      removedIds := keyed.removedIds
      retiredRoot := false
      parent := none
      retainedRoots := []
      removedInstances := keyed.removedInstances
      stagedInstances := keyed.stagedInstances
      keyedEdits := keyed.nativeEdits }

end GraphPatches
