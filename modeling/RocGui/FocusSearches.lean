import RocGui.GraphRuns
import RocGui.GraphLedgers

/-! Where focus goes: the searches of a mounted graph for a control to focus. -/
namespace FocusSearches

open FiniteMaps Methods GraphState GraphPatches

variable {K : Type} [DecidableEq K]

section Kinds

def focusIdentity : NodeKind K → Option (ℕ × String)
  | .button label true _ _ => some (0, label)
  | .checkbox label true => some (1, label)
  | .textarea label true false => some (2, label)
  | .textInput label true => some (3, label)
  | .split label .. => some (4, label)
  | _ => none

/-- Which child of a split its collapse hides. -/
def hiddenPane : NodeKind K → Option ℕ
  | .split _ side _ _ _ true true _ => some (match side with | .start => 0 | .end => 1)
  | _ => none

def isPopover : NodeKind K → Bool
  | .popover .. => true
  | _ => false

end Kinds

section Walks

variable (g : MountedGraph K)

/-- The walk of `nodes_preorder`; the top of its stack comes first. -/
def preorderFrom : ℕ → List ℕ → Reading K (List (Node K))
  | _, [] => .ok []
  | 0, _ :: _ => .error .diverges
  | fuel + 1, id :: pending =>
    match g.node id with
    | none => .error (.panic "mounted child is missing")
    | some node => do
      let children ← g.childrenOfRev id
      return node :: (← preorderFrom fuel (children.reverse ++ pending))

def nodesPreorder : Reading K (List (Node K)) := preorderFrom g g.climb g.root.toList

/-- Whether what stands at `location` is the pane of a collapsed split, or the content of a closed
popover. -/
def hides (location : ParentLocation K) : Bool :=
  let kind := (g.node location.parent).map (·.kind)
  let paneHidden := match location with
    | .ordinaryIndex _ index => (kind.bind hiddenPane) = some index
    | .keyed .. => false
  let anchor := match location with
    | .ordinaryIndex _ 0 => true
    | _ => false
  paneHidden || !anchor && kind.any isPopover && location.parent ∉ g.interaction.popovers.shown

/-- The walk of `is_presented` towards the root. -/
def presentedFrom : ℕ → ℕ → Reading K Bool
  | 0, _ => .error .diverges
  | fuel + 1, id =>
    match g.parentLocation id with
    | none => .ok true
    | some location => if hides g location then .ok false else presentedFrom fuel location.parent

def isPresented (id : ℕ) : Reading K Bool := presentedFrom g g.climb id

/-- The node and what it lies in, from the root down. -/
def pathFrom : ℕ → ℕ → Reading K (List ℕ)
  | 0, _ => .error .diverges
  | fuel + 1, id =>
    match g.parentLocation id with
    | none => .ok [id]
    | some location => do return (← pathFrom fuel location.parent) ++ [id]

def pathFromRoot (id : ℕ) : Reading K (List ℕ) := pathFrom g g.climb id

def precedes (a b : ℕ) : Reading K Bool := do
  let left ← pathFromRoot g a
  let right ← pathFromRoot g b
  let shared := ((left.zip right).takeWhile fun pair => pair.1 = pair.2).length
  match left[shared]?, right[shared]? with
  | none, _ => return true
  | some _, none => return false
  | some first, some second =>
    match shared with
    | 0 => .error (.panic "attempt to subtract with overflow")
    | last + 1 =>
      match left[last]? with
      | none => .error (.panic "index out of bounds")
      | some parent => do
        let children ← g.childrenOf parent
        return children.find? (fun child => child = first || child = second) = some first

def regionLive (region : ℕ) : Reading K Bool := do
  let inside ← match g.dialog with
    | none => pure true
    | some dialog => g.isDescendantOf region dialog
  if inside then isPresented g region else return false

end Walks

section Searches

variable (g : MountedGraph K)

def firstIn (ancestor : ℕ) : List (Node K) → Reading K (Option ℕ)
  | [] => .ok none
  | node :: rest => do
    let inside ← g.isDescendantOf node.id ancestor
    if inside && (focusIdentity node.kind).isSome then return some node.id else firstIn ancestor rest

def firstFocusableIn (ancestor : ℕ) : Reading K (Option ℕ) := do
  firstIn g ancestor (← nodesPreorder g)

def focusOrder : Reading K (List ℕ) := do
  return (← nodesPreorder g).filterMap fun node => if (focusIdentity node.kind).isSome then some node.id else none

def focusDestination (wasAt : ℕ) : Reading K (Option ℕ) := do
  let order ← focusOrder g
  if order = [] then return none else return order[min wasAt (order.length - 1)]?

def findFocusIdentity (identity : ℕ × String) : Reading K (Option ℕ) := do
  return (← nodesPreorder g).findSome? fun node =>
    if focusIdentity node.kind = some identity then some node.id else none

/-- The regions that asked, as far as they are mounted and live. -/
def liveRequests : List ℕ → Reading K (List ℕ)
  | [] => .ok []
  | region :: rest => do
    if (g.nodes.get region).isSome then
      if ← regionLive g region then return region :: (← liveRequests rest)
      else liveRequests rest
    else liveRequests rest

def latest : ℕ → List ℕ → Reading K ℕ
  | kept, [] => .ok kept
  | kept, next :: rest => do
    if ← precedes g kept next then latest next rest else latest kept rest

def shownChildren (id : ℕ) (node : Node K) : Reading K (List ℕ) :=
  if isPopover node.kind ∧ id ∉ g.interaction.popovers.shown then .ok node.children.head?.toList
  else match hiddenPane node.kind with
    | some hidden => .ok ((node.children.zipIdx.filter fun child => child.2 ≠ hidden).map (·.1))
    | none => do return (← g.childrenOfRev id).reverse

def requestFrom : ℕ → List ℕ → Reading K (Option ℕ)
  | _, [] => .ok none
  | 0, _ :: _ => .error .diverges
  | fuel + 1, id :: pending =>
    match g.node id with
    | none => .ok none
    | some node =>
      if (focusIdentity node.kind).isSome then .ok (some id)
      else do
        let children ← shownChildren g id node
        requestFrom fuel (children ++ pending)

/-- The answer to the requests of the last transaction. -/
def focusRequest (requests : List ℕ) : Reading K (Option ℕ) := do
  match ← liveRequests g requests with
  | [] => return none
  | first :: rest => do
    let region ← latest g first rest
    requestFrom g g.climb [region]

end Searches

def requestsTaken (g : MountedGraph K) : MountedGraph K := { g with interaction :=
  { g.interaction with keyboard := { g.interaction.keyboard with requests := [] } } }

/-- The requests are taken, whatever comes of them. -/
def takeFocusRequest : GraphMethod K (Option ℕ) := do
  let requests := (← get).interaction.keyboard.requests
  modify requestsTaken
  query fun g => focusRequest g requests

end FocusSearches
