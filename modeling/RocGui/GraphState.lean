import Mathlib.Data.Finset.Basic
import RocGui.KeyedOrder

/-! The canonical mounted UI graph and the questions it answers about itself. -/
namespace GraphState

open FiniteMaps Methods KeyedOrder

inductive ShortcutScope where
  | window | focus
  deriving DecidableEq, Repr

structure Shortcut where
  keys : String
  scope : ShortcutScope
  deriving DecidableEq, Repr

structure ProvidedRows where
  instanceId : ℕ
  count : ℕ
  first : ℕ
  deriving DecidableEq, Repr

inductive SplitSide where
  | start | «end»
  deriving DecidableEq, Repr

/-- What the graph reads of each kind of node; what is only painted is left out. -/
inductive NodeKind (K : Type) where
  | boundary (instanceId : ℕ)
  | canvas (label : String) (size : Bool)
  | button (label : String) (enabled hoverEnter hoverExit : Bool)
  | checkbox (label : String) (enabled : Bool)
  | textarea (label : String) (enabled readOnly : Bool)
  | image (label : String)
  | column (label : String)
  | keyedColumn (label : String) (revision : ℕ) (keys : List K)
  | dialog (label : String)
  | popover (label : String) (delayMs : ℕ) (hoverEnter hoverExit : Bool)
      (shortcuts : List Shortcut) (focusSerial : ℕ)
  | panel (label : String)
  | row (label : String)
  | scroll (name : String)
  | virtualItem (key : ℕ)
  | virtualList (name : String) (rowHeight : ℕ) (rows : Option ProvidedRows)
  | textInput (label : String) (enabled : Bool)
  | split (label : String) (side : SplitSide) (size min max : ℕ) (collapsible collapsed : Bool)
      (shortcuts : List Shortcut)
  | dropTarget (label : String)
  | styledText
  | text
  deriving DecidableEq, Repr

namespace NodeKind

variable {K : Type}

/-- Which kind this is, as a number. Both sorts of column are one kind. -/
def tag : NodeKind K → ℕ
  | canvas .. => 0
  | button .. => 1
  | checkbox .. => 2
  | textarea .. => 3
  | image .. => 4
  | column .. | keyedColumn .. => 5
  | dialog .. => 6
  | panel .. => 7
  | row .. => 8
  | scroll .. => 9
  | virtualItem .. => 10
  | virtualList .. => 11
  | textInput .. => 12
  | text => 13
  | styledText => 14
  | boundary .. => 15
  | popover .. => 17
  | split .. => 18
  | dropTarget .. => 19

/-- The name this node carries among its siblings, when it has one. -/
def siblingName (kind : NodeKind K) : Option String :=
  let name := match kind with
    | canvas label .. | button label .. | checkbox label .. | textarea label .. | image label
    | column label | keyedColumn label .. | dialog label | popover label .. | panel label
    | row label | split label .. | dropTarget label | textInput label .. => label
    | scroll name | virtualList name .. => name
    | virtualItem key => toString key
    | text | styledText | boundary .. => ""
  if name = "" then none else some name

/-- Whether the graph tracks pointer edges for this node: an enabled button with a
hover handler, or any popover. -/
def tracksHover : NodeKind K → Bool
  | button _ true hoverEnter hoverExit => hoverEnter || hoverExit
  | popover .. => true
  | _ => false

end NodeKind

structure Node (K : Type) where
  id : ℕ
  kind : NodeKind K
  children : List ℕ
  deriving DecidableEq, Repr

inductive ParentLocation (K : Type) where
  | ordinaryIndex (parent index : ℕ)
  | keyed (container : ℕ) (key : K) (instanceId : ℕ)
  deriving DecidableEq, Repr

def ParentLocation.parent {K : Type} : ParentLocation K → ℕ
  | ordinaryIndex parent _ => parent
  | keyed container .. => container

inductive IdentitySegment where
  | boundary (instanceId : ℕ)
  | named (tag : ℕ) (name : String) (occurrence : ℕ)
  | positional (tag index : ℕ)
  deriving DecidableEq, Repr

abbrev ElementIdentity := List IdentitySegment

def IdentitySegment.of {K : Type} (node : Node K) (index occurrence : ℕ) : IdentitySegment :=
  match node.kind with
  | .boundary instanceId => .boundary instanceId
  | kind =>
    match kind.siblingName with
    | some name => .named kind.tag name occurrence
    | none => .positional kind.tag index

structure MountedNode (K : Type) where
  node : Node K
  parent : Option (ParentLocation K)
  subtreeSize : ℕ
  segment : IdentitySegment
  keyedChildren : Option (KeyedChildOrder K)

/-- Which popovers are presenting, and why. `opened`, `closed` and `dismissed` count
the transitions. -/
structure PopoverState where
  shown : Finset ℕ
  pending : Finset ℕ
  focusWithin : Finset ℕ
  opened : ℕ
  closed : ℕ
  dismissed : ℕ
  deriving DecidableEq

/-- The regions a keystroke may reach and the focus requests of the last transaction. -/
structure KeyboardState where
  regions : Finset ℕ
  windowRegions : Finset ℕ
  serials : FiniteMap ℕ ℕ
  stagedRequests : List ℕ
  requests : List ℕ
  deriving DecidableEq

structure Interaction where
  hovered : Finset ℕ
  popovers : PopoverState
  keyboard : KeyboardState
  canvasSizes : FiniteMap ℕ (ℕ × ℕ)
  deriving DecidableEq

/-- `hovered`, `popovers`, `keyboard` and `canvas_sizes` are grouped: no structural
edit reads them. -/
structure MountedGraph (K : Type) where
  nodes : FiniteMap ℕ (MountedNode K)
  root : Option ℕ
  maxSeenNodeId : ℕ
  maxSeenInstance : Option ℕ
  boundaryInstances : FiniteMap ℕ ℕ
  inputLabels : FiniteMap (Option ℕ × String) ℕ
  inputOwners : FiniteMap ℕ (Option ℕ)
  dialog : Option ℕ
  interaction : Interaction

variable {K : Type} [DecidableEq K]

instance : DecidableEq (MountedNode K)
  | ⟨n, p, s, g, k⟩, ⟨n', p', s', g', k'⟩ =>
    decidable_of_iff (n = n' ∧ p = p' ∧ s = s' ∧ g = g' ∧ k = k') (by simp)

instance : DecidableEq (MountedGraph K)
  | ⟨a, b, c, d, e, f, g, h, i⟩, ⟨a', b', c', d', e', f', g', h', i'⟩ =>
    decidable_of_iff (a = a' ∧ b = b' ∧ c = c' ∧ d = d' ∧ e = e' ∧ f = f' ∧ g = g' ∧ h = h' ∧
      i = i') (by simp)

def Interaction.empty : Interaction where
  hovered := ∅
  popovers := ⟨∅, ∅, ∅, 0, 0, 0⟩
  keyboard := ⟨∅, ∅, ∅, [], []⟩
  canvasSizes := ∅

/-- `MountedGraph::default`. -/
def MountedGraph.empty : MountedGraph K := ⟨∅, none, 0, none, ∅, ∅, ∅, none, .empty⟩

namespace MountedGraph

section Queries

variable {ε : Type}

def node (g : MountedGraph K) (id : ℕ) : Option (Node K) := (g.nodes.get id).map (·.node)

/-- The walk of a keyed order, seen from code that has no error of its own. -/
def orderRoots (answer : Except (Failure Empty) (List (K × KeyedChild K))) :
    Except (Failure ε) (List ℕ) :=
  (answer.mapError (Failure.mapError Empty.elim)).map fun cs => cs.map fun c => c.2.root

def childrenOf (g : MountedGraph K) (id : ℕ) : Except (Failure ε) (List ℕ) :=
  match g.nodes.get id with
  | none => .ok []
  | some entry =>
    match entry.keyedChildren with
    | some order => orderRoots (forward order)
    | none => .ok entry.node.children

/-- `children_of(id).rev()`. -/
def childrenOfRev (g : MountedGraph K) (id : ℕ) : Except (Failure ε) (List ℕ) :=
  match g.nodes.get id with
  | none => .ok []
  | some entry =>
    match entry.keyedChildren with
    | some order => orderRoots (backward order)
    | none => .ok entry.node.children.reverse

def parentLocation (g : MountedGraph K) (id : ℕ) : Option (ParentLocation K) :=
  (g.nodes.get id).bind (·.parent)

def subtreeSize (g : MountedGraph K) (id : ℕ) : Option ℕ := (g.nodes.get id).map (·.subtreeSize)

def cachedSegment (g : MountedGraph K) (id : ℕ) : Option IdentitySegment :=
  (g.nodes.get id).map (·.segment)

/-- A walk towards the root visits every mounted node at most once. -/
def climb (g : MountedGraph K) : ℕ := g.nodes.size + 1

def ownerFrom (g : MountedGraph K) : ℕ → ℕ → Except (Failure ε) (Option ℕ)
  | 0, _ => .error .diverges
  | fuel + 1, id =>
    match g.nodes.get id with
    | none => .ok none
    | some entry =>
      match entry.node.kind with
      | .boundary instanceId => .ok (some instanceId)
      | _ =>
        match entry.parent with
        | none => .ok none
        | some location => ownerFrom g fuel location.parent

def componentOwner (g : MountedGraph K) (id : ℕ) : Except (Failure ε) (Option ℕ) :=
  g.ownerFrom g.climb id

/-- The walk of `identity` from `current` upwards; the path reads from the root. -/
def identityFrom (g : MountedGraph K) : ℕ → Option ℕ → Except (Failure ε) ElementIdentity
  | _, none => .ok []
  | 0, some _ => .error .diverges
  | fuel + 1, some id =>
    match g.nodes.get id with
    | none => .error (.panic "no entry found for key")
    | some entry => do
      return (← identityFrom g fuel (entry.parent.map (·.parent))) ++ [entry.segment]

def identity (g : MountedGraph K) (id : ℕ) : Except (Failure ε) ElementIdentity :=
  g.identityFrom g.climb (some id)

def descendantFrom (g : MountedGraph K) (ancestor : ℕ) : ℕ → ℕ → Except (Failure ε) Bool
  | 0, _ => .error .diverges
  | fuel + 1, id =>
    if id = ancestor then .ok true
    else match (g.parentLocation id).map (·.parent) with
      | some parent => descendantFrom g ancestor fuel parent
      | none => .ok false

def isDescendantOf (g : MountedGraph K) (id ancestor : ℕ) : Except (Failure ε) Bool :=
  g.descendantFrom ancestor g.climb id

/-- A popover with content to present, as opposed to a hover region. -/
def presents (g : MountedGraph K) (id : ℕ) : Bool :=
  match g.node id with
  | some ⟨_, .popover .., children⟩ => 1 < children.length
  | _ => false

end Queries

end MountedGraph

/-- How often each tag and name was met so far among the siblings. -/
abbrev Occurrences := FiniteMap (ℕ × String) ℕ

def Occurrences.meet (seen : Occurrences) (kind : NodeKind K) : ℕ × Occurrences :=
  match kind.siblingName with
  | some name =>
    let occurrence := (seen.get (kind.tag, name)).getD 0
    (occurrence, seen.set (kind.tag, name) (occurrence + 1))
  | none => (0, seen)

/-- The sibling keys of `children` from position `index` on. Repeated names are
separated here, where the siblings are all in view. -/
def siblingSegments (lookup : ℕ → Option (Node K)) :
    Occurrences → ℕ → List ℕ → List (ℕ × IdentitySegment)
  | _, _, [] => []
  | seen, index, child :: rest =>
    match lookup child with
    | none => siblingSegments lookup seen (index + 1) rest
    | some node =>
      let (occurrence, seen) := seen.meet node.kind
      (child, .of node index occurrence) :: siblingSegments lookup seen (index + 1) rest

def MountedGraph.childSegments {ε : Type} (g : MountedGraph K) (parent : ℕ) :
    Except (Failure ε) (List (ℕ × IdentitySegment)) :=
  match g.node parent with
  | none => .ok []
  | some _ => (g.childrenOf parent).map (siblingSegments g.node ∅ 0)

end GraphState
