import RocGui.Actions

/-! The boundaries between an event's origin and the root: the adapters an event's action
passes through, and the path along which the runtime finds the boundary it belongs to. -/
namespace BoundaryChains

open FiniteMaps Actions

/-- Boundaries over the root's own state. A keyed column cannot be lifted (`lift_shell`
crashes on one), so it stands here, above every adapter. -/
inductive Top where
  | root
  | transparent (up : Top) (key : ℕ)
  | keyed (up : Top) (key : ℕ)

/-- What stands between the root, whose state is an `α`, and a place of the element tree
whose state is a `γ`. -/
inductive Chain (α : Type) : Type → Type 1 where
  | top (top : Top) : Chain α α
  /-- `Elem.boundary`: a translated child with its policy. -/
  | boundary {β γ : Type} (up : Chain α β) (key : ℕ) (project : β → Option γ)
    (set : β → γ → Option β) (delegated : β → Answer β) : Chain α γ
  /-- `Elem.lift`: an adapter that is no boundary. -/
  | lift {β γ : Type} (up : Chain α β) (get : β → γ) (set : β → γ → β) : Chain α γ
  /-- `Elem.virtual_rows`: a boundary without an adapter. -/
  | transparent {γ : Type} (up : Chain α γ) (key : ℕ) : Chain α γ

/-- `adapt_event`, with the adapter that `lift_with` was given. -/
def adaptEvent {β γ : Type} (handler : γ → Action γ) (project : β → Option γ)
    (adapt : Action γ → β → Work (Action β)) (parent : β) : Action β :=
  Action.deferred (match project parent with
    | none => pure Action.none
    | some child => adapt (handler child) parent)

section Runtime

variable {α S : Type}

structure Bound where
  transparent : Bool
  deriving DecidableEq

/-- The part of a boundary's record that routes actions. `memo` is `none` for `Unknown`. -/
structure BoundaryInfo (S : Type) where
  path : List ℕ
  bound : Option Bound
  memo : Option S
  deriving DecidableEq

/-- What a dispatched event leaves behind: the installed state and boundaries, and what
the host was told. -/
structure Turn (α S : Type) where
  state : α
  /-- The boundary that is rendered again; `none` for `Host.apply!(NoChange)`. -/
  rendered : Option ℕ
  /-- The owner of the task that is started. -/
  task : Option (ℕ × String × Work (α → Work (Action α)))
  canceled : Option (ℕ × String)
  boundaries : FiniteMap ℕ (BoundaryInfo S)

/-- `transparent`. -/
def isTransparent (boundaries : FiniteMap ℕ (BoundaryInfo S)) (key : ℕ) : Bool :=
  match boundaries.get key with
  | none => false
  | some info =>
    match info.bound with
    | none => false
    | some bound => bound.transparent

/-- The inner loop of `apply_action!`: from `offset` up to a boundary that holds state. -/
def skipTransparent (boundaries : FiniteMap ℕ (BoundaryInfo S)) (path : List ℕ) :
    ℕ → Except String ℕ
  | 0 => .ok 0
  | offset + 1 =>
    match path[offset + 1]? with
    | none => .error "missing delegated owner"
    | some key =>
      if isTransparent boundaries key then skipTransparent boundaries path offset
      else .ok (offset + 1)

def climb (boundaries : FiniteMap ℕ (BoundaryInfo S)) (path : List ℕ) :
    ℕ → ℕ → Except String ℕ
  | 0, offset => .ok offset
  | _ + 1, 0 => .ok 0
  | remaining + 1, offset + 1 => do
    climb boundaries path remaining (← skipTransparent boundaries path offset)

/-- The memo snapshots of the owner's ancestors are stale. -/
def dirty (owner : ℕ) : FiniteMap ℕ (BoundaryInfo S) → List ℕ →
    Except String (FiniteMap ℕ (BoundaryInfo S))
  | boundaries, [] => .ok boundaries
  | boundaries, key :: rest =>
    match boundaries.get key with
    | none => .error "missing update ancestor"
    | some info =>
      if key ≠ owner then dirty owner (boundaries.set key { info with memo := none }) rest
      else dirty owner boundaries rest

def ownerOffset (boundaries : FiniteMap ℕ (BoundaryInfo S)) (path : List ℕ) (changesState : Bool)
    (levels : ℕ) : Except String ℕ :=
  if changesState then do
    climb boundaries path levels (← skipTransparent boundaries path (path.length - 1))
  else .ok (if path.length ≤ levels then 0 else path.length - levels - 1)

def changesState (action : Action α) : Bool :=
  match action.value with
  | .refresh => false
  | _ => true

/-- The last match of `apply_action!`. `update_boundary!` installs its state whether or not
the boundary turns out unchanged. -/
def updateOwner (action : Action α) (state : α) (owner : ℕ)
    (boundaries : FiniteMap ℕ (BoundaryInfo S)) : Except String (Turn α S) :=
  match action.value with
  | .refresh => .ok ⟨state, some owner, none, none, boundaries⟩
  | .update next => .ok ⟨next, some owner, none, none, boundaries⟩
  | .delegate next => .ok ⟨next, some 0, none, none, boundaries⟩
  | .task key pending run => .ok ⟨pending, some owner, some (owner, key, run), none, boundaries⟩
  | .cancel key next => .ok ⟨next, some owner, none, some (owner, key), boundaries⟩
  | .noChange | .deferred _ => .error "action changed during dispatch"

/-- `apply_action!` of a resolved action. -/
def applyResolved (action : Action α) (state : α) (origin : ℕ)
    (boundaries : FiniteMap ℕ (BoundaryInfo S)) : Except String (Turn α S) :=
  match action.value with
  | .noChange => .ok ⟨state, none, none, none, boundaries⟩
  | _ =>
    match boundaries.get origin with
    | none => .error "missing action owner"
    | some source => do
      let offset ← ownerOffset boundaries source.path (changesState action) action.ownerLevels
      match source.path[offset]? with
      | none => .error "missing delegated owner"
      | some owner =>
        match boundaries.get owner with
        | none => .error "missing delegated component"
        | some target => do
          let stale ← if changesState action then dirty owner boundaries target.path
            else pure boundaries
          updateOwner action state owner stale

/-- `apply_action!`. -/
def applyAction (action : Action α) (state : α) (origin : ℕ)
    (boundaries : FiniteMap ℕ (BoundaryInfo S)) : Except String (Turn α S) :=
  applyResolved action.resolveWork.answer state origin boundaries

end Runtime

namespace Top

def key : Top → ℕ
  | root => 0
  | transparent _ key | keyed _ key => key

def path : Top → List ℕ
  | root => [0]
  | transparent up key | keyed up key => up.path ++ [key]

end Top

namespace Chain

variable {α γ S : Type}

def key {γ : Type} : Chain α γ → ℕ
  | top t => t.key
  | boundary _ key .. | transparent _ key => key
  | lift up .. => up.key

def path {γ : Type} : Chain α γ → List ℕ
  | top t => t.path
  | boundary up key .. | transparent up key => up.path ++ [key]
  | lift up .. => up.path

/-- The callback of a route: the handler behind every adapter on the way to the root. -/
def fire {γ : Type} : Chain α γ → (γ → Action γ) → α → Action α
  | top _, handler => handler
  | boundary up key project set delegated, handler =>
    up.fire (adaptEvent handler project (Action.adaptWork project set
      (some (Action.consult key delegated))))
  | lift up get set, handler =>
    up.fire (adaptEvent handler (fun parent => some (get parent)) (Action.adaptWork
      (fun parent => some (get parent)) (fun parent child => some (set parent child)) none))
  | transparent up _, handler => up.fire handler

def view {γ : Type} : Chain α γ → α → Option γ
  | top _, state => some state
  | boundary up _ project .., state => up.view state >>= project
  | lift up get .., state => (up.view state).map get
  | transparent up _, state => up.view state

end Chain

/-- `dispatch!` of an event whose route is current: which policies were consulted, and the
turn it makes. An event of a boundary that is not in the state (`exists!`) is discarded. -/
def dispatch {α γ S : Type} (chain : Chain α γ) (handler : γ → Action γ) (state : α)
    (boundaries : FiniteMap ℕ (BoundaryInfo S)) : Except String (List ℕ × Turn α S) :=
  if (chain.view state).isSome then do
    let work := (chain.fire handler state).resolveWork
    return (work.consulted, ← applyAction work.answer state chain.key boundaries)
  else .ok ([], ⟨state, none, none, none, boundaries⟩)

end BoundaryChains
