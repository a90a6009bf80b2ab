import RocGui.ElementNodes

/-! Boundaries while a turn lowers them: resolving a component, rebuilding it, and retiring
the ones a rebuild no longer emits. -/
namespace Components

open Boundaries Elements FiniteMaps Hosts KeyedFallbacks KeyedSeqs Methods Styles

variable {α H : Type}

structure Lowered (α H : Type) where
  boundaries : FiniteMap ℕ (BoundaryInfo α)
  root : ℕ
  routes : FiniteMap ℕ (Route α H)

def answered {β : Type} (message : String) : Answer Key β → HostM H β
  | .ok b => pure b
  | .error (.error _) => panics message
  | .error (.panic message) => panics message
  | .error .diverges => throw .diverges

def unchanged (host : Host H) (owner : BoundaryInfo α) (state : α) : HostM H Bool :=
  match owner.memo with
  | none => pure false
  | some compare => do
    host.workStart 4
    host.componentWork 1 1
    let result ← checked (compare state)
    host.workEnd 4
    if result then host.componentWork 2 1
    pure result

inductive Decision (α H : Type) where
  | retained (built : Building α H)
  | descend (owner : BoundaryInfo α) (parent : BuildingOwner)

def freshBoundary (id parent : ℕ) (path : List ℕ) (bound : BoundComponent α (Elem α)) :
    HostM H (BoundaryInfo α) := do
  let keyedItems ← answered "KeyedSeq.empty" KeyedSeq.empty
  pure
    { key := id, parent := some parent, path := path ++ [id], render := bound.render, root := 0
      bound := some bound, memo := none, revision := 0, routeIds := .empty, children := []
      keyedContainer := 0, keyedRevision := 0, keyedItems, keyed := none }

/-- The record of a boundary that is emitted again; its snapshot holds only while the
boundary stays memoized, or stays without a memo. -/
def rebound (previous : BoundaryInfo α) (bound : BoundComponent α (Elem α)) : BoundaryInfo α :=
  let wasMemoized := (previous.bound.bind (·.remember)).isSome
  { previous with
    bound := some bound
    render := bound.render
    memo := if wasMemoized = bound.remember.isSome then previous.memo else none }

def resolveInstance (host : Host H) (bound : BoundComponent α (Elem α)) : HostM H Resolved :=
  match bound.key with
  | none => host.componentResolve 0 []
  | some key => host.componentResolve 1 key.toList

def resolveOwner (host : Host H) (bound : BoundComponent α (Elem α)) (parent : ℕ)
    (parentInfo : BuildingOwner) (stored : FiniteMap ℕ (BoundaryInfo α)) (id : ℕ) :
    HostM H (BoundaryInfo α) :=
  match stored.get id with
  | some previous => pure (rebound previous bound)
  | none => do
    host.componentWork 3 1
    freshBoundary id parent parentInfo.path bound

def prepareComponent (host : Host H) (bound : BoundComponent α (Elem α)) (state : α)
    (parent : ℕ) (built : Building α H) : HostM H (Decision α H) := do
  host.workEnd 3
  host.workStart 0
  let resolved ← resolveInstance host bound
  host.componentWork 5 1
  let parentInfo := built.boundaries.active
  ensure (parentInfo.key = parent) "mismatched component parent"
  let owner ← resolveOwner host bound parent parentInfo built.boundaries.stored resolved.instance
  let withParent := { parentInfo with children := parentInfo.children ++ [resolved.instance] }
  ensure (← checked (bound.exists state)) "render emitted a removed component"
  host.workEnd 0
  if ← unchanged host owner state then
    host.workStart 3
    let root ← host.retainSubtree owner.root
    pure (.retained
      { built with root, boundaries := ⟨built.boundaries.stored.set owner.key owner, withParent⟩ })
  else
    pure (.descend owner withParent)

/-! ### Retirement -/

inductive RetireWork where
  | visit (key : ℕ)
  | remove (key : ℕ)
  deriving DecidableEq

/-- The last element of the source's list is the first here. A walk that meets a boundary it
has not left yet does not end. -/
def retireLoop (host : Host H) : ℕ → List RetireWork → FiniteMap ℕ (Route α H) →
    FiniteMap ℕ (BoundaryInfo α) →
    HostM H (FiniteMap ℕ (Route α H) × FiniteMap ℕ (BoundaryInfo α))
  | _, [], routes, boundaries => pure (routes, boundaries)
  | 0, _ :: _, _, _ => throw .diverges
  | fuel + 1, .visit current :: work, routes, boundaries => do
    let owner ← expect "missing retired component" (boundaries.get current)
    let keyed ← answered "KeyedSeq.to_list" owner.keyedItems.toList
    retireLoop host fuel (owner.children.map .visit ++ (keyed.map (.visit ·.2)).reverse ++
      .remove current :: work) routes boundaries
  | fuel + 1, .remove current :: work, routes, boundaries => do
    let owner ← expect "missing retired component" (boundaries.get current)
    let routes := owner.routeIds.fold routes FiniteMap.remove
    host.componentWork 4 1
    retireLoop host fuel work routes (boundaries.remove current)

def retire (host : Host H) (key : ℕ) (routes : FiniteMap ℕ (Route α H))
    (boundaries : FiniteMap ℕ (BoundaryInfo α)) :
    HostM H (FiniteMap ℕ (Route α H) × FiniteMap ℕ (BoundaryInfo α)) :=
  retireLoop host (2 * boundaries.size + 1) [.visit key] routes boundaries

/-! ### Rebuilding -/

structure Prepared (α H : Type) where
  cleared : BoundaryInfo α
  rendered : Elem α
  routes : FiniteMap ℕ (Route α H)
  prepared : BuildingOwners α

/-- The owner's record as a rebuild starts from it, without what the last one registered. -/
def clearedOwner (owner : BoundaryInfo α) : BoundaryInfo α :=
  { owner with revision := owner.revision + 1, routeIds := .empty, children := [], memo := none }

def buildingOwner (key revision : ℕ) (path : List ℕ) : BuildingOwner :=
  { key, revision, path, routeIds := .empty, children := [], keyedContainer := 0
    keyedRevision := 0, keyedKeys := [], keyed := none }

def prepareRebuild (host : Host H) (owner : BoundaryInfo α) (state : α)
    (routes : FiniteMap ℕ (Route α H)) (boundaries : FiniteMap ℕ (BoundaryInfo α)) :
    HostM H (Prepared α H) := do
  host.workStart 0
  let routes := owner.routeIds.fold routes FiniteMap.remove
  let cleared := clearedOwner owner
  let active := buildingOwner cleared.key cleared.revision cleared.path
  host.workEnd 0
  host.workStart 2
  host.componentWork 0 1
  let rendered ← checked (owner.render state)
  host.workEnd 2
  host.workStart 3
  pure ⟨cleared, rendered, routes, ⟨boundaries, active⟩⟩

def keyedItemsOf (completed : BuildingOwner) : HostM H (KeyedSeq Key ℕ) := do
  let empty ← answered "KeyedSeq.empty" KeyedSeq.empty
  completed.keyedKeys.zipIdx.foldlM (fun items entry => do
    let child ← expect "keyed item boundary missing" completed.children[entry.2]?
    answered "duplicate keyed item boundary" (items.insertBefore entry.1 child none)) empty

def completedOwner (cleared : BoundaryInfo α) (completed : BuildingOwner)
    (items : KeyedSeq Key ℕ) : BoundaryInfo α :=
  let current := { cleared with
    routeIds := completed.routeIds
    keyed := completed.keyed.or cleared.keyed }
  if completed.keyedContainer = 0 then { current with children := completed.children }
  else
    { current with
      children := []
      keyedContainer := completed.keyedContainer
      keyedRevision := completed.keyedRevision
      keyedItems := items }

/-- Retires the children the last build emitted and this one did not. -/
def retireMissing (host : Host H) (current : List ℕ) (previous : List ℕ)
    (routes : FiniteMap ℕ (Route α H)) (boundaries : FiniteMap ℕ (BoundaryInfo α)) :
    HostM H (FiniteMap ℕ (Route α H) × FiniteMap ℕ (BoundaryInfo α)) :=
  previous.foldlM (fun settled child =>
    if child ∈ current then pure settled else retire host child settled.1 settled.2)
    (routes, boundaries)

def finishRebuild (host : Host H) (owner cleared : BoundaryInfo α) (state : α)
    (built : Building α H) : HostM H (Lowered α H) := do
  let completed := built.boundaries.active
  let items ← keyedItemsOf completed
  let root ← if owner.key = 0 then pure built.root else host.nodeBoundary owner.key built.root
  host.workEnd 3
  host.workStart 0
  let current := completedOwner cleared completed items
  let (routes, boundaries) ←
    if owner.children ≠ [] ∧ owner.children ≠ current.children then
      retireMissing host current.children owner.children built.routes built.boundaries.stored
    else pure (built.routes, built.boundaries.stored)
  let memo ← match owner.bound.bind (·.remember) with
    | none => pure none
    | some capture => do
      let compare ← checked (capture state)
      pure (some compare)
  let updated := { current with root, memo }
  host.workEnd 0
  pure { root, routes, boundaries := boundaries.set owner.key updated }

end Components
