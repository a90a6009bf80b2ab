import RocGui.AccessSurface
import RocGui.HandleCalls
import RocGui.ThreadSystems

/-! Calls on handles over every interleaving of their locked sections with acquisitions, releases
and withdrawals. -/
namespace HandleRuns

open FiniteMaps Grants GrantRuns Transitions ThreadSystems RecentFormats RecentStores RecentCalls
open HandleStores HandleCalls
open RecentEntries (EntryKind Unavailable)

/-- A handle the application holds: what it is of, and the root its authority comes from. -/
structure Holding where
  family : Family
  root : GrantId
  deriving DecidableEq

structure Shared (R : Family → Type) where
  host : Host (Payload R)
  holds : GrantId → Option Holding

inductive Answer (V : Type) where
  | value (value : Value V)
  | handle (family : Family) (number : ℕ)
  | failure (failure : Failure)

abbrev Part (R : Family → Type) (V : Type) := Operation (Payload R) V × ℕ

/-- What a call runs next, with its locals. -/
inductive Point (R : Family → Type) (V : Type) where
  /-- The registry is asked for the handle of `part`. -/
  | looking (part : Part R V) (rest : List (Part R V))
  /-- It was accepted, and the payload is used. -/
  | found (part : Part R V) (rest : List (Part R V)) (grant : Grant)
  | asking (grant : Grant) (revoked : Failure) (started : Except Failure (R .watch))
  /-- The payload has its number, and the registry no grant of it yet. -/
  | recording (grant : Grant) (family : Family) (number : ℕ)
  | remembering (family : Family) (number : ℕ) (metadata : Metadata)
  | answered (answer : Answer V)

/-- The roots of the handles a call took, and whether one of them was withdrawn by then. -/
structure Asked where
  roots : List GrantId
  withdrawn : Bool

structure Running (R : Family → Type) (V : Type) where
  call : HostCall R V
  asked : Asked
  point : Point R V

inductive Action (R : Family → Type) (V : Type) where
  | begin (call : HostCall R V)
  | proceed

inductive HandleEvent (R : Family → Type) (V : Type) where
  | task (t : ℕ) (action : Action R V)
  /-- A root, with the place that is noted for it. -/
  | acquire (family : Family) (payload : Payload R family) (origin : Origin)
      (place : Option (EntryKind × Path))
  | reopen (family : Family) (payload : Payload R family) (key : UInt64) (entryKind : EntryKind)
      (check : Entry → Except Unavailable Unit)
  /-- What is behind a handle changes on its own. -/
  | change (family : Family) (number : ℕ) (payload : Payload R family)
  | revoke (kind : Kind) (number : ℕ)
  | revokeKind (hashOrder : Enumeration GrantId Grant) (kind : Kind)
  /-- The application drops its last reference. -/
  | release (family : Family) (number : ℕ)
  | forget (key : UInt64)
  | beginLifecycle

/-- Whether handles of a family are derived from others only. -/
def derived : Family → Bool
  | .database | .track | .connection | .pty | .watch => true
  | _ => false

abbrev HandleState (R : Family → Type) (V : Type) := ThreadState (Shared R) (Option (Running R V))

section Calls

variable {R : Family → Type} {V : Type} (validName : String → Bool)

def parts (call : HostCall R V) : List (Part R V) :=
  match call.plan validName with
  | .remember .. => []
  | .one operation number => [(operation, number)]
  | .two first number second number' => [(first, number), (second, number')]

def handle (part : Part R V) : Family × ℕ := (part.1.family, part.2)

def taken (call : HostCall R V) : List (Family × ℕ) :=
  match call.plan validName with
  | .remember family number _ => [(family, number)]
  | .one .. | .two .. => (parts validName call).map handle

def enter (part : Part R V) (rest : List (Part R V)) : Point R V :=
  match part.1.early with
  | some failure => .answered (.failure failure)
  | none => .looking part rest

def goOn (value : Value V) : List (Part R V) → Point R V
  | [] => .answered (.value value)
  | part :: rest => enter part rest

def start (call : HostCall R V) : Point R V :=
  match call.plan validName with
  | .remember family number metadata => .remembering family number metadata
  | .one operation number => enter (operation, number) []
  | .two first number second number' => enter (first, number) [(second, number')]

end Calls

section Sections

variable {R : Family → Type} {V : Type} (s : Shared R)

def look (part : Part R V) (rest : List (Part R V)) : Point R V × Shared R :=
  let (operation, number) := part
  let kind := operation.family.kind
  let s' := { s with host := registryStep s.host (.accept kind number operation.needs) }
  match (accept kind number s.host.registry operation.needs).1 with
  | .error refusal =>
    (.answered (.failure (operation.checked.getD (operation.refused refusal))), s')
  | .ok grant => (.found part rest grant, s')

def storeNew (grant : Grant) (family : Family) (payload : Payload R family) :
    Point R V × Shared R :=
  let (number, host) := store s.host family payload
  (.recording grant family number, { s with host := host })

/-- What a payload is of use for. -/
def follow (part : Part R V) (rest : List (Part R V)) (grant : Grant) : Point R V × Shared R :=
  let (operation, number) := part
  match operation.checked with
  | some failure => (.answered (.failure failure), s)
  | none => match s.host.payloads operation.family number with
    | none => (.answered (.failure operation.missing), s)
    | some payload => match operation.spent payload with
      | some failure => (.answered (.failure failure), s)
      | none => match operation.use payload with
        | .error failure => (.answered (.failure failure), s)
        | .ok (.value value) => (goOn value rest, { s with
            host := setPayload s.host operation.family number (some (operation.leaves payload)) })
        | .ok (.derived family payload) => storeNew s grant family payload
        | .ok (.watch revoked started) => (.asking grant revoked started, s)

def ask (grant : Grant) (revoked : Failure) (started : Except Failure (R .watch)) :
    Point R V × Shared R :=
  if isRevoked grant.id.kind grant.id.number s.host.registry then (.answered (.failure revoked), s)
  else match started with
    | .error failure => (.answered (.failure failure), s)
    | .ok watch => storeNew s grant .watch watch

/-- The handle is given out whether or not the registry recorded it. -/
def record (grant : Grant) (family : Family) (number : ℕ) : Point R V × Shared R :=
  (.answered (.handle family number), {
    host := registryStep s.host (.recordDescendant family.kind number family.rights grant)
    holds := Function.update s.holds ⟨family.kind, number⟩ (some ⟨family, grant.root⟩) })

def rememberPlace (family : Family) (number : ℕ) (metadata : Metadata) : Point R V × Shared R :=
  let (outcome, lists) := RecentCalls.remember s.host.lists family.kind number
    fun path => (metadata path).mapError unavailable
  let s' := { s with host := { s.host with lists := lists } }
  match outcome with
  | .ok () => (.answered (.value .done), s')
  | .error reason => (.answered (.failure (.remember reason)), s')

def proceed : Point R V → Point R V × Shared R
  | .looking part rest => look s part rest
  | .found part rest grant => follow s part rest grant
  | .asking grant revoked started => ask s grant revoked started
  | .recording grant family number => record s grant family number
  | .remembering family number metadata => rememberPlace s family number metadata
  | .answered answer => (.answered answer, s)

/-- The roots of handles that are all held. -/
def rootsOf (handles : List (Family × ℕ)) : Option (List GrantId) :=
  handles.mapM fun (family, number) =>
    match s.holds ⟨family.kind, number⟩ with
    | some holding => if holding.family = family then some holding.root else none
    | none => none

def withdrawn (roots : List GrantId) : Bool := roots.any (· ∈ s.host.registry.revokedRoots)

end Sections

section Runs

variable {R : Family → Type} {V : Type} (validName : String → Bool)

def busy : Option (Running R V) → Bool
  | none => false
  | some running => match running.point with
    | .answered _ => false
    | _ => true

/-- A call begins with handles the application holds. -/
def advance (s : Shared R) (running : Option (Running R V)) :
    Action R V → Option (Option (Running R V) × Shared R)
  | .begin call =>
    if busy running then none
    else (rootsOf s (taken validName call)).map fun roots =>
      (some ⟨call, ⟨roots, withdrawn s roots⟩, start validName call⟩, s)
  | .proceed => running.map fun running =>
      let (point, s) := proceed s running.point
      (some { running with point := point }, s)

/-- A new handle, under the next number of its kind. -/
def giveOut (s : Shared R) (family : Family) (payload : Payload R family)
    (lists : ℕ → CallState) : Shared R :=
  let (number, host) := store s.host family payload
  { host := { host with lists := lists number }
    holds := Function.update s.holds ⟨family.kind, number⟩
      (some ⟨family, ⟨family.kind, number⟩⟩) }

def acquire (s : Shared R) (family : Family) (payload : Payload R family) (origin : Origin)
    (place : Option (EntryKind × Path)) : Shared R :=
  giveOut s family payload fun number => RecentCalls.next s.host.lists <| match place with
    | some (entryKind, path) => .choose family.kind number family.rights origin entryKind path
    | none => .provide family.kind number family.rights origin

def reopen (s : Shared R) (family : Family) (payload : Payload R family) (key : UInt64)
    (entryKind : EntryKind) (check : Entry → Except Unavailable Unit) : Shared R :=
  let refused := { s with host := { s.host with
    lists := { s.host.lists with store := countRefused s.host.lists.store } } }
  match findEntry s.host.lists.store key entryKind with
  | .error _ => refused
  | .ok entry => match check entry with
    | .error _ => refused
    | .ok () => giveOut s family payload fun number =>
        reopenAs s.host.lists entry entryKind family.kind number family.rights

def release (s : Shared R) (family : Family) (number : ℕ) : Shared R where
  host := routeDealloc s.host family number
  holds := Function.update s.holds ⟨family.kind, number⟩ none

def onLists (s : Shared R) (e : CallEvent) : Shared R :=
  { s with host := { s.host with lists := RecentCalls.next s.host.lists e } }

def next (s : HandleState R V) : HandleEvent R V → Option (HandleState R V)
  | .task t action => step (advance validName) s (t, action)
  | .acquire family payload origin place =>
    if derived family then none
    else some { s with shared := acquire s.shared family payload origin place }
  | .reopen family payload key entryKind check =>
    if derived family then none
    else some { s with shared := reopen s.shared family payload key entryKind check }
  | .change family number payload =>
    if (s.shared.host.payloads family number).isSome then
      some { s with shared := { s.shared with
        host := setPayload s.shared.host family number (some payload) } }
    else none
  | .revoke kind number => some { s with shared := onLists s.shared (.revoke kind number) }
  | .revokeKind hashOrder kind =>
    some { s with shared := onLists s.shared (.revokeKind hashOrder kind) }
  | .release family number =>
    if (s.shared.holds ⟨family.kind, number⟩).map (·.family) = some family then
      some { s with shared := release s.shared family number }
    else none
  | .forget key => some { s with shared := onLists s.shared (.forget key) }
  | .beginLifecycle => some { s with shared := onLists s.shared .beginLifecycle }

def references : Point R V → List (Family × ℕ)
  | .looking part rest | .found part rest _ =>
    (if part.1.late then rest else part :: rest).map handle
  | _ => []

/-- A handle that a call has a reference to is not released. -/
def Free (s : HandleState R V) : HandleEvent R V → Prop
  | .release family number => ∀ t running, s.calls t = some running →
      (family, number) ∉ references running.point
  | _ => True

def started (store : RecentStores.Store) : HandleState R V where
  shared := ⟨⟨RecentCalls.started store, fun _ _ => none, fun _ => 1⟩, fun _ => none⟩
  calls _ := none

def handleSystem (store : RecentStores.Store) : System (HandleState R V) (HandleEvent R V) where
  initial := started store
  Step s e t := Free s e ∧ next validName s e = some t

end Runs

end HandleRuns
