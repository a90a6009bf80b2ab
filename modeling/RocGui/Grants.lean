import RocGui.FiniteMaps
import Mathlib.Order.Lex
import Mathlib.Data.Prod.Lex
import Mathlib.Data.Finset.Image

/-! The grant registry. Each function is one section under the registry's lock. -/
namespace Grants

open FiniteMaps

inductive Kind where
  | appData | assets | audio | clipboard | device | directory | document | http | process | sqlite
  | systemMonitor | tcp | watch
  deriving DecidableEq, Repr

def Kind.code : Kind → ℕ
  | .appData => 0
  | .assets => 1
  | .audio => 2
  | .clipboard => 3
  | .device => 4
  | .directory => 5
  | .document => 6
  | .http => 7
  | .process => 8
  | .sqlite => 9
  | .systemMonitor => 10
  | .tcp => 11
  | .watch => 12

theorem code_injective : Function.Injective Kind.code := by
  intro a b h
  cases a <;> cases b <;> first | rfl | cases h

/-- The name a family carries in evidence. -/
def Kind.name : Kind → String
  | .appData => "app-data"
  | .assets => "assets"
  | .audio => "audio"
  | .clipboard => "clipboard"
  | .device => "device"
  | .directory => "directory"
  | .document => "document"
  | .http => "http"
  | .process => "process"
  | .sqlite => "sqlite"
  | .systemMonitor => "system-monitor"
  | .tcp => "tcp"
  | .watch => "watch"

/-- Handle numbers are local to a family, so a number alone is no identity. -/
structure GrantId where
  kind : Kind
  number : ℕ
  deriving Repr

def GrantId.rank (id : GrantId) : ℕ ×ₗ ℕ := toLex (id.kind.code, id.number)

theorem rank_injective : Function.Injective GrantId.rank := by
  rintro ⟨k, n⟩ ⟨k', n'⟩ h
  obtain ⟨hk, hn⟩ := Prod.mk.inj (toLex.injective h)
  obtain rfl := code_injective hk
  obtain rfl := hn
  rfl

instance : LinearOrder GrantId := LinearOrder.lift' GrantId.rank rank_injective

inductive Enforcement where
  | brokered | consentOnly
  deriving DecidableEq, Repr

def Enforcement.name : Enforcement → String
  | .brokered => "brokered"
  | .consentOnly => "consent-only"

inductive Origin where
  | trustedSelection (enforcement : Enforcement)
  | dropped (enforcement : Enforcement)
  | provisioned
  | automatic
  deriving DecidableEq, Repr

def Origin.name : Origin → String
  | .trustedSelection _ => "trusted-selection"
  | .dropped _ => "drop"
  | .provisioned => "provisioned"
  | .automatic => "automatic"

def Origin.enforcement : Origin → Enforcement
  | .trustedSelection enforcement | .dropped enforcement => enforcement
  | .provisioned | .automatic => .consentOnly

inductive Lifetime where
  | session | remembered
  deriving DecidableEq, Repr

structure Rights where
  bits : UInt32
  deriving DecidableEq

namespace Rights

def read : Rights := ⟨(1 : UInt32) <<< 0⟩
def write : Rights := ⟨(1 : UInt32) <<< 1⟩
def list : Rights := ⟨(1 : UInt32) <<< 2⟩
def derive : Rights := ⟨(1 : UInt32) <<< 3⟩
def connect : Rights := ⟨(1 : UInt32) <<< 4⟩
def capture : Rights := ⟨(1 : UInt32) <<< 5⟩

def union (r other : Rights) : Rights := ⟨r.bits ||| other.bits⟩
def Contains (r other : Rights) : Prop := r.bits &&& other.bits = other.bits

instance (r other : Rights) : Decidable (r.Contains other) := inferInstanceAs (Decidable (_ = _))

def names (r : Rights) : List String :=
  ([(read, "read"), (write, "write"), (list, "list"), (derive, "derive"), (connect, "connect"),
    (capture, "capture")].filter fun right => r.Contains right.1).map Prod.snd

end Rights

structure Grant where
  id : GrantId
  rights : Rights
  origin : Origin
  lifetime : Lifetime
  parent : Option GrantId
  /-- The root this grant descends from, itself for a root. -/
  root : GrantId
  revoked : Bool
  deriving DecidableEq

def Grant.Live (grant : Grant) : Prop := grant.revoked = false

instance (grant : Grant) : Decidable grant.Live := inferInstanceAs (Decidable (_ = _))

def Grant.isRoot (grant : Grant) : Bool := grant.parent.isNone

/-- How a grant is named wherever a person or a specification reads it. -/
def Grant.describe (grant : Grant) : String :=
  grant.id.kind.name ++ " " ++ grant.origin.name ++ "/" ++ grant.origin.enforcement.name ++ " " ++
    (if grant.parent.isNone then "root" else "derived") ++ " " ++
    String.intercalate "," grant.rights.names ++
    (if grant.lifetime = .remembered then " remembered" else "") ++
    (if grant.revoked then " revoked" else "")

structure Registry where
  grants : FiniteMap GrantId Grant
  /-- The durable record of the revocations; it outlives the entries. -/
  revokedRoots : Finset GrantId
  recorded : ℕ
  released : ℕ
  revoked : ℕ
  denied : ℕ
  /-- Remembered roots revoked since the recent list last heard of it. -/
  withdrawnRemembered : List GrantId

def Registry.empty : Registry := ⟨∅, ∅, 0, 0, 0, 0, []⟩

inductive Refusal where
  | unknown | revoked | rights
  deriving DecidableEq, Repr

section Recording

variable (kind : Kind) (number : ℕ) (rights : Rights) (registry : Registry)

def recordRoot (origin : Origin) (lifetime : Lifetime) : Registry :=
  let id : GrantId := ⟨kind, number⟩
  { registry with
    recorded := registry.recorded + 1
    grants := registry.grants.set id ⟨id, rights, origin, lifetime, none, id, false⟩ }

/-- The parent is the grant that `accept` returned. Liveness is asked of its root now,
not of the copy. -/
def recordDescendant (parent : Grant) : Bool × Registry :=
  if ¬parent.rights.Contains .derive then (false, registry)
  else if parent.root ∈ registry.revokedRoots then (false, registry)
  else
    let id : GrantId := ⟨kind, number⟩
    (true, { registry with
      recorded := registry.recorded + 1
      grants := registry.grants.set id
        ⟨id, rights, parent.origin, parent.lifetime, some parent.id, parent.root, false⟩ })

/-- The point at which an operation is accepted against a grant. -/
def accept (needs : Rights) : Except Refusal Grant × Registry :=
  let denied := { registry with denied := registry.denied + 1 }
  match registry.grants.get ⟨kind, number⟩ with
  | none => (.error .unknown, denied)
  | some grant =>
    if ¬grant.Live ∨ grant.root ∈ registry.revokedRoots then (.error .revoked, denied)
    else if ¬grant.rights.Contains needs then (.error .rights, denied)
    else (.ok grant, registry)

/-- Whether a grant or its root was revoked; a question, so nothing is counted. -/
def isRevoked : Bool :=
  match registry.grants.get ⟨kind, number⟩ with
  | some grant => ¬grant.Live ∨ grant.root ∈ registry.revokedRoots
  | none => false

def isHeld : Bool := (registry.grants.get ⟨kind, number⟩).isSome

/-- Releasing is not revoking. -/
def release : Registry :=
  if (registry.grants.get ⟨kind, number⟩).isSome then
    { registry with
      grants := registry.grants.remove ⟨kind, number⟩
      released := registry.released + 1 }
  else registry

end Recording

section Withdrawing

/-- Flags the selected grants that are not flagged yet. -/
def flag (selects : Grant → Bool) (grant : Grant) : Grant :=
  if selects grant ∧ ¬grant.revoked then { grant with revoked := true } else grant

def flagged (registry : Registry) (selects : Grant → Bool) : ℕ :=
  (registry.grants.keys.filter fun id =>
    ∃ grant ∈ registry.grants.get id, selects grant ∧ ¬grant.revoked).card

/-- The section of `revoke` under the registry's lock. -/
def revoke (kind : Kind) (number : ℕ) (registry : Registry) : ℕ × Registry :=
  match registry.grants.get ⟨kind, number⟩ with
  | none => (0, registry)
  | some target =>
    let root := target.root
    let count := flagged registry (·.root = root)
    (count, { registry with
      revokedRoots := insert root registry.revokedRoots
      withdrawnRemembered := if target.lifetime = .remembered
        then registry.withdrawnRemembered ++ [root] else registry.withdrawnRemembered
      grants := registry.grants.mapValues (flag (·.root = root))
      revoked := registry.revoked + count })

/-- The section of `revoke_kind` under the registry's lock. -/
def revokeKind (hashOrder : Enumeration GrantId Grant) (kind : Kind) (registry : Registry) :
    ℕ × Registry :=
  let values := (hashOrder.entries registry.grants).map Prod.snd
  let roots := (values.filter (·.root.kind = kind)).map (·.root)
  let remembered := (values.filter fun grant =>
    grant.root.kind = kind ∧ grant.parent = none ∧ grant.lifetime = .remembered ∧
      ¬grant.revoked).map (·.id)
  let count := flagged registry (·.root.kind = kind)
  (count, { registry with
    withdrawnRemembered := registry.withdrawnRemembered ++ remembered
    revokedRoots := registry.revokedRoots ∪ roots.toFinset
    grants := registry.grants.mapValues (flag (·.root.kind = kind))
    revoked := registry.revoked + count })

def takeWithdrawnRemembered (registry : Registry) : List GrantId × Registry :=
  (registry.withdrawnRemembered, { registry with withdrawnRemembered := [] })

def keep (root : GrantId) (held : Grant) : Grant :=
  if held.root = root then { held with lifetime := .remembered } else held

/-- Marks a live root as remembered, and every grant derived from it. -/
def remember (kind : Kind) (number : ℕ) (registry : Registry) : Except Refusal Grant × Registry :=
  match registry.grants.get ⟨kind, number⟩ with
  | none => (.error .unknown, registry)
  | some grant =>
    if ¬grant.Live ∨ grant.root ∈ registry.revokedRoots then (.error .revoked, registry)
    else if grant.parent.isSome ∨ grant.origin = .automatic then (.error .rights, registry)
    else (.ok { grant with lifetime := .remembered },
      { registry with grants := registry.grants.mapValues (keep grant.root) })

def enumerate (hashOrder : Enumeration GrantId Grant) (registry : Registry) : List Grant :=
  ((hashOrder.entries registry.grants).map Prod.snd).insertionSort fun a b => a.id ≤ b.id

/-- One family's grants cease to exist, with what descends from its roots. -/
def forgetKind (kind : Kind) (registry : Registry) : Registry :=
  { registry with
    grants := registry.grants.retain fun held grant => held.kind ≠ kind ∧ grant.root.kind ≠ kind
    revokedRoots := registry.revokedRoots.filter (·.kind ≠ kind) }

end Withdrawing

end Grants
