import RocGui.RecentCalls

/-! The handles the host gives out, what it holds for each, and the failures its calls answer
with, as the application decodes them. -/
namespace HandleStores

open FiniteMaps Grants GrantRuns RecentStores RecentCalls
open RecentEntries (EntryKind Unavailable)

/-- What a handle is of. Some of them share a kind of grant, and its numbers. -/
inductive Family where
  | directory | document | database | output | track | device | connection | process | pty | client
  | sampler | stream | clipboard | watch
  deriving DecidableEq, Repr

def Family.kind : Family → Kind
  | .directory => .directory
  | .document => .document
  | .database => .sqlite
  | .output | .track => .audio
  | .device | .connection => .device
  | .process | .pty => .process
  | .client => .http
  | .sampler => .systemMonitor
  | .stream => .tcp
  | .clipboard => .clipboard
  | .watch => .watch

def Family.rights : Family → Rights
  | .directory => (Rights.read.union .list).union .derive
  | .document | .database => Rights.read.union .derive
  | .output | .device | .process => Rights.connect.union .derive
  | .track | .connection | .pty | .stream => Rights.read.union .write
  | .client => .connect
  | .sampler => .capture
  | .clipboard => Rights.capture.union .write
  | .watch => .read

section Payloads

structure Track (R : Type) where
  player : R
  stopped : Bool

structure Pty (R : Type) where
  terminal : R
  canceled : Bool
  exited : Bool
  reading : Bool

/-- What the host holds for a handle. -/
def Payload (R : Family → Type) : Family → Type
  | .track => Track (R .track)
  | .pty => Pty (R .pty)
  | family => R family

end Payloads

structure Host (P : Family → Type) where
  /-- The grants, and the recent list with the places noted for the roots. -/
  lists : CallState
  payloads : (family : Family) → ℕ → Option (P family)
  next : Kind → ℕ

section Hosts

variable {P : Family → Type} (s : Host P)

def Host.registry : Registry := s.lists.grants.registry

def registryStep (e : GrantEvent) : Host P :=
  { s with lists := { s.lists with grants := GrantRuns.next s.lists.grants e } }

def setPayload (family : Family) (number : ℕ) (payload : Option (P family)) : Host P :=
  { s with
    payloads := Function.update s.payloads family (Function.update (s.payloads family) number payload) }

/-- A payload under the next number of its kind. -/
def store (family : Family) (payload : P family) : ℕ × Host P :=
  let number := s.next family.kind
  (number, { setPayload s family number (some payload) with
    next := Function.update s.next family.kind (number + 1) })

/-- The last reference to a handle is gone. A directory or a file has no place from then on. -/
def routeDealloc (family : Family) (number : ℕ) : Host P :=
  let s := setPayload s family number none
  match family with
  | .directory | .document => { s with lists := RecentCalls.next s.lists (.release family.kind number) }
  | _ => registryStep s (.release family.kind number)

end Hosts

section Reasons

inductive FileReason where
  | accessDenied | invalidCapability | invalidName | invalidUtf8 | io | notDirectory | notFound
  | resourceLimit | revoked | unavailable | unsupported
  deriving DecidableEq, Repr

inductive FileTag where
  | listDirectory | openReadDirectory | readFile
  deriving DecidableEq, Repr

inductive DeviceReason where
  | accessDenied | busy | closed | disconnected | invalidCapability | invalidRequest | io | notFound
  | protocol | resourceLimit | revoked | timeout | unsupported
  deriving DecidableEq, Repr

inductive DeviceTag where
  | discover | connect | transact | close
  deriving DecidableEq, Repr

inductive ProcessReason where
  | accessDenied | busy | exited | invalidCapability | invalidSize | io | resourceLimit | revoked
  | unsupported
  deriving DecidableEq, Repr

inductive ProcessTag where
  | spawn | read | write | resize | cancel
  deriving DecidableEq, Repr

inductive HttpReason where
  | accessDenied | bodyTooLarge | connectFailed | invalidCapability | invalidHeader | invalidRequest
  | invalidUrl | redirectLimit | revoked | timeout | unsupportedScheme
  deriving DecidableEq, Repr

inductive TcpFailure where
  | accessDenied | closed | connectionFailed | invalidCapability | invalidRequest | resourceLimit
  | timeout | revoked
  deriving DecidableEq, Repr

inductive Failure where
  | file (tag : FileTag) (reason : FileReason)
  | watchDirectory (code : UInt8) (message : String)
  | remember (reason : Unavailable)
  | sqlite (code : UInt8) (message : String)
  | audio (code : UInt8) (message : String)
  | device (tag : DeviceTag) (reason : DeviceReason)
  | process (tag : ProcessTag) (reason : ProcessReason)
  | http (reason : HttpReason)
  | system (code : UInt8)
  | tcp (failure : TcpFailure)
  | clipboard (code : UInt8) (message : String)
  deriving DecidableEq, Repr

end Reasons

section Decoders

inductive SqliteReason where
  | accessDenied | busy | corrupt | interrupted | invalidCapability | invalidName | invalidQuery | io
  | notDatabase | resourceLimit | revoked | unsupported
  deriving DecidableEq, Repr

inductive AudioReason where
  | accessDenied | decodeFailed | invalidCapability | invalidName | outputUnavailable | resourceLimit
  | revoked | unsupported | unavailable
  deriving DecidableEq, Repr

/-- The decoders of the application's side. -/
def decodeWatchReason (code : UInt8) : FileReason :=
  match code.toNat with
  | 0 => .accessDenied
  | 1 => .invalidCapability
  | 3 => .io
  | 4 => .resourceLimit
  | 6 => .revoked
  | 9 => .unsupported
  | _ => .unavailable

def decodeSqlite (code : UInt8) : SqliteReason :=
  match code.toNat with
  | 0 => .accessDenied
  | 1 => .busy
  | 2 => .corrupt
  | 3 => .invalidCapability
  | 4 => .invalidName
  | 5 => .invalidQuery
  | 6 => .io
  | 7 => .notDatabase
  | 8 => .resourceLimit
  | 9 => .unsupported
  | 10 => .revoked
  | 11 => .interrupted
  | _ => .unsupported

def decodeAudio (code : UInt8) : AudioReason :=
  match code.toNat with
  | 0 => .accessDenied
  | 1 => .invalidCapability
  | 2 => .invalidName
  | 3 => .resourceLimit
  | 4 => .unsupported
  | 5 => .decodeFailed
  | 6 => .outputUnavailable
  | 7 => .revoked
  | _ => .unavailable

/-- The code of a place that cannot be remembered, zero being success, and what it is read as. -/
def unavailableCode : Unavailable → UInt8
  | .accessDenied => 1
  | .forgotten => 2
  | .missing => 3
  | .replaced => 4
  | .revoked => 5
  | .unreadable => 6
  | .unsupported => 7

def decodeUnavailable (code : UInt8) : Unavailable :=
  match code.toNat with
  | 1 => .accessDenied
  | 2 => .forgotten
  | 3 => .missing
  | 4 => .replaced
  | 5 => .revoked
  | 7 => .unsupported
  | _ => .unreadable

/-- Whether a failure says that authority was withdrawn, or that the handle is invalid. -/
inductive Standing where
  | revoked | invalid | other
  deriving DecidableEq, Repr

def FileReason.standing : FileReason → Standing
  | .revoked => .revoked
  | .invalidCapability => .invalid
  | _ => .other

def SqliteReason.standing : SqliteReason → Standing
  | .revoked => .revoked
  | .invalidCapability => .invalid
  | _ => .other

def AudioReason.standing : AudioReason → Standing
  | .revoked => .revoked
  | .invalidCapability => .invalid
  | _ => .other

def DeviceReason.standing : DeviceReason → Standing
  | .revoked => .revoked
  | .invalidCapability => .invalid
  | _ => .other

def ProcessReason.standing : ProcessReason → Standing
  | .revoked => .revoked
  | .invalidCapability => .invalid
  | _ => .other

/-- The failures of the other resources are not classified. -/
def Failure.standing : Failure → Standing
  | .file _ reason => reason.standing
  | .watchDirectory code _ => (decodeWatchReason code).standing
  | .remember reason =>
    if decodeUnavailable (unavailableCode reason) = .revoked then .revoked else .other
  | .sqlite code _ => (decodeSqlite code).standing
  | .audio code _ => (decodeAudio code).standing
  | .device _ reason => reason.standing
  | .process _ reason => reason.standing
  | .http _ | .system _ | .tcp _ | .clipboard .. => .other

end Decoders

end HandleStores
