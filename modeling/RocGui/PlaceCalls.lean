import RocGui.FileTrees
import RocGui.RecentRuns
import RocGui.RecentStores
import RocGui.ThreadSystems

/-! The calls that choose places, remember them and reopen them, one system call or one locked
section a step. The file system may be any other one at every step. -/
namespace PlaceCalls

open FileTrees Grants TextFormats RecentFormats RecentStores ThreadSystems Transitions
open RecentEntries (EntryKind Unavailable)

structure FileSystem where
  tree : Tree Identity Bytes
  root : Identity
  cwd : Identity
  canonicalize : Path → Option Path

namespace FileSystem

variable (fs : FileSystem)

def start (path : Path) : Identity := if (components path).1 then fs.root else fs.cwd

/-- `metadata`, or the folder that a path opens as. -/
def stat (path : Path) : Option Identity := fs.tree.walk (fs.start path) (components path).2

/-- `symlink_metadata`. -/
def lstat (path : Path) : Option (NodeType × Identity) :=
  (fs.tree.look (fs.start path) (components path).2).map fun i => (fs.tree.types i, i)

def openDir (path : Path) : Option Identity :=
  match fs.stat path with
  | some i => if fs.tree.types i = .directory then some i else none
  | none => none

end FileSystem

/-- What a handle holds: an open folder, or the folder of a file and its name there. -/
inductive Held where
  | folder (dir : Identity)
  | file (dir : Identity) (name : Bytes)
  deriving DecidableEq

/-- The folder, or the file a read of the handle opens. Links and other nodes are not read. -/
def named (fs : FileSystem) : Held → Option Identity
  | .folder dir => some dir
  | .file dir name => (fs.tree.enter dir name).filter fun i => fs.tree.types i = .file

inductive IoError where
  | notFound | permissionDenied | other
  deriving DecidableEq, Repr

def checkReason : IoError → Unavailable
  | .notFound => .missing
  | .permissionDenied => .accessDenied
  | .other => .unreadable

def openReason : IoError → Unavailable
  | .permissionDenied => .accessDenied
  | .notFound | .other => .missing

structure Places where
  fs : FileSystem
  store : Store
  handles : GrantId → Option Held
  numbers : Kind → ℕ
  /-- The lists that were written to the store, which a later process may read. -/
  saved : List (List Entry)
  /-- Each entry that a `remember` left, and what its handle named then. -/
  history : List (Entry × Option Identity)

/-- What `locate` is for. -/
inductive Purpose where
  | pickFolder (origin : Origin)
  | pickFile (origin : Origin)
  | reopenFile (entry : Entry)

inductive Call where
  | idle
  | canonicalizing (purpose : Purpose) (path : Path)
  | opening (origin : Origin) (resolved : Path)
  /-- A provisioned folder is opened before its place is resolved. -/
  | resolving (dir : Identity) (path : Path)
  | typing (purpose : Purpose) (resolved : Path)
  | parenting (purpose : Purpose) (resolved : Path)
  | granting (held : Held) (kind : EntryKind) (place : Path) (origin : Origin)
  | remembering (id : GrantId) (held : Held) (kind : EntryKind) (place : Path) (origin : Origin)
  /-- What the handle named when the identity was taken is kept beside it. -/
  | committing (id : GrantId) (kind : EntryKind) (place : Path) (identity : Identity)
      (origin : Origin) (owner : Option Identity)
  | checking (entry : Entry)
  | reading (entry : Entry)
  | reopening (entry : Entry)
  | handing (entry : Entry) (held : Held)
  | handed (entry : Entry) (owner : Option Identity)
  | refused (reason : Unavailable)
  | releasing (id : GrantId)

inductive Action where
  | pickFolder (path : Path) (origin : Origin)
  | provideFolder (path : Path)
  | pickFile (path : Path) (origin : Origin)
  /-- The registry answers the origin of the root, or a refusal. -/
  | remember (id : GrantId) (answer : Except Refusal Origin)
  | reopen (key : UInt64) (kind : EntryKind)
  | forget (key : UInt64)
  | release (id : GrantId)
  | proceed
  | fault (error : IoError)

section Sections

variable (s : Places)

def grantKind : EntryKind → Kind
  | .directory => .directory
  | .file => .document

/-- A new handle, whose place is noted. -/
def capability (held : Held) (kind : EntryKind) (place : Path) : GrantId × Places :=
  let id : GrantId := ⟨grantKind kind, s.numbers (grantKind kind)⟩
  (id, { s with
    store := noteSource s.store id kind place
    handles := Function.update s.handles id (some held)
    numbers := Function.update s.numbers (grantKind kind) (s.numbers (grantKind kind) + 1) })

def saveChange (change : Option Change) : List (List Entry) :=
  match change with
  | some (_, entries) => entries :: s.saved
  | none => s.saved

def refuseRemember (reason : Unavailable) : Call × Places :=
  (.refused reason, { s with store := countRemember s.store (.error reason) })

def startRemember (id : GrantId) (held : Held) : Except Refusal Origin → Call × Places
  | .error refusal => refuseRemember s (RecentRuns.refusedAs refusal)
  | .ok origin => match s.store.sources.get id with
    | some (kind, place) => (.remembering id held kind place origin, s)
    | none => refuseRemember s .unsupported

def commitPlace (id : GrantId) (kind : EntryKind) (path : Path) (identity : Identity) (origin : Origin)
    (owner : Option Identity) : Places :=
  let (change, store) := commitRemember s.store id kind path identity origin
  { s with
    store := countRemember store (.ok ())
    saved := saveChange s change
    history := ((place s.store kind path identity origin).1, owner) :: s.history }

def refuseReopen (reason : Unavailable) : Call × Places :=
  (.refused reason, { s with store := countRefused s.store })

def kindType : EntryKind → NodeType
  | .file => .file
  | .directory => .directory

/-- The first part of `check`: what is at the place. -/
def check (entry : Entry) : Call × Places :=
  match s.fs.lstat entry.path with
  | none => refuseReopen s .missing
  | some (type, identity) =>
    if type ≠ kindType entry.kind ∨ identity ≠ entry.identity then refuseReopen s .replaced
    else (.reading entry, s)

/-- The place can be read: a folder is opened next, a file located again. -/
def checked (entry : Entry) : Call :=
  match entry.kind with
  | .directory => .reopening entry
  | .file => .canonicalizing (.reopenFile entry) entry.path

def hand (entry : Entry) (held : Held) : Call × Places :=
  let (id, s) := capability s held entry.kind entry.path
  (.handed entry (named s.fs held), { s with
    store := reopened s.store entry.key id entry.kind entry.path })

end Sections

section Locating

def refusedPurpose (purpose : Purpose) (error : IoError) : Call :=
  match purpose with
  | .reopenFile _ => .refused (openReason error)
  | .pickFolder _ | .pickFile _ => .refused (checkReason error)

def resolved (purpose : Purpose) (path : Path) : Call :=
  match purpose with
  | .pickFolder origin => .opening origin path
  | .pickFile _ | .reopenFile _ => .typing purpose path

/-- The handle of a file: its folder is open, and its name is text. A reopened file must be
where it was remembered. -/
def located (purpose : Purpose) (path : Path) (dir : Identity) (name : Bytes) : Call :=
  match purpose with
  | .pickFolder _ => .idle
  | .pickFile origin => .granting (.file dir name) .file path origin
  | .reopenFile entry =>
    if SamePath path entry.path then .handing entry (.file dir name) else .refused .replaced

/-- `Path::file_name`, where it is text. -/
def fileName (path : Path) : Option Bytes :=
  match (components path).2.getLast? with
  | some name => if name ≠ [46, 46] ∧ (fromUtf8 name).isSome then some name else none
  | none => none

def openParent (fs : FileSystem) (path : Path) : Option Identity :=
  match fs.tree.walk (fs.start path) (components path).2.dropLast with
  | some i => if fs.tree.types i = .directory then some i else none
  | none => none

end Locating

def advance (s : Places) : Call → Action → Option (Call × Places)
  | .idle, .pickFolder path origin => some (.canonicalizing (.pickFolder origin) path, s)
  | .idle, .pickFile path origin => some (.canonicalizing (.pickFile origin) path, s)
  | .idle, .provideFolder path => some (match s.fs.openDir path with
      | some dir => .resolving dir path
      | none => .refused .missing, s)
  | .canonicalizing purpose path, .proceed => some (match s.fs.canonicalize path with
      | some path => resolved purpose path
      | none => refusedPurpose purpose .notFound, s)
  | .canonicalizing purpose _, .fault error => some (refusedPurpose purpose error, s)
  | .opening origin path, .proceed => some (match s.fs.openDir path with
      | some dir => .granting (.folder dir) .directory path origin
      | none => .refused .missing, s)
  | .opening _ _, .fault error => some (.refused (checkReason error), s)
  | .resolving dir path, .proceed => some (match s.fs.canonicalize path with
      | some place => .granting (.folder dir) .directory place .provisioned
      | none => .refused .missing, s)
  | .resolving _ _, .fault error => some (.refused (checkReason error), s)
  | .typing purpose path, .proceed => some (match s.fs.stat path with
      | some i =>
        if s.fs.tree.types i = .file then .parenting purpose path else refusedPurpose purpose .other
      | none => refusedPurpose purpose .notFound, s)
  | .typing purpose _, .fault error => some (refusedPurpose purpose error, s)
  | .parenting purpose path, .proceed => some (match fileName path, openParent s.fs path with
      | some name, some dir => located purpose path dir name
      | none, _ => refusedPurpose purpose .other
      | _, none => refusedPurpose purpose .notFound, s)
  | .parenting purpose _, .fault error => some (refusedPurpose purpose error, s)
  | .granting held kind place _, .proceed => some (.idle, (capability s held kind place).2)
  | .idle, .remember id answer => (s.handles id).map fun held => startRemember s id held answer
  | .remembering id held kind place origin, .proceed => some (match s.fs.stat place with
      | some identity => (.committing id kind place identity origin (named s.fs held), s)
      | none => refuseRemember s .missing)
  | .remembering .., .fault error => some (refuseRemember s (checkReason error))
  | .committing id kind place identity origin owner, .proceed =>
    some (.idle, commitPlace s id kind place identity origin owner)
  | .idle, .reopen key kind => some (match findEntry s.store key kind with
      | .ok entry => (.checking entry, s)
      | .error reason => refuseReopen s reason)
  | .checking entry, .proceed => some (check s entry)
  | .checking _, .fault error => some (refuseReopen s (checkReason error))
  | .reading entry, .proceed => some (checked entry, s)
  | .reading _, .fault error => some (refuseReopen s (checkReason error))
  | .reopening entry, .proceed => some (match s.fs.openDir entry.path with
      | some dir => .handing entry (.folder dir)
      | none => .refused .missing, s)
  | .reopening _, .fault error => some (.refused (openReason error), s)
  | .handing entry held, .proceed => some (hand s entry held)
  | .handed .., .proceed => some (.idle, s)
  | .refused _, .proceed => some (.idle, s)
  | .idle, .forget key =>
    let ((_, change), store) := forget s.store key
    some (.idle, { s with store := store, saved := saveChange s change })
  | .idle, .release id => some (.releasing id, { s with handles := Function.update s.handles id none })
  | .releasing id, .proceed => some (.idle, { s with store := releaseSource s.store id })
  | _, _ => none

abbrev PlaceState := ThreadState Places Call

inductive PlaceEvent where
  | task (t : ℕ) (action : Action)
  /-- Another program changes the file system, in any way. -/
  | change (fs : FileSystem)
  /-- Another process reads a list that was written, or finds none. -/
  | restart (list : List Entry)

def next (s : PlaceState) : PlaceEvent → Option PlaceState
  | .task t action => step advance s (t, action)
  | .change fs => some ⟨{ s.shared with fs := fs }, s.calls⟩
  | .restart list =>
    if list ∈ [] :: s.shared.saved then some ⟨{ s.shared with
      store := configured (decode (encode list)) s.shared.store.backing
      handles := fun _ => none
      numbers := fun _ => 1 }, fun _ => .idle⟩
    else none

def started (backing : Option Path) (fs : FileSystem) : PlaceState :=
  ⟨⟨fs, configured [] backing, fun _ => none, fun _ => 1, [], []⟩, fun _ => .idle⟩

def placeSystem (backing : Option Path) (fs : FileSystem) : System PlaceState PlaceEvent where
  initial := started backing fs
  Step s e s' := next s e = some s'

end PlaceCalls
