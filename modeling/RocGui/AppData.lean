import RocGui.Grants
import RocGui.InodeFolders
import RocGui.TextFormats
import RocGui.ThreadSystems

/-! Application data: values under flat names in one folder. A write fills a temporary file of
the same folder and renames it; its name comes from a number that starts over with the process. -/
namespace AppData

open Grants InodeFolders ThreadSystems Transitions TextFormats

def maxNameBytes : ℕ := 128
def maxValueBytes : ℕ := 1024 * 1024

def isAsciiAlphanumeric (byte : UInt8) : Bool :=
  (48 ≤ byte && byte ≤ 57) || (65 ≤ byte && byte ≤ 90) || (97 ≤ byte && byte ≤ 122)

/-- Letters, digits and `-`, `_`, `.`, without the two names of folders. -/
def validName (key : Text) : Bool :=
  !key.isEmpty && decide ((utf8 key).length ≤ maxNameBytes) &&
    (utf8 key).all (fun byte => isAsciiAlphanumeric byte || [45, 95, 46].contains byte) &&
      decide (key ≠ ['.']) && decide (key ≠ ['.', '.'])

def temporary (id : ℕ) : Text := ".app-data-".toList ++ decimal id ++ ".tmp".toList

abbrev Failure := UInt8 × String

/-- What a capability leads to. -/
inductive Lookup where
  | directory
  | refused (why : Refusal)
  /-- The registry accepts the number, and no handle has it. -/
  | missing
  deriving DecidableEq

def refusal : Refusal → Failure
  | .revoked => (6, "application data authority was withdrawn")
  | .unknown | .rights => (1, "invalid application data capability")

def Lookup.failure : Lookup → Option Failure
  | .directory => none
  | .refused why => some (refusal why)
  | .missing => some (1, "invalid application data capability")

structure Read where
  root : Lookup
  name : Text

structure Write where
  root : Lookup
  name : Text
  value : Text

/-- What a read is refused for before it looks at the folder. -/
def Read.refused (r : Read) : Option Failure :=
  match r.root.failure with
  | some failure => some failure
  | none => if validName r.name then none else some (2, "invalid application data file name")

def Write.refused (w : Write) : Option Failure :=
  match w.root.failure with
  | some failure => some failure
  | none =>
    if !validName w.name then some (2, "invalid application data file name")
    else if maxValueBytes < (utf8 w.value).length then
      some (4, "application data file exceeds one MiB")
    else none

/-- The folder, the number of the next temporary file, and the history of the folder. -/
structure AppFolder where
  folder : Folder Text UInt8
  temp : ℕ
  /-- The value of the last write to a name that was committed. -/
  committed : Text → Option Text
  /-- The temporary files that were created, and neither renamed nor removed. -/
  temporaries : List Text

inductive Call where
  | idle
  | opening (r : Read)
  /-- What the name held when its file was opened is kept beside the bytes. -/
  | reading (r : Read) (inode : ℕ) (bytes : Bytes) (expected : Option Text)
  | answered (r : Read) (expected : Option Text) (faulted : Bool)
      (answer : Except Failure (Option Text))
  | drawing (w : Write)
  | creating (w : Write) (id : ℕ)
  | filling (w : Write) (id inode written : ℕ)
  | committing (w : Write) (id : ℕ)
  | removing (w : Write) (id : ℕ) (faulted : Bool) (failure : Failure)
  /-- The folder is synchronised, whatever comes of it. -/
  | syncing (w : Write)
  | ended (w : Write) (faulted committed : Bool) (outcome : Except Failure Unit)

inductive Action where
  | read (r : Read)
  | write (w : Write)
  | proceed
  /-- A transfer moves as many bytes as the system likes. -/
  | transfer (count : ℕ)
  /-- The filesystem reports a fault. -/
  | fault

section Reading

def readAnswer (bytes : Bytes) : Except Failure (Option Text) :=
  if maxValueBytes < bytes.length then .error (4, "application data file exceeds one MiB")
  else match fromUtf8 bytes with
    | some value => .ok (some value)
    | none => .error (3, "application data file is not UTF-8")

/-- A name that is not found is absent. -/
def openRead (s : AppFolder) (r : Read) : Call :=
  match s.folder.entries r.name with
  | some inode => .reading r inode [] (s.committed r.name)
  | none => .answered r (s.committed r.name) false (.ok none)

/-- The file is read to its end, or to one byte past the bound. -/
def readChunk (s : AppFolder) (r : Read) (inode : ℕ) (bytes : Bytes) (expected : Option Text)
    (count : ℕ) : Call :=
  let chunk := ((s.folder.contents inode).drop bytes.length).take
    (min count (maxValueBytes + 1 - bytes.length))
  if chunk = [] then .answered r expected false (readAnswer bytes)
  else .reading r inode (bytes ++ chunk) expected

end Reading

section Writing

def draw (s : AppFolder) (w : Write) : Call × AppFolder :=
  if s.temp + 1 < 2 ^ 64 then (.creating w s.temp, { s with temp := s.temp + 1 })
  else (.ended w false false (.error (5, "application data ids exhausted")), s)

def createFailure : Failure := (3, "could not create atomic application data file")

def create (s : AppFolder) (w : Write) (id : ℕ) : Call × AppFolder :=
  match s.folder.createNew (temporary id) with
  | some (inode, folder) => (.filling w id inode 0,
      { s with folder := folder, temporaries := temporary id :: s.temporaries })
  | none => (.ended w false false (.error createFailure), s)

def fill (s : AppFolder) (w : Write) (id inode written count : ℕ) : Call × AppFolder :=
  let chunk := ((utf8 w.value).drop written).take count
  (.filling w id inode (written + chunk.length),
    { s with folder := s.folder.write inode written chunk })

def commitFailure : Failure := (3, "could not commit application data file")

def commit (s : AppFolder) (w : Write) (id : ℕ) : Call × AppFolder :=
  match s.folder.rename (temporary id) w.name with
  | some folder => (.syncing w,
      { s with
        folder := folder
        committed := Function.update s.committed w.name (some w.value)
        temporaries := s.temporaries.filter fun n => n ≠ temporary id ∧ n ≠ w.name })
  | none => (.removing w id false commitFailure, s)

/-- What comes of the removal is not looked at. -/
def removeTemporary (s : AppFolder) (id : ℕ) : AppFolder :=
  match s.folder.remove (temporary id) with
  | some folder =>
    { s with folder := folder, temporaries := s.temporaries.filter fun n => n ≠ temporary id }
  | none => s

end Writing

def advance (s : AppFolder) : Call → Action → Option (Call × AppFolder)
  | .idle, .read r => some (match r.refused with
      | some failure => .answered r none false (.error failure)
      | none => .opening r, s)
  | .opening r, .proceed => some (openRead s r, s)
  | .opening r, .fault =>
    some (.answered r (s.committed r.name) true
      (.error (3, "could not read application data file")), s)
  | .reading r inode bytes expected, .transfer count =>
    if count = 0 then none else some (readChunk s r inode bytes expected count, s)
  | .reading r _ _ expected, .fault =>
    some (.answered r expected true (.error (3, "could not read application data file")), s)
  | .answered .., .proceed => some (.idle, s)
  | .idle, .write w => some (match w.refused with
      | some failure => .ended w false false (.error failure)
      | none => .drawing w, s)
  | .drawing w, .proceed => some (draw s w)
  | .creating w id, .proceed => some (create s w id)
  | .creating w _, .fault => some (.ended w true false (.error createFailure), s)
  | .filling w id inode written, .transfer count =>
    if count = 0 then none else some (fill s w id inode written count)
  -- all is written and the file synchronised
  | .filling w id _ written, .proceed =>
    if written = (utf8 w.value).length then some (.committing w id, s) else none
  | .filling w id _ _, .fault =>
    some (.removing w id true (3, "could not write application data file"), s)
  | .committing w id, .proceed => some (commit s w id)
  | .committing w id, .fault => some (.removing w id true commitFailure, s)
  | .removing w id faulted failure, .proceed =>
    some (.ended w faulted false (.error failure), removeTemporary s id)
  | .removing w _ faulted failure, .fault => some (.ended w faulted false (.error failure), s)
  | .syncing w, .proceed => some (.ended w false true (.ok ()), s)
  | .ended .., .proceed => some (.idle, s)
  | _, _ => none

inductive AppEvent where
  /-- Task `t` runs one section of its call. -/
  | task (t : ℕ) (action : Action)
  /-- The process ends, at any point of its calls, and another one starts on the folder. -/
  | restart

abbrev AppState := ThreadState AppFolder Call

def next (s : AppState) : AppEvent → Option AppState
  | .task t action => step advance s (t, action)
  | .restart => some ⟨{ s.shared with temp := 1 }, fun _ => .idle⟩

def started : AppState :=
  ⟨⟨⟨fun _ => none, fun _ => [], 0⟩, 1, fun _ => none, []⟩, fun _ => .idle⟩

def appSystem : System AppState AppEvent where
  initial := started
  Step s e s' := next s e = some s'

theorem temporary_injective : Function.Injective temporary := by
  intro a b h
  refine decimal_injective ?_
  exact List.append_cancel_left (List.append_cancel_right h)

end AppData
