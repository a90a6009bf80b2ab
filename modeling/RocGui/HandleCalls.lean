import RocGui.HandleStores

/-! The calls that take a handle: how each looks it up and releases it, and what it answers.
What a file, a database or a device itself answers is a parameter. -/
namespace HandleCalls

open Grants RecentFormats HandleStores
open RecentEntries (Unavailable)

section Operations

inductive Value (V : Type) where
  | data (v : V)
  | done
  | canceled
  | alreadyStopped

/-- What comes of the payload a call found. -/
inductive Outcome (P : Family → Type) (V : Type) where
  | value (value : Value V)
  | derived (family : Family) (payload : P family)
  /-- A watch asks the registry again before it starts. -/
  | watch (revoked : Failure) (started : Except Failure (P .watch))

structure Operation (P : Family → Type) (V : Type) where
  family : Family
  needs : Rights
  refused : Refusal → Failure
  /-- The registry holds a grant, but there is no payload. -/
  missing : Failure
  /-- Whether the reference is released before the handle is looked up. -/
  late : Bool := false
  /-- What its arguments fail with before the handle is looked up. -/
  early : Option Failure := none
  /-- What they fail with once it is, whatever was found. -/
  checked : Option Failure := none
  /-- What a payload becomes when its handle is gone. -/
  dropped : P family → P family := id
  /-- A payload that is of no use any more. -/
  spent : P family → Option Failure := fun _ => none
  use : P family → Except Failure (Outcome P V)
  /-- What the call leaves of a payload it used. -/
  leaves : P family → P family := id

/-- A withdrawn grant and an invalid handle are different facts. -/
def refusal (revoked invalid : Failure) : Refusal → Failure
  | .revoked => revoked
  | .unknown | .rights => invalid

end Operations

section Worlds

inductive IoKind where
  | notFound | permissionDenied | notADirectory | invalidData | other | rest
  deriving DecidableEq, Repr

def reason : IoKind → FileReason
  | .notFound => .notFound
  | .permissionDenied => .accessDenied
  | .notADirectory => .notDirectory
  | _ => .io

inductive ChildReadError where
  | invalidName | notFound | notDirectory | accessDenied | unsupported | resourceLimit | io
  deriving DecidableEq, Repr

def childReason : ChildReadError → FileReason
  | .invalidName => .invalidName
  | .notFound => .notFound
  | .notDirectory => .notDirectory
  | .accessDenied => .accessDenied
  | .unsupported => .unsupported
  | .resourceLimit => .resourceLimit
  | .io => .io

inductive WatchRefusal where
  | resourceLimit | unsupported | io
  deriving DecidableEq, Repr

inductive ErrorCode where
  | busy | corrupt | notADatabase | readOnly | tooBig | cannotOpen | interrupted | rest
  deriving DecidableEq, Repr

def classify : ErrorCode → Failure
  | .busy => .sqlite 1 "database is busy"
  | .corrupt => .sqlite 2 "database is corrupt"
  | .notADatabase => .sqlite 7 "file is not a SQLite database"
  | .readOnly => .sqlite 0 "database is read-only"
  | .tooBig => .sqlite 8 "SQLite resource limit exceeded"
  | .cannotOpen => .sqlite 6 "could not read database file"
  | .interrupted => .sqlite 11 "query was interrupted"
  | .rest => .sqlite 5 "invalid SQLite query"

inductive OpenFault where
  | name | inspect | notFile | unreadable | pathless | moved | limits | restricted
  | sqlite (code : ErrorCode)
  deriving DecidableEq, Repr

def openFault : OpenFault → Failure
  | .name => .sqlite 4 "database name must be one direct child"
  | .inspect => .sqlite 6 "could not inspect database file"
  | .notFile => .sqlite 9 "database child must be an ordinary file"
  | .unreadable => .sqlite 0 "database file is not readable"
  | .pathless => .sqlite 9 "the granted folder has no path SQLite can open"
  | .moved => .sqlite 0 "database file moved while it was being opened"
  | .limits => .sqlite 8 "could not install SQLite limits"
  | .restricted => .sqlite 8 "could not restrict SQLite connection"
  | .sqlite code => classify code

inductive ParamFault where
  | limit | invalid
  deriving DecidableEq, Repr

def paramFault : ParamFault → Failure
  | .limit => .sqlite 8 "query exceeds the parameter limit"
  | .invalid => .sqlite 5 "invalid SQLite parameter"

inductive QueryFault where
  | text | page | params | paramBytes | notReadOnly | placeholders | columns | rows | bytes
  | interrupted | unavailable | sqlite (code : ErrorCode)
  deriving DecidableEq, Repr

def queryFault : QueryFault → Failure
  | .text => .sqlite 5 "query text is empty or exceeds its limit"
  | .page => .sqlite 8 "page exceeds the row limit"
  | .params => .sqlite 8 "query exceeds the parameter limit"
  | .paramBytes => .sqlite 8 "parameters exceed the value-byte limit"
  | .notReadOnly => .sqlite 0 "only read-only SQLite statements are allowed"
  | .placeholders => .sqlite 5 "query parameters do not match its placeholders"
  | .columns => .sqlite 8 "query exceeds the column limit"
  | .rows => .sqlite 8 "query exceeds the row limit"
  | .bytes => .sqlite 8 "query exceeds the value-byte limit"
  | .interrupted => .sqlite 11 "query was interrupted"
  | .unavailable => .sqlite 6 "SQLite connection unavailable"
  | .sqlite code => classify code

inductive WatchFault where
  | unavailable | pathless
  deriving DecidableEq, Repr

def watchFault : WatchFault → Failure
  | .unavailable => .sqlite 6 "SQLite connection unavailable"
  | .pathless => .sqlite 9 "the database has no file to watch"

inductive DecodeFault where
  | undecodable | duration
  deriving DecidableEq, Repr

def decodeFault : DecodeFault → Failure
  | .undecodable => .audio 5 "audio media could not be decoded"
  | .duration => .audio 4 "audio duration is unavailable"

inductive DeviceFault where
  | limit | io | notFound | closed | disconnected | timeout | protocol | request | unsupported
  deriving DecidableEq, Repr

def DeviceFault.reason : DeviceFault → DeviceReason
  | .limit => .resourceLimit
  | .io => .io
  | .notFound => .notFound
  | .closed => .closed
  | .disconnected => .disconnected
  | .timeout => .timeout
  | .protocol => .protocol
  | .request => .invalidRequest
  | .unsupported => .unsupported

inductive SpawnFault where
  | size | limit | io
  deriving DecidableEq, Repr

def SpawnFault.reason : SpawnFault → ProcessReason
  | .size => .invalidSize
  | .limit => .resourceLimit
  | .io => .io

def unavailable : IoKind → Unavailable
  | .notFound => .missing
  | .permissionDenied => .accessDenied
  | _ => .unreadable

def answered {E A B : Type} (fault : E → Failure) (outcome : A → B) : Except E A → Except Failure B
  | .error e => .error (fault e)
  | .ok a => .ok (outcome a)

def data {P : Family → Type} {V : Type} (v : V) : Outcome P V := .value (.data v)

def done {P : Family → Type} {V : Type} : Outcome P V := .value .done

end Worlds

section Files

variable {R : Family → Type} {V : Type}

def fileOperation (family : Family) (tag : FileTag)
    (use : Payload R family → Except Failure (Outcome (Payload R) V)) : Operation (Payload R) V where
  family := family
  needs := .read
  refused := refusal (.file tag .revoked) (.file tag .invalidCapability)
  missing := .file tag .invalidCapability
  use := use

def listReason : IoKind → Failure
  | .invalidData => .file .listDirectory .invalidUtf8
  | .other => .file .listDirectory .resourceLimit
  | kind => .file .listDirectory (reason kind)

def filesDirList (entries : R .directory → Except IoKind V) : Operation (Payload R) V :=
  fileOperation .directory .listDirectory fun dir => answered listReason data (entries dir)

def filesDirOpenRead (validName : String → Bool) (name : String)
    (opened : R .directory → Except IoKind (R .directory)) : Operation (Payload R) V :=
  fileOperation .directory .openReadDirectory fun dir =>
    if !validName name then .error (.file .openReadDirectory .invalidName)
    else answered (fun kind => .file .openReadDirectory (reason kind)) (.derived .directory) (opened dir)

def filesDirRead (bytes : R .directory → Except ChildReadError V) : Operation (Payload R) V :=
  fileOperation .directory .readFile fun dir =>
    answered (fun error => .file .readFile (childReason error)) data (bytes dir)

def filesDirSha256 (digest : R .directory → Except ChildReadError V) : Operation (Payload R) V :=
  fileOperation .directory .readFile fun dir =>
    answered (fun error => .file .readFile (childReason error)) data (digest dir)

def watchRefusal : WatchRefusal → Failure
  | .resourceLimit => .watchDirectory 4 "no watch is left to give"
  | .unsupported => .watchDirectory 9 "watching is not supported on this platform"
  | .io => .watchDirectory 3 "the directory could not be watched"

/-- `none` is a directory without a path to watch. -/
def filesDirWatch (started : R .directory → Option (Except WatchRefusal (R .watch))) :
    Operation (Payload R) V where
  family := .directory
  needs := .read
  refused := refusal (.watchDirectory 6 "directory authority was withdrawn")
    (.watchDirectory 1 "invalid directory capability")
  missing := .watchDirectory 1 "invalid directory capability"
  use dir := match started dir with
    | none => .error (.watchDirectory 9 "watching is not supported on this platform")
    | some started => .ok (.watch (.watchDirectory 6 "directory authority was withdrawn")
        (answered watchRefusal id started))

def filesFileRead (bytes : R .document → Except ChildReadError V) : Operation (Payload R) V :=
  fileOperation .document .readFile fun file =>
    answered (fun error => .file .readFile (childReason error)) data (bytes file)

def filesFileSha256 (digest : R .document → Except ChildReadError V) : Operation (Payload R) V :=
  fileOperation .document .readFile fun file =>
    answered (fun error => .file .readFile (childReason error)) data (digest file)

end Files

section Databases

variable {R : Family → Type} {V : Type}

/-- Why the directory was not accepted is forgotten. -/
def sqliteOpenRead (opened : R .directory → Except OpenFault (R .database)) :
    Operation (Payload R) V where
  family := .directory
  needs := .read
  refused _ := .sqlite 3 "invalid directory capability"
  missing := .sqlite 3 "invalid directory capability"
  use dir := answered openFault (.derived .database) (opened dir)

def sqliteOpenFileRead (opened : R .document → Except OpenFault (R .database)) :
    Operation (Payload R) V where
  family := .document
  needs := .read
  refused := refusal (.sqlite 10 "file authority was withdrawn") (.sqlite 3 "invalid file capability")
  missing := .sqlite 3 "invalid file capability"
  use file := answered openFault (.derived .database) (opened file)

def sqliteOperation (use : R .database → Except Failure (Outcome (Payload R) V)) :
    Operation (Payload R) V where
  family := .database
  needs := .read
  refused := refusal (.sqlite 10 "SQLite authority was withdrawn") (.sqlite 3 "invalid SQLite capability")
  missing := .sqlite 3 "invalid SQLite capability"
  late := true
  use := use

def sqliteWatchRefusal : WatchRefusal → Failure
  | .resourceLimit => .sqlite 8 "no watch is left to give"
  | .unsupported => .sqlite 9 "watching is not supported on this platform"
  | .io => .sqlite 6 "the database could not be watched"

def sqliteWatch (started : R .database → Except WatchFault (Except WatchRefusal (R .watch))) :
    Operation (Payload R) V :=
  sqliteOperation fun database => answered watchFault (fun started =>
    .watch (.sqlite 10 "SQLite authority was withdrawn") (answered sqliteWatchRefusal id started))
    (started database)

def sqliteQuery (params : Option ParamFault) (page : R .database → Except QueryFault V) :
    Operation (Payload R) V :=
  { sqliteOperation fun database => answered queryFault data (page database) with
    early := params.map paramFault }

end Databases

section Audio

variable {R : Family → Type} {V : Type}

/-- The failures of a read that its caller does not tell apart answer one code. -/
def loadFault : ChildReadError → Failure
  | .invalidName => .audio 2 "invalid audio file name"
  | .resourceLimit => .audio 3 "audio file exceeds the load limit"
  | _ => .audio 7 "audio file could not be read"

/-- The directory's part of `load`, which forgets why it was not accepted. -/
def audioLoadFile (validName : String → Bool) (name : String)
    (bytes : R .directory → Except ChildReadError V) : Operation (Payload R) V where
  family := .directory
  needs := .read
  refused _ := .audio 1 "invalid directory capability"
  missing := .audio 1 "invalid directory capability"
  early := if validName name then none else some (.audio 2 "invalid audio file name")
  use dir := answered loadFault data (bytes dir)

/-- The output's part of `load`, once the file was read. -/
def audioLoadTrack (fault : Option DecodeFault) (player : R .track) : Operation (Payload R) V where
  family := .output
  needs := .connect
  refused := refusal (.audio 7 "audio authority was withdrawn") (.audio 1 "invalid audio output capability")
  missing := .audio 1 "invalid audio output capability"
  late := true
  early := fault.map decodeFault
  use _ := .ok (.derived .track (⟨player, false⟩ : Track (R .track)))

def withTrack (spent : Track (R .track) → Option Failure)
    (use : Track (R .track) → Except Failure (Outcome (Payload R) V)) : Operation (Payload R) V where
  family := .track
  needs := Rights.read.union .write
  refused := refusal (.audio 7 "audio authority was withdrawn") (.audio 1 "invalid audio track capability")
  missing := .audio 1 "invalid audio track capability"
  late := true
  spent := spent
  use := use

def stoppedTrack (track : Track (R .track)) : Option Failure :=
  if track.stopped then some (.audio 1 "stopped audio track capability") else none

def audioPlay : Operation (Payload R) V := withTrack stoppedTrack fun _ => .ok done

def audioPause : Operation (Payload R) V := withTrack stoppedTrack fun _ => .ok done

def audioSeek (seeks : R .track → Bool) : Operation (Payload R) V :=
  withTrack stoppedTrack fun track =>
    if seeks track.player then .ok done else .error (.audio 4 "audio track does not support seeking")

def audioStop : Operation (Payload R) V :=
  { withTrack (fun _ => none) fun _ => .ok done with
    leaves := fun track : Track (R .track) => { track with stopped := true } }

/-- Why the track was not accepted is forgotten. -/
def audioStatus (status : Track (R .track) → V) : Operation (Payload R) V where
  family := .track
  needs := .read
  refused _ := .audio 1 "invalid audio track capability"
  missing := .audio 1 "invalid audio track capability"
  late := true
  use track := .ok (data (status track))

end Audio

section Devices

variable {R : Family → Type} {V : Type}

def deviceDiscover (found : R .device → Except DeviceFault V) : Operation (Payload R) V where
  family := .device
  needs := .connect
  refused _ := .device .discover .invalidCapability
  missing := .device .discover .invalidCapability
  use device := answered (fun fault => .device .discover fault.reason) data (found device)

def deviceConnect (opened : R .device → Except DeviceFault (R .connection)) :
    Operation (Payload R) V where
  family := .device
  needs := .connect
  refused := refusal (.device .connect .revoked) (.device .connect .invalidCapability)
  missing := .device .connect .invalidCapability
  use device := answered (fun fault => .device .connect fault.reason) (.derived .connection)
    (opened device)

def connectionOperation (tag : DeviceTag)
    (use : R .connection → Except Failure (Outcome (Payload R) V)) : Operation (Payload R) V where
  family := .connection
  needs := Rights.read.union .write
  refused := refusal (.device tag .revoked) (.device tag .invalidCapability)
  missing := .device tag .invalidCapability
  use := use

def maxReport : ℕ := 4096

def deviceTransact (length : ℕ) (response : R .connection → Except DeviceFault V) :
    Operation (Payload R) V :=
  { connectionOperation .transact fun connection =>
      answered (fun fault => .device .transact fault.reason) data (response connection) with
    checked := if length = 0 ∨ maxReport < length then some (.device .transact .resourceLimit) else none }

def deviceClose : Operation (Payload R) V := connectionOperation .close fun _ => .ok done

end Devices

section Processes

variable {R : Family → Type} {V : Type}

def processSpawn (spawned : R .process → Except SpawnFault (R .pty)) : Operation (Payload R) V where
  family := .process
  needs := .connect
  refused := refusal (.process .spawn .revoked) (.process .spawn .invalidCapability)
  missing := .process .spawn .invalidCapability
  use profile := answered (fun fault => .process .spawn fault.reason)
    (fun terminal => .derived .pty (⟨terminal, false, false, false⟩ : Pty (R .pty))) (spawned profile)

/-- A terminal whose handle is gone is canceled. -/
def ptyOperation (tag : ProcessTag) (use : Pty (R .pty) → Except Failure (Outcome (Payload R) V)) :
    Operation (Payload R) V where
  family := .pty
  needs := Rights.read.union .write
  refused := refusal (.process tag .revoked) (.process tag .invalidCapability)
  missing := .process tag .invalidCapability
  dropped := fun pty : Pty (R .pty) => { pty with canceled := true }
  use := use

def maxIoBytes : ℕ := 65536

/-- The terminal's own answer is `none` when it failed. -/
def processRead (maxBytes : ℕ) (bytes : R .pty → Option V) : Operation (Payload R) V :=
  ptyOperation .read fun pty =>
    if maxBytes = 0 ∨ maxIoBytes < maxBytes then .error (.process .read .resourceLimit)
    else if pty.reading then .error (.process .read .busy)
    else if pty.canceled then .ok (.value .canceled)
    else match bytes pty.terminal with
      | some v => .ok (data v)
      | none => .error (.process .read .io)

def processWrite (length : ℕ) (written : R .pty → Option V) : Operation (Payload R) V :=
  ptyOperation .write fun pty =>
    if maxIoBytes < length then .error (.process .write .resourceLimit)
    else if pty.canceled || pty.exited then .error (.process .write .exited)
    else match written pty.terminal with
      | some v => .ok (data v)
      | none => .error (.process .write .io)

def processResize (validSize : Bool) (resizes : R .pty → Bool) : Operation (Payload R) V :=
  ptyOperation .resize fun pty =>
    if !validSize then .error (.process .resize .invalidSize)
    else if pty.canceled then .error (.process .resize .exited)
    else if resizes pty.terminal then .ok done
    else .error (.process .resize .io)

def processCancel : Operation (Payload R) V :=
  { ptyOperation .cancel fun pty =>
      .ok (.value (if !pty.exited && !pty.canceled then .canceled else .alreadyStopped)) with
    leaves := fun pty : Pty (R .pty) => { pty with canceled := pty.canceled || !pty.exited } }

end Processes

section Others

variable {R : Family → Type} {V : Type}

def httpSend (response : R .client → Except HttpReason V) : Operation (Payload R) V where
  family := .client
  needs := .connect
  refused := refusal (.http .revoked) (.http .invalidCapability)
  missing := .http .invalidCapability
  use client := answered .http data (response client)

inductive SampleFault where
  | busy | closed
  deriving DecidableEq, Repr

def sampleFault : SampleFault → Failure
  | .busy => .system 1
  | .closed => .system 2

def systemSample (sample : R .sampler → Except SampleFault V) : Operation (Payload R) V where
  family := .sampler
  needs := .capture
  refused := refusal (.system 6) (.system 3)
  missing := .system 3
  use sampler := answered sampleFault data (sample sampler)

inductive StreamFault where
  | closed | connectionFailed | timeout
  deriving DecidableEq, Repr

def streamFault : StreamFault → Failure
  | .closed => .tcp .closed
  | .connectionFailed => .tcp .connectionFailed
  | .timeout => .tcp .timeout

def streamOperation (checked : Option Failure)
    (use : R .stream → Except Failure (Outcome (Payload R) V)) : Operation (Payload R) V where
  family := .stream
  needs := .read
  refused := refusal (.tcp .revoked) (.tcp .invalidCapability)
  missing := .tcp .invalidCapability
  checked := checked
  use := use

def maxReadBytes : ℕ := 1048576
def maxWriteBytes : ℕ := 16777216

def tcpReadUpTo (maxBytes : ℕ) (bytes : R .stream → Except StreamFault V) : Operation (Payload R) V :=
  streamOperation (if maxBytes = 0 ∨ maxReadBytes < maxBytes then some (.tcp .invalidRequest) else none)
    fun stream => answered streamFault data (bytes stream)

def tcpWriteAll (length : ℕ) (written : R .stream → Except StreamFault Unit) :
    Operation (Payload R) V :=
  streamOperation (if maxWriteBytes < length then some (.tcp .resourceLimit) else none)
    fun stream => answered streamFault (fun _ => done) (written stream)

/-- The handle is found first, and the registry asked then. -/
def clipboardOperation (use : R .clipboard → Except Failure (Outcome (Payload R) V)) :
    Operation (Payload R) V where
  family := .clipboard
  needs := .capture
  refused := refusal (.clipboard 3 "clipboard authority was withdrawn")
    (.clipboard 1 "invalid clipboard capability")
  missing := .clipboard 1 "invalid clipboard capability"
  use := use

def maxTextBytes : ℕ := 65536

def clipboardReadText (text : R .clipboard → V) : Operation (Payload R) V :=
  clipboardOperation fun clipboard => .ok (data (text clipboard))

def clipboardWriteText (length : ℕ) : Operation (Payload R) V :=
  clipboardOperation fun _ =>
    if maxTextBytes < length then .error (.clipboard 2 "clipboard text exceeds 64 KiB") else .ok done

end Others

section Calls

abbrev Metadata := Path → Except IoKind Identity

/-- The calls an application makes on its handles, with what the world answers each. -/
inductive HostCall (R : Family → Type) (V : Type) where
  | dirList (dir : ℕ) (entries : R .directory → Except IoKind V)
  | dirOpenRead (dir : ℕ) (name : String) (opened : R .directory → Except IoKind (R .directory))
  | dirRead (dir : ℕ) (bytes : R .directory → Except ChildReadError V)
  | dirSha256 (dir : ℕ) (digest : R .directory → Except ChildReadError V)
  | dirWatch (dir : ℕ) (started : R .directory → Option (Except WatchRefusal (R .watch)))
  | rememberDirectory (dir : ℕ) (metadata : Metadata)
  | fileRead (file : ℕ) (bytes : R .document → Except ChildReadError V)
  | fileSha256 (file : ℕ) (digest : R .document → Except ChildReadError V)
  | rememberFile (file : ℕ) (metadata : Metadata)
  | sqliteOpenRead (dir : ℕ) (opened : R .directory → Except OpenFault (R .database))
  | sqliteOpenFileRead (file : ℕ) (opened : R .document → Except OpenFault (R .database))
  | sqliteWatch (database : ℕ) (started : R .database → Except WatchFault (Except WatchRefusal (R .watch)))
  | sqliteQuery (database : ℕ) (params : Option ParamFault) (page : R .database → Except QueryFault V)
  | audioLoad (output dir : ℕ) (name : String) (bytes : R .directory → Except ChildReadError V)
      (fault : Option DecodeFault) (player : R .track)
  | audioPlay (track : ℕ)
  | audioPause (track : ℕ)
  | audioSeek (track : ℕ) (seeks : R .track → Bool)
  | audioStop (track : ℕ)
  | audioStatus (track : ℕ) (status : Track (R .track) → V)
  | deviceDiscover (device : ℕ) (found : R .device → Except DeviceFault V)
  | deviceConnect (device : ℕ) (opened : R .device → Except DeviceFault (R .connection))
  | deviceTransact (connection : ℕ) (length : ℕ) (response : R .connection → Except DeviceFault V)
  | deviceClose (connection : ℕ)
  | processSpawn (process : ℕ) (spawned : R .process → Except SpawnFault (R .pty))
  | processRead (pty : ℕ) (maxBytes : ℕ) (bytes : R .pty → Option V)
  | processWrite (pty : ℕ) (length : ℕ) (written : R .pty → Option V)
  | processResize (pty : ℕ) (validSize : Bool) (resizes : R .pty → Bool)
  | processCancel (pty : ℕ)
  | httpSend (client : ℕ) (response : R .client → Except HttpReason V)
  | systemSample (sampler : ℕ) (sample : R .sampler → Except SampleFault V)
  | tcpReadUpTo (stream : ℕ) (maxBytes : ℕ) (bytes : R .stream → Except StreamFault V)
  | tcpWriteAll (stream : ℕ) (length : ℕ) (written : R .stream → Except StreamFault Unit)
  | clipboardReadText (clipboard : ℕ) (text : R .clipboard → V)
  | clipboardWriteText (clipboard : ℕ) (length : ℕ)

/-- The handles a call takes, one after the other, and what it does with each. -/
inductive Plan (P : Family → Type) (V : Type) where
  | remember (family : Family) (number : ℕ) (metadata : Metadata)
  | one (operation : Operation P V) (number : ℕ)
  | two (first : Operation P V) (number : ℕ) (second : Operation P V) (number' : ℕ)

variable {R : Family → Type} {V : Type}

def HostCall.plan (validName : String → Bool) : HostCall R V → Plan (Payload R) V
  | .dirList dir entries => .one (filesDirList entries) dir
  | .dirOpenRead dir name opened => .one (filesDirOpenRead validName name opened) dir
  | .dirRead dir bytes => .one (filesDirRead bytes) dir
  | .dirSha256 dir digest => .one (filesDirSha256 digest) dir
  | .dirWatch dir started => .one (filesDirWatch started) dir
  | .rememberDirectory dir metadata => .remember .directory dir metadata
  | .fileRead file bytes => .one (filesFileRead bytes) file
  | .fileSha256 file digest => .one (filesFileSha256 digest) file
  | .rememberFile file metadata => .remember .document file metadata
  | .sqliteOpenRead dir opened => .one (HandleCalls.sqliteOpenRead opened) dir
  | .sqliteOpenFileRead file opened => .one (HandleCalls.sqliteOpenFileRead opened) file
  | .sqliteWatch database started => .one (HandleCalls.sqliteWatch started) database
  | .sqliteQuery database params page => .one (HandleCalls.sqliteQuery params page) database
  | .audioLoad output dir name bytes fault player =>
    .two (audioLoadFile validName name bytes) dir (audioLoadTrack fault player) output
  | .audioPlay track => .one HandleCalls.audioPlay track
  | .audioPause track => .one HandleCalls.audioPause track
  | .audioSeek track seeks => .one (HandleCalls.audioSeek seeks) track
  | .audioStop track => .one HandleCalls.audioStop track
  | .audioStatus track status => .one (HandleCalls.audioStatus status) track
  | .deviceDiscover device found => .one (HandleCalls.deviceDiscover found) device
  | .deviceConnect device opened => .one (HandleCalls.deviceConnect opened) device
  | .deviceTransact connection length response =>
    .one (HandleCalls.deviceTransact length response) connection
  | .deviceClose connection => .one HandleCalls.deviceClose connection
  | .processSpawn process spawned => .one (HandleCalls.processSpawn spawned) process
  | .processRead pty maxBytes bytes => .one (HandleCalls.processRead maxBytes bytes) pty
  | .processWrite pty length written => .one (HandleCalls.processWrite length written) pty
  | .processResize pty validSize resizes => .one (HandleCalls.processResize validSize resizes) pty
  | .processCancel pty => .one HandleCalls.processCancel pty
  | .httpSend client response => .one (HandleCalls.httpSend response) client
  | .systemSample sampler sample => .one (HandleCalls.systemSample sample) sampler
  | .tcpReadUpTo stream maxBytes bytes => .one (HandleCalls.tcpReadUpTo maxBytes bytes) stream
  | .tcpWriteAll stream length written => .one (HandleCalls.tcpWriteAll length written) stream
  | .clipboardReadText clipboard text => .one (HandleCalls.clipboardReadText text) clipboard
  | .clipboardWriteText clipboard length => .one (HandleCalls.clipboardWriteText length) clipboard

end Calls

end HandleCalls
