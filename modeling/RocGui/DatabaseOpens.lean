import RocGui.PlaceCalls

/-! Opening a database in place, one system call a step, while the files around it change. -/
namespace DatabaseOpens

open PlaceCalls RecentFormats TextFormats Transitions
open FileTrees (Tree NodeType)

section Names

def relativeComponents (path : Path) : Option (List Bytes) :=
  if path = [] ∨ 0 ∈ path then none
  else
    let (rooted, parts) := components path
    if rooted ∨ [dot] ∈ parts ∨ [dot, dot] ∈ parts ∨ parts = [] then none else some parts

def validName (name : Bytes) : Bool := (relativeComponents name).any fun parts => parts.length = 1

/-- `Path::join` with a relative path. -/
def join (path : Path) (name : Bytes) : Path :=
  if path = [] ∨ path.getLast? = some slash then path ++ name else path ++ slash :: name

end Names

section Uris

def percent : UInt8 := 37
def question : UInt8 := 63

def hexDigit (n : ℕ) : UInt8 := UInt8.ofNat (if n < 10 then 48 + n else 55 + n)

def hexValue (byte : UInt8) : Option ℕ :=
  let n := byte.toNat
  if 48 ≤ n ∧ n ≤ 57 then some (n - 48)
  else if 65 ≤ n ∧ n ≤ 70 then some (n - 55)
  else if 97 ≤ n ∧ n ≤ 102 then some (n - 87)
  else none

/-- Letters, digits and `-._~/`. -/
def isPlain (byte : UInt8) : Bool :=
  let n := byte.toNat
  (65 ≤ n && n ≤ 90) || (97 ≤ n && n ≤ 122) || (48 ≤ n && n ≤ 57) || [45, 46, 95, 126, 47].contains n

def encodeByte (byte : UInt8) : Bytes :=
  if isPlain byte then [byte] else [percent, hexDigit (byte.toNat / 16), hexDigit (byte.toNat % 16)]

def encode (bytes : Bytes) : Bytes := bytes.flatMap encodeByte

def scheme : Bytes := [102, 105, 108, 101, 58]

def readOnly : Bytes := [109, 111, 100, 101, 61, 114, 111]

def databaseUri (path : Path) : Option Bytes :=
  if path.head? = some slash then some (scheme ++ encode path ++ question :: readOnly) else none

/-- How SQLite reads the path of a URI, up to its query. -/
def decode : Bytes → Path
  | [] => []
  | byte :: rest =>
    if byte = question then []
    else if byte = percent then match rest with
      | high :: low :: rest => match hexValue high, hexValue low with
        | some high, some low => UInt8.ofNat (16 * high + low) :: decode rest
        | _, _ => byte :: decode (high :: low :: rest)
      | rest => byte :: decode rest
    else byte :: decode rest

def uriPath (uri : Bytes) : Path := decode (uri.drop scheme.length)

theorem hexValue_hexDigit : ∀ n < 16, hexValue (hexDigit n) = some n := by decide

theorem decode_encodeByte (byte : UInt8) (rest : Bytes) :
    decode (encodeByte byte ++ rest) = byte :: decode rest := by
  unfold encodeByte
  by_cases hplain : isPlain byte = true
  · rw [if_pos hplain, List.singleton_append]
    have hquestion : byte ≠ question := by
      rintro rfl
      exact absurd hplain (by decide)
    have hpercent : byte ≠ percent := by
      rintro rfl
      exact absurd hplain (by decide)
    rw [decode.eq_def]
    dsimp only
    rw [if_neg hquestion, if_neg hpercent]
  · have hbyte : byte.toNat < 256 := byte.toNat_lt
    have hhigh := hexValue_hexDigit (byte.toNat / 16) (by omega)
    have hlow := hexValue_hexDigit (byte.toNat % 16) (by omega)
    have hvalue : 16 * (byte.toNat / 16) + byte.toNat % 16 = byte.toNat := Nat.div_add_mod _ _
    rw [if_neg hplain, List.cons_append, List.cons_append, List.cons_append, List.nil_append,
      decode.eq_def]
    dsimp only
    rw [if_neg (by decide), if_pos rfl, hhigh, hlow]
    dsimp only
    rw [hvalue, UInt8.ofNat_toNat]

theorem decode_encode (bytes rest : Bytes) : decode (encode bytes ++ question :: rest) = bytes := by
  induction bytes with
  | nil =>
    rw [encode, List.flatMap_nil, List.nil_append, decode.eq_def]
    exact if_pos rfl
  | cons byte bytes ih =>
    rw [encode, List.flatMap_cons, List.append_assoc, decode_encodeByte]
    exact congrArg (byte :: ·) ih

theorem uriPath_databaseUri {path : Path} {uri : Bytes} (h : databaseUri path = some uri) :
    uriPath uri = path := by
  unfold databaseUri at h
  split at h
  · obtain rfl := Option.some.inj h
    rw [uriPath, List.append_assoc, List.drop_left]
    exact decode_encode path readOnly
  · cases h

end Uris

structure Failure where
  code : ℕ
  message : String
  deriving DecidableEq, Repr

inductive SqliteError where
  | databaseBusy | databaseLocked | databaseCorrupt | notADatabase | readOnly | tooBig | outOfMemory
  | cannotOpen | systemIoFailure | operationInterrupted | other

def classify : SqliteError → Failure
  | .databaseBusy | .databaseLocked => ⟨1, "database is busy"⟩
  | .databaseCorrupt => ⟨2, "database is corrupt"⟩
  | .notADatabase => ⟨7, "file is not a SQLite database"⟩
  | .readOnly => ⟨0, "database is read-only"⟩
  | .tooBig | .outOfMemory => ⟨8, "SQLite resource limit exceeded"⟩
  | .cannotOpen | .systemIoFailure => ⟨6, "could not read database file"⟩
  | .operationInterrupted => ⟨11, "query was interrupted"⟩
  | .other => ⟨5, "invalid SQLite query"⟩

structure Files where
  fs : FileSystem
  directoryPath : Identity → Option Path

/-- A call of `open_in_place`, at the step it takes next. -/
inductive Opening where
  | called
  | inspected
  | granted (file : Identity)
  | located (file : Identity) (path : Path) (uri : Bytes)
  | reached (file : Identity) (path : Path) (uri : Bytes)
  /-- SQLite has opened `main`. -/
  | connected (file : Identity) (path : Path) (main : Identity)
  | checked (file main : Identity)
  | restricted (file main : Identity)
  | returned (file main : Identity)
  | failed (failure : Failure)
  deriving DecidableEq

inductive Fault where
  | io
  | limit
  | sqlite (error : SqliteError)

inductive OpenEvent where
  /-- Anyone else changes the files. -/
  | change (files : Files)
  | proceed
  | fault (fault : Fault)

section Steps

variable (dir : Identity) (name : Bytes)

def notOrdinary : Opening := .failed ⟨9, "database child must be an ordinary file"⟩

def noPath : Opening := .failed ⟨9, "the granted folder has no path SQLite can open"⟩

def moved : Opening := .failed ⟨0, "database file moved while it was being opened"⟩

def proceed (files : Files) : Opening → Opening
  | .called =>
    if !validName name then .failed ⟨4, "database name must be one direct child"⟩
    else match files.fs.tree.enter dir name with
      | none => .failed ⟨6, "could not inspect database file"⟩
      | some child => if files.fs.tree.types child = .file then .inspected else notOrdinary
  -- the child is opened again, without following it
  | .inspected => match files.fs.tree.enter dir name with
    | none => .failed ⟨0, "database file is not readable"⟩
    | some child => match files.fs.tree.types child with
      | .file => .granted child
      | .link => .failed ⟨0, "database file is not readable"⟩
      | .directory | .other => notOrdinary
  | .granted file => match files.directoryPath dir with
    | none => noPath
    | some folder => match databaseUri (join folder name) with
      | none => noPath
      | some uri => .located file (join folder name) uri
  | .located file path uri => if files.fs.stat path = some file then .reached file path uri else moved
  | .reached file path uri => match files.fs.stat (uriPath uri) with
    | none => .failed (classify .cannotOpen)
    | some main => .connected file path main
  | .connected file path main => if files.fs.stat path = some file then .checked file main else moved
  | .checked file main => .restricted file main
  | .restricted file main => .returned file main
  | .returned file main => .returned file main
  | .failed failure => .failed failure

def fail : Opening → Fault → Option Opening
  | .called, .io => some (.failed ⟨6, "could not inspect database file"⟩)
  | .inspected, .io => some (.failed ⟨0, "database file is not readable"⟩)
  | .granted _, .io => some noPath
  | .located .., .io | .connected .., .io => some moved
  | .checked .., .limit => some (.failed ⟨8, "could not install SQLite limits"⟩)
  | .checked .., .sqlite _ => some (.failed ⟨8, "could not restrict SQLite connection"⟩)
  | .reached .., .sqlite error | .restricted .., .sqlite error => some (.failed (classify error))
  | _, _ => none

structure OpenState where
  files : Files
  opening : Opening

def step (s : OpenState) : OpenEvent → Option OpenState
  | .change files => some { s with files := files }
  | .proceed => some { s with opening := proceed dir name s.files s.opening }
  | .fault fault => (fail s.opening fault).map fun opening => { s with opening := opening }

def openSystem (files : Files) : System OpenState OpenEvent where
  initial := ⟨files, .called⟩
  Step s e t := step dir name s e = some t

end Steps

/-- While SQLite holds another file than the granted one, nobody puts the granted one at the path. -/
def Steady (s : OpenState) : OpenEvent → Prop
  | .change files => match s.opening with
    | .connected file path main => main ≠ file → files.fs.stat path ≠ some file
    | _ => True
  | _ => True

/-- A connection reads the file that was opened through the granted folder. -/
def ReadsGranted : Opening → Prop
  | .returned file main => main = file
  | _ => True

section Runs

variable {dir : Identity} {name : Bytes} {s t : OpenState} {e : OpenEvent}

/-- The file that SQLite holds is the granted one, or the path does not lead to that. -/
def Guarded (files : Files) : Opening → Prop
  | .located _ path uri | .reached _ path uri => uriPath uri = path
  | .connected file path main => main ≠ file → files.fs.stat path ≠ some file
  | .checked file main | .restricted file main | .returned file main => main = file
  | _ => True

theorem guarded_proceed {files : Files} {opening : Opening} (h : Guarded files opening) :
    Guarded files (proceed dir name files opening) := by
  cases opening with
  | called =>
    dsimp only [proceed]
    split
    · trivial
    · split
      · trivial
      · split <;> trivial
  | inspected =>
    dsimp only [proceed]
    split
    · trivial
    · split <;> trivial
  | granted file =>
    dsimp only [proceed]
    split
    · trivial
    · split
      · trivial
      · rename_i huri
        exact uriPath_databaseUri huri
  | located file path uri =>
    dsimp only [proceed]
    split
    · exact h
    · trivial
  | reached file path uri =>
    dsimp only [proceed]
    split
    · trivial
    · rename_i main hmain
      intro hother hstat
      have huri : uriPath uri = path := h
      rw [huri, hstat] at hmain
      exact hother (Option.some.inj hmain).symm
  | connected file path main =>
    dsimp only [proceed]
    split
    · rename_i hstat
      by_contra hother
      exact h hother hstat
    · trivial
  | checked | restricted | returned => exact h
  | failed => trivial

theorem guarded_fail {files : Files} {opening failed : Opening} {fault : Fault}
    (h : fail opening fault = some failed) : Guarded files failed := by
  unfold fail at h
  split at h <;> cases h <;> trivial

theorem guarded_step (guarded : Guarded s.files s.opening) (steady : Steady s e)
    (h : step dir name s e = some t) : Guarded t.files t.opening := by
  cases e with
  | change files =>
    obtain rfl := Option.some.inj h
    obtain ⟨before, opening⟩ := s
    cases opening with
    | connected file path main => exact steady
    | called | inspected | granted | located | reached | checked | restricted | returned | failed =>
      exact guarded
  | proceed =>
    obtain rfl := Option.some.inj h
    exact guarded_proceed guarded
  | fault fault =>
    obtain ⟨opening, hfail, rfl⟩ := Option.map_eq_some_iff.mp h
    exact guarded_fail hfail

/-- A database is opened in place or not at all. -/
theorem opened_in_place {files : Files}
    (h : Reachable ((openSystem dir name files).restrict Steady) s) : ReadsGranted s.opening := by
  have guarded : Guarded s.files s.opening := by
    refine reachable_invariant (S := (openSystem dir name files).restrict Steady)
      (P := fun s => Guarded s.files s.opening) trivial ?_ h
    rintro s e t guarded ⟨steady, hstep⟩
    exact guarded_step guarded steady hstep
  cases hopening : s.opening with
  | returned file main =>
    rw [hopening] at guarded
    exact guarded
  | called | inspected | granted | located | reached | connected | checked | restricted | failed =>
    trivial

/-- After any other change, the call that goes on returns a connection to another file. -/
theorem unsteady_change_reads_another {files : Files} (h : ¬Steady s (.change files)) :
    ∃ file main, main ≠ file ∧ (proceed dir name files)^[3] s.opening = .returned file main := by
  unfold Steady at h
  dsimp only at h
  split at h
  · rename_i file path main hopening
    rw [Classical.not_imp, not_not] at h
    refine ⟨file, main, h.1, ?_⟩
    have hchecked : proceed dir name files (.connected file path main) = .checked file main := if_pos h.2
    rw [hopening, Function.iterate_succ_apply, hchecked]
    rfl
  · exact absurd trivial h

end Runs

section Examples

def folderNode : Identity := ⟨1, 1⟩
def grantedNode : Identity := ⟨1, 2⟩
def otherNode : Identity := ⟨1, 3⟩

def folderName : Bytes := [103]
def databaseName : Bytes := [110]
def otherName : Bytes := [111]

def folderWith (database other : Identity) : Files where
  fs := {
    tree := {
      types := fun i => if i = grantedNode ∨ i = otherNode then .file else .directory
      entries := fun i name =>
        if i = folderNode then
          if name = databaseName then some database else if name = otherName then some other else none
        else if name = folderName then some folderNode else none
      follow := fun _ => none }
    root := ⟨1, 0⟩
    cwd := ⟨1, 0⟩
    canonicalize := some }
  directoryPath := fun i => if i = folderNode then some (slash :: folderName) else none

def placed : Files := folderWith grantedNode otherNode

def swapped : Files := folderWith otherNode grantedNode

def opens (n : ℕ) (files : Files) (opening : Opening) : Opening :=
  (proceed folderNode databaseName files)^[n] opening

theorem undisturbed_run (n : ℕ) : Reachable ((openSystem folderNode databaseName placed).restrict Steady)
    ⟨placed, opens n placed .called⟩ := by
  induction n with
  | zero => exact reachable_initial _
  | succ n ih =>
    have step : ((openSystem folderNode databaseName placed).restrict Steady).Step
        ⟨placed, opens n placed .called⟩ .proceed ⟨placed, opens (n + 1) placed .called⟩ := by
      refine ⟨trivial, congrArg some ?_⟩
      rw [opens, opens, Function.iterate_succ_apply']
    exact reachable_step ih step

theorem undisturbed_open_reads_granted : opens 8 placed .called = .returned grantedNode grantedNode ∧
    ReadsGranted (opens 8 placed .called) :=
  ⟨by decide, opened_in_place (undisturbed_run 8)⟩

/-- The names are swapped before SQLite opens the path, and back before the second check. -/
theorem swap_back_reads_another : ¬∀ s, Reachable (openSystem folderNode databaseName placed) s →
    ReadsGranted s.opening := by
  intro h
  let system := openSystem folderNode databaseName placed
  have reached : Reachable system ⟨placed, opens 4 placed .called⟩ :=
    reachable_of_restrict (undisturbed_run 4)
  have swaps : system.Step ⟨placed, opens 4 placed .called⟩ (.change swapped)
      ⟨swapped, opens 4 placed .called⟩ := rfl
  have connects : system.Step ⟨swapped, opens 4 placed .called⟩ .proceed
      ⟨swapped, opens 1 swapped (opens 4 placed .called)⟩ := rfl
  have swapsBack : system.Step ⟨swapped, opens 1 swapped (opens 4 placed .called)⟩ (.change placed)
      ⟨placed, opens 1 swapped (opens 4 placed .called)⟩ := rfl
  have connected : Reachable system ⟨placed, opens 1 swapped (opens 4 placed .called)⟩ :=
    reachable_step (reachable_step (reachable_step reached swaps) connects) swapsBack
  have hchecked : opens 1 placed (opens 1 swapped (opens 4 placed .called)) =
      .checked grantedNode otherNode := by decide
  have checks : system.Step ⟨placed, opens 1 swapped (opens 4 placed .called)⟩ .proceed
      ⟨placed, .checked grantedNode otherNode⟩ :=
    congrArg (fun opening => some (⟨placed, opening⟩ : OpenState)) hchecked
  have restricts : system.Step ⟨placed, .checked grantedNode otherNode⟩ .proceed
      ⟨placed, .restricted grantedNode otherNode⟩ := rfl
  have returns : system.Step ⟨placed, .restricted grantedNode otherNode⟩ .proceed
      ⟨placed, .returned grantedNode otherNode⟩ := rfl
  have read := h _ (reachable_step (reachable_step (reachable_step connected checks) restricts) returns)
  exact absurd (show otherNode = grantedNode from read) (by decide)

end Examples

end DatabaseOpens
