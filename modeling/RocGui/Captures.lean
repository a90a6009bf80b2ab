import RocGui.CaptureEvents
import RocGui.Transitions
import Mathlib.Data.List.FinRange
import Mathlib.Data.List.Nodup

/-! A capture: the recorder's bounded queue, and the writer that moves it into the tables. -/
namespace Captures

open CaptureEvents Transitions

section Tables

variable {ρ κ : Type} [DecidableEq κ]

/-- A row goes behind the others, and its id is how many there were. Keys are unique. -/
def insertRow (key : ρ → κ) (message : ρ → String) (table : List ρ) (row : ρ) : Except String (List ρ) :=
  if key row ∈ table.map key then .error (message row) else .ok (table ++ [row])

def insertRows (key : ρ → κ) (message : ρ → String) (table rows : List ρ) : Except String (List ρ) :=
  rows.foldlM (insertRow key message) table

def select (keys : List κ) (key : κ) : Option ℕ := if key ∈ keys then some (keys.idxOf key) else none

def require (p : Prop) [Decidable p] (message : String) : Except String Unit :=
  if p then .ok () else .error message

end Tables

structure CycleRow where
  run : ℤ
  ordinal : ℕ
  rocWorkValid : Bool
  componentWorkRecorded : Bool
  deriving DecidableEq

def CycleRow.key (row : CycleRow) : ℤ × ℕ := (row.run, row.ordinal)

structure PassRow where
  paint : Bool
  frame : Option ℕ
  cycle : Option ℕ
  deriving DecidableEq

/-- The tables, as far as a constraint or the final statuses look at them. Every frame and every
list pass is of run 1. -/
structure Database where
  runs : List ℤ
  steps : List (ℤ × ℕ)
  counterAssertions : List (ℕ × CounterFamily)
  componentAssertions : List (ℕ × Fin componentKinds)
  cycles : List CycleRow
  componentCounts : List (ℕ × Fin componentKinds)
  rocSpans : List (ℕ × Fin workKinds)
  frames : List ℕ
  nativeWork : List (ℕ × Bool × Fin nativeKinds)
  frameWork : List (ℕ × Fin frameMetrics)
  frameCycles : List (ℕ × ℕ)
  passes : List PassRow
  deriving DecidableEq

namespace Database

def empty : Database := ⟨[], [], [], [], [], [], [], [], [], [], [], []⟩

/-- Every reference has its row: `pragma_foreign_key_check` finds nothing. -/
structure Whole (db : Database) : Prop where
  steps : ∀ step ∈ db.steps, step.1 ∈ db.runs
  counterAssertions : ∀ row ∈ db.counterAssertions, row.1 < db.steps.length
  componentAssertions : ∀ row ∈ db.componentAssertions, row.1 < db.steps.length
  cycles : ∀ row ∈ db.cycles, row.run ∈ db.runs
  componentCounts : ∀ row ∈ db.componentCounts, row.1 < db.cycles.length
  rocSpans : ∀ row ∈ db.rocSpans, row.1 < db.cycles.length
  frames : ∀ _frame ∈ db.frames, 1 ∈ db.runs
  nativeWork : ∀ row ∈ db.nativeWork, row.1 < db.frames.length
  frameWork : ∀ row ∈ db.frameWork, row.1 < db.frames.length
  frameCycles : ∀ row ∈ db.frameCycles, row.1 < db.frames.length ∧ row.2 < db.cycles.length
  passes : ∀ row ∈ db.passes, 1 ∈ db.runs ∧ (∀ i ∈ row.frame, i < db.frames.length) ∧
    ∀ i ∈ row.cycle, i < db.cycles.length

instance (db : Database) : Decidable db.Whole :=
  decidable_of_iff
    ((∀ step ∈ db.steps, step.1 ∈ db.runs) ∧
      (∀ row ∈ db.counterAssertions, row.1 < db.steps.length) ∧
        (∀ row ∈ db.componentAssertions, row.1 < db.steps.length) ∧
          (∀ row ∈ db.cycles, row.run ∈ db.runs) ∧
            (∀ row ∈ db.componentCounts, row.1 < db.cycles.length) ∧
              (∀ row ∈ db.rocSpans, row.1 < db.cycles.length) ∧
                (∀ _frame ∈ db.frames, 1 ∈ db.runs) ∧
                  (∀ row ∈ db.nativeWork, row.1 < db.frames.length) ∧
                    (∀ row ∈ db.frameWork, row.1 < db.frames.length) ∧
                      (∀ row ∈ db.frameCycles, row.1 < db.frames.length ∧ row.2 < db.cycles.length) ∧
                        ∀ row ∈ db.passes, 1 ∈ db.runs ∧ (∀ i ∈ row.frame, i < db.frames.length) ∧
                          ∀ i ∈ row.cycle, i < db.cycles.length)
    ⟨fun ⟨a, b, c, d, e, f, g, h, i, j, k⟩ => ⟨a, b, c, d, e, f, g, h, i, j, k⟩,
      fun ⟨a, b, c, d, e, f, g, h, i, j, k⟩ => ⟨a, b, c, d, e, f, g, h, i, j, k⟩⟩

end Database

section Writing

variable (db : Database)

def counterFamilies : List CounterFamily := [.audio, .clipboard, .sqlite, .http, .tcp]

def counterMessage : CounterFamily → String
  | .audio => "cannot write audio counter assertion"
  | .clipboard => "cannot write clipboard counter assertion"
  | .sqlite => "cannot write SQLite counter assertion"
  | .http => "cannot write HTTP counter assertion"
  | .tcp => "cannot write TCP counter assertion"

def writeRunStart (id : ℤ) : Except String Database := do
  let runs ← insertRow (fun run => run) (fun _ => "cannot write stats row") db.runs id
  return { db with runs := runs }

def assertedFamilies (result : StepResult) : List CounterFamily := counterFamilies.filter result.counters

def assertedKinds (result : StepResult) : List (Fin componentKinds) :=
  match result.componentWork with
  | none => []
  | some (expected, _) => (List.finRange componentKinds).filter fun kind => (expected kind).isSome

def writeStep (result : StepResult) : Except String Database := do
  let message := "cannot write step row"
  require (result.runId ∈ db.runs) message
  let steps ← insertRow (fun step => step) (fun _ => message) db.steps (result.runId, result.ordinal)
  let step := steps.idxOf (result.runId, result.ordinal)
  let counters ← insertRows (fun row => row) (fun row => counterMessage row.2) db.counterAssertions
    ((assertedFamilies result).map fun family => (step, family))
  let components ← insertRows (fun row => row) (fun _ => "cannot write component work assertion")
    db.componentAssertions ((assertedKinds result).map fun kind => (step, kind))
  return { db with steps := steps, counterAssertions := counters, componentAssertions := components }

def countedKinds (c : Cycle) : List (Fin componentKinds) :=
  match c.componentWork with
  | none => []
  | some work => (List.finRange componentKinds).filter fun kind => work kind ≠ 0

def workedKinds (c : Cycle) : List (Fin workKinds) := (List.finRange workKinds).filter c.rocWork

def writeCycle (c : Cycle) : Except String Database := do
  let message := "cannot write cycle row"
  require (c.runId ∈ db.runs ∧ c.startNs ≤ c.endNs ∧
    ∀ step ∈ c.stepOrdinal, (c.runId, step) ∈ db.steps) message
  let cycles ← insertRow CycleRow.key (fun _ => message) db.cycles
    ⟨c.runId, c.ordinal, c.rocWorkValid, c.componentWork.isSome⟩
  let cycle := db.cycles.length
  let counts ← insertRows (fun row => row) (fun _ => "cannot write component work count")
    db.componentCounts ((countedKinds c).map fun kind => (cycle, kind))
  let spans ← insertRows (fun row => row) (fun _ => "cannot write Roc work span") db.rocSpans
    ((workedKinds c).map fun kind => (cycle, kind))
  return { db with cycles := cycles, componentCounts := counts, rocSpans := spans }

def nativeRows (work : NativeWork) : List (Bool × Fin nativeKinds) :=
  (((List.finRange nativeKinds).filter fun kind => 0 < work.rendered kind).map fun kind => (false, kind)) ++
    ((List.finRange nativeKinds).filter fun kind => 0 < work.viewElementsCreated kind).map
      fun kind => (true, kind)

/-- A cycle that was omitted has no row to link. -/
def linkedCycles (frame : GpuiFrame) : List ℕ :=
  frame.cycles.filterMap fun cycle => select (db.cycles.map CycleRow.key) (1, cycle)

def writeGpuiFrame (frame : GpuiFrame) : Except String Database := do
  let message := "cannot write GPUI frame"
  require (1 ∈ db.runs ∧ frame.startNs ≤ frame.endNs) message
  let frames ← insertRow (fun ordinal => ordinal) (fun _ => message) db.frames frame.ordinal
  let id := db.frames.length
  let links ← insertRows (fun row => row) (fun _ => "cannot write frame cycle link") db.frameCycles
    ((linkedCycles db frame).map fun cycle => (id, cycle))
  let work ← insertRows (fun row => row) (fun _ => "cannot write native work count") db.nativeWork
    ((nativeRows frame.nativeWork).map fun row => (id, row))
  return { db with frames := frames, frameCycles := links, nativeWork := work }

def writeGpuiFrameWork (ordinal : ℕ) : Except String Database := do
  match select db.frames ordinal with
  | none => .error "cannot find GPUI frame for owner work"
  | some frame =>
    let rows ← insertRows (fun row => row) (fun _ => "cannot write GPUI frame work") db.frameWork
      ((List.finRange frameMetrics).map fun metric => (frame, metric))
    return { db with frameWork := rows }

def passRow : ListPassOrigin → PassRow
  | .paint frame => ⟨true, frame.bind (select db.frames), none⟩
  | .patch cycle =>
    ⟨false, none, cycle.bind fun cycle => select (db.cycles.map CycleRow.key) (1, cycle)⟩

def writeListPass (pass : ListPass) : Except String Database := do
  require (1 ∈ db.runs ∧ pass.startNs ≤ pass.endNs) "cannot write stats row"
  return { db with passes := db.passes ++ [passRow db pass.origin] }

def writeEvent : CaptureEvent → Except String Database
  | .runStart id _ => writeRunStart db id
  -- an update, of no row for a run that is not there
  | .runEnd .. => .ok db
  | .step result => writeStep db result
  | .cycle c => writeCycle db c
  | .gpuiFrame frame => writeGpuiFrame db frame
  | .gpuiFrameWork ordinal _ => writeGpuiFrameWork db ordinal
  | .virtualListFrame pass => writeListPass db pass

end Writing

section Statuses

inductive Family where
  | testOutcome | stepResults | hostCycles | rocWorkSpans | componentWork | patchAccounting
  | gpuiApplication | virtualListMaterialization | gpuiFrameSpans | gpuiNativeWork | gpuiFrameWork
  | frameCycleLinkage | virtualListLinkage | gpuiLayoutSolve | gpuiPresentation | gpuiTiming
  | processResources | rocAllocations | scaleVerification | patchVerification | timingEnvironment
  deriving DecidableEq, Repr

inductive Status where
  | unfinalized | complete | partialRows | notRecorded | unavailable
  deriving DecidableEq, Repr

structure Config where
  detail : Detail
  spec : Bool
  benchmark : Bool
  patchExpected : Bool
  /-- The backend is one of GPUI's. -/
  gpui : Bool
  oneJob : Bool

def recordedIf (recorded : Bool) : Status := if recorded then .unfinalized else .notRecorded

def initialStatus (config : Config) : Family → Status
  | .testOutcome | .stepResults => recordedIf config.spec
  | .gpuiApplication | .virtualListMaterialization | .gpuiFrameSpans | .gpuiNativeWork | .gpuiFrameWork
  | .frameCycleLinkage | .virtualListLinkage => recordedIf config.gpui
  | .gpuiLayoutSolve | .gpuiPresentation | .gpuiTiming => .unavailable
  | .scaleVerification => recordedIf config.benchmark
  | .patchVerification => recordedIf config.patchExpected
  | .timingEnvironment => if config.oneJob then .complete else .partialRows
  | .hostCycles | .rocWorkSpans | .componentWork | .patchAccounting | .processResources
  | .rocAllocations => .unfinalized

variable (db : Database) (lossy : Bool)

def finalStatus (family : Family) (status : Status) : Status :=
  if status = .partialRows ∨ status = .notRecorded ∨ status = .unavailable then status
  else if family = .virtualListMaterialization ∧ db.passes = [] then .unavailable
  else if (family = .gpuiFrameSpans ∨ family = .gpuiNativeWork) ∧ db.frames = [] then .unavailable
  else if family = .gpuiFrameWork ∧ db.frameWork = [] then .unavailable
  else if family = .gpuiFrameWork ∧ db.frameWork.length ≠ frameMetrics * db.frames.length then .partialRows
  else if lossy then .partialRows
  else .complete

def linkageStatus (family : Family) (status : Status) : Status :=
  if status = .notRecorded ∨ status = .unavailable then status
  else if lossy then .partialRows
  else if family = .frameCycleLinkage ∧ db.frames = [] then .unavailable
  else if family = .virtualListLinkage ∧ db.passes = [] then .unavailable
  else if family = .virtualListLinkage ∧ db.passes.any (fun row => row.paint && row.frame.isNone) then
    .partialRows
  else .complete

def rocWorkStatus : Status :=
  if lossy then .partialRows
  else if db.cycles = [] then .unavailable
  else if db.cycles.any fun row => !row.rocWorkValid then .partialRows
  else if db.rocSpans = [] then .unavailable
  else .complete

def componentWorkStatus : Status :=
  if lossy then .partialRows
  else if !db.cycles.any CycleRow.componentWorkRecorded then .unavailable
  else if db.cycles.any fun row => !row.componentWorkRecorded then .partialRows
  else .complete

/-- The statuses after the updates of `finalize`, in their order. -/
def finalize (config : Config) (family : Family) : Status :=
  let status := finalStatus db lossy family (initialStatus config family)
  match family with
  | .frameCycleLinkage | .virtualListLinkage => linkageStatus db lossy family status
  | .rocWorkSpans => rocWorkStatus db lossy
  | .componentWork => componentWorkStatus db lossy
  | _ => status

end Statuses

structure Health where
  rowsWritten : ℕ
  omittedEvents : ℕ
  transactions : ℕ
  outputLimited : Bool
  statuses : Family → Status

structure Capture where
  active : Bool
  frameOrdinal : ℕ
  queue : List CaptureEvent
  omitted : ℕ
  db : Database
  rowsWritten : ℕ
  transactions : ℕ
  outputLimited : Bool
  /-- What the writer returned instead of going on. -/
  failure : Option String
  finishing : Bool
  health : Option Health
  /-- The events that were submitted, and those the writer has taken. -/
  calls : List CaptureEvent
  processed : List CaptureEvent
  /-- The frames among the events that the queue refused or the output limit sacrificed. -/
  lost : List ℕ
  /-- The last frame has not reported the work of its owner. -/
  awaiting : Bool

inductive RecorderCall where
  | runStart (id : ℤ) (phase : RunPhase)
  | runEnd (id : ℤ) (outcome : Outcome)
  | step (result : StepResult)
  | cycle (cycle : Cycle)
  | gpuiFrame (startNs now : ℕ) (cycles : List ℕ) (work : NativeWork)
  | gpuiFrameWork (counts : Fin frameMetrics → ℕ)
  | virtualListFrame (startNs now : ℕ) (origin : ListPassOrigin) (listId : ℕ)

inductive CaptureStep where
  /-- A call, with the queue's answer to an event that it may refuse. -/
  | call (call : RecorderCall) (refused : Bool)
  /-- The writer takes the next event. -/
  | write
  /-- The writer commits, and sees whether the output has reached its limit. -/
  | commit (limited : Bool)
  | finish
  | finalize

section Recording

variable (s : Capture)

/-- Runs and steps are sent without a bound. -/
def lossless : CaptureEvent → Bool
  | .runStart .. | .runEnd .. | .step _ => true
  | _ => false

/-- What the output limit is held against. -/
def sacrificed : CaptureEvent → Bool
  | .cycle _ | .virtualListFrame _ | .gpuiFrame _ => true
  | _ => false

def frameOf : CaptureEvent → Option ℕ
  | .gpuiFrame frame => some frame.ordinal
  | _ => none

def lose (event : CaptureEvent) : Capture :=
  { s with omitted := s.omitted + 1, lost := s.lost ++ (frameOf event).toList }

def submit (event : CaptureEvent) (refused : Bool) : Capture :=
  if s.finishing then s
  else
    let s := { s with calls := s.calls ++ [event] }
    if s.failure.isSome then { lose s event with active := false }
    else if refused && !lossless event then lose s event
    else { s with queue := s.queue ++ [event] }

/-- Without an answer, the call panicked. -/
def record (detail : Detail) (refused : Bool) : RecorderCall → Option Capture
  | .runStart id phase => some (submit s (.runStart id phase) refused)
  | .runEnd id outcome => some (submit s (.runEnd id outcome) refused)
  | .step result => some (submit s (.step result) refused)
  | .cycle c =>
    some (if detail.recordsCycle c.measurementPhase then submit s (.cycle c) refused else s)
  | .gpuiFrame startNs now cycles work =>
    if !s.active then some s
    else
      let frame : GpuiFrame := ⟨s.frameOrdinal, min startNs now, now, cycles, work⟩
      some (submit { s with frameOrdinal := s.frameOrdinal + 1, awaiting := true } (.gpuiFrame frame)
        refused)
  | .gpuiFrameWork counts =>
    if !s.active then some s
    else if s.frameOrdinal = 0 then none
    else some (submit { s with awaiting := false } (.gpuiFrameWork (s.frameOrdinal - 1) counts) refused)
  | .virtualListFrame startNs now origin listId =>
    if !s.active then some s
    else some (submit s (.virtualListFrame ⟨min startNs now, now, origin, listId⟩) refused)

/-- The writer's next event. After an error the writer is gone, and the queue with it. -/
def write : Option Capture :=
  match s.queue with
  | [] => none
  | event :: rest =>
    let s := { s with queue := rest, processed := s.processed ++ [event] }
    if s.outputLimited && sacrificed event then some (lose s event)
    else match writeEvent s.db event with
      | .error message => some { s with queue := [], failure := some message }
      | .ok db => some { s with db := db, rowsWritten := s.rowsWritten + 1 }

def healthOf (config : Config) : Health where
  rowsWritten := s.rowsWritten
  omittedEvents := s.omitted
  transactions := s.transactions
  outputLimited := s.outputLimited
  statuses := finalize s.db (s.omitted > 0 || s.outputLimited) config

def next (config : Config) : CaptureStep → Option Capture
  | .call call refused => record s config.detail refused call
  | .write => if s.failure.isSome then none else write s
  | .commit limited =>
    if s.failure.isSome then none
    else some { s with transactions := s.transactions + 1, outputLimited := s.outputLimited || limited }
  | .finish => some { s with finishing := true, active := false }
  | .finalize =>
    if s.failure.isSome ∨ s.finishing = false ∨ s.queue ≠ [] then none
    else if s.db.Whole then some { s with health := some (healthOf s config) }
    else some { s with failure := some "stats database contains orphan rows" }

end Recording

section Systems

/-- What a run calls: a run is started once and before its steps, cycles, frames and passes, whose
ordinals count up; a step before its cycles; and a frame before the work of its owner. -/
def Callable (s : Capture) : RecorderCall → Prop
  | .runStart id _ => ∀ phase, .runStart id phase ∉ s.calls
  | .runEnd id _ => ∃ phase, .runStart id phase ∈ s.calls
  | .step result => (∃ phase, .runStart result.runId phase ∈ s.calls) ∧
      ∀ other, .step other ∈ s.calls → (other.runId, other.ordinal) ≠ (result.runId, result.ordinal)
  | .cycle c => (∃ phase, .runStart c.runId phase ∈ s.calls) ∧ c.startNs ≤ c.endNs ∧
      (∀ other, .cycle other ∈ s.calls → (other.runId, other.ordinal) ≠ (c.runId, c.ordinal)) ∧
      ∀ ordinal ∈ c.stepOrdinal, ∃ result, .step result ∈ s.calls ∧
        (result.runId, result.ordinal) = (c.runId, ordinal)
  | .gpuiFrame _ _ cycles _ => (∃ phase, .runStart 1 phase ∈ s.calls) ∧ cycles.Nodup
  | .gpuiFrameWork _ => s.awaiting = true
  | .virtualListFrame .. => ∃ phase, .runStart 1 phase ∈ s.calls

def Permitted (s : Capture) : CaptureStep → Prop
  | .call call _ => Callable s call
  | _ => True

def start : Capture where
  active := true
  frameOrdinal := 0
  queue := []
  omitted := 0
  db := .empty
  rowsWritten := 0
  transactions := 0
  outputLimited := false
  failure := none
  finishing := false
  health := none
  calls := []
  processed := []
  lost := []
  awaiting := false

def captureSystem (config : Config) : System Capture CaptureStep where
  initial := start
  Step s e t := Permitted s e ∧ next s config e = some t

end Systems

end Captures
