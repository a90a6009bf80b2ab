import Mathlib.Data.Int.Notation
import Mathlib.Data.List.Basic
import Mathlib.Data.Nat.Notation

/-! The events a capture records. Measurements that nothing decides on are left out. -/
namespace CaptureEvents

inductive Detail where
  | summary | full
  deriving DecidableEq, Repr

inductive RunPhase where
  | test | warmup | sample | interactive
  deriving DecidableEq, Repr

inductive MeasurementPhase where
  | initialization | setup | measured | interactive
  deriving DecidableEq, Repr

/-- Setup cycles are outside the operation that is measured. -/
def Detail.recordsCycle (detail : Detail) (phase : MeasurementPhase) : Bool :=
  detail = .full || phase ≠ .setup

inductive PatchKind where
  | mount | noChange | replace | keyed
  deriving DecidableEq, Repr

inductive StepRole where
  | setup | boundary | operation | assertion
  deriving DecidableEq, Repr

inductive Outcome where
  | pass | fail
  deriving DecidableEq, Repr

inductive CounterFamily where
  | audio | clipboard | sqlite | http | tcp
  deriving DecidableEq, Repr

def workKinds : ℕ := 5
def componentKinds : ℕ := 11
def nativeKinds : ℕ := 20
def frameMetrics : ℕ := 19

structure StepResult where
  runId : ℤ
  ordinal : ℕ
  role : StepRole
  status : Outcome
  expectedCount : Option ℕ
  observedCount : Option ℕ
  /-- The families whose counters the step asserts. -/
  counters : CounterFamily → Bool
  /-- The counts expected of each kind, and those observed. -/
  componentWork : Option ((Fin componentKinds → Option ℕ) × Option (Fin componentKinds → ℕ))

structure Cycle where
  runId : ℤ
  ordinal : ℕ
  stepOrdinal : Option ℕ
  measurementPhase : MeasurementPhase
  patchKind : PatchKind
  startNs : ℕ
  endNs : ℕ
  rocWorkValid : Bool
  /-- Whether work of each kind occurred. -/
  rocWork : Fin workKinds → Bool
  componentWork : Option (Fin componentKinds → ℕ)

structure NativeWork where
  rendered : Fin nativeKinds → ℕ
  viewElementsCreated : Fin nativeKinds → ℕ

structure GpuiFrame where
  ordinal : ℕ
  startNs : ℕ
  endNs : ℕ
  /-- The cycles the frame is the first to draw. -/
  cycles : List ℕ
  nativeWork : NativeWork

inductive ListPassOrigin where
  | paint (frame : Option ℕ)
  | patch (cycle : Option ℕ)
  deriving DecidableEq, Repr

structure ListPass where
  startNs : ℕ
  endNs : ℕ
  origin : ListPassOrigin
  listId : ℕ
  deriving DecidableEq, Repr

inductive CaptureEvent where
  | runStart (id : ℤ) (phase : RunPhase)
  | runEnd (id : ℤ) (outcome : Outcome)
  | step (result : StepResult)
  | cycle (cycle : Cycle)
  | gpuiFrame (frame : GpuiFrame)
  | gpuiFrameWork (ordinal : ℕ) (counts : Fin frameMetrics → ℕ)
  | virtualListFrame (pass : ListPass)

end CaptureEvents
