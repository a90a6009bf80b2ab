import RocGui.Transitions
import Mathlib.Logic.Function.Basic
import Mathlib.Data.Nat.Notation

/-! Tasks that are stopped while their workers wait. A wait arms the hook of its task, looks
under the lock of what it waits for, and blocks there; a stop marks the task ended, then runs
the hook under the lock of the hook. A lock is held from one step to the next where the code
holds it across a decision. -/
namespace TaskStops

open Transitions

inductive TaskStatus where
  | queued | running | published | delivered | superseded | cancelled
  deriving DecidableEq, Repr

def TaskStatus.stopped : TaskStatus → Bool
  | .superseded | .cancelled => true
  | .queued | .running | .published | .delivered => false

def TaskStatus.settled : TaskStatus → Bool
  | .delivered | .superseded | .cancelled => true
  | .queued | .running | .published => false

/-- How the waits on one resource look at what its lock protects. -/
structure Monitor (σ Q τ ρ ε : Type) where
  /-- The first look: the wait is refused, or goes in. -/
  enter : Q → σ → Except ρ σ
  /-- What ends the wait, from whether its task has ended and the clock. Otherwise it blocks. -/
  poll : Q → Bool → ℕ → σ → Option (τ × σ)
  /-- The rest of the section, after the loop. -/
  leave : Q → τ → Bool → ℕ → σ → ρ × σ
  /-- What else happens under the lock, and whether it notifies. -/
  change : ε → σ → σ × Bool
  /-- The wait of a task that has ended does not block. -/
  heeds : ∀ q now s, (poll q true now s).isSome

section States

variable (ι : Type) (σ Q τ ρ : ι → Type)

/-- Where the worker of a task is. From `entering` to `deciding`, and in `leaving`, it holds the
lock of the resource. -/
inductive Stage where
  | idle
  | running
  | arming (r : ι) (q : Q r)
  | locking (r : ι) (q : Q r)
  | entering (r : ι) (q : Q r)
  | checking (r : ι) (q : Q r)
  | deciding (r : ι) (q : Q r)
  | blocked (r : ι) (q : Q r)
  | relocking (r : ι) (q : Q r)
  | leaving (r : ι) (q : Q r) (t : τ r)
  | disarming (r : ι) (answer : ρ r)
  | finished

/-- Where a call of `stop` is. While it wakes, it holds the lock of the task's hook. -/
inductive StopStage where
  | idle
  | hooking (k : ℕ)
  | waking (k : ℕ) (r : ι)
  | done (ended : Bool)

structure WaitState where
  resources : (r : ι) → σ r
  held : ι → Option ℕ
  status : ℕ → TaskStatus
  hooks : ℕ → Option ι
  hookHeld : ℕ → Option ℕ
  workers : ℕ → Stage ι Q τ ρ
  stops : ℕ → StopStage ι
  /-- The interruptions that each call of `stop` has counted. -/
  interrupted : ℕ → ℕ

end States

section Steps

variable {ι : Type} [DecidableEq ι] {σ Q τ ρ ε : ι → Type}
  (M : (r : ι) → Monitor (σ r) (Q r) (τ r) (ρ r) (ε r)) (s : WaitState ι σ Q τ ρ)

def setWorker (k : ℕ) (stage : Stage ι Q τ ρ) : WaitState ι σ Q τ ρ :=
  { s with workers := Function.update s.workers k stage }

def lock (r : ι) (k : ℕ) (stage : Stage ι Q τ ρ) : Option (WaitState ι σ Q τ ρ) :=
  match s.held r with
  | none => some { setWorker s k stage with held := Function.update s.held r (some k) }
  | some _ => none

def unlock (r : ι) (k : ℕ) (stage : Stage ι Q τ ρ) : WaitState ι σ Q τ ρ :=
  { setWorker s k stage with held := Function.update s.held r none }

def setResource (r : ι) (x : σ r) : WaitState ι σ Q τ ρ :=
  { s with resources := Function.update s.resources r x }

/-- A section under the lock of a hook. -/
def setHook (k : ℕ) (hook : Option ι) (stage : Stage ι Q τ ρ) : Option (WaitState ι σ Q τ ρ) :=
  match s.hookHeld k with
  | none => some { setWorker s k stage with hooks := Function.update s.hooks k hook }
  | some _ => none

/-- The next step of the worker of a task, at this time. -/
def advance (k now : ℕ) : Option (WaitState ι σ Q τ ρ) :=
  match s.workers k with
  | .arming r q => setHook s k (some r) (.locking r q)
  | .locking r q => lock s r k (.entering r q)
  | .entering r q => some (match (M r).enter q (s.resources r) with
      | .error answer => unlock s r k (.disarming r answer)
      | .ok x => setResource (setWorker s k (.checking r q)) r x)
  | .checking r q => some (match (M r).poll q (s.status k).stopped now (s.resources r) with
      | some (t, x) => setResource (setWorker s k (.leaving r q t)) r x
      | none => setWorker s k (.deciding r q))
  -- blocking gives the lock back
  | .deciding r q => some (unlock s r k (.blocked r q))
  | .relocking r q => lock s r k (.checking r q)
  | .leaving r q t =>
    let (answer, x) := (M r).leave q t (s.status k).stopped now (s.resources r)
    some (unlock (setResource s r x) r k (.disarming r answer))
  | .disarming _ _ => setHook s k none .running
  | .idle | .running | .blocked _ _ | .finished => none

def notified (r : ι) : Stage ι Q τ ρ → Stage ι Q τ ρ
  | .blocked r' q => if r' = r then .relocking r' q else .blocked r' q
  | stage => stage

def notifyAll (r : ι) : WaitState ι σ Q τ ρ :=
  { s with workers := fun k => notified r (s.workers k) }

def setStop (j : ℕ) (stage : StopStage ι) : WaitState ι σ Q τ ρ :=
  { s with stops := Function.update s.stops j stage }

/-- The first step of `stop`: the task is marked ended, unless it is settled. -/
def startStop (j k : ℕ) (why : TaskStatus) : Option (WaitState ι σ Q τ ρ) :=
  match s.stops j with
  | .idle =>
    if (s.status k).settled then some (setStop s j (.done false))
    else if why.stopped then
      some { setStop s j (.hooking k) with status := Function.update s.status k why }
    else none
  | _ => none

def advanceStop (j : ℕ) : Option (WaitState ι σ Q τ ρ) :=
  match s.stops j with
  | .hooking k => match s.hookHeld k with
    | some _ => none
    | none => some (match s.hooks k with
      | none => setStop s j (.done true)
      | some r => { setStop s j (.waking k r) with
          hookHeld := Function.update s.hookHeld k (some j)
          interrupted := Function.update s.interrupted j (s.interrupted j + 1) })
  | .waking k r => match s.held r with
    | some _ => none
    | none => some { setStop (notifyAll s r) j (.done true) with
        hookHeld := Function.update s.hookHeld k none }
  | .idle | .done _ => none

end Steps

section Runs

variable {ι : Type} [DecidableEq ι] (σ Q τ ρ ε : ι → Type)

inductive WaitEvent where
  | begin (k : ℕ)
  | finish (k : ℕ)
  | deliver (k : ℕ)
  | wait (k : ℕ) (r : ι) (q : Q r)
  | proceed (k now : ℕ)
  /-- A wait wakes by itself, or its time has passed. -/
  | wake (k : ℕ)
  | stop (j k : ℕ) (why : TaskStatus)
  | proceedStop (j : ℕ)
  | change (r : ι) (e : ε r)

variable {σ Q τ ρ ε} (M : (r : ι) → Monitor (σ r) (Q r) (τ r) (ρ r) (ε r))

def next (s : WaitState ι σ Q τ ρ) : WaitEvent Q ε → Option (WaitState ι σ Q τ ρ)
  | .begin k => match s.workers k with
    | .idle =>
      if s.status k = .queued then
        some { setWorker s k .running with status := Function.update s.status k .running }
      else none
    | _ => none
  | .finish k => match s.workers k with
    | .running => some { setWorker s k .finished with
        status := Function.update s.status k
          (if s.status k = .running then .published else s.status k) }
    | _ => none
  | .deliver k =>
    if s.status k = .published then
      some { s with status := Function.update s.status k .delivered }
    else none
  | .wait k r q => match s.workers k with
    | .running => some (setWorker s k (.arming r q))
    | _ => none
  | .proceed k now => advance M s k now
  | .wake k => match s.workers k with
    | .blocked r q => some (setWorker s k (.relocking r q))
    | _ => none
  | .stop j k why => startStop s j k why
  | .proceedStop j => advanceStop s j
  | .change r e => match s.held r with
    | none =>
      let (x, notifies) := (M r).change e (s.resources r)
      let changed := setResource s r x
      some (if notifies then notifyAll changed r else changed)
    | some _ => none

def started (resources : (r : ι) → σ r) : WaitState ι σ Q τ ρ where
  resources := resources
  held _ := none
  status _ := .queued
  hooks _ := none
  hookHeld _ := none
  workers _ := .idle
  stops _ := .idle
  interrupted _ := 0

def waitSystem (resources : (r : ι) → σ r) : System (WaitState ι σ Q τ ρ) (WaitEvent Q ε) where
  initial := started resources
  Step s e s' := next M s e = some s'

end Runs

end TaskStops
