import Mathlib.Data.Bool.Basic
import Mathlib.Data.List.Nodup
import Mathlib.Logic.Function.Basic
import RocGui.Transitions

/-! The lifetime of each accepted task, from issue to delivery or cancellation.
The UI thread issues, stops and delivers; one worker runs each task. Every load,
store, exchange and lock-protected section of either side is a step of its own. -/
namespace TaskLifetimes

open Transitions

inductive SlotState where
  | queued | running | published | delivered | superseded | cancelled
  deriving DecidableEq, Repr

def SlotState.code : SlotState → ℕ
  | .queued => 0
  | .running => 1
  | .published => 2
  | .delivered => 3
  | .superseded => 4
  | .cancelled => 5

/-- `current >= DELIVERED`. -/
def SlotState.Ended (s : SlotState) : Prop := SlotState.delivered.code ≤ s.code

/-- `state >= SUPERSEDED`: the task ended without delivery. -/
def SlotState.Stopped (s : SlotState) : Prop := SlotState.superseded.code ≤ s.code

instance (s : SlotState) : Decidable s.Ended := inferInstanceAs (Decidable (_ ≤ _))
instance (s : SlotState) : Decidable s.Stopped := inferInstanceAs (Decidable (_ ≤ _))

/-- A boxed completion. Dropping it releases a nonzero `raw`. -/
structure Owned where
  raw : ℕ
  deriving DecidableEq, Repr

structure TaskSlot where
  owner : ℕ
  key : String
  state : SlotState
  /-- Whether a wake hook is armed. -/
  interrupt : Bool
  completion : Option Owned
  deriving DecidableEq, Repr

/-- The counters never wrap here; `reading` is what an `AtomicU64` shows of them. -/
structure Counters where
  issued : ℕ
  completed : ℕ
  delivered : ℕ
  superseded : ℕ
  cancelled : ℕ
  interrupted : ℕ
  deriving DecidableEq, Repr

def reading (n : ℕ) : UInt64 := UInt64.ofNat n

def issuedAndSettled (c : Counters) : UInt64 × UInt64 :=
  (reading c.issued, reading c.delivered + reading c.superseded + reading c.cancelled)

inductive Why where
  | superseded | cancelled
  deriving DecidableEq, Repr

def Why.state : Why → SlotState
  | .superseded => .superseded
  | .cancelled => .cancelled

/-- The closures passed to `stop_where`: one key of one owner, or every task of
the removed components. -/
inductive Selection where
  | keyed (owner : ℕ) (key : String)
  | removed (owners : List ℕ)
  deriving DecidableEq, Repr

def Selection.selects : Selection → TaskSlot → Bool
  | .keyed owner key, slot => slot.owner == owner && slot.key == key
  | .removed owners, slot => slot.owner != 0 && owners.contains slot.owner

/-- What a call goes on to do once its `stop_where` has returned. -/
inductive After where
  | finished
  | create (owner : ℕ) (key : String)
  | zero
  deriving DecidableEq, Repr

/-- The UI thread's program counter with the locals still needed. A slot in
`stopNext` or `rest` left `live` and is still to be stopped. -/
inductive Ui where
  | idle
  | partition (why : Why) (selection : Selection) (after : After)
  | drain
  | stopNext (why : Why) (ended : List ℕ) (after : After)
  | stopExchange (why : Why) (slot : ℕ) (current : SlotState) (rest : List ℕ) (after : After)
  | stopCount (why : Why) (slot : ℕ) (rest : List ℕ) (after : After)
  | stopTake (why : Why) (slot : ℕ) (rest : List ℕ) (after : After)
  | stopHook (why : Why) (slot : ℕ) (rest : List ℕ) (after : After)
  | create (owner : ℕ) (key : String)
  | countIssued (slot : ℕ)
  | pushLive (slot : ℕ)
  | zero (index : ℕ)
  | deliverExchange (slot : ℕ)
  | countDelivered (slot : ℕ)
  | retainLive (slot : ℕ)
  | deliverTake (slot : ℕ)
  deriving DecidableEq, Repr

def After.resume : After → Ui
  | .finished => .idle
  | .create owner key => .create owner key
  | .zero => .zero 0

/-- How far the worker holding a task's envelope has come. The flag of the last
three is `published`, the outcome of the exchange in `finish`. -/
inductive Worker where
  | waiting
  | refused
  | begun
  | running
  | stored
  | exchanged (published : Bool)
  | settled (published : Bool)
  | left (published : Bool)
  deriving DecidableEq, Repr

inductive Party where
  | finish | stop | deliver
  deriving DecidableEq, Repr

/-- What a run did, in the terms its specification speaks of. -/
inductive Observation where
  | ran (slot : ℕ)
  | ended (slot : ℕ) (how : SlotState)
  | produced (slot : ℕ) (completion : Owned)
  | took (slot : ℕ) (party : Party) (completion : Owned)
  deriving DecidableEq, Repr

/-- Slots are numbered in the order they were allocated; the history has its
latest observation first. -/
structure Tasks where
  slot : ℕ → TaskSlot
  allocated : ℕ
  live : List ℕ
  runningNow : List ℕ
  counters : Counters
  worker : ℕ → Worker
  ui : Ui
  history : List Observation

def initial : Tasks where
  slot _ := ⟨0, "", .queued, false, none⟩
  allocated := 0
  live := []
  runningNow := []
  counters := ⟨0, 0, 0, 0, 0, 0⟩
  worker _ := .waiting
  ui := .idle
  history := []

def Tasks.setState (t : Tasks) (s : ℕ) (state : SlotState) : Tasks :=
  { t with slot := Function.update t.slot s { t.slot s with state := state } }

def Tasks.setCompletion (t : Tasks) (s : ℕ) (completion : Option Owned) : Tasks :=
  { t with slot := Function.update t.slot s { t.slot s with completion := completion } }

def Tasks.setInterrupt (t : Tasks) (s : ℕ) (armed : Bool) : Tasks :=
  { t with slot := Function.update t.slot s { t.slot s with interrupt := armed } }

def Tasks.observe (t : Tasks) (o : Observation) : Tasks := { t with history := o :: t.history }

def Tasks.setWorker (t : Tasks) (s : ℕ) (w : Worker) : Tasks :=
  { t with worker := Function.update t.worker s w }

/-- `take_completion`, with the party that now owns what it took. -/
def takeCompletion (t : Tasks) (s : ℕ) (party : Party) : Tasks :=
  match (t.slot s).completion with
  | none => t
  | some c => (t.setCompletion s none).observe (.took s party c)

def bumpStopped (c : Counters) : Why → Counters
  | .superseded => { c with superseded := c.superseded + 1 }
  | .cancelled => { c with cancelled := c.cancelled + 1 }

/-- `counter.store(0)`, in the order the counters are reported. -/
def zeroCounter (c : Counters) : ℕ → Counters
  | 0 => { c with issued := 0 }
  | 1 => { c with completed := 0 }
  | 2 => { c with delivered := 0 }
  | 3 => { c with superseded := 0 }
  | 4 => { c with cancelled := 0 }
  | _ => { c with interrupted := 0 }

inductive Call where
  | issue (owner : ℕ) (key : String)
  | cancel (owner : ℕ) (key : String)
  | unmount (removed : List ℕ)
  | deliver (slot : ℕ)
  | reset
  deriving DecidableEq, Repr

def enter : Call → Ui
  | .issue owner key =>
    if key = "" then .create owner key
    else .partition .superseded (.keyed owner key) (.create owner key)
  | .cancel owner key =>
    if key = "" then .idle else .partition .cancelled (.keyed owner key) .finished
  | .unmount removed =>
    if removed = [] then .idle else .partition .cancelled (.removed removed) .finished
  | .deliver slot => .deliverExchange slot
  | .reset => .drain

def uiStep (t : Tasks) : Tasks :=
  match t.ui with
  | .idle => t
  | .partition why selection after =>
    { t with
      live := t.live.filter fun s => !selection.selects (t.slot s)
      ui := .stopNext why (t.live.filter fun s => selection.selects (t.slot s)) after }
  | .drain => { t with live := [], ui := .stopNext .cancelled t.live .zero }
  | .stopNext _ [] after => { t with ui := after.resume }
  | .stopNext why (s :: rest) after =>
    if (t.slot s).state.Ended then { t with ui := .stopNext why rest after }
    else { t with ui := .stopExchange why s (t.slot s).state rest after }
  | .stopExchange why s current rest after =>
    if (t.slot s).state = current then
      { (t.setState s why.state).observe (.ended s why.state) with
        ui := .stopCount why s rest after }
    -- The loop of `stop`: the exchange failed, so look at what was found there.
    else if (t.slot s).state.Ended then { t with ui := .stopNext why rest after }
    else { t with ui := .stopExchange why s (t.slot s).state rest after }
  | .stopCount why s rest after =>
    { t with counters := bumpStopped t.counters why, ui := .stopTake why s rest after }
  | .stopTake why s rest after =>
    { takeCompletion t s .stop with ui := .stopHook why s rest after }
  | .stopHook why s rest after =>
    if (t.slot s).interrupt then
      { t with
        counters := { t.counters with interrupted := t.counters.interrupted + 1 }
        ui := .stopNext why rest after }
    else { t with ui := .stopNext why rest after }
  | .create owner key =>
    { t with
      slot := Function.update t.slot t.allocated ⟨owner, key, .queued, false, none⟩
      allocated := t.allocated + 1
      ui := .countIssued t.allocated }
  | .countIssued s =>
    { t with
      counters := { t.counters with issued := t.counters.issued + 1 }
      ui := .pushLive s }
  | .pushLive s => { t with live := t.live ++ [s], ui := .idle }
  | .zero i =>
    { t with counters := zeroCounter t.counters i, ui := if i < 5 then .zero (i + 1) else .idle }
  | .deliverExchange s =>
    if (t.slot s).state = .published then
      { (t.setState s .delivered).observe (.ended s .delivered) with ui := .countDelivered s }
    else { t with ui := .idle }
  | .countDelivered s =>
    { t with
      counters := { t.counters with delivered := t.counters.delivered + 1 }
      ui := .retainLive s }
  | .retainLive s => { t with live := t.live.filter (· ≠ s), ui := .deliverTake s }
  | .deliverTake s => { takeCompletion t s .deliver with ui := .idle }

inductive Event where
  | call (c : Call)
  | ui
  | begin (slot : ℕ)
  | register (slot : ℕ)
  | arm (slot : ℕ)
  | disarm (slot : ℕ)
  | store (slot : ℕ) (completion : Owned)
  | exchange (slot : ℕ)
  | settle (slot : ℕ)
  | leave (slot : ℕ)
  deriving DecidableEq, Repr

def Enabled (t : Tasks) : Event → Prop
  | .call (.deliver s) => t.ui = .idle ∧ s < t.allocated
  | .call _ => t.ui = .idle
  | .ui => t.ui ≠ .idle
  | .begin s => s < t.allocated ∧ t.worker s = .waiting
  | .register s => t.worker s = .begun
  | .arm s | .disarm s | .store s _ => t.worker s = .running
  | .exchange s => t.worker s = .stored
  | .settle s => ∃ published, t.worker s = .exchanged published
  | .leave s => ∃ published, t.worker s = .settled published

instance (t : Tasks) : (e : Event) → Decidable (Enabled t e)
  | .call (.deliver s) => inferInstanceAs (Decidable (t.ui = .idle ∧ s < t.allocated))
  | .call (.issue _ _) | .call (.cancel _ _) | .call (.unmount _) | .call .reset =>
    inferInstanceAs (Decidable (t.ui = .idle))
  | .ui => inferInstanceAs (Decidable (t.ui ≠ .idle))
  | .begin s => inferInstanceAs (Decidable (s < t.allocated ∧ t.worker s = .waiting))
  | .register s => inferInstanceAs (Decidable (t.worker s = .begun))
  | .arm s | .disarm s | .store s _ => inferInstanceAs (Decidable (t.worker s = .running))
  | .exchange s => inferInstanceAs (Decidable (t.worker s = .stored))
  | .settle s =>
    decidable_of_iff (t.worker s = .exchanged false ∨ t.worker s = .exchanged true)
      (by simp [Enabled])
  | .leave s =>
    decidable_of_iff (t.worker s = .settled false ∨ t.worker s = .settled true)
      (by simp [Enabled])

def next (t : Tasks) : Event → Tasks
  | .call c => { t with ui := enter c }
  | .ui => uiStep t
  -- `begin`: the exchange, then `CURRENT` and `RUNNING_NOW`.
  | .begin s =>
    if (t.slot s).state = .queued then
      ((t.setState s .running).setWorker s .begun).observe (.ran s)
    else t.setWorker s .refused
  | .register s => { t.setWorker s .running with runningNow := t.runningNow ++ [s] }
  | .arm s => t.setInterrupt s true
  | .disarm s => t.setInterrupt s false
  -- `finish`: publish the completion, exchange the state, then count or take back.
  | .store s c => ((t.setCompletion s (some c)).setWorker s .stored).observe (.produced s c)
  | .exchange s =>
    if (t.slot s).state = .running then
      (t.setState s .published).setWorker s (.exchanged true)
    else t.setWorker s (.exchanged false)
  | .settle s =>
    if t.worker s = .exchanged true then
      { t.setWorker s (.settled true) with
        counters := { t.counters with completed := t.counters.completed + 1 } }
    else (takeCompletion t s .finish).setWorker s (.settled false)
  | .leave s =>
    { t.setWorker s (.left (t.worker s = .settled true)) with
      runningNow := t.runningNow.filter (· ≠ s) }

def system : System Tasks Event := guarded initial Enabled next

end TaskLifetimes
