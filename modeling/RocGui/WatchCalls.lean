import RocGui.ThreadSystems
import RocGui.Watches

/-! The calls on watches, the thread that delivers the kernel's events to them, and the kernel's
table of watched directories. Each locked section is one step. -/
namespace WatchCalls

open TextFormats ThreadSystems Transitions Watches

abbrev WatchId := ℕ
abbrev Directory := ℕ
abbrev Descriptor := ℕ

structure Watch where
  target : Target
  directory : Directory
  descriptor : Descriptor

inductive Arrival where
  | named (name : Text) (rebound : Bool)
  /-- An event was lost, which may have been one of a database's name. -/
  | lost (database : Bool)

/-- The state of a watch, with what it gathered since the last report, the reports with what
each took, and all that ever arrived. -/
structure Cell where
  state : State
  gathered : List Arrival
  reports : List (Report × List Arrival)
  history : List Arrival

def Cell.fresh : Cell := ⟨.fresh, [], [], []⟩

structure Event where
  /-- `none` for a queue overflow. -/
  descriptor : Option Descriptor
  child : Option Text
  mask : Mask

/-- What the watcher thread is at: the event it delivers, since when, and to whom still. -/
inductive Delivery where
  | resting
  | going (event : Event) (now : ℕ) (todo : List (WatchId × Watch))

structure Shared where
  next : WatchId
  watches : WatchId → Option Watch
  /-- A descriptor without an entry has none. -/
  byDescriptor : Descriptor → List WatchId
  cells : WatchId → Cell
  delivery : Delivery
  /-- The kernel's: the descriptor of each watched directory, and the events not yet read. -/
  kernel : Directory → Option Descriptor
  nextDescriptor : Descriptor
  queue : List Event
  /-- The directories that were deleted. -/
  deleted : Directory → Bool

inductive Call where
  | idle
  /-- The store has the watch, the grant registry not yet. -/
  | registering (id : WatchId)
  | ending (id : WatchId) (why : End)
  /-- How the watch had ended when its wait began is kept beside it. -/
  | checking (id : WatchId) (before : Option End)
  | entering (id : WatchId) (before : Option End)
  | blocked (id : WatchId) (before : Option End)
  | answered (id : WatchId) (before : Option End) (report : Report) (took : List Arrival)
  | sweeping (todo : List WatchId)

inductive Action where
  /-- `revoked`: the grant of what is watched was. -/
  | start (directory : Directory) (target : Target) (revoked : Bool)
  | register (recorded : Bool)
  | next (id : WatchId)
  | cancel (id : WatchId)
  | release (id : WatchId)
  | sweep
  /-- A watch whose grant was withdrawn, or whose parent was released, ends. -/
  | withdraw (found : Option End)
  | turn (requested : Bool) (now : ℕ)
  | proceed

section Cells

variable (c : Cell)

def Cell.finish (why : End) : Cell := { c with state := (Watches.finish c.state why).2 }

def arrival (target : Target) : Option Effect → List Arrival
  | some .nothing => []
  | some (.named name rebound) => [.named name rebound]
  | none => [.lost (target ≠ .directory)]

def Cell.record (target : Target) (effect : Option Effect) (now : ℕ) : Cell :=
  match c.state.ended with
  | some _ => c
  | none => { c with
      state := (Watches.record c.state target effect now).1
      gathered := c.gathered ++ arrival target effect
      history := c.history ++ arrival target effect }

/-- A wait that returns leaves; one that reports takes what was gathered. -/
def Cell.turn (requested : Bool) (now : ℕ) : Option (Report × List Arrival) × Cell :=
  match poll c.state requested now with
  | none => (none, c)
  | some (report, state) =>
    if report.code = changed then
      (some (report, c.gathered), { c with
        state := leave state, gathered := [], reports := c.reports ++ [(report, c.gathered)] })
    else (some (report, []), { c with state := leave state })

/-- The first look and the first turn are one section. -/
def Cell.enter (requested : Bool) (now : ℕ) : Option (Report × List Arrival) × Cell :=
  match Watches.enter c.state with
  | .error report => (some (report, []), c)
  | .ok state => Cell.turn { c with state := state } requested now

end Cells

section Kernel

variable (s : Shared)

/-- A directory that is watched keeps its descriptor. -/
def addWatch (directory : Directory) : Descriptor × Shared :=
  match s.kernel directory with
  | some descriptor => (descriptor, s)
  | none => (s.nextDescriptor, { s with
      kernel := Function.update s.kernel directory (some s.nextDescriptor)
      nextDescriptor := s.nextDescriptor + 1 })

def goneMask : Mask := ⟨false, false, true⟩

/-- A descriptor that is removed is reported once more. -/
def removeWatch (descriptor : Descriptor) : Shared :=
  { s with
    kernel := fun directory =>
      if s.kernel directory = some descriptor then none else s.kernel directory
    queue := s.queue ++ [⟨some descriptor, none, goneMask⟩] }

def pushEvent (directory : Directory) (child : Option Text) (mask : Mask) : Shared :=
  match s.kernel directory with
  | some descriptor => { s with queue := s.queue ++ [⟨some descriptor, child, mask⟩] }
  | none => s

end Kernel

section Sections

variable (s : Shared)

def setCell (id : WatchId) (cell : Cell) : Shared :=
  { s with cells := Function.update s.cells id cell }

def held (ids : List WatchId) : List (WatchId × Watch) :=
  ids.filterMap fun id => (s.watches id).map fun watch => (id, watch)

/-- The section of `start` under the store's lock; `none` is past the limit. -/
def start (directory : Directory) (target : Target) : Option (WatchId × Shared) :=
  if maxWatches ≤ (held s (List.range s.next)).length then none
  else
    let (descriptor, s) := addWatch s directory
    some (s.next, { s with
      next := s.next + 1
      watches := Function.update s.watches s.next (some ⟨target, directory, descriptor⟩)
      byDescriptor := Function.update s.byDescriptor descriptor (s.byDescriptor descriptor ++ [s.next]) })

/-- The directory is no longer watched once no other watch shares it. -/
def release (id : WatchId) (watch : Watch) : Shared :=
  let ids := (s.byDescriptor watch.descriptor).filter (· ≠ id)
  let last := s.byDescriptor watch.descriptor ≠ [] ∧ ids = []
  let s := { s with
    watches := Function.update s.watches id none
    byDescriptor := Function.update s.byDescriptor watch.descriptor ids }
  if last then removeWatch s watch.descriptor else s

def endWatch (id : WatchId) (why : End) : Shared := setCell s id ((s.cells id).finish why)

/-- The snapshot of `deliver`. -/
def takeEvent (event : Event) (now : ℕ) : Shared :=
  let ids := match event.descriptor with
    | some descriptor => s.byDescriptor descriptor
    | none => List.range s.next
  { s with delivery := .going event now (held s ids) }

def isGone (event : Event) : Bool := event.descriptor.isSome && event.mask.directoryGone

/-- What an event means for a watch; `none` is a lost event. -/
def effectOn (event : Event) (watch : Watch) : Option Effect :=
  match event.descriptor, event.child with
  | none, _ => none
  | some _, some child => some (watch.target.effect child event.mask)
  | some _, none => some .nothing

def arrive (event : Event) (now : ℕ) (id : WatchId) (watch : Watch) : Shared :=
  if isGone event then endWatch s id .gone
  else setCell s id ((s.cells id).record watch.target (effectOn event watch) now)

/-- The entry of a directory that is gone is dropped last. -/
def finishDelivery (event : Event) : Shared :=
  match event.descriptor with
  | some descriptor =>
    if event.mask.directoryGone then
      { s with
        delivery := .resting
        byDescriptor := Function.update s.byDescriptor descriptor [] }
    else { s with delivery := .resting }
  | none => { s with delivery := .resting }

end Sections

def waited (id : WatchId) (before : Option End) : Option (Report × List Arrival) → Call
  | some (report, took) => .answered id before report took
  | none => .blocked id before

def advance (s : Shared) : Call → Action → Option (Call × Shared)
  | .idle, .start directory target revoked =>
    some (if revoked then (.idle, s) else match start s directory target with
      | some (id, s) => (.registering id, s)
      | none => (.idle, s))
  | .registering id, .register recorded =>
    some (.idle, if recorded then s else endWatch s id .revoked)
  | .idle, .next id => (s.watches id).map fun _ => (.checking id (s.cells id).state.ended, s)
  | .checking id before, .withdraw found => some (.entering id before, match found with
      | some why => endWatch s id why
      | none => s)
  | .entering id before, .turn requested now =>
    let (result, cell) := (s.cells id).enter requested now
    some (waited id before result, setCell s id cell)
  | .blocked id before, .turn requested now =>
    let (result, cell) := (s.cells id).turn requested now
    some (waited id before result, setCell s id cell)
  | .answered .., .proceed => some (.idle, s)
  | .idle, .cancel id => (s.watches id).map fun _ => (.ending id .canceled, s)
  | .idle, .release id => (s.watches id).map fun watch => (.ending id .canceled, release s id watch)
  | .ending id why, .proceed => some (.idle, endWatch s id why)
  | .idle, .sweep => some (.sweeping ((held s (List.range s.next)).map (·.1)), s)
  | .sweeping [], .proceed => some (.idle, s)
  | .sweeping (id :: todo), .withdraw found => some (.sweeping todo, match found with
      | some why => endWatch s id why
      | none => s)
  | _, _ => none

abbrev WatchState := ThreadState Shared Call

inductive WatchEvent where
  | task (t : ℕ) (action : Action)
  /-- The watcher thread reads an event, and takes it to one watch after the other. -/
  | read (now : ℕ)
  | arrive
  | happen (directory : Directory) (child : Text) (mask : Mask)
  | move (directory : Directory)
  | delete (directory : Directory)
  | overflow

def next (s : WatchState) : WatchEvent → Option WatchState
  | .task t action => step advance s (t, action)
  | .read now => match s.shared.delivery, s.shared.queue with
    | .resting, event :: queue => some { s with shared := takeEvent { s.shared with queue := queue } event now }
    | _, _ => none
  | .arrive => match s.shared.delivery with
    | .resting => none
    | .going event _ [] => some { s with shared := finishDelivery s.shared event }
    | .going event now ((id, watch) :: todo) =>
      some { s with shared :=
        { arrive s.shared event now id watch with delivery := .going event now todo } }
  | .happen directory child mask =>
    some { s with shared := pushEvent s.shared directory (some child) { mask with directoryGone := false } }
  | .move directory => some { s with shared := pushEvent s.shared directory none goneMask }
  | .delete directory => some { s with shared :=
      let s := pushEvent s.shared directory none goneMask
      { s with
        kernel := Function.update s.kernel directory none
        deleted := Function.update s.deleted directory true } }
  | .overflow => some { s with shared :=
      { s.shared with queue := s.shared.queue ++ [⟨none, none, ⟨false, false, false⟩⟩] } }

def started : WatchState where
  shared := {
    next := 1, watches := fun _ => none, byDescriptor := fun _ => [], cells := fun _ => .fresh
    delivery := .resting, kernel := fun _ => none, nextDescriptor := 1, queue := []
    deleted := fun _ => false }
  calls _ := .idle

def watchSystem : System WatchState WatchEvent where
  initial := started
  Step s e s' := next s e = some s'

end WatchCalls
