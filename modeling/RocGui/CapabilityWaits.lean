import RocGui.StoppedWaits
import RocGui.Watches

/-! The waits that a stop of their task interrupts: of timers, of watches and of the system's
appearance. Each is written on its own, over one protocol. -/
namespace CapabilityWaits

open Transitions TaskStops StoppedWaits

section Timers

structure TimerState where
  canceled : Bool
  waiting : Bool
  next : ℕ
  interval : ℕ

inductive TimerChange where
  /-- Canceled, or released. -/
  | cancel

/-- One wait at a time. -/
def timerEnter (s : TimerState) : Except Bool TimerState :=
  if s.canceled || s.waiting then .error false else .ok { s with waiting := true }

def timerPoll (requested : Bool) (now : ℕ) (s : TimerState) : Option (Unit × TimerState) :=
  if !s.canceled && !requested then
    if s.next ≤ now then some ((), s) else none
  else some ((), s)

/-- Whether its task has ended is looked at again: the timer then runs on for the next wait. -/
def timerLeave (requested : Bool) (now : ℕ) (s : TimerState) : Bool × TimerState :=
  let s := { s with waiting := false }
  if s.canceled then (false, s)
  else if requested then (false, s)
  else (true, { s with next := now + s.interval })

def timerMonitor : Monitor TimerState Unit Unit Bool TimerChange where
  enter _ := timerEnter
  poll _ := timerPoll
  leave _ _ := timerLeave
  change | .cancel => fun s => ({ s with canceled := true }, true)
  heeds _ now s := by
    rw [timerPoll, Bool.not_true, Bool.and_false, if_neg Bool.false_ne_true]
    rfl

end Timers

section Watches

open Watches

inductive WatchChange where
  | finish (why : End)
  | record (target : Target) (effect : Option Effect) (now : ℕ)

def watchMonitor : Monitor State Unit Report Report WatchChange where
  enter _ := enter
  poll _ requested now s := poll s requested now
  leave _ report _ _ s := (report, leave s)
  change
    | .finish why => fun s => ((finish s why).2, (finish s why).1)
    | .record target effect now => fun s => record s target effect now
  heeds _ now s := by
    rw [poll]
    cases s.ended with
    | some why => rfl
    | none => rfl

end Watches

section Appearance

structure Settings where
  dark : Bool
  reducedMotion : Bool
  deriving DecidableEq, Repr

inductive Preference where
  | system | light | dark
  deriving DecidableEq, Repr

structure AppearanceState where
  system : Settings
  preference : Preference

inductive AppearanceChange where
  | configure (provisioned : Option Settings)
  | setSystem (settings : Settings)
  | prefer (preference : Preference)

/-- Only a new system appearance notifies. -/
def appearanceChange (s : AppearanceState) : AppearanceChange → AppearanceState × Bool
  | .configure provisioned => (⟨provisioned.getD ⟨false, false⟩, .system⟩, false)
  | .setSystem settings =>
    if s.system = settings then (s, false) else ({ s with system := settings }, true)
  | .prefer preference => ({ s with preference := preference }, false)

def nextChangePoll (known : Settings) (requested : Bool) (s : AppearanceState) :
    Option (Unit × AppearanceState) :=
  if s.system = known && !requested then none else some ((), s)

def appearanceMonitor : Monitor AppearanceState Settings Unit Settings AppearanceChange where
  enter _ s := .ok s
  poll known requested _ s := nextChangePoll known requested s
  leave _ _ _ _ s := (s.system, s)
  change e s := appearanceChange s e
  heeds known now s := by
    rw [nextChangePoll, Bool.not_true, Bool.and_false, if_neg Bool.false_ne_true]
    rfl

end Appearance

section Resources

inductive Resource where
  | timer (id : ℕ)
  | watch (id : ℕ)
  | appearance
  deriving DecidableEq

def Held : Resource → Type
  | .timer _ => TimerState
  | .watch _ => Watches.State
  | .appearance => AppearanceState

def Query : Resource → Type
  | .timer _ | .watch _ => Unit
  | .appearance => Settings

def Found : Resource → Type
  | .timer _ | .appearance => Unit
  | .watch _ => Watches.Report

def Answer : Resource → Type
  | .timer _ => Bool
  | .watch _ => Watches.Report
  | .appearance => Settings

def Change : Resource → Type
  | .timer _ => TimerChange
  | .watch _ => WatchChange
  | .appearance => AppearanceChange

def waits : (r : Resource) → Monitor (Held r) (Query r) (Found r) (Answer r) (Change r)
  | .timer _ => timerMonitor
  | .watch _ => watchMonitor
  | .appearance => appearanceMonitor

def fresh : (r : Resource) → Held r
  | .timer _ => ⟨false, false, 10, 10⟩
  | .watch _ => Watches.State.fresh
  | .appearance => ⟨⟨false, false⟩, .system⟩

def stoppedTimer : List (WaitEvent Query Change) :=
  [.begin 0, .wait 0 (.timer 0) ()] ++ List.replicate 5 (.proceed 0 0) ++ [.stop 0 0 .cancelled]

end Resources

end CapabilityWaits
