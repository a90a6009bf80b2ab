import RocGui.TextFormats
import Mathlib.Data.Finset.Card

/-! A watch of a directory's children: the set of names that changed since the last wait
returned, what one delivery adds to it, and what a wait takes from it. -/
namespace Watches

open TextFormats

def maxWatches : ℕ := 64
def maxNames : ℕ := 256

/-- Instants and durations in nanoseconds. -/
def settle : ℕ := 10000000
def settleLimit : ℕ := 100000000

inductive Target where
  | directory
  | database (name : Text)
  deriving DecidableEq

/-- What the tests of an event's mask answer. -/
structure Mask where
  nameChanged : Bool
  written : Bool
  directoryGone : Bool
  deriving DecidableEq

inductive Effect where
  | nothing
  /-- A name changed, and may now refer to another file. -/
  | named (name : Text) (rebound : Bool)
  deriving DecidableEq

/-- Only a write to the log is a commit: a reader creates the log beside the database. -/
def Target.effect (target : Target) (child : Text) (mask : Mask) : Effect :=
  let rebound := mask.nameChanged
  let written := mask.written
  match target with
  | .directory => if rebound || written then .named child rebound else .nothing
  | .database name =>
    if child = name && (rebound || written) then .named name rebound
    else if written && child = name ++ "-wal".toList then .named name false
    else .nothing

inductive End where
  | canceled | revoked | gone
  deriving DecidableEq, Repr

structure State where
  names : Finset Text
  rebound : Bool
  overflowed : Bool
  first : Option ℕ
  last : Option ℕ
  waiting : Bool
  ended : Option End

def State.fresh : State := ⟨∅, false, false, none, none, false, none⟩

def State.pending (s : State) : Bool := !decide (s.names = ∅) || s.overflowed

/-- What the codes of a report are decoded to. -/
def changed : UInt8 := 0
def canceled : UInt8 := 2
def revoked : UInt8 := 3
def gone : UInt8 := 4

def code : End → UInt8
  | .canceled => canceled
  | .revoked => revoked
  | .gone => gone

/-- The names are listed in order. -/
structure Report where
  code : UInt8
  names : Finset Text
  replaced : Bool
  overflowed : Bool
  deriving DecidableEq

def Report.ended (code : UInt8) : Report := ⟨code, ∅, false, false⟩

section Sections

variable (s : State)

/-- The first end is the one reported. Answers whether this is it. -/
def finish (why : End) : Bool × State :=
  match s.ended with
  | some _ => (false, s)
  | none => (true, { s with ended := some why })

/-- A name past the bound is not held, but that there was one is. -/
def addName (name : Text) (rebound : Bool) : State :=
  let s := { s with rebound := s.rebound || rebound }
  if s.names.card < maxNames ∨ name ∈ s.names then { s with names := insert name s.names }
  else { s with overflowed := true }

/-- A lost event may have rebound the name of a database. -/
def lose (target : Target) : State :=
  { s with
    overflowed := true
    rebound := s.rebound || target ≠ .directory }

def stamp (now : ℕ) : State :=
  { s with first := some (s.first.getD now), last := some now }

/-- What one event adds to a watch, and whether it wakes the wait; `none` is a lost event. -/
def record (target : Target) (effect : Option Effect) (now : ℕ) : State × Bool :=
  match s.ended with
  | some _ => (s, false)
  | none => match effect with
    | some .nothing => (s, false)
    | none => (stamp (lose s target) now, true)
    | some (.named name rebound) => (stamp (addName s name rebound) now, true)

/-- The first look of a wait. A second wait leaves the first as it is. -/
def enter : Except Report State :=
  match s.ended with
  | some why => .error (.ended (code why))
  | none => if s.waiting then .error (.ended canceled) else .ok { s with waiting := true }

def settled (now : ℕ) : Bool :=
  s.last.any (fun last => decide (last + settle ≤ now)) ||
    s.first.any fun first => decide (first + settleLimit ≤ now)

def gathered : Report := ⟨changed, s.names, s.rebound, s.overflowed⟩

def drained : State :=
  { s with names := ∅, rebound := false, overflowed := false, first := none, last := none }

/-- One turn of the wait's loop; `none` blocks. -/
def poll (requested : Bool) (now : ℕ) : Option (Report × State) :=
  match s.ended with
  | some why => some (.ended (code why), s)
  | none =>
    if requested then some (.ended canceled, s)
    else if s.pending && settled s now then some (gathered s, drained s)
    else none

def leave : State := { s with waiting := false }

end Sections

end Watches
