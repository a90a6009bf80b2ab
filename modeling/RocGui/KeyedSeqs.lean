import RocGui.KeyedLists
import RocGui.OrderTrees

/-! The persistent ordered collection keyed by digests. Keys name slots, slots name
values, and the order tree holds the slots in order. -/
namespace KeyedSeqs

open FiniteMaps Methods KeyedLists OrderTables OrderTrees

inductive Error (K : Type) where
  | duplicateKey (key : K)
  | missingAnchor (key : K)
  | missingKey (key : K)
  | slotExhausted
  deriving DecidableEq, Repr

structure Transition (K V : Type) where
  baseRevision : ℕ
  revision : ℕ
  edits : List (Edit K V)
  deriving DecidableEq

structure KeyedSeq (K V : Type) [DecidableEq K] where
  order : RowsOrder
  values : FiniteMap ℕ (K × V)
  keys : FiniteMap K ℕ
  nextSlot : ℕ
  lastVisits : ℕ
  revision : ℕ
  transition : Transition K V

abbrev Answer (K α : Type) := Except (Failure (Error K)) α

def overflowed {ε : Type} : Failure ε := .panic "integer addition overflowed"

variable {K V : Type} [DecidableEq K]

/-- Addition of `U64`, which crashes on overflow. -/
def plus (a b : ℕ) : Answer K ℕ := if a + b ≤ maxId then .ok (a + b) else .error overflowed

def crashing {α : Type} (message : String) : Answer K α → Answer K α
  | .error (.error _) => .error (.panic message)
  | answer => answer

namespace KeyedSeq

def empty : Answer K (KeyedSeq K V) := do
  let order ← orderEmpty
  pure ⟨order, ∅, ∅, 1, 0, 0, ⟨0, 0, []⟩⟩

/-- The last journal, only where it directly follows the base. -/
def transitionFrom (s : KeyedSeq K V) (base : ℕ) : Except (ℕ × ℕ) (Transition K V) :=
  if s.transition.baseRevision = base then .ok s.transition
  else .error (s.transition.baseRevision, base)

def record (s : KeyedSeq K V) (edits : List (Edit K V)) : Answer K (KeyedSeq K V) :=
  if s.revision = maxId then .error overflowed
  else .ok { s with
    revision := s.revision + 1
    transition := ⟨s.revision, s.revision + 1, edits⟩ }

def len (s : KeyedSeq K V) : Answer K ℕ := orderLen s.order

def slotOf (s : KeyedSeq K V) (key : K) : Answer K ℕ :=
  match s.keys.get key with
  | some slot => .ok slot
  | none => .error (.error (.missingKey key))

def get (s : KeyedSeq K V) (key : K) : Answer K V := do
  let slot ← s.slotOf key
  match s.values.get slot with
  | some entry => pure entry.2
  | none => .error (.error (.missingKey key))

def placementAfter (s : KeyedSeq K V) (key : K) : Answer K (Option K) := do
  let slot ← s.slotOf key
  let rank ← orCrash "Rows placement value lacked a rank" (← orderRank s.order slot)
  if (← orderLen s.order) ≤ rank + 1 then
    return none
  let location ← orderLocate s.order (rank + 1) false
  match ← getNode s.order "Rows placement leaf was missing" location.leaf with
  | .branch _ _ => .error (.panic "Rows placement location was not a leaf")
  | .leaf slots _ =>
    let next ← orCrash "Rows placement slot was missing" slots[location.offset]?
    let entry ← orCrash "Rows placement value was missing" (s.values.get next)
    return some entry.1

def toList (s : KeyedSeq K V) : Answer K (List (K × V)) :=
  orderFold s.order [] fun items slot => do
    let entry ← orCrash "KeyedSeq order named a missing value" (s.values.get slot)
    pure (items ++ [entry])

/-- Where an insertion goes: the rank of its anchor, or the end. -/
def placementIndex (s : KeyedSeq K V) (order : RowsOrder) (message : String) :
    Option K → Answer K ℕ
  | none => orderLen order
  | some anchor =>
    match s.keys.get anchor with
    | none => .error (.error (.missingAnchor anchor))
    | some slot => do orCrash message (← orderRank order slot)

/-- The nodes visited to rank an anchor, and those visited to insert in front of it. -/
def placementVisits (order : RowsOrder) (index : ℕ) (before : Option K) : Answer K ℕ := do
  let rankVisits ← match before with
    | none => pure 0
    | some _ => pathVisits order index false
  plus rankVisits (← pathVisits order index true)

def insertBeforeRaw (s : KeyedSeq K V) (key : K) (value : V) (before : Option K) :
    Answer K (KeyedSeq K V) :=
  if (s.keys.get key).isSome then .error (.error (.duplicateKey key))
  else if s.nextSlot = maxId then .error (.error .slotExhausted)
  else do
    let index ← s.placementIndex s.order "KeyedSeq anchor lacked an order rank" before
    let visits ← placementVisits s.order index before
    let order ← orderInsert s.order index s.nextSlot
    pure { s with
      order
      values := s.values.set s.nextSlot (key, value)
      keys := s.keys.set key s.nextSlot
      nextSlot := s.nextSlot + 1
      lastVisits := visits }

def removeRaw (s : KeyedSeq K V) (key : K) : Answer K (KeyedSeq K V) := do
  let slot ← s.slotOf key
  let rank ← orCrash "KeyedSeq value lacked an order rank" (← orderRank s.order slot)
  let pathLength ← pathVisits s.order rank false
  let visits ← plus pathLength pathLength
  let (order, _) ← orderRemove s.order rank
  pure { s with
    order
    values := s.values.remove slot
    keys := s.keys.remove key
    lastVisits := visits }

def setRaw (s : KeyedSeq K V) (key : K) (value : V) : Answer K (KeyedSeq K V) := do
  let slot ← s.slotOf key
  pure { s with values := s.values.set slot (key, value), lastVisits := 0 }

/-- A new value for an item boundary that is mounted, without a journal. -/
def setLocal (s : KeyedSeq K V) (key : K) (value : V) : Answer K (KeyedSeq K V) := s.setRaw key value

def moveBeforeRaw (s : KeyedSeq K V) (key : K) (before : Option K) :
    Answer K (KeyedSeq K V) := do
  let slot ← s.slotOf key
  if before = some key then
    return s
  let oldRank ← orCrash "KeyedSeq move lacked a source rank" (← orderRank s.order slot)
  let pathLength ← pathVisits s.order oldRank false
  let removeVisits ← plus pathLength pathLength
  let (without, _) ← orderRemove s.order oldRank
  let newRank ← s.placementIndex without "KeyedSeq move anchor lacked a rank" before
  let visits ← placementVisits without newRank before
  let lastVisits ← plus removeVisits visits
  let order ← orderInsert without newRank slot
  pure { s with order, lastVisits }

def applyRaw (s : KeyedSeq K V) : Edit K V → Answer K (KeyedSeq K V)
  | .insertBefore key value before => s.insertBeforeRaw key value before
  | .moveBefore key before => s.moveBeforeRaw key before
  | .remove key => s.removeRaw key
  | .set key value => s.setRaw key value

def insertBefore (s : KeyedSeq K V) (key : K) (value : V) (before : Option K) :
    Answer K (KeyedSeq K V) := do
  (← s.insertBeforeRaw key value before).record [.insertBefore key value before]

def remove (s : KeyedSeq K V) (key : K) : Answer K (KeyedSeq K V) := do
  (← s.removeRaw key).record [.remove key]

def set (s : KeyedSeq K V) (key : K) (value : V) : Answer K (KeyedSeq K V) := do
  (← s.setRaw key value).record [.set key value]

def moveBefore (s : KeyedSeq K V) (key : K) (before : Option K) : Answer K (KeyedSeq K V) := do
  (← s.moveBeforeRaw key before).record [.moveBefore key before]

def apply (s : KeyedSeq K V) (edit : Edit K V) : Answer K (KeyedSeq K V) := do
  (← s.applyRaw edit).record [edit]

def applyEach (s : KeyedSeq K V) : List (Edit K V) → ℕ → Answer K (KeyedSeq K V)
  | [], visits => .ok { s with lastVisits := visits }
  | edit :: edits, visits => do
    let s ← s.applyRaw edit
    s.applyEach edits (← plus visits s.lastVisits)

def applyAll (s : KeyedSeq K V) (edits : List (Edit K V)) : Answer K (KeyedSeq K V) := do
  (← s.applyEach edits 0).record edits

def fromList (entries : List (K × V)) : Answer K (KeyedSeq K V) := do
  let edits := entries.map fun entry => Edit.insertBefore entry.1 entry.2 none
  (← (← empty).applyEach edits 0).record edits

def frontEdit (s : KeyedSeq K V) (target : K × V) (current : List (K × V)) : Edit K V :=
  match s.get target.1 with
  | .error _ => .insertBefore target.1 target.2 (current.head?.map Prod.fst)
  | .ok _ =>
    if current.head?.map Prod.fst = some target.1 then .set target.1 target.2
    else .moveBefore target.1 (current.head?.map Prod.fst)

variable [DecidableEq V]

/-- The working copy loses each wanted entry from its front once it is there. -/
def diffEntries (working : KeyedSeq K V) : List (K × V) → List (Edit K V) → Answer K (List (Edit K V))
  | [], edits => do return edits ++ (← working.toList).map fun entry => .remove entry.1
  | target :: rest, edits => do
    let current ← working.toList
    let edit := working.frontEdit target current
    let ordered ← crashing "KeyedSeq diff emitted an invalid order edit" (working.applyRaw edit)
    let (sequence, journal) ←
      if ordered.get target.1 = .ok target.2 then pure (ordered, edits ++ [edit])
      else do
        let set ← crashing "KeyedSeq diff set failed" (ordered.setRaw target.1 target.2)
        pure (set, edits ++ [edit] ++ [.set target.1 target.2])
    let slot ← orCrash "KeyedSeq diff front missing" (sequence.keys.get target.1)
    let (order, _) ← orderRemove sequence.order 0
    diffEntries { sequence with
      order
      values := sequence.values.remove slot
      keys := sequence.keys.remove target.1 } rest journal

def diff (before after : KeyedSeq K V) : Answer K (List (Edit K V)) := do
  before.diffEntries (← after.toList) []

end KeyedSeq

end KeyedSeqs
