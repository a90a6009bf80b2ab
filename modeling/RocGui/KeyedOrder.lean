import RocGui.FiniteMaps
import RocGui.KeyedLists
import RocGui.LinkedOrders
import RocGui.Methods

/-! The linked order of a keyed container's children and the journal that edits it
in place. Keys are only ever compared, so their type stays open. -/
namespace KeyedOrder

open FiniteMaps KeyedLists LinkedOrders Methods

structure KeyedChild (K : Type) where
  root : ℕ
  instanceId : ℕ
  previous : Option K
  next : Option K
  deriving DecidableEq, Repr

structure KeyedChildOrder (K : Type) where
  revision : ℕ
  head : Option K
  tail : Option K
  children : FiniteMap K (KeyedChild K)

inductive KeyedOrderError (K : Type) where
  | duplicate (key : K)
  | missing (key : K)
  | staleRevision (actual expected : ℕ)
  | staleNewRevision (current proposed : ℕ)
  deriving DecidableEq, Repr

structure KeyedOrderJournal (K : Type) where
  order : KeyedChildOrder K
  originalHead : Option K
  originalTail : Option K
  originalRevision : ℕ
  originals : FiniteMap K (Option (KeyedChild K))
  originalReads : ℕ
  firstTouches : ℕ

abbrev JournalMethod (K α : Type) := Method (KeyedOrderJournal K) (KeyedOrderError K) α

variable {K : Type} [DecidableEq K]

instance : DecidableEq (KeyedChildOrder K)
  | ⟨r, h, t, c⟩, ⟨r', h', t', c'⟩ =>
    decidable_of_iff (r = r' ∧ h = h' ∧ t = t' ∧ c = c') (by simp)

/-- `KeyedChildOrder::default`. -/
def KeyedChildOrder.empty : KeyedChildOrder K := ⟨0, none, none, ∅⟩

def KeyedChildOrder.withChild (order : KeyedChildOrder K) (key : K) (child : KeyedChild K) :
    KeyedChildOrder K := { order with children := order.children.set key child }

/-- The loop of `from_seed`: `previous` is the key before the entries still to come. -/
def seedChildren (children : FiniteMap K (KeyedChild K)) (previous : Option K) :
    List (K × ℕ × ℕ) → Except (KeyedOrderError K) (FiniteMap K (KeyedChild K))
  | [] => .ok children
  | (key, root, instanceId) :: rest =>
    if (children.get key).isSome then .error (.duplicate key)
    else seedChildren
      (children.set key ⟨root, instanceId, previous, (rest.map Prod.fst).head?⟩) (some key) rest

def fromSeed (revision : ℕ) (entries : List (K × ℕ × ℕ)) :
    Except (KeyedOrderError K) (KeyedChildOrder K) := do
  let children ← seedChildren ∅ none entries
  return ⟨revision, (entries.map Prod.fst).head?, (entries.map Prod.fst).getLast?, children⟩

def checkRevision (order : KeyedChildOrder K) (expected : ℕ) : Except (KeyedOrderError K) Unit :=
  if expected = order.revision then .ok () else .error (.staleRevision order.revision expected)

section Iteration

structure KeyedChildIter (K : Type) where
  order : KeyedChildOrder K
  front : Option K
  back : Option K
  remaining : ℕ

def KeyedChildOrder.iter (order : KeyedChildOrder K) : KeyedChildIter K :=
  ⟨order, order.head, order.tail, order.children.size⟩

def KeyedChildIter.next : Method (KeyedChildIter K) Empty (Option (K × KeyedChild K)) := do
  let it ← get
  if it.remaining = 0 then return none
  let key ← expect "non-empty keyed order has a head" it.front
  let child ← expect "linked child" (it.order.children.get key)
  set { it with front := child.next, remaining := it.remaining - 1 }
  return some (key, child)

def KeyedChildIter.nextBack : Method (KeyedChildIter K) Empty (Option (K × KeyedChild K)) := do
  let it ← get
  if it.remaining = 0 then return none
  let key ← expect "non-empty keyed order has a tail" it.back
  let child ← expect "linked child" (it.order.children.get key)
  set { it with back := child.previous, remaining := it.remaining - 1 }
  return some (key, child)

/-- Calls `step` until the iterator is used up. -/
def collect {σ β : Type} (step : Method σ Empty (Option β)) : ℕ → Method σ Empty (List β)
  | 0 => pure []
  | n + 1 => do
    match ← step with
    | none => return []
    | some b => return b :: (← collect step n)

def forward (order : KeyedChildOrder K) : Except (Failure Empty) (List (K × KeyedChild K)) :=
  answer ((collect KeyedChildIter.next (order.iter.remaining + 1)).run order.iter)

def backward (order : KeyedChildOrder K) : Except (Failure Empty) (List (K × KeyedChild K)) :=
  answer ((collect KeyedChildIter.nextBack (order.iter.remaining + 1)).run order.iter)

end Iteration

namespace KeyedOrderJournal

def new (order : KeyedChildOrder K) : KeyedOrderJournal K :=
  ⟨order, order.head, order.tail, order.revision, ∅, 0, 0⟩

def touched (key : K) (j : KeyedOrderJournal K) : KeyedOrderJournal K :=
  if (j.originals.get key).isSome then j
  else { j with
    originals := j.originals.set key (j.order.children.get key)
    originalReads := j.originalReads + 1
    firstTouches := j.firstTouches + 1 }

def touch (key : K) : JournalMethod K Unit := modify (touched key)

def child (key : K) : JournalMethod K (KeyedChild K) := do
  match (← get).order.children.get key with
  | some child => return child
  | none => refuse (.missing key)

def putChild (key : K) (child : KeyedChild K) : JournalMethod K Unit := 
  modify fun j => { j with order := j.order.withChild key child }

/-- `children.get_mut(&key).expect(message)`, written through. -/
def rewrite (key : K) (message : String) (f : KeyedChild K → KeyedChild K) :
    JournalMethod K Unit := do
  putChild key (f (← expect message ((← get).order.children.get key)))

/-- The cell before a gap is told what now follows it. -/
def linkNext (at_ : Option K) (message : String) (target : Option K) : JournalMethod K Unit :=
  match at_ with
  | some key => do
    touch key
    rewrite key message fun c => { c with next := target }
  | none => modify fun j => { j with order := { j.order with head := target } }

def linkPrevious (at_ : Option K) (message : String) (target : Option K) : JournalMethod K Unit :=
  match at_ with
  | some key => do
    touch key
    rewrite key message fun c => { c with previous := target }
  | none => modify fun j => { j with order := { j.order with tail := target } }

/-- The half of `remove` and `move_before` that closes the gap around a child. -/
def unlink (child : KeyedChild K) : JournalMethod K Unit := do
  linkNext child.previous "predecessor" child.next
  linkPrevious child.next "successor" child.previous

def insert (key : K) (root instanceId : ℕ) (before : Option K) : JournalMethod K Unit := do
  if ((← get).order.children.get key).isSome then refuse (.duplicate key)
  let next ← before.mapM child
  let tail := (← get).order.tail
  let previous := next.elim tail KeyedChild.previous
  touch key
  putChild key ⟨root, instanceId, previous, before⟩
  linkNext previous "predecessor" (some key)
  linkPrevious before "anchor" (some key)

def remove (key : K) : JournalMethod K Unit := do
  unlink (← child key)
  touch key
  modify fun j => { j with order := { j.order with children := j.order.children.remove key } }

/-- The half of `move_before` that puts an unlinked child in front of its anchor. -/
def relink (key : K) (before : Option K) : JournalMethod K Unit := do
  let order := (← get).order
  let previous := (before.bind fun anchor => (order.children.get anchor).bind (·.previous)).or
    (if before.isNone then order.tail else none)
  linkNext previous "move predecessor" (some key)
  linkPrevious before "anchor" (some key)
  touch key
  rewrite key "move key" fun c => { c with previous, next := before }

def moveBefore (key : K) (before : Option K) : JournalMethod K Unit := do
  let moved ← child key
  if before = some key ∨ moved.next = before then return ()
  let _ ← before.mapM child
  unlink moved
  relink key before

def replace (key : K) (root : ℕ) : JournalMethod K Unit := do
  let _ ← child key
  touch key
  rewrite key "replace key" fun c => { c with root }

/-- Puts one original back, as each turn of the loop in `rollback` does. -/
def restore (children : FiniteMap K (KeyedChild K)) (entry : K × Option (KeyedChild K)) :
    FiniteMap K (KeyedChild K) :=
  match entry.2 with
  | some child => children.set entry.1 child
  | none => children.remove entry.1

def rollback (hashOrder : Enumeration K (Option (KeyedChild K))) (j : KeyedOrderJournal K) :
    KeyedChildOrder K :=
  ⟨j.originalRevision, j.originalHead, j.originalTail,
    (hashOrder.entries j.originals).foldl restore j.order.children⟩

end KeyedOrderJournal

inductive KeyedOrderOperation (K : Type) where
  | insert (key : K) (root instanceId : ℕ) (before : Option K)
  | remove (key : K)
  | move (key : K) (before : Option K)
  | replace (key : K) (root : ℕ)
  deriving DecidableEq, Repr

def perform : KeyedOrderOperation K → JournalMethod K Unit
  | .insert key root instanceId before => KeyedOrderJournal.insert key root instanceId before
  | .remove key => KeyedOrderJournal.remove key
  | .move key before => KeyedOrderJournal.moveBefore key before
  | .replace key root => KeyedOrderJournal.replace key root

/-- Tries every operation on one journal and lists which were accepted. -/
def attempts (j : KeyedOrderJournal K) :
    List (KeyedOrderOperation K) →
      Except (Failure (KeyedOrderError K)) (List Bool × KeyedOrderJournal K)
  | [] => .ok ([], j)
  | op :: ops =>
    match (perform op).run j with
    | .ok _ j => (attempts j ops).map fun (accepted, j) => (true :: accepted, j)
    | .error (.error _) j => (attempts j ops).map fun (accepted, j) => (false :: accepted, j)
    | .error failure _ => .error failure

end KeyedOrder
