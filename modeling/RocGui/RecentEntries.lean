import RocGui.Grants

/-! The recent list: the places a person chose, remembered by the host. Each function is
one section under the store's lock. -/
namespace RecentEntries

open FiniteMaps Grants

def maxEntries : ℕ := 128

inductive EntryKind where
  | file | directory
  deriving DecidableEq, Repr

/-- Why an entry cannot be reopened, or a grant cannot be remembered. -/
inductive Unavailable where
  | accessDenied | forgotten | missing | replaced | revoked | unreadable | unsupported
  deriving DecidableEq, Repr

/-- What was at the place when it was remembered. -/
structure Identity where
  device : ℕ
  inode : ℕ
  deriving DecidableEq, Repr

structure Entry (P : Type) where
  key : ℕ
  kind : EntryKind
  path : P
  identity : Identity
  /-- How the grant first arrived, which a reopened grant keeps. -/
  origin : Origin
  deriving DecidableEq

structure Counters where
  remembered : ℕ
  reopened : ℕ
  refused : ℕ
  forgotten : ℕ
  deriving DecidableEq, Repr

structure Store (P : Type) where
  /-- Most recent first. -/
  entries : List (Entry P)
  nextKey : ℕ
  /-- The place each root granted this session came from. -/
  sources : FiniteMap GrantId (EntryKind × P)
  /-- Grants remembered or reopened this session, by the entry they belong to. -/
  held : FiniteMap GrantId ℕ
  counters : Counters

variable {P : Type} [DecidableEq P] (store : Store P)

/-- The list of a run that starts with `entries`. -/
def configure (entries : List (Entry P)) : Store P :=
  ⟨entries, (entries.map (·.key)).max?.getD 0 + 1, ∅, ∅, ⟨0, 0, 0, 0⟩⟩

def noteSource (id : GrantId) (kind : EntryKind) (path : P) : Store P :=
  { store with sources := store.sources.set id (kind, path) }

def releaseSource (id : GrantId) : Store P :=
  { store with sources := store.sources.remove id, held := store.held.remove id }

def countRemember (outcome : Except Unavailable Unit) : Store P :=
  if outcome.isOk then
    { store with counters.remembered := store.counters.remembered + 1 }
  else { store with counters.refused := store.counters.refused + 1 }

/-- The entry of a remembered place moves to the front, or is added there; the oldest
past the bound is forgotten. -/
def commitRemember (id : GrantId) (kind : EntryKind) (path : P) (identity : Identity)
    (origin : Origin) : Store P :=
  let key := (store.entries.find? (·.path = path)).elim store.nextKey (·.key)
  let known := store.entries.any (·.path = path)
  let entries := ⟨key, kind, path, identity, origin⟩ :: store.entries.eraseP (·.path = path)
  { store with
    nextKey := if known then store.nextKey else store.nextKey + 1
    entries := entries.take maxEntries
    counters.forgotten := store.counters.forgotten + (entries.length - maxEntries)
    held := store.held.set id key }

/-- The entry a reopening starts from, before the place is checked. -/
def findEntry (key : ℕ) (kind : EntryKind) : Except Unavailable (Entry P) :=
  match store.entries.find? (·.key = key) with
  | none => .error .forgotten
  | some entry => if entry.kind ≠ kind then .error .unsupported else .ok entry

def countRefused : Store P := { store with counters.refused := store.counters.refused + 1 }

/-- The reopened entry `key` is now held as grant `id`. -/
def reopened (key : ℕ) (id : GrantId) (kind : EntryKind) (path : P) : Store P :=
  { store with
    counters.reopened := store.counters.reopened + 1
    sources := store.sources.set id (kind, path)
    held := store.held.set id key }

def forget (key : ℕ) : Bool × Store P :=
  if (store.entries.filter (·.key ≠ key)).length = store.entries.length then (false, store)
  else (true, { store with
    entries := store.entries.filter (·.key ≠ key)
    counters.forgotten := store.counters.forgotten + 1
    held := store.held.retain fun _ held => held ≠ key })

def heldKeys (roots : List GrantId) : List ℕ := roots.filterMap store.held.get

section Entries

variable {store : Store P} {e : Entry P}

theorem mem_commitRemember {id : GrantId} {kind : EntryKind} {path : P} {identity : Identity}
    {origin : Origin} (h : e ∈ (commitRemember store id kind path identity origin).entries) :
    e.path = path ∨ e ∈ store.entries := by
  rcases List.mem_cons.mp (List.mem_of_mem_take h) with rfl | h
  · exact .inl rfl
  · exact .inr (List.mem_of_mem_eraseP h)

omit [DecidableEq P] in
theorem mem_forget {key : ℕ} (h : e ∈ (forget store key).2.entries) :
    e ∈ store.entries ∧ e.key ≠ key := by
  unfold forget at h
  split at h
  · rename_i hlength
    refine ⟨h, ?_⟩
    have hall := List.length_filter_eq_length_iff.mp hlength e h
    simpa using hall
  · simpa using List.mem_filter.mp h

omit [DecidableEq P] in
theorem held_forget {key k : ℕ} {id : GrantId} (h : store.held.get id = some k) (hne : k ≠ key) :
    (forget store key).2.held.get id = some k := by
  unfold forget
  split
  · exact h
  · exact FiniteMap.get_retain.mpr ⟨h, by simpa using hne⟩

variable (store) in
omit [DecidableEq P] in
theorem sources_forget (key : ℕ) : (forget store key).2.sources = store.sources := by
  unfold forget
  split <;> rfl

end Entries

end RecentEntries
