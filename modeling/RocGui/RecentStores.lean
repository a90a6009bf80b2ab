import RocGui.RecentFormats

/-! The recent list as the host keeps it: keys of 64 bits, paths of bytes, and the list a run
begins with. Each function is one section under the store's lock. -/
namespace RecentStores

open FiniteMaps Grants TextFormats RecentFormats
open RecentEntries (EntryKind Unavailable Counters maxEntries)

structure Store where
  /-- Most recent first. -/
  entries : List Entry
  nextKey : UInt64
  /-- Where the list persists between runs. -/
  backing : Option Path
  sources : FiniteMap GrantId (EntryKind × Path)
  held : FiniteMap GrantId UInt64
  counters : Counters
  /-- The list a run without `backing` began with. -/
  initial : List Entry

section Configuring

inductive FileType where
  | file | directory | other
  deriving DecidableEq, Repr

/-- What the file system answers while the list is configured. -/
structure Files where
  read : Path → Option Text
  canonicalize : Path → Except String Path
  metadata : Path → Except String (FileType × Identity)

/-- "cannot remember {seed}: {reason}". -/
structure CannotRemember where
  seed : Path
  reason : String

/-- A store that cannot be read is an empty list. -/
def load (files : Files) (path : Path) : List Entry := (files.read path).elim [] decode

def seedKind : FileType → Option EntryKind
  | .directory => some .directory
  | .file => some .file
  | .other => none

def findSeed (files : Files) (seed : Path) : Except CannotRemember (Path × EntryKind × Identity) :=
  match files.canonicalize seed with
  | .error reason => .error ⟨seed, reason⟩
  | .ok path => match files.metadata path with
    | .error reason => .error ⟨seed, reason⟩
    | .ok (type, identity) => match seedKind type with
      | none => .error ⟨seed, "not a file or folder"⟩
      | some kind => .ok (path, kind, identity)

/-- `index` counts the seeds before these, with those that name a place again. -/
def readSeeds (files : Files) (index : ℕ) (entries : List Entry) :
    List Path → Except CannotRemember (List Entry)
  | [] => .ok entries
  | seed :: seeds => match findSeed files seed with
    | .error refusal => .error refusal
    | .ok (path, kind, identity) =>
      if entries.any fun entry => SamePath entry.path path then
        readSeeds files (index + 1) entries seeds
      else readSeeds files (index + 1)
        (entries ++ [⟨UInt64.ofNat index + 1, kind, path, identity, .provisioned⟩]) seeds

def largestKey (entries : List Entry) : UInt64 := entries.foldl (fun key entry => max key entry.key) 0

/-- The addition wraps in a release build. -/
def keyAfter (entries : List Entry) : UInt64 := largestKey entries + 1

def configured (entries : List Entry) (backing : Option Path) : Store where
  entries := entries
  nextKey := keyAfter entries
  backing := backing
  sources := ∅
  held := ∅
  counters := ⟨0, 0, 0, 0⟩
  initial := if backing.isNone then entries else []

def configure (files : Files) (backing : Option Path) (seeds : List Path) :
    Except CannotRemember Store :=
  if seeds.isEmpty then
    .ok (configured (backing.elim [] (load files)) backing)
  else match readSeeds files 0 [] seeds with
    | .error refusal => .error refusal
    | .ok entries => .ok (configured (entries.take maxEntries) none)

end Configuring

section Sections

variable (store : Store)

def beginLifecycle : Store :=
  if store.backing.isNone then
    { store with
      entries := store.initial
      nextKey := max store.nextKey (keyAfter store.initial)
      held := ∅ }
  else store

def noteSource (id : GrantId) (kind : EntryKind) (path : Path) : Store :=
  { store with sources := store.sources.set id (kind, path) }

def releaseSource (id : GrantId) : Store :=
  { store with sources := store.sources.remove id, held := store.held.remove id }

def countRemember (outcome : Except Unavailable Unit) : Store :=
  if outcome.isOk then
    { store with counters.remembered := store.counters.remembered + 1 }
  else { store with counters.refused := store.counters.refused + 1 }

/-- What a change writes to the store, outside the lock. -/
abbrev Change := Path × List Entry

/-- The entry that a remembered place has from then on, and the others. -/
def place (kind : EntryKind) (path : Path) (identity : Identity) (origin : Origin) :
    Entry × List Entry × UInt64 :=
  match store.entries.find? fun entry => SamePath entry.path path with
  | some entry => ({ entry with identity := identity, kind := kind, origin := origin },
      store.entries.eraseP fun entry => SamePath entry.path path, store.nextKey)
  | none => (⟨store.nextKey, kind, path, identity, origin⟩, store.entries, store.nextKey + 1)

def commitRemember (id : GrantId) (kind : EntryKind) (path : Path) (identity : Identity)
    (origin : Origin) : Option Change × Store :=
  let (entry, others, nextKey) := place store kind path identity origin
  let entries := (entry :: others).take maxEntries
  (store.backing.map fun backing => (backing, entries), { store with
    entries := entries
    nextKey := nextKey
    counters.forgotten := store.counters.forgotten + ((entry :: others).length - maxEntries)
    held := store.held.set id entry.key })

def findEntry (key : UInt64) (kind : EntryKind) : Except Unavailable Entry :=
  match store.entries.find? (·.key = key) with
  | none => .error .forgotten
  | some entry => if entry.kind ≠ kind then .error .unsupported else .ok entry

def countRefused : Store := { store with counters.refused := store.counters.refused + 1 }

def reopened (key : UInt64) (id : GrantId) (kind : EntryKind) (path : Path) : Store :=
  { store with
    counters.reopened := store.counters.reopened + 1
    sources := store.sources.set id (kind, path)
    held := store.held.set id key }

/-- `false` when no entry has the key. -/
def forget (key : UInt64) : (Bool × Option Change) × Store :=
  let entries := store.entries.filter (·.key ≠ key)
  if entries.length = store.entries.length then ((false, none), store)
  else ((true, store.backing.map fun backing => (backing, entries)), { store with
    entries := entries
    counters.forgotten := store.counters.forgotten + 1
    held := store.held.retain fun _ held => held ≠ key })

def heldKeys (roots : List GrantId) : List UInt64 := roots.filterMap store.held.get

end Sections

section Views

/-- A place is what the components of a path say. -/
abbrev Place := Bool × List Bytes

def viewIdentity (identity : Identity) : RecentEntries.Identity :=
  ⟨identity.device.toNat, identity.inode.toNat⟩

def viewEntry (entry : Entry) : RecentEntries.Entry Place :=
  ⟨entry.key.toNat, entry.kind, components entry.path, viewIdentity entry.identity, entry.origin⟩

structure Views (store : Store) (recent : RecentEntries.Store Place) : Prop where
  entries : recent.entries = store.entries.map viewEntry
  nextKey : recent.nextKey = store.nextKey.toNat
  sources : ∀ id, recent.sources.get id =
    (store.sources.get id).map fun source => (source.1, components source.2)
  held : ∀ id, recent.held.get id = (store.held.get id).map UInt64.toNat
  counters : recent.counters = store.counters

variable {store : Store} {recent : RecentEntries.Store Place}

theorem views_noteSource (h : Views store recent) (id : GrantId) (kind : EntryKind) (path : Path) :
    Views (noteSource store id kind path)
      (RecentEntries.noteSource recent id kind (components path)) where
  entries := h.entries
  nextKey := h.nextKey
  sources x := by
    simp only [noteSource, RecentEntries.noteSource, FiniteMap.get_set]
    split
    · rfl
    · exact h.sources x
  held := h.held
  counters := h.counters

theorem views_releaseSource (h : Views store recent) (id : GrantId) :
    Views (releaseSource store id) (RecentEntries.releaseSource recent id) where
  entries := h.entries
  nextKey := h.nextKey
  sources x := by
    simp only [releaseSource, RecentEntries.releaseSource, FiniteMap.get_remove]
    split
    · rfl
    · exact h.sources x
  held x := by
    simp only [releaseSource, RecentEntries.releaseSource, FiniteMap.get_remove]
    split
    · rfl
    · exact h.held x
  counters := h.counters

theorem views_countRemember (h : Views store recent) (outcome : Except Unavailable Unit) :
    Views (countRemember store outcome) (RecentEntries.countRemember recent outcome) := by
  unfold countRemember RecentEntries.countRemember
  split
  · exact ⟨h.entries, h.nextKey, h.sources, h.held, by rw [h.counters]⟩
  · exact ⟨h.entries, h.nextKey, h.sources, h.held, by rw [h.counters]⟩

theorem views_countRefused (h : Views store recent) :
    Views (countRefused store) (RecentEntries.countRefused recent) :=
  ⟨h.entries, h.nextKey, h.sources, h.held, by rw [countRefused, RecentEntries.countRefused, h.counters]⟩

theorem views_reopened (h : Views store recent) (key : UInt64) (id : GrantId) (kind : EntryKind)
    (path : Path) : Views (reopened store key id kind path)
      (RecentEntries.reopened recent key.toNat id kind (components path)) where
  entries := h.entries
  nextKey := h.nextKey
  sources := (views_noteSource h id kind path).sources
  held x := by
    simp only [reopened, RecentEntries.reopened, FiniteMap.get_set]
    split
    · rfl
    · exact h.held x
  counters := by rw [reopened, RecentEntries.reopened, h.counters]

theorem viewEntry_key (key : UInt64) (entry : Entry) :
    decide ((viewEntry entry).key = key.toNat) = decide (entry.key = key) := by
  simp [viewEntry, UInt64.toNat_inj]

theorem viewEntry_path (path : Path) (entry : Entry) :
    decide ((viewEntry entry).path = components path) = decide (SamePath entry.path path) := rfl

theorem views_findEntry (h : Views store recent) (key : UInt64) (kind : EntryKind) :
    RecentEntries.findEntry recent key.toNat kind = (findEntry store key kind).map viewEntry := by
  have hfind : recent.entries.find? (·.key = key.toNat) =
      (store.entries.find? (·.key = key)).map viewEntry := by
    rw [h.entries, List.find?_map]
    congr 2
    funext entry
    exact viewEntry_key key entry
  rw [RecentEntries.findEntry, findEntry, hfind]
  cases store.entries.find? (·.key = key) with
  | none => rfl
  | some entry =>
    by_cases hkind : entry.kind = kind
    · simp [viewEntry, hkind, Except.map]
    · simp [viewEntry, hkind, Except.map]

theorem views_forget (h : Views store recent) (key : UInt64) :
    (RecentEntries.forget recent key.toNat).1 = (forget store key).1.1 ∧
      Views (forget store key).2 (RecentEntries.forget recent key.toNat).2 := by
  have hfilter : recent.entries.filter (·.key ≠ key.toNat) =
      (store.entries.filter (·.key ≠ key)).map viewEntry := by
    rw [h.entries, List.filter_map]
    congr 2
    funext entry
    simp [viewEntry, UInt64.toNat_inj]
  have hlength : recent.entries.length = store.entries.length := by rw [h.entries, List.length_map]
  unfold RecentEntries.forget forget
  rw [hfilter, List.length_map, hlength]
  by_cases hnone : (store.entries.filter (·.key ≠ key)).length = store.entries.length
  · rw [if_pos hnone, if_pos hnone]
    exact ⟨rfl, h⟩
  · rw [if_neg hnone, if_neg hnone]
    refine ⟨rfl, rfl, h.nextKey, h.sources, fun id => ?_, by rw [h.counters]⟩
    simp only [FiniteMap.retain, FiniteMap.get_edit, h.held]
    cases store.held.get id with
    | none => rfl
    | some held => by_cases heq : held = key <;> simp [heq, UInt64.toNat_inj]

theorem views_heldKeys (h : Views store recent) (roots : List GrantId) :
    RecentEntries.heldKeys recent roots = (heldKeys store roots).map UInt64.toNat := by
  rw [RecentEntries.heldKeys, heldKeys, List.map_filterMap]
  exact List.filterMap_congr fun id _ => h.held id

theorem views_commitRemember (h : Views store recent) (counts : store.nextKey.toNat + 1 < UInt64.size)
    (id : GrantId) (kind : EntryKind) (path : Path) (identity : Identity) (origin : Origin) :
    Views (commitRemember store id kind path identity origin).2
      (RecentEntries.commitRemember recent id kind (components path) (viewIdentity identity)
        origin) := by
  have hfind : recent.entries.find? (·.path = components path) =
      (store.entries.find? fun entry => SamePath entry.path path).map viewEntry := by
    rw [h.entries, List.find?_map]
    rfl
  have herase : recent.entries.eraseP (·.path = components path) =
      (store.entries.eraseP fun entry => SamePath entry.path path).map viewEntry := by
    rw [h.entries, List.eraseP_map]
    rfl
  have held (key : UInt64) (x : GrantId) : (recent.held.set id key.toNat).get x =
      ((store.held.set id key).get x).map UInt64.toNat := by
    rw [FiniteMap.get_set, FiniteMap.get_set]
    split
    · rfl
    · exact h.held x
  unfold RecentEntries.commitRemember commitRemember place
  rw [hfind, herase]
  cases hfound : store.entries.find? fun entry => SamePath entry.path path with
  | some entry =>
    have hfirst := List.find?_some hfound
    have hsame : SamePath entry.path path := of_decide_eq_true hfirst
    have hany : recent.entries.any (·.path = components path) = true := by
      rw [h.entries, List.any_map, List.any_eq_true]
      exact ⟨entry, List.mem_of_find?_eq_some hfound, decide_eq_true hsame⟩
    have hview : components entry.path = components path := hsame
    refine ⟨?_, ?_, h.sources, held entry.key, ?_⟩
    · simp [viewEntry, hview]
    · simp [hany, h.nextKey]
    · simp [h.counters]
  | none =>
    have hany : recent.entries.any (·.path = components path) = false := by
      rw [h.entries, List.any_map, List.any_eq_false]
      intro entry hentry hsame
      exact List.find?_eq_none.mp hfound entry hentry (decide_eq_true (of_decide_eq_true hsame))
    have hnone : (store.entries.eraseP fun entry => SamePath entry.path path) = store.entries :=
      List.eraseP_of_forall_not fun entry hentry => List.find?_eq_none.mp hfound entry hentry
    refine ⟨?_, ?_, h.sources, ?_, ?_⟩
    · simp [viewEntry, hnone, h.nextKey]
    · have hnext : (store.nextKey + 1).toNat = store.nextKey.toNat + 1 := by
        rw [UInt64.toNat_add]
        exact Nat.mod_eq_of_lt counts
      simp [hany, h.nextKey, hnext]
    · intro x
      simpa [h.nextKey] using held store.nextKey x
    · simp [h.counters, hnone]

end Views

end RecentStores
