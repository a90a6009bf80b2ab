import RocGui.InodeFolders
import RocGui.RecentLists
import RocGui.ThreadSystems

/-! Threads that change the recent list and write it to its store. The list is changed under
the lock; each step of the save that follows is on its own. -/
namespace RecentSaves

open Grants InodeFolders ThreadSystems Transitions TextFormats RecentFormats RecentStores
open RecentEntries (EntryKind Unavailable)

/-- The names in the store's folder: the store, and the one staging file of the process. -/
inductive StoreName where
  | recent | staging
  deriving DecidableEq

/-- A list that was snapshotted under the lock. -/
structure Snapshot where
  entries : List Entry
  /-- How often the list had changed. -/
  version : ℕ
  /-- A `remember` counts its outcome after the save. -/
  remembers : Bool

inductive Save where
  | idle
  | saving (snapshot : Snapshot)
  | writing (snapshot : Snapshot) (inode : ℕ)
  | committing (snapshot : Snapshot)
  | counting

structure Saved where
  store : Store
  folder : Folder StoreName Char
  version : ℕ
  /-- Every list there was. -/
  lists : List (List Entry)

inductive SaveAction where
  /-- The section of `remember` that changes the list. -/
  | remember (id : GrantId) (kind : EntryKind) (path : Path) (identity : Identity) (origin : Origin)
  | forget (key : UInt64)
  | proceed

section Saving

/-- The list was changed, and is written where it persists. -/
def changed (s : Saved) (change : Option Change) (store : Store) (remembers : Bool) : Save × Saved :=
  let shared : Saved :=
    { s with store := store, version := s.version + 1, lists := store.entries :: s.lists }
  match change with
  | some (_, entries) => (.saving ⟨entries, s.version + 1, remembers⟩, shared)
  | none => (if remembers then .counting else .idle, shared)

def finished (snapshot : Snapshot) : Save := if snapshot.remembers then .counting else .idle

/-- A staging file that cannot be renamed is removed. -/
def commit (folder : Folder StoreName Char) : Folder StoreName Char :=
  match folder.rename .staging .recent with
  | some folder => folder
  | none => (folder.remove .staging).getD folder

def advance (s : Saved) : Save → SaveAction → Option (Save × Saved)
  -- the registry only remembers a root that arrived from outside
  | .idle, .remember id kind path identity origin =>
    if origin = .automatic then none
    else
      let (change, store) := commitRemember s.store id kind path identity origin
      some (changed s change store true)
  | .idle, .forget key =>
    match forget s.store key with
    | ((false, _), _) => some (.idle, s)
    | ((true, change), store) => some (changed s change store false)
  | .saving snapshot, .proceed =>
    let (inode, folder) := s.folder.create .staging
    some (.writing snapshot inode, { s with folder := folder })
  | .writing snapshot inode, .proceed =>
    some (.committing snapshot,
      { s with folder := s.folder.write inode 0 (encode snapshot.entries) })
  | .committing snapshot, .proceed =>
    some (finished snapshot, { s with folder := commit s.folder })
  | .counting, .proceed => some (.idle, { s with store := countRemember s.store (.ok ()) })
  | _, _ => none

end Saving

def stored (folder : Folder StoreName Char) : List Entry := (folder.read .recent).elim [] decode

/-- A run that read `text` from its store, in a folder where an earlier process may have left
a staging file. -/
def opened (backing : Path) (text leftover : Option Text) : ThreadState Saved Save where
  shared :=
    { store := configured (text.elim [] decode) (some backing)
      folder :=
        { entries := fun
            | .recent => text.map fun _ => 0
            | .staging => leftover.map fun _ => 1
          contents := fun
            | 0 => text.getD []
            | 1 => leftover.getD []
            | _ => []
          fresh := 2 }
      version := 0
      lists := [text.elim [] decode] }
  calls _ := .idle

def saveSystem (backing : Path) (text leftover : Option Text) :
    System (ThreadState Saved Save) (ℕ × SaveAction) :=
  threadSystem advance (opened backing text leftover)

structure StoreKept (s : ThreadState Saved Save) : Prop where
  /-- Never a mixture or a partial file. -/
  whole : stored s.shared.folder ∈ s.shared.lists
  settled : (∀ t, s.calls t = .idle) → stored s.shared.folder = s.shared.store.entries

def pending : Save → Option Snapshot
  | .saving snapshot | .writing snapshot _ | .committing snapshot => some snapshot
  | .idle | .counting => none

def Stages : Save → Prop
  | .writing .. | .committing _ => True
  | .idle | .saving _ | .counting => False

/-- A save starts alone, and before those of later lists; and a new entry's key can be
counted past. -/
def Orderly (s : ThreadState Saved Save) : ℕ × SaveAction → Prop
  | (t, .proceed) => ∀ snapshot, s.calls t = .saving snapshot → ∀ t', t' ≠ t →
      ¬Stages (s.calls t') ∧ ∀ p, pending (s.calls t') = some p → snapshot.version < p.version
  | (_, .remember _ _ path _ _) => RecentLists.Counts s.shared.store path
  | (_, .forget _) => True

section Invariant

/-- What a save under way knows of its file. -/
def Holds (folder : Folder StoreName Char) : Save → Prop
  | .writing _ inode => folder.entries .staging = some inode ∧ folder.contents inode = []
  | .committing snapshot => folder.read .staging = some (encode snapshot.entries)
  | .idle | .saving _ | .counting => True

/-- What holds in every state of an orderly run. -/
structure Keeps (s : ThreadState Saved Save) : Prop where
  list : ∃ recency named, RecentLists.ListHolds s.shared.store recency named
  backed : s.shared.store.backing.isSome
  sound : s.shared.folder.Sound
  snapshots : ∀ t p, pending (s.calls t) = some p → Entries p.entries ∧
    p.entries ∈ s.shared.lists ∧ p.version ≤ s.shared.version ∧
    (p.version = s.shared.version → p.entries = s.shared.store.entries)
  files : ∀ t, Holds s.shared.folder (s.calls t)
  alone : ∀ t p, Stages (s.calls t) → pending (s.calls t) = some p → ∀ t', t' ≠ t →
    ¬Stages (s.calls t') ∧ ∀ p', pending (s.calls t') = some p' → p.version < p'.version
  whole : stored s.shared.folder ∈ s.shared.lists
  latest : (∃ t p, pending (s.calls t) = some p ∧ p.version = s.shared.version) ∨
    stored s.shared.folder = s.shared.store.entries ∧ ∀ t, pending (s.calls t) = none

variable {s s' : ThreadState Saved Save} {e : ℕ × SaveAction}

theorem kept_of_keeps (h : Keeps s) : StoreKept s := by
  refine ⟨h.whole, fun idle => ?_⟩
  rcases h.latest with ⟨t, p, hp, -⟩ | ⟨hstored, -⟩
  · rw [idle t] at hp
    cases hp
  · exact hstored

theorem commit_change (store : Store) (id : GrantId) (kind : EntryKind) (path : Path)
    (identity : Identity) (origin : Origin) :
    (commitRemember store id kind path identity origin).1 = store.backing.map (fun backing =>
      (backing, (commitRemember store id kind path identity origin).2.entries)) ∧
      (commitRemember store id kind path identity origin).2.backing = store.backing := by
  unfold commitRemember
  obtain ⟨entry, others, nextKey⟩ := place store kind path identity origin
  exact ⟨rfl, rfl⟩

theorem forget_change {store : Store} {key : UInt64} (h : (forget store key).1.1 = true) :
    (forget store key).1.2 = store.backing.map (fun backing =>
      (backing, (forget store key).2.entries)) ∧ (forget store key).2.backing = store.backing := by
  unfold forget at h ⊢
  by_cases hnone : (store.entries.filter (·.key ≠ key)).length = store.entries.length
  · rw [if_pos hnone] at h
    cases h
  · rw [if_neg hnone]
    exact ⟨rfl, rfl⟩

theorem keeps_changed {t : ℕ} {store : Store} {change : Option Change} {remembers : Bool}
    (h : Keeps s) (hidle : s.calls t = .idle) (list : ∃ recency named,
      RecentLists.ListHolds store recency named)
    (hchange : change = s.shared.store.backing.map fun backing => (backing, store.entries))
    (hbacking : store.backing = s.shared.store.backing)
    (hshared : s'.shared = (changed s.shared change store remembers).2)
    (hcalls : s'.calls = Function.update s.calls t (changed s.shared change store remembers).1) :
    Keeps s' := by
  obtain ⟨backing, hsome⟩ := Option.isSome_iff_exists.mp h.backed
  rw [hsome, Option.map_some] at hchange
  subst hchange
  have here : s'.calls t = .saving ⟨store.entries, s.shared.version + 1, remembers⟩ := by
    rw [hcalls, Function.update_self]
    rfl
  have other {i : ℕ} (hi : i ≠ t) : s'.calls i = s.calls i := by
    rw [hcalls, Function.update_of_ne hi]
  have entries : Entries store.entries := by
    obtain ⟨recency, named, holds⟩ := list
    exact holds.entries
  have hlists : s'.shared.lists = store.entries :: s.shared.lists := by rw [hshared]; rfl
  have hversion : s'.shared.version = s.shared.version + 1 := by rw [hshared]; rfl
  have hstore : s'.shared.store = store := by rw [hshared]; rfl
  have hfolder : s'.shared.folder = s.shared.folder := by rw [hshared]; rfl
  refine ⟨?_, ?_, ?_, fun i p hp => ?_, fun i => ?_, fun i p hstages hp j hj => ?_, ?_, ?_⟩
  · rw [hstore]
    exact list
  · rw [hstore, hbacking]
    exact h.backed
  · rw [hfolder]
    exact h.sound
  · rw [hlists, hversion, hstore]
    by_cases hi : i = t
    · subst hi
      rw [here] at hp
      obtain rfl := Option.some.inj hp
      exact ⟨entries, List.mem_cons_self, le_refl _, fun _ => rfl⟩
    · rw [other hi] at hp
      obtain ⟨hentries, hmem, hle, -⟩ := h.snapshots i p hp
      exact ⟨hentries, List.mem_cons_of_mem _ hmem, by omega, fun heq => by omega⟩
  · rw [hfolder]
    by_cases hi : i = t
    · subst hi
      rw [here]
      trivial
    · rw [other hi]
      exact h.files i
  · by_cases hi : i = t
    · subst hi
      rw [here] at hstages
      exact hstages.elim
    · rw [other hi] at hstages hp
      by_cases hjt : j = t
      · subst hjt
        rw [here]
        refine ⟨fun k => k, fun p' hp' => ?_⟩
        obtain rfl := Option.some.inj hp'
        have := (h.snapshots i p hp).2.2.1
        change p.version < s.shared.version + 1
        omega
      · rw [other hjt]
        exact h.alone i p hstages hp j hj
  · rw [hfolder, hlists]
    exact List.mem_cons_of_mem _ h.whole
  · exact .inl ⟨t, _, by rw [here]; rfl, hversion.symm⟩

theorem keeps_call {t : ℕ} {call : Save} (h : Keeps s) (snapshot : Snapshot)
    (hpending : pending (s.calls t) = some snapshot) (hnext : pending call = some snapshot)
    (hstore : s'.shared.store = s.shared.store) (hversion : s'.shared.version = s.shared.version)
    (hlists : s'.shared.lists = s.shared.lists) (sound : s'.shared.folder.Sound)
    (hread : s'.shared.folder.read .recent = s.shared.folder.read .recent)
    (hcalls : s'.calls = Function.update s.calls t call) (hholds : Holds s'.shared.folder call)
    (alone : ∀ i, i ≠ t → ¬Stages (s.calls i) ∧
      ∀ p, pending (s.calls i) = some p → snapshot.version < p.version) : Keeps s' := by
  have here : s'.calls t = call := by rw [hcalls, Function.update_self]
  have other {i : ℕ} (hi : i ≠ t) : s'.calls i = s.calls i := by
    rw [hcalls, Function.update_of_ne hi]
  have same (i : ℕ) : pending (s'.calls i) = pending (s.calls i) := by
    by_cases hi : i = t
    · rw [hi, here, hnext, hpending]
    · rw [other hi]
  have hstored : stored s'.shared.folder = stored s.shared.folder := by rw [stored, hread, stored]
  refine ⟨?_, ?_, sound, fun i p hp => ?_, fun i => ?_, fun i p hstages hp j hj => ?_, ?_, ?_⟩
  · rw [hstore]
    exact h.list
  · rw [hstore]
    exact h.backed
  · rw [hlists, hversion, hstore]
    exact h.snapshots i p (same i ▸ hp)
  · by_cases hi : i = t
    · rw [hi, here]
      exact hholds
    · rw [other hi]
      have hnone := (alone i hi).1
      cases hcall : s.calls i with
      | writing | committing =>
        rw [hcall] at hnone
        exact (hnone trivial).elim
      | idle | saving | counting => trivial
  · by_cases hi : i = t
    · subst hi
      rw [here, hnext] at hp
      obtain rfl := Option.some.inj hp
      rw [other hj]
      exact alone j hj
    · rw [other hi] at hstages
      exact absurd hstages (alone i hi).1
  · rw [hstored, hlists]
    exact h.whole
  · rw [hstored, hstore, hversion]
    rcases h.latest with ⟨i, p, hp, hlatest⟩ | ⟨hlatest, hnone⟩
    · exact .inl ⟨i, p, (same i).trans hp, hlatest⟩
    · rw [hnone t] at hpending
      cases hpending

/-- The staging file, now complete, takes the store's name. -/
theorem keeps_commit {t : ℕ} {snapshot : Snapshot} {call : Save} (h : Keeps s)
    (hcall : s.calls t = .committing snapshot) (hnone : pending call = none)
    (hholds : ∀ folder, Holds folder call)
    (hshared : s'.shared = { s.shared with folder := commit s.shared.folder })
    (hcalls : s'.calls = Function.update s.calls t call) : Keeps s' := by
  have here : s'.calls t = call := by rw [hcalls, Function.update_self]
  have other {i : ℕ} (hi : i ≠ t) : s'.calls i = s.calls i := by
    rw [hcalls, Function.update_of_ne hi]
  have hpending : pending (s.calls t) = some snapshot := by rw [hcall]; rfl
  have hstages : Stages (s.calls t) := by rw [hcall]; trivial
  have alone := h.alone t snapshot hstages hpending
  obtain ⟨hentries, hmem, hle, hlast⟩ := h.snapshots t snapshot hpending
  have hfile : s.shared.folder.read .staging = some (encode snapshot.entries) := by
    have := h.files t
    rwa [hcall] at this
  obtain ⟨inode, hinode⟩ : ∃ inode, s.shared.folder.entries .staging = some inode := by
    cases hnone : s.shared.folder.entries .staging with
    | none => simp [Folder.read, hnone] at hfile
    | some inode => exact ⟨inode, rfl⟩
  obtain ⟨folder, hrename⟩ : ∃ folder, s.shared.folder.rename .staging .recent = some folder := by
    unfold Folder.rename
    rw [hinode]
    exact ⟨_, rfl⟩
  have hfolder : s'.shared.folder = folder := by
    rw [hshared]
    change commit s.shared.folder = folder
    rw [commit, hrename]
  have hstored : stored s'.shared.folder = snapshot.entries := by
    rw [stored, hfolder, read_rename_target hrename, hfile]
    exact decode_encode hentries
  have hstore : s'.shared.store = s.shared.store := by rw [hshared]
  have hversion : s'.shared.version = s.shared.version := by rw [hshared]
  have hlists : s'.shared.lists = s.shared.lists := by rw [hshared]
  have left (i : ℕ) (p : Snapshot) (hp : pending (s'.calls i) = some p) :
      i ≠ t ∧ pending (s.calls i) = some p := by
    by_cases hi : i = t
    · rw [hi, here, hnone] at hp
      cases hp
    · exact ⟨hi, other hi ▸ hp⟩
  refine ⟨?_, ?_, ?_, fun i p hp => ?_, fun i => ?_, fun i p hs hp => ?_, ?_, ?_⟩
  · rw [hstore]
    exact h.list
  · rw [hstore]
    exact h.backed
  · rw [hfolder]
    exact sound_rename h.sound hrename
  · rw [hstore, hversion, hlists]
    exact h.snapshots i p (left i p hp).2
  · by_cases hi : i = t
    · rw [hi, here]
      exact hholds _
    · rw [other hi]
      have hfree := (alone i hi).1
      cases hcall : s.calls i with
      | writing | committing =>
        rw [hcall] at hfree
        exact (hfree trivial).elim
      | idle | saving | counting => trivial
  · obtain ⟨hi, -⟩ := left i p hp
    rw [other hi] at hs
    exact absurd hs (alone i hi).1
  · rw [hstored, hlists]
    exact hmem
  · rw [hstored, hstore, hversion]
    by_cases hnow : snapshot.version = s.shared.version
    · refine .inr ⟨hlast hnow, fun i => ?_⟩
      cases hp : pending (s'.calls i) with
      | none => rfl
      | some p =>
        obtain ⟨hi, hp⟩ := left i p hp
        have hlater := (alone i hi).2 p hp
        have hbound := (h.snapshots i p hp).2.2.1
        omega
    · rcases h.latest with ⟨i, p, hp, hlatest⟩ | ⟨-, hidle⟩
      · have hi : i ≠ t := by
          rintro rfl
          obtain rfl := Option.some.inj (hpending.symm.trans hp)
          exact hnow hlatest
        exact .inl ⟨i, p, by rw [other hi, hp], hlatest⟩
      · rw [hidle t] at hpending
        cases hpending

theorem keeps_idle {t : ℕ} {call : Save} (h : Keeps s) (hcall : pending (s.calls t) = none)
    (hnext : pending call = none) (hholds : ∀ folder, Holds folder call) {store : Store}
    (same : RecentLists.SameList s.shared.store store)
    (hshared : s'.shared = { s.shared with store := store })
    (hcalls : s'.calls = Function.update s.calls t call) : Keeps s' := by
  have here : s'.calls t = call := by rw [hcalls, Function.update_self]
  have other {i : ℕ} (hi : i ≠ t) : s'.calls i = s.calls i := by
    rw [hcalls, Function.update_of_ne hi]
  have hpending (i : ℕ) : pending (s'.calls i) = pending (s.calls i) := by
    by_cases hi : i = t
    · rw [hi, here, hnext, hcall]
    · rw [other hi]
  have idle {call : Save} (hnone : pending call = none) : ¬Stages call := by
    cases call with
    | writing | committing => cases hnone
    | idle | saving | counting => exact fun k => k
  have hstages {i : ℕ} (hs : Stages (s'.calls i)) : i ≠ t ∧ Stages (s.calls i) := by
    by_cases hi : i = t
    · rw [hi, here] at hs
      exact absurd hs (idle hnext)
    · exact ⟨hi, other hi ▸ hs⟩
  have hentries : s'.shared.store.entries = s.shared.store.entries := by
    rw [hshared]
    exact same.entries
  have hfolder : s'.shared.folder = s.shared.folder := by rw [hshared]
  have hversion : s'.shared.version = s.shared.version := by rw [hshared]
  have hlists : s'.shared.lists = s.shared.lists := by rw [hshared]
  refine ⟨?_, ?_, ?_, fun i p hp => ?_, fun i => ?_, fun i p hs hp j hj => ?_, ?_, ?_⟩
  · obtain ⟨recency, named, holds⟩ := h.list
    rw [hshared]
    exact ⟨recency, named, RecentLists.holds_same holds same⟩
  · rw [hshared]
    change store.backing.isSome
    rw [same.backing]
    exact h.backed
  · rw [hfolder]
    exact h.sound
  · rw [hlists, hversion, hentries]
    exact h.snapshots i p (hpending i ▸ hp)
  · rw [hfolder]
    by_cases hi : i = t
    · rw [hi, here]
      exact hholds _
    · rw [other hi]
      exact h.files i
  · rw [hpending] at hp
    obtain ⟨hfree, hlater⟩ := h.alone i p (hstages hs).2 hp j hj
    refine ⟨fun k => hfree (hstages k).2, fun p' hp' => hlater p' ?_⟩
    rw [← hpending, hp']
  · rw [hfolder, hlists]
    exact h.whole
  · rw [hfolder, hentries, hversion]
    rcases h.latest with ⟨i, p, hp, hlatest⟩ | ⟨hstored, hnone⟩
    · exact .inl ⟨i, p, (hpending i).trans hp, hlatest⟩
    · exact .inr ⟨hstored, fun i => (hpending i).trans (hnone i)⟩

end Invariant

section Runs

variable {s s' : ThreadState Saved Save} {e : ℕ × SaveAction}

theorem keeps_step (h : Keeps s) (orderly : Orderly s e) (hstep : step advance s e = some s') :
    Keeps s' := by
  obtain ⟨call, hadvance, hcalls⟩ := step_cases hstep
  obtain ⟨t, action⟩ := e
  dsimp only at hadvance hcalls orderly
  cases hcall : s.calls t with
  | idle =>
    rw [hcall] at hadvance
    cases action with
    | remember id kind path identity origin =>
      by_cases horigin : origin = .automatic
      · simp [advance, horigin] at hadvance
      · have hcases : advance s.shared .idle (.remember id kind path identity origin) =
            some (changed s.shared (commitRemember s.shared.store id kind path identity origin).1
              (commitRemember s.shared.store id kind path identity origin).2 true) := if_neg horigin
        obtain ⟨rfl, hshared⟩ := Prod.mk.inj (Option.some.inj (hcases.symm.trans hadvance))
        obtain ⟨recency, named, holds⟩ := h.list
        obtain ⟨hchange, hbacking⟩ := commit_change s.shared.store id kind path identity origin
        exact keeps_changed h hcall
          ⟨_, _, RecentLists.holds_commit holds id kind path identity origin horigin orderly⟩ hchange
          hbacking hshared.symm hcalls
    | forget key =>
      by_cases hfound : (forget s.shared.store key).1.1 = true
      · obtain ⟨hchange, hbacking⟩ := forget_change hfound
        obtain ⟨recency, named, holds⟩ := h.list
        obtain ⟨hsublist, hkey, -, -⟩ := RecentLists.forget_sublist s.shared.store key
        have list := RecentLists.holds_sublist holds hsublist hkey
        have hcases : advance s.shared .idle (.forget key) = some (changed s.shared
            (forget s.shared.store key).1.2 (forget s.shared.store key).2 false) := by
          rw [advance]
          generalize forget s.shared.store key = result at hfound
          obtain ⟨⟨found, change⟩, store⟩ := result
          cases hfound
          rfl
        obtain ⟨rfl, hshared⟩ := Prod.mk.inj (Option.some.inj (hcases.symm.trans hadvance))
        exact keeps_changed h hcall ⟨_, _, list⟩ hchange hbacking hshared.symm hcalls
      · have hcases : advance s.shared .idle (.forget key) = some (.idle, s.shared) := by
          rw [advance]
          generalize forget s.shared.store key = result at hfound
          obtain ⟨⟨found, change⟩, store⟩ := result
          cases found with
          | true => exact absurd rfl hfound
          | false => rfl
        obtain ⟨rfl, hshared⟩ := Prod.mk.inj (Option.some.inj (hcases.symm.trans hadvance))
        exact keeps_idle h (by rw [hcall]; rfl) rfl (by intro _; trivial) ⟨rfl, rfl, rfl, rfl⟩
          hshared.symm hcalls
    | proceed => cases hadvance
  | saving snapshot =>
    rw [hcall] at hadvance
    cases action with
    | proceed =>
      obtain ⟨rfl, hshared⟩ := Prod.mk.inj (Option.some.inj hadvance)
      obtain ⟨sound, hentry, hempty, hread⟩ := create_cases (n := .staging) h.sound
      refine keeps_call h snapshot (by rw [hcall]; rfl) rfl ?_ ?_ ?_ ?_ ?_ hcalls ?_
        (orderly snapshot hcall) <;> rw [← hshared]
      · exact sound
      · exact hread .recent (by decide)
      · exact ⟨hentry, hempty⟩
    | remember | forget => cases hadvance
  | writing snapshot inode =>
    rw [hcall] at hadvance
    cases action with
    | proceed =>
      obtain ⟨rfl, hshared⟩ := Prod.mk.inj (Option.some.inj hadvance)
      have hfile := h.files t
      rw [hcall] at hfile
      obtain ⟨hentry, hempty⟩ := hfile
      refine keeps_call h snapshot (by rw [hcall]; rfl) rfl ?_ ?_ ?_ ?_ ?_ hcalls ?_
        (h.alone t snapshot (by rw [hcall]; trivial) (by rw [hcall]; rfl)) <;> rw [← hshared]
      · exact sound_write h.sound
      · refine read_write fun hrecent => ?_
        cases h.sound.single _ _ _ hrecent hentry
      · have hwritten : (s.shared.folder.write inode 0 (encode snapshot.entries)).entries .staging =
            some inode := hentry
        change (s.shared.folder.write inode 0 (encode snapshot.entries)).read .staging = _
        rw [read_contents hwritten, contents_write_self, hempty]
        simp [Folder.overwrite]
    | remember | forget => cases hadvance
  | committing snapshot =>
    rw [hcall] at hadvance
    cases action with
    | proceed =>
      simp only [advance, Option.some.injEq, Prod.mk.injEq] at hadvance
      obtain ⟨rfl, hshared⟩ := hadvance
      refine keeps_commit h hcall ?_ (fun folder => ?_) hshared.symm hcalls
      · unfold finished
        split <;> rfl
      · unfold finished
        split <;> trivial
    | remember | forget => cases hadvance
  | counting =>
    rw [hcall] at hadvance
    cases action with
    | proceed =>
      simp only [advance, Option.some.injEq, Prod.mk.injEq] at hadvance
      obtain ⟨rfl, hshared⟩ := hadvance
      exact keeps_idle h (by rw [hcall]; rfl) rfl (by intro _; trivial)
        (RecentLists.same_list_countRemember _ _) hshared.symm hcalls
    | remember | forget => cases hadvance

theorem keeps_opened {backing : Path} {text : Option Text} (leftover : Option Text)
    (count : RecentLists.KeysCount (text.elim [] decode)) : Keeps (opened backing text leftover) := by
  have entries : Entries (text.elim [] decode) := by
    cases text with
    | none => exact ⟨.nil, .nil, Nat.zero_le _, fun _ h => by cases h⟩
    | some text => exact entries_decode text
  have hstored : stored (opened backing text leftover).shared.folder = text.elim [] decode := by
    cases text <;> rfl
  have lists : RecentLists.Lists (RecentCalls.started (RecentStores.configured (text.elim [] decode)
      (some backing))) := RecentLists.lists_configured entries count
  refine ⟨⟨_, _, lists.holds⟩, rfl, ⟨fun n i hi => ?_, fun m n i hm hn => ?_⟩, (fun t p hp => nomatch hp),
    fun t => trivial, fun t p k => k.elim, ?_, .inr ⟨hstored, fun t => rfl⟩⟩
  · cases n with
    | recent =>
      obtain ⟨-, -, rfl⟩ := Option.map_eq_some_iff.mp hi
      exact Nat.zero_lt_two
    | staging =>
      obtain ⟨-, -, rfl⟩ := Option.map_eq_some_iff.mp hi
      exact Nat.one_lt_two
  · cases m <;> cases n
    · rfl
    · obtain ⟨-, -, rfl⟩ := Option.map_eq_some_iff.mp hm
      obtain ⟨-, -, heq⟩ := Option.map_eq_some_iff.mp hn
      cases heq
    · obtain ⟨-, -, rfl⟩ := Option.map_eq_some_iff.mp hm
      obtain ⟨-, -, heq⟩ := Option.map_eq_some_iff.mp hn
      cases heq
    · rfl
  · rw [hstored]
    exact List.mem_singleton_self _

theorem orderly_saves_kept {backing : Path} {text leftover : Option Text}
    (count : RecentLists.KeysCount (text.elim [] decode))
    (h : Reachable ((saveSystem backing text leftover).restrict Orderly) s) : StoreKept s := by
  refine kept_of_keeps ?_
  refine reachable_invariant (S := (saveSystem backing text leftover).restrict Orderly)
    (keeps_opened leftover count) ?_ h
  rintro s e t keeps ⟨orderly, hstep⟩
  exact keeps_step keeps orderly hstep

def rememberFile (t : ℕ) (path : Path) : ℕ × SaveAction :=
  (t, .remember ⟨.document, t⟩ .file path ⟨1, 2⟩ (.trustedSelection .consentOnly))

def saveFile (t : ℕ) : List (ℕ × SaveAction) := List.replicate 4 (t, .proceed)

def listA : Path := [47, 97]
def listB : Path := [47, 98]

theorem orderly_alone {t : ℕ} (h : ∀ t', t' ≠ t → s.calls t' = .idle) : Orderly s (t, .proceed) := by
  intro snapshot _ t' ht
  rw [h t' ht]
  exact ⟨fun k => k, (fun p hp => nomatch hp)⟩

theorem reachable_saving {es : List (ℕ × SaveAction)} (t : ℕ)
    (h : Reachable ((saveSystem [47, 114] none none).restrict Orderly) s) (idle : ∀ t', t' ≠ t →
      s.calls t' = .idle) (hes : ∀ e ∈ es, e = (t, .proceed))
    (hruns : runs advance (fun _ _ => true) s es = true) :
    Reachable ((saveSystem [47, 114] none none).restrict Orderly) (after advance s es) := by
  refine reachable_after _ (P := fun s => ∀ t', t' ≠ t → s.calls t' = .idle) id
    (fun s e u idle he _ hu => ?_) h idle hruns
  obtain rfl := hes e he
  refine ⟨⟨orderly_alone idle, hu⟩, fun t' ht => ?_⟩
  rw [calls_step hu ht]
  exact idle t' ht

theorem saved_file_kept : StoreKept (after advance (after advance (opened [47, 114] none none)
    [rememberFile 0 listA]) (saveFile 0)) := by
  have first : Reachable ((saveSystem [47, 114] none none).restrict Orderly)
      (after advance (opened [47, 114] none none) [rememberFile 0 listA]) := by
    refine reachable_step (reachable_initial _) (e := rememberFile 0 listA) ⟨fun _ => ?_, rfl⟩
    decide +kernel
  refine @orderly_saves_kept _ _ none none (fun e he => by cases he)
    (reachable_saving 0 first (fun t ht => ?_) (fun e he => List.eq_of_mem_replicate he)
      (by decide +kernel))
  refine calls_after fun e he => ?_
  rw [List.mem_singleton.mp he]
  exact ht

def crossedSaves : List (ℕ × SaveAction) :=
  [rememberFile 0 listA, rememberFile 1 listB] ++ saveFile 1 ++ saveFile 0

/-- Both files are remembered, and the store holds the first alone. -/
theorem crossed_saves_lose_a_change : ¬∀ (backing : Path) (text leftover : Option Text)
    (s : ThreadState Saved Save), RecentLists.KeysCount (text.elim [] decode) →
      Reachable (saveSystem backing text leftover) s → StoreKept s := by
  intro claim
  have reached : Reachable (saveSystem [47, 114] none none)
      (after advance (opened [47, 114] none none) crossedSaves) :=
    reachable_after (fun _ _ => true) (P := fun _ => True) id (fun _ _ _ _ _ _ hu => ⟨hu, trivial⟩)
      (reachable_initial _) trivial (by decide +kernel)
  have kept := claim _ none none _ (fun e he => by cases he) reached
  have idle (t : ℕ) : (after advance (opened [47, 114] none none) crossedSaves).calls t = .idle := by
    by_cases h0 : t = 0
    · subst h0
      rfl
    · by_cases h1 : t = 1
      · subst h1
        rfl
      · rw [calls_after fun e he => ?_]
        · rfl
        · simp [crossedSaves, rememberFile, saveFile] at he
          rcases he with rfl | rfl | rfl | rfl <;> assumption
  have settled := kept.settled idle
  have file : (after advance (opened [47, 114] none none) crossedSaves).shared.folder.read .recent =
      some (encode [⟨1, .file, listA, ⟨1, 2⟩, .trustedSelection .consentOnly⟩]) := by decide +kernel
  have list : (after advance (opened [47, 114] none none) crossedSaves).shared.store.entries =
      [⟨2, .file, listB, ⟨1, 2⟩, .trustedSelection .consentOnly⟩,
        ⟨1, .file, listA, ⟨1, 2⟩, .trustedSelection .consentOnly⟩] := by decide +kernel
  rw [stored, file, list] at settled
  have one : Entries [⟨1, .file, listA, ⟨1, 2⟩, .trustedSelection .consentOnly⟩] :=
    ⟨List.pairwise_singleton _ _, List.pairwise_singleton _ _, show 1 ≤ 128 by decide, fun e he => by
      rw [List.mem_singleton.mp he]
      exact fun h => by cases h⟩
  cases (decode_encode one).symm.trans settled

end Runs

end RecentSaves
