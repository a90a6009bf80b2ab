import RocGui.RecentStores
import RocGui.RecentRuns

/-! The calls that remember, reopen, forget and withdraw places, one whole call a step. The
file system answers each check in any way. -/
namespace RecentCalls

open FiniteMaps Grants GrantRuns Transitions RecentFormats RecentStores
open RecentEntries (EntryKind Unavailable maxEntries)

/-- The registry and the list, with the history a statement about them needs. -/
structure CallState where
  grants : GrantState
  store : Store
  /-- The places remembered since the list began, latest first, before those it began with. -/
  recency : List Path
  /-- Every entry that was ever listed, by its key. -/
  named : List (UInt64 × Path)
  /-- The entry each root was last remembered or reopened as. -/
  rememberedAs : FiniteMap GrantId UInt64

inductive CallEvent where
  /-- A root whose place is noted. -/
  | choose (kind : Kind) (number : ℕ) (rights : Rights) (origin : Origin) (entryKind : EntryKind)
      (path : Path)
  /-- A root that comes from no place. -/
  | provide (kind : Kind) (number : ℕ) (rights : Rights) (origin : Origin)
  | accept (kind : Kind) (number : ℕ) (needs : Rights)
  | derive (kind : Kind) (number : ℕ) (rights : Rights) (parent : Grant)
  | remember (kind : Kind) (number : ℕ) (metadata : Path → Except Unavailable Identity)
  /-- The place is checked, then opened and recorded under a new handle. -/
  | reopen (key : UInt64) (entryKind : EntryKind) (check : Entry → Except Unavailable Unit)
      (opened : Except Unavailable (Kind × ℕ × Rights))
  | forget (key : UInt64)
  | revoke (kind : Kind) (number : ℕ)
  | revokeKind (hashOrder : Enumeration GrantId Grant) (kind : Kind)
  | release (kind : Kind) (number : ℕ)
  | beginLifecycle

section Calls

variable (s : CallState)

/-- What a `remember` finds after the registry accepted it. -/
def locate (metadata : Path → Except Unavailable Identity) (id : GrantId) :
    Except Unavailable (EntryKind × Path × Identity) :=
  match s.store.sources.get id with
  | none => .error .unsupported
  | some (kind, path) => match metadata path with
    | .error reason => .error reason
    | .ok identity => .ok (kind, path, identity)

def keep (held : Grant) (kind : EntryKind) (path : Path) (identity : Identity) : CallState :=
  let key := (place s.store kind path identity held.origin).1.key
  { s with
    store := countRemember (commitRemember s.store held.id kind path identity held.origin).2 (.ok ())
    recency := path :: s.recency
    named := (key, path) :: s.named
    rememberedAs := s.rememberedAs.set held.id key }

def refuse (reason : Unavailable) : CallState :=
  { s with store := countRemember s.store (.error reason) }

def remember (kind : Kind) (number : ℕ) (metadata : Path → Except Unavailable Identity) :
    Except Unavailable Unit × CallState :=
  let marked := { s with grants := GrantRuns.next s.grants (.remember kind number) }
  match (Grants.remember kind number s.grants.registry).1 with
  | .error refusal =>
    (.error (RecentRuns.refusedAs refusal), refuse marked (RecentRuns.refusedAs refusal))
  | .ok held => match locate s metadata held.id with
    | .error reason => (.error reason, refuse marked reason)
    | .ok (entryKind, path, identity) => (.ok (), keep marked held entryKind path identity)

def reopenAs (entry : Entry) (entryKind : EntryKind) (kind : Kind) (number : ℕ) (rights : Rights) :
    CallState :=
  { s with
    grants := GrantRuns.next s.grants (.recordRoot kind number rights entry.origin .remembered)
    store := reopened (noteSource s.store ⟨kind, number⟩ entryKind entry.path) entry.key
      ⟨kind, number⟩ entryKind entry.path
    rememberedAs := s.rememberedAs.set ⟨kind, number⟩ entry.key }

def reopen (key : UInt64) (entryKind : EntryKind) (check : Entry → Except Unavailable Unit)
    (opened : Except Unavailable (Kind × ℕ × Rights)) : CallState :=
  let refused := { s with store := countRefused s.store }
  match findEntry s.store key entryKind with
  | .error _ => refused
  | .ok entry => match check entry with
    | .error _ => refused
    | .ok () => match opened with
      -- a place that no longer opens is refused uncounted
      | .error _ => s
      | .ok (kind, number, rights) => reopenAs s entry entryKind kind number rights

/-- The entries of the withdrawn roots are looked up first, then forgotten one by one. -/
def forgetWithdrawn : CallState :=
  let keys := heldKeys s.store s.grants.registry.withdrawnRemembered
  { s with
    grants := GrantRuns.next s.grants .takeWithdrawnRemembered
    store := keys.foldl (fun store key => (RecentStores.forget store key).2) s.store }

def Enabled : CallEvent → Prop
  | .choose kind number .. | .provide kind number .. => ⟨kind, number⟩ ∉ s.grants.issued
  | .derive kind number _ parent => ⟨kind, number⟩ ∉ s.grants.issued ∧ parent ∈ s.grants.accepted
  | .reopen _ _ _ (.ok (kind, number, _)) => ⟨kind, number⟩ ∉ s.grants.issued
  | _ => True

def next : CallEvent → CallState
  | .choose kind number rights origin entryKind path =>
    { s with
      grants := GrantRuns.next s.grants (.recordRoot kind number rights origin .session)
      store := noteSource s.store ⟨kind, number⟩ entryKind path }
  | .provide kind number rights origin =>
    { s with grants := GrantRuns.next s.grants (.recordRoot kind number rights origin .session) }
  | .accept kind number needs =>
    { s with grants := GrantRuns.next s.grants (.accept kind number needs) }
  | .derive kind number rights parent =>
    { s with grants := GrantRuns.next s.grants (.recordDescendant kind number rights parent) }
  | .remember kind number metadata => (remember s kind number metadata).2
  | .reopen key entryKind check opened => reopen s key entryKind check opened
  | .forget key => { s with store := (RecentStores.forget s.store key).2 }
  | .revoke kind number =>
    forgetWithdrawn { s with grants := GrantRuns.next s.grants (.revoke kind number) }
  | .revokeKind hashOrder kind =>
    forgetWithdrawn { s with grants := GrantRuns.next s.grants (.revokeKind hashOrder kind) }
  | .release kind number =>
    { s with
      grants := GrantRuns.next s.grants (.release kind number)
      store := releaseSource s.store ⟨kind, number⟩ }
  | .beginLifecycle =>
    { s with
      store := beginLifecycle s.store
      recency := if s.store.backing.isNone then s.store.initial.map (·.path) else s.recency }

end Calls

def started (store : Store) : CallState where
  grants := ⟨.empty, [], ∅⟩
  store := store
  recency := store.entries.map (·.path)
  named := store.entries.map fun entry => (entry.key, entry.path)
  rememberedAs := ∅

/-- Every run of a host whose list was configured as `store`. -/
def callSystem (store : Store) : System CallState CallEvent := guarded (started store) Enabled next

section Cases

variable {s : CallState} {kind : Kind} {number : ℕ} {metadata : Path → Except Unavailable Identity}

theorem remember_cases (s : CallState) (kind : Kind) (number : ℕ)
    (metadata : Path → Except Unavailable Identity) :
    (∃ refusal, (Grants.remember kind number s.grants.registry).1 = .error refusal ∧
      remember s kind number metadata = (.error (RecentRuns.refusedAs refusal),
        refuse { s with grants := GrantRuns.next s.grants (.remember kind number) }
          (RecentRuns.refusedAs refusal))) ∨
    (∃ held reason, (Grants.remember kind number s.grants.registry).1 = .ok held ∧
      locate s metadata held.id = .error reason ∧
      remember s kind number metadata = (.error reason,
        refuse { s with grants := GrantRuns.next s.grants (.remember kind number) } reason)) ∨
    ∃ held entryKind path identity, (Grants.remember kind number s.grants.registry).1 = .ok held ∧
      locate s metadata held.id = .ok (entryKind, path, identity) ∧
      remember s kind number metadata = (.ok (),
        keep { s with grants := GrantRuns.next s.grants (.remember kind number) } held entryKind path
          identity) := by
  unfold remember
  cases hgrant : (Grants.remember kind number s.grants.registry).1 with
  | error refusal => exact .inl ⟨refusal, rfl, rfl⟩
  | ok held =>
    refine .inr ?_
    cases hlocate : locate s metadata held.id with
    | error reason => exact .inl ⟨held, reason, rfl, hlocate, by simp [hlocate]⟩
    | ok found =>
      obtain ⟨entryKind, path, identity⟩ := found
      exact .inr ⟨held, entryKind, path, identity, rfl, hlocate, by simp [hlocate]⟩

theorem reopen_cases (s : CallState) (key : UInt64) (entryKind : EntryKind)
    (check : Entry → Except Unavailable Unit) (opened : Except Unavailable (Kind × ℕ × Rights)) :
    reopen s key entryKind check opened = s ∨
    reopen s key entryKind check opened = { s with store := countRefused s.store } ∨
    ∃ entry kind number rights, findEntry s.store key entryKind = .ok entry ∧
      opened = .ok (kind, number, rights) ∧
      reopen s key entryKind check opened = reopenAs s entry entryKind kind number rights := by
  unfold reopen
  cases hfind : findEntry s.store key entryKind with
  | error reason => exact .inr (.inl rfl)
  | ok entry =>
    cases hcheck : check entry with
    | error reason => exact .inr (.inl (by simp [hcheck]))
    | ok _ =>
      cases opened with
      | error reason => exact .inl (by simp [hcheck])
      | ok handle =>
        obtain ⟨kind, number, rights⟩ := handle
        exact .inr (.inr ⟨entry, kind, number, rights, rfl, rfl, by simp [hcheck]⟩)

theorem findEntry_ok {store : Store} {key : UInt64} {entryKind : EntryKind} {entry : Entry}
    (h : findEntry store key entryKind = .ok entry) :
    entry ∈ store.entries ∧ entry.key = key ∧ entry.kind = entryKind := by
  unfold findEntry at h
  cases hfind : store.entries.find? (·.key = key) with
  | none => simp [hfind] at h
  | some found =>
    have hkey := List.find?_some hfind
    by_cases hkind : found.kind = entryKind
    · simp only [hfind, hkind, ne_eq, not_true_eq_false, if_false] at h
      obtain rfl := Except.ok.inj h
      exact ⟨List.mem_of_find?_eq_some hfind, of_decide_eq_true hkey, hkind⟩
    · simp [hfind, hkind] at h

end Cases

section Registry

variable {s : CallState} {e : CallEvent}

/-- The registry's sections that a call runs. -/
def grantEvents (s : CallState) : CallEvent → List GrantEvent
  | .choose kind number rights origin _ _ | .provide kind number rights origin =>
    [.recordRoot kind number rights origin .session]
  | .accept kind number needs => [.accept kind number needs]
  | .derive kind number rights parent => [.recordDescendant kind number rights parent]
  | .remember kind number _ => [.remember kind number]
  | .reopen key entryKind check opened =>
    match findEntry s.store key entryKind, opened with
    | .ok entry, .ok (kind, number, rights) =>
      if (check entry).isOk then [.recordRoot kind number rights entry.origin .remembered] else []
    | _, _ => []
  | .revoke kind number => [.revoke kind number, .takeWithdrawnRemembered]
  | .revokeKind hashOrder kind => [.revokeKind hashOrder kind, .takeWithdrawnRemembered]
  | .release kind number => [.release kind number]
  | .forget _ | .beginLifecycle => []

theorem grants_remember {kind : Kind} {number : ℕ} {metadata : Path → Except Unavailable Identity} :
    (remember s kind number metadata).2.grants = GrantRuns.next s.grants (.remember kind number) := by
  rcases remember_cases s kind number metadata with
    ⟨_, -, h⟩ | ⟨_, _, -, -, h⟩ | ⟨_, _, _, _, -, -, h⟩ <;> rw [h] <;> rfl

theorem grants_step (enabled : Enabled s e) :
    (next s e).grants = runTrace GrantRuns.next s.grants (grantEvents s e) ∧
      ValidTrace GrantRuns.Enabled GrantRuns.next s.grants (grantEvents s e) := by
  cases e with
  | choose | provide => exact ⟨rfl, enabled, trivial⟩
  | derive => exact ⟨rfl, enabled, trivial⟩
  | accept | release => exact ⟨rfl, trivial, trivial⟩
  | remember kind number metadata => exact ⟨grants_remember, trivial, trivial⟩
  | reopen key entryKind check opened =>
    simp only [next, reopen, grantEvents]
    cases hfind : findEntry s.store key entryKind with
    | error reason => exact ⟨rfl, trivial⟩
    | ok entry =>
      cases hcheck : check entry with
      | error reason => cases opened <;> simp [hcheck, Except.isOk, Except.toBool, runTrace, ValidTrace]
      | ok _ =>
        cases opened with
        | error reason => simp [hcheck, runTrace, ValidTrace]
        | ok handle =>
          obtain ⟨kind, number, rights⟩ := handle
          simp only [hcheck, Except.isOk, Except.toBool, if_true]
          exact ⟨rfl, enabled, trivial⟩
  | forget | beginLifecycle => exact ⟨rfl, trivial⟩
  | revoke | revokeKind => exact ⟨rfl, trivial, trivial, trivial⟩

theorem grants_reachable {store : Store} (h : Reachable (callSystem store) s) :
    Reachable grantSystem s.grants := by
  refine guarded_invariant (P := fun s => Reachable grantSystem s.grants)
    (reachable_initial grantSystem) (fun s e hs enabled => ?_) h
  obtain ⟨hgrants, hvalid⟩ := grants_step enabled
  rw [hgrants]
  exact valid_trace_reachable hs hvalid

end Registry

end RecentCalls
