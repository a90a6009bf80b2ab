import RocGui.GrantRuns
import RocGui.RecentEntries
import Mathlib.Logic.Function.Basic

/-! Choosing, reopening, remembering and withdrawing places, by any number of threads. A
call is a sequence of sections, each under the lock of the registry or of the recent list,
and other calls may run between any two of them. -/
namespace RecentRuns

open FiniteMaps Grants GrantRuns RecentEntries Transitions

/-- A call under way, by the section it runs next and the locals that section needs. -/
inductive Call (P : Type) where
  | idle
  | choosing (id : GrantId) (kind : EntryKind) (path : P)
  | reopenChecking (key : ℕ) (kind : EntryKind) (entry : Entry P)
  | reopenRefused
  | reopenRecording (key : ℕ) (kind : EntryKind) (entry : Entry P)
  | reopenNoting (key : ℕ) (id : GrantId) (kind : EntryKind) (path : P)
  | reopening (key : ℕ) (id : GrantId) (kind : EntryKind) (path : P)
  | rememberSource (grant : Grant)
  | rememberCheck (grant : Grant) (kind : EntryKind) (path : P)
  | rememberCommit (grant : Grant) (kind : EntryKind) (path : P) (identity : Identity)
  | rememberCount (outcome : Except Unavailable Unit)
  | releasing (id : GrantId)
  /-- The roots are the ones this call pushed; the code does not keep them. -/
  | withdrawn (pushed : List GrantId)
  | lookup (roots : List GrantId)
  | forgetting (keys : List ℕ)

inductive Action (P : Type) where
  | choose (kind : Kind) (number : ℕ) (rights : Rights) (origin : Origin) (entryKind : EntryKind)
      (path : P)
  | reopen (key : ℕ) (entryKind : EntryKind)
  | remember (kind : Kind) (number : ℕ)
  | release (kind : Kind) (number : ℕ)
  | forget (key : ℕ)
  | accept (kind : Kind) (number : ℕ) (needs : Rights)
  | derive (kind : Kind) (number : ℕ) (rights : Rights) (parent : Grant)
  | revoke (kind : Kind) (number : ℕ)
  | revokeKind (hashOrder : Enumeration GrantId Grant) (kind : Kind)
  /-- The next section of the call under way. -/
  | proceed
  /-- What the file system answers a reopening. -/
  | checked (outcome : Except Unavailable Unit)
  | abandon
  | record (kind : Kind) (number : ℕ) (rights : Rights)
  /-- What the file system answers a `remember`. -/
  | metadata (outcome : Except Unavailable Identity)

/-- What the threads share, with the history a statement about it needs: the handles that
were returned, the place each root was recorded for, and the roots ever remembered. -/
structure Shared (P : Type) where
  registry : Registry
  store : Store P
  accepted : List Grant
  issued : Finset GrantId
  returned : Finset GrantId
  places : FiniteMap GrantId P
  remembered : Finset GrantId

structure RecentState (P : Type) where
  shared : Shared P
  calls : ℕ → Call P

section Sections

variable {P : Type} [DecidableEq P]

def refusedAs : Refusal → Unavailable
  | .unknown => .revoked
  | .revoked => .revoked
  | .rights => .unsupported

def pushed (before after : Registry) : List GrantId :=
  after.withdrawnRemembered.drop before.withdrawnRemembered.length

def lookupNext : List GrantId → Call P
  | [] => .idle
  | roots => .lookup roots

def forgetNext : List ℕ → Call P
  | [] => .idle
  | keys => .forgetting keys

def chooseRoot (s : Shared P) (kind : Kind) (number : ℕ) (rights : Rights) (origin : Origin)
    (lifetime : Lifetime) (path : P) : Shared P :=
  { s with
    registry := recordRoot kind number rights s.registry origin lifetime
    issued := insert ⟨kind, number⟩ s.issued
    places := s.places.set ⟨kind, number⟩ path }

def advance (s : Shared P) : Call P → Action P → Option (Call P × Shared P)
  | .idle, .choose kind number rights origin entryKind path =>
    if ⟨kind, number⟩ ∈ s.issued then none
    else some (.choosing ⟨kind, number⟩ entryKind path,
      chooseRoot s kind number rights origin .session path)
  | .choosing id kind path, .proceed =>
    some (.idle, { s with
      store := noteSource s.store id kind path, returned := insert id s.returned })
  | .idle, .reopen key entryKind =>
    match findEntry s.store key entryKind with
    | .ok entry => some (.reopenChecking key entryKind entry, s)
    | .error _ => some (.reopenRefused, s)
  | .reopenChecking key kind entry, .checked (.ok _) => some (.reopenRecording key kind entry, s)
  | .reopenChecking .., .checked (.error _) => some (.reopenRefused, s)
  | .reopenRefused, .proceed => some (.idle, { s with store := countRefused s.store })
  -- the place may still fail to open
  | .reopenRecording .., .abandon => some (.idle, s)
  | .reopenRecording key entryKind entry, .record kind number rights =>
    if ⟨kind, number⟩ ∈ s.issued then none
    else some (.reopenNoting key ⟨kind, number⟩ entryKind entry.path,
      { chooseRoot s kind number rights entry.origin .remembered entry.path with
        remembered := insert ⟨kind, number⟩ s.remembered })
  | .reopenNoting key id kind path, .proceed =>
    some (.reopening key id kind path, { s with store := noteSource s.store id kind path })
  | .reopening key id kind path, .proceed =>
    some (.idle, { s with
      store := reopened s.store key id kind path, returned := insert id s.returned })
  | .idle, .remember kind number =>
    if ⟨kind, number⟩ ∉ s.returned then none
    else match (remember kind number s.registry).1 with
      | .ok grant => some (.rememberSource grant, { s with
          registry := (remember kind number s.registry).2
          remembered := insert grant.id s.remembered })
      | .error refusal => some (.rememberCount (.error (refusedAs refusal)), s)
  | .rememberSource grant, .proceed =>
    match s.store.sources.get grant.id with
    | none => some (.rememberCount (.error .unsupported), s)
    | some (kind, path) => some (.rememberCheck grant kind path, s)
  | .rememberCheck grant kind path, .metadata (.ok identity) =>
    some (.rememberCommit grant kind path identity, s)
  | .rememberCheck .., .metadata (.error reason) => some (.rememberCount (.error reason), s)
  | .rememberCommit grant kind path identity, .proceed =>
    some (.rememberCount (.ok ()), { s with
      store := commitRemember s.store grant.id kind path identity grant.origin })
  | .rememberCount outcome, .proceed =>
    some (.idle, { s with store := countRemember s.store outcome })
  | .idle, .release kind number =>
    some (.releasing ⟨kind, number⟩, { s with registry := release kind number s.registry })
  | .releasing id, .proceed => some (.idle, { s with store := releaseSource s.store id })
  | .idle, .forget key => some (.idle, { s with store := (forget s.store key).2 })
  | .idle, .accept kind number needs =>
    some (.idle, { s with
      registry := (accept kind number s.registry needs).2
      accepted := s.accepted ++ (accept kind number s.registry needs).1.toOption.toList })
  | .idle, .derive kind number rights parent =>
    if ⟨kind, number⟩ ∈ s.issued ∨ parent ∉ s.accepted then none
    else some (.idle, { s with
      registry := (recordDescendant kind number rights s.registry parent).2
      issued := insert ⟨kind, number⟩ s.issued
      returned := insert ⟨kind, number⟩ s.returned })
  | .idle, .revoke kind number =>
    some (.withdrawn (pushed s.registry (revoke kind number s.registry).2),
      { s with registry := (revoke kind number s.registry).2 })
  | .idle, .revokeKind hashOrder kind =>
    some (.withdrawn (pushed s.registry (revokeKind hashOrder kind s.registry).2),
      { s with registry := (revokeKind hashOrder kind s.registry).2 })
  | .withdrawn _, .proceed =>
    some (lookupNext s.registry.withdrawnRemembered,
      { s with registry := (takeWithdrawnRemembered s.registry).2 })
  | .lookup roots, .proceed => some (forgetNext (heldKeys s.store roots), s)
  | .forgetting (key :: keys), .proceed =>
    some (forgetNext keys, { s with store := (forget s.store key).2 })
  | _, _ => none

def started (entries : List (Entry P)) : RecentState P :=
  ⟨⟨.empty, configure entries, [], ∅, ∅, ∅, ∅⟩, fun _ => .idle⟩

def step (s : RecentState P) (thread : ℕ) (action : Action P) : Option (RecentState P) :=
  (advance s.shared (s.calls thread) action).map fun (call, shared) =>
    ⟨shared, Function.update s.calls thread call⟩

/-- Every interleaving of the calls, on a run that starts with `entries`. -/
def recentSystem (entries : List (Entry P)) : System (RecentState P) (ℕ × Action P) where
  initial := started entries
  Step s e t := step s e.1 e.2 = some t

end Sections

section Keyed

variable {r : Registry} {kind : Kind} {number : ℕ}

/-- Every grant is recorded under its own handle. -/
def Keyed (r : Registry) : Prop := ∀ id g, r.grants.get id = some g → g.id = id

theorem keyed_set {id : GrantId} {grant : Grant} {t : Registry} (h : Keyed r) (hid : grant.id = id)
    (hgrants : t.grants = r.grants.set id grant) : Keyed t := by
  intro x g hg
  rw [hgrants, FiniteMap.get_set] at hg
  split at hg
  · rename_i heq
    obtain rfl := Option.some.inj hg
    rw [heq, hid]
  · exact h x g hg

theorem keyed_map {f : Grant → Grant} {t : Registry} (h : Keyed r) (hid : ∀ g, (f g).id = g.id)
    (hgrants : t.grants = r.grants.mapValues f) : Keyed t := by
  intro x g hg
  rw [hgrants, FiniteMap.get_mapValues] at hg
  obtain ⟨g', hg', rfl⟩ := Option.map_eq_some_iff.mp hg
  rw [hid]
  exact h x g' hg'

@[simp] theorem flag_id (p : Grant → Bool) (g : Grant) : (flag p g).id = g.id := by
  unfold flag
  split <;> rfl

@[simp] theorem keep_id (root : GrantId) (g : Grant) : (keep root g).id = g.id := by
  unfold keep
  split <;> rfl

theorem keyed_descendant {rights : Rights} {parent : Grant} (h : Keyed r) :
    Keyed (recordDescendant kind number rights r parent).2 := by
  unfold recordDescendant
  split
  · exact h
  · split
    · exact h
    · refine keyed_set h ?_ rfl
      rfl

theorem keyed_accept {needs : Rights} (h : Keyed r) : Keyed (accept kind number r needs).2 := by
  intro id g hg
  rw [(accept_cases kind number r needs).1] at hg
  exact h id g hg

theorem keyed_release (h : Keyed r) : Keyed (release kind number r) := by
  unfold release
  split
  · intro id g hg
    rw [FiniteMap.get_remove] at hg
    split at hg
    · cases hg
    · exact h id g hg
  · exact h

theorem keyed_remember (h : Keyed r) : Keyed (remember kind number r).2 := by
  rcases (remember_cases kind number r).2 with heq | ⟨root, hgrants⟩
  · rwa [heq]
  · exact keyed_map h (keep_id root) hgrants

theorem remember_id {grant : Grant} (h : Keyed r)
    (hok : (remember kind number r).1 = .ok grant) : grant.id = ⟨kind, number⟩ := by
  unfold remember at hok
  split at hok
  · cases hok
  · rename_i held hheld
    split at hok
    · cases hok
    · split at hok
      · cases hok
      · obtain rfl := Except.ok.inj hok
        exact h _ held hheld

theorem keyed_revoke (h : Keyed r) : Keyed (revoke kind number r).2 := by
  rcases revoke_cases kind number r with ⟨-, heq⟩ | ⟨target, -, -, hgrants⟩
  · rwa [heq]
  · exact keyed_map h (flag_id _) hgrants

theorem keyed_revoke_kind {hashOrder : Enumeration GrantId Grant} (h : Keyed r) :
    Keyed (revokeKind hashOrder kind r).2 :=
  keyed_map h (flag_id fun grant => grant.root.kind = kind) rfl

end Keyed

section Places

variable {P : Type} [DecidableEq P] {s t : Shared P} {call call' : Call P} {action : Action P}

/-- The handle that a call is about to return. -/
def pending : Call P → Option GrantId
  | .choosing id .. => some id
  | .reopenNoting _ id .. => some id
  | .reopening _ id .. => some id
  | _ => none

/-- What a call knows of the root it is for. -/
def Consistent (s : Shared P) : Call P → Prop
  | .choosing id _ path => s.places.get id = some path
  | .reopenNoting _ id _ path => s.places.get id = some path
  | .reopening _ id _ path => s.places.get id = some path
  | .rememberSource grant => grant.id ∈ s.returned
  | .rememberCheck grant _ path => grant.id ∈ s.returned ∧ s.places.get grant.id = some path
  | .rememberCommit grant _ path _ => grant.id ∈ s.returned ∧ s.places.get grant.id = some path
  | _ => True

/-- What the shared state knows of the roots. -/
structure Placed (s : Shared P) : Prop where
  keyed : Keyed s.registry
  sources : ∀ id kind path, s.store.sources.get id = some (kind, path) →
    s.places.get id = some path
  held : ∀ id, (s.store.held.get id).isSome → id ∈ s.returned
  places : ∀ id, (s.places.get id).isSome → id ∈ s.issued
  returned : s.returned ⊆ s.issued

/-- What a section does to the handles, and to the place of each. -/
structure Advances (s t : Shared P) (call call' : Call P) : Prop where
  placed : Placed t
  consistent : Consistent t call'
  issued : s.issued ⊆ t.issued
  returned : s.returned ⊆ t.returned
  once : ∀ id ∈ t.returned, id ∈ s.returned ∨ pending call = some id ∨ id ∉ s.issued
  pending : ∀ id, pending call' = some id → id ∈ t.issued ∧ id ∉ t.returned ∧
    (pending call = some id ∨ id ∉ s.issued)
  places : ∀ id path, s.places.get id = some path → t.places.get id = some path

omit [DecidableEq P] in
theorem sources_noted (h : Placed s) {id : GrantId} {kind : EntryKind} {path : P}
    (hplace : s.places.get id = some path) (x : GrantId) (k : EntryKind) (q : P)
    (hx : (noteSource s.store id kind path).sources.get x = some (k, q)) :
    s.places.get x = some q := by
  rw [noteSource, FiniteMap.get_set] at hx
  split at hx
  · rename_i heq
    cases hx
    rw [heq, hplace]
  · exact h.sources x k q hx

omit [DecidableEq P] in
theorem advances_same (placed : Placed t) (consistent : Consistent t call')
    (hissued : t.issued = s.issued) (hreturned : t.returned = s.returned)
    (hplaces : t.places = s.places) (hpending : pending call' = none) : Advances s t call call' where
  placed := placed
  consistent := consistent
  issued := hissued ▸ Finset.Subset.refl _
  returned := hreturned ▸ Finset.Subset.refl _
  once id h := .inl (hreturned ▸ h)
  pending id h := by cases hpending.symm.trans h
  places id path h := hplaces ▸ h

omit [DecidableEq P] in
theorem advances_recorded (h : Placed s) {kind : Kind} {number : ℕ} {rights : Rights}
    {origin : Origin} {lifetime : Lifetime} {path : P} (hfresh : (⟨kind, number⟩ : GrantId) ∉ s.issued)
    {remembered : Finset GrantId}
    (ht : t = { chooseRoot s kind number rights origin lifetime path with remembered })
    (hconsistent : Consistent t call' ↔ t.places.get ⟨kind, number⟩ = some path)
    (hpending : pending call' = some ⟨kind, number⟩) : Advances s t call call' := by
  subst ht
  have apart {x : GrantId} (hx : x ∈ s.issued) : x ≠ ⟨kind, number⟩ := fun heq => hfresh (heq ▸ hx)
  have other {x : GrantId} (hx : x ∈ s.issued) :
      (s.places.set ⟨kind, number⟩ path).get x = s.places.get x :=
    FiniteMap.get_set_ne _ _ (apart hx)
  have known {x : GrantId} {q : P} (hx : s.places.get x = some q) : x ∈ s.issued :=
    h.places x (Option.isSome_of_eq_some hx)
  have keyed : Keyed (recordRoot kind number rights s.registry origin lifetime) := by
    refine keyed_set h.keyed ?_ rfl
    rfl
  refine ⟨⟨keyed, fun x k q hx => ?_, h.held, fun x hx => ?_, fun x hx => ?_⟩,
    hconsistent.mpr (FiniteMap.get_set_self _ _ _), Finset.subset_insert _ _, Finset.Subset.refl _,
    fun x hx => .inl hx, fun x hx => ?_, fun x q hx => ?_⟩
  · have hq := h.sources x k q hx
    exact (other (known hq)).trans hq
  · by_cases heq : x = ⟨kind, number⟩
    · exact Finset.mem_insert.mpr (.inl heq)
    · have hx : (s.places.get x).isSome := by
        rw [← FiniteMap.get_set_ne s.places path heq]
        exact hx
      exact Finset.mem_insert_of_mem (h.places x hx)
  · exact Finset.mem_insert_of_mem (h.returned hx)
  · obtain rfl := Option.some.inj (hpending.symm.trans hx)
    exact ⟨Finset.mem_insert_self _ _, fun hmem => hfresh (h.returned hmem), .inr hfresh⟩
  · exact (other (known hx)).trans hx

omit [DecidableEq P] in
theorem placed_registry (h : Placed s) {r : Registry} (keyed : Keyed r) (accepted : List Grant)
    (remembered : Finset GrantId) :
    Placed { s with registry := r, accepted, remembered } :=
  ⟨keyed, h.sources, h.held, h.places, h.returned⟩

omit [DecidableEq P] in
theorem placed_store (h : Placed s) {store : Store P}
    (sources : ∀ id x, store.sources.get id = some x → s.store.sources.get id = some x)
    (held : ∀ id, (store.held.get id).isSome → id ∈ s.returned) : Placed { s with store } :=
  ⟨h.keyed, fun id kind path hid => h.sources id kind path (sources id _ hid), held, h.places,
    h.returned⟩

omit [DecidableEq P] in
theorem placed_forget (h : Placed s) (key : ℕ) :
    Placed { s with store := (forget s.store key).2 } := by
  refine placed_store h (fun id x hx => sources_forget s.store key ▸ hx) fun id hid => ?_
  refine h.held id ?_
  unfold forget at hid
  split at hid
  · exact hid
  · obtain ⟨k, hk⟩ := Option.isSome_iff_exists.mp hid
    exact Option.isSome_of_eq_some (FiniteMap.get_retain.mp hk).1

omit [DecidableEq P] in
theorem placed_release (h : Placed s) (id : GrantId) :
    Placed { s with store := releaseSource s.store id } := by
  refine placed_store h (fun x y hx => ?_) fun x hx => ?_
  · rw [releaseSource, FiniteMap.get_remove] at hx
    split at hx
    · cases hx
    · exact hx
  · rw [releaseSource, FiniteMap.get_remove] at hx
    split at hx
    · cases hx
    · exact h.held x hx

theorem placed_commit (h : Placed s) {grant : Grant} {kind : EntryKind} {path : P}
    {identity : Identity} (hreturned : grant.id ∈ s.returned) :
    Placed { s with store := commitRemember s.store grant.id kind path identity grant.origin } := by
  refine placed_store h (fun x y hx => hx) fun x hx => ?_
  by_cases heq : x = grant.id
  · rwa [heq]
  · refine h.held x ?_
    rw [← FiniteMap.get_set_ne s.store.held _ heq]
    exact hx

omit [DecidableEq P] in
theorem advances_returned (h : Placed s) {id : GrantId} {path : P} {kind : EntryKind}
    {store : Store P} (hplace : s.places.get id = some path)
    (sources : store.sources = (noteSource s.store id kind path).sources)
    (held : ∀ x, (store.held.get x).isSome → x = id ∨ (s.store.held.get x).isSome)
    (hissued : id ∈ s.issued) (hpending : pending call = some id) :
    Advances s { s with store, returned := insert id s.returned } call .idle where
  placed := by
    refine ⟨h.keyed, fun x k q hx => sources_noted h hplace x k q (sources ▸ hx), fun x hx => ?_,
      h.places, Finset.insert_subset hissued h.returned⟩
    rcases held x hx with rfl | hx
    · exact Finset.mem_insert_self _ _
    · exact Finset.mem_insert_of_mem (h.held x hx)
  consistent := trivial
  issued := Finset.Subset.refl _
  returned := Finset.subset_insert _ _
  once x hx := by
    rcases Finset.mem_insert.mp hx with rfl | hx
    · exact .inr (.inl hpending)
    · exact .inl hx
  pending x hx := by cases hx
  places x q hx := hx

theorem advance_effect (h : Placed s) (consistent : Consistent s call)
    (unreturned : ∀ id, pending call = some id → id ∈ s.issued ∧ id ∉ s.returned)
    (hrun : advance s call action = some (call', t)) : Advances s t call call' := by
  have idle {r : Registry} {accepted : List Grant} {remembered : Finset GrantId} (keyed : Keyed r)
      (hconsistent : Consistent s call') (hpending : pending call' = none) :
      Advances s { s with registry := r, accepted, remembered } call call' := by
    refine advances_same (placed_registry h keyed _ _) ?_ rfl rfl rfl hpending
    cases call' <;> exact hconsistent
  have stored {store : Store P} (hplaced : Placed { s with store })
      (hconsistent : Consistent s call') (hpending : pending call' = none) :
      Advances s { s with store } call call' := by
    refine advances_same hplaced ?_ rfl rfl rfl hpending
    cases call' <;> exact hconsistent
  have same (hconsistent : Consistent s call') (hpending : pending call' = none) :
      Advances s s call call' := advances_same h hconsistent rfl rfl rfl hpending
  have counted {counters : Counters} : Placed { s with store.counters := counters } :=
    placed_store h (fun _ _ hx => hx) h.held
  cases call with
  | idle =>
    cases action with
    | choose kind number rights origin entryKind path =>
      simp only [advance] at hrun
      split at hrun
      · cases hrun
      · rename_i hfresh
        cases hrun
        exact advances_recorded h hfresh rfl Iff.rfl rfl
    | reopen key entryKind =>
      simp only [advance] at hrun
      split at hrun <;> cases hrun <;> exact same trivial rfl
    | remember kind number =>
      simp only [advance] at hrun
      split at hrun
      · cases hrun
      · rename_i hreturned
        split at hrun
        · rename_i grant hok
          cases hrun
          refine idle (keyed_remember h.keyed) ?_ rfl
          change grant.id ∈ s.returned
          rw [remember_id h.keyed hok]
          exact not_not.mp hreturned
        · cases hrun
          exact same trivial rfl
    | release kind number =>
      cases hrun
      exact idle (keyed_release h.keyed) trivial rfl
    | forget key =>
      cases hrun
      exact stored (placed_forget h key) trivial rfl
    | accept kind number needs =>
      cases hrun
      exact idle (keyed_accept h.keyed) trivial rfl
    | derive kind number rights parent =>
      simp only [advance] at hrun
      split at hrun
      · cases hrun
      · rename_i hfresh
        rw [not_or] at hfresh
        cases hrun
        refine ⟨⟨keyed_descendant h.keyed, h.sources, fun x hx => ?_, fun x hx => ?_, ?_⟩, trivial,
          Finset.subset_insert _ _, Finset.subset_insert _ _, fun x hx => ?_,
          (fun x hx => nomatch hx), fun x q hx => hx⟩
        · exact Finset.mem_insert_of_mem (h.held x hx)
        · exact Finset.mem_insert_of_mem (h.places x hx)
        · exact Finset.insert_subset_insert _ h.returned
        · rcases Finset.mem_insert.mp hx with rfl | hx
          · exact .inr (.inr hfresh.1)
          · exact .inl hx
    | revoke kind number =>
      cases hrun
      exact idle (keyed_revoke h.keyed) trivial rfl
    | revokeKind hashOrder kind =>
      cases hrun
      exact idle (keyed_revoke_kind h.keyed) trivial rfl
    | _ => cases hrun
  | choosing id kind path =>
    cases action <;> cases hrun
    exact advances_returned h consistent rfl (fun x hx => .inr hx) (unreturned id rfl).1 rfl
  | reopenChecking key kind entry =>
    cases action with
    | checked outcome => cases outcome <;> cases hrun <;> exact same trivial rfl
    | _ => cases hrun
  | reopenRefused =>
    cases action <;> cases hrun
    exact stored counted trivial rfl
  | reopenRecording key entryKind entry =>
    cases action with
    | abandon =>
      cases hrun
      exact same trivial rfl
    | record kind number rights =>
      simp only [advance] at hrun
      split at hrun
      · cases hrun
      · rename_i hfresh
        cases hrun
        exact advances_recorded h hfresh rfl Iff.rfl rfl
    | _ => cases hrun
  | reopenNoting key id kind path =>
    cases action <;> cases hrun
    refine ⟨⟨h.keyed, sources_noted h consistent, h.held, h.places, h.returned⟩, consistent,
      Finset.Subset.refl _, Finset.Subset.refl _, fun x hx => .inl hx, fun x hx => ?_,
      fun x q hx => hx⟩
    exact ⟨(unreturned x hx).1, (unreturned x hx).2, .inl hx⟩
  | reopening key id kind path =>
    cases action <;> cases hrun
    refine advances_returned h consistent rfl (fun x hx => ?_) (unreturned id rfl).1 rfl
    by_cases heq : x = id
    · exact .inl heq
    · refine .inr ?_
      rw [← FiniteMap.get_set_ne s.store.held key heq]
      exact hx
  | rememberSource grant =>
    cases action with
    | proceed =>
      simp only [advance] at hrun
      split at hrun
      · cases hrun
        exact same trivial rfl
      · rename_i kind path hsource
        cases hrun
        exact same ⟨consistent, h.sources _ _ _ hsource⟩ rfl
    | _ => cases hrun
  | rememberCheck grant kind path =>
    cases action with
    | metadata outcome =>
      cases outcome <;> cases hrun
      · exact same trivial rfl
      · exact same consistent rfl
    | _ => cases hrun
  | rememberCommit grant kind path identity =>
    cases action <;> cases hrun
    exact stored (placed_commit h consistent.1) trivial rfl
  | rememberCount outcome =>
    cases action with
    | proceed =>
      simp only [advance, countRemember] at hrun
      split at hrun <;> cases hrun <;> exact stored counted trivial rfl
    | _ => cases hrun
  | releasing id =>
    cases action <;> cases hrun
    exact stored (placed_release h id) trivial rfl
  | withdrawn roots =>
    cases action <;> cases hrun
    refine idle h.keyed ?_ ?_ <;> cases s.registry.withdrawnRemembered <;> first | rfl | trivial
  | lookup roots =>
    cases action <;> cases hrun
    refine same ?_ ?_ <;> cases heldKeys s.store roots <;> first | rfl | trivial
  | forgetting keys =>
    cases keys with
    | nil => cases action <;> cases hrun
    | cons key keys =>
      cases action <;> cases hrun
      refine stored (placed_forget h key) ?_ ?_ <;> cases keys <;> first | rfl | trivial

end Places

section Runs

variable {P : Type} [DecidableEq P] {s t : RecentState P} {thread : ℕ} {action : Action P}

/-- What holds between any two sections: no handle is returned by two calls. -/
structure Tidy (s : RecentState P) : Prop where
  placed : Placed s.shared
  calls : ∀ i, Consistent s.shared (s.calls i)
  unreturned : ∀ i id, pending (s.calls i) = some id →
    id ∈ s.shared.issued ∧ id ∉ s.shared.returned
  once : ∀ i j id, pending (s.calls i) = some id → pending (s.calls j) = some id → i = j

theorem step_cases (h : step s thread action = some t) : ∃ call,
    advance s.shared (s.calls thread) action = some (call, t.shared) ∧
      t.calls = Function.update s.calls thread call := by
  obtain ⟨⟨call, shared⟩, hadvance, rfl⟩ := Option.map_eq_some_iff.mp h
  exact ⟨call, hadvance, rfl⟩

omit [DecidableEq P] in
theorem consistent_mono {x y : Shared P} {call : Call P} (h : Consistent x call)
    (returned : x.returned ⊆ y.returned)
    (places : ∀ id path, x.places.get id = some path → y.places.get id = some path) :
    Consistent y call := by
  cases call with
  | choosing | reopenNoting | reopening => exact places _ _ h
  | rememberSource => exact returned h
  | rememberCheck | rememberCommit => exact ⟨returned h.1, places _ _ h.2⟩
  | _ => trivial

theorem step_tidy (h : Tidy s) (hstep : step s thread action = some t) : Tidy t := by
  obtain ⟨call, hadvance, hcalls⟩ := step_cases hstep
  have e := advance_effect h.placed (h.calls thread) (h.unreturned thread) hadvance
  have here : t.calls thread = call := by rw [hcalls, Function.update_self]
  have other {i : ℕ} (hi : i ≠ thread) : t.calls i = s.calls i := by
    rw [hcalls, Function.update_of_ne hi]
  -- what another call is about to return is neither new nor this call's
  have apart {i : ℕ} {id : GrantId} (hi : i ≠ thread) (hid : pending (s.calls i) = some id) :
      pending call ≠ some id := by
    intro heq
    rcases (e.pending id heq).2.2 with hsame | hnew
    · exact hi (h.once i thread id hid hsame)
    · exact hnew (h.unreturned i id hid).1
  refine ⟨e.placed, fun i => ?_, fun i id hid => ?_, fun i j id hi hj => ?_⟩
  · by_cases hi : i = thread
    · rw [hi, here]
      exact e.consistent
    · rw [other hi]
      exact consistent_mono (h.calls i) e.returned e.places
  · by_cases hi : i = thread
    · rw [hi, here] at hid
      exact ⟨(e.pending id hid).1, (e.pending id hid).2.1⟩
    · rw [other hi] at hid
      obtain ⟨hissued, hreturned⟩ := h.unreturned i id hid
      refine ⟨e.issued hissued, fun hnow => ?_⟩
      rcases e.once id hnow with hbefore | hsame | hnew
      · exact hreturned hbefore
      · exact hi (h.once i thread id hid hsame)
      · exact hnew hissued
  · by_cases hi' : i = thread
    · by_cases hj' : j = thread
      · rw [hi', hj']
      · rw [hi', here] at hi
        rw [other hj'] at hj
        exact absurd hi (apart hj' hj)
    · rw [other hi'] at hi
      by_cases hj' : j = thread
      · rw [hj', here] at hj
        exact absurd hj (apart hi' hi)
      · rw [other hj'] at hj
        exact h.once i j id hi hj

omit [DecidableEq P] in
theorem tidy_started (entries : List (Entry P)) : Tidy (started entries) := by
  refine ⟨⟨fun id g hg => ?_, fun id kind path hid => ?_, fun id hid => ?_, fun id hid => ?_,
    Finset.Subset.refl _⟩, fun i => trivial, (fun i id hid => nomatch hid),
    fun i j id hid => nomatch hid⟩
  · simp [started, Registry.empty] at hg
  · simp [started, configure] at hid
  · simp [started, configure] at hid
  · simp [started] at hid

theorem reachable_tidy {entries : List (Entry P)} (h : Reachable (recentSystem entries) s) :
    Tidy s :=
  reachable_invariant (S := recentSystem entries) (P := Tidy) (tidy_started entries)
    (fun _ _ _ tidy hstep => step_tidy tidy hstep) h

end Runs

end RecentRuns
