import RocGui.KeyedListings

/-! The component registry: which boundary instance stands for a component, and what a commit
makes of the choices of a render once the graph has accepted its patch. -/
namespace ComponentRegistries

open FiniteMaps Methods GraphState GraphPatches

abbrev Digest := { bytes : List UInt8 // bytes.length = 32 }

inductive ComponentKey where
  | unkeyed (instanceId : ℕ)
  | digest (digest : Digest)
  deriving DecidableEq

structure ComponentLocation where
  scope : ElementIdentity
  key : ComponentKey
  deriving DecidableEq

structure ComponentMount where
  instanceId : ℕ
  root : ℕ
  deriving DecidableEq

inductive ScopeKind where
  | render | native | component
  deriving DecidableEq

structure ComponentScope where
  identity : ElementIdentity
  occurrences : Occurrences
  kind : ScopeKind

structure ComponentRegistry where
  nextInstance : ℕ
  live : FiniteMap ComponentLocation ComponentMount
  instances : FiniteMap ℕ ComponentLocation
  pending : FiniteMap ComponentLocation ComponentMount
  pendingInstances : Finset ℕ
  seen : Finset ComponentLocation
  /-- The innermost scope first. -/
  scopes : List ComponentScope
  rendering : Bool

/-- Instance zero is the permanent application root. -/
def ComponentRegistry.initial : ComponentRegistry := ⟨1, ∅, ∅, ∅, ∅, ∅, [], false⟩

abbrev RegistryMethod := Method ComponentRegistry String

def maxStagedNodes : ℕ := 1048576

section Calls

def pushScope (identity : ElementIdentity) (kind : ScopeKind) : RegistryMethod Unit :=
  modify fun r => { r with scopes := ⟨identity, ∅, kind⟩ :: r.scopes }

def beginRender (owner : ℕ) : RegistryMethod Unit := do
  let r ← get
  if r.rendering ∨ r.pending ≠ ∅ then
    refuse "component render began before its preceding transaction committed"
  if owner ≠ 0 ∧ r.instances.get owner = none then
    refuse ("component render owner " ++ toString owner ++ " is not mounted")
  modify fun r => { r with rendering := true }
  pushScope [.boundary owner] .render

/-- The segment of a native scope, and its parent's counts with it. Counting up may fail when
the entry has been made. -/
def enterSegment (parent : ComponentScope) (outer : List ComponentScope) (tag : ℕ) (label : String)
    (position : ℕ) : RegistryMethod IdentitySegment :=
  if label = "" then return .positional tag position
  else do
    let occurrence := (parent.occurrences.get (tag, label)).getD 0
    modify fun r => { r with scopes :=
      { parent with occurrences := parent.occurrences.set (tag, label) occurrence } :: outer }
    if 2 ^ 32 ≤ occurrence + 1 then refuse "native scope occurrence overflow"
    modify fun r => { r with scopes :=
      { parent with occurrences := parent.occurrences.set (tag, label) (occurrence + 1) } :: outer }
    return .named tag label occurrence

def scopeEnter (tag : ℕ) (label : String) (position : ℕ) : RegistryMethod Unit := do
  if 15 ≤ tag then refuse "native scope has invalid kind"
  let r ← get
  if maxStagedNodes ≤ r.scopes.length then
    refuse "component scope nesting exceeds native tree limit"
  match r.scopes with
  | [] => refuse "native scope entered outside a render"
  | parent :: outer => do
    let segment ← enterSegment parent outer tag label position
    pushScope (parent.identity ++ [segment]) .native

def exitScope (kind : ScopeKind) : RegistryMethod Unit := do
  let r ← get
  match r.scopes with
  | scope :: outer =>
    if scope.kind = kind then modify fun r => { r with scopes := outer }
    else refuse "mismatched component/native scope exit"
  | [] => refuse "mismatched component/native scope exit"

def scopeExit : RegistryMethod Unit := exitScope .native

def componentExit : RegistryMethod Unit := exitScope .component

/-- An unkeyed component is one that no other is. -/
def componentKey (nextInstance keyKind : ℕ) (keyDigest : List UInt8) :
    Except (Failure String) ComponentKey :=
  match keyKind with
  | 0 =>
    if keyDigest = [] then .ok (.unkeyed nextInstance)
    else .error (.error "unkeyed boundary must have an empty digest")
  | 1 =>
    if h : keyDigest.length = 32 then .ok (.digest ⟨keyDigest, h⟩)
    else .error (.error "component key digest must contain exactly 32 bytes")
  | _ => .error (.error "invalid component key kind")

def mountFor (location : ComponentLocation) : RegistryMethod ComponentMount := do
  let r ← get
  match r.live.get location with
  | some mount => return mount
  | none => do
    if 2 ^ 64 ≤ r.nextInstance + 1 then refuse "component instance space exhausted"
    modify fun r => { r with nextInstance := r.nextInstance + 1 }
    return ⟨r.nextInstance, 0⟩

def resolve (keyKind : ℕ) (keyDigest : List UInt8) : RegistryMethod (ℕ × ℕ) := do
  let r ← get
  let key ← MonadExcept.ofExcept (componentKey r.nextInstance keyKind keyDigest)
  match r.scopes with
  | [] => refuse "component resolved outside a render"
  | scope :: _ => do
    let location : ComponentLocation := ⟨scope.identity, key⟩
    if location ∈ r.seen then
      refuse "duplicate component key in one structural parent scope"
    modify fun r => { r with seen := insert location r.seen }
    let mount ← mountFor location
    modify fun r => { r with
      pendingInstances := insert mount.instanceId r.pendingInstances
      pending := r.pending.set location mount }
    return (mount.instanceId, mount.root)

def componentEnter (instanceId : ℕ) : RegistryMethod Unit := do
  let r ← get
  if r.scopes = [] ∨ instanceId ∉ r.pendingInstances then
    refuse ("component " ++ toString instanceId ++ " was not resolved in this render")
  if maxStagedNodes ≤ r.scopes.length then
    refuse "component scope nesting exceeds native tree limit"
  pushScope [.boundary instanceId] .component

def finishRender : RegistryMethod Unit := do
  let r ← get
  if r.rendering then
    if r.scopes.map (·.kind) = [.render] then modify fun r => { r with scopes := [] }
    else refuse "component render committed with unfinished scopes"

def abort (r : ComponentRegistry) : ComponentRegistry :=
  { r with pending := ∅, pendingInstances := ∅, seen := ∅, scopes := [], rendering := false }

variable {K : Type}

def boundaryRoot (g : MountedGraph K) (instanceId : ℕ) : Option ℕ := g.boundaryInstances.get instanceId

def unregister (g : MountedGraph K) (r : ComponentRegistry) (instanceId : ℕ) : ComponentRegistry :=
  if boundaryRoot g instanceId = none then
    match r.instances.get instanceId with
    | some location => { r with
        instances := r.instances.remove instanceId
        live := r.live.remove location }
    | none => r
  else r

/-- A choice of the render counts when its instance is mounted. -/
def register (g : MountedGraph K) (r : ComponentRegistry)
    (choice : ComponentLocation × ComponentMount) : ComponentRegistry :=
  match boundaryRoot g choice.2.instanceId with
  | some root => { r with
      instances := r.instances.set choice.2.instanceId choice.1
      live := r.live.set choice.1 { choice.2 with root } }
  | none => r

def refresh (g : MountedGraph K) (instanceId : ℕ) : RegistryMethod Unit := do
  let r ← get
  match (r.instances.get instanceId).bind fun location => (r.live.get location).map (location, ·) with
  | some (location, mount) => do
    let root ← expect "staged component is mounted" (boundaryRoot g instanceId)
    modify fun r => { r with live := r.live.set location { mount with root } }
  | none => return ()

/-- The choices are taken in whatever order their table has. -/
def commit (hashOrder : Enumeration ComponentLocation ComponentMount) (g : MountedGraph K)
    (a : GraphApply K) : RegistryMethod Unit := do
  modify fun r => a.removedInstances.foldl (unregister g) r
  let pending := (← get).pending
  modify fun r => (hashOrder.entries pending).foldl (register g) { r with pending := ∅ }
  a.stagedInstances.forM (refresh g)
  modify abort

end Calls

section Consistency

variable {r r' : ComponentRegistry}

/-- The two tables say the same of every instance. -/
def Paired (r : ComponentRegistry) : Prop := ∀ i location, r.instances.get i = some location ↔
  ∃ root, r.live.get location = some ⟨i, root⟩

structure Issued (nextInstance : ℕ) (location : ComponentLocation) (mount : ComponentMount) : Prop where
  earlier : mount.instanceId < nextInstance
  own : ∀ n, location.key = .unkeyed n → n = mount.instanceId

/-- A choice of the render: what the location has already, or an instance no location has. -/
def Choosable (r : ComponentRegistry) (location : ComponentLocation) (mount : ComponentMount) : Prop :=
  r.live.get location = some mount ∨
    r.live.get location = none ∧ mount.root = 0 ∧ r.instances.get mount.instanceId = none

structure Consistent (r : ComponentRegistry) : Prop where
  paired : Paired r
  live : ∀ location mount, r.live.get location = some mount → Issued r.nextInstance location mount
  pending : ∀ location mount, r.pending.get location = some mount →
    Issued r.nextInstance location mount ∧ location ∈ r.seen ∧ Choosable r location mount
  chosen : ∀ i, i ∈ r.pendingInstances ↔ ∃ location root, r.pending.get location = some ⟨i, root⟩
  apart : ∀ i location location' root root', r.pending.get location = some ⟨i, root⟩ →
    r.pending.get location' = some ⟨i, root'⟩ → location = location'

theorem issued_later {n m : ℕ} {location : ComponentLocation} {mount : ComponentMount} (le : n ≤ m)
    (h : Issued n location mount) : Issued m location mount :=
  ⟨h.earlier.trans_le le, h.own⟩

theorem consistent_initial : Consistent .initial := by
  constructor
  · intro i location
    simp [ComponentRegistry.initial]
  · intro location mount h
    cases h
  · intro location mount h
    cases h
  · intro i
    simp [ComponentRegistry.initial]
  · intro i location location' root root' h
    cases h

theorem consistent_abort (c : Consistent r) : Consistent (abort r) := by
  refine ⟨c.paired, c.live, fun location mount h => ?_, fun i => ?_,
    fun i location location' root root' h => ?_⟩
  · cases h
  · simp [abort]
  · cases h

theorem consistent_scopes (c : Consistent r) (scopes : List ComponentScope) (rendering : Bool) :
    Consistent { r with scopes := scopes, rendering := rendering } :=
  ⟨c.paired, c.live, c.pending, c.chosen, c.apart⟩

/-- What `resolve` has done to the registry when it answers. -/
structure Resolved (r r' : ComponentRegistry) (location : ComponentLocation) (mount : ComponentMount) :
    Prop where
  unseen : location ∉ r.seen
  own : ∀ n, location.key = .unkeyed n → n = r.nextInstance
  mounted : r.live.get location = some mount ∧ r'.nextInstance = r.nextInstance ∨
    r.live.get location = none ∧ mount = ⟨r.nextInstance, 0⟩ ∧ r'.nextInstance = r.nextInstance + 1
  live : r'.live = r.live
  instances : r'.instances = r.instances
  pending : r'.pending = r.pending.set location mount
  chosen : r'.pendingInstances = insert mount.instanceId r.pendingInstances
  seen : r'.seen = insert location r.seen
  scopes : r'.scopes = r.scopes

theorem own_key {keyKind n next : ℕ} {keyDigest : List UInt8} {key : ComponentKey}
    (h : componentKey next keyKind keyDigest = .ok key) (hn : key = .unkeyed n) : n = next := by
  unfold componentKey at h
  split at h
  · split at h
    · rw [hn] at h
      exact (ComponentKey.unkeyed.inj (Except.ok.inj h)).symm
    · cases h
  · split at h
    · rw [hn] at h
      cases h
    · cases h
  · cases h

def note (location : ComponentLocation) (mount : ComponentMount) (nextInstance : ℕ)
    (r : ComponentRegistry) : ComponentRegistry := { r with
  nextInstance
  seen := insert location r.seen
  pendingInstances := insert mount.instanceId r.pendingInstances
  pending := r.pending.set location mount }

theorem resolve_cases (r : ComponentRegistry) (keyKind : ℕ) (keyDigest : List UInt8) :
    (∃ e seen, r.seen ⊆ seen ∧ (resolve keyKind keyDigest).run r = .error e { r with seen := seen }) ∨
    ∃ scope key mount r', r.scopes.head? = some scope ∧
      componentKey r.nextInstance keyKind keyDigest = .ok key ∧
      (resolve keyKind keyDigest).run r = .ok (mount.instanceId, mount.root) r' ∧
      Resolved r r' ⟨scope.identity, key⟩ mount := by
  obtain ⟨next, live, instances, pending, chosen, seen, scopes, rendering⟩ := r
  cases hk : componentKey next keyKind keyDigest with
  | error e =>
    refine .inl ⟨e, seen, subset_rfl, ?_⟩
    simp [resolve, hk]
  | ok key =>
    cases scopes with
    | nil =>
      refine .inl ⟨.error "component resolved outside a render", seen, subset_rfl, ?_⟩
      simp [resolve, hk]
    | cons scope outer =>
      have own (n : ℕ) (hn : key = .unkeyed n) : n = next := own_key hk hn
      by_cases hseen : (⟨scope.identity, key⟩ : ComponentLocation) ∈ seen
      · refine .inl ⟨.error "duplicate component key in one structural parent scope", seen, subset_rfl, ?_⟩
        simp [resolve, hk, hseen]
      · cases hl : live.get ⟨scope.identity, key⟩ with
        | some mount =>
          refine .inr ⟨scope, key, mount, note ⟨scope.identity, key⟩ mount next _, rfl, rfl, ?_,
            hseen, own, .inl ⟨hl, rfl⟩, rfl, rfl, rfl, rfl, rfl, rfl⟩
          simp [-bind_pure_comp, resolve, hk, hseen, mountFor, hl, note]
        | none =>
          by_cases hfull : 2 ^ 64 ≤ next + 1
          · refine .inl ⟨.error "component instance space exhausted", insert ⟨scope.identity, key⟩ seen,
              Finset.subset_insert _ _, ?_⟩
            have hfull : 18446744073709551615 ≤ next := by omega
            simp [-bind_pure_comp, resolve, hk, hseen, mountFor, hl, hfull]
          · refine .inr ⟨scope, key, ⟨next, 0⟩, note ⟨scope.identity, key⟩ ⟨next, 0⟩ (next + 1) _, rfl, rfl,
              ?_, hseen, own, .inr ⟨hl, rfl, rfl⟩, rfl, rfl, rfl, rfl, rfl, rfl⟩
            have hfull : ¬18446744073709551615 ≤ next := by omega
            simp [-bind_pure_comp, resolve, hk, hseen, mountFor, hl, hfull, note]

theorem consistent_resolved {location : ComponentLocation} {mount : ComponentMount} (c : Consistent r)
    (h : Resolved r r' location mount) : Consistent r' := by
  have le : r.nextInstance ≤ r'.nextInstance := by
    rcases h.mounted with ⟨-, hnext⟩ | ⟨-, -, hnext⟩ <;> omega
  have unchosen : r.pending.get location = none := by
    rw [Option.eq_none_iff_forall_ne_some]
    intro own hown
    exact h.unseen (c.pending location own hown).2.1
  have unnamed (n : ℕ) (l : ComponentLocation) (hn : r.nextInstance ≤ n) :
      r.instances.get n ≠ some l := by
    intro hl
    obtain ⟨root, hroot⟩ := (c.paired n l).mp hl
    exact absurd (c.live l _ hroot).earlier (not_lt.mpr hn)
  have chosen : Issued r'.nextInstance location mount ∧ Choosable r location mount := by
    rcases h.mounted with ⟨hlive, hnext⟩ | ⟨hnone, rfl, hnext⟩
    · exact ⟨issued_later le (c.live location mount hlive), .inl hlive⟩
    · refine ⟨⟨by rw [hnext]; exact Nat.lt_succ_self _, fun n hn => h.own n hn⟩,
        .inr ⟨hnone, rfl, ?_⟩⟩
      exact Option.eq_none_iff_forall_ne_some.mpr fun l => unnamed _ l le_rfl
  -- no other location was given the instance in this render
  have other {l : ComponentLocation} {root : ℕ}
      (hl : r.pending.get l = some ⟨mount.instanceId, root⟩) : l = location := by
    obtain ⟨hissued, -, hchoice⟩ := c.pending l _ hl
    rcases h.mounted with ⟨hlive, -⟩ | ⟨-, rfl, -⟩
    · have hinstance := (c.paired mount.instanceId location).mpr ⟨mount.root, hlive⟩
      rcases hchoice with hown | ⟨-, -, hnone⟩
      · have hinstance' := (c.paired mount.instanceId l).mpr ⟨root, hown⟩
        exact Option.some.inj (hinstance'.symm.trans hinstance)
      · rw [hnone] at hinstance
        cases hinstance
    · exact absurd hissued.earlier (lt_irrefl _)
  constructor
  · intro i l
    rw [h.instances, h.live]
    exact c.paired i l
  · intro l m hm
    rw [h.live] at hm
    exact issued_later le (c.live l m hm)
  · intro l m hm
    rw [h.pending, FiniteMap.get_set] at hm
    rw [h.seen, Choosable, h.live, h.instances]
    split at hm
    · rename_i hl
      obtain rfl := Option.some.inj hm
      rw [hl]
      exact ⟨chosen.1, Finset.mem_insert_self _ _, chosen.2⟩
    · obtain ⟨hissued, hseen, hchoice⟩ := c.pending l m hm
      exact ⟨issued_later le hissued, Finset.mem_insert_of_mem hseen, hchoice⟩
  · intro i
    rw [h.chosen, h.pending, Finset.mem_insert, c.chosen]
    constructor
    · rintro (rfl | ⟨l, root, hl⟩)
      · exact ⟨location, mount.root, FiniteMap.get_set_self ..⟩
      · refine ⟨l, root, ?_⟩
        rw [FiniteMap.get_set_ne]
        · exact hl
        · rintro rfl
          rw [unchosen] at hl
          cases hl
    · rintro ⟨l, root, hl⟩
      rw [FiniteMap.get_set] at hl
      split at hl
      · exact .inl (congrArg ComponentMount.instanceId (Option.some.inj hl)).symm
      · exact .inr ⟨l, root, hl⟩
  · intro i l l' root root' hl hl'
    rw [h.pending, FiniteMap.get_set] at hl hl'
    split at hl
    · rename_i heq
      split at hl'
      · rename_i heq'
        exact heq.trans heq'.symm
      · obtain rfl := Option.some.inj hl
        exact heq.trans (other hl').symm
    · split at hl'
      · rename_i heq'
        obtain rfl := Option.some.inj hl'
        exact (other hl).trans heq'.symm
      · exact c.apart i l l' root root' hl hl'

theorem preserves_resolve (keyKind : ℕ) (keyDigest : List UInt8) :
    Preserves Consistent (resolve keyKind keyDigest) := by
  intro r c
  rcases resolve_cases r keyKind keyDigest with ⟨e, seen, hseen, hrun⟩ |
    ⟨scope, key, mount, r', -, -, hrun, h⟩
  · rw [hrun]
    refine ⟨c.paired, c.live, fun location mount hm => ?_, c.chosen, c.apart⟩
    obtain ⟨hissued, hmem, hchoice⟩ := c.pending location mount hm
    exact ⟨hissued, hseen hmem, hchoice⟩
  · rw [hrun]
    exact consistent_resolved c h

end Consistency

section Scopes

variable {P : ComponentRegistry → Prop} (unscoped : ∀ (r : ComponentRegistry) (scopes : List ComponentScope)
  (rendering : Bool), P r → P { r with scopes := scopes, rendering := rendering })

theorem preserves_guard {m : RegistryMethod Unit} {check : Prop} [Decidable check] (reason : String)
    (h : Preserves P m) : Preserves P (if check then (do refuse reason; m) else m) := by
  split
  · exact preserves_bind (preserves_throw _) fun _ => h
  · exact h

include unscoped

theorem preserves_push (identity : ElementIdentity) (kind : ScopeKind) :
    Preserves P (pushScope identity kind) :=
  preserves_modify fun r h => unscoped r (⟨identity, ∅, kind⟩ :: r.scopes) r.rendering h

theorem preserves_begin (owner : ℕ) : Preserves P (beginRender owner) := by
  refine preserves_bind preserves_get fun r => ?_
  have start : Preserves P (do
      modify fun r : ComponentRegistry => { r with rendering := true }
      pushScope [.boundary owner] .render) :=
    preserves_bind (preserves_modify fun r h => unscoped r r.scopes true h) fun _ =>
      preserves_push unscoped _ _
  exact preserves_guard _ (preserves_guard _ start)

theorem preserves_segment (parent : ComponentScope) (outer : List ComponentScope) (tag : ℕ)
    (label : String) (position : ℕ) : Preserves P (enterSegment parent outer tag label position) := by
  unfold enterSegment
  have counted (occurrence : ℕ) : Preserves P (modify fun r : ComponentRegistry => { r with scopes :=
      { parent with occurrences := parent.occurrences.set (tag, label) occurrence } :: outer } :
        RegistryMethod PUnit) :=
    preserves_modify fun r h => unscoped r _ r.rendering h
  split
  · exact preserves_pure _
  · refine preserves_bind (counted _) fun _ => ?_
    dsimp only
    split
    · exact preserves_bind (preserves_throw _) fun _ => preserves_bind (counted _) fun _ => preserves_pure _
    · exact preserves_bind (counted _) fun _ => preserves_pure _

theorem preserves_enter (tag : ℕ) (label : String) (position : ℕ) :
    Preserves P (scopeEnter tag label position) := by
  have entered (r : ComponentRegistry) : Preserves P (match r.scopes with
      | [] => refuse "native scope entered outside a render"
      | parent :: outer => do
        let segment ← enterSegment parent outer tag label position
        pushScope (parent.identity ++ [segment]) .native) := by
    split
    · exact preserves_throw _
    · exact preserves_bind (preserves_segment unscoped _ _ _ _ _) fun _ => preserves_push unscoped _ _
  exact preserves_guard _ (preserves_bind preserves_get fun r => preserves_guard _ (entered r))

theorem preserves_exit (kind : ScopeKind) : Preserves P (exitScope kind) := by
  refine preserves_bind preserves_get fun r => ?_
  split
  · split
    · exact preserves_modify fun r h => unscoped r _ r.rendering h
    · exact preserves_throw _
  · exact preserves_throw _

theorem preserves_component_enter (instanceId : ℕ) : Preserves P (componentEnter instanceId) :=
  preserves_bind preserves_get fun _ => preserves_guard _ (preserves_guard _ (preserves_push unscoped _ _))

theorem preserves_finish : Preserves P finishRender := by
  refine preserves_bind preserves_get fun r => ?_
  split
  · split
    · exact preserves_modify fun r h => unscoped r _ r.rendering h
    · exact preserves_throw _
  · exact preserves_pure _

end Scopes

section Committing

variable {K : Type} {g : MountedGraph K} {r r' : ComponentRegistry}

/-- What taking instances out of the tables leaves. -/
structure Unregistered (g : MountedGraph K) (r r' : ComponentRegistry) (gone : List ℕ) : Prop where
  paired : Paired r'
  live : ∀ location mount, r'.live.get location = some mount ↔ r.live.get location = some mount ∧
    ¬(mount.instanceId ∈ gone ∧ boundaryRoot g mount.instanceId = none)
  pending : r'.pending = r.pending
  next : r'.nextInstance = r.nextInstance

theorem unregister_one (p : Paired r) (i : ℕ) : Unregistered g r (unregister g r i) [i] := by
  unfold unregister
  split
  · rename_i hroot
    cases hi : r.instances.get i with
    | none =>
      refine ⟨p, fun location mount => (and_iff_left_of_imp fun hm => ?_).symm, rfl, rfl⟩
      rintro ⟨hmem, -⟩
      obtain rfl := List.mem_singleton.mp hmem
      rw [(p mount.instanceId location).mpr ⟨mount.root, hm⟩] at hi
      cases hi
    | some own =>
      have hown := (p i own).mp hi
      refine ⟨fun j location => ?_, fun location mount => ?_, rfl, rfl⟩
      · dsimp only
        rw [FiniteMap.get_remove, FiniteMap.get_remove]
        by_cases hj : j = i
        · rw [if_pos hj, hj]
          constructor
          · intro h
            cases h
          · rintro ⟨root, hroot⟩
            split at hroot
            · cases hroot
            · rename_i hne
              exact absurd (Option.some.inj (((p i location).mpr ⟨root, hroot⟩).symm.trans hi)) hne
        · rw [if_neg hj, p]
          by_cases hl : location = own
          · rw [if_pos hl, hl]
            obtain ⟨root, hroot⟩ := hown
            constructor
            · rintro ⟨root', hroot'⟩
              rw [hroot] at hroot'
              exact absurd (congrArg ComponentMount.instanceId (Option.some.inj hroot')).symm hj
            · rintro ⟨root', hroot'⟩
              cases hroot'
          · rw [if_neg hl]
      · dsimp only
        rw [FiniteMap.get_remove, List.mem_singleton]
        by_cases hl : location = own
        · rw [if_pos hl, hl]
          obtain ⟨root, hroot'⟩ := hown
          constructor
          · intro h
            cases h
          · rintro ⟨hm, hkept⟩
            obtain rfl := Option.some.inj (hroot'.symm.trans hm)
            exact absurd ⟨rfl, hroot⟩ hkept
        · rw [if_neg hl]
          refine (and_iff_left_of_imp fun hm => ?_).symm
          rintro ⟨rfl, -⟩
          exact hl (Option.some.inj (((p _ location).mpr ⟨mount.root, hm⟩).symm.trans hi))
  · rename_i hroot
    refine ⟨p, fun location mount => (and_iff_left fun hgone => hroot ?_).symm, rfl, rfl⟩
    rw [← List.mem_singleton.mp hgone.1]
    exact hgone.2

theorem unregister_all (p : Paired r) (gone : List ℕ) :
    Unregistered g r (gone.foldl (unregister g) r) gone := by
  induction gone generalizing r with
  | nil => exact ⟨p, by simp, rfl, rfl⟩
  | cons i rest ih =>
    have one := unregister_one (g := g) p i
    have all := ih one.paired
    refine ⟨all.paired, fun location mount => ?_, all.pending.trans one.pending, all.next.trans one.next⟩
    rw [List.foldl_cons, all.live, one.live, List.mem_singleton, List.mem_cons, and_assoc, ← not_or,
      ← or_and_right]

/-- What taking choices into the tables leaves. -/
structure Registered (g : MountedGraph K) (r r' : ComponentRegistry)
    (choices : List (ComponentLocation × ComponentMount)) : Prop where
  paired : Paired r'
  live : ∀ location mount, r'.live.get location = some mount ↔
    (∃ root, (location, (⟨mount.instanceId, root⟩ : ComponentMount)) ∈ choices) ∧
        boundaryRoot g mount.instanceId = some mount.root ∨
      r.live.get location = some mount ∧
        ∀ choice ∈ choices, boundaryRoot g choice.2.instanceId ≠ none → choice.1 ≠ location
  next : r'.nextInstance = r.nextInstance

/-- The tables have nothing against a choice. -/
def Takes (r : ComponentRegistry) (choice : ComponentLocation × ComponentMount) : Prop :=
  ∀ i location root, r.live.get location = some ⟨i, root⟩ → (location = choice.1 ↔ i = choice.2.instanceId)

theorem register_one (p : Paired r) (choice : ComponentLocation × ComponentMount) (takes : Takes r choice) :
    Registered g r (register g r choice) [choice] := by
  obtain ⟨own, mount⟩ := choice
  unfold register
  cases hroot : boundaryRoot g mount.instanceId with
  | none =>
    refine ⟨p, fun location m => ?_, rfl⟩
    simp only [List.mem_singleton, Prod.mk.injEq, forall_eq, hroot, ne_eq, not_true_eq_false,
      false_implies, and_true]
    refine (or_iff_right ?_).symm
    rintro ⟨⟨root, rfl, rfl⟩, hm⟩
    rw [hroot] at hm
    cases hm
  | some root =>
    refine ⟨fun i location => ?_, fun location m => ?_, rfl⟩
    · dsimp only
      rw [FiniteMap.get_set, FiniteMap.get_set]
      by_cases hi : i = mount.instanceId
      · rw [if_pos hi]
        by_cases hl : location = own
        · rw [if_pos hl, hl, hi]
          exact ⟨fun _ => ⟨root, rfl⟩, fun _ => rfl⟩
        · rw [if_neg hl]
          constructor
          · intro h
            exact absurd (Option.some.inj h).symm hl
          · rintro ⟨root', hm⟩
            exact absurd ((takes i location root' hm).mpr hi) hl
      · rw [if_neg hi, p]
        by_cases hl : location = own
        · rw [if_pos hl]
          constructor
          · rintro ⟨root', hm⟩
            exact absurd ((takes i location root' hm).mp hl) hi
          · rintro ⟨root', hm⟩
            exact absurd (congrArg ComponentMount.instanceId (Option.some.inj hm)).symm hi
        · rw [if_neg hl]
    · simp only [List.mem_singleton, Prod.mk.injEq, forall_eq, hroot, ne_eq, reduceCtorEq,
        not_false_eq_true, true_implies]
      rw [FiniteMap.get_set]
      by_cases hl : location = own
      · rw [if_pos hl]
        constructor
        · intro h
          obtain rfl := Option.some.inj h
          exact .inl ⟨⟨mount.root, hl, rfl⟩, hroot⟩
        · rintro (⟨⟨root', -, rfl⟩, hm⟩ | ⟨-, hne⟩)
          · rw [hroot] at hm
            rw [Option.some.inj hm]
          · exact absurd hl.symm hne
      · rw [if_neg hl]
        constructor
        · intro h
          exact .inr ⟨h, fun heq => hl heq.symm⟩
        · rintro (⟨⟨root', heq, -⟩, -⟩ | ⟨h, -⟩)
          · exact absurd heq hl
          · exact h

theorem register_all (p : Paired r) (choices : List (ComponentLocation × ComponentMount))
    (takes : ∀ choice ∈ choices, Takes r choice)
    (apart : choices.Pairwise fun c c' => c.1 ≠ c'.1 ∧ c.2.instanceId ≠ c'.2.instanceId) :
    Registered g r (choices.foldl (register g) r) choices := by
  induction choices generalizing r with
  | nil => exact ⟨p, by simp, rfl⟩
  | cons c rest ih =>
    have one := register_one (g := g) p c (takes c List.mem_cons_self)
    obtain ⟨first, apart⟩ := List.pairwise_cons.mp apart
    have still (c' : ComponentLocation × ComponentMount) (hc' : c' ∈ rest) : Takes (register g r c) c' := by
      intro i location root h
      rcases (one.live location ⟨i, root⟩).mp h with ⟨⟨root', hmem⟩, -⟩ | ⟨h, -⟩
      · -- what was just registered is not what is to be registered yet
        have hc := List.mem_singleton.mp hmem
        have hne := first c' hc'
        rw [← hc] at hne
        exact iff_of_false hne.1 hne.2
      · exact takes c' (List.mem_cons_of_mem _ hc') i location root h
    have all := ih one.paired still apart
    refine ⟨all.paired, fun location mount => ?_, all.next.trans one.next⟩
    have clear (h : ∃ root, (location, (⟨mount.instanceId, root⟩ : ComponentMount)) = c) :
        ∀ c' ∈ rest, boundaryRoot g c'.2.instanceId ≠ none → c'.1 ≠ location := by
      obtain ⟨root, rfl⟩ := h
      exact fun c' hc' _ heq => (first c' hc').1 heq.symm
    rw [List.foldl_cons, all.live, one.live]
    simp only [List.mem_cons, forall_eq_or_imp, forall_eq, exists_or, List.not_mem_nil, or_false]
    constructor
    · rintro (⟨hrest, hroot⟩ | ⟨⟨hc, hroot⟩ | ⟨hlive, hne⟩, hothers⟩)
      · exact .inl ⟨.inr hrest, hroot⟩
      · exact .inl ⟨.inl hc, hroot⟩
      · exact .inr ⟨hlive, hne, hothers⟩
    · rintro (⟨hc | hrest, hroot⟩ | ⟨hlive, hne, hothers⟩)
      · exact .inr ⟨.inl ⟨hc, hroot⟩, clear hc⟩
      · exact .inl ⟨hrest, hroot⟩
      · exact .inr ⟨.inr ⟨hlive, hne⟩, hothers⟩

/-- What reading the roots of staged instances again leaves. -/
structure Refreshed (g : MountedGraph K) (r r' : ComponentRegistry) (staged : List ℕ) : Prop where
  paired : Paired r'
  live : ∀ location mount, r'.live.get location = some mount ↔
    ∃ root, r.live.get location = some ⟨mount.instanceId, root⟩ ∧
      (mount.instanceId ∈ staged → boundaryRoot g mount.instanceId = some mount.root) ∧
      (mount.instanceId ∉ staged → root = mount.root)
  next : r'.nextInstance = r.nextInstance

theorem refresh_one (p : Paired r) {i : ℕ} (mounted : boundaryRoot g i ≠ none) :
    ∃ r', (refresh g i).run r = .ok ⟨⟩ r' ∧ Refreshed g r r' [i] := by
  obtain ⟨root, hroot⟩ := Option.ne_none_iff_exists'.mp mounted
  cases hi : r.instances.get i with
  | none =>
    refine ⟨r, by simp [refresh, hi], p, fun location mount => ?_, rfl⟩
    have other (root' : ℕ) (h : r.live.get location = some ⟨mount.instanceId, root'⟩) :
        mount.instanceId ∉ [i] := by
      intro hmem
      rw [List.mem_singleton.mp hmem] at h
      rw [(p i location).mpr ⟨_, h⟩] at hi
      cases hi
    constructor
    · intro h
      exact ⟨mount.root, h, fun hmem => absurd hmem (other _ h), fun _ => rfl⟩
    · rintro ⟨root', h, -, heq⟩
      rwa [heq (other _ h)] at h
  | some own =>
    obtain ⟨before, hbefore⟩ := (p i own).mp hi
    refine ⟨{ r with live := r.live.set own ⟨i, root⟩ }, by simp [refresh, hi, hbefore, hroot], ?_, ?_, rfl⟩
    · intro j location
      dsimp only
      rw [p, FiniteMap.get_set]
      by_cases hl : location = own
      · rw [if_pos hl, hl, hbefore]
        simp
      · rw [if_neg hl]
    · intro location mount
      dsimp only
      rw [FiniteMap.get_set]
      by_cases hl : location = own
      · rw [if_pos hl, hl, hbefore]
        constructor
        · intro h
          obtain rfl := Option.some.inj h
          exact ⟨before, rfl, fun _ => hroot, fun hne => absurd (List.mem_singleton_self i) hne⟩
        · rintro ⟨root', h, heq, -⟩
          obtain ⟨hinstance, -⟩ := ComponentMount.mk.inj (Option.some.inj h)
          have hmount := heq (List.mem_singleton.mpr hinstance.symm)
          rw [← hinstance, hroot] at hmount
          rw [hinstance, Option.some.inj hmount]
      · rw [if_neg hl]
        have other (root' : ℕ) (h : r.live.get location = some ⟨mount.instanceId, root'⟩) :
            mount.instanceId ∉ [i] := by
          intro hmem
          rw [List.mem_singleton.mp hmem] at h
          exact hl (Option.some.inj (((p i location).mpr ⟨_, h⟩).symm.trans hi))
        constructor
        · intro h
          exact ⟨mount.root, h, fun hmem => absurd hmem (other _ h), fun _ => rfl⟩
        · rintro ⟨root', h, -, heq⟩
          rwa [heq (other _ h)] at h

theorem refresh_all (p : Paired r) {staged : List ℕ} (mounted : ∀ i ∈ staged, boundaryRoot g i ≠ none) :
    ∃ r', (staged.forM (refresh g)).run r = .ok ⟨⟩ r' ∧ Refreshed g r r' staged := by
  induction staged generalizing r with
  | nil => exact ⟨r, rfl, p, fun location mount => by simp, rfl⟩
  | cons i rest ih =>
    obtain ⟨t, hone, one⟩ := refresh_one p (mounted i List.mem_cons_self)
    obtain ⟨r', hrest, all⟩ := ih one.paired fun j hj => mounted j (List.mem_cons_of_mem _ hj)
    refine ⟨r', forM_cons_ok.mpr ⟨t, hone, hrest⟩, all.paired, fun location mount => ?_,
      all.next.trans one.next⟩
    rw [all.live]
    simp only [one.live, List.mem_cons, List.not_mem_nil, or_false, not_or]
    constructor
    · rintro ⟨root, ⟨root', hr, here, elsewhere⟩, later, last⟩
      refine ⟨root', hr, fun hmem => ?_, fun ⟨hne, hmem⟩ => (elsewhere hne).trans (last hmem)⟩
      by_cases hrest : mount.instanceId ∈ rest
      · exact later hrest
      · rw [← last hrest]
        exact here (hmem.resolve_right hrest)
    · rintro ⟨root, hr, here, elsewhere⟩
      by_cases heq : mount.instanceId = i
      · exact ⟨mount.root, ⟨root, hr, fun _ => here (.inl heq), fun hne => absurd heq hne⟩,
          fun _ => here (.inl heq), fun _ => rfl⟩
      · exact ⟨root, ⟨root, hr, fun h => absurd h heq, fun _ => rfl⟩, fun hmem => here (.inr hmem),
          fun hmem => elsewhere ⟨heq, hmem⟩⟩

/-- What a commit needs of the patch that took `g` to `v`. -/
structure Handover (g v : MountedGraph K) (a : GraphApply K) : Prop where
  kept : ∀ i x, boundaryRoot g i = some x → i ∉ a.removedInstances → boundaryRoot v i = some x
  staged : ∀ i ∈ a.stagedInstances, boundaryRoot v i ≠ none
  rebuilt : ∀ i ∈ a.removedInstances, i ∉ a.stagedInstances → boundaryRoot v i = none

/-- The registered roots are those of the graph. -/
def Mirrors (r : ComponentRegistry) (g : MountedGraph K) : Prop :=
  ∀ location mount, r.live.get location = some mount → boundaryRoot g mount.instanceId = some mount.root

/-- What a commit leaves: the instances that were registered or chosen and are mounted. -/
structure Committed (r r' : ComponentRegistry) (v : MountedGraph K) : Prop where
  consistent : Consistent r'
  mirrors : Mirrors r' v
  registered : ∀ i, (r'.instances.get i).isSome ↔
    (boundaryRoot v i).isSome ∧ ((r.instances.get i).isSome ∨ i ∈ r.pendingInstances)
  located : ∀ i location, r'.instances.get i = some location →
    r.instances.get i = some location ∨ ∃ root, r.pending.get location = some ⟨i, root⟩
  next : r'.nextInstance = r.nextInstance
  idle : r'.pending = ∅ ∧ r'.pendingInstances = ∅ ∧ r'.seen = ∅ ∧ r'.scopes = [] ∧ r'.rendering = false

theorem commit_ok {v : MountedGraph K} {a : GraphApply K}
    (hashOrder : Enumeration ComponentLocation ComponentMount) (c : Consistent r) (mirrors : Mirrors r g)
    (h : Handover g v a) :
    ∃ r', (commit hashOrder v a).run r = .ok ⟨⟩ r' ∧ Committed r r' v := by
  have out := unregister_all (g := v) c.paired a.removedInstances
  set r1 := a.removedInstances.foldl (unregister v) r with hr1
  have choice {location : ComponentLocation} {mount : ComponentMount} :
      (location, mount) ∈ hashOrder.entries r1.pending ↔ r.pending.get location = some mount := by
    rw [hashOrder.listed, out.pending]
  have taken : Registered v { r1 with pending := ∅ }
      ((hashOrder.entries r1.pending).foldl (register v) { r1 with pending := ∅ })
      (hashOrder.entries r1.pending) := by
    refine @register_all K v { r1 with pending := ∅ } out.paired _ ?_ ?_
    · rintro ⟨location, mount⟩ hchoice i l root hl
      obtain ⟨-, -, hmount⟩ := c.pending location mount (choice.mp hchoice)
      have hlive := ((out.live l _).mp hl).1
      have hl' := (c.paired i l).mpr ⟨root, hlive⟩
      rcases hmount with hown | ⟨hnone, -, hfree⟩
      · have hown' := (c.paired mount.instanceId location).mpr ⟨mount.root, hown⟩
        constructor
        · rintro rfl
          exact congrArg ComponentMount.instanceId (Option.some.inj (hlive.symm.trans hown))
        · rintro rfl
          exact Option.some.inj (hl'.symm.trans hown')
      · constructor
        · rintro rfl
          rw [hlive] at hnone
          cases hnone
        · rintro rfl
          rw [hl'] at hfree
          cases hfree
    · have distinct := hashOrder.distinct r1.pending
      rw [List.Nodup, List.pairwise_map] at distinct
      refine List.Pairwise.imp_of_mem ?_ distinct
      rintro ⟨location, mount⟩ ⟨location', mount'⟩ hc hc' hne
      refine ⟨hne, fun heq => hne ?_⟩
      obtain ⟨i, root⟩ := mount
      obtain ⟨i', root'⟩ := mount'
      obtain rfl : i = i' := heq
      exact c.apart i location location' root root' (choice.mp hc) (choice.mp hc')
  set r2 := (hashOrder.entries r1.pending).foldl (register v) { r1 with pending := ∅ } with hr2
  obtain ⟨r3, hrefresh, fresh⟩ := refresh_all (g := v) taken.paired h.staged
  refine ⟨abort r3, ?_, ?_⟩
  · simp only [commit, bind_ok, modify_ok, get_ok]
    exact ⟨⟨⟩, r1, hr1, _, _, ⟨rfl, rfl⟩, ⟨⟩, r2, hr2, ⟨⟩, r3, hrefresh, rfl⟩
  -- what the tables hold in the end
  have final (location : ComponentLocation) (mount : ComponentMount)
      (hm : r3.live.get location = some mount) : boundaryRoot v mount.instanceId = some mount.root ∧
        ((∃ root, r.pending.get location = some ⟨mount.instanceId, root⟩) ∨
          ∃ root, r.live.get location = some ⟨mount.instanceId, root⟩) := by
    obtain ⟨root, hroot, here, elsewhere⟩ := (fresh.live location mount).mp hm
    rcases (taken.live location _).mp hroot with ⟨⟨root', hc⟩, hv⟩ | ⟨hlive, -⟩
    · refine ⟨?_, .inl ⟨root', choice.mp hc⟩⟩
      by_cases hmem : mount.instanceId ∈ a.stagedInstances
      · exact here hmem
      · rw [← elsewhere hmem]
        exact hv
    · obtain ⟨hlive, hkept⟩ := (out.live location _).mp hlive
      refine ⟨?_, .inr ⟨root, hlive⟩⟩
      by_cases hmem : mount.instanceId ∈ a.stagedInstances
      · exact here hmem
      · rw [← elsewhere hmem]
        refine h.kept _ _ (mirrors location _ hlive) fun hgone => ?_
        exact hkept ⟨hgone, h.rebuilt _ hgone hmem⟩
  have next : r3.nextInstance = r.nextInstance := fresh.next.trans (taken.next.trans out.next)
  constructor
  · refine ⟨fresh.paired, fun location mount hm => ?_, fun location mount hm => ?_, fun i => ?_,
      fun i location location' root root' hm => ?_⟩
    · have issued : ∃ root, Issued r.nextInstance location ⟨mount.instanceId, root⟩ := by
        rcases (final location mount hm).2 with ⟨root, hp⟩ | ⟨root, hl⟩
        · exact ⟨root, (c.pending location _ hp).1⟩
        · exact ⟨root, c.live location _ hl⟩
      obtain ⟨root, hissued⟩ := issued
      change Issued r3.nextInstance location mount
      rw [next]
      exact ⟨hissued.earlier, hissued.own⟩
    · cases hm
    · simp [abort]
    · cases hm
  · exact fun location mount hm => (final location mount hm).1
  · intro i
    have restored {location : ComponentLocation} {root x : ℕ} (hx : boundaryRoot v i = some x)
        (hm : r2.live.get location = some ⟨i, root⟩) (same : i ∉ a.stagedInstances → root = x) :
        (r3.instances.get i).isSome := by
      have hlive := (fresh.live location ⟨i, x⟩).mpr ⟨root, hm, fun _ => hx, same⟩
      exact Option.isSome_of_eq_some ((fresh.paired i location).mpr ⟨x, hlive⟩)
    constructor
    · intro hsome
      obtain ⟨location, hi⟩ := Option.isSome_iff_exists.mp hsome
      obtain ⟨root, hm⟩ := (fresh.paired i location).mp hi
      obtain ⟨hv, hbefore⟩ := final location _ hm
      refine ⟨Option.isSome_of_eq_some hv, ?_⟩
      rcases hbefore with ⟨root', hp⟩ | ⟨root', hl⟩
      · exact .inr ((c.chosen i).mpr ⟨location, root', hp⟩)
      · exact .inl (Option.isSome_of_eq_some ((c.paired i location).mpr ⟨root', hl⟩))
    · rintro ⟨hsome, hbefore⟩
      obtain ⟨x, hx⟩ := Option.isSome_iff_exists.mp hsome
      by_cases hp : i ∈ r.pendingInstances
      · obtain ⟨location, root, hc⟩ := (c.chosen i).mp hp
        exact restored hx ((taken.live location ⟨i, x⟩).mpr (.inl ⟨⟨root, choice.mpr hc⟩, hx⟩))
          fun _ => rfl
      · obtain ⟨location, hi⟩ := Option.isSome_iff_exists.mp (hbefore.resolve_right hp)
        obtain ⟨root, hl⟩ := (c.paired i location).mp hi
        have hkept : r1.live.get location = some ⟨i, root⟩ := by
          refine (out.live location _).mpr ⟨hl, fun hgone => ?_⟩
          rw [hx] at hgone
          cases hgone.2
        refine restored hx ((taken.live location ⟨i, root⟩).mpr (.inr ⟨hkept, ?_⟩)) fun hstaged => ?_
        · -- a choice for this location would have been of this instance
          rintro ⟨l, m⟩ hc - rfl
          obtain ⟨-, -, hown | ⟨hnone, -⟩⟩ := c.pending l m (choice.mp hc)
          · obtain rfl := Option.some.inj (hl.symm.trans hown)
            exact hp ((c.chosen i).mpr ⟨l, root, choice.mp hc⟩)
          · rw [hl] at hnone
            cases hnone
        · have hstays : i ∉ a.removedInstances := fun hgone => by
            rw [h.rebuilt i hgone hstaged] at hx
            cases hx
          have hv := h.kept i root (mirrors location _ hl) hstays
          exact Option.some.inj (hv.symm.trans hx)
  · intro i location hi
    obtain ⟨root, hm⟩ := (fresh.paired i location).mp hi
    rcases (final location _ hm).2 with ⟨root', hp⟩ | ⟨root', hl⟩
    · exact .inr ⟨root', hp⟩
    · exact .inl ((c.paired i location).mpr ⟨root', hl⟩)
  · exact next
  · exact ⟨rfl, rfl, rfl, rfl, rfl⟩

end Committing

end ComponentRegistries
