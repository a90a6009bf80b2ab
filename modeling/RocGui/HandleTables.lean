import RocGui.HandleRuns

/-! What the tables of the host say of each other, in every run. -/
namespace HandleTables

open FiniteMaps Grants GrantRuns AccessSurface Transitions ThreadSystems RecentFormats RecentStores
open RecentCalls HandleStores HandleCalls HandleRuns
open RecentEntries (EntryKind Unavailable)

section Registries

variable {s s' s'' : GrantState} {id : GrantId} {kind : Kind} {number : ℕ} {g : Grant}

def lineage (g : Grant) : Rights × GrantId := (g.rights, g.root)

/-- Steps of the registry that record and release nothing. -/
structure Quiet (s s' : GrantState) : Prop where
  runs : Reachable grantSystem s → Reachable grantSystem s'
  issued : s'.issued = s.issued
  accepted : s.accepted ⊆ s'.accepted
  lineages : ∀ id, (s'.registry.grants.get id).map lineage = (s.registry.grants.get id).map lineage
  withdrawn : s.registry.revokedRoots ⊆ s'.registry.revokedRoots

theorem quiet_refl (s : GrantState) : Quiet s s :=
  ⟨fun h => h, rfl, List.Subset.refl _, fun _ => rfl, Finset.Subset.refl _⟩

theorem quiet_trans (h : Quiet s s') (h' : Quiet s' s'') : Quiet s s'' where
  runs hs := h'.runs (h.runs hs)
  issued := h'.issued.trans h.issued
  accepted := List.Subset.trans h.accepted h'.accepted
  lineages id := (h'.lineages id).trans (h.lineages id)
  withdrawn := Finset.Subset.trans h.withdrawn h'.withdrawn

theorem reachable_next {e : GrantEvent} (enabled : GrantRuns.Enabled s e)
    (h : Reachable grantSystem s) : Reachable grantSystem (GrantRuns.next s e) :=
  reachable_step h ⟨enabled, rfl⟩

theorem lineage_flag (selects : Grant → Bool) (g : Grant) : lineage (flag selects g) = lineage g := by
  unfold flag
  split <;> rfl

theorem lineage_keep (root : GrantId) (g : Grant) : lineage (Grants.keep root g) = lineage g := by
  unfold Grants.keep
  split <;> rfl

theorem lineages_map {r r' : Registry} {f : Grant → Grant} (hgrants : r'.grants = r.grants.mapValues f)
    (hf : ∀ g, lineage (f g) = lineage g) (id : GrantId) :
    (r'.grants.get id).map lineage = (r.grants.get id).map lineage := by
  rw [hgrants, FiniteMap.get_mapValues, Option.map_map]
  exact congrArg (Option.map · _) (funext hf)

theorem quiet_accept (s : GrantState) (kind : Kind) (number : ℕ) (needs : Rights) :
    Quiet s (GrantRuns.next s (.accept kind number needs)) where
  runs h := reachable_next trivial h
  issued := rfl
  accepted := List.subset_append_left _ _
  lineages id := by
    change ((accept kind number s.registry needs).2.grants.get id).map lineage = _
    rw [(accept_cases kind number s.registry needs).1]
  withdrawn := by
    change _ ⊆ (accept kind number s.registry needs).2.revokedRoots
    rw [(accept_cases kind number s.registry needs).2.1]

theorem quiet_remember (s : GrantState) (kind : Kind) (number : ℕ) :
    Quiet s (GrantRuns.next s (.remember kind number)) where
  runs h := reachable_next trivial h
  issued := rfl
  accepted := List.Subset.refl _
  lineages id := by
    change ((Grants.remember kind number s.registry).2.grants.get id).map lineage = _
    rcases (GrantRuns.remember_cases kind number s.registry).2 with heq | ⟨root, hgrants⟩
    · rw [heq]
    · exact lineages_map hgrants (lineage_keep root) id
  withdrawn := by
    change _ ⊆ (Grants.remember kind number s.registry).2.revokedRoots
    rw [(GrantRuns.remember_cases kind number s.registry).1]

theorem quiet_revoke (s : GrantState) (kind : Kind) (number : ℕ) :
    Quiet s (GrantRuns.next s (.revoke kind number)) where
  runs h := reachable_next trivial h
  issued := rfl
  accepted := List.Subset.refl _
  lineages id := by
    change ((revoke kind number s.registry).2.grants.get id).map lineage = _
    rcases revoke_cases kind number s.registry with ⟨-, heq⟩ | ⟨target, -, -, hgrants⟩
    · rw [heq]
    · exact lineages_map hgrants (lineage_flag _) id
  withdrawn := by
    change _ ⊆ (revoke kind number s.registry).2.revokedRoots
    rcases revoke_cases kind number s.registry with ⟨-, heq⟩ | ⟨target, -, hroots, -⟩
    · rw [heq]
    · rw [hroots]
      exact Finset.subset_insert _ _

theorem quiet_revokeKind (s : GrantState) (hashOrder : Enumeration GrantId Grant) (kind : Kind) :
    Quiet s (GrantRuns.next s (.revokeKind hashOrder kind)) where
  runs h := reachable_next trivial h
  issued := rfl
  accepted := List.Subset.refl _
  lineages id := lineages_map (f := flag fun grant => grant.root.kind = kind) rfl (lineage_flag _) id
  withdrawn _ h := revoke_kind_roots.mpr (.inl h)

theorem quiet_take (s : GrantState) : Quiet s (GrantRuns.next s .takeWithdrawnRemembered) where
  runs h := reachable_next trivial h
  issued := rfl
  accepted := List.Subset.refl _
  lineages _ := rfl
  withdrawn := Finset.Subset.refl _

structure Gives (s s' : GrantState) (id : GrantId) (kin : Rights × GrantId) : Prop where
  runs : Reachable grantSystem s → Reachable grantSystem s'
  issued : s'.issued = insert id s.issued
  accepted : s'.accepted = s.accepted
  lineages : ∀ id', id' ≠ id → s'.registry.grants.get id' = s.registry.grants.get id'
  own : ∀ g, s'.registry.grants.get id = some g → lineage g = kin ∨ s.registry.grants.get id = some g
  withdrawn : s'.registry.revokedRoots = s.registry.revokedRoots

theorem gives_root {rights : Rights} {origin : Origin} {lifetime : Lifetime}
    (fresh : ⟨kind, number⟩ ∉ s.issued) :
    Gives s (GrantRuns.next s (.recordRoot kind number rights origin lifetime)) ⟨kind, number⟩
      (rights, ⟨kind, number⟩) where
  runs h := reachable_next fresh h
  issued := rfl
  accepted := rfl
  lineages _ hne := FiniteMap.get_set_ne _ _ hne
  own g hg := by
    obtain rfl := Option.some.inj ((FiniteMap.get_set_self _ _ _).symm.trans hg)
    exact .inl rfl
  withdrawn := rfl

theorem gives_descendant (rights : Rights) {parent : Grant} (fresh : ⟨kind, number⟩ ∉ s.issued)
    (held : parent ∈ s.accepted) :
    Gives s (GrantRuns.next s (.recordDescendant kind number rights parent)) ⟨kind, number⟩
      (rights, parent.root) where
  runs h := reachable_next ⟨fresh, held⟩ h
  issued := rfl
  accepted := rfl
  lineages id hne := by
    change (recordDescendant kind number rights s.registry parent).2.grants.get id = _
    unfold recordDescendant
    split
    · rfl
    · split
      · rfl
      · exact FiniteMap.get_set_ne _ _ hne
  own g hg := by
    change (recordDescendant kind number rights s.registry parent).2.grants.get _ = _ at hg
    unfold recordDescendant at hg
    split at hg
    · exact .inr hg
    · split at hg
      · exact .inr hg
      · obtain rfl := Option.some.inj ((FiniteMap.get_set_self _ _ _).symm.trans hg)
        exact .inl rfl
  withdrawn := by
    change (recordDescendant kind number rights s.registry parent).2.revokedRoots = _
    rcases descendant_cases kind number rights s.registry parent with ⟨-, heq⟩ | ⟨-, -, -, heq, -⟩
    · rw [heq]
    · exact heq

theorem get_released {id : GrantId} (h : id ≠ ⟨kind, number⟩) :
    (GrantRuns.next s (.release kind number)).registry.grants.get id = s.registry.grants.get id := by
  change (Grants.release kind number s.registry).grants.get id = _
  unfold Grants.release
  split
  · exact (FiniteMap.get_remove _ _ _).trans (if_neg h)
  · rfl

end Registries

section Tables

variable {R : Family → Type} {V : Type}

/-- What is held was given out, has a payload, and is recorded as what it is held as if at all. -/
structure Tables (s : Shared R) : Prop where
  runs : Reachable grantSystem s.host.lists.grants
  numbered : ∀ id ∈ s.host.lists.grants.issued, id.number < s.host.next id.kind
  issued : ∀ id holding, s.holds id = some holding →
    id ∈ s.host.lists.grants.issued ∧ holding.family.kind = id.kind
  stored : ∀ id holding, s.holds id = some holding →
    (s.host.payloads holding.family id.number).isSome
  granted : ∀ id holding g, s.holds id = some holding → s.host.registry.grants.get id = some g →
    lineage g = (holding.family.rights, holding.root)

/-- What a call relies on between its sections. -/
def Fits (s : Shared R) : Point R V → Prop
  | .found _ _ grant | .asking grant .. => grant ∈ s.host.lists.grants.accepted
  | .recording grant family number => grant ∈ s.host.lists.grants.accepted ∧
      number < s.host.next family.kind ∧ ⟨family.kind, number⟩ ∉ s.host.lists.grants.issued ∧
      (s.host.payloads family number).isSome
  | _ => True

def reserved : Point R V → Option GrantId
  | .recording _ family number => some ⟨family.kind, number⟩
  | _ => none

structure Kept (s : HandleState R V) : Prop where
  tables : Tables s.shared
  fits : ∀ t running, s.calls t = some running → Fits s.shared running.point
  distinct : ∀ t t' running running' id, s.calls t = some running → s.calls t' = some running' →
    reserved running.point = some id → reserved running'.point = some id → t = t'

/-- What a step leaves to the calls that have no part in it; `own` is the handle it gives out. -/
structure Moves (s s' : Shared R) (own : Option GrantId) : Prop where
  accepted : s.host.lists.grants.accepted ⊆ s'.host.lists.grants.accepted
  next : ∀ kind, s.host.next kind ≤ s'.host.next kind
  issued : ∀ id ∈ s'.host.lists.grants.issued, id ∈ s.host.lists.grants.issued ∨
    s.host.next id.kind ≤ id.number ∨ own = some id
  stored : ∀ family number, (s.host.payloads family number).isSome →
    ⟨family.kind, number⟩ ∉ s.host.lists.grants.issued → (s'.host.payloads family number).isSome

variable {s s' : Shared R} {own : Option GrantId}

theorem fits_moves {point : Point R V} (moves : Moves s s' own) (h : Fits s point)
    (hown : ∀ id, reserved point = some id → own ≠ some id) : Fits s' point := by
  cases point with
  | looking | remembering | answered => trivial
  | found | asking => exact moves.accepted h
  | recording grant family number =>
    obtain ⟨haccepted, hnumber, hfresh, hstored⟩ := h
    refine ⟨moves.accepted haccepted, Nat.lt_of_lt_of_le hnumber (moves.next _), fun hissued => ?_,
      moves.stored _ _ hstored hfresh⟩
    rcases moves.issued _ hissued with h | h | h
    · exact hfresh h
    · exact Nat.not_le_of_lt hnumber h
    · exact hown _ rfl h

/-- A section that goes on from `point` as `point'`. -/
structure Moved (s : Shared R) (point point' : Point R V) (s' : Shared R) : Prop where
  tables : Tables s'
  fits : Fits s' point'
  moves : Moves s s' (reserved point)
  numbers : ∀ id, reserved point' = some id → reserved point = some id ∨ id.number = s.host.next id.kind

theorem number_lt (tables : Tables s) {id : GrantId} {holding : Holding}
    (h : s.holds id = some holding) : id.number < s.host.next id.kind :=
  tables.numbered id (tables.issued id holding h).1

/-- The registry has moved on quietly, and nothing else that the tables are about has. -/
theorem moved_quiet (tables : Tables s) (lists : CallState)
    (quiet : Quiet s.host.lists.grants lists.grants) :
    Tables { s with host := { s.host with lists := lists } } ∧
      Moves s { s with host := { s.host with lists := lists } } none where
  left :=
    { runs := quiet.runs tables.runs
      numbered := fun id hid => tables.numbered id (quiet.issued ▸ hid)
      issued := fun id holding hid => by
        obtain ⟨hissued, hkind⟩ := tables.issued id holding hid
        exact ⟨quiet.issued ▸ hissued, hkind⟩
      stored := tables.stored
      granted := fun id holding g hid hg => by
        have hlineage := quiet.lineages id
        rw [show lists.grants.registry.grants.get id = some g from hg] at hlineage
        obtain ⟨g', hg', heq⟩ := Option.map_eq_some_iff.mp hlineage.symm
        exact heq ▸ tables.granted id holding g' hid hg' }
  right :=
    { accepted := quiet.accepted
      next := fun _ => Nat.le_refl _
      issued := fun id hid => .inl (quiet.issued ▸ hid)
      stored := fun _ _ h _ => h }

theorem payloads_setPayload {P : Family → Type} (s : Host P) (family : Family) (number : ℕ)
    (payload : Option (P family)) {family' : Family} {number' : ℕ}
    (h : family' ≠ family ∨ number' ≠ number) :
    (setPayload s family number payload).payloads family' number' = s.payloads family' number' := by
  by_cases hfamily : family' = family
  · subst hfamily
    change Function.update s.payloads _ _ _ _ = _
    rw [Function.update_self, Function.update_of_ne (h.resolve_left (absurd rfl))]
  · exact congrFun (Function.update_of_ne hfamily _ _) _

theorem payloads_setPayload_self {P : Family → Type} (s : Host P) (family : Family) (number : ℕ)
    (payload : Option (P family)) :
    (setPayload s family number payload).payloads family number = payload := by
  change Function.update s.payloads _ _ _ _ = _
  rw [Function.update_self, Function.update_self]

theorem moved_payload {family : Family} {number : ℕ} {payload : Payload R family} (tables : Tables s) :
    Tables { s with host := setPayload s.host family number (some payload) } ∧
      Moves s { s with host := setPayload s.host family number (some payload) } none := by
  have stored {family' : Family} {number' : ℕ} (h : (s.host.payloads family' number').isSome) :
      ((setPayload s.host family number (some payload)).payloads family' number').isSome := by
    by_cases hfamily : family' = family
    · subst hfamily
      by_cases hnumber : number' = number
      · subst hnumber
        rw [payloads_setPayload_self]
        rfl
      · rwa [payloads_setPayload _ _ _ _ (.inr hnumber)]
    · rwa [payloads_setPayload _ _ _ _ (.inl hfamily)]
  exact ⟨⟨tables.runs, tables.numbered, tables.issued, fun id holding h => stored (tables.stored id holding h),
    tables.granted⟩, ⟨List.Subset.refl _, fun _ => Nat.le_refl _, fun _ h => .inl h,
      fun _ _ h _ => stored h⟩⟩

theorem tables_give {id : GrantId} {family : Family} {root : GrantId} (tables : Tables s)
    (fresh : id ∉ s.host.lists.grants.issued)
    (gives : Gives s.host.lists.grants s'.host.lists.grants id (family.rights, root))
    (hkind : family.kind = id.kind)
    (hholds : s'.holds = Function.update s.holds id (some ⟨family, root⟩))
    (hnext : ∀ kind, s.host.next kind ≤ s'.host.next kind) (hnumber : id.number < s'.host.next id.kind)
    (hstored : ∀ id holding, s.holds id = some holding →
      (s'.host.payloads holding.family id.number).isSome)
    (hown : (s'.host.payloads family id.number).isSome) : Tables s' where
  runs := gives.runs tables.runs
  numbered id' h := by
    rw [gives.issued, Finset.mem_insert] at h
    rcases h with rfl | h
    · exact hnumber
    · exact Nat.lt_of_lt_of_le (tables.numbered id' h) (hnext _)
  issued id' holding h := by
    rw [gives.issued, Finset.mem_insert]
    by_cases heq : id' = id
    · subst heq
      rw [hholds, Function.update_self] at h
      obtain rfl := Option.some.inj h
      exact ⟨.inl rfl, hkind⟩
    · rw [hholds, Function.update_of_ne heq] at h
      exact (tables.issued id' holding h).imp_left .inr
  stored id' holding h := by
    by_cases heq : id' = id
    · subst heq
      rw [hholds, Function.update_self] at h
      obtain rfl := Option.some.inj h
      exact hown
    · rw [hholds, Function.update_of_ne heq] at h
      exact hstored id' holding h
  granted id' holding g h hg := by
    change s'.host.lists.grants.registry.grants.get id' = some g at hg
    by_cases heq : id' = id
    · subst heq
      rw [hholds, Function.update_self] at h
      obtain rfl := Option.some.inj h
      rcases gives.own g hg with hkin | hold
      · exact hkin
      · exact absurd ((roots_placed tables.runs).named id' g hold).2.2 fresh
    · rw [hholds, Function.update_of_ne heq] at h
      exact tables.granted id' holding g h ((gives.lineages id' heq).symm.trans hg)

section Stores

variable {family : Family} {payload : Payload R family}

theorem next_store (payload : Payload R family) (s : Host (Payload R)) (kind : Kind) :
    s.next kind ≤ (store s family payload).2.next kind := by
  change _ ≤ Function.update s.next family.kind (s.next family.kind + 1) kind
  by_cases hkind : kind = family.kind
  · subst hkind
    rw [Function.update_self]
    exact Nat.le_succ _
  · rw [Function.update_of_ne hkind]

theorem next_store_self (payload : Payload R family) (s : Host (Payload R)) :
    s.next family.kind < (store s family payload).2.next family.kind := by
  change _ < Function.update s.next family.kind (s.next family.kind + 1) family.kind
  rw [Function.update_self]
  exact Nat.lt_succ_self _

theorem stored_store (s : Host (Payload R)) {family' : Family} {number : ℕ}
    (h : (s.payloads family' number).isSome) :
    ((store s family payload).2.payloads family' number).isSome := by
  change ((setPayload s family _ (some payload)).payloads family' number).isSome
  by_cases hfamily : family' = family
  · subst hfamily
    by_cases hnumber : number = s.next family'.kind
    · subst hnumber
      rw [payloads_setPayload_self]
      rfl
    · rwa [payloads_setPayload _ _ _ _ (.inr hnumber)]
  · rwa [payloads_setPayload _ _ _ _ (.inl hfamily)]

theorem stored_store_self (s : Host (Payload R)) :
    ((store s family payload).2.payloads family (s.next family.kind)).isSome := by
  change ((setPayload s family _ (some payload)).payloads family _).isSome
  rw [payloads_setPayload_self]
  rfl

theorem fresh_next (tables : Tables s) (kind : Kind) :
    ⟨kind, s.host.next kind⟩ ∉ s.host.lists.grants.issued :=
  fun h => Nat.lt_irrefl _ (tables.numbered _ h)

theorem moved_storeNew {grant : Grant} {point : Point R V} (tables : Tables s)
    (held : grant ∈ s.host.lists.grants.accepted) :
    Moved s point (storeNew (V := V) s grant family payload).1
      (storeNew (V := V) s grant family payload).2 where
  tables :=
    { runs := tables.runs
      numbered := fun id h => Nat.lt_of_lt_of_le (tables.numbered id h) (next_store payload _ _)
      issued := tables.issued
      stored := fun id holding h => stored_store _ (tables.stored id holding h)
      granted := tables.granted }
  fits := ⟨held, next_store_self payload _, fresh_next tables _, stored_store_self _⟩
  moves := ⟨List.Subset.refl _, next_store payload _, fun _ h => .inl h, fun _ _ h _ => stored_store _ h⟩
  numbers := by
    rintro _ ⟨⟩
    exact .inr rfl

theorem moved_giveOut {lists : ℕ → CallState} (tables : Tables s)
    (gives : Gives s.host.lists.grants (lists (s.host.next family.kind)).grants
      ⟨family.kind, s.host.next family.kind⟩ (family.rights, ⟨family.kind, s.host.next family.kind⟩)) :
    Tables (giveOut s family payload lists) ∧ Moves s (giveOut s family payload lists) none where
  left := tables_give tables (fresh_next tables _) gives rfl rfl (next_store payload _)
    (next_store_self payload _)
    (fun id holding h => stored_store _ (tables.stored id holding h)) (stored_store_self _)
  right :=
    { accepted := gives.accepted ▸ List.Subset.refl _
      next := next_store payload _
      issued := fun id h => by
        rcases Finset.mem_insert.mp (gives.issued ▸ h) with rfl | h
        · exact .inr (.inl (Nat.le_refl _))
        · exact .inl h
      stored := fun _ _ h _ => stored_store _ h }

end Stores

section Sections

variable {point : Point R V} {part : Part R V} {rest : List (Part R V)} {grant : Grant}

theorem enter_cases (part : Part R V) (rest : List (Part R V)) :
    (∃ failure, part.1.early = some failure ∧ enter part rest = .answered (.failure failure)) ∨
      part.1.early = none ∧ enter part rest = .looking part rest := by
  unfold enter
  cases h : part.1.early with
  | none => exact .inr ⟨rfl, rfl⟩
  | some failure => exact .inl ⟨failure, rfl, rfl⟩

/-- Neither an answer nor a handle to look up needs anything. -/
def Plain (point : Point R V) : Prop := (∃ part rest, point = .looking part rest) ∨
  (∃ answer, point = .answered answer) ∨ ∃ family number metadata, point = .remembering family number metadata

theorem plain_enter : Plain (enter part rest) := by
  rcases enter_cases part rest with ⟨failure, -, heq⟩ | ⟨-, heq⟩
  · exact .inr (.inl ⟨_, heq⟩)
  · exact .inl ⟨_, _, heq⟩

theorem plain_goOn {value : Value V} : Plain (goOn value rest) := by
  cases rest with
  | nil => exact .inr (.inl ⟨_, rfl⟩)
  | cons part rest => exact plain_enter

theorem plain_start {validName : String → Bool} {call : HostCall R V} : Plain (start validName call) := by
  unfold start
  split
  · exact .inr (.inr ⟨_, _, _, rfl⟩)
  · exact plain_enter
  · exact plain_enter

theorem reserved_plain (h : Plain point) : reserved point = none := by
  rcases h with ⟨_, _, rfl⟩ | ⟨_, rfl⟩ | ⟨_, _, _, rfl⟩ <;> rfl

theorem fits_plain (h : Plain point) : Fits s point := by
  rcases h with ⟨_, _, rfl⟩ | ⟨_, rfl⟩ | ⟨_, _, _, rfl⟩ <;> trivial

theorem moves_weaken (h : Moves s s' none) : Moves s s' own where
  accepted := h.accepted
  next := h.next
  issued id hid := by
    rcases h.issued id hid with h | h | h
    · exact .inl h
    · exact .inr (.inl h)
    · cases h
  stored := h.stored

theorem moves_refl (s : Shared R) : Moves s s own :=
  ⟨List.Subset.refl _, fun _ => Nat.le_refl _, fun _ h => .inl h, fun _ _ h _ => h⟩

theorem moved_plain {point' : Point R V} (h : Tables s' ∧ Moves s s' none) (hplain : Plain point') :
    Moved s point point' s' :=
  ⟨h.1, fits_plain hplain, moves_weaken h.2, fun id hid => by rw [reserved_plain hplain] at hid; cases hid⟩

theorem moved_rest {point' : Point R V} (tables : Tables s) (hplain : Plain point') :
    Moved s point point' s :=
  moved_plain ⟨tables, moves_refl s⟩ hplain

theorem plain_answered (answer : Answer V) : Plain (.answered answer : Point R V) :=
  .inr (.inl ⟨answer, rfl⟩)

theorem look_cases (s : Shared R) (part : Part R V) (rest : List (Part R V)) :
    (∃ refusal, (accept part.1.family.kind part.2 s.host.registry part.1.needs).1 = .error refusal ∧
      (look s part rest).1 = .answered (.failure (part.1.checked.getD (part.1.refused refusal)))) ∨
    ∃ grant, (accept part.1.family.kind part.2 s.host.registry part.1.needs).1 = .ok grant ∧
      (look s part rest).1 = .found part rest grant := by
  obtain ⟨operation, number⟩ := part
  cases h : (accept operation.family.kind number s.host.registry operation.needs).1 with
  | error refusal => exact .inl ⟨refusal, rfl, by simp [look, h]⟩
  | ok grant => exact .inr ⟨grant, rfl, by simp [look, h]⟩

theorem look_shared (s : Shared R) (part : Part R V) (rest : List (Part R V)) :
    (look s part rest).2 = { s with
      host := registryStep s.host (.accept part.1.family.kind part.2 part.1.needs) } := by
  obtain ⟨operation, number⟩ := part
  cases h : (accept operation.family.kind number s.host.registry operation.needs).1 <;> simp [look, h]

theorem moved_look (tables : Tables s) : Moved s (.looking part rest) (look s part rest).1
    (look s part rest).2 := by
  have moved := moved_quiet tables { s.host.lists with
      grants := GrantRuns.next s.host.lists.grants (.accept part.1.family.kind part.2 part.1.needs) }
    (quiet_accept _ _ _ _)
  rw [look_shared]
  rcases look_cases s part rest with ⟨refusal, -, heq⟩ | ⟨grant, haccept, heq⟩
  · rw [heq]
    exact moved_plain moved (plain_answered _)
  · rw [heq]
    refine ⟨moved.1, ?_, moved.2, nofun⟩
    exact List.mem_append_right _ (mem_outcome.mpr haccept)

theorem follow_cases (s : Shared R) (part : Part R V) (rest : List (Part R V)) (grant : Grant) :
    (∃ failure, (part.1.checked = some failure ∨
        part.1.checked = none ∧ (s.host.payloads part.1.family part.2 = none ∧ failure = part.1.missing ∨
          ∃ payload, s.host.payloads part.1.family part.2 = some payload ∧
            (part.1.spent payload = some failure ∨
              part.1.spent payload = none ∧ part.1.use payload = .error failure))) ∧
      follow s part rest grant = (.answered (.failure failure), s)) ∨
    ∃ payload, part.1.checked = none ∧ s.host.payloads part.1.family part.2 = some payload ∧
      part.1.spent payload = none ∧
      ((∃ value, part.1.use payload = .ok (.value value) ∧ follow s part rest grant = (goOn value rest,
          { s with host := setPayload s.host part.1.family part.2 (some (part.1.leaves payload)) })) ∨
        (∃ family payload', part.1.use payload = .ok (.derived family payload') ∧
          follow s part rest grant = storeNew s grant family payload') ∨
        ∃ revoked started, part.1.use payload = .ok (.watch revoked started) ∧
          follow s part rest grant = (.asking grant revoked started, s)) := by
  obtain ⟨operation, number⟩ := part
  dsimp only
  cases hchecked : operation.checked with
  | some failure => exact .inl ⟨failure, .inl rfl, by simp [follow, hchecked]⟩
  | none =>
    cases hpayload : s.host.payloads operation.family number with
    | none =>
      exact .inl ⟨_, .inr ⟨rfl, .inl ⟨rfl, rfl⟩⟩, by simp [follow, hchecked, hpayload]⟩
    | some payload =>
      cases hspent : operation.spent payload with
      | some failure =>
        exact .inl ⟨failure, .inr ⟨rfl, .inr ⟨payload, rfl, .inl hspent⟩⟩,
          by simp [follow, hchecked, hpayload, hspent]⟩
      | none =>
        cases huse : operation.use payload with
        | error failure =>
          exact .inl ⟨failure, .inr ⟨rfl, .inr ⟨payload, rfl, .inr ⟨hspent, huse⟩⟩⟩,
            by simp [follow, hchecked, hpayload, hspent, huse]⟩
        | ok outcome =>
          refine .inr ⟨payload, rfl, rfl, hspent, ?_⟩
          cases outcome with
          | value value =>
            exact .inl ⟨value, huse, by simp [follow, hchecked, hpayload, hspent, huse]⟩
          | derived family payload' =>
            exact .inr (.inl ⟨family, payload', huse, by simp [follow, hchecked, hpayload, hspent, huse]⟩)
          | watch revoked started =>
            exact .inr (.inr ⟨revoked, started, huse, by simp [follow, hchecked, hpayload, hspent, huse]⟩)

theorem moved_follow (tables : Tables s) (fits : Fits s (.found part rest grant)) :
    Moved s (.found part rest grant) (follow s part rest grant).1 (follow s part rest grant).2 := by
  rcases follow_cases s part rest grant with ⟨failure, -, heq⟩ | ⟨payload, -, -, -, hcases⟩
  · rw [heq]
    exact moved_rest tables (plain_answered _)
  · rcases hcases with ⟨value, -, heq⟩ | ⟨family, payload', -, heq⟩ | ⟨revoked, started, -, heq⟩
    · rw [heq]
      exact moved_plain (moved_payload tables) plain_goOn
    · rw [heq]
      exact moved_storeNew tables fits
    · rw [heq]
      exact ⟨tables, fits, moves_refl s, nofun⟩

theorem ask_cases (s : Shared R) (grant : Grant) (revoked : Failure)
    (started : Except Failure (R .watch)) :
    (isRevoked grant.id.kind grant.id.number s.host.registry = true ∧
      ask (V := V) s grant revoked started = (.answered (.failure revoked), s)) ∨
    (∃ failure, started = .error failure ∧
      ask (V := V) s grant revoked started = (.answered (.failure failure), s)) ∨
    ∃ watch, started = .ok watch ∧
      ask (V := V) s grant revoked started = storeNew s grant .watch watch := by
  unfold ask
  by_cases h : isRevoked grant.id.kind grant.id.number s.host.registry = true
  · exact .inl ⟨h, if_pos h⟩
  · rw [if_neg h]
    cases started with
    | error failure => exact .inr (.inl ⟨failure, rfl, rfl⟩)
    | ok watch => exact .inr (.inr ⟨watch, rfl, rfl⟩)

theorem moved_ask {revoked : Failure} {started : Except Failure (R .watch)} (tables : Tables s)
    (fits : Fits s (.asking grant revoked started : Point R V)) :
    Moved s (.asking grant revoked started) (ask (V := V) s grant revoked started).1
      (ask (V := V) s grant revoked started).2 := by
  rcases ask_cases (V := V) s grant revoked started with ⟨-, heq⟩ | ⟨failure, -, heq⟩ | ⟨watch, -, heq⟩
  · rw [heq]
    exact moved_rest tables (plain_answered _)
  · rw [heq]
    exact moved_rest tables (plain_answered _)
  · rw [heq]
    exact moved_storeNew tables fits

theorem moved_record {family : Family} {number : ℕ} (tables : Tables s)
    (fits : Fits s (.recording grant family number : Point R V)) :
    Moved s (.recording grant family number) (record (V := V) s grant family number).1
      (record (V := V) s grant family number).2 := by
  obtain ⟨haccepted, hnumber, hfresh, hstored⟩ := fits
  have gives := gives_descendant family.rights hfresh haccepted
  refine ⟨tables_give tables hfresh gives rfl rfl (fun _ => Nat.le_refl _) hnumber
    tables.stored hstored, trivial, ⟨?_, fun _ => Nat.le_refl _, fun id h => ?_, fun _ _ h _ => h⟩, nofun⟩
  · exact gives.accepted ▸ List.Subset.refl _
  · rcases Finset.mem_insert.mp (gives.issued ▸ h) with rfl | h
    · exact .inr (.inr rfl)
    · exact .inl h

theorem rememberPlace_cases (s : Shared R) (family : Family) (number : ℕ) (metadata : Metadata) :
    (∃ answer, (rememberPlace (V := V) s family number metadata).1 = .answered answer) ∧
      (rememberPlace (V := V) s family number metadata).2 = { s with host := { s.host with
        lists := (RecentCalls.remember s.host.lists family.kind number
          fun path => (metadata path).mapError unavailable).2 } } := by
  unfold rememberPlace
  split
  rename_i outcome lists heq
  rw [heq]
  cases outcome with
  | error reason => exact ⟨⟨_, rfl⟩, rfl⟩
  | ok _ => exact ⟨⟨_, rfl⟩, rfl⟩

theorem moved_rememberPlace {family : Family} {number : ℕ} {metadata : Metadata} (tables : Tables s) :
    Moved s (.remembering family number metadata) (rememberPlace (V := V) s family number metadata).1
      (rememberPlace (V := V) s family number metadata).2 := by
  obtain ⟨⟨answer, hanswer⟩, hshared⟩ := rememberPlace_cases (V := V) s family number metadata
  rw [hanswer, hshared]
  refine moved_plain (moved_quiet tables _ ?_) (plain_answered _)
  rw [grants_remember]
  exact quiet_remember _ _ _

theorem moved_proceed (tables : Tables s) (fits : Fits s point) :
    Moved s point (proceed s point).1 (proceed s point).2 := by
  cases point with
  | looking part rest => exact moved_look tables
  | found part rest grant => exact moved_follow tables fits
  | asking grant revoked started => exact moved_ask tables fits
  | recording grant family number => exact moved_record tables fits
  | remembering family number metadata => exact moved_rememberPlace tables
  | answered answer => exact moved_rest tables (plain_answered answer)

end Sections

section Events

variable {family : Family} {number : ℕ}

theorem grants_routeDealloc {P : Family → Type} (s : Host P) (family : Family) (number : ℕ) :
    (routeDealloc s family number).lists.grants =
      GrantRuns.next s.lists.grants (.release family.kind number) := by
  cases family <;> rfl

theorem payloads_routeDealloc {P : Family → Type} (s : Host P) (family : Family) (number : ℕ) :
    (routeDealloc s family number).payloads = (setPayload s family number none).payloads := by
  cases family <;> rfl

theorem next_routeDealloc {P : Family → Type} (s : Host P) (family : Family) (number : ℕ) :
    (routeDealloc s family number).next = s.next := by
  cases family <;> rfl

theorem moved_release (tables : Tables s) {root : GrantId}
    (held : s.holds ⟨family.kind, number⟩ = some ⟨family, root⟩) :
    Tables (release s family number) ∧ Moves s (release s family number) none := by
  have hgrants := grants_routeDealloc s.host family number
  have hnext := next_routeDealloc s.host family number
  have others {id : GrantId} {holding : Holding} (h : (release s family number).holds id = some holding) :
      id ≠ ⟨family.kind, number⟩ ∧ s.holds id = some holding := by
    by_cases heq : id = ⟨family.kind, number⟩
    · subst heq
      cases (Function.update_self _ _ _).symm.trans h
    · exact ⟨heq, (Function.update_of_ne heq _ _).symm.trans h⟩
  have stays {family' : Family} {number' : ℕ}
      (hne : (⟨family'.kind, number'⟩ : GrantId) ≠ ⟨family.kind, number⟩) :
      (release s family number).host.payloads family' number' = s.host.payloads family' number' := by
    change (routeDealloc s.host family number).payloads family' number' = _
    rw [payloads_routeDealloc]
    refine payloads_setPayload _ _ _ _ ?_
    by_cases hfamily : family' = family
    · exact .inr fun hnumber => hne (by rw [hfamily, hnumber])
    · exact .inl hfamily
  constructor
  · refine ⟨?_, ?_, ?_, ?_, ?_⟩
    · change Reachable grantSystem (routeDealloc s.host family number).lists.grants
      rw [hgrants]
      exact reachable_next trivial tables.runs
    · intro id h
      change id.number < (routeDealloc s.host family number).next id.kind
      change id ∈ (routeDealloc s.host family number).lists.grants.issued at h
      rw [hnext]
      rw [hgrants] at h
      exact tables.numbered id h
    · intro id holding h
      change id ∈ (routeDealloc s.host family number).lists.grants.issued ∧ _
      rw [hgrants]
      exact tables.issued id holding (others h).2
    · intro id holding h
      obtain ⟨hne, h⟩ := others h
      have hkind := (tables.issued id holding h).2
      rw [stays (by rwa [hkind])]
      exact tables.stored id holding h
    · intro id holding g h hg
      obtain ⟨hne, h⟩ := others h
      change (routeDealloc s.host family number).lists.grants.registry.grants.get id = some g at hg
      rw [hgrants, get_released hne] at hg
      exact tables.granted id holding g h hg
  · refine ⟨?_, fun kind => ?_, fun id h => ?_, fun family' number' hstored hfresh => ?_⟩
    · change _ ⊆ (routeDealloc s.host family number).lists.grants.accepted
      rw [hgrants]
      exact List.Subset.refl _
    · change _ ≤ (routeDealloc s.host family number).next kind
      rw [hnext]
    · change id ∈ (routeDealloc s.host family number).lists.grants.issued at h
      rw [hgrants] at h
      exact .inl h
    · -- a handle that was not given out is not the one released
      rw [stays fun heq => hfresh (heq ▸ (tables.issued _ _ held).1)]
      exact hstored

theorem moved_acquire {payload : Payload R family} {origin : Origin} {place : Option (EntryKind × Path)}
    (tables : Tables s) : Tables (acquire s family payload origin place) ∧
      Moves s (acquire s family payload origin place) none := by
  refine moved_giveOut tables ?_
  have fresh := fresh_next tables family.kind
  cases place with
  | none => exact gives_root fresh
  | some place => exact gives_root fresh

theorem moved_reopen {payload : Payload R family} {key : UInt64} {entryKind : EntryKind}
    {check : Entry → Except Unavailable Unit} (tables : Tables s) :
    Tables (HandleRuns.reopen s family payload key entryKind check) ∧
      Moves s (HandleRuns.reopen s family payload key entryKind check) none := by
  have refused := moved_quiet tables { s.host.lists with store := countRefused s.host.lists.store }
    (quiet_refl _)
  unfold HandleRuns.reopen
  cases hfind : findEntry s.host.lists.store key entryKind with
  | error reason => exact refused
  | ok entry =>
    dsimp only
    cases hcheck : check entry with
    | error reason => exact refused
    | ok _ => exact moved_giveOut tables (gives_root (fresh_next tables family.kind))

theorem moved_onLists {e : CallEvent} (tables : Tables s)
    (quiet : Quiet s.host.lists.grants (RecentCalls.next s.host.lists e).grants) :
    Tables (onLists s e) ∧ Moves s (onLists s e) none :=
  moved_quiet tables _ quiet

theorem quiet_withdraw {s : CallState} {kind : Kind} {number : ℕ} :
    Quiet s.grants (RecentCalls.next s (.revoke kind number)).grants :=
  quiet_trans (quiet_revoke _ _ _) (quiet_take _)

theorem quiet_withdrawKind {s : CallState} {hashOrder : Enumeration GrantId Grant} {kind : Kind} :
    Quiet s.grants (RecentCalls.next s (.revokeKind hashOrder kind)).grants :=
  quiet_trans (quiet_revokeKind _ _ _) (quiet_take _)

end Events

section Runs

variable {validName : String → Bool} {store : RecentStores.Store} {s s' : HandleState R V}
  {e : HandleEvent R V}

theorem moved_event (tables : Tables s.shared) (h : HandleRuns.next validName s e = some s')
    (hno : ∀ t action, e ≠ .task t action) :
    (Tables s'.shared ∧ Moves s.shared s'.shared none) ∧ s'.calls = s.calls := by
  cases e with
  | task t action => exact absurd rfl (hno t action)
  | acquire family payload origin place =>
    obtain ⟨-, ⟨⟩⟩ := Option.ite_none_left_eq_some.mp h
    exact ⟨moved_acquire tables, rfl⟩
  | reopen family payload key entryKind check =>
    obtain ⟨-, ⟨⟩⟩ := Option.ite_none_left_eq_some.mp h
    exact ⟨moved_reopen tables, rfl⟩
  | change family number payload =>
    obtain ⟨-, ⟨⟩⟩ := Option.ite_none_right_eq_some.mp h
    exact ⟨moved_payload tables, rfl⟩
  | revoke kind number =>
    cases h
    exact ⟨moved_onLists tables quiet_withdraw, rfl⟩
  | revokeKind hashOrder kind =>
    cases h
    exact ⟨moved_onLists tables quiet_withdrawKind, rfl⟩
  | release family number =>
    obtain ⟨hheld, ⟨⟩⟩ := Option.ite_none_right_eq_some.mp h
    obtain ⟨⟨_, root⟩, hholding, rfl⟩ := Option.map_eq_some_iff.mp hheld
    exact ⟨moved_release tables hholding, rfl⟩
  | forget key =>
    cases h
    exact ⟨moved_onLists tables (quiet_refl _), rfl⟩
  | beginLifecycle =>
    cases h
    exact ⟨moved_onLists tables (quiet_refl _), rfl⟩

theorem task_cases {t : ℕ} {action : Action R V}
    (h : HandleRuns.next validName s (.task t action) = some s') :
    (∃ call roots, action = .begin call ∧ busy (s.calls t) = false ∧
      rootsOf s.shared (taken validName call) = some roots ∧ s'.shared = s.shared ∧
      s'.calls = Function.update s.calls t
        (some ⟨call, ⟨roots, withdrawn s.shared roots⟩, start validName call⟩)) ∨
    ∃ running, action = .proceed ∧ s.calls t = some running ∧
      s'.shared = (proceed s.shared running.point).2 ∧ s'.calls = Function.update s.calls t
        (some { running with point := (proceed s.shared running.point).1 }) := by
  obtain ⟨call, hadvance, hcalls⟩ := step_cases h
  cases action with
  | begin call =>
    obtain ⟨hbusy, hbegun⟩ := Option.ite_none_left_eq_some.mp hadvance
    obtain ⟨roots, hroots, heq⟩ := Option.map_eq_some_iff.mp hbegun
    obtain ⟨rfl, hshared⟩ := Prod.mk.inj heq
    exact .inl ⟨call, roots, rfl, by simpa using hbusy, hroots, hshared.symm, hcalls⟩
  | proceed =>
    obtain ⟨running, hrunning, heq⟩ := Option.map_eq_some_iff.mp hadvance
    obtain ⟨rfl, hshared⟩ := Prod.mk.inj heq
    exact .inr ⟨running, rfl, hrunning, hshared.symm, hcalls⟩

theorem kept_step (kept : Kept s) (h : HandleRuns.next validName s e = some s') : Kept s' := by
  by_cases htask : ∃ t action, e = .task t action
  · obtain ⟨t, action, rfl⟩ := htask
    -- the call that runs goes on by one section, and the others see what it moved
    have go {running' : Running R V} (point : Point R V) (hcalls : s'.calls =
        Function.update s.calls t (some running')) (moved : Moved s.shared point running'.point s'.shared)
        (hpoint : ∀ id, reserved point = some id → ∃ running, s.calls t = some running ∧
          reserved running.point = some id) : Kept s' := by
      have at_t {i : ℕ} {running : Running R V} (hi : s'.calls i = some running) :
          i = t ∧ running = running' ∨ i ≠ t ∧ s.calls i = some running := by
        by_cases heq : i = t
        · subst heq
          rw [hcalls, Function.update_self] at hi
          exact .inl ⟨rfl, (Option.some.inj hi).symm⟩
        · rw [hcalls, Function.update_of_ne heq] at hi
          exact .inr ⟨heq, hi⟩
      have apart {i : ℕ} {running : Running R V} {id : GrantId} (hne : i ≠ t)
          (hi : s.calls i = some running) (hid : reserved running.point = some id) :
          reserved running'.point ≠ some id := by
        intro hid'
        rcases moved.numbers id hid' with hown | hnew
        · obtain ⟨before, hbefore, hreserved⟩ := hpoint id hown
          exact hne (kept.distinct i t _ _ id hi hbefore hid hreserved)
        · -- a number that is drawn now is past those in use
          have fits := kept.fits i running hi
          obtain ⟨call, asked, point⟩ := running
          cases point with
          | recording grant family number =>
            cases hid
            exact Nat.ne_of_lt fits.2.1 hnew
          | _ => cases hid
      refine ⟨moved.tables, fun i running hi => ?_, fun i j running runningJ id hi hj hid hid' => ?_⟩
      · rcases at_t hi with ⟨rfl, rfl⟩ | ⟨hne, hi⟩
        · exact moved.fits
        · refine fits_moves moved.moves (kept.fits i running hi) fun id hid hown => ?_
          obtain ⟨before, hbefore, hreserved⟩ := hpoint id hown
          exact hne (kept.distinct i t _ _ id hi hbefore hid hreserved)
      · rcases at_t hi with ⟨rfl, rfl⟩ | ⟨hne, hi⟩
        · rcases at_t hj with ⟨rfl, -⟩ | ⟨hne, hj⟩
          · rfl
          · exact absurd hid (apart hne hj hid')
        · rcases at_t hj with ⟨rfl, rfl⟩ | ⟨-, hj⟩
          · exact absurd hid' (apart hne hi hid)
          · exact kept.distinct i j _ _ id hi hj hid hid'
    rcases task_cases h with
      ⟨call, roots, -, -, -, hshared, hcalls⟩ | ⟨running, -, hrunning, hshared, hcalls⟩
    · refine go (.answered (.failure (.system 0))) hcalls ?_ nofun
      rw [hshared]
      exact moved_rest kept.tables plain_start
    · refine go running.point hcalls ?_ fun id hid => ⟨running, hrunning, hid⟩
      rw [hshared]
      exact moved_proceed kept.tables (kept.fits t running hrunning)
  · obtain ⟨⟨tables, moves⟩, hcalls⟩ := moved_event kept.tables h
      fun t action heq => htask ⟨t, action, heq⟩
    refine ⟨tables, fun t running ht => ?_, ?_⟩
    · rw [hcalls] at ht
      exact fits_moves moves (kept.fits t running ht) fun _ _ => nofun
    · rw [hcalls]
      exact kept.distinct

theorem tables_started : Tables (started store : HandleState R V).shared where
  runs := reachable_initial grantSystem
  numbered id h := by
    change id ∈ (∅ : Finset GrantId) at h
    cases h
  issued _ _ h := by cases h
  stored _ _ h := by cases h
  granted _ _ _ h := by cases h

theorem kept_started : Kept (started store : HandleState R V) where
  tables := tables_started
  fits _ _ h := by cases h
  distinct _ _ _ _ _ h := by cases h

theorem kept (h : Reachable (handleSystem validName store) s) : Kept s :=
  reachable_invariant (S := handleSystem validName store) kept_started
    (fun _ _ _ kept step => kept_step kept step.2) h

end Runs

section Acceptances

variable {s : Shared R} {family : Family} {number : ℕ} {root : GrantId} {needs : Rights}

theorem accept_held (tables : Tables s) (held : s.holds ⟨family.kind, number⟩ = some ⟨family, root⟩)
    (hneeds : family.rights.Contains needs) :
    (s.host.registry.grants.get ⟨family.kind, number⟩ = none ∧
      (accept family.kind number s.host.registry needs).1 = .error .unknown) ∨
    ∃ g, s.host.registry.grants.get ⟨family.kind, number⟩ = some g ∧ g.root = root ∧
      g.rights = family.rights ∧
      (root ∈ s.host.registry.revokedRoots ∧
          (accept family.kind number s.host.registry needs).1 = .error .revoked ∨
        root ∉ s.host.registry.revokedRoots ∧ g.revoked = false ∧
          (accept family.kind number s.host.registry needs).1 = .ok g) := by
  cases hget : s.host.registry.grants.get ⟨family.kind, number⟩ with
  | none => exact .inl ⟨rfl, by simp [accept, hget]⟩
  | some g =>
    obtain ⟨hrights, hroot⟩ := Prod.mk.inj (tables.granted _ _ g held hget)
    dsimp only at hrights hroot
    have hflag := (roots_agree tables.runs).flags g ⟨_, hget⟩
    refine .inr ⟨g, rfl, hroot, hrights, ?_⟩
    subst hroot
    by_cases hrevoked : g.root ∈ s.host.registry.revokedRoots
    · exact .inl ⟨hrevoked, by simp [accept, hget, hrevoked]⟩
    · have hlive : g.revoked = false := Bool.eq_false_iff.mpr (mt hflag.mp hrevoked)
      refine .inr ⟨hrevoked, hlive, ?_⟩
      simp [accept, hget, hrevoked, Grant.Live, hlive, hrights, hneeds]

theorem remember_held (tables : Tables s) (held : s.holds ⟨family.kind, number⟩ = some ⟨family, root⟩) :
    (s.host.registry.grants.get ⟨family.kind, number⟩ = none ∧
      (Grants.remember family.kind number s.host.registry).1 = .error .unknown) ∨
    ∃ g, s.host.registry.grants.get ⟨family.kind, number⟩ = some g ∧ g.root = root ∧
      (root ∈ s.host.registry.revokedRoots ∧
          (Grants.remember family.kind number s.host.registry).1 = .error .revoked ∨
        root ∉ s.host.registry.revokedRoots ∧
          ∀ refusal, (Grants.remember family.kind number s.host.registry).1 = .error refusal →
            refusal = .rights) := by
  cases hget : s.host.registry.grants.get ⟨family.kind, number⟩ with
  | none => exact .inl ⟨rfl, by simp [Grants.remember, hget]⟩
  | some g =>
    obtain ⟨-, hroot⟩ := Prod.mk.inj (tables.granted _ _ g held hget)
    dsimp only at hroot
    have hflag := (roots_agree tables.runs).flags g ⟨_, hget⟩
    refine .inr ⟨g, rfl, hroot, ?_⟩
    subst hroot
    by_cases hrevoked : g.root ∈ s.host.registry.revokedRoots
    · exact .inl ⟨hrevoked, by simp [Grants.remember, hget, hrevoked]⟩
    · refine .inr ⟨hrevoked, fun refusal hrefusal => ?_⟩
      have hlive : g.revoked = false := Bool.eq_false_iff.mpr (mt hflag.mp hrevoked)
      by_cases hright : g.parent.isSome ∨ g.origin = .automatic
      · simp only [Grants.remember, hget, Grant.Live, hlive, hrevoked, not_true_eq_false, or_self, if_false,
          hright, if_true] at hrefusal
        exact (Except.error.inj hrefusal).symm
      · simp only [Grants.remember, hget, Grant.Live, hlive, hrevoked, not_true_eq_false, or_self, if_false,
          hright] at hrefusal
        cases hrefusal

theorem holds_of_rootsOf {handles : List (Family × ℕ)} {roots : List GrantId}
    (h : rootsOf s handles = some roots) {handle : Family × ℕ} (hmem : handle ∈ handles) :
    ∃ root ∈ roots, s.holds ⟨handle.1.kind, handle.2⟩ = some ⟨handle.1, root⟩ := by
  induction handles generalizing roots with
  | nil => cases hmem
  | cons first handles ih =>
    obtain ⟨family, number⟩ := first
    rw [rootsOf, List.mapM_cons] at h
    obtain ⟨root, hroot, hbind⟩ := Option.bind_eq_some_iff.mp h
    obtain ⟨rest, hrest, heq⟩ := Option.bind_eq_some_iff.mp hbind
    obtain rfl := Option.some.inj heq
    rcases List.mem_cons.mp hmem with rfl | hmem
    · cases hholds : s.holds ⟨family.kind, number⟩ with
      | none => simp [hholds] at hroot
      | some holding =>
        simp only [hholds] at hroot
        obtain ⟨hfamily, ⟨⟩⟩ := Option.ite_none_right_eq_some.mp hroot
        exact ⟨_, List.mem_cons_self, by rw [← hfamily]⟩
    · obtain ⟨root', hroot', hholds⟩ := ih hrest hmem
      exact ⟨root', List.mem_cons_of_mem _ hroot', hholds⟩

end Acceptances

end Tables

end HandleTables
