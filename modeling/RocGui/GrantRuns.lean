import RocGui.Grants
import RocGui.Transitions

/-! The grants of one root, over every interleaving of the registry's calls. A call that
accepted a grant may derive from its copy at any later time. -/
namespace GrantRuns

open FiniteMaps Grants Transitions

structure GrantState where
  registry : Registry
  /-- Every grant that `accept` has returned. -/
  accepted : List Grant
  /-- Every handle for which a grant was recorded. -/
  issued : Finset GrantId

inductive GrantEvent where
  | recordRoot (kind : Kind) (number : ℕ) (rights : Rights) (origin : Origin) (lifetime : Lifetime)
  | recordDescendant (kind : Kind) (number : ℕ) (rights : Rights) (parent : Grant)
  | accept (kind : Kind) (number : ℕ) (needs : Rights)
  | release (kind : Kind) (number : ℕ)
  | remember (kind : Kind) (number : ℕ)
  | revoke (kind : Kind) (number : ℕ)
  | revokeKind (hashOrder : Enumeration GrantId Grant) (kind : Kind)
  | takeWithdrawnRemembered
  | forgetKind (kind : Kind)

def Enabled (s : GrantState) : GrantEvent → Prop
  | .recordRoot kind number .. => ⟨kind, number⟩ ∉ s.issued
  | .recordDescendant kind number _ parent => ⟨kind, number⟩ ∉ s.issued ∧ parent ∈ s.accepted
  | _ => True

instance (s : GrantState) (e : GrantEvent) : Decidable (Enabled s e) := by
  cases e <;> simp only [Enabled] <;> infer_instance

def next (s : GrantState) : GrantEvent → GrantState
  | .recordRoot kind number rights origin lifetime =>
    { s with
      registry := recordRoot kind number rights s.registry origin lifetime
      issued := insert ⟨kind, number⟩ s.issued }
  | .recordDescendant kind number rights parent =>
    { s with
      registry := (recordDescendant kind number rights s.registry parent).2
      issued := insert ⟨kind, number⟩ s.issued }
  | .accept kind number needs =>
    { s with
      registry := (accept kind number s.registry needs).2
      accepted := s.accepted ++ (accept kind number s.registry needs).1.toOption.toList }
  | .release kind number => { s with registry := release kind number s.registry }
  | .remember kind number => { s with registry := (remember kind number s.registry).2 }
  | .revoke kind number => { s with registry := (revoke kind number s.registry).2 }
  | .revokeKind hashOrder kind => { s with registry := (revokeKind hashOrder kind s.registry).2 }
  | .takeWithdrawnRemembered => { s with registry := (takeWithdrawnRemembered s.registry).2 }
  | .forgetKind kind => { s with registry := forgetKind kind s.registry }

def grantSystem : System GrantState GrantEvent := guarded ⟨.empty, [], ∅⟩ Enabled next

def Recorded (registry : Registry) (grant : Grant) : Prop :=
  ∃ id, registry.grants.get id = some grant

section Steps

variable {r r' : Registry} {kind : Kind} {number : ℕ} {rights : Rights} {grant g : Grant}

theorem recorded_set {id : GrantId} {k n : ℕ} {withdrawn : List GrantId} {roots : Finset GrantId}
    (h : Recorded ⟨r.grants.set id grant, roots, k, n, r.revoked, r.denied, withdrawn⟩ g) :
    g = grant ∨ Recorded r g := by
  obtain ⟨x, hx⟩ := h
  by_cases heq : x = id
  · subst heq
    rw [FiniteMap.get_set_self] at hx
    exact .inl (Option.some.inj hx).symm
  · exact .inr ⟨x, by rwa [FiniteMap.get_set_ne _ _ heq] at hx⟩

theorem recorded_root {origin : Origin} {lifetime : Lifetime}
    (h : Recorded (recordRoot kind number rights r origin lifetime) g) :
    g = ⟨⟨kind, number⟩, rights, origin, lifetime, none, ⟨kind, number⟩, false⟩ ∨ Recorded r g :=
  recorded_set h

theorem descendant_cases (kind : Kind) (number : ℕ) (rights : Rights) (r : Registry)
    (parent : Grant) :
    (¬parent.rights.Contains .derive ∨ parent.root ∈ r.revokedRoots) ∧
        recordDescendant kind number rights r parent = (false, r) ∨
      parent.rights.Contains .derive ∧ parent.root ∉ r.revokedRoots ∧
        (recordDescendant kind number rights r parent).1 = true ∧
        (recordDescendant kind number rights r parent).2.revokedRoots = r.revokedRoots ∧
        ∀ g, Recorded (recordDescendant kind number rights r parent).2 g →
          g = ⟨⟨kind, number⟩, rights, parent.origin, parent.lifetime, some parent.id, parent.root,
            false⟩ ∨ Recorded r g := by
  by_cases hderive : parent.rights.Contains .derive
  · by_cases hroot : parent.root ∈ r.revokedRoots
    · exact .inl ⟨.inr hroot, by simp [recordDescendant, hderive, hroot]⟩
    · refine .inr ⟨hderive, hroot, ?_⟩
      simp only [recordDescendant, hderive, hroot, not_true_eq_false, if_false, true_and]
      exact fun g hg => recorded_set hg
  · exact .inl ⟨.inl hderive, by simp [recordDescendant, hderive]⟩

theorem accept_cases (kind : Kind) (number : ℕ) (r : Registry) (needs : Rights) :
    (accept kind number r needs).2.grants = r.grants ∧
      (accept kind number r needs).2.revokedRoots = r.revokedRoots ∧
      ∀ g, (accept kind number r needs).1 = .ok g →
        r.grants.get ⟨kind, number⟩ = some g ∧ g.revoked = false ∧ g.root ∉ r.revokedRoots := by
  unfold accept
  split
  · exact ⟨rfl, rfl, fun g h => by cases h⟩
  · rename_i grant hgrant
    split
    · exact ⟨rfl, rfl, fun g h => by cases h⟩
    · rename_i hlive
      rw [not_or, not_not] at hlive
      split
      · exact ⟨rfl, rfl, fun g h => by cases h⟩
      · refine ⟨rfl, rfl, fun g h => ?_⟩
        obtain rfl := Except.ok.inj h
        exact ⟨hgrant, hlive⟩

theorem mem_outcome {outcome : Except Refusal Grant} :
    g ∈ outcome.toOption.toList ↔ outcome = .ok g := by
  cases outcome with
  | error refusal => simp [Except.toOption]
  | ok grant => simp [Except.toOption, eq_comm]

theorem recorded_release (h : Recorded (release kind number r) g) : Recorded r g := by
  unfold release at h
  split at h
  · obtain ⟨x, hx⟩ := h
    rw [FiniteMap.get_remove] at hx
    split at hx
    · cases hx
    · exact ⟨x, hx⟩
  · exact h

theorem release_roots (kind : Kind) (number : ℕ) (r : Registry) :
    (release kind number r).revokedRoots = r.revokedRoots := by
  unfold release
  split <;> rfl

theorem recorded_map {f : Grant → Grant} (hgrants : r'.grants = r.grants.mapValues f)
    (h : Recorded r' g) : ∃ grant, Recorded r grant ∧ f grant = g := by
  obtain ⟨x, hx⟩ := h
  rw [hgrants, FiniteMap.get_mapValues] at hx
  obtain ⟨grant, hgrant, heq⟩ := Option.map_eq_some_iff.mp hx
  exact ⟨grant, ⟨x, hgrant⟩, heq⟩

theorem remember_cases (kind : Kind) (number : ℕ) (r : Registry) :
    (remember kind number r).2.revokedRoots = r.revokedRoots ∧
      ((remember kind number r).2 = r ∨
        ∃ root, (remember kind number r).2.grants = r.grants.mapValues (keep root)) := by
  unfold remember
  split
  · exact ⟨rfl, .inl rfl⟩
  · split
    · exact ⟨rfl, .inl rfl⟩
    · split
      · exact ⟨rfl, .inl rfl⟩
      · exact ⟨rfl, .inr ⟨_, rfl⟩⟩

theorem revoke_cases (kind : Kind) (number : ℕ) (r : Registry) :
    r.grants.get ⟨kind, number⟩ = none ∧ (revoke kind number r).2 = r ∨
      ∃ target, r.grants.get ⟨kind, number⟩ = some target ∧
        (revoke kind number r).2.revokedRoots = insert target.root r.revokedRoots ∧
        (revoke kind number r).2.grants =
          r.grants.mapValues (flag fun grant => grant.root = target.root) := by
  unfold revoke
  split
  · rename_i hnone
    exact .inl ⟨hnone, rfl⟩
  · rename_i target htarget
    exact .inr ⟨target, htarget, rfl, rfl⟩

theorem revoke_kind_roots {hashOrder : Enumeration GrantId Grant} {x : GrantId} :
    x ∈ (revokeKind hashOrder kind r).2.revokedRoots ↔
      x ∈ r.revokedRoots ∨ ∃ grant, Recorded r grant ∧ grant.root.kind = kind ∧ grant.root = x := by
  simp only [revokeKind, Finset.mem_union, List.mem_toFinset, List.mem_map, List.mem_filter,
    decide_eq_true_eq]
  refine or_congr_right ⟨?_, ?_⟩
  · rintro ⟨grant, ⟨⟨⟨id, grant'⟩, hmem, rfl⟩, hkind⟩, hx⟩
    exact ⟨grant', ⟨id, (hashOrder.listed _ _ _).mp hmem⟩, hkind, hx⟩
  · rintro ⟨grant, ⟨id, hget⟩, hkind, hx⟩
    exact ⟨grant, ⟨⟨(id, grant), (hashOrder.listed _ _ _).mpr hget, rfl⟩, hkind⟩, hx⟩

theorem recorded_forget (h : Recorded (forgetKind kind r) g) : Recorded r g ∧ g.root.kind ≠ kind := by
  obtain ⟨x, hx⟩ := h
  obtain ⟨hget, hp⟩ := FiniteMap.get_retain.mp hx
  exact ⟨⟨x, hget⟩, (of_decide_eq_true hp).2⟩

@[simp] theorem flag_root (p : Grant → Bool) (grant : Grant) : (flag p grant).root = grant.root := by
  unfold flag
  split <;> rfl

@[simp] theorem flag_origin (p : Grant → Bool) (grant : Grant) :
    (flag p grant).origin = grant.origin := by
  unfold flag
  split <;> rfl

@[simp] theorem flag_lifetime (p : Grant → Bool) (grant : Grant) :
    (flag p grant).lifetime = grant.lifetime := by
  unfold flag
  split <;> rfl

theorem flag_revoked (p : Grant → Bool) (grant : Grant) :
    (flag p grant).revoked = true ↔ p grant = true ∨ grant.revoked = true := by
  unfold flag
  cases p grant <;> cases h : grant.revoked <;> simp [h]

@[simp] theorem keep_root (root : GrantId) (grant : Grant) : (keep root grant).root = grant.root := by
  unfold keep
  split <;> rfl

@[simp] theorem keep_origin (root : GrantId) (grant : Grant) :
    (keep root grant).origin = grant.origin := by
  unfold keep
  split <;> rfl

@[simp] theorem keep_revoked (root : GrantId) (grant : Grant) :
    (keep root grant).revoked = grant.revoked := by
  unfold keep
  split <;> rfl

end Steps

section Agreement

variable {s : GrantState} {e : GrantEvent} {a b g : Grant}

def Known (s : GrantState) (g : Grant) : Prop := Recorded s.registry g ∨ g ∈ s.accepted

structure RootsAgree (s : GrantState) : Prop where
  issued : ∀ g, Known s g → g.root ∈ s.issued
  withdrawn : s.registry.revokedRoots ⊆ s.issued
  origins : ∀ a b, Known s a → Known s b → a.root = b.root → a.origin = b.origin
  flags : ∀ g, Recorded s.registry g → (g.revoked = true ↔ g.root ∈ s.registry.revokedRoots)

theorem known_step (enabled : Enabled s e) (h : Known (next s e) g) :
    (∃ g', Known s g' ∧ g'.root = g.root ∧ g'.origin = g.origin) ∨
      g.root ∉ s.issued ∧ g.root ∈ (next s e).issued ∧
        ∀ b, Known (next s e) b → Known s b ∨ b = g := by
  have same {g' : Grant} (h : Known s g') : ∃ x, Known s x ∧ x.root = g'.root ∧ x.origin = g'.origin :=
    ⟨g', h, rfl, rfl⟩
  have changed {f : Grant → Grant} {r : Registry} (hgrants : r.grants = s.registry.grants.mapValues f)
      (hroot : ∀ x, (f x).root = x.root) (horigin : ∀ x, (f x).origin = x.origin)
      (h : Known { s with registry := r } g) :
      ∃ x, Known s x ∧ x.root = g.root ∧ x.origin = g.origin := by
    rcases h with h | h
    · obtain ⟨x, hx, rfl⟩ := recorded_map hgrants h
      exact ⟨x, .inl hx, (hroot x).symm, (horigin x).symm⟩
    · exact same (.inr h)
  cases e with
  | recordRoot kind number rights origin lifetime =>
    rcases h with h | h
    · rcases recorded_root h with rfl | h
      · refine .inr ⟨enabled, Finset.mem_insert_self _ _, fun b hb => ?_⟩
        rcases hb with hb | hb
        · rcases recorded_root hb with rfl | hb
          · exact .inr rfl
          · exact .inl (.inl hb)
        · exact .inl (.inr hb)
      · exact .inl (same (.inl h))
    · exact .inl (same (.inr h))
  | recordDescendant kind number rights parent =>
    refine .inl ?_
    rcases h with h | h
    · rcases descendant_cases kind number rights s.registry parent with ⟨-, heq⟩ | ⟨-, -, -, -, hall⟩
      · exact same (.inl (by rwa [next, heq] at h))
      · rcases hall g h with rfl | h
        · exact ⟨parent, .inr enabled.2, rfl, rfl⟩
        · exact same (.inl h)
    · exact same (.inr h)
  | accept kind number needs =>
    refine .inl ?_
    obtain ⟨hgrants, -, hok⟩ := accept_cases kind number s.registry needs
    rcases h with ⟨x, hx⟩ | h
    · exact same (.inl ⟨x, hgrants ▸ hx⟩)
    · rcases List.mem_append.mp h with h | h
      · exact same (.inr h)
      · exact same (.inl ⟨_, (hok g (mem_outcome.mp h)).1⟩)
  | release kind number =>
    refine .inl ?_
    rcases h with h | h
    · exact same (.inl (recorded_release h))
    · exact same (.inr h)
  | remember kind number =>
    refine .inl ?_
    rcases (remember_cases kind number s.registry).2 with heq | ⟨root, hgrants⟩
    · rw [next, heq] at h
      exact same h
    · exact changed hgrants (keep_root root) (keep_origin root) h
  | revoke kind number =>
    refine .inl ?_
    rcases revoke_cases kind number s.registry with ⟨-, heq⟩ | ⟨target, -, -, hgrants⟩
    · rw [next, heq] at h
      exact same h
    · exact changed hgrants (flag_root _) (flag_origin _) h
  | revokeKind hashOrder kind =>
    exact .inl (changed rfl (flag_root fun grant => grant.root.kind = kind) (flag_origin _) h)
  | takeWithdrawnRemembered => exact .inl (same h)
  | forgetKind kind =>
    refine .inl ?_
    rcases h with h | h
    · exact same (.inl (recorded_forget h).1)
    · exact same (.inr h)

theorem issued_mono (s : GrantState) (e : GrantEvent) : s.issued ⊆ (next s e).issued := by
  cases e with
  | recordRoot | recordDescendant => exact Finset.subset_insert _ _
  | _ => exact Finset.Subset.refl _

theorem withdrawn_step {x : GrantId} (h : x ∈ (next s e).registry.revokedRoots) :
    x ∈ s.registry.revokedRoots ∨ ∃ g, Recorded s.registry g ∧ g.root = x := by
  cases e with
  | recordRoot | takeWithdrawnRemembered => exact .inl h
  | recordDescendant kind number rights parent =>
    rcases descendant_cases kind number rights s.registry parent with ⟨-, heq⟩ | ⟨-, -, -, heq, -⟩
    · rw [next, heq] at h
      exact .inl h
    · exact .inl (heq ▸ h)
  | accept kind number needs => exact .inl ((accept_cases kind number s.registry needs).2.1 ▸ h)
  | release kind number => exact .inl (release_roots kind number s.registry ▸ h)
  | remember kind number => exact .inl ((remember_cases kind number s.registry).1 ▸ h)
  | revoke kind number =>
    rcases revoke_cases kind number s.registry with ⟨-, heq⟩ | ⟨target, htarget, hroots, -⟩
    · rw [next, heq] at h
      exact .inl h
    · rcases Finset.mem_insert.mp (hroots ▸ h) with rfl | h
      · exact .inr ⟨target, ⟨_, htarget⟩, rfl⟩
      · exact .inl h
  | revokeKind hashOrder kind =>
    rcases revoke_kind_roots.mp h with h | ⟨g, hg, -, rfl⟩
    · exact .inl h
    · exact .inr ⟨g, hg, rfl⟩
  | forgetKind kind => exact .inl (Finset.mem_filter.mp h).1

theorem flags_step (agree : RootsAgree s) (enabled : Enabled s e)
    (h : Recorded (next s e).registry g) :
    g.revoked = true ↔ g.root ∈ (next s e).registry.revokedRoots := by
  have unissued {x : GrantId} (hx : x ∉ s.issued) : x ∉ s.registry.revokedRoots :=
    fun hmem => hx (agree.withdrawn hmem)
  cases e with
  | recordRoot kind number rights origin lifetime =>
    rcases recorded_root h with rfl | h
    · have := unissued enabled
      simpa [next, recordRoot] using this
    · exact agree.flags g h
  | recordDescendant kind number rights parent =>
    rcases descendant_cases kind number rights s.registry parent with
      ⟨-, heq⟩ | ⟨-, hroot, -, heq, hall⟩
    · rw [next, heq] at h ⊢
      exact agree.flags g h
    · change _ ↔ g.root ∈ (Grants.recordDescendant kind number rights s.registry parent).2.revokedRoots
      rw [heq]
      rcases hall g h with rfl | h
      · simpa using hroot
      · exact agree.flags g h
  | accept kind number needs =>
    obtain ⟨hgrants, hroots, -⟩ := accept_cases kind number s.registry needs
    obtain ⟨x, hx⟩ := h
    change _ ↔ g.root ∈ (Grants.accept kind number s.registry needs).2.revokedRoots
    rw [hroots]
    exact agree.flags g ⟨x, hgrants ▸ hx⟩
  | release kind number =>
    change _ ↔ g.root ∈ (Grants.release kind number s.registry).revokedRoots
    rw [release_roots]
    exact agree.flags g (recorded_release h)
  | remember kind number =>
    obtain ⟨hroots, heq | ⟨root, hgrants⟩⟩ := remember_cases kind number s.registry
    · rw [next, heq] at h ⊢
      exact agree.flags g h
    · change _ ↔ g.root ∈ (Grants.remember kind number s.registry).2.revokedRoots
      obtain ⟨x, hx, rfl⟩ := recorded_map hgrants h
      rw [hroots, keep_revoked, keep_root]
      exact agree.flags x hx
  | revoke kind number =>
    rcases revoke_cases kind number s.registry with ⟨-, heq⟩ | ⟨target, -, hroots, hgrants⟩
    · rw [next, heq] at h ⊢
      exact agree.flags g h
    · change _ ↔ g.root ∈ (Grants.revoke kind number s.registry).2.revokedRoots
      obtain ⟨x, hx, rfl⟩ := recorded_map hgrants h
      rw [hroots, flag_revoked, flag_root, agree.flags x hx, Finset.mem_insert, decide_eq_true_eq]
  | revokeKind hashOrder kind =>
    obtain ⟨x, hx, rfl⟩ := recorded_map (f := flag fun grant => grant.root.kind = kind) rfl h
    rw [flag_revoked, flag_root, agree.flags x hx, decide_eq_true_eq]
    change _ ↔ x.root ∈ (Grants.revokeKind hashOrder kind s.registry).2.revokedRoots
    rw [revoke_kind_roots]
    constructor
    · rintro (hkind | hroot)
      · exact .inr ⟨x, hx, hkind, rfl⟩
      · exact .inl hroot
    · rintro (hroot | ⟨y, -, hkind, heq⟩)
      · exact .inr hroot
      · exact .inl (heq ▸ hkind)
  | takeWithdrawnRemembered => exact agree.flags g h
  | forgetKind kind =>
    obtain ⟨h, hkind⟩ := recorded_forget h
    rw [agree.flags g h]
    exact ⟨fun hroot => Finset.mem_filter.mpr ⟨hroot, by simpa using hkind⟩,
      fun hroot => (Finset.mem_filter.mp hroot).1⟩

theorem roots_agree_step (agree : RootsAgree s) (enabled : Enabled s e) : RootsAgree (next s e) where
  issued g h := by
    rcases known_step enabled h with ⟨g', h', heq, -⟩ | ⟨-, hnew, -⟩
    · exact issued_mono s e (heq ▸ agree.issued g' h')
    · exact hnew
  withdrawn x h := by
    rcases withdrawn_step h with h | ⟨g, hg, rfl⟩
    · exact issued_mono s e (agree.withdrawn h)
    · exact issued_mono s e (agree.issued g (.inl hg))
  origins a b ha hb heq := by
    rcases known_step enabled ha with ⟨a', ha', hroot, horigin⟩ | ⟨hfresh, -, hall⟩
    · rcases known_step enabled hb with ⟨b', hb', hroot', horigin'⟩ | ⟨hfresh', -, hall'⟩
      · rw [← horigin, ← horigin']
        exact agree.origins a' b' ha' hb' (by rw [hroot, hroot', heq])
      · rcases hall' a ha with ha | rfl
        · exact absurd (heq ▸ agree.issued a ha) hfresh'
        · rfl
    · rcases hall b hb with hb | rfl
      · exact absurd (heq ▸ agree.issued b hb) hfresh
      · rfl
  flags g h := flags_step agree enabled h

theorem roots_agree (h : Reachable grantSystem s) : RootsAgree s := by
  refine guarded_invariant (P := RootsAgree) ⟨?_, ?_, ?_, ?_⟩
    (fun s e agree enabled => roots_agree_step agree enabled) h
  · rintro g (⟨x, hx⟩ | hg)
    · simp [Registry.empty] at hx
    · cases hg
  · exact Finset.empty_subset _
  · rintro a b (⟨x, hx⟩ | ha) -
    · simp [Registry.empty] at hx
    · cases ha
  · rintro g ⟨x, hx⟩
    simp [Registry.empty] at hx

end Agreement

section Edits

variable {s : GrantState} {e : GrantEvent}

structure SameGrant (g g' : Grant) : Prop where
  id : g'.id = g.id
  parent : g'.parent = g.parent
  root : g'.root = g.root
  revoked : g'.revoked = false → g.revoked = false

theorem same_grant_refl (g : Grant) : SameGrant g g := ⟨rfl, rfl, rfl, fun h => h⟩

theorem same_grant_flag (selects : Grant → Bool) (g : Grant) : SameGrant g (flag selects g) := by
  unfold flag
  split
  · exact ⟨rfl, rfl, rfl, fun h => by cases h⟩
  · exact same_grant_refl g

theorem same_grant_keep (root : GrantId) (g : Grant) : SameGrant g (keep root g) := by
  unfold keep
  split
  · exact ⟨rfl, rfl, rfl, fun h => h⟩
  · exact same_grant_refl g

/-- What an event does to the recorded grants. -/
inductive Edit (s : GrantState) : GrantEvent → FiniteMap GrantId Grant → Prop where
  | mapped {e f} (same : ∀ g, SameGrant g (f g)) : Edit s e (s.registry.grants.mapValues f)
  | root {kind number rights origin lifetime} (fresh : ⟨kind, number⟩ ∉ s.issued) :
    Edit s (.recordRoot kind number rights origin lifetime) (s.registry.grants.set ⟨kind, number⟩
      ⟨⟨kind, number⟩, rights, origin, lifetime, none, ⟨kind, number⟩, false⟩)
  | descendant {kind number rights parent} (fresh : ⟨kind, number⟩ ∉ s.issued)
      (held : parent ∈ s.accepted) (derives : parent.rights.Contains .derive)
      (live : parent.root ∉ s.registry.revokedRoots) :
    Edit s (.recordDescendant kind number rights parent) (s.registry.grants.set ⟨kind, number⟩
      ⟨⟨kind, number⟩, rights, parent.origin, parent.lifetime, some parent.id, parent.root, false⟩)
  | released {kind number} : Edit s (.release kind number) (s.registry.grants.remove ⟨kind, number⟩)
  | forgotten {kind} : Edit s (.forgetKind kind) (s.registry.grants.retain fun held grant =>
      held.kind ≠ kind ∧ grant.root.kind ≠ kind)

theorem map_values_id (m : FiniteMap GrantId Grant) : m.mapValues (fun g => g) = m := by
  ext k
  simp

theorem edit_unchanged (h : (next s e).registry.grants = s.registry.grants) :
    Edit s e (next s e).registry.grants := by
  rw [h, ← map_values_id s.registry.grants]
  exact .mapped same_grant_refl

theorem edit_step (enabled : Enabled s e) : Edit s e (next s e).registry.grants := by
  cases e with
  | recordRoot kind number rights origin lifetime => exact .root enabled
  | recordDescendant kind number rights parent =>
    by_cases hderive : parent.rights.Contains .derive
    · by_cases hroot : parent.root ∈ s.registry.revokedRoots
      · exact edit_unchanged (by simp [next, recordDescendant, hderive, hroot])
      · have hgrants : (next s (.recordDescendant kind number rights parent)).registry.grants =
            s.registry.grants.set ⟨kind, number⟩ ⟨⟨kind, number⟩, rights, parent.origin,
              parent.lifetime, some parent.id, parent.root, false⟩ := by
          simp [next, recordDescendant, hderive, hroot]
        rw [hgrants]
        exact .descendant enabled.1 enabled.2 hderive hroot
    · exact edit_unchanged (by simp [next, recordDescendant, hderive])
  | accept kind number needs => exact edit_unchanged (accept_cases kind number s.registry needs).1
  | release kind number =>
    have hgrants : (next s (.release kind number)).registry.grants =
        s.registry.grants.remove ⟨kind, number⟩ := by
      change (Grants.release kind number s.registry).grants = _
      unfold release
      split
      · rfl
      · rename_i hnone
        ext x : 1
        rw [FiniteMap.get_remove]
        split
        · rename_i heq
          rw [heq, Option.not_isSome_iff_eq_none.mp hnone]
        · rfl
    rw [hgrants]
    exact .released
  | remember kind number =>
    rcases (remember_cases kind number s.registry).2 with heq | ⟨root, hgrants⟩
    · exact edit_unchanged (by rw [next, heq])
    · change Edit s _ (Grants.remember kind number s.registry).2.grants
      rw [hgrants]
      exact .mapped (same_grant_keep root)
  | revoke kind number =>
    rcases revoke_cases kind number s.registry with ⟨-, heq⟩ | ⟨target, -, -, hgrants⟩
    · exact edit_unchanged (by rw [next, heq])
    · change Edit s _ (Grants.revoke kind number s.registry).2.grants
      rw [hgrants]
      exact .mapped (same_grant_flag _)
  | revokeKind hashOrder kind => exact .mapped (same_grant_flag _)
  | takeWithdrawnRemembered => exact edit_unchanged rfl
  | forgetKind kind => exact .forgotten

end Edits

end GrantRuns
