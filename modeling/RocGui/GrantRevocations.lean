import RocGui.GrantRuns

/-! What a revocation bars for good, and what the grants of one root have in common. -/
namespace GrantRevocations

open FiniteMaps Grants GrantRuns Transitions

section Barred

variable {s s' t : GrantState} {e : GrantEvent} {root : GrantId} {g : Grant}

/-- A copy that `record_descendant` would record a grant from. -/
def Derives (s : GrantState) (copy : Grant) : Prop :=
  copy ∈ s.accepted ∧ copy.rights.Contains .derive ∧ copy.root ∉ s.registry.revokedRoots

/-- A revoked root is not forgotten while a call may still derive from it, and a kind is
revoked while every root that may still be derived from has a grant. -/
def Covers (s : GrantState) : GrantEvent → Prop
  | .forgetKind kind => ∀ copy ∈ s.accepted, copy.rights.Contains .derive →
      copy.root.kind = kind → copy.root ∉ s.registry.revokedRoots
  | .revokeKind _ kind => ∀ copy, Derives s copy → copy.root.kind = kind →
      ∃ g, Recorded s.registry g ∧ g.root = copy.root
  | _ => True

def Revokes (s : GrantState) (root : GrantId) : GrantEvent → Prop
  | .revoke kind number => ∃ g, s.registry.grants.get ⟨kind, number⟩ = some g ∧ g.root = root
  | .revokeKind _ kind => root.kind = kind ∧ root ∈ s.issued
  | _ => False

/-- Nothing accepts or derives below `root` any more. -/
structure Barred (s : GrantState) (root : GrantId) : Prop where
  issued : root ∈ s.issued
  barred : root ∈ s.registry.revokedRoots ∨ (∀ g, Recorded s.registry g → g.root ≠ root) ∧
    ∀ copy ∈ s.accepted, copy.rights.Contains .derive → copy.root ≠ root

theorem barred_of_revoked (agree : RootsAgree s) (covers : Covers s e) (h : Revokes s root e) :
    Barred (next s e) root := by
  cases e with
  | revoke kind number =>
    obtain ⟨g, hg, rfl⟩ := h
    refine ⟨agree.issued g (.inl ⟨_, hg⟩), .inl ?_⟩
    rcases revoke_cases kind number s.registry with ⟨hnone, -⟩ | ⟨target, htarget, hroots, -⟩
    · cases hnone.symm.trans hg
    · obtain rfl := Option.some.inj (hg.symm.trans htarget)
      change g.root ∈ (Grants.revoke kind number s.registry).2.revokedRoots
      rw [hroots]
      exact Finset.mem_insert_self _ _
  | revokeKind hashOrder kind =>
    obtain ⟨hkind, hissued⟩ := h
    refine ⟨hissued, ?_⟩
    by_cases hroot : root ∈ (next s (.revokeKind hashOrder kind)).registry.revokedRoots
    · exact .inl hroot
    -- no grant of the root was recorded, so no copy can derive from it
    have hnone : ∀ g, Recorded s.registry g → g.root ≠ root := by
      rintro g hg rfl
      exact hroot (revoke_kind_roots.mpr (.inr ⟨g, hg, hkind, rfl⟩))
    refine .inr ⟨fun g hg => ?_, fun copy hcopy hderive heq => ?_⟩
    · obtain ⟨x, hx, rfl⟩ := recorded_map (f := flag fun grant => grant.root.kind = kind) rfl hg
      rw [flag_root]
      exact hnone x hx
    · have hwithdrawn : copy.root ∉ s.registry.revokedRoots := by
        intro hmem
        exact hroot (revoke_kind_roots.mpr (.inl (heq ▸ hmem)))
      obtain ⟨g, hg, hsame⟩ := covers copy ⟨hcopy, hderive, hwithdrawn⟩ (by rw [heq, hkind])
      exact hnone g hg (hsame.trans heq)
  | _ => exact h.elim

theorem withdrawn_stays (h : root ∈ s.registry.revokedRoots) :
    root ∈ (next s e).registry.revokedRoots ∨ e = .forgetKind root.kind := by
  cases e with
  | recordRoot | takeWithdrawnRemembered => exact .inl h
  | recordDescendant kind number rights parent =>
    refine .inl ?_
    rcases descendant_cases kind number rights s.registry parent with ⟨-, heq⟩ | ⟨-, -, -, heq, -⟩
    · rw [next, heq]
      exact h
    · exact heq ▸ h
  | accept kind number needs => exact .inl ((accept_cases kind number s.registry needs).2.1 ▸ h)
  | release kind number => exact .inl (release_roots kind number s.registry ▸ h)
  | remember kind number => exact .inl ((remember_cases kind number s.registry).1 ▸ h)
  | revoke kind number =>
    refine .inl ?_
    rcases revoke_cases kind number s.registry with ⟨-, heq⟩ | ⟨target, -, hroots, -⟩
    · rw [next, heq]
      exact h
    · change root ∈ (Grants.revoke kind number s.registry).2.revokedRoots
      rw [hroots]
      exact Finset.mem_insert_of_mem h
  | revokeKind hashOrder kind => exact .inl (revoke_kind_roots.mpr (.inl h))
  | forgetKind kind =>
    by_cases hkind : root.kind = kind
    · exact .inr (hkind ▸ rfl)
    · exact .inl (Finset.mem_filter.mpr ⟨h, by simpa using hkind⟩)

theorem bearer_step (enabled : Enabled s e) :
    (Recorded (next s e).registry g → (∃ g', Recorded s.registry g' ∧ g'.root = g.root) ∨
      g.root ∉ s.issued ∨ ∃ copy, Derives s copy ∧ copy.root = g.root) ∧
      (g ∈ (next s e).accepted → g ∈ s.accepted ∨ Recorded s.registry g) := by
  have changed {f : Grant → Grant} {r : Registry} (hgrants : r.grants = s.registry.grants.mapValues f)
      (hroot : ∀ x, (f x).root = x.root) (h : Recorded r g) :
      ∃ g', Recorded s.registry g' ∧ g'.root = g.root := by
    obtain ⟨x, hx, rfl⟩ := recorded_map hgrants h
    exact ⟨x, hx, (hroot x).symm⟩
  cases e with
  | recordRoot kind number rights origin lifetime =>
    refine ⟨fun h => ?_, .inl⟩
    rcases recorded_root h with rfl | h
    · exact .inr (.inl enabled)
    · exact .inl ⟨g, h, rfl⟩
  | recordDescendant kind number rights parent =>
    refine ⟨fun h => ?_, .inl⟩
    rcases descendant_cases kind number rights s.registry parent with
      ⟨-, heq⟩ | ⟨hderive, hroot, -, -, hall⟩
    · rw [next, heq] at h
      exact .inl ⟨g, h, rfl⟩
    · rcases hall g h with rfl | h
      · exact .inr (.inr ⟨parent, ⟨enabled.2, hderive, hroot⟩, rfl⟩)
      · exact .inl ⟨g, h, rfl⟩
  | accept kind number needs =>
    obtain ⟨hgrants, -, hok⟩ := accept_cases kind number s.registry needs
    refine ⟨fun h => .inl ⟨g, h.imp fun x hx => hgrants ▸ hx, rfl⟩, fun h => ?_⟩
    rcases List.mem_append.mp h with h | h
    · exact .inl h
    · exact .inr ⟨_, (hok g (mem_outcome.mp h)).1⟩
  | release kind number => exact ⟨fun h => .inl ⟨g, recorded_release h, rfl⟩, .inl⟩
  | remember kind number =>
    refine ⟨fun h => .inl ?_, .inl⟩
    rcases (remember_cases kind number s.registry).2 with heq | ⟨kept, hgrants⟩
    · rw [next, heq] at h
      exact ⟨g, h, rfl⟩
    · exact changed hgrants (keep_root kept) h
  | revoke kind number =>
    refine ⟨fun h => .inl ?_, .inl⟩
    rcases revoke_cases kind number s.registry with ⟨-, heq⟩ | ⟨target, -, -, hgrants⟩
    · rw [next, heq] at h
      exact ⟨g, h, rfl⟩
    · exact changed hgrants (flag_root _) h
  | revokeKind hashOrder kind =>
    exact ⟨fun h => .inl (changed rfl (flag_root fun grant => grant.root.kind = kind) h), .inl⟩
  | takeWithdrawnRemembered => exact ⟨fun h => .inl ⟨g, h, rfl⟩, .inl⟩
  | forgetKind kind => exact ⟨fun h => .inl ⟨g, (recorded_forget h).1, rfl⟩, .inl⟩

theorem barred_step (h : Barred s root) (enabled : Enabled s e) (covers : Covers s e) :
    Barred (next s e) root := by
  refine ⟨issued_mono s e h.issued, ?_⟩
  rcases h.barred with hwithdrawn | ⟨hrecorded, hcopies⟩
  · rcases withdrawn_stays (e := e) hwithdrawn with hstays | rfl
    · exact .inl hstays
    · refine .inr ⟨fun g hg heq => ?_, fun copy hcopy hderive heq => ?_⟩
      · exact (recorded_forget hg).2 (by rw [heq])
      · exact covers copy hcopy hderive (by rw [heq]) (heq ▸ hwithdrawn)
  · refine .inr ⟨fun g hg heq => ?_, fun copy hcopy hderive heq => ?_⟩
    · rcases (bearer_step enabled).1 hg with ⟨g', hg', hsame⟩ | hfresh | ⟨copy, hderives, hsame⟩
      · exact hrecorded g' hg' (hsame.trans heq)
      · exact hfresh (heq ▸ h.issued)
      · exact hcopies copy hderives.1 hderives.2.1 (hsame.trans heq)
    · rcases (bearer_step enabled).2 hcopy with hcopy | hrec
      · exact hcopies copy hcopy hderive heq
      · exact hrecorded copy hrec heq

/-- What a revoked root no longer does. -/
structure Final (t : GrantState) (root : GrantId) : Prop where
  refused : ∀ kind number needs g, t.registry.grants.get ⟨kind, number⟩ = some g →
    g.root = root → (accept kind number t.registry needs).1 = .error .revoked
  leaf : ∀ kind number rights parent, parent ∈ t.accepted → parent.root = root →
    recordDescendant kind number rights t.registry parent = (false, t.registry)

theorem final_of_barred (h : Barred t root) : Final t root := by
  refine ⟨fun kind number needs g hg heq => ?_, fun kind number rights parent hparent heq => ?_⟩
  · rcases h.barred with hwithdrawn | ⟨hrecorded, -⟩
    · unfold accept
      rw [hg]
      simp [heq, hwithdrawn]
    · exact absurd heq (hrecorded g ⟨_, hg⟩)
  · rcases descendant_cases kind number rights t.registry parent with ⟨-, hfalse⟩ | ⟨hderive, hroot, -⟩
    · exact hfalse
    · rcases h.barred with hwithdrawn | ⟨-, hcopies⟩
      · exact absurd (heq ▸ hwithdrawn) hroot
      · exact absurd heq (hcopies parent hparent hderive)

theorem revocation_final {es : List GrantEvent} (reached : Reachable (grantSystem.restrict Covers) s)
    (step : (grantSystem.restrict Covers).Step s e s') (revokes : Revokes s root e)
    (later : Execution (grantSystem.restrict Covers) s' es t) : Final t root := by
  obtain ⟨covers, enabled, rfl⟩ := step
  have agree := roots_agree (reachable_of_restrict reached)
  refine final_of_barred (execution_invariant (P := fun t => Barred t root) ?_ later
    (barred_of_revoked agree covers revokes))
  rintro s e t h ⟨covers, enabled, rfl⟩
  exact barred_step h enabled covers

def chosenFolder : GrantEvent :=
  .recordRoot .directory 1 (.union .read .derive) (.trustedSelection .consentOnly) .session

def readFolder : GrantEvent := .accept .directory 1 .read

def folderGrant : Grant :=
  ⟨⟨.directory, 1⟩, .union .read .derive, .trustedSelection .consentOnly, .session, none,
    ⟨.directory, 1⟩, false⟩

def start : GrantState := ⟨.empty, [], ∅⟩

theorem folder_revoked_for_good :
    Final (runTrace next start [chosenFolder, readFolder, .revoke .directory 1, .forgetKind .audio])
      ⟨.directory, 1⟩ := by
  have chosen := reachable_step (reachable_initial (grantSystem.restrict Covers))
    (e := chosenFolder) ⟨trivial, Finset.notMem_empty _, rfl⟩
  have accepted := reachable_step chosen (e := readFolder) ⟨trivial, trivial, rfl⟩
  have recorded : (runTrace next start [chosenFolder, readFolder]).registry.grants.get ⟨.directory, 1⟩ =
      some folderGrant := by decide +kernel
  refine revocation_final accepted ⟨trivial, trivial, rfl⟩ (e := .revoke .directory 1)
    ⟨folderGrant, recorded, rfl⟩ (.tail (e := .forgetKind .audio) (.refl _) ⟨?_, ?_, rfl⟩)
  have copies : (runTrace next start [chosenFolder, readFolder, .revoke .directory 1]).accepted =
      [folderGrant] := by decide +kernel
  · intro copy hcopy _ hkind
    have hmem : copy ∈ (runTrace next start [chosenFolder, readFolder, .revoke .directory 1]).accepted :=
      hcopy
    rw [copies, List.mem_singleton] at hmem
    rw [hmem] at hkind
    cases hkind
  · trivial

/-- The folder's handle is released before folders are revoked: the operation that accepted
it still derives a live grant. -/
theorem released_root_derives : ¬∀ (s s' t : GrantState) (e : GrantEvent) (es : List GrantEvent)
    (root : GrantId), Reachable grantSystem s → grantSystem.Step s e s' → Revokes s root e →
      Execution grantSystem s' es t → Final t root := by
  intro claim
  have reached : Reachable grantSystem
      (runTrace next start [chosenFolder, readFolder, .release .directory 1]) :=
    valid_trace_reachable (reachable_initial grantSystem) (by decide +kernel)
  have issued : (⟨.directory, 1⟩ : GrantId) ∈
      (runTrace next start [chosenFolder, readFolder, .release .directory 1]).issued := by
    decide +kernel
  have final := claim _ _ _ (.revokeKind .sorted .directory) [] ⟨.directory, 1⟩ reached
    ⟨trivial, rfl⟩ ⟨rfl, issued⟩ (.refl _)
  have held : folderGrant ∈ (next (runTrace next start [chosenFolder, readFolder,
      .release .directory 1]) (.revokeKind .sorted .directory)).accepted := by decide +kernel
  have refused := final.leaf .sqlite 2 .read folderGrant held rfl
  have derived : (recordDescendant .sqlite 2 .read (next (runTrace next start [chosenFolder,
      readFolder, .release .directory 1]) (.revokeKind .sorted .directory)).registry
      folderGrant).1 = true := by decide +kernel
  rw [refused] at derived
  cases derived

end Barred

section Lifetimes

variable {s : GrantState} {e : GrantEvent}

/-- A grant is only derived from a copy that has the lifetime its root has now. -/
def SameLifetime (s : GrantState) : GrantEvent → Prop
  | .recordDescendant _ _ _ parent => parent.rights.Contains .derive →
      parent.root ∉ s.registry.revokedRoots →
      ∀ g, Recorded s.registry g → g.root = parent.root → g.lifetime = parent.lifetime
  | _ => True

/-- What the recorded grants of one root have in common. -/
structure GrantsAgree (registry : Registry) : Prop where
  same : ∀ a b, Recorded registry a → Recorded registry b → a.root = b.root →
    a.origin = b.origin ∧ a.lifetime = b.lifetime ∧ a.revoked = b.revoked
  flagged : ∀ g, Recorded registry g → g.root ∈ registry.revokedRoots → g.revoked = true

def LifetimesAgree (registry : Registry) : Prop :=
  ∀ a b, Recorded registry a → Recorded registry b → a.root = b.root → a.lifetime = b.lifetime

theorem lifetimes_agree_step (agree : RootsAgree s) (h : LifetimesAgree s.registry)
    (enabled : Enabled s e) (same : SameLifetime s e) : LifetimesAgree (next s e).registry := by
  have flags {p : Grant → Bool} {r : Registry}
      (hgrants : r.grants = s.registry.grants.mapValues (flag p)) : LifetimesAgree r := by
    intro a b ha hb heq
    obtain ⟨x, hx, rfl⟩ := recorded_map hgrants ha
    obtain ⟨y, hy, rfl⟩ := recorded_map hgrants hb
    rw [flag_root, flag_root] at heq
    rw [flag_lifetime, flag_lifetime]
    exact h x y hx hy heq
  cases e with
  | recordRoot kind number rights origin lifetime =>
    have fresh {g : Grant} (hg : Recorded s.registry g) : g.root ≠ ⟨kind, number⟩ :=
      fun heq => enabled (heq ▸ agree.issued g (.inl hg))
    intro a b ha hb heq
    rcases recorded_root ha with rfl | ha <;> rcases recorded_root hb with rfl | hb
    · rfl
    · exact absurd heq.symm (fresh hb)
    · exact absurd heq (fresh ha)
    · exact h a b ha hb heq
  | recordDescendant kind number rights parent =>
    rcases descendant_cases kind number rights s.registry parent with
      ⟨-, heq⟩ | ⟨hderive, hroot, -, -, hall⟩
    · rw [next, heq]
      exact h
    · have now := same hderive hroot
      intro a b ha hb heq
      rcases hall a ha with rfl | ha <;> rcases hall b hb with rfl | hb
      · rfl
      · exact (now b hb heq.symm).symm
      · exact now a ha heq
      · exact h a b ha hb heq
  | accept kind number needs =>
    have hgrants := (accept_cases kind number s.registry needs).1
    rintro a b ⟨x, hx⟩ ⟨y, hy⟩ heq
    exact h a b ⟨x, hgrants ▸ hx⟩ ⟨y, hgrants ▸ hy⟩ heq
  | release kind number =>
    exact fun a b ha hb heq => h a b (recorded_release ha) (recorded_release hb) heq
  | remember kind number =>
    rcases (remember_cases kind number s.registry).2 with heq | ⟨root, hgrants⟩
    · rw [next, heq]
      exact h
    · intro a b ha hb heq
      obtain ⟨x, hx, rfl⟩ := recorded_map hgrants ha
      obtain ⟨y, hy, rfl⟩ := recorded_map hgrants hb
      rw [keep_root, keep_root] at heq
      have hlifetime := h x y hx hy heq
      unfold keep
      by_cases hx : x.root = root
      · rw [if_pos hx, if_pos (heq ▸ hx)]
      · rw [if_neg hx, if_neg (heq ▸ hx)]
        exact hlifetime
  | revoke kind number =>
    rcases revoke_cases kind number s.registry with ⟨-, heq⟩ | ⟨target, -, -, hgrants⟩
    · rw [next, heq]
      exact h
    · exact flags hgrants
  | revokeKind hashOrder kind => exact flags rfl
  | takeWithdrawnRemembered => exact h
  | forgetKind kind =>
    exact fun a b ha hb heq => h a b (recorded_forget ha).1 (recorded_forget hb).1 heq

theorem reachable_agree (h : Reachable (grantSystem.restrict SameLifetime) s) :
    GrantsAgree s.registry := by
  have agree := roots_agree (reachable_of_restrict h)
  have lifetimes : RootsAgree s ∧ LifetimesAgree s.registry := by
    refine reachable_invariant (S := grantSystem.restrict SameLifetime)
      (P := fun s => RootsAgree s ∧ LifetimesAgree s.registry)
      ⟨roots_agree (reachable_initial grantSystem), ?_⟩ ?_ h
    · rintro a b ⟨x, hx⟩
      simp [System.restrict, grantSystem, guarded, Registry.empty] at hx
    · rintro s e t ⟨agree, lifetimes⟩ ⟨same, enabled, rfl⟩
      exact ⟨roots_agree_step agree enabled, lifetimes_agree_step agree lifetimes enabled same⟩
  refine ⟨fun a b ha hb heq => ⟨agree.origins a b (.inl ha) (.inl hb) heq,
    lifetimes.2 a b ha hb heq, ?_⟩, fun g hg hroot => (agree.flags g hg).mpr hroot⟩
  rw [Bool.eq_iff_iff, agree.flags a ha, agree.flags b hb, heq]

def rememberedFolder : List GrantEvent :=
  [chosenFolder, .remember .directory 1, readFolder,
    .recordDescendant .sqlite 2 .read { folderGrant with lifetime := .remembered }]

theorem remembered_folder_agrees : GrantsAgree (runTrace next start rememberedFolder).registry := by
  have chosen := reachable_step (reachable_initial (grantSystem.restrict SameLifetime))
    (e := chosenFolder) ⟨trivial, Finset.notMem_empty _, rfl⟩
  have remembered := reachable_step (e := GrantEvent.remember .directory 1) chosen ⟨trivial, trivial, rfl⟩
  have accepted := reachable_step remembered (e := readFolder) ⟨trivial, trivial, rfl⟩
  refine reachable_agree (reachable_step accepted
    (e := .recordDescendant .sqlite 2 .read { folderGrant with lifetime := .remembered })
    ⟨fun _ _ g hg _ => ?_, ?_, rfl⟩)
  · obtain ⟨x, hx⟩ := hg
    have only : (runTrace next start [chosenFolder, .remember .directory 1, readFolder]).registry.grants =
        (∅ : FiniteMap GrantId Grant).set ⟨.directory, 1⟩ { folderGrant with lifetime := .remembered } := by
      decide +kernel
    have hget : (runTrace next start [chosenFolder, .remember .directory 1,
      readFolder]).registry.grants.get x = some g := hx
    rw [only, FiniteMap.get_set] at hget
    split at hget
    · obtain rfl := Option.some.inj hget
      rfl
    · simp at hget
  · exact (by decide +kernel : Enabled (runTrace next start [chosenFolder, .remember .directory 1,
      readFolder]) (.recordDescendant .sqlite 2 .read { folderGrant with lifetime := .remembered }))

/-- The operation accepted the folder before it was remembered: its child lasts for the
session, below a remembered root. -/
theorem stale_copy_disagrees :
    ¬∀ s : GrantState, Reachable grantSystem s → GrantsAgree s.registry := by
  intro claim
  have reached : Reachable grantSystem (runTrace next start [chosenFolder, readFolder,
      .remember .directory 1, .recordDescendant .sqlite 2 .read folderGrant]) :=
    valid_trace_reachable (reachable_initial grantSystem) (by decide +kernel)
  have root : (runTrace next start [chosenFolder, readFolder, .remember .directory 1,
      .recordDescendant .sqlite 2 .read folderGrant]).registry.grants.get ⟨.directory, 1⟩ =
        some { folderGrant with lifetime := .remembered } := by decide +kernel
  have child : (runTrace next start [chosenFolder, readFolder, .remember .directory 1,
      .recordDescendant .sqlite 2 .read folderGrant]).registry.grants.get ⟨.sqlite, 2⟩ =
        some ⟨⟨.sqlite, 2⟩, .read, .trustedSelection .consentOnly, .session, some ⟨.directory, 1⟩,
          ⟨.directory, 1⟩, false⟩ := by decide +kernel
  obtain ⟨-, lifetime, -⟩ := (claim _ reached).same _ _ ⟨_, root⟩ ⟨_, child⟩ rfl
  cases lifetime

end Lifetimes

end GrantRevocations
