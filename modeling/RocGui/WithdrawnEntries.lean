import RocGui.RecentRuns

/-! When withdrawing a remembered grant takes its place out of the recent list. -/
namespace WithdrawnEntries

open FiniteMaps Grants GrantRuns RecentEntries RecentRuns Transitions

variable {P : Type} [DecidableEq P]

section Conditions

variable {s t : Shared P} {root : GrantId} {path : P}

def Withdraws (registry : Registry) (root : GrantId) : Action P → Prop
  | .revoke kind number => ∃ g, registry.grants.get ⟨kind, number⟩ = some g ∧ g.root = root
  | .revokeKind _ kind => root.kind = kind ∧ ∃ g, Recorded registry g ∧ g.root = root
  | _ => False

def Absent (store : Store P) (path : P) : Prop := ∀ entry ∈ store.entries, entry.path ≠ path

def Remembering (s : Shared P) (path : P) : Call P → Prop
  | .rememberSource grant => ∃ kind, s.store.sources.get grant.id = some (kind, path)
  | .rememberCheck _ _ p => p = path
  | .rememberCommit _ _ p _ => p = path
  | _ => False

/-- The withdrawn roots whose entries a call has not looked up yet. -/
def awaited : Call P → List GrantId
  | .withdrawn pushed => pushed
  | .lookup roots => roots
  | _ => []

/-- A withdrawal names a root when the grant it is made on is marked as remembered; one of a kind
names it when the root's own grant is, and is not revoked yet. -/
def Names (registry : Registry) (root : GrantId) : Action P → Prop
  | .revoke kind number => ∃ g, registry.grants.get ⟨kind, number⟩ = some g ∧ g.root = root ∧
      g.lifetime = .remembered
  | .revokeKind _ kind => ∃ g, Recorded registry g ∧ g.id = root ∧ g.root.kind = kind ∧
      g.parent = none ∧ g.lifetime = .remembered ∧ ¬g.revoked
  | _ => False

/-- A remembered root is withdrawn only when no call is about to list its place, and
when the withdrawal names the root and the root holds the entry that lists the place. -/
def Finds (s : RecentState P) (action : Action P) : Prop :=
  ∀ root path, Withdraws s.shared.registry root action → root ∈ s.shared.remembered →
    s.shared.places.get root = some path →
      (∀ i, ¬Remembering s.shared path (s.calls i)) ∧
      ∀ entry ∈ s.shared.store.entries, entry.path = path →
        Names s.shared.registry root action ∧ s.shared.store.held.get root = some entry.key

/-- The withdrawn roots are not taken before another withdrawal has taken its own, while
the places of these are listed. -/
def TakesOwn (s : RecentState P) (thread : ℕ) : Prop :=
  ∀ i, i ≠ thread → ∀ roots, s.calls i = .withdrawn roots → ∀ root ∈ roots, ∀ path,
    s.shared.places.get root = some path → Absent s.shared.store path

/-- A handle is not released while a withdrawal is still to look up its entry. -/
def ReleasesFound (s : RecentState P) (id : GrantId) : Prop :=
  ∀ i, id ∈ awaited (s.calls i) → ∀ path, s.shared.places.get id = some path →
    Absent s.shared.store path

def Timely (s : RecentState P) (e : ℕ × Action P) : Prop :=
  match s.calls e.1, e.2 with
  | .idle, action => Finds s action
  | .withdrawn _, _ => TakesOwn s e.1
  | .releasing id, _ => ReleasesFound s id
  | _, _ => True

/-- No call to remember the place begins. -/
def Leaves (path : P) (s : RecentState P) (e : ℕ × Action P) : Prop :=
  ∀ kind number, e.2 = .remember kind number → s.shared.places.get ⟨kind, number⟩ ≠ some path

end Conditions

section Sections

variable {s t : Shared P} {call call' : Call P} {action : Action P} {root : GrantId} {path : P}

/-- How far the withdrawal of `root` by a call has come: what is still to be done takes
every entry of its place away. -/
def Stage (s : Shared P) (root : GrantId) (path : P) : Call P → Prop
  | .withdrawn roots => root ∈ roots ∧ root ∈ s.registry.withdrawnRemembered ∧
      ∀ entry ∈ s.store.entries, entry.path = path → s.store.held.get root = some entry.key
  | .lookup roots => root ∈ roots ∧
      ∀ entry ∈ s.store.entries, entry.path = path → s.store.held.get root = some entry.key
  | .forgetting keys => ∀ entry ∈ s.store.entries, entry.path = path → entry.key ∈ keys
  | _ => False

inductive StoreChange (store : Store P) : Call P → Store P → Prop where
  | same {call : Call P} {after : Store P} : after.entries = store.entries →
      after.held = store.held → after.sources = store.sources → StoreChange store call after
  | noted {call : Call P} {id : GrantId} (kind : EntryKind) (path : P) : pending call = some id →
      StoreChange store call (noteSource store id kind path)
  | reopened {call : Call P} (key : ℕ) {id : GrantId} (kind : EntryKind) (path : P) :
      pending call = some id → StoreChange store call (reopened store key id kind path)
  | released (id : GrantId) : StoreChange store (.releasing id) (releaseSource store id)
  | committed (grant : Grant) (kind : EntryKind) (path : P) (identity : Identity) :
      StoreChange store (.rememberCommit grant kind path identity)
        (commitRemember store grant.id kind path identity grant.origin)
  | forgot {call : Call P} (key : ℕ) : StoreChange store call (forget store key).2

theorem store_cases (hrun : advance s call action = some (call', t)) :
    StoreChange s.store call t.store := by
  cases call with
  | idle =>
    cases action with
    | forget key =>
      cases hrun
      exact .forgot key
    | choose | reopen | remember | derive =>
      simp only [advance] at hrun
      (repeat' split at hrun) <;> cases hrun <;> exact .same rfl rfl rfl
    | release | accept | revoke | revokeKind =>
      cases hrun
      exact .same rfl rfl rfl
    | _ => cases hrun
  | choosing id kind path =>
    cases action <;> cases hrun
    exact .noted kind path rfl
  | reopenNoting key id kind path =>
    cases action <;> cases hrun
    exact .noted kind path rfl
  | reopening key id kind path =>
    cases action <;> cases hrun
    exact .reopened key kind path rfl
  | rememberCommit grant kind path identity =>
    cases action <;> cases hrun
    exact .committed grant kind path identity
  | releasing id =>
    cases action <;> cases hrun
    exact .released id
  | forgetting keys =>
    cases keys with
    | nil => cases action <;> cases hrun
    | cons key keys =>
      cases action <;> cases hrun
      exact .forgot key
  | reopenChecking | rememberCheck =>
    cases action with
    | checked outcome => cases outcome <;> cases hrun <;> exact .same rfl rfl rfl
    | metadata outcome => cases outcome <;> cases hrun <;> exact .same rfl rfl rfl
    | _ => cases hrun
  | reopenRecording | rememberSource | rememberCount =>
    cases action with
    | proceed | abandon | record =>
      simp only [advance, countRemember] at hrun
      (repeat' split at hrun) <;> cases hrun <;> exact .same rfl rfl rfl
    | _ => cases hrun
  | reopenRefused | withdrawn | lookup =>
    cases action <;> cases hrun
    exact .same rfl rfl rfl

theorem entries_advance (hrun : advance s call action = some (call', t))
    (quiet : ¬Remembering s path call) :
    ∀ entry ∈ t.store.entries, entry.path = path → entry ∈ s.store.entries := by
  intro entry hentry hpath
  have change := store_cases hrun
  generalize t.store = after at change hentry
  cases change with
  | same hentries => exact hentries ▸ hentry
  | forgot key => exact (mem_forget hentry).1
  | committed grant kind p identity =>
    rcases mem_commitRemember hentry with heq | hentry
    · exact absurd (heq.symm.trans hpath) quiet
    · exact hentry
  | noted | reopened | released => exact hentry

theorem absent_advance (h : Absent s.store path) (hrun : advance s call action = some (call', t))
    (quiet : ¬Remembering s path call) : Absent t.store path :=
  fun entry hentry hpath => h entry (entries_advance hrun quiet entry hentry hpath) hpath

theorem held_advance {key : ℕ} (hrun : advance s call action = some (call', t))
    (hheld : s.store.held.get root = some key) : t.store.held.get root = some key ∨
      call = .releasing root ∨ pending call = some root ∨
      (∃ grant kind p identity, call = .rememberCommit grant kind p identity ∧ grant.id = root) ∨
      ∀ entry ∈ t.store.entries, entry.key ≠ key := by
  have change := store_cases hrun
  generalize t.store = after at change ⊢
  cases change with
  | same _ hsame => exact .inl (hsame ▸ hheld)
  | noted => exact .inl hheld
  | @reopened _ key' id kind p hpending =>
    by_cases hid : root = id
    · exact .inr (.inr (.inl (hid ▸ hpending)))
    · refine .inl ?_
      rw [reopened, FiniteMap.get_set_ne _ _ hid]
      exact hheld
  | released id =>
    by_cases hid : root = id
    · exact .inr (.inl (hid ▸ rfl))
    · refine .inl ?_
      rw [releaseSource, FiniteMap.get_remove_ne _ hid]
      exact hheld
  | committed grant kind p identity =>
    by_cases hid : root = grant.id
    · exact .inr (.inr (.inr (.inl ⟨grant, kind, p, identity, rfl, hid.symm⟩)))
    · refine .inl ?_
      rw [commitRemember, FiniteMap.get_set_ne _ _ hid]
      exact hheld
  | forgot k =>
    by_cases hk : key = k
    · exact .inr (.inr (.inr (.inr fun entry hentry => hk ▸ (mem_forget hentry).2)))
    · exact .inl (held_forget hheld hk)

theorem sources_advance (hrun : advance s call action = some (call', t)) {x : EntryKind × P}
    (hsource : t.store.sources.get root = some x) :
    s.store.sources.get root = some x ∨ pending call = some root := by
  have change := store_cases hrun
  generalize t.store = after at change hsource
  cases change with
  | same _ _ hsame => exact .inl (hsame ▸ hsource)
  | @noted _ id kind p hpending | @reopened _ key' id kind p hpending =>
    by_cases hid : root = id
    · exact .inr (hid ▸ hpending)
    · refine .inl ?_
      rw [← hsource]
      exact (FiniteMap.get_set_ne _ _ hid).symm
  | released id =>
    refine .inl ?_
    rw [releaseSource, FiniteMap.get_remove] at hsource
    split at hsource
    · cases hsource
    · exact hsource
  | committed => exact .inl hsource
  | forgot key => exact .inl (sources_forget s.store key ▸ hsource)

theorem withdrawn_advance (hrun : advance s call action = some (call', t))
    (h : root ∈ s.registry.withdrawnRemembered) :
    root ∈ t.registry.withdrawnRemembered ∨ ∃ roots, call = .withdrawn roots := by
  cases call with
  | withdrawn roots => exact .inr ⟨roots, rfl⟩
  | idle =>
    refine .inl ?_
    cases action with
    | choose kind number rights origin entryKind p =>
      simp only [advance] at hrun
      split at hrun <;> cases hrun
      exact h
    | reopen key entryKind =>
      simp only [advance] at hrun
      split at hrun <;> cases hrun <;> exact h
    | remember kind number =>
      simp only [advance] at hrun
      split at hrun
      · cases hrun
      · split at hrun <;> cases hrun
        · unfold Grants.remember
          (repeat' split) <;> exact h
        · exact h
    | derive kind number rights parent =>
      simp only [advance] at hrun
      split at hrun <;> cases hrun
      unfold recordDescendant
      (repeat' split) <;> exact h
    | accept kind number needs =>
      cases hrun
      change root ∈ (Grants.accept kind number s.registry needs).2.withdrawnRemembered
      unfold Grants.accept
      (repeat' split) <;> exact h
    | release kind number =>
      cases hrun
      change root ∈ (Grants.release kind number s.registry).withdrawnRemembered
      unfold Grants.release
      split <;> exact h
    | revoke kind number =>
      cases hrun
      change root ∈ (Grants.revoke kind number s.registry).2.withdrawnRemembered
      unfold Grants.revoke
      split
      · exact h
      · dsimp only
        split
        · exact List.mem_append_left _ h
        · exact h
    | revokeKind hashOrder kind =>
      cases hrun
      exact List.mem_append_left _ h
    | forget key =>
      cases hrun
      exact h
    | _ => cases hrun
  | forgetting keys =>
    cases keys with
    | nil => cases action <;> cases hrun
    | cons k keys =>
      cases action <;> cases hrun
      exact .inl h
  | reopenChecking | rememberCheck =>
    cases action with
    | checked outcome => cases outcome <;> cases hrun <;> exact .inl h
    | metadata outcome => cases outcome <;> cases hrun <;> exact .inl h
    | _ => cases hrun
  | reopenRecording | rememberSource | rememberCount =>
    cases action with
    | proceed | abandon | record =>
      simp only [advance, countRemember] at hrun
      (repeat' split at hrun) <;> cases hrun <;> exact .inl h
    | _ => cases hrun
  | choosing | reopenRefused | reopenNoting | reopening | releasing | lookup | rememberCommit =>
    cases action <;> cases hrun
    exact .inl h

theorem remembering_advance (placed : Placed s) (hrun : advance s call action = some (call', t))
    (leaves : ∀ kind number, action = .remember kind number →
      s.places.get ⟨kind, number⟩ ≠ some path) (h : Remembering t path call') :
    Remembering s path call := by
  cases call with
  | idle =>
    cases action with
    | remember kind number =>
      simp only [advance] at hrun
      split at hrun
      · cases hrun
      · split at hrun
        · rename_i grant hok
          cases hrun
          obtain ⟨k, hsource⟩ := h
          have hplace := placed.sources _ _ _ hsource
          rw [remember_id placed.keyed hok] at hplace
          exact absurd hplace (leaves kind number rfl)
        · cases hrun
          exact h.elim
    | choose | reopen | derive =>
      simp only [advance] at hrun
      (repeat' split at hrun) <;> cases hrun <;> exact h.elim
    | release | accept | revoke | revokeKind | forget =>
      cases hrun
      exact h.elim
    | _ => cases hrun
  | rememberSource grant =>
    cases action with
    | proceed =>
      simp only [advance] at hrun
      split at hrun
      · cases hrun
        exact h.elim
      · rename_i kind p hsource
        cases hrun
        obtain rfl : p = path := h
        exact ⟨kind, hsource⟩
    | _ => cases hrun
  | rememberCheck grant kind p =>
    cases action with
    | metadata outcome =>
      cases outcome <;> cases hrun
      · exact h.elim
      · exact h
    | _ => cases hrun
  | reopenChecking key kind entry =>
    cases action with
    | checked outcome => cases outcome <;> cases hrun <;> exact h.elim
    | _ => cases hrun
  | reopenRecording | rememberCount =>
    cases action with
    | proceed | abandon | record =>
      simp only [advance, countRemember] at hrun
      (repeat' split at hrun) <;> cases hrun <;> exact h.elim
    | _ => cases hrun
  | withdrawn roots =>
    cases action <;> cases hrun
    cases hroots : s.registry.withdrawnRemembered <;> rw [hroots] at h <;> exact h.elim
  | lookup roots =>
    cases action <;> cases hrun
    cases hkeys : heldKeys s.store roots <;> rw [hkeys] at h <;> exact h.elim
  | forgetting keys =>
    cases keys with
    | nil => cases action <;> cases hrun
    | cons key keys =>
      cases action <;> cases hrun
      cases keys <;> exact h.elim
  | choosing | reopenRefused | reopenNoting | reopening | releasing | rememberCommit =>
    cases action <;> cases hrun
    exact h.elim

end Sections

section Runs

variable {s s' t : RecentState P} {w : ℕ} {e : ℕ × Action P} {root : GrantId} {path : P}

/-- What holds from the section that withdraws a root on: nobody is about to list its
place again, and what call `w` still has to do takes the place off the list. -/
structure Underway (s : RecentState P) (w : ℕ) (root : GrantId) (path : P) : Prop where
  tidy : Tidy s
  place : s.shared.places.get root = some path
  quiet : ∀ i, ¬Remembering s.shared path (s.calls i)
  stage : Absent s.shared.store path ∨ Stage s.shared root path (s.calls w)

theorem quiet_step (tidy : Tidy s) (quiet : ∀ i, ¬Remembering s.shared path (s.calls i))
    (leaves : Leaves path s e) (hstep : step s e.1 e.2 = some t) (i : ℕ) :
    ¬Remembering t.shared path (t.calls i) := by
  obtain ⟨call, hadvance, hcalls⟩ := step_cases hstep
  intro h
  by_cases hi : i = e.1
  · rw [hi, hcalls, Function.update_self] at h
    exact quiet e.1 (remembering_advance tidy.placed hadvance leaves h)
  · rw [hcalls, Function.update_of_ne hi] at h
    refine quiet i ?_
    generalize hcall : s.calls i = other at h
    cases other with
    | rememberSource grant =>
      obtain ⟨kind, hsource⟩ := h
      rcases sources_advance hadvance hsource with hbefore | hpending
      · exact ⟨kind, hbefore⟩
      · -- the root was returned before it could be remembered
        have hreturned : grant.id ∈ s.shared.returned := by
          have := tidy.calls i
          rwa [hcall] at this
        exact absurd hreturned (tidy.unreturned e.1 _ hpending).2
    | rememberCheck | rememberCommit => exact h
    | _ => exact h.elim

theorem held_step (tidy : Tidy s) (place : s.shared.places.get root = some path)
    (quiet : ∀ i, ¬Remembering s.shared path (s.calls i)) (timely : Timely s e)
    (hawaited : root ∈ awaited (s.calls w)) (hstep : step s e.1 e.2 = some t)
    (h : ∀ entry ∈ s.shared.store.entries, entry.path = path →
      s.shared.store.held.get root = some entry.key) :
    ∀ entry ∈ t.shared.store.entries, entry.path = path →
      t.shared.store.held.get root = some entry.key := by
  obtain ⟨call, hadvance, -⟩ := step_cases hstep
  intro entry hentry hpath
  have hbefore := entries_advance hadvance (quiet e.1) entry hentry hpath
  have hheld := h entry hbefore hpath
  rcases held_advance hadvance hheld with hstays | hreleasing | hpending |
    ⟨grant, kind, p, identity, hcommit, hid⟩ | hgone
  · exact hstays
  · unfold Timely at timely
    rw [hreleasing] at timely
    exact absurd hpath (timely w hawaited path place entry hbefore)
  · have hreturned := tidy.placed.held root (Option.isSome_of_eq_some hheld)
    exact absurd hreturned (tidy.unreturned e.1 root hpending).2
  · have hconsistent := tidy.calls e.1
    rw [hcommit] at hconsistent
    have hplace := hconsistent.2
    rw [hid, place] at hplace
    have := quiet e.1
    rw [hcommit] at this
    exact absurd (Option.some.inj hplace).symm this
  · exact absurd rfl (hgone entry hentry)

theorem stage_other (u : Underway s w root path) (timely : Timely s e) (hw : w ≠ e.1)
    (hstep : step s e.1 e.2 = some t) (h : Stage s.shared root path (s.calls w)) :
    Absent t.shared.store path ∨ Stage t.shared root path (t.calls w) := by
  obtain ⟨call, hadvance, hcalls⟩ := step_cases hstep
  have held := held_step (t := t) (w := w) u.tidy u.place u.quiet timely
  have hcall : t.calls w = s.calls w := by rw [hcalls, Function.update_of_ne hw]
  rw [hcall]
  generalize hdoing : s.calls w = doing at h held
  cases doing with
  | withdrawn roots =>
    obtain ⟨hroot, hlisted, hheld⟩ := h
    rcases withdrawn_advance hadvance hlisted with hstays | ⟨others, htakes⟩
    · exact .inr ⟨hroot, hstays, held hroot hstep hheld⟩
    · unfold Timely at timely
      rw [htakes] at timely
      exact .inl (absent_advance (timely w hw roots hdoing root hroot path u.place) hadvance
        (u.quiet e.1))
  | lookup roots => exact .inr ⟨h.1, held h.1 hstep h.2⟩
  | forgetting keys =>
    exact .inr fun entry hentry hpath =>
      h entry (entries_advance hadvance (u.quiet e.1) entry hentry hpath) hpath
  | _ => exact h.elim

/-- The next section of the withdrawal itself. -/
theorem stage_own (hstep : step s w e.2 = some t) (h : Stage s.shared root path (s.calls w)) :
    Absent t.shared.store path ∨ Stage t.shared root path (t.calls w) := by
  obtain ⟨call, hadvance, hcalls⟩ := step_cases hstep
  rw [hcalls, Function.update_self]
  generalize s.calls w = doing at h hadvance
  generalize t.shared = after at hadvance ⊢
  cases doing with
  | withdrawn roots =>
    obtain ⟨-, hlisted, hheld⟩ := h
    cases haction : e.2 <;> rw [haction] at hadvance <;> cases hadvance
    cases hroots : s.shared.registry.withdrawnRemembered with
    | nil =>
      rw [hroots] at hlisted
      cases hlisted
    | cons first rest => exact .inr ⟨hroots ▸ hlisted, hheld⟩
  | lookup roots =>
    obtain ⟨hroot, hheld⟩ := h
    cases haction : e.2 <;> rw [haction] at hadvance <;> cases hadvance
    have hkey : ∀ entry ∈ s.shared.store.entries, entry.path = path →
        entry.key ∈ heldKeys s.shared.store roots := by
      intro entry hentry hpath
      exact List.mem_filterMap.mpr ⟨root, hroot, hheld entry hentry hpath⟩
    cases hkeys : heldKeys s.shared.store roots with
    | nil =>
      refine .inl fun entry hentry hpath => ?_
      have := hkey entry hentry hpath
      rw [hkeys] at this
      cases this
    | cons first rest =>
      rw [hkeys] at hkey
      exact .inr hkey
  | forgetting keys =>
    cases keys with
    | nil => cases haction : e.2 <;> rw [haction] at hadvance <;> cases hadvance
    | cons key keys =>
      cases haction : e.2 <;> rw [haction] at hadvance <;> cases hadvance
      have hrest : ∀ entry ∈ (forget s.shared.store key).2.entries, entry.path = path →
          entry.key ∈ keys := by
        intro entry hentry hpath
        obtain ⟨hbefore, hne⟩ := mem_forget hentry
        exact (List.mem_cons.mp (h entry hbefore hpath)).resolve_left hne
      cases keys with
      | nil => exact .inl fun entry hentry hpath => nomatch hrest entry hentry hpath
      | cons next rest => exact .inr hrest
  | _ => exact h.elim

theorem underway_step (u : Underway s w root path) (timely : Timely s e) (leaves : Leaves path s e)
    (hstep : step s e.1 e.2 = some t) : Underway t w root path := by
  obtain ⟨call, hadvance, -⟩ := step_cases hstep
  have effect := advance_effect u.tidy.placed (u.tidy.calls e.1) (u.tidy.unreturned e.1) hadvance
  refine ⟨step_tidy u.tidy hstep, effect.places _ _ u.place, quiet_step u.tidy u.quiet leaves hstep, ?_⟩
  rcases u.stage with habsent | hstage
  · exact .inl (absent_advance habsent hadvance (u.quiet e.1))
  · by_cases hw : w = e.1
    · subst hw
      exact stage_own hstep hstage
    · exact stage_other u timely hw hstep hstage

omit [DecidableEq P] in
theorem revoke_names {registry : Registry} {kind : Kind} {number : ℕ} :
    root ∈ pushed registry (revoke kind number registry).2 ↔
      Names registry root (.revoke kind number : Action P) := by
  cases hgrant : registry.grants.get ⟨kind, number⟩ with
  | none => simp [pushed, revoke, Names, hgrant]
  | some g =>
    by_cases hlifetime : g.lifetime = .remembered
    · simp [pushed, revoke, Names, hgrant, hlifetime, eq_comm (a := root)]
    · simp [pushed, revoke, Names, hgrant, hlifetime]

omit [DecidableEq P] in
theorem revokeKind_names {registry : Registry} {kind : Kind} {hashOrder : Enumeration GrantId Grant} :
    root ∈ pushed registry (revokeKind hashOrder kind registry).2 ↔
      Names registry root (.revokeKind hashOrder kind : Action P) := by
  have hvalues (g : Grant) : g ∈ (hashOrder.entries registry.grants).map Prod.snd ↔
      Recorded registry g := by
    simp only [List.mem_map, Prod.exists, exists_eq_right, hashOrder.listed, Recorded]
  rw [pushed, revokeKind]
  simp only [List.drop_left, List.mem_map, List.mem_filter, decide_eq_true_eq, hvalues, Names]
  constructor
  · rintro ⟨g, ⟨hg, hkind, hparent, hlifetime, hlive⟩, hid⟩
    exact ⟨g, hg, hid, hkind, hparent, hlifetime, hlive⟩
  · rintro ⟨g, hg, hid, hkind, hparent, hlifetime, hlive⟩
    exact ⟨g, ⟨hg, hkind, hparent, hlifetime, hlive⟩, hid⟩

theorem underway_withdrawn {action : Action P} (tidy : Tidy s) (timely : Timely s (w, action))
    (hstep : step s w action = some t) (withdraws : Withdraws s.shared.registry root action)
    (remembered : root ∈ s.shared.remembered) (place : s.shared.places.get root = some path) :
    Underway t w root path := by
  obtain ⟨call, hadvance, hcalls⟩ := step_cases hstep
  have effect := advance_effect tidy.placed (tidy.calls w) (tidy.unreturned w) hadvance
  have hidle : s.calls w = .idle := by
    generalize s.calls w = doing at hadvance
    cases action with
    | revoke | revokeKind =>
      cases doing with
      | idle => rfl
      | forgetting keys => cases keys <;> cases hadvance
      | _ => cases hadvance
    | _ => exact withdraws.elim
  unfold Timely at timely
  simp only [hidle] at timely
  obtain ⟨quiet, finds⟩ := timely root path withdraws remembered place
  have leaves : Leaves path s (w, action) := by
    rintro kind number heq
    cases (heq : action = .remember kind number)
    exact withdraws.elim
  refine ⟨step_tidy tidy hstep, effect.places _ _ place, quiet_step tidy quiet leaves hstep, ?_⟩
  rw [hcalls, Function.update_self]
  by_cases habsent : Absent s.shared.store path
  · exact .inl (absent_advance habsent hadvance (quiet w))
  refine .inr ?_
  obtain ⟨listed, hlisted, hat⟩ : ∃ entry ∈ s.shared.store.entries, entry.path = path := by
    simpa [Absent] using habsent
  have names := (finds listed hlisted hat).1
  rw [hidle] at hadvance
  generalize t.shared = after at hadvance ⊢
  cases action with
  | revoke kind number =>
    have hpushed := revoke_names.mpr names
    cases hadvance
    exact ⟨hpushed, List.mem_of_mem_drop hpushed, fun entry hentry hpath =>
      (finds entry hentry hpath).2⟩
  | revokeKind hashOrder kind =>
    have hpushed := revokeKind_names.mpr names
    cases hadvance
    exact ⟨hpushed, List.mem_of_mem_drop hpushed, fun entry hentry hpath =>
      (finds entry hentry hpath).2⟩
  | _ => exact withdraws.elim

/-- A call of thread `i` that was under way in `s` has returned by `t`. -/
def ReturnedBy (S : System (RecentState P) (ℕ × Action P)) (i : ℕ) (s t : RecentState P) : Prop :=
  ∃ es₁ u es₂, Execution S s es₁ u ∧ u.calls i = .idle ∧ Execution S u es₂ t

def IsRemember : Call P → Prop
  | .rememberSource _ | .rememberCheck .. | .rememberCommit .. | .rememberCount _ => True
  | _ => False

/-- The withdrawal by `w` that led from `s` to `s'`, and every call to remember a place that
had begun by then, have returned; no other call to remember `path` has begun. -/
structure Settled (S : System (RecentState P) (ℕ × Action P)) (path : P) (w : ℕ)
    (s s' t : RecentState P) : Prop where
  withdrawal : ReturnedBy (S.restrict (Leaves path)) w s' t
  remembers : ∀ i, IsRemember (s.calls i) → ReturnedBy (S.restrict (Leaves path)) i s' t

theorem withdrawal_forgets {entries : List (Entry P)} {action : Action P}
    (reached : Reachable ((recentSystem entries).restrict Timely) s)
    (hstep : ((recentSystem entries).restrict Timely).Step s (w, action) s')
    (withdraws : Withdraws s.shared.registry root action)
    (remembered : root ∈ s.shared.remembered) (place : s.shared.places.get root = some path)
    (settled : Settled ((recentSystem entries).restrict Timely) path w s s' t) :
    Absent t.shared.store path := by
  have tidy := reachable_tidy (reachable_of_restrict reached)
  have start := underway_withdrawn tidy hstep.1 hstep.2 withdraws remembered place
  have along {x y : RecentState P} {es : List (ℕ × Action P)}
      (run : Execution (((recentSystem entries).restrict Timely).restrict (Leaves path)) x es y)
      (h : Underway x w root path) : Underway y w root path := by
    refine execution_invariant (P := fun y => Underway y w root path) ?_ run h
    rintro x e y u ⟨leaves, timely, hstep⟩
    exact underway_step u timely leaves hstep
  obtain ⟨es₁, u, es₂, before, hidle, after⟩ := settled.withdrawal
  have returned := along before start
  have absent : Absent u.shared.store path := by
    rcases returned.stage with habsent | hstage
    · exact habsent
    · rw [hidle] at hstage
      exact hstage.elim
  -- from then on the list stays without the place
  refine (execution_invariant (P := fun y => Underway y w root path ∧ Absent y.shared.store path)
    ?_ after ⟨returned, absent⟩).2
  rintro x e y ⟨u, habsent⟩ ⟨leaves, timely, hstep⟩
  obtain ⟨call, hadvance, -⟩ := step_cases hstep
  exact ⟨underway_step u timely leaves hstep, absent_advance habsent hadvance (u.quiet e.1)⟩

end Runs

section Folders

variable {S : System (RecentState P) (ℕ × Action P)} {ok : RecentState P → ℕ × Action P → Prop}
  {s s' : RecentState P} {e : ℕ × Action P} {es : List (ℕ × Action P)}

def afterSections (s : RecentState P) : List (ℕ × Action P) → RecentState P
  | [] => s
  | e :: es => afterSections ((step s e.1 e.2).getD s) es

def runsWell (check : Call P → Action P → Bool) (s : RecentState P) : List (ℕ × Action P) → Bool
  | [] => true
  | e :: es => (step s e.1 e.2).isSome && check (s.calls e.1) e.2 &&
      runsWell check ((step s e.1 e.2).getD s) es

theorem execution_after (check : Call P → Action P → Bool) (es : List (ℕ × Action P))
    (steps : ∀ s e t, check (s.calls e.1) e.2 = true → step s e.1 e.2 = some t → S.Step s e t)
    {before : List (ℕ × Action P)} (run : Execution S s before s')
    (h : runsWell check s' es = true) : Execution S s (before ++ es) (afterSections s' es) := by
  induction es generalizing before s' with
  | nil =>
    rw [List.append_nil]
    exact run
  | cons e es ih =>
    rw [runsWell, Bool.and_eq_true, Bool.and_eq_true] at h
    obtain ⟨⟨hsome, hcheck⟩, hrest⟩ := h
    obtain ⟨t, ht⟩ := Option.isSome_iff_exists.mp hsome
    rw [ht, Option.getD_some] at hrest
    have := ih (.tail run (steps s' e t hcheck ht)) hrest
    rw [List.append_assoc, List.singleton_append] at this
    rwa [afterSections, ht]

theorem other_calls {i : ℕ} (h : ∀ e ∈ es, e.1 ≠ i) : (afterSections s es).calls i = s.calls i := by
  induction es generalizing s with
  | nil => rfl
  | cons e es ih =>
    rw [afterSections, ih fun e' he' => h e' (List.mem_cons_of_mem _ he')]
    cases hstep : step s e.1 e.2 with
    | none => rfl
    | some t =>
      obtain ⟨call, -, hcalls⟩ := step_cases hstep
      rw [Option.getD_some, hcalls, Function.update_of_ne (h e List.mem_cons_self).symm]

def isPlain : Call P → Action P → Bool
  | .idle, .revoke .. => false
  | .idle, .revokeKind .. => false
  | .withdrawn _, _ => false
  | .releasing _, _ => false
  | _, _ => true

omit [DecidableEq P] in
theorem timely_plain (h : isPlain (s.calls e.1) e.2 = true) : Timely s e := by
  unfold Timely
  cases hcall : s.calls e.1 with
  | idle =>
    rw [hcall] at h
    intro root path withdraws
    cases haction : e.2 with
    | revoke | revokeKind =>
      rw [haction] at h
      cases h
    | _ =>
      rw [haction] at withdraws
      exact withdraws.elim
  | withdrawn roots =>
    rw [hcall] at h
    cases h
  | releasing id =>
    rw [hcall] at h
    cases h
  | _ => trivial

def isProceed : Action P → Bool
  | .proceed => true
  | _ => false

omit [DecidableEq P] in
theorem leaves_proceed {path : P} (h : isProceed e.2 = true) : Leaves path s e := by
  intro kind number heq
  rw [heq] at h
  cases h

def folder : GrantId := ⟨.directory, 1⟩

def rememberFolder : List (ℕ × Action ℕ) :=
  [(0, .choose .directory 1 (.union .read .derive) (.trustedSelection .consentOnly) .directory 9),
    (0, .proceed), (0, .remember .directory 1), (0, .proceed), (0, .metadata (.ok ⟨3, 4⟩)),
    (0, .proceed), (0, .proceed)]

def remembered : RecentState ℕ := afterSections (started []) rememberFolder

def revokeFolder : ℕ × Action ℕ := (0, .revoke .directory 1)

def withdrawing : RecentState ℕ := afterSections remembered [revokeFolder]

def forgetting : RecentState ℕ := afterSections withdrawing [(0, .proceed)]

def forgot : RecentState ℕ := afterSections forgetting [(0, .proceed), (0, .proceed)]

theorem others_idle (es : List (ℕ × Action ℕ)) (h : es.all (·.1 = 0) = true) {i : ℕ} (hi : i ≠ 0) :
    (afterSections (started []) es).calls i = .idle := by
  refine other_calls fun e he => ?_
  have hzero := of_decide_eq_true (List.all_eq_true.mp h e he)
  rw [hzero]
  exact hi.symm

theorem none_remembering (i : ℕ) : remembered.calls i = .idle := by
  by_cases hi : i = 0
  · rw [hi]
    rfl
  · exact others_idle rememberFolder rfl hi

theorem folder_found : Finds remembered revokeFolder.2 := by
  intro root path withdraws _ place
  obtain ⟨g, hg, rfl⟩ := withdraws
  have hgrant : (remembered.shared.registry.grants.get folder).map (fun g => (g.root, g.lifetime)) =
      some (folder, .remembered) := by decide +kernel
  rw [show remembered.shared.registry.grants.get folder = some g from hg] at hgrant
  obtain ⟨hroot, hlifetime⟩ := Prod.mk.inj (Option.some.inj hgrant)
  refine ⟨fun i hi => ?_, fun entry hentry _ => ⟨⟨g, hg, rfl, hlifetime⟩, ?_⟩⟩
  · rw [none_remembering i] at hi
    exact hi
  · have hkeys : ∀ entry ∈ remembered.shared.store.entries, entry.key = 1 := by decide +kernel
    rw [hkeys entry hentry, hroot]
    decide +kernel

theorem remembered_folder_forgotten : Absent forgot.shared.store 9 := by
  have start := execution_after (S := (recentSystem ([] : List (Entry ℕ))).restrict Timely) isPlain
    rememberFolder (fun s e t h hstep => ⟨timely_plain h, hstep⟩) (.refl (started []))
    (by decide +kernel)
  have takes : TakesOwn withdrawing 0 := by
    intro i hi roots hcall
    have hidle : withdrawing.calls i = .idle := others_idle (rememberFolder ++ [revokeFolder]) rfl hi
    cases hidle.symm.trans hcall
  have timely : Timely withdrawing (0, .proceed) := takes
  have first : Execution (((recentSystem ([] : List (Entry ℕ))).restrict Timely).restrict (Leaves 9))
      withdrawing ([] ++ [(0, .proceed)]) forgetting :=
    .tail (.refl withdrawing) ⟨leaves_proceed rfl, timely, rfl⟩
  have rest := execution_after
    (S := ((recentSystem ([] : List (Entry ℕ))).restrict Timely).restrict (Leaves 9))
    (fun call action => isPlain call action && isProceed action) [(0, .proceed), (0, .proceed)]
    (fun s e t h hstep => by
      rw [Bool.and_eq_true] at h
      exact ⟨leaves_proceed h.2, timely_plain h.1, hstep⟩)
    first (by decide +kernel)
  have settled : Settled ((recentSystem ([] : List (Entry ℕ))).restrict Timely) 9 0 remembered
      withdrawing forgot := by
    refine ⟨⟨_, forgot, [], rest, rfl, .refl forgot⟩, fun i hi => ?_⟩
    rw [none_remembering i] at hi
    exact hi.elim
  have hstep : ((recentSystem ([] : List (Entry ℕ))).restrict Timely).Step remembered
      (0, revokeFolder.2) withdrawing := ⟨folder_found, rfl⟩
  have withdraws : Withdraws remembered.shared.registry folder revokeFolder.2 := ⟨_, rfl, rfl⟩
  have kept : folder ∈ remembered.shared.remembered := by decide +kernel
  have place : remembered.shared.places.get folder = some 9 := by decide +kernel
  exact withdrawal_forgets ⟨_, start⟩ hstep withdraws kept place settled

def releaseFolder : List (ℕ × Action ℕ) :=
  [(0, .accept .directory 1 .read),
    (0, .derive .directory 2 .read ⟨folder, .union .read .derive, .trustedSelection .consentOnly,
      .remembered, none, folder, false⟩),
    (0, .release .directory 1), (0, .proceed)]

def released : RecentState ℕ := afterSections (started []) (rememberFolder ++ releaseFolder)

def revokeChild : ℕ × Action ℕ := (0, .revoke .directory 2)

def withdrawingChild : RecentState ℕ := afterSections released [revokeChild]

def withdrawnChild : RecentState ℕ := afterSections withdrawingChild [(0, .proceed), (0, .proceed)]

/-- Withdrawn through the child, the place stays on the list: the root no longer holds the
entry. -/
theorem released_root_stays_listed : ¬∀ (entries : List (Entry ℕ)) (s s' t : RecentState ℕ) (w : ℕ)
    (action : Action ℕ) (root : GrantId) (path : ℕ), Reachable (recentSystem entries) s →
      (recentSystem entries).Step s (w, action) s' → Withdraws s.shared.registry root action →
      root ∈ s.shared.remembered → s.shared.places.get root = some path →
      Settled (recentSystem entries) path w s s' t → Absent t.shared.store path := by
  intro claim
  have start := execution_after (S := recentSystem ([] : List (Entry ℕ))) (fun _ _ => true)
    (rememberFolder ++ releaseFolder) (fun s e t _ hstep => hstep) (.refl (started []))
    (by decide +kernel)
  have rest := execution_after (S := (recentSystem ([] : List (Entry ℕ))).restrict (Leaves 9))
    (fun _ action => isProceed action) [(0, .proceed), (0, .proceed)]
    (fun s e t h hstep => ⟨leaves_proceed h, hstep⟩) (.refl withdrawingChild) (by decide +kernel)
  have idle (i : ℕ) : released.calls i = .idle := by
    by_cases hi : i = 0
    · rw [hi]
      rfl
    · exact others_idle (rememberFolder ++ releaseFolder) rfl hi
  have settled : Settled (recentSystem ([] : List (Entry ℕ))) 9 0 released withdrawingChild
      withdrawnChild := by
    refine ⟨⟨_, withdrawnChild, [], rest, rfl, .refl withdrawnChild⟩, fun i hi => ?_⟩
    rw [idle i] at hi
    exact hi.elim
  have hstep : (recentSystem ([] : List (Entry ℕ))).Step released (0, revokeChild.2)
      withdrawingChild := rfl
  have withdraws : Withdraws released.shared.registry folder revokeChild.2 := ⟨_, rfl, rfl⟩
  have kept : folder ∈ released.shared.remembered := by decide +kernel
  have place : released.shared.places.get folder = some 9 := by decide +kernel
  have absent := claim [] released _ _ 0 revokeChild.2 folder 9 ⟨_, start⟩ hstep withdraws kept place
    settled
  have listed : withdrawnChild.shared.store.entries.map (·.path) = [9] := by decide +kernel
  obtain ⟨entry, hentry, hpath⟩ := List.mem_map.mp (listed ▸ List.mem_singleton_self 9)
  exact absent entry hentry hpath

end Folders

end WithdrawnEntries
