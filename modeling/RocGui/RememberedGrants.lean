import RocGui.AccessSurface
import RocGui.RecentLists

/-! Grants that say they are remembered, and the entries that remember them. -/
namespace RememberedGrants

open FiniteMaps Grants GrantRuns Transitions RecentFormats RecentStores RecentCalls
open RecentEntries (EntryKind Unavailable maxEntries)

def Listed (store : Store) (key : UInt64) : Prop := ∃ entry ∈ store.entries, entry.key = key

/-- A grant that says it is remembered, by the entry its root is remembered as. -/
structure Relies (s : CallState) (key : UInt64) (g : Grant) : Prop where
  recorded : Recorded s.grants.registry g
  live : g.revoked = false
  remembered : g.lifetime = .remembered
  entry : s.rememberedAs.get g.root = some key

def RememberedListed (s : CallState) : Prop :=
  ∀ g, Recorded s.grants.registry g → g.revoked = false → g.lifetime = .remembered →
    ∃ key, s.rememberedAs.get g.root = some key ∧ Listed s.store key

/-- No step takes an entry from a grant that says it is remembered, or lets a grant say so
without one. -/
def Keeps (s : CallState) : CallEvent → Prop
  | .remember kind number metadata => ∀ held,
      (Grants.remember kind number s.grants.registry).1 = .ok held →
        (∀ reason, locate s metadata held.id = .error reason →
          ∀ g, Recorded s.grants.registry g → g.root = held.id → g.lifetime = .remembered) ∧
        ∀ entryKind path identity, locate s metadata held.id = .ok (entryKind, path, identity) →
          (∀ entry ∈ s.store.entries, ¬SamePath entry.path path) →
          maxEntries ≤ s.store.entries.length →
          ∀ last, s.store.entries.getLast? = some last → ∀ g, ¬Relies s last.key g
  | .forget key => ∀ g, ¬Relies s key g
  | .revoke kind number => ∀ target, s.grants.registry.grants.get ⟨kind, number⟩ = some target →
      target.lifetime = .remembered → ∀ key, s.store.held.get target.root = some key →
        ∀ g, Relies s key g → g.root = target.root
  | .revokeKind _ kind => ∀ target, Recorded s.grants.registry target → target.root.kind = kind →
      target.parent = none → target.lifetime = .remembered → target.revoked = false →
        ∀ key, s.store.held.get target.id = some key → ∀ g, Relies s key g → g.root.kind = kind
  | .derive _ _ _ parent => parent.lifetime = .remembered → parent.rights.Contains .derive →
      parent.root ∉ s.grants.registry.revokedRoots →
        ∃ key, s.rememberedAs.get parent.root = some key ∧ Listed s.store key
  | _ => True

/-- The run is of one lifecycle. -/
def OneLifecycle (_ : CallState) : CallEvent → Prop
  | .beginLifecycle => False
  | _ => True

def lifecycle (store : Store) : System CallState CallEvent := (callSystem store).restrict OneLifecycle

structure Remembers (s : CallState) : Prop where
  listed : RememberedListed s
  bounded : s.store.entries.length ≤ maxEntries
  taken : s.grants.registry.withdrawnRemembered = []

section Lists

variable {store : Store} {key k : UInt64}

theorem listed_forget (h : Listed store k) (hne : k ≠ key) : Listed (forget store key).2 k := by
  obtain ⟨entry, hentry, rfl⟩ := h
  unfold forget
  by_cases hnone : (store.entries.filter (·.key ≠ key)).length = store.entries.length
  · rw [if_pos hnone]
    exact ⟨entry, hentry, rfl⟩
  · rw [if_neg hnone]
    exact ⟨entry, List.mem_filter.mpr ⟨hentry, decide_eq_true hne⟩, rfl⟩

theorem listed_forget_all {keys : List UInt64} (h : Listed store k) (hne : k ∉ keys) :
    Listed (keys.foldl (fun store key => (forget store key).2) store) k := by
  induction keys generalizing store with
  | nil => exact h
  | cons key keys ih =>
    rw [List.mem_cons, not_or] at hne
    exact ih (listed_forget h hne.1) hne.2

theorem bounded_forget_all (keys : List UInt64) :
    (keys.foldl (fun store key => (forget store key).2) store).entries.length ≤
      store.entries.length := by
  induction keys generalizing store with
  | nil => exact le_refl _
  | cons key keys ih =>
    exact ih.trans (RecentLists.forget_sublist store key).1.length_le

theorem listed_commit (hbounded : store.entries.length ≤ maxEntries) (id : GrantId)
    (kind : EntryKind) (path : Path) (identity : Identity) (origin : Origin) :
    Listed (commitRemember store id kind path identity origin).2
      (place store kind path identity origin).1.key ∧
    ∀ k, Listed store k → Listed (commitRemember store id kind path identity origin).2 k ∨
      (∀ entry ∈ store.entries, ¬SamePath entry.path path) ∧ maxEntries ≤ store.entries.length ∧
        ∃ last, store.entries.getLast? = some last ∧ last.key = k := by
  unfold commitRemember
  rcases RecentLists.place_cases store kind path identity origin with
    ⟨before, entry, after, hsplit, hsame, hplace⟩ | ⟨hnone, hplace⟩
  · rw [hplace]
    have hlength : (before ++ after).length + 1 ≤ maxEntries := by
      rw [hsplit] at hbounded
      simp only [List.length_append, List.length_cons] at hbounded ⊢
      omega
    refine ⟨⟨_, List.mem_cons_self, rfl⟩, fun k ⟨e, he, hk⟩ => .inl ?_⟩
    rw [hsplit, List.mem_append, List.mem_cons] at he
    have hall : ((⟨entry.key, kind, entry.path, identity, origin⟩ : Entry) :: (before ++ after)).take
        maxEntries = ⟨entry.key, kind, entry.path, identity, origin⟩ :: (before ++ after) :=
      List.take_of_length_le hlength
    rcases he with he | rfl | he
    · exact ⟨e, by simp [hall, he], hk⟩
    · exact ⟨⟨e.key, kind, e.path, identity, origin⟩, by simp [hall], hk⟩
    · exact ⟨e, by simp [hall, he], hk⟩
  · rw [hplace]
    refine ⟨⟨_, List.mem_cons_self, rfl⟩, fun k ⟨e, he, hk⟩ => ?_⟩
    by_cases hfull : maxEntries ≤ store.entries.length
    · obtain ⟨last, hlast⟩ : ∃ last, store.entries.getLast? = some last :=
        ⟨_, List.getLast?_eq_some_getLast (List.ne_nil_of_mem he)⟩
      by_cases heq : last.key = k
      · exact .inr ⟨hnone, hfull, last, hlast, heq⟩
      · have hdrop : e ∈ store.entries.dropLast := by
          have hconcat := List.dropLast_append_getLast? last hlast
          rw [← hconcat, List.mem_append, List.mem_singleton] at he
          rcases he with he | rfl
          · exact he
          · exact absurd hk heq
        refine .inl ⟨e, ?_, hk⟩
        have hlength : store.entries.length = maxEntries := le_antisymm hbounded hfull
        change e ∈ (⟨store.nextKey, kind, path, identity, origin⟩ :: store.entries).take (127 + 1)
        rw [List.take_succ_cons]
        refine List.mem_cons_of_mem _ ?_
        rw [List.dropLast_eq_take, hlength] at hdrop
        exact hdrop
    · refine .inl ⟨e, ?_, hk⟩
      have hlength : (⟨store.nextKey, kind, path, identity, origin⟩ :: store.entries).length ≤
          maxEntries := by
        rw [List.length_cons]
        omega
      change e ∈ (⟨store.nextKey, kind, path, identity, origin⟩ :: store.entries).take maxEntries
      rw [List.take_of_length_le hlength]
      exact List.mem_cons_of_mem _ he

end Lists

section Steps

variable {s t : CallState} {g g' : Grant}

theorem listed_of_old (h : RememberedListed s) (hrecorded : Recorded s.grants.registry g')
    (hlive : g'.revoked = false) (hremembered : g'.lifetime = .remembered) (hroot : g'.root = g.root)
    (hnamed : t.rememberedAs.get g.root = s.rememberedAs.get g.root)
    (hlist : ∀ key, Relies s key g' → Listed s.store key → Listed t.store key) :
    ∃ key, t.rememberedAs.get g.root = some key ∧ Listed t.store key := by
  obtain ⟨key, hkey, hlisted⟩ := h g' hrecorded hlive hremembered
  refine ⟨key, ?_, hlist key ⟨hrecorded, hlive, hremembered, hkey⟩ hlisted⟩
  rw [hnamed, ← hroot, hkey]

theorem flag_live {p : Grant → Bool} (h : (flag p g).revoked = false) :
    p g = false ∧ g.revoked = false := by
  have hflag := flag_revoked p g
  rw [h] at hflag
  simp only [Bool.false_eq_true, false_iff, not_or, Bool.not_eq_true] at hflag
  exact hflag

theorem remember_ok {kind : Kind} {number : ℕ} {registry : Registry} {held : Grant}
    (h : (Grants.remember kind number registry).1 = .ok held) :
    ∃ grant, registry.grants.get ⟨kind, number⟩ = some grant ∧ grant.parent = none ∧
      held = { grant with lifetime := .remembered } ∧
      (Grants.remember kind number registry).2 =
        { registry with grants := registry.grants.mapValues (Grants.keep grant.root) } := by
  unfold Grants.remember at h ⊢
  cases hget : registry.grants.get ⟨kind, number⟩ with
  | none => simp [hget] at h
  | some grant =>
    rw [hget] at h
    by_cases hlive : ¬grant.Live ∨ grant.root ∈ registry.revokedRoots
    · simp [hlive] at h
    · by_cases hroot : grant.parent.isSome ∨ grant.origin = .automatic
      · simp [hlive, hroot] at h
      · simp only [hlive, hroot, if_false] at h ⊢
        obtain rfl := Except.ok.inj h
        refine ⟨grant, rfl, ?_, rfl, rfl⟩
        rw [not_or, Option.not_isSome_iff_eq_none] at hroot
        exact hroot.1

theorem remember_error {kind : Kind} {number : ℕ} {registry : Registry} {refusal : Refusal}
    (h : (Grants.remember kind number registry).1 = .error refusal) :
    (Grants.remember kind number registry).2 = registry := by
  unfold Grants.remember at h ⊢
  cases hget : registry.grants.get ⟨kind, number⟩ with
  | none => rfl
  | some grant =>
    rw [hget] at h
    by_cases hlive : ¬grant.Live ∨ grant.root ∈ registry.revokedRoots
    · simp [hlive]
    · by_cases hroot : grant.parent.isSome ∨ grant.origin = .automatic
      · simp [hlive, hroot]
      · simp [hlive, hroot] at h

theorem keep_marked {registry : Registry} {root : GrantId}
    (h : ∀ g, Recorded registry g → g.root = root → g.lifetime = .remembered) :
    registry.grants.mapValues (Grants.keep root) = registry.grants := by
  ext id : 1
  rw [FiniteMap.get_mapValues]
  cases hget : registry.grants.get id with
  | none => rfl
  | some g =>
    rw [Option.map_some]
    congr 1
    unfold Grants.keep
    split
    · rename_i hroot
      rw [← h g ⟨id, hget⟩ hroot]
    · rfl

theorem remember_refused (placed : AccessSurface.RootsPlaced s.grants) {kind : Kind} {number : ℕ}
    {metadata : Path → Except Unavailable Identity} {reason : Unavailable}
    (keeps : Keeps s (.remember kind number metadata))
    (h : (remember s kind number metadata).1 = .error reason) :
    (remember s kind number metadata).2.grants = s.grants ∧
      (remember s kind number metadata).2.rememberedAs = s.rememberedAs ∧
      RecentLists.SameList s.store (remember s kind number metadata).2.store := by
  rcases remember_cases s kind number metadata with
    ⟨refusal, herror, heq⟩ | ⟨held, why, hok, hlocate, heq⟩ | ⟨_, _, _, _, _, _, heq⟩
  · rw [heq]
    refine ⟨?_, rfl,
      RecentLists.same_list_countRemember s.store (.error (RecentRuns.refusedAs refusal))⟩
    change GrantRuns.next s.grants (.remember kind number) = s.grants
    rw [GrantRuns.next, remember_error herror]
  · rw [heq]
    refine ⟨?_, rfl, RecentLists.same_list_countRemember s.store (.error why)⟩
    obtain ⟨grant, hget, hparent, rfl, hmarked⟩ := remember_ok hok
    obtain ⟨hid, hroot, -⟩ := placed.named _ grant hget
    have marked := (keeps _ hok).1 _ hlocate
    change GrantRuns.next s.grants (.remember kind number) = s.grants
    rw [GrantRuns.next, hmarked, keep_marked fun g hg heq => marked g hg ?_]
    rw [heq, hroot hparent]
    exact hid.symm
  · rw [heq] at h
    cases h

theorem remembers_forgetWithdrawn (h : Remembers s) {grants : GrantState}
    (hrecorded : ∀ g, Recorded grants.registry g → g.revoked = false → g.lifetime = .remembered →
      ∃ g', Recorded s.grants.registry g' ∧ g'.revoked = false ∧ g'.lifetime = .remembered ∧
        g'.root = g.root ∧ ∀ key, Relies s key g' →
          ∀ root ∈ grants.registry.withdrawnRemembered, s.store.held.get root ≠ some key) :
    Remembers (forgetWithdrawn { s with grants := grants }) where
  listed g hg hlive hremembered := by
    obtain ⟨g', hg', hlive', hremembered', hroot, hkept⟩ := hrecorded g hg hlive hremembered
    refine listed_of_old h.listed hg' hlive' hremembered' hroot rfl fun key relies hlisted => ?_
    refine listed_forget_all hlisted fun hmem => ?_
    obtain ⟨root, hwithdrawn, hheld⟩ := List.mem_filterMap.mp hmem
    exact hkept key relies root hwithdrawn hheld
  bounded := (bounded_forget_all _).trans h.bounded
  taken := rfl

theorem remembers_grants (h : Remembers s) {grants : GrantState} {store : Store}
    (hrecorded : ∀ g, Recorded grants.registry g → g.lifetime = .remembered →
      Recorded s.grants.registry g ∨ ∃ key, s.rememberedAs.get g.root = some key ∧ Listed s.store key)
    (hstore : store.entries = s.store.entries)
    (htaken : grants.registry.withdrawnRemembered = []) :
    Remembers { s with grants := grants, store := store } where
  listed g hg hlive hremembered := by
    have same {key : UInt64} (hlisted : Listed s.store key) : Listed store key := by
      rwa [Listed, hstore]
    rcases hrecorded g hg hremembered with hold | ⟨key, hkey, hlisted⟩
    · exact listed_of_old h.listed hold hlive hremembered rfl rfl fun key _ => same
    · exact ⟨key, hkey, same hlisted⟩
  bounded := by
    rw [hstore]
    exact h.bounded
  taken := htaken

theorem descendant_taken (kind : Kind) (number : ℕ) (rights : Rights) (r : Registry) (parent : Grant) :
    (recordDescendant kind number rights r parent).2.withdrawnRemembered = r.withdrawnRemembered := by
  unfold recordDescendant
  split
  · rfl
  · split <;> rfl

theorem accept_taken (kind : Kind) (number : ℕ) (r : Registry) (needs : Rights) :
    (accept kind number r needs).2.withdrawnRemembered = r.withdrawnRemembered := by
  unfold accept
  split
  · rfl
  · split
    · rfl
    · split <;> rfl

theorem release_taken (kind : Kind) (number : ℕ) (r : Registry) :
    (release kind number r).withdrawnRemembered = r.withdrawnRemembered := by
  unfold release
  split <;> rfl

end Steps

section Runs

variable {s : CallState} {e : CallEvent} {store : Store}

theorem remembers_remember (placed : AccessSurface.RootsPlaced s.grants) (h : Remembers s)
    {kind : Kind} {number : ℕ} {metadata : Path → Except Unavailable Identity}
    (keeps : Keeps s (.remember kind number metadata)) :
    Remembers (remember s kind number metadata).2 := by
  cases houtcome : (remember s kind number metadata).1 with
  | error reason =>
    obtain ⟨hgrants, hnamed, same⟩ := remember_refused placed keeps houtcome
    refine ⟨fun g hg hlive hremembered => ?_, ?_, ?_⟩
    · rw [hgrants] at hg
      refine listed_of_old h.listed hg hlive hremembered rfl (by rw [hnamed]) fun key _ hlisted => ?_
      rwa [Listed, same.entries]
    · rw [same.entries]
      exact h.bounded
    · rw [hgrants]
      exact h.taken
  | ok _ =>
    rcases remember_cases s kind number metadata with
      ⟨_, _, heq⟩ | ⟨_, _, _, _, heq⟩ | ⟨held, entryKind, path, identity, hok, hlocate, heq⟩
    · rw [heq] at houtcome
      cases houtcome
    · rw [heq] at houtcome
      cases houtcome
    obtain ⟨grant, hget, hparent, rfl, hmarked⟩ := remember_ok hok
    obtain ⟨hid, hroot, -⟩ := placed.named _ grant hget
    have hroot := hroot hparent
    have evicts := (keeps _ hok).2 entryKind path identity hlocate
    obtain ⟨hfront, hrest⟩ := listed_commit h.bounded grant.id entryKind path identity grant.origin
    have same := RecentLists.same_list_countRemember
      (commitRemember s.store grant.id entryKind path identity grant.origin).2 (.ok ())
    have counted {key : UInt64}
        (hlisted : Listed (commitRemember s.store grant.id entryKind path identity grant.origin).2 key) :
        Listed (countRemember (commitRemember s.store grant.id entryKind path identity
          grant.origin).2 (.ok ())) key := by
      rwa [Listed, same.entries]
    rw [heq]
    refine ⟨fun g hg hlive hremembered => ?_, ?_, ?_⟩
    · change ∃ key, (s.rememberedAs.set grant.id _).get g.root = some key ∧ _
      by_cases hsame : g.root = grant.id
      · rw [hsame, FiniteMap.get_set_self]
        exact ⟨_, rfl, counted hfront⟩
      · rw [FiniteMap.get_set_ne _ _ hsame]
        -- a grant of another root is as it was
        have hold : Recorded s.grants.registry g := by
          change Recorded (Grants.remember kind number s.grants.registry).2 g at hg
          rw [hmarked] at hg
          obtain ⟨g', hg', rfl⟩ := recorded_map rfl hg
          rw [keep_root] at hsame
          have hne : g'.root ≠ grant.root := by rwa [hroot, ← hid]
          rwa [Grants.keep, if_neg hne]
        obtain ⟨key, hkey, hlisted⟩ := h.listed g hold hlive hremembered
        refine ⟨key, hkey, counted ?_⟩
        rcases hrest key hlisted with hlisted | ⟨hnew, hfull, last, hlast, rfl⟩
        · exact hlisted
        · exact absurd ⟨hold, hlive, hremembered, hkey⟩ (evicts hnew hfull last hlast g)
    · change (countRemember _ (.ok ())).entries.length ≤ maxEntries
      rw [same.entries]
      unfold commitRemember
      obtain ⟨entry, others, nextKey⟩ := place s.store entryKind path identity grant.origin
      exact List.length_take_le _ _
    · change (Grants.remember kind number s.grants.registry).2.withdrawnRemembered = []
      rw [hmarked]
      exact h.taken

theorem remembers_step (reached : Reachable grantSystem s.grants) (h : Remembers s)
    (one : OneLifecycle s e) (enabled : Enabled s e) (keeps : Keeps s e) : Remembers (next s e) := by
  have agree := roots_agree reached
  have placed := AccessSurface.roots_placed reached
  cases e with
  | choose kind number rights origin entryKind path =>
    refine remembers_grants h (fun g hg hremembered => ?_) rfl h.taken
    rcases recorded_root hg with rfl | hg
    · cases hremembered
    · exact .inl hg
  | provide kind number rights origin =>
    refine remembers_grants h (fun g hg hremembered => ?_) rfl h.taken
    rcases recorded_root hg with rfl | hg
    · cases hremembered
    · exact .inl hg
  | accept kind number needs =>
    refine remembers_grants h (fun g hg _ => .inl ?_) rfl ?_
    · obtain ⟨id, hget⟩ := hg
      exact ⟨id, (accept_cases kind number s.grants.registry needs).1 ▸ hget⟩
    · exact (accept_taken kind number s.grants.registry needs).trans h.taken
  | derive kind number rights parent =>
    refine remembers_grants h (fun g hg hremembered => ?_) rfl
      ((descendant_taken kind number rights s.grants.registry parent).trans h.taken)
    rcases descendant_cases kind number rights s.grants.registry parent with
      ⟨-, heq⟩ | ⟨hderives, hlive, -, -, hall⟩
    · change Recorded (recordDescendant kind number rights s.grants.registry parent).2 g at hg
      rw [heq] at hg
      exact .inl hg
    · rcases hall g hg with rfl | hg
      · exact .inr (keeps hremembered hderives hlive)
      · exact .inl hg
  | remember kind number metadata => exact remembers_remember placed h keeps
  | reopen key entryKind check opened =>
    rw [RecentCalls.next]
    rcases reopen_cases s key entryKind check opened with heq | heq | ⟨entry, kind, number, rights, hfind, rfl, heq⟩
    · rw [heq]
      exact h
    · rw [heq]
      exact remembers_grants h (fun g hg _ => .inl hg) rfl h.taken
    · rw [heq]
      refine ⟨fun g hg hlive hremembered => ?_, h.bounded, h.taken⟩
      change ∃ key, (s.rememberedAs.set ⟨kind, number⟩ entry.key).get g.root = some key ∧ _
      rcases recorded_root hg with rfl | hg
      · rw [FiniteMap.get_set_self]
        exact ⟨_, rfl, entry, (findEntry_ok hfind).1, rfl⟩
      · have hold : g.root ≠ ⟨kind, number⟩ := fun heq => enabled (heq ▸ agree.issued g (.inl hg))
        rw [FiniteMap.get_set_ne _ _ hold]
        exact h.listed g hg hlive hremembered
  | forget key =>
    refine ⟨fun g hg hlive hremembered => ?_, ?_, h.taken⟩
    · refine listed_of_old h.listed hg hlive hremembered rfl rfl fun k relies hlisted => ?_
      exact listed_forget hlisted fun heq => keeps g (heq ▸ relies)
    · exact (RecentLists.forget_sublist s.store key).1.length_le.trans h.bounded
  | revoke kind number =>
    refine remembers_forgetWithdrawn h fun g hg hlive hremembered => ?_
    rcases revoke_cases kind number s.grants.registry with ⟨-, heq⟩ | ⟨target, htarget, -, hgrants⟩
    · change Recorded (Grants.revoke kind number s.grants.registry).2 g at hg
      rw [heq] at hg
      refine ⟨g, hg, hlive, hremembered, rfl, fun key _ root hroot => ?_⟩
      change root ∈ (Grants.revoke kind number s.grants.registry).2.withdrawnRemembered at hroot
      rw [heq, h.taken] at hroot
      cases hroot
    · obtain ⟨g', hg', rfl⟩ := recorded_map hgrants hg
      obtain ⟨hother, hlive'⟩ := flag_live hlive
      rw [flag_lifetime] at hremembered
      refine ⟨g', hg', hlive', hremembered, (flag_root _ _).symm, fun key relies root hroot hheld => ?_⟩
      change root ∈ (Grants.revoke kind number s.grants.registry).2.withdrawnRemembered at hroot
      simp only [Grants.revoke, htarget, h.taken, List.nil_append] at hroot
      split at hroot
      · rename_i hlifetime
        rw [List.mem_singleton.mp hroot] at hheld
        have hsame := keeps target htarget hlifetime key hheld g' relies
        simp [hsame] at hother
      · cases hroot
  | revokeKind hashOrder kind =>
    refine remembers_forgetWithdrawn h fun g hg hlive hremembered => ?_
    obtain ⟨g', hg', rfl⟩ := recorded_map (f := flag fun grant => grant.root.kind = kind) rfl hg
    obtain ⟨hother, hlive'⟩ := flag_live hlive
    rw [flag_lifetime] at hremembered
    refine ⟨g', hg', hlive', hremembered, (flag_root _ _).symm, fun key relies root hroot hheld => ?_⟩
    change root ∈ (Grants.revokeKind hashOrder kind s.grants.registry).2.withdrawnRemembered at hroot
    simp only [Grants.revokeKind, h.taken, List.nil_append, List.mem_map, List.mem_filter,
      decide_eq_true_eq] at hroot
    obtain ⟨target, ⟨⟨⟨id, grant⟩, hmem, rfl⟩, hkind, hparent, hlifetime, hunrevoked⟩, rfl⟩ := hroot
    have hsame := keeps grant ⟨id, (hashOrder.listed _ _ _).mp hmem⟩ hkind hparent hlifetime
      (by simpa using hunrevoked) key hheld g' relies
    simp [hsame] at hother
  | release kind number =>
    refine remembers_grants h (fun g hg _ => .inl (recorded_release hg)) rfl ?_
    exact (release_taken kind number s.grants.registry).trans h.taken
  | beginLifecycle => exact one.elim

/-- The two halves of the promise: what says it is remembered is listed, and a `remember` that
answers an error changed nothing. -/
structure RememberingKept (S : System CallState CallEvent) (s : CallState) : Prop where
  listed : RememberedListed s
  refused : ∀ kind number metadata reason t, S.Step s (.remember kind number metadata) t →
      (remember s kind number metadata).1 = .error reason →
        t.grants.registry = s.grants.registry ∧ t.store.entries = s.store.entries

theorem remembered_listed {files : Files} {backing : Option Path} {seeds : List Path}
    (fits : seeds.length < 2 ^ 63) (start : configure files backing seeds = .ok store)
    (h : Reachable ((lifecycle store).restrict Keeps) s) :
    RememberingKept ((lifecycle store).restrict Keeps) s := by
  have entries := RecentLists.entries_configure fits start
  have both : Reachable (callSystem store) s ∧ Remembers s := by
    refine reachable_invariant (S := (lifecycle store).restrict Keeps)
      (P := fun s => Reachable (callSystem store) s ∧ Remembers s)
      ⟨reachable_initial _, ⟨fun g hg => ?_, entries.bounded, rfl⟩⟩ ?_ h
    · obtain ⟨id, hget⟩ := hg
      cases (FiniteMap.get_empty id).symm.trans hget
    · rintro s e t ⟨reached, remembers⟩ ⟨keeps, one, hstep⟩
      refine ⟨reachable_step reached hstep, ?_⟩
      obtain ⟨enabled, rfl⟩ := hstep
      exact remembers_step (grants_reachable reached) remembers one enabled keeps
  refine ⟨both.2.listed, ?_⟩
  rintro kind number metadata reason t ⟨keeps, -, -, rfl⟩ herror
  obtain ⟨hgrants, -, same⟩ :=
    remember_refused (AccessSurface.roots_placed (grants_reachable both.1)) keeps herror
  exact ⟨congrArg GrantState.registry hgrants, same.entries⟩

def chooseFolder : CallEvent :=
  .choose .directory 1 .read (.trustedSelection .consentOnly) .directory [47, 98]

def rememberMissing : CallEvent := .remember .directory 1 fun _ => .error .missing

def rememberFound : CallEvent := .remember .directory 1 fun _ => .ok ⟨1, 3⟩

def emptyStore : Store := configured [] none

theorem configure_empty (files : Files) : configure files none [] = .ok emptyStore := rfl

theorem found_folder_listed : RememberingKept ((lifecycle emptyStore).restrict Keeps)
    (runTrace RecentCalls.next (started emptyStore) [chooseFolder, rememberFound]) := by
  have chosen := reachable_step (reachable_initial ((lifecycle emptyStore).restrict Keeps))
    (e := chooseFolder) ⟨trivial, trivial, Finset.notMem_empty _, rfl⟩
  refine @remembered_listed _ _ _ _ [] (by decide) (configure_empty ⟨fun _ => none, .ok,
    fun _ => .ok (.file, ⟨1, 3⟩)⟩) (reachable_step chosen (e := rememberFound) ⟨?_, trivial, trivial, rfl⟩)
  intro held hok
  have hid : held.id = ⟨.directory, 1⟩ := by
    obtain ⟨grant, hget, -, rfl, -⟩ := remember_ok hok
    have placed := AccessSurface.roots_placed (reachable_step (reachable_initial grantSystem)
      (e := .recordRoot .directory 1 .read (.trustedSelection .consentOnly) .session)
      ⟨Finset.notMem_empty _, rfl⟩)
    exact (placed.named _ grant hget).1
  refine ⟨fun reason herror => ?_, fun _ _ _ _ _ hfull => ?_⟩
  · rw [hid] at herror
    cases herror
  · exact absurd hfull (by decide)

/-- The folder says it is remembered, although it could not be and is not listed. -/
theorem missing_folder_marked : ¬∀ (files : Files) (backing : Option Path) (seeds : List Path)
    (store : Store) (s : CallState), seeds.length < 2 ^ 63 → configure files backing seeds = .ok store →
      Reachable (lifecycle store) s → RememberingKept (lifecycle store) s := by
  intro claim
  have chosen := reachable_step (reachable_initial (lifecycle emptyStore)) (e := chooseFolder)
    ⟨trivial, Finset.notMem_empty _, rfl⟩
  have reached := reachable_step chosen (e := rememberMissing) ⟨trivial, trivial, rfl⟩
  have kept := claim ⟨fun _ => none, .ok, fun _ => .ok (.file, ⟨1, 3⟩)⟩ none [] _ _ (by decide)
    (configure_empty _) reached
  have folder : (runTrace RecentCalls.next (started emptyStore)
      [chooseFolder, rememberMissing]).grants.registry.grants.get ⟨.directory, 1⟩ =
        some ⟨⟨.directory, 1⟩, .read, .trustedSelection .consentOnly, .remembered, none,
          ⟨.directory, 1⟩, false⟩ := by decide +kernel
  obtain ⟨key, hkey, -⟩ := kept.listed _ ⟨_, folder⟩ rfl rfl
  cases hkey

end Runs

end RememberedGrants
