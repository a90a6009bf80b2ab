import RocGui.GrantRevocations

/-! The App access surface: what it lists of the registry and what its controls do. -/
namespace AccessSurface

open FiniteMaps Grants GrantRuns GrantRevocations Transitions

structure Row where
  kind : Kind
  id : ℕ
  origin : Origin
  remembered : Bool
  description : String
  revoked : Bool
  isRoot : Bool
  deriving DecidableEq

def row (entry : Grant) : Row where
  kind := entry.id.kind
  id := entry.id.number
  origin := entry.origin
  remembered := entry.lifetime = .remembered
  description := entry.describe
  revoked := entry.revoked
  isRoot := entry.isRoot

def rows (entries : List Grant) : List Row := entries.map row

def plain : Kind → String
  | .appData => "This application's private storage"
  | .assets => "Files shipped inside this application"
  | .audio => "Audio output"
  | .clipboard => "The clipboard"
  | .device => "A connected device"
  | .directory => "A folder"
  | .document => "A document"
  | .http => "A network destination"
  | .process => "A command session"
  | .sqlite => "A database opened from a folder or file"
  | .systemMonitor => "This computer's running processes"
  | .tcp => "A network connection"
  | .watch => "Changes to a folder or database"

def arrival : Origin → String
  | .trustedSelection .brokered => "you chose it"
  | .trustedSelection .consentOnly => "you chose it — this build cannot enforce the limit"
  | .dropped .brokered => "you dropped it here"
  | .dropped .consentOnly => "you dropped it here — this build cannot enforce the limit"
  | .provisioned => "provided by a command-line flag"
  | .automatic => "provided automatically; it holds nothing of yours"

inductive Control where
  | withdrawn
  | withdraw (kind : Kind) (id : ℕ)
  | withParent
  deriving DecidableEq

def Row.control (row : Row) : Control :=
  if row.revoked then .withdrawn
  else if row.isRoot then .withdraw row.kind row.id
  else .withParent

structure Line where
  title : String
  subtitle : String
  description : String
  control : Control

def Row.line (row : Row) : Line where
  title := plain row.kind
  subtitle := if row.remembered then arrival row.origin ++ " · remembered for later runs"
    else arrival row.origin
  description := row.description
  control := row.control

def render (hashOrder : Enumeration GrantId Grant) (registry : Registry) : String × List Line :=
  let listed := rows (enumerate hashOrder registry)
  (if listed.isEmpty then "This application is holding nothing of yours."
    else toString listed.length ++
      " grant(s). Withdrawing one withdraws everything derived from it.",
    listed.map Row.line)

def Row.press (row : Row) (registry : Registry) : Registry :=
  match row.control with
  | .withdraw kind id => (takeWithdrawnRemembered (revoke kind id registry).2).2
  | .withdrawn | .withParent => registry

section Listing

variable {hashOrder : Enumeration GrantId Grant} {registry : Registry} {g : Grant}

theorem mem_enumerate : g ∈ enumerate hashOrder registry ↔ Recorded registry g := by
  rw [enumerate, List.mem_insertionSort, List.mem_map]
  constructor
  · rintro ⟨⟨id, grant⟩, hmem, rfl⟩
    exact ⟨id, (hashOrder.listed _ _ _).mp hmem⟩
  · rintro ⟨id, hget⟩
    exact ⟨(id, g), (hashOrder.listed _ _ _).mpr hget, rfl⟩

theorem control_withdrawn : (row g).control = .withdrawn ↔ g.revoked = true := by
  unfold Row.control row
  cases g.revoked with
  | true => simp
  | false => cases g.isRoot <;> simp

theorem control_withdraw {kind : Kind} {id : ℕ} : (row g).control = .withdraw kind id ↔
    g.revoked = false ∧ g.parent = none ∧ g.id = ⟨kind, id⟩ := by
  obtain ⟨⟨k, n⟩, rights, origin, lifetime, parent, root, revoked⟩ := g
  unfold Row.control row Grant.isRoot
  cases revoked with
  | true => simp
  | false => cases parent <;> simp

end Listing

/-- The press takes `g` away, and every other grant of its root. -/
structure Withdraws (registry : Registry) (r : Row) (g : Grant) : Prop where
  offered : ∃ kind id, r.control = .withdraw kind id
  itself : (r.press registry).grants.get g.id = some { g with revoked := true }
  root : g.root ∈ (r.press registry).revokedRoots
  others : ∀ h, Recorded (r.press registry) h → h.root = g.root → h.revoked = true

/-- Every grant that is listed as not withdrawn can be withdrawn from the list. -/
def Withdrawable (registry : Registry) : Prop :=
  ∀ hashOrder, ∀ g ∈ enumerate hashOrder registry, (row g).control ≠ .withdrawn →
    ∃ r ∈ rows (enumerate hashOrder registry), Withdraws registry r g

section Roots

variable {s : GrantState} {e : GrantEvent}

/-- Where the root of a recorded grant is found. -/
structure RootsPlaced (s : GrantState) : Prop where
  named : ∀ id g, s.registry.grants.get id = some g →
    g.id = id ∧ (g.parent = none → g.root = id) ∧ id ∈ s.issued
  rooted : ∀ g, Known s g → ∀ r, s.registry.grants.get g.root = some r → r.parent = none

theorem recorded_step (enabled : Enabled s e) {id : GrantId} {g : Grant}
    (h : (next s e).registry.grants.get id = some g) :
    (∃ g', s.registry.grants.get id = some g' ∧ SameGrant g' g) ∨
      id ∉ s.issued ∧ g.id = id ∧ id ∈ (next s e).issued ∧
        (g.parent = none ∧ g.root = id ∨ ∃ parent kind number rights,
          e = .recordDescendant kind number rights parent ∧ parent ∈ s.accepted ∧
            parent.rights.Contains .derive ∧ parent.root ∉ s.registry.revokedRoots ∧
            g.parent = some parent.id ∧ g.root = parent.root) := by
  have edit := edit_step enabled
  generalize hgrants : (next s e).registry.grants = grants at edit h
  cases edit with
  | mapped same =>
    rw [FiniteMap.get_mapValues] at h
    obtain ⟨g', hg', rfl⟩ := Option.map_eq_some_iff.mp h
    exact .inl ⟨g', hg', same g'⟩
  | root fresh =>
    rw [FiniteMap.get_set] at h
    split at h
    · rename_i heq
      obtain rfl := Option.some.inj h
      subst heq
      exact .inr ⟨fresh, rfl, Finset.mem_insert_self _ _, .inl ⟨rfl, rfl⟩⟩
    · exact .inl ⟨g, h, same_grant_refl g⟩
  | descendant fresh held derives live =>
    rw [FiniteMap.get_set] at h
    split at h
    · rename_i heq
      obtain rfl := Option.some.inj h
      subst heq
      exact .inr ⟨fresh, rfl, Finset.mem_insert_self _ _,
        .inr ⟨_, _, _, _, rfl, held, derives, live, rfl, rfl⟩⟩
    · exact .inl ⟨g, h, same_grant_refl g⟩
  | released =>
    rw [FiniteMap.get_remove] at h
    split at h
    · cases h
    · exact .inl ⟨g, h, same_grant_refl g⟩
  | forgotten => exact .inl ⟨g, (FiniteMap.get_retain.mp h).1, same_grant_refl g⟩

theorem roots_placed_step (agree : RootsAgree s) (placed : RootsPlaced s) (enabled : Enabled s e) :
    RootsPlaced (next s e) where
  named id g h := by
    rcases recorded_step enabled h with ⟨g', hg', same⟩ | ⟨-, hid, hnew, hroot | hchild⟩
    · obtain ⟨hid, hroot, hissued⟩ := placed.named id g' hg'
      refine ⟨same.id.trans hid, fun hparent => ?_, issued_mono s e hissued⟩
      rw [same.root]
      exact hroot (same.parent.symm.trans hparent)
    · exact ⟨hid, fun _ => hroot.2, hnew⟩
    · obtain ⟨parent, -, -, -, -, -, -, -, hparent, -⟩ := hchild
      refine ⟨hid, fun hnone => ?_, hnew⟩
      cases hparent.symm.trans hnone
  rooted g h r hr := by
    -- the root of a grant that was known is no fresh handle
    have known {g' : Grant} (hg' : Known s g') (heq : g'.root = g.root) : r.parent = none := by
      rcases recorded_step enabled hr with ⟨r', hr', same⟩ | ⟨hfresh, -⟩
      · rw [same.parent]
        exact placed.rooted g' hg' r' (heq ▸ hr')
      · exact absurd (heq ▸ agree.issued g' hg') hfresh
    rcases h with ⟨id, hg⟩ | hg
    · rcases recorded_step enabled hg with ⟨g', hg', same⟩ | ⟨-, -, -, ⟨hparent, hroot⟩ | hchild⟩
      · exact known (.inl ⟨id, hg'⟩) same.root.symm
      · rw [hroot, hg] at hr
        exact Option.some.inj hr ▸ hparent
      · obtain ⟨parent, -, -, -, -, hheld, -, -, -, hroot⟩ := hchild
        exact known (.inr hheld) hroot.symm
    · rcases (bearer_step enabled).2 hg with hg | hg
      · exact known (.inr hg) rfl
      · exact known (.inl hg) rfl

theorem roots_placed (h : Reachable grantSystem s) : RootsPlaced s := by
  have both : RootsAgree s ∧ RootsPlaced s := by
    refine guarded_invariant (P := fun s => RootsAgree s ∧ RootsPlaced s)
      ⟨roots_agree (reachable_initial grantSystem), ?_, ?_⟩ ?_ h
    · intro id g hg
      cases (FiniteMap.get_empty id).symm.trans hg
    · rintro g (⟨id, hg⟩ | hg)
      · cases (FiniteMap.get_empty id).symm.trans hg
      · cases hg
    · rintro s e ⟨agree, placed⟩ enabled
      exact ⟨roots_agree_step agree enabled, roots_placed_step agree placed enabled⟩
  exact both.2

theorem enumerate_order (h : Reachable grantSystem s) (a b : Enumeration GrantId Grant) :
    enumerate a s.registry = enumerate b s.registry := by
  have placed := roots_placed h
  have distinct (order : Enumeration GrantId Grant) :
      ((order.entries s.registry.grants).map Prod.snd).Nodup := by
    have hids := order.distinct s.registry.grants
    refine List.Nodup.of_map Grant.id ?_
    rw [List.map_map]
    convert hids using 1
    refine List.map_congr_left fun entry hentry => ?_
    exact (placed.named entry.1 entry.2 ((order.listed _ _ _).mp hentry)).1
  have same : (enumerate a s.registry).Perm (enumerate b s.registry) := by
    refine (List.perm_ext_iff_of_nodup ?_ ?_).mpr fun g => by rw [mem_enumerate, mem_enumerate]
    · exact (List.perm_insertionSort _ _).nodup_iff.mpr (distinct a)
    · exact (List.perm_insertionSort _ _).nodup_iff.mpr (distinct b)
  refine same.eq_of_pairwise ?_ (List.pairwise_insertionSort _ _) (List.pairwise_insertionSort _ _)
  intro x y hx hy hle hge
  obtain ⟨i, hi⟩ := mem_enumerate.mp hx
  obtain ⟨j, hj⟩ := mem_enumerate.mp hy
  have heq : i = j := by
    rw [← (placed.named i x hi).1, ← (placed.named j y hj).1]
    exact le_antisymm hle hge
  subst heq
  exact Option.some.inj (hi.symm.trans hj)

end Roots

section Withdrawal

variable {s : GrantState} {e : GrantEvent}

/-- A root is not released from under grants that are not withdrawn, and nothing is derived
below a root that is no longer recorded. -/
def Keeps (s : GrantState) : GrantEvent → Prop
  | .release kind number => ∀ g, Recorded s.registry g → g.root = ⟨kind, number⟩ →
      g.revoked = false → g.id = ⟨kind, number⟩
  | .recordDescendant _ _ _ parent => parent.rights.Contains .derive →
      parent.root ∉ s.registry.revokedRoots → (s.registry.grants.get parent.root).isSome
  | _ => True

def RootsListed (registry : Registry) : Prop :=
  ∀ g, Recorded registry g → g.revoked = false → (registry.grants.get g.root).isSome

theorem root_stays (enabled : Enabled s e) {r : Grant} {id : GrantId}
    (h : s.registry.grants.get id = some r) (hroot : r.root = id) :
    ((next s e).registry.grants.get id).isSome ∨ e = .release id.kind id.number ∨
      e = .forgetKind id.kind := by
  have edit := edit_step enabled
  generalize (next s e).registry.grants = grants at edit ⊢
  cases edit with
  | mapped same => exact .inl (by simp [h])
  | root | descendant =>
    refine .inl ?_
    rw [FiniteMap.get_set]
    split
    · rfl
    · simp [h]
  | @released kind number =>
    by_cases heq : id = ⟨kind, number⟩
    · exact .inr (.inl (by rw [heq]))
    · exact .inl (by simp [FiniteMap.get_remove_ne _ heq, h])
  | @forgotten kind =>
    by_cases hkind : id.kind = kind
    · exact .inr (.inr (by rw [hkind]))
    · refine .inl (Option.isSome_iff_exists.mpr ⟨r, FiniteMap.get_retain.mpr ⟨h, ?_⟩⟩)
      simp [hroot, hkind]

theorem roots_listed_step (placed : RootsPlaced s) (listed : RootsListed s.registry)
    (enabled : Enabled s e) (keeps : Keeps s e) : RootsListed (next s e).registry := by
  rintro g ⟨id, hg⟩ hlive
  -- the root of a grant that is still recorded after the step was not removed by it
  have root {r : Grant} (hr : s.registry.grants.get g.root = some r) (hroot : r.root = g.root)
      (old : ∀ kind number, e = .release kind number → ∃ g', s.registry.grants.get id = some g' ∧
        g'.root = g.root ∧ g'.revoked = false) :
      ((next s e).registry.grants.get g.root).isSome := by
    rcases root_stays enabled hr hroot with hstays | rfl | rfl
    · exact hstays
    · obtain ⟨g', hg', heq, hlive'⟩ := old _ _ rfl
      have hid := (placed.named id g' hg').1.symm.trans (keeps g' ⟨id, hg'⟩ heq hlive')
      rw [next, Grants.release, if_pos (by rw [hr]; rfl), hid, FiniteMap.get_remove_self] at hg
      cases hg
    · have hkind := (FiniteMap.get_retain.mp hg).2
      simp at hkind
  rcases recorded_step enabled hg with ⟨g', hg', same⟩ | ⟨-, hid, -, ⟨hparent, hroot⟩ | hchild⟩
  · obtain ⟨r, hr⟩ := Option.isSome_iff_exists.mp (listed g' ⟨id, hg'⟩ (same.revoked hlive))
    have hrparent := placed.rooted g' (.inl ⟨id, hg'⟩) r hr
    have hrroot := (placed.named _ r hr).2.1 hrparent
    rw [← same.root] at hr hrroot
    exact root hr hrroot fun _ _ _ => ⟨g', hg', same.root.symm, same.revoked hlive⟩
  · rw [hroot, hg]
    rfl
  · obtain ⟨parent, kind, number, rights, rfl, hheld, hderives, hrevoked, -, hroot⟩ := hchild
    obtain ⟨r, hr⟩ := Option.isSome_iff_exists.mp (keeps hderives hrevoked)
    have hrparent := placed.rooted parent (.inr hheld) r hr
    have hrroot := (placed.named _ r hr).2.1 hrparent
    rw [← hroot] at hr hrroot
    exact root hr hrroot fun _ _ h => by cases h

theorem withdraws_root (placed : RootsPlaced s) {g r : Grant} {id : GrantId}
    (hg : s.registry.grants.get id = some g) (hlive : g.revoked = false)
    (hr : s.registry.grants.get g.root = some r) (hrlive : r.revoked = false) :
    Withdraws s.registry (row r) g := by
  have hparent := placed.rooted g (.inl ⟨id, hg⟩) r hr
  obtain ⟨hid, hroot, -⟩ := placed.named g.root r hr
  have hcontrol : (row r).control = .withdraw g.root.kind g.root.number :=
    control_withdraw.mpr ⟨hrlive, hparent, hid⟩
  have hpress : (row r).press s.registry =
      (takeWithdrawnRemembered (revoke g.root.kind g.root.number s.registry).2).2 := by
    rw [Row.press, hcontrol]
  obtain ⟨target, htarget, hroots, hgrants⟩ :=
    (revoke_cases g.root.kind g.root.number s.registry).resolve_left fun h => by
      cases h.1.symm.trans hr
  obtain rfl := Option.some.inj (hr.symm.trans htarget)
  have hsame : r.root = g.root := hroot hparent
  refine ⟨⟨_, _, hcontrol⟩, ?_, ?_, fun h hrec heq => ?_⟩
  · have hitself : s.registry.grants.get g.id = some g := by rwa [(placed.named id g hg).1]
    rw [hpress]
    change (revoke g.root.kind g.root.number s.registry).2.grants.get g.id = _
    rw [hgrants, FiniteMap.get_mapValues, hitself, Option.map_some]
    simp [flag, hsame, hlive]
  · rw [hpress]
    change g.root ∈ (revoke g.root.kind g.root.number s.registry).2.revokedRoots
    rw [hroots, hsame]
    exact Finset.mem_insert_self _ _
  · rw [hpress] at hrec
    obtain ⟨x, hx, rfl⟩ := recorded_map (r := s.registry) hgrants hrec
    rw [flag_root] at heq
    exact (flag_revoked _ _).mpr (.inl (by simp [heq, hsame]))

theorem withdrawable_iff (agree : RootsAgree s) (placed : RootsPlaced s) :
    Withdrawable s.registry ↔ RootsListed s.registry := by
  constructor
  · rintro h g hrec hlive
    obtain ⟨_, hrow, ⟨kind, id, hoffered⟩, -, hwithdrawn, -⟩ :=
      h .sorted g (mem_enumerate.mpr hrec) (by simp [control_withdrawn, hlive])
    obtain ⟨x, hx, rfl⟩ := List.mem_map.mp hrow
    obtain ⟨j, hj⟩ := mem_enumerate.mp hx
    obtain ⟨-, hparent, hid⟩ := control_withdraw.mp hoffered
    obtain ⟨hname, hroot, -⟩ := placed.named j x hj
    rw [← hname, hid] at hj
    rw [Row.press, hoffered] at hwithdrawn
    obtain ⟨target, htarget, hroots, -⟩ :=
      (revoke_cases kind id s.registry).resolve_left fun h => by cases h.1.symm.trans hj
    obtain rfl := Option.some.inj (hj.symm.trans htarget)
    have hinsert : g.root ∈ insert x.root s.registry.revokedRoots := hroots ▸ hwithdrawn
    rcases Finset.mem_insert.mp hinsert with heq | hold
    · rw [heq, hroot hparent, ← hname, hid, hj]
      rfl
    · rw [(agree.flags g hrec).mpr hold] at hlive
      cases hlive
  · intro h hashOrder g hmem hcontrol
    obtain ⟨id, hg⟩ := mem_enumerate.mp hmem
    have hlive : g.revoked = false := by
      rw [ne_eq, control_withdrawn] at hcontrol
      simpa using hcontrol
    obtain ⟨r, hr⟩ := Option.isSome_iff_exists.mp (h g ⟨id, hg⟩ hlive)
    have hparent := placed.rooted g (.inl ⟨id, hg⟩) r hr
    have hsame := (placed.named g.root r hr).2.1 hparent
    -- the flags of one root agree
    have hrlive : r.revoked = false := by
      rw [Bool.eq_false_iff, ne_eq, agree.flags r ⟨_, hr⟩, hsame, ← agree.flags g ⟨id, hg⟩]
      simp [hlive]
    exact ⟨row r, List.mem_map_of_mem (mem_enumerate.mpr ⟨_, hr⟩),
      withdraws_root placed hg hlive hr hrlive⟩

theorem reachable_withdrawable (h : Reachable (grantSystem.restrict Keeps) s) :
    Withdrawable s.registry := by
  have listed : Reachable grantSystem s ∧ RootsListed s.registry := by
    refine reachable_invariant (S := grantSystem.restrict Keeps)
      (P := fun s => Reachable grantSystem s ∧ RootsListed s.registry)
      ⟨reachable_initial grantSystem, ?_⟩ ?_ h
    · rintro g ⟨id, hg⟩
      cases (FiniteMap.get_empty id).symm.trans hg
    · rintro s e t ⟨reached, listed⟩ ⟨keeps, step⟩
      refine ⟨reachable_step reached step, ?_⟩
      obtain ⟨enabled, rfl⟩ := step
      exact roots_listed_step (roots_placed reached) listed enabled keeps
  have reached := listed.1
  exact (withdrawable_iff (roots_agree reached) (roots_placed reached)).mpr listed.2

def openedDatabase : List GrantEvent :=
  [chosenFolder, readFolder, .recordDescendant .sqlite 2 .read folderGrant]

theorem opened_database_withdrawable : Withdrawable (runTrace next start openedDatabase).registry := by
  have chosen := reachable_step (reachable_initial (grantSystem.restrict Keeps))
    (e := chosenFolder) ⟨trivial, Finset.notMem_empty _, rfl⟩
  have accepted := reachable_step chosen (e := readFolder) ⟨trivial, trivial, rfl⟩
  refine reachable_withdrawable (reachable_step accepted
    (e := .recordDescendant .sqlite 2 .read folderGrant) ⟨fun _ _ => ?_, ?_, rfl⟩)
  · exact (by decide +kernel : ((runTrace next start [chosenFolder, readFolder]).registry.grants.get
      folderGrant.root).isSome = true)
  · exact (by decide +kernel : Enabled (runTrace next start [chosenFolder, readFolder])
      (.recordDescendant .sqlite 2 .read folderGrant))

/-- The folder's handle is released: its database stays listed, and nothing withdraws it. -/
theorem released_folder_keeps_database :
    ¬∀ s : GrantState, Reachable grantSystem s → Withdrawable s.registry := by
  intro claim
  have reached : Reachable grantSystem
      (runTrace next start (openedDatabase ++ [.release .directory 1])) :=
    valid_trace_reachable (reachable_initial grantSystem) (by decide +kernel)
  have listed := (withdrawable_iff (roots_agree reached) (roots_placed reached)).mp (claim _ reached)
  have database : (runTrace next start (openedDatabase ++ [.release .directory 1])).registry.grants.get
      ⟨.sqlite, 2⟩ = some ⟨⟨.sqlite, 2⟩, .read, .trustedSelection .consentOnly, .session,
        some ⟨.directory, 1⟩, ⟨.directory, 1⟩, false⟩ := by decide +kernel
  have folder : (runTrace next start (openedDatabase ++ [.release .directory 1])).registry.grants.get
      ⟨.directory, 1⟩ = none := by decide +kernel
  have root := listed _ ⟨_, database⟩ rfl
  rw [folder] at root
  cases root

/-- No other condition does: the step that breaks it leaves a grant that nothing withdraws. -/
theorem withdrawable_step (reached : Reachable grantSystem s) (listed : Withdrawable s.registry)
    (enabled : Enabled s e) : Withdrawable (next s e).registry ↔ Keeps s e := by
  have agree := roots_agree reached
  have placed := roots_placed reached
  have reached' : Reachable grantSystem (next s e) := reachable_step reached ⟨enabled, rfl⟩
  rw [withdrawable_iff (roots_agree reached') (roots_placed reached')]
  rw [withdrawable_iff agree placed] at listed
  refine ⟨fun h => ?_, roots_listed_step placed listed enabled⟩
  cases e with
  | release kind number =>
    intro g hg hroot hlive
    by_contra hne
    obtain ⟨id, hget⟩ := hg
    obtain ⟨r, hr⟩ := Option.isSome_iff_exists.mp (hroot ▸ listed g ⟨id, hget⟩ hlive)
    have hgrants : (next s (.release kind number)).registry.grants =
        s.registry.grants.remove ⟨kind, number⟩ := by
      change (Grants.release kind number s.registry).grants = _
      rw [release, if_pos (by rw [hr]; rfl)]
    have hid : id ≠ ⟨kind, number⟩ := fun heq => hne ((placed.named id g hget).1.trans heq)
    have hroot' := h g ⟨id, by rw [hgrants, FiniteMap.get_remove_ne _ hid, hget]⟩ hlive
    rw [hgrants, hroot, FiniteMap.get_remove_self] at hroot'
    cases hroot'
  | recordDescendant kind number rights parent =>
    intro hderives hrevoked
    have hgrants : (next s (.recordDescendant kind number rights parent)).registry.grants =
        s.registry.grants.set ⟨kind, number⟩ ⟨⟨kind, number⟩, rights, parent.origin,
          parent.lifetime, some parent.id, parent.root, false⟩ := by
      simp [next, recordDescendant, hderives, hrevoked]
    have hfresh : parent.root ≠ ⟨kind, number⟩ := fun heq =>
      enabled.1 (heq ▸ agree.issued parent (.inr enabled.2))
    have hroot := h _ ⟨⟨kind, number⟩, by rw [hgrants, FiniteMap.get_set_self]⟩ rfl
    rwa [hgrants, FiniteMap.get_set_ne _ _ hfresh] at hroot
  | _ => trivial

end Withdrawal

end AccessSurface
