import RocGui.GraphFrames
import RocGui.GraphLedgers
import RocGui.KeyedTransactions

/-! What the parts of a patch do to the indices: rewriting entries leaves them, retiring
and mounting nodes keeps them exact. -/
namespace GraphIndices

open FiniteMaps Methods KeyedOrder GraphState FragmentValidation GraphPatches FragmentTrees
open GraphForests GraphMounting GraphFrames GraphExchanges GraphLedgers

variable {K : Type} [DecidableEq K]

section Frames

variable {c : (ℕ → Option (NodeKind K)) × Ledger}

omit [DecidableEq K] in
theorem register_alter (message : String) (id : ℕ) (f : MountedNode K → MountedNode K)
    (plain : Plain f) : Preserves (fun g => register g = c) (alter message id f) :=
  preserves_alter fun e => (plain e).1

omit [DecidableEq K] in
theorem register_setSegment (message : String) (child : ℕ × IdentitySegment) :
    Preserves (fun g : MountedGraph K => register g = c) (setSegment message child) :=
  preserves_alter fun _ => rfl

omit [DecidableEq K] in
theorem register_setParent (id : ℕ) (message : String) (location : Option (ParentLocation K)) :
    Preserves (fun g : MountedGraph K => register g = c) (setParent id message location) :=
  frame_parent register_alter id message location

theorem register_seed (node : Node K) : Preserves (fun g => register g = c) (seedNode node) :=
  frame_seed register_alter node

theorem register_settle (id : ℕ) :
    Preserves (fun g : MountedGraph K => register g = c) (settle id) :=
  frame_settle register_alter register_setSegment id

theorem register_attach (r : Replacement K) (plan : ReplacementPlan K) (oldSize newSize : ℕ) :
    Preserves (fun g => register g = c) (attach r plan oldSize newSize) :=
  frame_attach register_alter register_setSegment (fun _ _ h => h) r plan oldSize newSize

omit [DecidableEq K] in
theorem register_resizeContainer (container oldSize keyedSize : ℕ) :
    Preserves (fun g : MountedGraph K => register g = c)
      (resizeContainer container oldSize keyedSize) :=
  frame_container register_alter container oldSize keyedSize

omit [DecidableEq K] in
theorem register_finish (previous : Option ℕ) (staged : List ℕ) (carry : InteractionCarry) :
    Preserves (fun g => register g = c) (finishInteraction previous staged carry : GraphMethod K _) :=
  finish_regardless (fun g i hregions hwindow h => by
    refine Eq.trans ?_ h
    simp only [register, ledger, hregions, hwindow]
    rfl) previous staged carry

end Frames

section Retiring

variable {g g' : MountedGraph K} {removed : List ℕ}

omit [DecidableEq K] in
theorem carry_one {carry carry' : InteractionCarry} {id : ℕ}
    (h : (carryOne carry id).run g = .ok carry' g') : kindAt g' = kindAt g ∧
      ledger g' = { ledger g with
        regions := (ledger g).regions.erase id
        windowRegions := (ledger g).windowRegions.erase id } := by
  simp only [carryOne, bind_ok, get_ok, modify_ok, pure_ok] at h
  obtain ⟨_, _, ⟨rfl, rfl⟩, c1, t1, h1, c2, t2, h2, c3, t3, h3, _, t4, rfl, -, rfl⟩ := h
  obtain rfl := kept_of_preserves (φ := fun g => g) (fun c => (preserves_notes _ _ _).1) h1
  obtain rfl := kept_of_preserves (φ := fun g => g) (fun c => (preserves_notes _ _ _).2.1) h2
  obtain rfl := kept_of_preserves (φ := fun g => g) (fun c => (preserves_notes _ _ _).2.2) h3
  exact ⟨rfl, rfl⟩

omit [DecidableEq K] in
theorem carry_all {carry : InteractionCarry} (h : (carryInteraction removed).run g = .ok carry g') :
    kindAt g' = kindAt g ∧ ledger g' = { ledger g with
      regions := (ledger g).regions \ removed.toFinset
      windowRegions := (ledger g).windowRegions \ removed.toFinset } := by
  unfold carryInteraction at h
  generalize InteractionCarry.empty = start at h
  induction removed generalizing g start with
  | nil =>
    obtain ⟨-, rfl⟩ := foldlM_nil_ok.mp h
    simp
  | cons id rest ih =>
    obtain ⟨next, t, hone, hrest⟩ := foldlM_cons_ok.mp h
    obtain ⟨hkinds, hledger⟩ := ih next hrest
    obtain ⟨hkinds', hledger'⟩ := carry_one hone
    refine ⟨hkinds.trans hkinds', ?_⟩
    have hdiff (s : Finset ℕ) : s.erase id \ rest.toFinset = s \ (id :: rest).toFinset := by
      rw [List.toFinset_cons, Finset.erase_sdiff_comm, Finset.sdiff_insert]
    rw [hledger, hledger']
    simp only [hdiff]

structure Unlisted (g g' : MountedGraph K) (owner : ℕ → Option ℕ) (removed instances ended : List ℕ) :
    Prop where
  kinds : ∀ x, kindAt g' x = if x ∈ removed then none else kindAt g x
  exact : Exact (kindAt g') owner (ledger g')
  newest : (ledger g').newest = (ledger g).newest
  regions : (ledger g').regions = (ledger g).regions
  windowRegions : (ledger g').windowRegions = (ledger g).windowRegions
  ended : ∀ i, i ∈ ended ↔ i ∈ instances ∨ ∃ x ∈ removed, kindAt g x = some (.boundary i)

omit [DecidableEq K] in
theorem mem_instances_one {n : Node K} {i : ℕ} : i ∈ instancesOf [n] ↔ n.kind = .boundary i := by
  rw [KeyedStaging.mem_instancesOf]
  simp

omit [DecidableEq K] in
theorem retire_unlists {owner : ℕ → Option ℕ} {message : String} {instances ended : List ℕ}
    (exact : Exact (kindAt g) owner (ledger g))
    (h : (removed.foldlM (retire message) instances).run g = .ok ended g') :
    Unlisted g g' owner removed instances ended := by
  induction removed generalizing g instances with
  | nil =>
    obtain ⟨rfl, rfl⟩ := foldlM_nil_ok.mp h
    exact ⟨by simp, exact, rfl, rfl, rfl, by simp⟩
  | cons id rest ih =>
    obtain ⟨next, t, hone, hrest⟩ := foldlM_cons_ok.mp h
    obtain ⟨e, he, hkinds, hledger, hnext⟩ := retire_register hone
    have exact' : Exact (kindAt t) owner (ledger t) :=
      hkinds.symm ▸ hledger.symm ▸ exact_unindex exact (kindAt_eq he)
    have unlisted := ih exact' hrest
    obtain ⟨hregions, hwindow⟩ := regions_unindex (ledger g) id e.node.kind
    refine ⟨fun x => ?_, unlisted.exact, ?_, ?_, ?_, fun i => ?_⟩
    · rw [unlisted.kinds, hkinds, Function.update_apply]
      by_cases hx : x = id
      · simp [hx]
      · simp [hx]
    · rw [unlisted.newest, hledger, newest_unindex]
    · rw [unlisted.regions, hledger, hregions]
    · rw [unlisted.windowRegions, hledger, hwindow]
    · rw [unlisted.ended, hnext, List.mem_append, mem_instances_one]
      have hself : kindAt g id = some (.boundary i) ↔ e.node.kind = .boundary i := by
        rw [kindAt_eq he, Option.some.injEq]
      have hne (x : ℕ) (hx : x ∈ rest) : kindAt t x = some (.boundary i) ↔
          x ≠ id ∧ kindAt g x = some (.boundary i) := by
        rw [hkinds, update_none_iff]
      simp only [List.mem_cons, exists_eq_or_imp, hself, or_assoc]
      refine or_congr_right ?_
      by_cases hb : e.node.kind = .boundary i
      · simp [hb]
      · simp only [hb, false_or]
        refine exists_congr fun x => and_congr_right fun hx => (hne x hx).trans ?_
        refine and_iff_right_of_imp ?_
        rintro hk rfl
        exact hb (hself.mp hk)

end Retiring

section Mounting

variable {g g' : MountedGraph K} {nodes : List (Node K)} {validated : ValidatedFragment K}
  {kinds : ℕ → Option (NodeKind K)} {owner : ℕ → Option ℕ}

omit [DecidableEq K] in
theorem apart_mono {kinds' : ℕ → Option (NodeKind K)} (h : Apart kinds' owner)
    (sub : ∀ x k, kinds x = some k → kinds' x = some k) : Apart kinds owner where
  boundaries hx hy := h.boundaries (sub _ _ hx) (sub _ _ hy)
  inputs hx hy := h.inputs (sub _ _ hx) (sub _ _ hy)
  dialogs hx hy := h.dialogs (sub _ _ hx) (sub _ _ hy)

structure Listed (g g' : MountedGraph K) (owner : ℕ → Option ℕ) (nodes : List (Node K)) : Prop where
  fresh : ∀ n ∈ nodes, kindAt g' n.id = some n.kind
  away : ∀ x, x ∉ ids nodes → kindAt g' x = kindAt g x
  exact : Exact (kindAt g') owner (ledger g')
  armed : Armed (kindAt g') (ledger g')
  newest : ∀ m ∈ (ledger g).newest, ∃ m' ∈ (ledger g').newest, m ≤ m'

omit [DecidableEq K] in
theorem newest_grows (d : Ledger) (id : ℕ) (o : Option ℕ) (kind : NodeKind K) :
    ∀ m ∈ d.newest, ∃ m' ∈ (d.index id o kind).newest, m ≤ m' := by
  intro m hm
  have same : ∃ m' ∈ d.newest, m ≤ m' := ⟨m, hm, le_rfl⟩
  cases kind with
  | boundary i => exact newest_index (.inr same)
  | _ => exact same

omit [DecidableEq K] in
theorem index_owner {d : Ledger} {id : ℕ} {o o' : Option ℕ} {kind : NodeKind K}
    (h : ∀ label enabled, kind = .textInput label enabled → o = o') :
    d.index id o kind = d.index id o' kind := by
  cases kind with
  | textInput label enabled => rw [h label enabled rfl]
  | _ => rfl

omit [DecidableEq K] in
/-- What the nodes still to be mounted must be: new, apart from each other and from what
is mounted, with the owners that the fragment gives its inputs. -/
theorem mount_lists {u : PUnit} (distinct : (ids nodes).Nodup)
    (free : ∀ n ∈ nodes, kindAt g n.id = none) (exact : Exact (kindAt g) owner (ledger g))
    (armed : Armed (kindAt g) (ledger g)) (apart : Apart kinds owner)
    (new : ∀ n ∈ nodes, kinds n.id = some n.kind)
    (old : ∀ x k, kindAt g x = some k → kinds x = some k)
    (owned : ∀ n ∈ nodes, ∀ o, validated.inputOwners.get n.id = some o → owner n.id = o)
    (h : (nodes.forM (mountNode validated)).run g = .ok u g') : Listed g g' owner nodes := by
  induction nodes generalizing g with
  | nil =>
    obtain rfl := forM_nil_ok.mp h
    exact ⟨by simp, fun _ _ => rfl, exact, armed, fun m hm => ⟨m, hm, le_rfl⟩⟩
  | cons n rest ih =>
    obtain ⟨t, hone, hrest⟩ := forM_cons_ok.mp h
    rw [ids_cons, List.nodup_cons] at distinct
    obtain ⟨hkinds, hledger, hinput⟩ := mount_register hone
    have hid : kindAt g n.id = none := free n (by simp)
    have howner : (ledger g).index n.id ((validated.inputOwners.get n.id).getD none) n.kind =
        (ledger g).index n.id (owner n.id) n.kind := index_owner fun label enabled hk => by
      obtain ⟨o, ho⟩ := Option.isSome_iff_exists.mp (hinput ⟨label, enabled, hk⟩)
      rw [ho, owned n (by simp) o ho]
      rfl
    rw [howner] at hledger
    have sub : ∀ x k, kindAt t x = some k → kinds x = some k := fun x k hx => by
      rw [hkinds] at hx
      rcases (update_some_iff hid).mp hx with ⟨rfl, rfl⟩ | hx
      · exact new n (by simp)
      · exact old x k hx
    have exact' : Exact (kindAt t) owner (ledger t) := by
      rw [hledger, hkinds]
      exact exact_index exact hid (hkinds ▸ apart_mono apart sub)
    have armed' : Armed (kindAt t) (ledger t) := by
      rw [hledger, hkinds]
      exact armed_index armed hid _
    have listed := ih distinct.2 (fun m hm => ?_) exact' armed' (fun m hm => new m (by simp [hm])) sub
      (fun m hm => owned m (by simp [hm])) hrest
    · refine ⟨fun m hm => ?_, fun x hx => ?_, listed.exact, listed.armed, fun m hm => ?_⟩
      · rcases List.mem_cons.mp hm with rfl | hm
        · rw [listed.away _ distinct.1, hkinds, Function.update_self]
        · exact listed.fresh m hm
      · rw [ids_cons, List.mem_cons, not_or] at hx
        rw [listed.away x hx.2, hkinds, Function.update_of_ne hx.1]
      · obtain ⟨m₁, hm₁, hle⟩ := newest_grows (ledger g) n.id (owner n.id) n.kind m hm
        obtain ⟨m₂, hm₂, hle'⟩ := listed.newest m₁ (hledger ▸ hm₁)
        exact ⟨m₂, hm₂, hle.trans hle'⟩
    · have hne : m.id ≠ n.id := fun heq => distinct.1 (heq ▸ List.mem_map_of_mem hm)
      rw [hkinds, Function.update_of_ne hne]
      exact free m (by simp [hm])

theorem insert_lists {u : PUnit} (distinct : (ids nodes).Nodup)
    (free : ∀ n ∈ nodes, kindAt g n.id = none) (exact : Exact (kindAt g) owner (ledger g))
    (armed : Armed (kindAt g) (ledger g)) (apart : Apart kinds owner)
    (new : ∀ n ∈ nodes, kinds n.id = some n.kind)
    (old : ∀ x k, kindAt g x = some k → kinds x = some k)
    (owned : ∀ n ∈ nodes, ∀ o, validated.inputOwners.get n.id = some o → owner n.id = o)
    (h : (insertNodes nodes validated).run g = .ok u g') : Listed g g' owner nodes := by
  simp only [insertNodes, bind_ok] at h
  obtain ⟨_, g1, hmount, _, g2, hseed, hsettle⟩ := h
  have listed := mount_lists distinct free exact armed apart new old owned hmount
  have same : register g' = register g1 :=
    (kept_of_preserves (fun c => preserves_forM register_settle _) hsettle).trans
      (kept_of_preserves (fun c => preserves_forM register_seed _) hseed)
  obtain ⟨hkinds, hledger⟩ := Prod.mk.inj same
  exact ⟨hkinds ▸ listed.fresh, hkinds ▸ listed.away, hkinds ▸ hledger ▸ listed.exact,
    hkinds ▸ hledger ▸ listed.armed, hledger ▸ listed.newest⟩

end Mounting

end GraphIndices
