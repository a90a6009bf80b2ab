import RocGui.GraphOwners
import RocGui.GraphRuns

/-! After every accepted patch the indices list exactly the mounted nodes they are about. -/
namespace GraphListings

open FiniteMaps KeyedLists Methods KeyedOrder GraphState FragmentValidation GraphPatches FragmentTrees
open FragmentOwners GraphForests GraphMounting GraphExchanges GraphGrafts GraphReplacements
open KeyedStaging KeyedTransactions GraphRuns GraphLedgers GraphIndices GraphOwners PointerTrees
open Transitions

variable {K : Type}

structure Indexed (g : MountedGraph K) : Prop where
  listed : ∃ owner, Exact (kindAt g) owner (ledger g) ∧ ∀ x label enabled,
    kindAt g x = some (.textInput label enabled) → OwnedBy g x (owner x)
  armed : Armed (kindAt g) (ledger g)

/-- Nothing staged claims an entry of an index that stays, or one that is claimed twice.
`owned` are the owners of the staged inputs. -/
structure Clear (g : MountedGraph K) (removed : List ℕ) (nodes : List (Node K))
    (owned : ℕ → Option ℕ → Prop) : Prop where
  inputs : ∀ n ∈ nodes, ∀ label enabled, n.kind = .textInput label enabled →
    ∃ o, owned n.id o ∧ ∀ id, g.inputLabels.get (o, label) = some id → id ∈ removed
  boundaries : ∀ n ∈ nodes, ∀ i, n.kind = .boundary i →
    ∀ id, g.boundaryInstances.get i = some id → id ∈ removed
  dialogs : ∀ n ∈ nodes, ∀ label, n.kind = .dialog label →
    ∀ id, g.dialog = some id → id ∈ removed
  labels : ∀ n ∈ nodes, ∀ m ∈ nodes, ∀ label a b o, n.kind = .textInput label a →
    m.kind = .textInput label b → owned n.id o → owned m.id o → n.id = m.id
  instances : (instancesOf nodes).Nodup
  one : ∀ n ∈ nodes, ∀ m ∈ nodes, ∀ l l', n.kind = .dialog l → m.kind = .dialog l' → n = m

section Checks

variable {g : MountedGraph K} {removed : Finset ℕ} {validated : ValidatedFragment K}
  {nodes : List (Node K)}

theorem check_staged_facts (h : nodes.forM (checkStaged g removed validated) = .ok ⟨⟩) :
    ∀ n ∈ nodes, checkStaged g removed validated n = .ok () := by
  induction nodes with
  | nil => simp
  | cons n rest ih =>
    rw [List.forM, except_bind_ok] at h
    obtain ⟨_, hn, hrest⟩ := h
    intro m hm
    rcases List.mem_cons.mp hm with rfl | hm
    · exact hn
    · exact ih hrest m hm

theorem staged_input {n : Node K} {label : String} {enabled : Bool}
    (h : checkStaged g removed validated n = .ok ()) (hk : n.kind = .textInput label enabled) :
    ∃ o, validated.inputOwners.get n.id = some o ∧
      ∀ id, g.inputLabels.get (o, label) = some id → id ∈ removed := by
  unfold checkStaged at h
  split at h
  · cases h
  simp only [hk] at h
  split at h
  · cases h
  rename_i o ho
  split at h
  · cases h
  rename_i hclear
  refine ⟨o, ho, fun id hid => ?_⟩
  by_contra hout
  exact hclear ⟨id, hid, hout⟩

theorem staged_boundary {n : Node K} {i : ℕ} (h : checkStaged g removed validated n = .ok ())
    (hk : n.kind = .boundary i) :
    (∀ id, g.boundaryInstances.get i = some id → id ∈ removed) ∧
      (g.boundaryInstances.get i = none → Newer g i) := by
  unfold checkStaged at h
  split at h
  · cases h
  simp only [hk] at h
  split at h
  · rename_i id hid
    split at h
    · cases h
    rename_i hgone
    rw [not_not] at hgone
    refine ⟨fun id' hid' => ?_, fun hnone => ?_⟩
    · obtain rfl := Option.some.inj (hid.symm.trans hid')
      exact hgone
    · cases hid.symm.trans hnone
  · rename_i hnone
    split at h
    · cases h
    rename_i hnew
    refine ⟨fun id hid => ?_, fun _ newest hm => ?_⟩
    · cases hnone.symm.trans hid
    · by_contra hle
      exact hnew ⟨newest, hm, not_lt.mp hle⟩

theorem staged_dialog {n : Node K} {label : String} (h : checkStaged g removed validated n = .ok ())
    (hk : n.kind = .dialog label) : ∀ id, g.dialog = some id → id ∈ removed := by
  unfold checkStaged at h
  split at h
  · cases h
  simp only [hk] at h
  split at h
  · cases h
  rename_i hclear
  intro id hid
  by_contra hout
  exact hclear ⟨id, hid, hout⟩

theorem replacement_clear {root : ℕ} {retained : Finset ℕ} {removedIds : List ℕ} {outer : Option ℕ}
    (f : Fragment root nodes retained validated) (sole : Sole root nodes outer validated)
    (h : nodes.forM (checkStaged g removedIds.toFinset validated) = .ok ⟨⟩) :
    Clear g removedIds nodes fun id o => validated.inputOwners.get id = some o where
  inputs n hn label enabled hk := by
    obtain ⟨o, ho, hclear⟩ := staged_input (check_staged_facts h n hn) hk
    exact ⟨o, ho, fun id hid => List.mem_toFinset.mp (hclear id hid)⟩
  boundaries n hn i hk id hid :=
    List.mem_toFinset.mp ((staged_boundary (check_staged_facts h n hn) hk).1 id hid)
  dialogs n hn label hk id hid :=
    List.mem_toFinset.mp (staged_dialog (check_staged_facts h n hn) hk id hid)
  labels n hn m hm label a b o hkn hkm hon hom :=
    sole.apart ⟨n, a, f.fresh.mpr ⟨hn, rfl⟩, hkn⟩ ⟨m, b, f.fresh.mpr ⟨hm, rfl⟩, hkm⟩ hon hom
  instances := sole.instances
  one := sole.dialogs

end Checks

section Turnover

variable [DecidableEq K] {g t v : MountedGraph K} {removed : List ℕ} {nodes : List (Node K)}
  {owned : ℕ → Option ℕ → Prop} {owner owner' : ℕ → Option ℕ}

omit [DecidableEq K] in
structure Turned (g v : MountedGraph K) (removed : List ℕ) (nodes : List (Node K)) : Prop where
  kept : ∀ x, x ∉ removed → x ∉ ids nodes → kindAt v x = kindAt g x
  gone : ∀ x, x ∈ removed → x ∉ ids nodes → kindAt v x = none
  fresh : ∀ n ∈ nodes, kindAt v n.id = some n.kind

theorem mounted_of_kind {x : ℕ} {k : NodeKind K} (h : kindAt g x = some k) : (forest g).Mounted x := by
  rw [mounted_iff, ← Option.isSome_map (f := (·.node))]
  obtain ⟨n, hn, -⟩ := Option.map_eq_some_iff.mp h
  exact Option.isSome_of_eq_some hn

theorem kind_of_unmounted {x : ℕ} (h : ¬(forest g).Mounted x) : kindAt g x = none := by
  cases hk : kindAt g x with
  | none => rfl
  | some k => exact absurd (mounted_of_kind hk) h

theorem grafted_turned {frontier : Finset ℕ} {tops : List (ℕ × Option (ParentLocation K))}
    {site root : Option ℕ} (e : Grafted g v removed nodes frontier tops site root) (h : Shape g) :
    Turned g v removed nodes where
  kept x hr hn := by
    by_cases hm : (forest g).Mounted x
    · exact kind_kept e h hm hr
    · have hv : ¬(forest v).Mounted x := by
        rw [e.mounted h]
        exact fun hv => hv.elim (fun hv => hm hv.1) hn
      rw [kind_of_unmounted hm, kind_of_unmounted hv]
  gone x hr hn := kind_of_unmounted fun hv =>
    ((e.mounted h x).mp hv).elim (fun hv => hv.2 hr) hn
  fresh n hn := by
    rw [kindAt, e.node_fresh h hn]
    rfl

omit [DecidableEq K] in
theorem Turned.cases (T : Turned g v removed nodes) {x : ℕ} {k : NodeKind K}
    (h : kindAt v x = some k) : (x ∉ removed ∧ kindAt g x = some k) ∨
      ∃ n ∈ nodes, n.id = x ∧ n.kind = k := by
  by_cases hn : x ∈ ids nodes
  · obtain ⟨n, hmem, rfl⟩ := List.mem_map.mp hn
    exact .inr ⟨n, hmem, rfl, Option.some.inj ((T.fresh n hmem).symm.trans h)⟩
  · by_cases hr : x ∈ removed
    · cases h.symm.trans (T.gone x hr hn)
    · exact .inl ⟨hr, (T.kept x hr hn).symm.trans h⟩

omit [DecidableEq K] in
theorem clear_apart (T : Turned g v removed nodes) (exact : Exact (kindAt g) owner (ledger g))
    (clear : Clear g removed nodes owned)
    (kept : ∀ x label enabled, x ∉ removed → kindAt g x = some (.textInput label enabled) →
      owner' x = owner x)
    (fresh : ∀ x o, owned x o → owner' x = o) : Apart (kindAt v) owner' where
  boundaries {x y i} hx hy := by
    rcases T.cases hx with ⟨hxr, hx⟩ | ⟨n, hn, rfl, hkn⟩
    · rcases T.cases hy with ⟨-, hy⟩ | ⟨m, hm, rfl, hkm⟩
      · exact (exact_apart exact).boundaries hx hy
      · exact absurd (clear.boundaries m hm i hkm x (exact.boundaries.mpr hx)) hxr
    · rcases T.cases hy with ⟨hyr, hy⟩ | ⟨m, hm, rfl, hkm⟩
      · exact absurd (clear.boundaries n hn i hkn y (exact.boundaries.mpr hy)) hyr
      · rw [instance_unique clear.instances hn hm hkn hkm]
  inputs {x y label a b} hx hy ho := by
    have clash {n : Node K} {z : ℕ} {c d : Bool} (hn : n ∈ nodes)
        (hk : n.kind = .textInput label c) (hzr : z ∉ removed)
        (hz : kindAt g z = some (.textInput label d)) (ho : owner' n.id = owner' z) : False := by
      obtain ⟨o, hown, hclear⟩ := clear.inputs n hn label c hk
      rw [fresh _ o hown, kept z label d hzr hz] at ho
      exact hzr (hclear z (exact.labels.mpr ⟨⟨d, hz⟩, ho.symm⟩))
    rcases T.cases hx with ⟨hxr, hx⟩ | ⟨n, hn, rfl, hkn⟩
    · rcases T.cases hy with ⟨hyr, hy⟩ | ⟨m, hm, rfl, hkm⟩
      · rw [kept x label a hxr hx, kept y label b hyr hy] at ho
        exact (exact_apart exact).inputs hx hy ho
      · exact (clash hm hkm hxr hx ho.symm).elim
    · rcases T.cases hy with ⟨hyr, hy⟩ | ⟨m, hm, rfl, hkm⟩
      · exact (clash hn hkn hyr hy ho).elim
      · obtain ⟨o, hon, -⟩ := clear.inputs n hn label a hkn
        obtain ⟨o', hom, -⟩ := clear.inputs m hm label b hkm
        obtain rfl : o = o' := by rw [← fresh _ o hon, ← fresh _ o' hom, ho]
        exact clear.labels n hn m hm label a b o hkn hkm hon hom
  dialogs {x y a b} hx hy := by
    rcases T.cases hx with ⟨hxr, hx⟩ | ⟨n, hn, rfl, hkn⟩
    · rcases T.cases hy with ⟨-, hy⟩ | ⟨m, hm, rfl, hkm⟩
      · exact (exact_apart exact).dialogs hx hy
      · exact absurd (clear.dialogs m hm b hkm x (exact.dialog.mpr ⟨a, hx⟩)) hxr
    · rcases T.cases hy with ⟨hyr, hy⟩ | ⟨m, hm, rfl, hkm⟩
      · exact absurd (clear.dialogs n hn a hkn y (exact.dialog.mpr ⟨b, hy⟩)) hyr
      · rw [clear.one n hn m hm a b hkn hkm]

omit [DecidableEq K] in
structure Ready (t v : MountedGraph K) (owner : ℕ → Option ℕ) (nodes : List (Node K)) : Prop where
  free : ∀ n ∈ nodes, kindAt t n.id = none
  exact : Exact (kindAt t) owner (ledger t)
  armed : Armed (kindAt t) (ledger t)
  apart : Apart (kindAt v) owner
  new : ∀ n ∈ nodes, kindAt v n.id = some n.kind
  old : ∀ x k, kindAt t x = some k → kindAt v x = some k

omit [DecidableEq K] in
theorem ready {g0 : MountedGraph K} {ended : List ℕ} (T : Turned g v removed nodes)
    (unused : ∀ n ∈ nodes, kindAt g n.id = none) (armed : Armed (kindAt g) (ledger g)) (apart : Apart (kindAt v) owner')
    (kept : ∀ x label enabled, x ∉ removed → kindAt g x = some (.textInput label enabled) →
      owner' x = owner x)
    (carried : kindAt g0 = kindAt g ∧ ledger g0 = { ledger g with
      regions := (ledger g).regions \ removed.toFinset
      windowRegions := (ledger g).windowRegions \ removed.toFinset })
    (unlisted : Unlisted g0 t owner removed [] ended) : Ready t v owner' nodes := by
  obtain ⟨hkinds, hledger⟩ := carried
  have kind_iff {x : ℕ} {k : NodeKind K} :
      kindAt t x = some k ↔ x ∉ removed ∧ kindAt g x = some k := by
    rw [unlisted.kinds, hkinds]
    by_cases hx : x ∈ removed <;> simp [hx]
  have not_staged {x : ℕ} {k : NodeKind K} (hk : kindAt g x = some k) : x ∉ ids nodes := fun hx => by
    obtain ⟨n, hn, rfl⟩ := List.mem_map.mp hx
    cases hk.symm.trans (unused n hn)
  refine ⟨fun n hn => ?_, exact_owner unlisted.exact fun x label enabled hx => ?_, ⟨fun {x} => ?_,
    fun {x} => ?_⟩, apart, T.fresh, fun x k hx => ?_⟩
  · cases hk : kindAt t n.id with
    | none => rfl
    | some k => cases (kind_iff.mp hk).2.symm.trans (unused n hn)
  · obtain ⟨hr, hx⟩ := kind_iff.mp hx
    exact kept x label enabled hr hx
  · simp only [unlisted.regions, hledger, Finset.mem_sdiff, List.mem_toFinset, armed.regions, kind_iff]
    exact ⟨fun ⟨⟨k, hk, hs⟩, hr⟩ => ⟨k, ⟨hr, hk⟩, hs⟩, fun ⟨k, ⟨hr, hk⟩, hs⟩ => ⟨⟨k, hk, hs⟩, hr⟩⟩
  · simp only [unlisted.windowRegions, hledger, Finset.mem_sdiff, List.mem_toFinset,
      armed.windowRegions, kind_iff]
    exact ⟨fun ⟨⟨k, hk, hs⟩, hr⟩ => ⟨k, ⟨hr, hk⟩, hs⟩, fun ⟨k, ⟨hr, hk⟩, hs⟩ => ⟨⟨k, hk, hs⟩, hr⟩⟩
  · obtain ⟨hr, hk⟩ := kind_iff.mp hx
    exact (T.kept x hr (not_staged hk)).trans hk

omit [DecidableEq K] in
/-- One owner for every node that has one. -/
theorem exists_owner (v : MountedGraph K) : ∃ owner : ℕ → Option ℕ, ∀ x o, OwnedBy v x o → owner x = o := by
  have (x : ℕ) : ∃ q, ∀ o, OwnedBy v x o → q = o := by
    by_cases h : ∃ o, OwnedBy v x o
    · obtain ⟨q, hq⟩ := h
      exact ⟨q, fun o ho => owned_unique hq ho⟩
    · exact ⟨none, fun o ho => absurd ⟨o, ho⟩ h⟩
  choose owner howner using this
  exact ⟨owner, howner⟩

theorem parents_mounted (h : Shape g) (c : ℕ) (l : ParentLocation K)
    (hl : g.parentLocation c = some l) : (g.nodes.get l.parent).isSome :=
  mounted_iff.mp (mounted_of_kid (h.linked.listed (mounted_iff.mpr (mounted_of_parent hl)) hl))

omit [DecidableEq K] in
theorem exact_carried {g0 : MountedGraph K} (exact : Exact (kindAt g) owner (ledger g))
    (carried : kindAt g0 = kindAt g ∧ ledger g0 = { ledger g with
      regions := (ledger g).regions \ removed.toFinset
      windowRegions := (ledger g).windowRegions \ removed.toFinset }) :
    Exact (kindAt g0) owner (ledger g0) := by
  rw [carried.1, carried.2]
  exact ⟨exact.boundaries, exact.owners, exact.labels, exact.dialog, exact.newest⟩

omit [DecidableEq K] in
theorem indexed_of_listed {t1 : MountedGraph K} (listed : Listed t t1 owner' nodes)
    (same : register v = register t1) (owned : ∀ x label enabled,
      kindAt v x = some (.textInput label enabled) → OwnedBy v x (owner' x)) : Indexed v := by
  obtain ⟨hkinds, hledger⟩ := Prod.mk.inj same
  refine ⟨⟨owner', ?_, owned⟩, ?_⟩
  · rw [hkinds, hledger]
    exact listed.exact
  · rw [hkinds, hledger]
    exact listed.armed

omit [DecidableEq K] in
theorem newest_of_listed {g0 t1 : MountedGraph K} {instances ended : List ℕ}
    (listed : Listed t t1 owner' nodes) (same : register v = register t1)
    (unlisted : Unlisted g0 t owner removed instances ended)
    (carried : kindAt g0 = kindAt g ∧ ledger g0 = { ledger g with
      regions := (ledger g).regions \ removed.toFinset
      windowRegions := (ledger g).windowRegions \ removed.toFinset }) :
    ∀ m ∈ g.maxSeenInstance, ∃ m' ∈ v.maxSeenInstance, m ≤ m' := by
  have hstart : (ledger t).newest = g.maxSeenInstance := by
    rw [unlisted.newest, carried.2]
    rfl
  have hend : v.maxSeenInstance = (ledger t1).newest :=
    congrArg Ledger.newest (Prod.mk.inj same).2
  rw [hend, ← hstart]
  exact listed.newest

/-- What a patch reports is what happened to the mounted nodes. -/
structure Turnover (g v : MountedGraph K) (a : GraphApply K) (nodes : List (Node K)) : Prop where
  turned : Turned g v a.removedIds nodes
  ended : ∀ i, i ∈ a.removedInstances ↔ ∃ x ∈ a.removedIds, kindAt g x = some (.boundary i)
  staged : a.stagedInstances = instancesOf nodes
  stagedIds : a.stagedIds = ids nodes
  unused : ∀ x ∈ ids nodes, g.maxSeenNodeId < x
  instances : (instancesOf nodes).Nodup
  free : ∀ i ∈ instancesOf nodes, ∀ id, g.boundaryInstances.get i = some id → id ∈ a.removedIds
  newest : ∀ m ∈ g.maxSeenInstance, ∃ m' ∈ v.maxSeenInstance, m ≤ m'

theorem kind_unused (h : Shape g) {n : Node K} (hn : g.maxSeenNodeId < n.id) : kindAt g n.id = none :=
  kind_of_unmounted fun hm => absurd (h.issued (mounted_iff.mp hm)) hn.not_ge

end Turnover

section Replacing

variable [DecidableEq K] {g v : MountedGraph K} {r : Replacement K} {plan : ReplacementPlan K}

theorem root_owned (h : Shape g) {outer : Option ℕ}
    (e : Grafted g v plan.removedIds r.nodes plan.frontier [(r.root, plan.parentLocation)]
      (siteOf plan) (rootAfter r plan g))
    (boundaries : ∀ c ∈ plan.frontier, ∃ i, kindAt g c = some (.boundary i))
    (hparent : plan.parent = plan.parentLocation.map attachment)
    (houter : ownerAt g plan.parent = .ok outer) : OwnedBy v r.root outer := by
  have htop : v.parentLocation r.root = plan.parentLocation := e.parent_top (by simp)
  cases hl : plan.parentLocation with
  | none =>
    rw [hparent, hl] at houter
    obtain rfl := Except.ok.inj houter
    exact .outermost (htop.trans hl)
  | some location =>
    have hfst : (attachment location).1 = location.parent := by cases location <;> rfl
    rw [hparent, hl] at houter
    have howner : g.componentOwner location.parent = (.ok outer : Reading K (Option ℕ)) := by
      rw [← hfst]
      exact houter
    have hsite : location.parent ∈ siteOf plan := by simp [siteOf, hl]
    obtain ⟨hm, hr⟩ := e.graft.site_kept _ hsite
    have under := owner_from (parents_mounted h) (mounted_iff.mp hm) howner
    exact owned_under (htop.trans hl)
      (owns_under_kept e h boundaries under hm hr (e.graft.site_apart _ hsite))

theorem replacement_indexed (h : Shape g) (idx : Indexed g) {a : GraphApply K}
    (hrun : (applyReplacement r).run g = .ok a v) : Indexed v ∧ Turnover g v a r.nodes := by
  obtain ⟨plan, hplan, e⟩ := replacement_grafted h hrun
  simp only [applyReplacement, commitReplacement, bind_ok, get_ok, query_run_ok, pure_ok] at hrun
  obtain ⟨_, _, ⟨rfl, rfl⟩, plan', _, ⟨hplan', rfl⟩, _, _, ⟨rfl, rfl⟩, carried, g0, hcarry, ended, g1,
    hexchange, _, g2, hfinish, _, _, ⟨rfl, rfl⟩, rfl, rfl⟩ := hrun
  obtain rfl := Except.ok.inj (hplan.symm.trans hplan')
  simp only [exchange, bind_ok, query_run_ok, pure_ok] at hexchange
  obtain ⟨ended', t, hretire, _, t1, hinsert, _, t2, hparent, _, t3, hsegment, size, _, ⟨hsize, rfl⟩,
    _, t4, hattach, rfl, rfl⟩ := hexchange
  obtain ⟨frontier, outer, houter, hlocation, hvalidated, hstaged⟩ := plan_checks hplan
  have boundaries : ∀ c ∈ plan.frontier, ∃ i, kindAt g c = some (.boundary i) := fun c hc => by
    obtain ⟨entry, i, he, hk⟩ := frontier c hc
    exact ⟨i, by rw [kindAt_eq he, hk]⟩
  have p := planned h hplan
  have sole := validated_sole hvalidated
  have T := grafted_turned e h
  have clear := replacement_clear p.fragment sole hstaged
  have root := root_owned h e boundaries hlocation houter
  have owned_v {x : ℕ} {o : Option ℕ} (ho : plan.validated.inputOwners.get x = some o) :
      OwnedBy g2 x o :=
    owned_fresh e h (fun id n hn => p.fragment.fresh.mp hn) root (sole.owned ho)
  obtain ⟨owner, exact, howned⟩ := idx.listed
  obtain ⟨owner', howner'⟩ := exists_owner g2
  have owned_kept_v {x : ℕ} {label : String} {enabled : Bool} (hr : x ∉ plan.removedIds)
      (hx : kindAt g x = some (.textInput label enabled)) : OwnedBy g2 x (owner x) := by
    refine owned_kept e h boundaries (howned x label enabled hx) (mounted_of_kind hx) hr fun hf => ?_
    obtain ⟨i, hi⟩ := boundaries x hf
    cases hx.symm.trans hi
  have kept (x : ℕ) (label : String) (enabled : Bool) (hr : x ∉ plan.removedIds)
      (hx : kindAt g x = some (.textInput label enabled)) : owner' x = owner x :=
    howner' x _ (owned_kept_v hr hx)
  have fresh (x : ℕ) (o : Option ℕ) (ho : plan.validated.inputOwners.get x = some o) :
      owner' x = o := howner' x o (owned_v ho)
  have carry := carry_all hcarry
  have unlisted := retire_unlists (exact_carried exact carry) hretire
  have set := ready T (fun n hn => kind_unused h (p.fresh n hn)) idx.armed
    (clear_apart T exact clear kept fresh) kept carry unlisted
  have listed := insert_lists p.fragment.distinct set.free set.exact set.armed set.apart set.new
    set.old (fun n _ => fresh n.id) hinsert
  have same : register g2 = register t1 :=
    (kept_of_preserves (fun c => register_finish _ _ _) hfinish).trans <|
    (kept_of_preserves (fun c => register_attach _ _ _ _) hattach).trans <|
    (kept_of_preserves (fun c => register_setSegment _ _) hsegment).trans
      (kept_of_preserves (fun c => register_setParent _ _ _) hparent)
  refine ⟨indexed_of_listed listed same fun x label enabled hx => ?_, T, fun i => ?_, rfl, rfl,
    fun x hx => ?_, sole.instances, fun i hi => ?_, fun m hm => ?_⟩
  · rcases T.cases hx with ⟨hr, hx⟩ | ⟨n, hn, rfl, hk⟩
    · rw [kept x label enabled hr hx]
      exact owned_kept_v hr hx
    · obtain ⟨o, ho, -⟩ := clear.inputs n hn label enabled hk
      rw [fresh n.id o ho]
      exact owned_v ho
  · rw [unlisted.ended, carry.1]
    simp
  · obtain ⟨n, hn, rfl⟩ := List.mem_map.mp hx
    exact p.fresh n hn
  · obtain ⟨n, hn, hk⟩ := mem_instancesOf.mp hi
    exact clear.boundaries n hn i hk
  · exact newest_of_listed listed same unlisted carry m hm

end Replacing

end GraphListings
