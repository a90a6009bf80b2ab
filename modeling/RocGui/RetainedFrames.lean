import RocGui.IdentityRuns

/-! Replacing a component around parts of it that stay: which nodes go, where the retained subtrees
hang afterwards, and that nothing inside them changes. -/
namespace RetainedFrames

open FiniteMaps KeyedLists Methods KeyedOrder GraphState FragmentValidation GraphPatches
open FragmentTrees GraphForests GraphMounting GraphGrafts GraphReplacements GraphLedgers GraphRuns
open GraphOwners GraphListings KeyedListings SiblingSegments GraphSegments GraphIdentities
open KeyedIdentities ElementIdentities IdentityPaths IdentityRuns PointerTrees StackWalks Transitions

section Walks

variable {α L : Type*} {owner : L → α} {F : Forest α L} {root : Option α} {stop : α → Prop}
  {top a c d x : α} {walked met : List α}

theorem no_way_up (w : Weighed F) (hc : F.Child a c) : ¬F.Below c a := by
  intro hback
  have hlt := weight_child w hc
  have hle := weight_below w hback
  omega

theorem below_met (h : Linked owner F root) (w : Weighed F) (hw : Walked F stop [top] walked met)
    (hc : c ∈ met) (hx : F.Below c x) : x ∉ walked := by
  induction hx with
  | refl => exact fun hwalked => hw.walked_enters hwalked (hw.met_stops hc)
  | @tail y x hcy hyx ih =>
    intro hwalked
    rcases hw.origin (.inl hwalked) with htop | ⟨b, hb, hbx⟩
    · obtain rfl := List.mem_singleton.mp htop
      obtain ⟨p, hp, hpc⟩ := hw.from_pending (.inr hc)
      obtain rfl := List.mem_singleton.mp hp
      exact no_way_up w hyx (hpc.trans hcy)
    · obtain rfl := child_unique h hbx hyx
      exact ih hb

theorem mem_walked (h : Linked owner F root) (w : Weighed F) (hw : Walked F stop [top] walked met) :
    x ∈ walked ↔ F.Below top x ∧ ∀ c ∈ met, ¬F.Below c x := by
  constructor
  · intro hx
    obtain ⟨p, hp, hpx⟩ := hw.from_pending (.inl hx)
    obtain rfl := List.mem_singleton.mp hp
    exact ⟨hpx, fun c hc hcx => below_met h w hw hc hcx hx⟩
  · rintro ⟨hx, free⟩
    induction hx with
    | refl =>
      have hmet := hw.pending_met (List.mem_singleton.mpr rfl)
      exact hmet.resolve_right fun hm => free _ hm .refl
    | @tail y x _ hyx ih =>
      have hy := ih fun c hc hcy => free c hc (hcy.tail hyx)
      exact (hw.closed hy hyx).resolve_right fun hm => free x hm .refl

theorem met_apart (h : Linked owner F root) (w : Weighed F) (hw : Walked F stop [top] walked met)
    (hc : c ∈ met) (hd : d ∈ met) (hcd : F.Below c d) : c = d := by
  rcases Relation.ReflTransGen.cases_tail hcd with heq | ⟨y, hcy, hyd⟩
  · exact heq.symm
  rcases hw.origin (.inr hd) with htop | ⟨b, hb, hbd⟩
  · obtain rfl := List.mem_singleton.mp htop
    obtain ⟨p, hp, hpc⟩ := hw.from_pending (.inr hc)
    obtain rfl := List.mem_singleton.mp hp
    exact absurd (hpc.trans hcy) (no_way_up w hyd)
  · obtain rfl := child_unique h hbd hyd
    exact absurd hb (below_met h w hw hc hcy)

end Walks

variable {K : Type} [DecidableEq K]

section Checks

variable {g : MountedGraph K} {r : Replacement K} {plan : ReplacementPlan K}

omit [DecidableEq K] in
theorem retained_listed {frontier frontier' : Finset ℕ} {count count' : ℕ} {old : Option ℕ}
    {ids : List ℕ} (h : checkRetained g old frontier count ids = .ok (frontier', count')) :
    (∀ c, c ∈ frontier' ↔ c ∈ frontier ∨ c ∈ ids) ∧ ids.Nodup ∧ ∀ c ∈ ids, c ∉ frontier := by
  induction ids generalizing frontier count with
  | nil =>
    obtain ⟨rfl, -⟩ := Prod.mk.inj (Except.ok.inj h)
    simp
  | cons id rest ih =>
    simp only [checkRetained] at h
    split at h
    · cases h
    rename_i hnew
    split at h
    · cases h
    split at h
    · split at h
      · cases h
      · obtain ⟨hmem, hnodup, hout⟩ := ih h
        refine ⟨fun c => ?_, List.nodup_cons.mpr ⟨fun hid => ?_, hnodup⟩, fun c hc => ?_⟩
        · rw [hmem, Finset.mem_insert, List.mem_cons]
          tauto
        · exact hout id hid (Finset.mem_insert_self _ _)
        · rcases List.mem_cons.mp hc with rfl | hc
          · exact hnew
          · exact fun hf => hout c hc (Finset.mem_insert_of_mem hf)
    · cases h

theorem plan_retained (h : planReplacement r g = .ok plan) :
    (∀ c, c ∈ plan.frontier ↔ c ∈ r.retainedRoots) ∧ r.retainedRoots.Nodup := by
  simp only [planReplacement, reject_guard_ok, except_bind_ok, not_not] at h
  obtain ⟨_, -, ⟨frontier, retainedNodes⟩, hretained, ⟨removedIds, found⟩, -, -, owner, -,
    validated, -, _, -, outer, _, node, _, segment, _, _, _, heq⟩ := h
  cases heq
  obtain ⟨hmem, hnodup, -⟩ := retained_listed hretained
  exact ⟨by simpa using hmem, hnodup⟩

theorem distinguished_reachable (h : Reachable (accepting K) g) : Distinguished g := by
  refine (reachable_invariant (S := accepting K)
    (P := fun g => (Shape g ∧ Indexed g) ∧ Distinguished g)
    ⟨⟨shape_empty, indexed_empty⟩, distinguished_empty⟩ (fun s patch t hs step => ?_) h).2
  obtain ⟨⟨hshape, hidx⟩, hd⟩ := hs
  refine ⟨⟨step_shape hshape step, ?_⟩, step_distinguished hshape hidx hd step⟩
  obtain ⟨hashOrder, a, hrun⟩ := step
  exact (step_turnover hshape hidx hrun).1

end Checks

omit [DecidableEq K] in
theorem boundary_segment {g : MountedGraph K} {c i : ℕ} (dist : Distinguished g)
    (hkind : (g.node c).map (·.kind) = some (.boundary i)) :
    g.cachedSegment c = some (.boundary i) := by
  obtain ⟨n, hn, hk⟩ := Option.map_eq_some_iff.mp hkind
  obtain ⟨entry, he, -⟩ := Option.map_eq_some_iff.mp hn
  have hs : g.cachedSegment c = some entry.segment := by
    rw [MountedGraph.cachedSegment, he, Option.map_some]
  obtain ⟨index, occurrence, hof⟩ := dist.own c n entry.segment hn hs
  rw [hs, hof, of_boundary hk]

section Subtrees

variable {g v : MountedGraph K} {r : Replacement K} {plan : ReplacementPlan K} {old c d x y : ℕ}
  (h : Shape g) (p : Planned r g plan)

include h p

theorem removed_iff (hold : r.oldRoot = some old) : x ∈ plan.removedIds ↔
    (forest g).Below old x ∧ ∀ c ∈ plan.frontier, ¬(forest g).Below c x := by
  obtain ⟨met, walked, hmet⟩ := p.walked
  rw [hold, Option.toList_some] at walked
  rw [mem_walked h.linked h.weighed walked]
  simp only [← hmet, List.mem_toFinset]

theorem frontier_apart (hc : c ∈ plan.frontier) (hd : d ∈ plan.frontier)
    (hcd : (forest g).Below c d) : c = d := by
  obtain ⟨met, walked, hmet⟩ := p.walked
  obtain ⟨old, hold, -⟩ := under_old p (.inr hc)
  rw [hold, Option.toList_some] at walked
  simp only [← hmet, List.mem_toFinset] at hc hd
  exact met_apart h.linked h.weighed walked hc hd hcd

theorem below_stays (hc : c ∈ plan.frontier) (hx : (forest g).Below c x) :
    (forest g).Mounted x ∧ x ∉ plan.removedIds ∧ siteOf plan ≠ some x := by
  obtain ⟨old, hold, hbelow⟩ := under_old p (.inr hc)
  refine ⟨?_, fun hr => ((removed_iff h p hold).mp hr).2 c hc hx, fun hsite => ?_⟩
  · rcases Relation.ReflTransGen.cases_tail hx with heq | ⟨y, -, l, hkid⟩
    · exact heq ▸ (p.frontier c hc).1
    · exact (h.linked.placed hkid).1
  · obtain ⟨location, hl, rfl⟩ := Option.map_eq_some_iff.mp hsite
    obtain ⟨old', hold', hkid⟩ := old_kid h p hl
    obtain rfl := Option.some.inj (hold.symm.trans hold')
    exact no_way_up h.weighed ⟨_, hkid⟩ (hbelow.trans hx)

variable (e : Grafted g v plan.removedIds r.nodes plan.frontier [(r.root, plan.parentLocation)]
    (siteOf plan) (rootAfter r plan g))

include e

theorem kids_below (hc : c ∈ plan.frontier) (hx : (forest g).Below c x) :
    (forest v).kids x = (forest g).kids x := by
  obtain ⟨hm, hr, hs⟩ := below_stays h p hc hx
  exact e.kids_kept h hm hr hs

theorem below_iff (hc : c ∈ plan.frontier) (hx : (forest g).Below c x) :
    (forest v).Below x y ↔ (forest g).Below x y := by
  constructor
  · intro hxy
    induction hxy with
    | refl => exact .refl
    | @tail y z _ hyz ih =>
      obtain ⟨l, hkid⟩ := hyz
      rw [kids_below h p e hc (hx.trans ih)] at hkid
      exact ih.tail ⟨l, hkid⟩
  · intro hxy
    induction hxy with
    | refl => exact .refl
    | @tail y z hxy hyz ih =>
      obtain ⟨l, hkid⟩ := hyz
      rw [← kids_below h p e hc (hx.trans hxy)] at hkid
      exact ih.tail ⟨l, hkid⟩

theorem size_below (hc : c ∈ plan.frontier) (hx : (forest g).Below c x) :
    v.subtreeSize x = g.subtreeSize x := by
  obtain ⟨hm, hr, -⟩ := below_stays h p hc hx
  have shape := e.shape h
  have hm' : (forest v).Mounted x := (e.mounted h x).mpr (.inl ⟨hm, hr⟩)
  have hweight : (forest v).weight x = (forest g).weight x := by
    rw [weight_eq_ncard shape.linked shape.weighed hm', weight_eq_ncard h.linked h.weighed hm]
    simp only [below_iff h p e hc hx]
  obtain ⟨entry, he⟩ := Option.isSome_iff_exists.mp (mounted_iff.mp hm)
  obtain ⟨entry', he'⟩ := Option.isSome_iff_exists.mp (mounted_iff.mp hm')
  rw [weight_eq he, weight_eq he'] at hweight
  rw [MountedGraph.subtreeSize, MountedGraph.subtreeSize, he, he', Option.map_some, Option.map_some,
    hweight]

theorem parent_below (hc : c ∈ plan.frontier) (hx : (forest g).Below c x) (hne : x ≠ c) :
    v.parentLocation x = g.parentLocation x := by
  obtain ⟨hm, hr, -⟩ := below_stays h p hc hx
  exact e.parent_kept h hm hr fun hf => hne (frontier_apart h p hc hf hx).symm

/-- The root of a retained subtree has the key of its component, the nodes inside it the keys they
had: neither their parents nor their siblings changed. -/
theorem segment_below (hplan : planReplacement r g = .ok plan) {a : GraphApply K}
    (hrun : (applyReplacement r).run g = .ok a v) (dist : Distinguished g) (dist' : Distinguished v)
    (hc : c ∈ plan.frontier) (hx : (forest g).Below c x) : v.cachedSegment x = g.cachedSegment x := by
  obtain ⟨hm, hr, -⟩ := below_stays h p hc hx
  rcases Relation.ReflTransGen.cases_tail hx with heq | ⟨y, hcy, l, hkid⟩
  · obtain ⟨entry, i, he, hk⟩ := (plan_checks hplan).1 c hc
    have hkind : (g.node x).map (·.kind) = some (.boundary i) := by
      rw [heq, MountedGraph.node, he, Option.map_some, Option.map_some, hk]
    rw [boundary_segment dist hkind, boundary_segment dist' ((e.kind_kept h hm hr).trans hkind)]
  · obtain ⟨-, hry, hsy⟩ := below_stays h p hc hcy
    obtain ⟨-, hl⟩ := h.linked.placed hkid
    have hy := h.linked.owned hkid
    obtain ⟨hchild, htop⟩ := kept_apart e h hm fun l' hl' => by
      obtain rfl := Option.some.inj (hl.symm.trans hl')
      exact hy ▸ hry
    refine (replacement_rekeyed h hplan hrun).kept x hm hr hchild (fun heq => htop (by simp [heq])) ?_
    intro q hq hqx
    have hyx : (forest v).Child y x := ⟨l, (kids_below h p e hc hcy).symm ▸ hkid⟩
    exact hsy (child_unique (e.shape h).linked hqx hyx ▸ hq)

end Subtrees

section Entries

variable {g v : MountedGraph K} {removed : List ℕ} {nodes : List (Node K)} {frontier : Finset ℕ}
  {tops : List (ℕ × Option (ParentLocation K))} {site root : Option ℕ} {x : ℕ}
  (e : Grafted g v removed nodes frontier tops site root) (h : Shape g)
  (boundaries : ∀ c ∈ frontier, ∃ i, kindAt g c = some (.boundary i))
  (exact : ExactIndices g) (exact' : ExactIndices v)

/-- What the indices say about a node. -/
structure SameIndices (g v : MountedGraph K) (x : ℕ) : Prop where
  boundaries : ∀ i, v.boundaryInstances.get i = some x ↔ g.boundaryInstances.get i = some x
  inputOwner : v.inputOwners.get x = g.inputOwners.get x
  inputLabels : ∀ owned, v.inputLabels.get owned = some x ↔ g.inputLabels.get owned = some x
  dialog : v.dialog = some x ↔ g.dialog = some x
  regions : x ∈ v.interaction.keyboard.regions ↔ x ∈ g.interaction.keyboard.regions
  windowRegions : x ∈ v.interaction.keyboard.windowRegions ↔ x ∈ g.interaction.keyboard.windowRegions

include e h boundaries exact in
theorem input_owned (hm : (forest g).Mounted x) (hr : x ∉ removed) {label : String} {enabled : Bool}
    (hk : kindAt g x = some (.textInput label enabled)) {o : Option ℕ} :
    OwnedBy v x o ↔ OwnedBy g x o := by
  have hf : x ∉ frontier := fun hf => by
    obtain ⟨i, hi⟩ := boundaries x hf
    cases hi.symm.trans hk
  constructor
  · intro ho
    obtain ⟨o', ho'⟩ := exact.owned x label enabled hk
    rwa [owned_unique ho (owned_kept e h boundaries ho' hm hr hf)]
  · exact fun ho => owned_kept e h boundaries ho hm hr hf

include e h boundaries exact exact' in
theorem same_indices (hm : (forest g).Mounted x) (hr : x ∉ removed) : SameIndices g v x := by
  have hkind : kindAt v x = kindAt g x := e.kind_kept h hm hr
  have owned {o : Option ℕ} {label : String} {enabled : Bool}
      (hk : kindAt g x = some (.textInput label enabled)) : OwnedBy v x o ↔ OwnedBy g x o :=
    input_owned e h boundaries exact hm hr hk
  refine ⟨fun i => ?_, Option.ext fun o => ?_, fun key => ?_, ?_, ?_, ?_⟩
  · rw [exact'.boundaries, exact.boundaries, hkind]
  · rw [exact'.inputOwners, exact.inputOwners, hkind]
    refine and_congr_right fun hinput => ?_
    obtain ⟨label, enabled, hk⟩ := hinput
    exact owned hk
  · obtain ⟨o, label⟩ := key
    rw [exact'.inputLabels, exact.inputLabels, hkind]
    refine and_congr_right fun hinput => ?_
    obtain ⟨enabled, hk⟩ := hinput
    exact owned hk
  · rw [exact'.dialog, exact.dialog, hkind]
  · rw [exact'.regions, exact.regions, hkind]
  · rw [exact'.windowRegions, exact.windowRegions, hkind]

end Entries

section Examples

def twoComponents : Patch ℕ := .mount 1 [⟨1, .column "", [2, 3]⟩, ⟨2, .boundary 5, [4]⟩,
  ⟨3, .boundary 6, [5]⟩, ⟨4, .textInput "name" true, []⟩, ⟨5, .text, []⟩]

def columnRebuilt : List (Node ℕ) :=
  [⟨7, .column "", [8, 2]⟩, ⟨8, .boundary 6, [9]⟩, ⟨9, .text, []⟩]

theorem two_components_reached :
    Reachable ((accepting ℕ).restrict InstallsItems) (afterPatch .empty twoComponents) :=
  reachable_step (reachable_initial _) (e := twoComponents)
    ⟨trivial, accepted_step _ (by decide +kernel)⟩

theorem column_rebuilds : ∃ a, (apply .sorted (.replaceRetaining 1 7 columnRebuilt [2])).run
    (afterPatch .empty twoComponents) = .ok a
      (afterPatch (afterPatch .empty twoComponents) (.replaceRetaining 1 7 columnRebuilt [2])) :=
  answer_is_ok (by decide +kernel)

end Examples

section Frames

variable {g v : MountedGraph K} {a : GraphApply K} {old root : ℕ} {nodes : List (Node K)}
  {retained : List ℕ} {hashOrder : Enumeration K (Option (KeyedChild K))}

structure SameEntry (g v : MountedGraph K) (x : ℕ) : Prop where
  content : GraphMounting.content v x = GraphMounting.content g x
  size : v.subtreeSize x = g.subtreeSize x
  segment : v.cachedSegment x = g.cachedSegment x
  indices : SameIndices g v x

/-- What replacing `old` by a fragment around `retained` does: what goes, what comes, and how the
retained subtrees hang in the fragment, each as it was. -/
structure RetainedFrame (g v : MountedGraph K) (a : GraphApply K) (old root : ℕ)
    (nodes : List (Node K)) (retained : List ℕ) : Prop where
  removed : ∀ x, x ∈ a.removedIds ↔ Reaches g old x ∧ ∀ c ∈ retained, ¬Reaches g c x
  staged : a.stagedIds = ids nodes ∧ (ids nodes).Nodup ∧ ∀ x ∈ ids nodes, g.maxSeenNodeId < x
  mounted : ∀ x, (v.nodes.get x).isSome ↔
    (g.nodes.get x).isSome ∧ x ∉ a.removedIds ∨ x ∈ a.stagedIds
  apart : retained.Nodup ∧ ∀ c ∈ retained, ∀ d ∈ retained, Reaches g c d → c = d
  inside : ∀ c ∈ retained, c ≠ old ∧ Reaches g old c ∧ ∃ i, kindAt g c = some (.boundary i)
  fragment : ∀ n ∈ nodes, v.node n.id = some n ∧
    (v.childrenOf n.id : Except (Failure Empty) _) = .ok n.children
  once : (root :: childIds nodes).Nodup
  top : v.parentLocation root = g.parentLocation old
  hung : ∀ c ∈ retained, c = root ∨
    ∃ n ∈ nodes, c ∈ n.children ∧ (v.parentLocation c).map (·.parent) = some n.id
  stays : ∀ x, (g.nodes.get x).isSome → x ∉ a.removedIds → SameIndices g v x ∧
    (x ∉ retained → v.parentLocation x = g.parentLocation x) ∧
    ((g.parentLocation old).map (·.parent) ≠ some x →
      GraphMounting.content v x = GraphMounting.content g x)
  kept : ∀ c ∈ retained, ∀ x, Reaches g c x → SameEntry g v x ∧
    (x ≠ c → v.parentLocation x = g.parentLocation x)
  below : ∀ c ∈ retained, ∀ x, Reaches v c x ↔ Reaches g c x

theorem retention_frames (h : Reachable (accepting K) g)
    (hrun : (apply hashOrder (.replaceRetaining old root nodes retained)).run g = .ok a v) :
    RetainedFrame g v a old root nodes retained := by
  obtain ⟨shape, idx⟩ := indexed_reachable h
  have h' : Reachable (accepting K) v := reachable_step h ⟨hashOrder, a, hrun⟩
  obtain ⟨shape', idx'⟩ := indexed_reachable h'
  change (applyReplacement ⟨some old, root, nodes, retained⟩).run g = .ok a v at hrun
  obtain ⟨plan, hplan, e⟩ := replacement_grafted shape hrun
  obtain ⟨plan', hplan', told⟩ := replacement_told hrun
  obtain rfl := Except.ok.inj (hplan.symm.trans hplan')
  have p := planned shape hplan
  obtain ⟨hfrontier, hnodup⟩ := plan_retained hplan
  have boundaries (c : ℕ) (hc : c ∈ plan.frontier) : ∃ i, kindAt g c = some (.boundary i) := by
    obtain ⟨entry, i, he, hk⟩ := (plan_checks hplan).1 c hc
    exact ⟨i, by rw [kindAt_eq he, hk]⟩
  have htop : v.parentLocation root = plan.parentLocation := e.parent_top List.mem_cons_self
  have hlocation : plan.parentLocation = g.parentLocation old := by rw [p.location, Option.bind_some]
  have indices {x : ℕ} (hm : (forest g).Mounted x) (hr : x ∉ plan.removedIds) : SameIndices g v x :=
    same_indices e shape boundaries (exact_indices idx) (exact_indices idx') hm hr
  refine ⟨fun x => ?_, ⟨told.staged, p.fragment.distinct, fun x hx => e.graft.fresh x hx⟩,
    fun x => ?_, ⟨hnodup, fun c hc d hd hcd => ?_⟩, fun c hc => ?_, fun n hn => ?_, ?_, ?_,
    fun c hc => ?_, fun x hx hr => ?_, fun c hc x hx => ?_, fun c hc x => ?_⟩
  · rw [told.removed, removed_iff shape p rfl, reaches_iff shape]
    simp only [reaches_iff shape, hfrontier]
  · rw [told.removed, told.staged, ← mounted_iff, ← mounted_iff]
    exact e.mounted shape x
  · exact frontier_apart shape p ((hfrontier c).mpr hc) ((hfrontier d).mpr hd)
      ((reaches_iff shape).mp hcd)
  · have hf := (hfrontier c).mpr hc
    obtain ⟨old', hold, hbelow⟩ := under_old p (.inr hf)
    obtain rfl := Option.some.inj hold
    exact ⟨fun heq => (p.frontier c hf).2 (heq ▸ rfl), (reaches_iff shape).mpr hbelow,
      boundaries c hf⟩
  · refine ⟨e.node_fresh shape hn, ?_⟩
    rw [children_of shape', e.kids_fresh shape hn]
  · exact List.nodup_cons.mpr ⟨p.fragment.root_free, p.fragment.owned⟩
  · rw [htop, hlocation]
  · refine (p.fragment.reached c (.inr ((hfrontier c).mpr hc))).imp_right fun hchild => ?_
    obtain ⟨n, hn, hcn⟩ := List.mem_flatMap.mp hchild
    obtain ⟨location, hl, hparent⟩ := e.parent_fresh shape hn hcn
    exact ⟨n, hn, hcn, by rw [hl, Option.map_some, hparent]⟩
  · rw [told.removed] at hr
    have hm := mounted_iff.mpr hx
    refine ⟨indices hm hr, fun hx => e.parent_kept shape hm hr fun hf => hx ((hfrontier x).mp hf),
      fun hs => e.content_kept shape hm hr ?_⟩
    rwa [siteOf, hlocation]
  · have hf := (hfrontier c).mpr hc
    have hbelow := (reaches_iff shape).mp hx
    obtain ⟨hm, hr, hs⟩ := below_stays shape p hf hbelow
    have segment := segment_below shape p e hplan hrun (distinguished_reachable h)
      (distinguished_reachable h') hf hbelow
    exact ⟨⟨e.content_kept shape hm hr hs, size_below shape p e hf hbelow, segment, indices hm hr⟩,
      parent_below shape p e hf hbelow⟩
  · rw [reaches_iff shape, reaches_iff shape', below_iff shape p e ((hfrontier c).mpr hc) .refl]

theorem component_retained : ∃ a v, RetainedFrame (afterPatch .empty twoComponents) v a 1 7
    columnRebuilt [2] := by
  obtain ⟨a, hrun⟩ := column_rebuilds
  exact ⟨a, _, retention_frames (reachable_of_restrict two_components_reached) hrun⟩

end Frames

section Scopes

variable {g : MountedGraph K} {frontier : Finset ℕ} {validated : ValidatedFragment K}
  {rootSegment : IdentitySegment}

/-- A staged tree that may stand under a path: the components it retains or rebuilds had, in the graph
before, the paths it gives them. -/
inductive Scoped (g : MountedGraph K) (frontier : Finset ℕ) (validated : ValidatedFragment K) :
    ElementIdentity → ℕ → IdentitySegment → Prop where
  | retained {path : ElementIdentity} {id : ℕ} {segment : IdentitySegment} : id ∈ frontier →
      (g.identity id : Reading K _) = .ok (path ++ [segment]) →
      Scoped g frontier validated path id segment
  | entered {path : ElementIdentity} {id : ℕ} {segment : IdentitySegment} {node : Node K} :
      validated.fresh.get id = some node →
      (∀ i old, node.kind = .boundary i → g.boundaryInstances.get i = some old →
        (g.identity old : Reading K _) = .ok (path ++ [segment])) →
      (∀ c s, (c, s) ∈ siblingSegments (validated.lookup g.node) ∅ 0 node.children →
        Scoped g frontier validated (path ++ [segment]) c s) →
      Scoped g frontier validated path id segment

omit [DecidableEq K] in
theorem scopes_checked {fuel : ℕ} {path : ElementIdentity}
    {entering rest : List (ℕ × IdentitySegment × Bool)} (flags : ∀ e ∈ entering, e.2.2 = false)
    (h : checkScopes g frontier validated rootSegment fuel path (entering ++ rest) = .ok ()) :
    (∀ e ∈ entering, Scoped g frontier validated path e.1 e.2.1) ∧
      ∃ left ≤ fuel, checkScopes g frontier validated rootSegment left path rest = .ok () := by
  induction fuel using Nat.strong_induction_on generalizing path entering rest with
  | _ fuel ih =>
    cases entering with
    | nil => exact ⟨by simp, fuel, le_rfl, h⟩
    | cons entry entering =>
      obtain ⟨id, segment, flag⟩ := entry
      obtain rfl : flag = false := flags _ List.mem_cons_self
      have flags' : ∀ e ∈ entering, e.2.2 = false := fun e he => flags e (List.mem_cons_of_mem _ he)
      cases fuel with
      | zero => cases h
      | succ fuel =>
        -- the entry itself, and what comes after it
        have done {left : ℕ} (hle : left ≤ fuel) (below : Scoped g frontier validated path id segment)
            (hrest : checkScopes g frontier validated rootSegment left path (entering ++ rest) =
              .ok ()) :
            (∀ e ∈ (id, segment, false) :: entering, Scoped g frontier validated path e.1 e.2.1) ∧
              ∃ left ≤ fuel + 1,
                checkScopes g frontier validated rootSegment left path rest = .ok () := by
          obtain ⟨hall, left', hle', hrun⟩ := ih left (by omega) flags' hrest
          exact ⟨List.forall_mem_cons.mpr ⟨below, hall⟩, left', by omega, hrun⟩
        have entered {node : Node K} (hnode : validated.fresh.get id = some node)
            (rebuilt : ∀ i old, node.kind = .boundary i → g.boundaryInstances.get i = some old →
              (g.identity old : Reading K _) = .ok (path ++ [segment]))
            (hrun : (do
              let children ← stagedSegments (validated.lookup g.node) node
              checkScopes g frontier validated rootSegment fuel (path ++ [segment])
                (children.map (fun child : ℕ × IdentitySegment => (child.1, child.2, false)) ++
                  (id, rootSegment, true) :: (entering ++ rest))) = .ok ()) :
            (∀ e ∈ (id, segment, false) :: entering, Scoped g frontier validated path e.1 e.2.1) ∧
              ∃ left ≤ fuel + 1,
                checkScopes g frontier validated rootSegment left path rest = .ok () := by
          obtain ⟨children, hchildren, hrun⟩ := except_bind_ok.mp hrun
          obtain ⟨hall, left, hle, hback⟩ := ih fuel (Nat.lt_succ_self _) (by simp) hrun
          cases left with
          | zero => cases hback
          | succ left =>
            rw [checkScopes, List.dropLast_concat] at hback
            refine done (Nat.le_of_succ_le hle) (.entered hnode rebuilt fun c s hc => ?_) hback
            unfold stagedSegments at hchildren
            split at hchildren
            · obtain rfl := Except.ok.inj hchildren
              exact hall (c, s, false) (List.mem_map.mpr ⟨(c, s), hc, rfl⟩)
            · cases hchildren
        rw [List.cons_append] at h
        simp only [checkScopes] at h
        split at h
        · rename_i hf
          obtain ⟨found, hfound, h⟩ := except_bind_ok.mp h
          obtain ⟨hsame, h⟩ := reject_guard_ok.mp h
          exact done le_rfl (.retained hf (by rw [hfound, not_not.mp hsame])) h
        · split at h
          · cases h
          · rename_i node hnode
            split at h
            · rename_i i hkind
              split at h
              · rename_i old hold
                obtain ⟨found, hfound, h⟩ := except_bind_ok.mp h
                obtain ⟨hsame, h⟩ := reject_guard_ok.mp h
                refine entered hnode (fun j old' hj hold' => ?_) h
                obtain rfl := NodeKind.boundary.inj (hkind.symm.trans hj)
                obtain rfl := Option.some.inj (hold.symm.trans hold')
                rw [hfound, not_not.mp hsame]
              · rename_i hnone
                refine entered hnode (fun j old' hj hold' => ?_) h
                obtain rfl := NodeKind.boundary.inj (hkind.symm.trans hj)
                cases hnone.symm.trans hold'
            · rename_i hother
              exact entered hnode (fun j old' hj _ => absurd hj (hother j)) h

end Scopes

section Paths

variable {g v : MountedGraph K} {r : Replacement K} {plan : ReplacementPlan K} {q c x : ℕ}
  {path outer : ElementIdentity} (h : Shape g) (p : Planned r g plan)
  (e : Grafted g v plan.removedIds r.nodes plan.frontier [(r.root, plan.parentLocation)]
    (siteOf plan) (rootAfter r plan g))
  (m : Marked g v plan.removedIds r.nodes [(r.root, plan.parentLocation)] (siteOf plan))

include h p e m

theorem above_stays (hq : siteOf plan = some q) (hx : (forest g).Below x q)
    (hm : (forest g).Mounted x) :
    v.parentLocation x = g.parentLocation x ∧ v.cachedSegment x = g.cachedSegment x := by
  obtain ⟨location, hl, rfl⟩ := Option.map_eq_some_iff.mp hq
  obtain ⟨old, hold, hkid⟩ := old_kid h p hl
  have away {y : ℕ} (hy : (forest g).Below y location.parent) :
      y ∉ plan.removedIds ∧ y ∉ plan.frontier := by
    refine not_or.mp fun hgone => ?_
    obtain ⟨old', hold', hbelow⟩ := under_old p hgone
    obtain rfl := Option.some.inj (hold.symm.trans hold')
    exact no_way_up h.weighed ⟨_, hkid⟩ (hbelow.trans hy)
  obtain ⟨hr, hf⟩ := away hx
  have hparent := e.parent_kept h hm hr hf
  obtain ⟨hchild, htop⟩ := kept_apart e h hm fun l hpx =>
    (away (Relation.ReflTransGen.head ⟨l, h.linked.listed hm hpx⟩ hx)).1
  refine ⟨hparent, m.kept x hm hr hchild htop fun s hs hsx => ?_⟩
  obtain rfl := Option.some.inj (hq.symm.trans hs)
  obtain ⟨l, hmem⟩ := hsx
  have hpx : g.parentLocation x = some l := hparent.symm.trans ((e.shape h).linked.placed hmem).2
  have howner := (e.shape h).linked.owned hmem
  exact no_way_up h.weighed ⟨l, howner ▸ h.linked.listed hm hpx⟩ hx

theorem path_above (hq : siteOf plan = some q) (hx : (forest g).Below x q)
    (hpath : PathTo g x path) : PathTo v x path := by
  have mounted {y : ℕ} {s : IdentitySegment} (hs : g.cachedSegment y = some s) :
      (forest g).Mounted y := by
    obtain ⟨entry, he, -⟩ := Option.map_eq_some_iff.mp hs
    exact mounted_iff.mpr (Option.isSome_of_eq_some he)
  induction hpath with
  | top hp hs =>
    obtain ⟨hparent, hsegment⟩ := above_stays h p e m hq hx (mounted hs)
    exact .top (hparent.trans hp) (hsegment.trans hs)
  | under hp _ hs ih =>
    obtain ⟨hparent, hsegment⟩ := above_stays h p e m hq hx (mounted hs)
    exact .under (hparent.trans hp)
      (ih (Relation.ReflTransGen.head ⟨_, h.linked.listed (mounted hs) hp⟩ hx)) (hsegment.trans hs)

omit m in
theorem lookup_kind (hc : c ∈ ids r.nodes ∨ c ∈ plan.frontier) :
    (v.node c).map (·.kind) = (plan.validated.lookup g.node c).map (·.kind) := by
  have known : (plan.validated.lookup g.node c).isSome := by
    rw [ValidatedFragment.lookup, Option.isSome_or, Bool.or_eq_true]
    rcases hc with hid | hf
    · obtain ⟨n, hn, rfl⟩ := List.mem_map.mp hid
      exact .inl (Option.isSome_of_eq_some (p.fragment.fresh.mpr ⟨hn, rfl⟩))
    · exact .inr (node_known (e.graft.kept c hf).1)
  obtain ⟨n, hn⟩ := Option.isSome_iff_exists.mp known
  rw [hn, Option.map_some, kind_of_lookup h p e hc hn]

theorem root_path (houter : identityAt g (plan.parentLocation.map attachment) = .ok outer)
    (hsegment : v.cachedSegment r.root = some plan.rootSegment) :
    PathTo v r.root (outer ++ [plan.rootSegment]) := by
  have htop : v.parentLocation r.root = plan.parentLocation := e.parent_top List.mem_cons_self
  cases hl : plan.parentLocation with
  | none =>
    rw [hl] at houter htop
    obtain rfl : [] = outer := Except.ok.inj houter
    exact .top htop hsegment
  | some location =>
    rw [hl] at houter htop
    have hpath : PathTo g location.parent outer := by
      rw [← attachment_parent]
      exact path_of_identity houter
    exact .under htop (path_above h p e m (by rw [siteOf, hl, Option.map_some]) .refl hpath) hsegment

/-- Every node of the fragment stands where the checks took it to stand. -/
theorem fragment_paths (below : Scoped g plan.frontier plan.validated outer r.root plan.rootSegment)
    (root : PathTo v r.root (outer ++ [plan.rootSegment]))
    (hx : x ∈ ids r.nodes ∨ x ∈ plan.frontier) (hpath : PathTo v x path) :
    ∃ above segment, path = above ++ [segment] ∧
      Scoped g plan.frontier plan.validated above x segment := by
  induction hpath with
  | @top x s hp hs =>
    rcases p.fragment.reached x hx with rfl | hchild
    · exact ⟨_, _, path_unique (.top hp hs) root, below⟩
    · obtain ⟨n, hn, hxn⟩ := List.mem_flatMap.mp hchild
      obtain ⟨l, hl, -⟩ := e.parent_fresh h hn hxn
      cases hp.symm.trans hl
  | @under x s l path hp hpath hs ih =>
    rcases p.fragment.reached x hx with rfl | hchild
    · exact ⟨_, _, path_unique (.under hp hpath hs) root, below⟩
    · obtain ⟨n, hn, hxn⟩ := List.mem_flatMap.mp hchild
      obtain ⟨l', hl', hparent⟩ := e.parent_fresh h hn hxn
      obtain rfl := Option.some.inj (hp.symm.trans hl')
      have hid : l.parent ∈ ids r.nodes := hparent ▸ List.mem_map_of_mem hn
      obtain ⟨above, segment, rfl, hscoped⟩ := ih (.inl hid)
      cases hscoped with
      | retained hf _ => exact absurd hf (p.fragment.apart _ hid)
      | @entered _ _ _ node hnode _ children =>
        obtain rfl : n = node :=
          Option.some.inj ((p.fragment.fresh.mpr ⟨hn, hparent.symm⟩).symm.trans hnode)
        have known : (v.node x).isSome :=
          node_known ((e.mounted h x).mpr (hx.symm.imp_left fun hf =>
            ⟨(e.graft.kept x hf).1, (e.graft.kept x hf).2.1⟩))
        obtain ⟨key, hkey⟩ := segment_exists v.node hxn known ∅ 0
        obtain rfl := Option.some.inj (hs.symm.trans (m.fresh n hn x key hkey))
        refine ⟨_, _, rfl, children x s ?_⟩
        rwa [← segments_congr fun d hd => lookup_kind h p e (p.fragment.listed d
          (List.mem_flatMap.mpr ⟨n, hn, hd⟩))]

omit m in
theorem path_below (segments : ∀ y, (forest g).Below c y → v.cachedSegment y = g.cachedSegment y)
    (hc : c ∈ plan.frontier) (top : ∀ path, PathTo g c path → PathTo v c path)
    (hx : (forest g).Below c x) (hpath : PathTo g x path) : PathTo v x path := by
  induction hx generalizing path with
  | refl => exact top path hpath
  | @tail y x hcy hyx ih =>
    have hx : (forest g).Below c x := hcy.tail hyx
    have hne : x ≠ c := by
      rintro rfl
      exact no_way_up h.weighed hyx hcy
    have hparent := parent_below h p e hc hx hne
    obtain ⟨l, hkid⟩ := hyx
    have hl := (h.linked.placed hkid).2
    have howner := h.linked.owned hkid
    cases hpath with
    | top hp _ => cases hp.symm.trans hl
    | under hp hpath hs =>
      obtain rfl := Option.some.inj (hp.symm.trans hl)
      exact .under (hparent.trans hp) (howner ▸ ih (howner ▸ hpath)) ((segments x hx).trans hs)

end Paths

section Identities

variable {g v : MountedGraph K} {a : GraphApply K} {old root : ℕ} {nodes : List (Node K)}
  {retained : List ℕ} {hashOrder : Enumeration K (Option (KeyedChild K))}

/-- What a patch retains keeps its path from the root of the graph, and so does every component that
it rebuilds: an instance is never handed on to another place. -/
theorem scopes_kept (h : Reachable ((accepting K).restrict InstallsItems) g)
    (installs : InstallsItems g (.replaceRetaining old root nodes retained))
    (hrun : (apply hashOrder (.replaceRetaining old root nodes retained)).run g = .ok a v) :
    (∀ c ∈ retained, ∀ x, Reaches g c x →
      (v.identity x : Except (Failure Empty) _) = g.identity x) ∧
    ∀ n ∈ nodes, ∀ i, n.kind = .boundary i → ∀ x, g.boundaryInstances.get i = some x →
      (v.identity n.id : Except (Failure Empty) _) = g.identity x := by
  obtain ⟨shape, bounded, segmented⟩ := segmented_reachable h
  have free := reachable_of_restrict h
  have h' : Reachable ((accepting K).restrict InstallsItems) v :=
    reachable_step h ⟨installs, hashOrder, a, hrun⟩
  obtain ⟨shape', bounded', -⟩ := segmented_reachable h'
  change (applyReplacement ⟨some old, root, nodes, retained⟩).run g = .ok a v at hrun
  obtain ⟨plan, hplan, e⟩ := replacement_grafted shape hrun
  have p := planned shape hplan
  obtain ⟨marked, hsegment⟩ := replacement_marked shape bounded bounded' segmented hplan hrun
  obtain ⟨outer, node, houter, hparent, -, -, hscopes, -⟩ := plan_scopes hplan
  rw [hparent] at houter
  have below : Scoped g plan.frontier plan.validated outer root plan.rootSegment :=
    (@scopes_checked _ _ _ _ _ _ _ [(root, plan.rootSegment, false)] [] (by simp)
      (by rwa [List.append_nil])).1 _ (List.mem_singleton.mpr rfl)
  have top := root_path shape p e marked houter hsegment
  have placed {x : ℕ} (hx : x ∈ ids nodes ∨ x ∈ plan.frontier) : ∃ above segment,
      PathTo v x (above ++ [segment]) ∧ Scoped g plan.frontier plan.validated above x segment := by
    have hm : (forest v).Mounted x := (e.mounted shape x).mpr (hx.symm.imp_left fun hf =>
      ⟨(e.graft.kept x hf).1, (e.graft.kept x hf).2.1⟩)
    obtain ⟨path, hpath, -⟩ := path_exists shape' hm
    obtain ⟨above, segment, rfl, hscoped⟩ := fragment_paths shape p e marked below top hx hpath
    exact ⟨above, segment, hpath, hscoped⟩
  constructor
  · intro c hc x hx
    have hf := ((plan_retained hplan).1 c).mpr hc
    have hbelow := (reaches_iff shape).mp hx
    obtain ⟨hm, hr, -⟩ := below_stays shape p hf hbelow
    obtain ⟨above, segment, hpath, hscoped⟩ := placed (.inr hf)
    have hsame : ∀ path, PathTo g c path → PathTo v c path := by
      intro path hc'
      cases hscoped with
      | retained _ hidentity => rwa [path_unique hc' (path_of_identity hidentity)]
      | entered hnode _ _ =>
        obtain ⟨hn, rfl⟩ := p.fragment.fresh.mp hnode
        exact absurd hf (p.fragment.apart _ (List.mem_map_of_mem hn))
    obtain ⟨path, hg, -⟩ := path_exists shape hm
    have hv : PathTo v x path := path_below shape p e (fun y hy => segment_below shape p e hplan hrun
      (distinguished_reachable free) (distinguished_reachable (reachable_of_restrict h')) hf hy)
      hf hsame hbelow hg
    rw [(identity_iff shape hm).mpr hg,
      (identity_iff shape' ((e.mounted shape x).mpr (.inl ⟨hm, hr⟩))).mpr hv]
  · intro n hn i hk x hx
    have hid : n.id ∈ ids nodes := List.mem_map_of_mem hn
    obtain ⟨above, segment, hpath, hscoped⟩ := placed (.inl hid)
    have hg : PathTo g x (above ++ [segment]) := by
      cases hscoped with
      | retained hf _ => exact absurd hf (p.fragment.apart _ hid)
      | entered hnode rebuilt _ =>
        obtain rfl := Option.some.inj ((p.fragment.fresh.mpr ⟨hn, rfl⟩).symm.trans hnode)
        exact path_of_identity (rebuilt i x hk hx)
    have hm := mounted_of_kind (((reachable_exact free).boundaries i x).mp hx)
    rw [(identity_iff shape hm).mpr hg,
      (identity_iff shape' ((e.mounted shape n.id).mpr (.inr hid))).mpr hpath]

theorem components_in_place : ∃ v : MountedGraph ℕ,
    (∀ c ∈ [2], ∀ x, Reaches (afterPatch .empty twoComponents) c x →
      (v.identity x : Except (Failure Empty) _) = (afterPatch .empty twoComponents).identity x) ∧
    ∀ n ∈ columnRebuilt, ∀ i, n.kind = .boundary i →
      ∀ x, (afterPatch .empty twoComponents).boundaryInstances.get i = some x →
        (v.identity n.id : Except (Failure Empty) _) = (afterPatch .empty twoComponents).identity x := by
  obtain ⟨a, hrun⟩ := column_rebuilds
  refine ⟨_, scopes_kept two_components_reached ?_ hrun⟩
  intro container key instanceId hparent
  have hroot : (afterPatch .empty twoComponents).parentLocation 1 = none := by decide +kernel
  cases hroot.symm.trans hparent

end Identities

end RetainedFrames
