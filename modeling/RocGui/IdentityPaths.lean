import RocGui.ElementIdentities

/-! Element identities over every run of accepted patches: a key is always of the kind of
its node, and siblings never share one, whatever a replacement installs. -/
namespace IdentityPaths

open FiniteMaps KeyedLists Methods KeyedOrder GraphState FragmentValidation GraphPatches
open FragmentTrees GraphForests GraphMounting GraphGrafts GraphReplacements KeyedStaging
open KeyedTransactions GraphLedgers GraphRuns GraphListings KeyedListings SiblingSegments
open GraphSegments GraphIdentities KeyedIdentities ElementIdentities PointerTrees Transitions

variable {K : Type} [DecidableEq K]

omit [DecidableEq K] in
/-- The key of `x` is one that a node of its kind can have among some siblings. -/
def OwnKey (g : MountedGraph K) (x : ℕ) : Prop := ∀ n s, g.node x = some n →
  g.cachedSegment x = some s → ∃ index occurrence, s = .of n index occurrence

/-- What holds of the keys in every run. -/
structure Distinguished (g : MountedGraph K) : Prop where
  own : ∀ x, OwnKey g x
  siblings : SiblingsApart g

section Lists

variable {g g' : MountedGraph K} {children : List ℕ} {x y : ℕ} {s : IdentitySegment}

omit [DecidableEq K] in
theorem segment_own {lookup : ℕ → Option (Node K)} {seen : Occurrences} {index : ℕ} {n : Node K}
    (hn : lookup x = some n) (h : (x, s) ∈ siblingSegments lookup seen index children) :
    ∃ i occurrence, s = .of n i occurrence := by
  induction children generalizing seen index with
  | nil => cases h
  | cons c rest ih =>
    cases hc : lookup c with
    | none =>
      rw [siblingSegments, hc] at h
      exact ih h
    | some m =>
      rw [segments_cons hc] at h
      rcases List.mem_cons.mp h with heq | h
      · obtain ⟨rfl, rfl⟩ := Prod.mk.inj heq
        obtain rfl := Option.some.inj (hn.symm.trans hc)
        exact ⟨_, _, rfl⟩
      · exact ih h

omit [DecidableEq K] in
theorem listed_key (listed : ∀ c s, (c, s) ∈ siblingSegments g.node ∅ 0 children →
    g.cachedSegment c = some s) (hx : x ∈ children) (known : (g.node x).isSome)
    (hs : g.cachedSegment x = some s) : (x, s) ∈ siblingSegments g.node ∅ 0 children := by
  obtain ⟨s', hmem⟩ := segment_exists g.node hx known ∅ 0
  rwa [Option.some.inj (hs.symm.trans (listed x s' hmem))]

omit [DecidableEq K] in
theorem listed_own (listed : ∀ c s, (c, s) ∈ siblingSegments g.node ∅ 0 children →
    g.cachedSegment c = some s) (hx : x ∈ children) : OwnKey g x := by
  intro n s hn hs
  exact segment_own hn (listed_key listed hx (by simp [hn]) hs)

omit [DecidableEq K] in
theorem once_mounted (exact : ExactIndices g) (a b i : ℕ)
    (ha : (g.node a).map (·.kind) = some (.boundary i))
    (hb : (g.node b).map (·.kind) = some (.boundary i)) : a = b :=
  Option.some.inj (((exact.boundaries i a).mpr ha).symm.trans ((exact.boundaries i b).mpr hb))

omit [DecidableEq K] in
theorem listed_apart (exact : ExactIndices g) (listed : ∀ c s,
    (c, s) ∈ siblingSegments g.node ∅ 0 children → g.cachedSegment c = some s)
    (hx : x ∈ children) (hy : y ∈ children) (known : (g.node x).isSome)
    (known' : (g.node y).isSome) (hxs : g.cachedSegment x = some s)
    (hys : g.cachedSegment y = some s) : x = y :=
  segments_distinct (once_mounted exact) (listed_key listed hx known hxs)
    (listed_key listed hy known' hys)

omit [DecidableEq K] in
theorem own_kept (kind : (g'.node x).map (·.kind) = (g.node x).map (·.kind))
    (segment : g'.cachedSegment x = g.cachedSegment x) (own : OwnKey g x) : OwnKey g' x := by
  intro n s hn hs
  rw [hn, Option.map_some, eq_comm, Option.map_eq_some_iff] at kind
  obtain ⟨m, hm, hkind⟩ := kind
  obtain ⟨index, occurrence, rfl⟩ := own m s hm (segment ▸ hs)
  exact ⟨index, occurrence, of_congr hkind _ _⟩

omit [DecidableEq K] in
theorem own_boundary {i : ℕ} (kind : (g.node x).map (·.kind) = some (.boundary i))
    (segment : g.cachedSegment x = some (.boundary i)) : OwnKey g x := by
  intro n s hn hs
  rw [hn, Option.map_some, Option.some.injEq] at kind
  obtain rfl := Option.some.inj (segment.symm.trans hs)
  exact ⟨0, 0, (of_boundary kind 0 0).symm⟩

omit [DecidableEq K] in
theorem boundary_of_own {i : ℕ} (own : OwnKey g x) (known : (g.node x).isSome)
    (hs : g.cachedSegment x = some (.boundary i)) :
    (g.node x).map (·.kind) = some (.boundary i) := by
  obtain ⟨n, hn⟩ := Option.isSome_iff_exists.mp known
  obtain ⟨index, occurrence, heq⟩ := own n _ hn hs
  rw [hn, Option.map_some, of_boundary_iff.mp heq.symm]

theorem node_known (hm : (forest g).Mounted x) : (g.node x).isSome := by
  rw [MountedGraph.node, Option.isSome_map]
  exact mounted_iff.mp hm

end Lists

section Edits

variable {g v : MountedGraph K} {removed : List ℕ} {nodes : List (Node K)} {frontier : Finset ℕ}
  {tops : List (ℕ × Option (ParentLocation K))} {site root : Option ℕ}

/-- What an edit has to leave of the keys. -/
structure Remarked (g v : MountedGraph K) (removed : List ℕ) (nodes : List (Node K))
    (tops : List (ℕ × Option (ParentLocation K))) (site : Option ℕ) : Prop where
  fresh : ∀ n ∈ nodes, ∀ c s, (c, s) ∈ siblingSegments v.node ∅ 0 n.children →
    v.cachedSegment c = some s
  kept : ∀ x, (forest g).Mounted x → x ∉ removed → x ∉ childIds nodes → x ∉ tops.map Prod.fst →
    (∀ p ∈ site, ¬(forest v).Child p x) → v.cachedSegment x = g.cachedSegment x
  own : ∀ p ∈ site, ∀ c, (forest v).Child p c → OwnKey v c
  apart : ∀ p ∈ site, ∀ c d s, (forest v).Child p c → (forest v).Child p d →
    v.cachedSegment c = some s → v.cachedSegment d = some s → c = d
  root : ∀ c, (c, none) ∈ tops → OwnKey v c

variable (e : Grafted g v removed nodes frontier tops site root) (h : Shape g)

include e h

theorem child_of_parent {x : ℕ} {l : ParentLocation K} (hp : v.parentLocation x = some l) :
    (forest v).Child l.parent x :=
  ⟨l, (e.shape h).linked.listed (mounted_iff.mpr (mounted_of_parent hp)) hp⟩

theorem remarked_own (d : Distinguished g) (m : Remarked g v removed nodes tops site) (x : ℕ) :
    OwnKey v x := by
  by_cases hsite : ∃ p ∈ site, (forest v).Child p x
  · obtain ⟨p, hp, hc⟩ := hsite
    exact m.own p hp x hc
  have top (hx : x ∈ tops.map Prod.fst) : OwnKey v x := by
    obtain ⟨⟨x, l⟩, htop, rfl⟩ := List.mem_map.mp hx
    cases l with
    | none => exact m.root x htop
    | some l =>
      exact absurd ⟨l.parent, e.graft.tops_site htop,
        child_of_parent e h (e.parent_top htop)⟩ hsite
  have child (hx : x ∈ childIds nodes) : OwnKey v x := by
    obtain ⟨n, hn, hc⟩ := mem_childIds.mp hx
    exact listed_own (m.fresh n hn) hc
  by_cases hx : x ∈ childIds nodes ∨ x ∈ tops.map Prod.fst
  · exact hx.elim child top
  intro n s hn hs
  rw [not_or] at hx
  have hm : (forest v).Mounted x := by
    rw [mounted_iff, ← Option.isSome_map (f := (·.node))]
    exact Option.isSome_of_eq_some hn
  rcases (e.mounted h x).mp hm with ⟨hm, hr⟩ | hid
  · refine own_kept (e.kind_kept h hm hr) ?_ (d.own x) n s hn hs
    exact m.kept x hm hr hx.1 hx.2 fun p hp hc => hsite ⟨p, hp, hc⟩
  · exact absurd (e.graft.placed x (.inl hid)) (not_or.mpr hx)

theorem remarked_siblings (exact : ExactIndices v) (d : Distinguished g)
    (m : Remarked g v removed nodes tops site) : SiblingsApart v := by
  intro x y l l' s hl hl' howner hx hy
  have shape := e.shape h
  have hcx := child_of_parent e h hl
  have hcy := child_of_parent e h hl'
  rw [← howner] at hcy
  by_cases hsite : site = some l.parent
  · exact m.apart _ hsite x y s hcx hcy hx hy
  have known {z : ℕ} (hc : (forest v).Child l.parent z) : (v.node z).isSome := by
    obtain ⟨_, hkid⟩ := hc
    exact node_known (shape.linked.placed hkid).1
  obtain ⟨kx, hkx⟩ := hcx
  obtain ⟨ky, hky⟩ := hcy
  rcases (e.mounted h l.parent).mp (mounted_of_kid hkx) with ⟨hm, hr⟩ | hid
  · have hkids := e.kids_kept h hm hr hsite
    rw [hkids] at hkx hky
    -- the children of a node that stays, other than the site, are left alone
    have kept {z : ℕ} {k : ParentLocation K} (hz : (z, k) ∈ (forest g).kids l.parent) :
        g.parentLocation z = some k ∧ v.cachedSegment z = g.cachedSegment z := by
      obtain ⟨hmz, hpz⟩ := h.linked.placed hz
      have hrz := kid_kept e h hr hsite hz
      obtain ⟨hchild, htop⟩ := kept_apart e h hmz fun k' hk' => by
        obtain rfl := Option.some.inj (hpz.symm.trans hk')
        rw [h.linked.owned hz]
        exact hr
      refine ⟨hpz, m.kept z hmz hrz hchild htop fun p hp hc => hsite ?_⟩
      have howner := child_unique shape.linked ⟨k, hkids.symm ▸ hz⟩ hc
      rwa [howner]
    obtain ⟨hpx, hsx⟩ := kept hkx
    obtain ⟨hpy, hsy⟩ := kept hky
    refine d.siblings x y _ _ s hpx hpy ?_ (hsx ▸ hx) (hsy ▸ hy)
    rw [h.linked.owned hkx, h.linked.owned hky]
  · obtain ⟨n, hn, hnid⟩ := List.mem_map.mp hid
    have listed {z : ℕ} {k : ParentLocation K} (hz : (z, k) ∈ (forest v).kids l.parent) :
        z ∈ n.children := by
      rw [← e.kids_fresh h hn, hnid]
      exact List.mem_map_of_mem (f := Prod.fst) hz
    exact listed_apart exact (m.fresh n hn) (listed hkx) (listed hky) (known ⟨kx, hkx⟩)
      (known ⟨ky, hky⟩) hx hy

theorem remarked_distinguished (exact : ExactIndices v) (d : Distinguished g)
    (m : Remarked g v removed nodes tops site) : Distinguished v :=
  ⟨remarked_own e h d m, remarked_siblings e h exact d m⟩

end Edits

section Replacing

variable {g v : MountedGraph K} {r : Replacement K} {plan : ReplacementPlan K}

theorem root_own (h : Shape g) (p : Planned r g plan)
    (e : Grafted g v plan.removedIds r.nodes plan.frontier [(r.root, plan.parentLocation)]
      (siteOf plan) (rootAfter r plan g)) (hplan : planReplacement r g = .ok plan)
    (segment : v.cachedSegment r.root = some plan.rootSegment) : OwnKey v r.root := by
  intro n s hn hs
  obtain ⟨outer, m, -, -, hm, hsegment, -⟩ := plan_scopes hplan
  have hkind := kind_of_lookup h p e p.fragment.root_listed hm
  rw [hn, Option.map_some, Option.some.injEq] at hkind
  obtain rfl := Option.some.inj (segment.symm.trans hs)
  unfold rootSegmentOf at hsegment
  split at hsegment
  · exact ⟨0, 0, (Except.ok.inj hsegment).symm.trans (of_congr hkind.symm 0 0)⟩
  · cases hname : m.kind.siblingName with
    | none =>
      rw [hname] at hsegment
      exact ⟨_, 0, (Except.ok.inj hsegment).symm.trans (of_congr hkind.symm _ _)⟩
    | some name =>
      simp only [hname] at hsegment
      obtain ⟨children, -, hrest⟩ := except_bind_ok.mp hsegment
      obtain ⟨count, -, heq⟩ := except_bind_ok.mp hrest
      exact ⟨_, count, (Except.ok.inj heq).symm.trans (of_congr hkind.symm _ _)⟩

theorem replacement_distinguished (h : Shape g) (exact : ExactIndices v) (d : Distinguished g)
    {a : GraphApply K} (hrun : (applyReplacement r).run g = .ok a v) : Distinguished v := by
  obtain ⟨plan, hplan, e⟩ := replacement_grafted h hrun
  have p := planned h hplan
  have shape := e.shape h
  have rekeyed := replacement_rekeyed h hplan hrun
  have kept (x : ℕ) (hx : (forest g).Mounted x) (hr : x ∉ plan.removedIds)
      (hc : x ∉ childIds r.nodes) (htop : x ∉ [(r.root, plan.parentLocation)].map Prod.fst)
      (hx' : ∀ q ∈ siteOf plan, ¬(forest v).Child q x) : v.cachedSegment x = g.cachedSegment x :=
    rekeyed.kept x hx hr hc (fun heq => htop (by simp [heq])) hx'
  refine remarked_distinguished e h exact d ?_
  rcases rekeyed.hung with ⟨still, keyed⟩ | ⟨location, hl, hagrees⟩
  · have own_root := root_own h p e hplan keyed.root
    -- the other children of the site are as they were
    have beside {q c : ℕ} (hq : q ∈ siteOf plan) (hc : (forest v).Child q c) (hne : c ≠ r.root) :
        c ∉ plan.removedIds ∧ (∃ l, g.parentLocation c = some l ∧ l.parent = q) ∧
          (v.node c).map (·.kind) = (g.node c).map (·.kind) ∧
          v.cachedSegment c = g.cachedSegment c := by
      obtain ⟨l, hkid⟩ := hc
      rcases (e.kids_site hq c l).mp hkid with htop | ⟨hold, hr⟩
      · exact absurd (Prod.mk.inj (List.mem_singleton.mp htop)).1 hne
      obtain ⟨hm, hp⟩ := h.linked.placed hold
      have howner := h.linked.owned hold
      obtain ⟨hchild, -⟩ := kept_apart e h hm fun l' hl' => by
        obtain rfl := Option.some.inj (hp.symm.trans hl')
        rw [howner]
        exact (e.graft.site_kept q hq).2
      exact ⟨hr, ⟨l, hp, howner⟩, e.kind_kept h hm hr, keyed.kept c hm hr hchild hne⟩
    -- a sibling with the key of the new root would have had the key of the old one
    have root_apart {q c : ℕ} {s : IdentitySegment} (hq : q ∈ siteOf plan)
        (hc : (forest v).Child q c) (hne : c ≠ r.root) (hs : v.cachedSegment c = some s)
        (hroot : v.cachedSegment r.root = some s) : False := by
      obtain ⟨hr, ⟨l, hp, howner⟩, -, hsame⟩ := beside hq hc hne
      obtain ⟨location, hl, rfl⟩ := Option.map_eq_some_iff.mp hq
      obtain ⟨old, before, after, hold, around⟩ := hung h hplan hrun hl
      obtain ⟨outer, m, -, -, -, -, -, hunchanged⟩ := plan_scopes hplan
      have hold_key : g.cachedSegment old = some plan.rootSegment := by
        have := hunchanged.mp (still.resolve_left (by simp [hl]))
        rwa [hold, Option.bind_some] at this
      have hkid : (old, location) ∈ (forest g).kids location.parent := by
        rw [around.was]
        exact List.mem_append_right _ List.mem_cons_self
      obtain rfl := Option.some.inj (keyed.root.symm.trans hroot)
      have heq := d.siblings c old l location _ hp (h.linked.placed hkid).2 howner
        (hsame.symm.trans hs) hold_key
      exact hr (heq ▸ old_removed p hold)
    refine ⟨rekeyed.fresh, kept, fun q hq c hc => ?_, fun q hq c c' s hc hc' hs hs' => ?_,
      fun c hc => ?_⟩
    · by_cases hne : c = r.root
      · exact hne ▸ own_root
      · obtain ⟨-, -, hkind, hsame⟩ := beside hq hc hne
        exact own_kept hkind hsame (d.own c)
    · by_cases hne : c = r.root
      · by_cases hne' : c' = r.root
        · rw [hne, hne']
        · exact (root_apart hq hc' hne' hs' (hne ▸ hs)).elim
      · by_cases hne' : c' = r.root
        · exact (root_apart hq hc hne hs (hne' ▸ hs')).elim
        · obtain ⟨-, ⟨l, hp, howner⟩, -, hsame⟩ := beside hq hc hne
          obtain ⟨-, ⟨l', hp', howner'⟩, -, hsame'⟩ := beside hq hc' hne'
          exact d.siblings c c' l l' s hp hp' (howner.trans howner'.symm) (hsame.symm.trans hs)
            (hsame'.symm.trans hs')
    · obtain ⟨rfl, -⟩ := Prod.mk.inj (List.mem_singleton.mp hc)
      exact own_root
  · have hsite : siteOf plan = some location.parent := by rw [siteOf, hl, Option.map_some]
    have listed {c : ℕ} (hc : (forest v).Child location.parent c) :
        c ∈ ((forest v).kids location.parent).map Prod.fst ∧ (v.node c).isSome := by
      obtain ⟨l, hkid⟩ := hc
      exact ⟨List.mem_map_of_mem (f := Prod.fst) hkid, node_known (shape.linked.placed hkid).1⟩
    refine ⟨rekeyed.fresh, kept, fun q hq c hc => ?_, fun q hq c c' s hc hc' hs hs' => ?_,
      fun c hc => ?_⟩
    · obtain rfl := Option.some.inj (hsite.symm.trans hq)
      exact listed_own hagrees (listed hc).1
    · obtain rfl := Option.some.inj (hsite.symm.trans hq)
      exact listed_apart exact hagrees (listed hc).1 (listed hc').1 (listed hc).2 (listed hc').2
        hs hs'
    · cases hl.symm.trans (Prod.mk.inj (List.mem_singleton.mp hc)).2.symm

end Replacing

section Runs

variable {g g' : MountedGraph K} {patch : Patch K} {container newRevision : ℕ}
  {hashOrder : Enumeration K (Option (KeyedChild K))} {baseRevision : ℕ}
  {operations : List (KeyedGraphOperation K)}

theorem keyed_distinguished (h : Shape g) (exact : ExactIndices g') (d : Distinguished g)
    {a : KeyedGraphApply K}
    (hrun : (applyKeyed hashOrder container baseRevision newRevision operations).run g =
      .ok a g') : Distinguished g' := by
  obtain ⟨entry, outer, prepared, j, hentry, -, -, hprepare, hcommit⟩ := apply_keyed_ok hrun
  obtain ⟨l₀, l, p, e⟩ := commit_grafted h hentry hprepare hcommit
  have restocked := commit_restocked h hentry p e hcommit
  have shape := e.shape h
  -- a child of the container is an old one, or a boundary with the key of one
  have split {c : ℕ} (hc : (forest g').Child container c) :
      (∃ l, g.parentLocation c = some l ∧ l.parent = container) ∧
        (g'.node c).map (·.kind) = (g.node c).map (·.kind) ∧
        g'.cachedSegment c = g.cachedSegment c ∨
      ∃ i, (g'.node c).map (·.kind) = some (.boundary i) ∧
        g'.cachedSegment c = some (.boundary i) := by
    obtain ⟨place, hkid⟩ := hc
    rcases (e.kids_site rfl c place).mp hkid with htop | ⟨hold, hr⟩
    · obtain ⟨f, hf, heq⟩ := List.mem_map.mp htop
      obtain ⟨i, hget, hplace⟩ := placeOf_eq p newRevision hf
      obtain ⟨child, hchild, hsegment⟩ := restocked.roots f hf
      have hi : i = child.instanceId := by
        have := (Prod.mk.inj hplace).2
        simp only [hchild, Option.map_some, Option.some.injEq, ParentLocation.keyed.injEq] at this
        exact this.2.2.symm
      rw [hplace] at heq
      obtain ⟨rfl, -⟩ := Prod.mk.inj heq
      exact .inr ⟨i, item_installed h p e hf hget, hi ▸ hsegment⟩
    · obtain ⟨hm, hp⟩ := h.linked.placed hold
      have hid : c ∉ ids (stagedNodes prepared.fragments) := fun hid =>
        fresh_not_mounted e h hid hm
      exact .inl ⟨⟨place, hp, h.linked.owned hold⟩, e.kind_kept h hm hr, restocked.kept c hr hid⟩
  have own {c : ℕ} (hc : (forest g').Child container c) : OwnKey g' c := by
    rcases split hc with ⟨-, hkind, hsame⟩ | ⟨i, hkind, hsegment⟩
    · exact own_kept hkind hsame (d.own c)
    · exact own_boundary hkind hsegment
  have boundary_apart {c c' i : ℕ} (hc : (forest g').Child container c)
      (hkind : (g'.node c').map (·.kind) = some (.boundary i))
      (hs : g'.cachedSegment c = some (.boundary i)) : c = c' := by
    obtain ⟨place, hkid⟩ := hc
    have known := node_known (shape.linked.placed hkid).1
    exact once_mounted exact c c' i (boundary_of_own (own ⟨place, hkid⟩) known hs) hkind
  refine remarked_distinguished e h exact d ⟨restocked.fresh, fun x hx hr _ _ _ =>
    restocked.kept x hr fun hid => fresh_not_mounted e h hid hx, fun q hq c hc => ?_,
    fun q hq c c' s hc hc' hs hs' => ?_, fun c hc => ?_⟩
  · obtain rfl := Option.some.inj hq
    exact own hc
  · obtain rfl := Option.some.inj hq
    rcases split hc with ⟨⟨l, hp, howner⟩, -, hsame⟩ | ⟨i, hkind, hsegment⟩
    · rcases split hc' with ⟨⟨l', hp', howner'⟩, -, hsame'⟩ | ⟨i, hkind, hsegment⟩
      · exact d.siblings c c' l l' s hp hp' (howner.trans howner'.symm) (hsame.symm.trans hs)
          (hsame'.symm.trans hs')
      · obtain rfl := Option.some.inj (hsegment.symm.trans hs')
        exact boundary_apart hc hkind hs
    · obtain rfl := Option.some.inj (hsegment.symm.trans hs)
      exact (boundary_apart hc' hkind hs').symm
  · obtain ⟨f, hf, heq⟩ := List.mem_map.mp hc
    obtain ⟨i, -, hplace⟩ := placeOf_eq p newRevision hf
    rw [hplace] at heq
    cases (Prod.mk.inj heq).2

theorem step_distinguished (h : Shape g) (idx : Indexed g) (d : Distinguished g)
    (step : (accepting K).Step g patch g') : Distinguished g' := by
  obtain ⟨hashOrder, a, hrun⟩ := step
  have exact := exact_indices (step_turnover h idx hrun).1
  cases patch with
  | mount root nodes => exact replacement_distinguished h exact d hrun
  | noChange => exact noChange_run hrun ▸ d
  | replace oldRoot root nodes => exact replacement_distinguished h exact d hrun
  | replaceRetaining oldRoot root nodes retainedRoots =>
    exact replacement_distinguished h exact d hrun
  | keyed container baseRevision newRevision operations =>
    obtain ⟨keyed, hkeyed⟩ := apply_keyed_run hrun
    exact keyed_distinguished h exact d hkeyed

omit [DecidableEq K] in
theorem distinguished_empty : Distinguished (.empty : MountedGraph K) := by
  refine ⟨fun x n s hn => ?_, fun x y l m s hl => ?_⟩
  · simp [MountedGraph.node, MountedGraph.empty] at hn
  · simp [MountedGraph.parentLocation, MountedGraph.empty] at hl

end Runs

end IdentityPaths
