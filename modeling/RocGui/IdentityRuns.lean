import RocGui.RuntimeIdentities
import RocGui.DialogRegions

/-! The identities of the runtime over its runs: what a patch brings up to date is what the whole
graph would be given again, unless the patch renumbers siblings that nobody visits. -/
namespace IdentityRuns

open FiniteMaps KeyedLists Methods KeyedOrder GraphState FragmentValidation GraphPatches
open FragmentTrees GraphForests GraphMounting GraphGrafts GraphReplacements KeyedTransactions
open KeyedStaging KeyedListings GraphRuns GraphIdentities ElementIdentities SiblingSegments
open FocusLandings RuntimeIdentities DialogRegions NodeForms PointerTrees Transitions

variable {K : Type} [DecidableEq K]

section Forests

variable {g : MountedGraph K} {q k x i : ℕ} {path : ElementIdentity}

theorem no_way_back (h : Shape g) (hchild : (forest g).Child q k) : ¬(forest g).Below k q := by
  intro hbelow
  have hlt := weight_child h.weighed hchild
  have hle := weight_below h.weighed hbelow
  omega

theorem children_apart (h : Shape g) (hx : (forest g).Child q x) (hk : (forest g).Child q k)
    (hbelow : (forest g).Below x k) : x = k := by
  rcases Relation.ReflTransGen.cases_tail hbelow with heq | ⟨b, hb, hchild⟩
  · exact heq.symm
  · obtain rfl := child_unique h.linked hk hchild
    exact absurd hb (no_way_back h hx)

theorem anchored_boundary (h : Shape g) (hkind : (g.node x).map (·.kind) = some (.boundary i)) :
    Anchored g x [.boundary i] := by
  obtain ⟨n, hn, hk⟩ := Option.map_eq_some_iff.mp hkind
  obtain ⟨path, hpath⟩ := anchored_exists h (mounted_node hn)
  cases hpath with
  | root hr hn' =>
    obtain rfl := Option.some.inj (hn.symm.trans hn')
    have hroot : Anchored g x _ := .root hr hn
    rwa [of_boundary hk] at hroot
  | under hp hkey =>
    have hx : Anchored g x _ := .under hp hkey
    rwa [segment_boundary hn hk hkey] at hx

end Forests

section Edits

variable {g v : MountedGraph K} {removed : List ℕ} {nodes : List (Node K)} {frontier : Finset ℕ}
  {tops : List (ℕ × Option (ParentLocation K))} {site root : Option ℕ} {b q x y : ℕ}
  {s : IdentitySegment} {m : FiniteMap ℕ ElementIdentity}

/-- A node that stays, with the identity it had. -/
structure Unmoved (g v : MountedGraph K) (removed : List ℕ) (x : ℕ) : Prop where
  kept : x ∉ removed
  path : ∃ path, Anchored g x path ∧ Anchored v x path

theorem get_forget : (forget removed m).get x = if x ∈ removed then none else m.get x := by
  induction removed generalizing m with
  | nil => rfl
  | cons id rest ih =>
    rw [forget, List.foldl_cons]
    refine ih.trans ?_
    by_cases hrest : x ∈ rest
    · rw [if_pos hrest, if_pos (List.mem_cons_of_mem _ hrest)]
    · by_cases hid : x = id
      · rw [if_neg hrest, if_pos (hid ▸ List.mem_cons_self), hid, FiniteMap.get_remove_self]
      · rw [if_neg hrest, FiniteMap.get_remove_ne _ hid,
          if_neg fun hmem => (List.mem_cons.mp hmem).elim hid hrest]

theorem unmoved_right (h : Shape g) (exact : Exact g m) (unmoved : Unmoved g v removed x) :
    Right v (forget removed m) x := by
  obtain ⟨path, hg, hv⟩ := unmoved.path
  obtain ⟨path', hpath', hget⟩ := exact.1 x (anchored_mounted h hg)
  obtain rfl := anchored_unique h hg hpath'
  exact ⟨path, hv, by rw [get_forget, if_neg unmoved.kept, hget]⟩

variable (e : Grafted g v removed nodes frontier tops site root) (h : Shape g)

include e h

theorem forgotten (exact : Exact g m) (hx : ¬(forest v).Mounted x) :
    (forget removed m).get x = none := by
  rw [get_forget]
  split
  · rfl
  · rename_i hkept
    exact exact.2 x fun hm => hx ((e.mounted h x).mpr (.inl ⟨hm, hkept⟩))

theorem key_kept (hm : (forest g).Mounted b) (hr : b ∉ removed) (hs : site ≠ some b)
    (hkey : KeyOf v b x s) : KeyOf g b x s ∧ x ∉ removed := by
  have hkids := e.kids_kept h hm hr hs
  have kid {d : ℕ} (hd : d ∈ ((forest g).kids b).map Prod.fst) : ∃ l, (d, l) ∈ (forest g).kids b := by
    obtain ⟨⟨d, l⟩, hmem, rfl⟩ := List.mem_map.mp hd
    exact ⟨l, hmem⟩
  rw [KeyOf, hkids] at hkey
  obtain ⟨l, hkid⟩ := kid (mem_children hkey)
  refine ⟨?_, kid_kept e h hr hs hkid⟩
  rwa [segments_congr fun d hd => ?_] at hkey
  obtain ⟨l, hkid⟩ := kid hd
  exact kind_of_kept e h (h.linked.placed hkid).1 (kid_kept e h hr hs hkid)

theorem unmoved_child (unmoved : Unmoved g v removed b) (hs : site ≠ some b)
    (hchild : (forest v).Child b x) : Unmoved g v removed x := by
  obtain ⟨path, hg, hv⟩ := unmoved.path
  obtain ⟨s, hs'⟩ := key_exists (e.shape h) hchild
  obtain ⟨hkey, hkept⟩ := key_kept e h (anchored_mounted h hg) unmoved.kept hs hs'
  exact ⟨hkept, _, .under hg hkey, .under hv hs'⟩

theorem unmoved_below (unmoved : Unmoved g v removed b) (away : ∀ q ∈ site, ¬(forest v).Below b q)
    (hbelow : (forest v).Below b x) : Unmoved g v removed x := by
  induction hbelow with
  | refl => exact unmoved
  | @tail y x hby hchild ih => exact unmoved_child e h ih (fun hs => away y hs hby) hchild

variable (placed : ∀ q ∈ site, ∀ c, (c, none) ∉ tops)

/-- A node that is kept while its parent goes is a boundary, and begins anew. -/
theorem frontier_unmoved {c i : ℕ} (hc : c ∈ frontier)
    (hkind : (g.node c).map (·.kind) = some (.boundary i)) : Unmoved g v removed c := by
  obtain ⟨hm, hkept, -⟩ := e.graft.kept c hc
  have hkind' := (e.kind_kept h hm hkept).trans hkind
  exact ⟨hkept, _, anchored_boundary h hkind, anchored_boundary (e.shape h) hkind'⟩

include placed

theorem frontier_away {c : ℕ} (hc : c ∈ frontier) : ∀ q ∈ site, ¬(forest v).Below c q := by
  intro q hq hcq
  have hqc := below_site e h placed hq (.inr hc)
  rcases Relation.ReflTransGen.cases_head hqc with rfl | ⟨b, hchild, hbc⟩
  · exact e.graft.site_apart q hq hc
  · exact no_way_back (e.shape h) hchild (hbc.trans hcq)

theorem root_unmoved (hq : site = some q) {r : ℕ} (hr : v.root = some r) :
    g.root = some r ∧ Unmoved g v removed r := by
  have shape := e.shape h
  rw [e.root] at hr
  rcases e.graft.root_placed r hr with htop | ⟨hroot, hkept⟩
  · exact absurd htop (placed q hq r)
  · obtain ⟨n, hn⟩ := node_exists (h.linked.rooted r hroot).1
    have hkind := e.kind_kept h (h.linked.rooted r hroot).1 hkept
    rw [hn, Option.map_some, Option.map_eq_some_iff] at hkind
    obtain ⟨n', hn', hkind⟩ := hkind
    have hv : Anchored v r _ := .root (e.root.trans hr) hn'
    rw [of_congr hkind] at hv
    exact ⟨hroot, hkept, _, .root hroot hn, hv⟩

/-- Every node is unmoved, or lies below a child of the site. -/
theorem unmoved_or_below (hq : site = some q) (hm : (forest v).Mounted x) :
    Unmoved g v removed x ∨ ∃ k, (forest v).Child q k ∧ (forest v).Below k x := by
  have shape := e.shape h
  obtain ⟨r, hr, hbelow⟩ := reached shape.linked shape.weighed (finite_mounted v) hm
  clear hm
  induction hbelow with
  | refl => exact .inl (root_unmoved e h placed hq hr).2
  | @tail y x _ hchild ih =>
    rcases ih with unmoved | ⟨k, hk, hky⟩
    · by_cases hs : site = some y
      · obtain rfl := Option.some.inj (hq.symm.trans hs)
        exact .inr ⟨x, hchild, .refl⟩
      · exact .inl (unmoved_child e h unmoved hs hchild)
    · exact .inr ⟨k, hk, hky.tail hchild⟩

theorem site_unmoved (hq : site = some q) : Unmoved g v removed q := by
  obtain ⟨hm, hkept⟩ := e.graft.site_kept q hq
  rcases unmoved_or_below e h placed hq ((e.mounted h q).mpr (.inl ⟨hm, hkept⟩)) with
    unmoved | ⟨k, hchild, hbelow⟩
  · exact unmoved
  · exact absurd hbelow (no_way_back (e.shape h) hchild)

omit placed in
theorem sibling_unmoved (hq : site = some q) (unmoved : Unmoved g v removed q)
    (hv : KeyOf v q b s) (hg : KeyOf g q b s) (hr : b ∉ removed) (hbelow : (forest v).Below b x) :
    Unmoved g v removed x := by
  obtain ⟨path, hpath, hpath'⟩ := unmoved.path
  refine unmoved_below e h ⟨hr, _, .under hpath hg, .under hpath' hv⟩ (fun p hp => ?_) hbelow
  obtain rfl := Option.some.inj (hq.symm.trans hp)
  exact no_way_back (e.shape h) (key_child hv)

end Edits

section System

structure Runtime (K : Type) where
  graph : MountedGraph K
  identities : FiniteMap ℕ ElementIdentity

/-- A patch, with the order in which the host iterates a map while it applies it. -/
abbrev Delivery (K : Type) [DecidableEq K] := Enumeration K (Option (KeyedChild K)) × Patch K

def running (K : Type) [DecidableEq K] : System (Runtime K) (Delivery K) where
  initial := ⟨.empty, ∅⟩
  Step rt d rt' := ∃ a, (apply d.1 d.2).run rt.graph = .ok a rt'.graph ∧
    applyToGpui rt'.graph a rt.identities = .ok rt'.identities

def keysBelow (g : MountedGraph K) (p : ℕ) : List (ℕ × IdentitySegment) :=
  ((g.childSegments p : Except (Failure Empty) _).toOption).getD []

/-- The children of `p` have the keys they had, apart from a new one. -/
def KeysCarried (g v : MountedGraph K) (p : ℕ) (fresh : Option ℕ) : Prop :=
  ∀ key ∈ keysBelow v p, some key.1 = fresh ∨ key ∈ keysBelow g p

instance (g v : MountedGraph K) (p : ℕ) (fresh : Option ℕ) : Decidable (KeysCarried g v p fresh) :=
  inferInstanceAs (Decidable (∀ key ∈ keysBelow v p, _))

/-- A keyed patch mounts nothing and renumbers no item; nor does a replacement whose new root is a
boundary renumber its siblings. -/
def Steady (g : MountedGraph K) (a : GraphApply K) (v : MountedGraph K) : Prop :=
  if a.facts.kind = "keyed" then a.stagedIds = [] ∧ ∀ p ∈ a.root, KeysCarried g v p none
  else ∀ parent ∈ a.parent, ∀ root ∈ a.root, (boundaryKey v a).isSome →
    KeysCarried g v parent.1 (some root)

def SteadyDelivery (rt : Runtime K) (d : Delivery K) : Prop :=
  ∀ a v, (apply d.1 d.2).run rt.graph = .ok a v → Steady rt.graph a v

/-- The map has one entry for each mounted node, the one that the recomputation gives it. -/
def IdentitiesExact (rt : Runtime K) : Prop :=
  elementIdentities rt.graph = .ok rt.identities ∧
    ∀ id, (rt.identities.get id).isSome ↔ (rt.graph.nodes.get id).isSome

end System

section Carrying

variable {g v : MountedGraph K} {p k : ℕ} {s : IdentitySegment}

theorem mem_keysBelow (h : Shape g) : (k, s) ∈ keysBelow g p ↔ KeyOf g p k s := by
  by_cases hm : (forest g).Mounted p
  · rw [keysBelow, child_segments_eq h hm]
    exact Iff.rfl
  · have hnode : g.node p = none := by
      rw [MountedGraph.node, Option.map_eq_none_iff]
      rwa [mounted_iff, Option.not_isSome_iff_eq_none] at hm
    rw [keysBelow, MountedGraph.childSegments, hnode]
    refine iff_of_false List.not_mem_nil fun hkey => hm ?_
    obtain ⟨l, hkid⟩ := key_child hkey
    exact mounted_of_kid hkid

theorem carried_key (h' : Shape v) (h : Shape g) {fresh : ℕ} (carried : KeysCarried g v p (some fresh))
    (hkey : KeyOf v p k s) (hne : k ≠ fresh) : KeyOf g p k s := by
  rcases carried _ ((mem_keysBelow h').mpr hkey) with heq | hold
  · exact absurd (Option.some.inj heq) hne
  · exact (mem_keysBelow h).mp hold

end Carrying

section Replacing

variable {g v : MountedGraph K} {r : Replacement K} {plan : ReplacementPlan K} {a : GraphApply K}
  {q : ℕ} {path : ElementIdentity} {m : FiniteMap ℕ ElementIdentity}

/-- What a replacement tells the runtime. -/
structure Told (g : MountedGraph K) (r : Replacement K) (plan : ReplacementPlan K) (a : GraphApply K) :
    Prop where
  kind : a.facts.kind ≠ "no_change" ∧ a.facts.kind ≠ "keyed"
  root : a.root = some r.root
  staged : a.stagedIds = ids r.nodes
  removed : a.removedIds = plan.removedIds
  parent : a.parent = plan.parentLocation.map attachment
  retained : ∀ c ∈ a.retainedRoots, c ∈ plan.frontier
  retired : a.retiredRoot = true → r.oldRoot = g.root

omit [DecidableEq K] in
theorem retained_in_frontier {frontier frontier' : Finset ℕ} {count count' : ℕ} {retained : List ℕ}
    {old : Option ℕ} (hrun : checkRetained g old frontier count retained = .ok (frontier', count')) :
    frontier ⊆ frontier' ∧ ∀ c ∈ retained, c ∈ frontier' := by
  induction retained generalizing frontier count with
  | nil =>
    obtain ⟨rfl, -⟩ := Prod.mk.inj (Except.ok.inj hrun)
    exact ⟨Finset.Subset.refl _, nofun⟩
  | cons id rest ih =>
    rw [checkRetained] at hrun
    split at hrun
    · cases hrun
    split at hrun
    · cases hrun
    split at hrun
    · split at hrun
      · cases hrun
      · obtain ⟨hsub, hrest⟩ := ih hrun
        refine ⟨(Finset.subset_insert id frontier).trans hsub, fun c hc => ?_⟩
        rcases List.mem_cons.mp hc with rfl | hc
        · exact hsub (Finset.mem_insert_self _ _)
        · exact hrest c hc
    · cases hrun

theorem replacement_told (hrun : (applyReplacement r).run g = .ok a v) :
    ∃ plan, planReplacement r g = .ok plan ∧ Told g r plan a := by
  simp only [applyReplacement, commitReplacement, bind_ok, get_ok, query_run_ok, pure_ok] at hrun
  obtain ⟨_, _, ⟨rfl, rfl⟩, plan, _, ⟨hplan, rfl⟩, _, _, ⟨rfl, rfl⟩, carried, g0, -, ended, g1, -,
    _, g2, -, _, _, ⟨rfl, rfl⟩, rfl, rfl⟩ := hrun
  refine ⟨plan, hplan, ⟨?_, rfl, rfl, rfl, ?_, ?_, fun hretired => (of_decide_eq_true hretired).1⟩⟩
  · by_cases hold : r.oldRoot.isSome
    · simp [hold]
    · simp [hold]
  · obtain ⟨-, outer, -, hparent, -⟩ := plan_checks hplan
    exact hparent
  · simp only [planReplacement, reject_guard_ok, except_bind_ok, not_not] at hplan
    obtain ⟨_, -, ⟨frontier, retainedNodes⟩, hretained, ⟨removedIds, found⟩, -, -, owner, -,
      validated, -, _, -, outer, -, node, -, segment, -, _, -, heq⟩ := hplan
    cases heq
    exact (retained_in_frontier hretained).2

omit [DecidableEq K] in
theorem attachment_parent (l : ParentLocation K) : (attachment l).1 = l.parent := by
  cases l <;> rfl

theorem root_cached (h : Shape g) (hplan : planReplacement r g = .ok plan)
    (hrun : (applyReplacement r).run g = .ok a v) :
    ∃ s, v.cachedSegment r.root = some s ∧ Telling v r.root s := by
  obtain ⟨plan', hplan', e⟩ := replacement_grafted h hrun
  obtain rfl := Except.ok.inj (hplan.symm.trans hplan')
  have p := planned h hplan
  rcases (replacement_rekeyed h hplan hrun).hung with ⟨-, keyed⟩ | ⟨l, hl, agrees⟩
  · obtain ⟨outer, n, -, -, hn, hsegment, -⟩ := plan_scopes hplan
    have hkind := kind_of_lookup h p e p.fragment.root_listed hn
    have hof : ∃ i a, plan.rootSegment = .of n i a := by
      unfold rootSegmentOf at hsegment
      split at hsegment
      · exact ⟨0, 0, (Except.ok.inj hsegment).symm⟩
      · dsimp only at hsegment
        split at hsegment
        · obtain ⟨children, -, hsegment⟩ := except_bind_ok.mp hsegment
          obtain ⟨occurrence, -, hsegment⟩ := except_bind_ok.mp hsegment
          exact ⟨_, occurrence, (Except.ok.inj hsegment).symm⟩
        · exact ⟨_, 0, (Except.ok.inj hsegment).symm⟩
    obtain ⟨i, occurrence, hof⟩ := hof
    refine ⟨_, keyed.root, fun j => ?_⟩
    rw [hkind, Option.some.injEq, hof, of_boundary_iff]
  · have hplace := e.parent_top (List.mem_singleton.mpr (hl ▸ rfl) :
      (r.root, some l) ∈ [(r.root, plan.parentLocation)])
    have hchild : (forest v).Child l.parent r.root :=
      ⟨l, (e.shape h).linked.listed (mounted_iff.mpr (mounted_of_parent hplace)) hplace⟩
    obtain ⟨s, hs⟩ := key_exists (e.shape h) hchild
    exact ⟨s, agrees _ _ hs, telling_key hs⟩

theorem root_refreshed (h : Shape g) (formed : Formed v) (exact : Exact g m)
    (hplan : planReplacement r g = .ok plan) (hrun : (applyReplacement r).run g = .ok a v)
    (told : Told g r plan a) (hl : plan.parentLocation = none) :
    ∃ m', refreshIdentities v a m = .ok m' ∧ Exact v m' := by
  obtain ⟨plan', hplan', e⟩ := replacement_grafted h hrun
  obtain rfl := Except.ok.inj (hplan.symm.trans hplan')
  have shape := e.shape h
  have hr : v.root = some r.root := by rw [e.root, rootAfter, hl, Option.isSome_none, if_neg Bool.false_ne_true]
  obtain ⟨n, hn⟩ := node_exists (shape.linked.rooted _ hr).1
  obtain ⟨entry, he, rfl⟩ := entry_of_node hn
  have hid := formed.named _ _ he
  have hsite : siteOf plan = none := by rw [siteOf, hl, Option.map_none]
  have kept : ∀ c ∈ a.retainedRoots, ∀ y, (forest v).Below c y →
      Right v (forget a.removedIds m) y := by
    intro c hc y hbelow
    have hf := told.retained c hc
    obtain ⟨old, i, hold, hkind⟩ := (plan_checks hplan).1 c hf
    have unmoved : Unmoved g v plan.removedIds c := frontier_unmoved e h hf (by
      rw [MountedGraph.node, hold]
      exact congrArg some hkind)
    rw [told.removed]
    exact unmoved_right h exact (unmoved_below e h unmoved (by simp [hsite]) hbelow)
  obtain ⟨m', hm', exact'⟩ := refresh_from_root shape hr hn kept fun x hx =>
    told.removed ▸ forgotten e h exact hx
  refine ⟨m', ?_, exact'⟩
  have habove : parentIdentity a (forget a.removedIds m) = none := by
    rw [parentIdentity, told.parent, hl]
    split
    · rename_i heq
      cases heq
    · rfl
  rw [refreshIdentities, habove, told.root]
  dsimp only [Option.bind]
  rw [hn]
  dsimp only
  rw [refresh, hid]
  exact hm'

theorem child_refreshed (h : Shape v) (hq : Anchored v q path) {k : ℕ} {s : IdentitySegment}
    (hkey : KeyOf v q k s)
    (kept : ∀ c ∈ a.retainedRoots, ∀ y, (forest v).Below c y → Right v m y) :
    ∃ m', refresh v a k s path m = .ok m' ∧ Refreshed v [k] m m' := by
  have hk : Anchored v k (extend path s) := .under hq hkey
  refine refresh_walk h kept (fun t ht => ?_) ?_
  · obtain rfl := List.mem_singleton.mp ht
    exact hk
  · rw [List.map_singleton, load, List.map_singleton, List.sum_singleton, MountedGraph.climb]
    exact (weight_le_size h (anchored_mounted h hk)).trans (Nat.le_succ _)

/-- The loop over the children skips a child only if all that is below it is right. -/
theorem children_refreshed (h : Shape v) (hq : Anchored v q path) {todo : List (ℕ × IdentitySegment)}
    (hkeys : ∀ t ∈ todo, KeyOf v q t.1 t.2) (distinct : (todo.map Prod.fst).Nodup)
    (kept : ∀ c ∈ a.retainedRoots, ∀ y, (forest v).Below c y → Right v m y)
    (skips : ∀ t ∈ todo, settled a m t.1 t.2 → ∀ y, (forest v).Below t.1 y → Right v m y) :
    ∃ m', refreshChildren v a path todo m = .ok m' ∧ Refreshed v (todo.map Prod.fst) m m' := by
  induction todo generalizing m with
  | nil => exact ⟨m, rfl, fun _ hy => hy, fun _ _ => rfl, nofun⟩
  | cons t todo ih =>
    obtain ⟨k, s⟩ := t
    have hk : KeyOf v q k s := hkeys _ List.mem_cons_self
    rw [List.map_cons, List.nodup_cons] at distinct
    obtain ⟨m1, hm1, first⟩ : ∃ m1, (if settled a m k s then .ok m else refresh v a k s path m) =
        (.ok m1 : Reading K _) ∧ Refreshed v [k] m m1 := by
      by_cases hskip : settled a m k s
      · refine ⟨m, if_pos hskip, fun _ hy => hy, fun _ _ => rfl, fun x hx y hbelow => ?_⟩
        obtain rfl := List.mem_singleton.mp hx
        exact skips _ List.mem_cons_self hskip y hbelow
      · obtain ⟨m1, hm1, first⟩ := child_refreshed h hq hk kept
        exact ⟨m1, (if_neg hskip).trans hm1, first⟩
    have hsame (u) (hu : u ∈ todo) : m1.get u.1 = m.get u.1 := by
      refine first.apart u.1 fun x hx hbelow => distinct.1 ?_
      obtain rfl := List.mem_singleton.mp hx
      have hku := key_child (hkeys u (List.mem_cons_of_mem _ hu))
      exact List.mem_map.mpr ⟨u, hu, (children_apart h (key_child hk) hku hbelow).symm⟩
    obtain ⟨m', hm', rest⟩ := ih (fun u hu => hkeys u (List.mem_cons_of_mem _ hu)) distinct.2
      (fun c hc y hbelow => first.kept y (kept c hc y hbelow))
      (fun u hu hskip y hbelow => first.kept y <|
        skips u (List.mem_cons_of_mem _ hu) ⟨hskip.1, hsame u hu ▸ hskip.2⟩ y hbelow)
    refine ⟨m', ?_, fun y hy => rest.kept y (first.kept y hy), fun y hy => ?_, fun x hx y hbelow => ?_⟩
    · have hrun : refreshChildren v a path ((k, s) :: todo) m =
          (if settled a m k s then .ok m else refresh v a k s path m) >>=
            refreshChildren v a path todo := by
        rw [refreshChildren]
        split <;> rfl
      rw [hrun, hm1]
      exact hm'
    · rw [rest.apart y fun x hx => hy x (List.mem_cons_of_mem _ hx),
        first.apart y fun x hx => hy x (List.mem_singleton.mp hx ▸ List.mem_cons_self)]
    · rcases List.mem_cons.mp hx with rfl | hx
      · exact rest.kept y (first.below _ List.mem_cons_self y hbelow)
      · exact rest.below x hx y hbelow

/-- What is known of the identities when the new root hangs below a parent, before any is
refreshed: the parent has its own, and so has each node that is not below one of its children. -/
structure Hanging (g v : MountedGraph K) (root : ℕ) (a : GraphApply K) (q : ℕ)
    (path : ElementIdentity) (m : FiniteMap ℕ ElementIdentity) : Prop where
  anchored : Anchored v q path
  above : parentIdentity a m = some (q, path)
  child : (forest v).Child q root
  staged : root ∈ a.stagedIds ∨ ∃ i, (v.node root).map (·.kind) = some (.boundary i)
  retained : ∀ c ∈ a.retainedRoots, ∀ y, (forest v).Below c y → Right v m y
  covered : ∀ x, (forest v).Mounted x → Right v m x ∨ ∃ k, (forest v).Child q k ∧ (forest v).Below k x
  clean : ∀ x, ¬(forest v).Mounted x → m.get x = none
  keyed : ∀ k, (forest v).Child q k → k ≠ root →
    ∃ s, KeyOf g q k s ∧ m.get k = some (extend path s)
  sibling : ∀ k s, KeyOf v q k s → k ≠ root → KeyOf g q k s → ∀ y, (forest v).Below k y → Right v m y

theorem hanging (h : Shape g) (exact : Exact g m)
    (hplan : planReplacement r g = .ok plan) (hrun : (applyReplacement r).run g = .ok a v)
    (told : Told g r plan a) {l : ParentLocation K} (hl : plan.parentLocation = some l) :
    ∃ path, Hanging g v r.root a l.parent path (forget a.removedIds m) := by
  obtain ⟨plan', hplan', e⟩ := replacement_grafted h hrun
  obtain rfl := Except.ok.inj (hplan.symm.trans hplan')
  have p := planned h hplan
  have shape := e.shape h
  have hq : siteOf plan = some l.parent := by rw [siteOf, hl, Option.map_some]
  have placed : ∀ q ∈ siteOf plan, ∀ c, (c, none) ∉ [(r.root, plan.parentLocation)] := by
    intro q _ c hc
    cases hl.symm.trans (Prod.mk.inj (List.mem_singleton.mp hc)).2.symm
  have hsite := site_unmoved e h placed hq
  have hright (x : ℕ) (unmoved : Unmoved g v plan.removedIds x) :
      Right v (forget a.removedIds m) x := told.removed ▸ unmoved_right h exact unmoved
  have hboundary (c : ℕ) (hc : c ∈ plan.frontier) :
      ∃ i, (g.node c).map (·.kind) = some (.boundary i) := by
    obtain ⟨old, i, hold, hkind⟩ := (plan_checks hplan).1 c hc
    exact ⟨i, by rw [MountedGraph.node, hold]; exact congrArg some hkind⟩
  -- a child of the parent is the new root, or was one of its children before
  have hkid (k : ℕ) (hchild : (forest v).Child l.parent k) (hne : k ≠ r.root) :
      (forest g).Child l.parent k ∧ k ∉ plan.removedIds := by
    obtain ⟨l', hkid⟩ := hchild
    rcases (e.kids_site hq k l').mp hkid with htop | ⟨hold, hkept⟩
    · exact absurd (Prod.mk.inj (List.mem_singleton.mp htop)).1 hne
    · exact ⟨⟨l', hold⟩, hkept⟩
  obtain ⟨path, hpath_g, hpath⟩ := hsite.path
  have hget : (forget a.removedIds m).get l.parent = some path := by
    obtain ⟨path', hpath', hget⟩ := hright _ hsite
    rw [hget, anchored_unique shape hpath' hpath]
  refine ⟨path, hpath, ?_, ?_, ?_, ?_, ?_, fun x hx => told.removed ▸ forgotten e h exact hx, ?_, ?_⟩
  · have hretired : a.retiredRoot = false := by
      rw [Bool.eq_false_iff]
      intro hretired
      obtain ⟨old, hold, hplace⟩ := Option.bind_eq_some_iff.mp (p.location.symm.trans hl)
      have hroot := (told.retired hretired).symm.trans hold
      cases (h.linked.rooted old hroot).2.symm.trans hplace
    rw [parentIdentity, hretired, told.parent, hl, Option.map_some]
    dsimp only
    rw [attachment_parent, hget]
    rfl
  · have hplace := e.parent_top (List.mem_singleton.mpr (hl ▸ rfl) :
      (r.root, some l) ∈ [(r.root, plan.parentLocation)])
    exact ⟨l, shape.linked.listed (mounted_iff.mpr (mounted_of_parent hplace)) hplace⟩
  · rw [told.staged]
    refine p.fragment.root_listed.imp_right fun hf => ?_
    obtain ⟨i, hkind⟩ := hboundary _ hf
    obtain ⟨hm, hkept, -⟩ := e.graft.kept _ hf
    exact ⟨i, (e.kind_kept h hm hkept).trans hkind⟩
  · intro c hc y hbelow
    have hf := told.retained c hc
    obtain ⟨i, hkind⟩ := hboundary c hf
    exact hright y (unmoved_below e h (frontier_unmoved e h hf hkind) (frontier_away e h placed hf) hbelow)
  · exact fun x hx => (unmoved_or_below e h placed hq hx).imp_left (hright x)
  · intro k hchild hne
    obtain ⟨hold, hkept⟩ := hkid k hchild hne
    obtain ⟨s, hs⟩ := key_exists h hold
    have hk : Anchored g k (extend path s) := .under hpath_g hs
    obtain ⟨path', hpath', hget'⟩ := exact.1 k (anchored_mounted h hk)
    refine ⟨s, hs, ?_⟩
    rw [told.removed, get_forget, if_neg hkept, hget', anchored_unique h hpath' hk]
  · intro k s hv hne hg y hbelow
    exact hright y (sibling_unmoved e h hq hsite hv hg (hkid k (key_child hv) hne).2 hbelow)

section Hung

variable {top : ℕ} (shape : Shape v) (hang : Hanging g v top a q path m)

include shape hang

theorem hanging_exact {m' : FiniteMap ℕ ElementIdentity} {tops : List ℕ}
    (done : Refreshed v tops m m') (htops : ∀ k ∈ tops, (forest v).Child q k)
    (others : ∀ k, (forest v).Child q k → k ∉ tops → ∀ y, (forest v).Below k y → Right v m y) :
    Exact v m' := by
  refine ⟨fun x hx => ?_, fun x hx => ?_⟩
  · rcases hang.covered x hx with hright | ⟨k, hchild, hbelow⟩
    · exact done.kept x hright
    · by_cases hk : k ∈ tops
      · exact done.below k hk x hbelow
      · exact done.kept x (others k hchild hk x hbelow)
  · rw [done.apart x fun k hk hbelow => ?_, hang.clean x hx]
    obtain ⟨l, hkid⟩ := htops k hk
    exact hx (mounted_below shape (shape.linked.placed hkid).1 hbelow)

/-- A new root that is a boundary: only what is below it is refreshed. -/
theorem boundary_refreshed (h : Shape g) {i : ℕ} (hkind : (v.node top).map (·.kind) = some (.boundary i))
    (carried : KeysCarried g v q (some top)) :
    ∃ m', refresh v a top (.boundary i) path m = .ok m' ∧ Exact v m' := by
  obtain ⟨s, hs⟩ := key_exists shape hang.child
  obtain rfl := (telling_key hs i).mp hkind
  obtain ⟨m', hm', done⟩ := child_refreshed shape hang.anchored hs hang.retained
  refine ⟨m', hm', hanging_exact shape hang done (fun k hk => List.mem_singleton.mp hk ▸ hang.child) ?_⟩
  intro k hchild hk y hbelow
  have hne : k ≠ top := fun heq => hk (heq ▸ List.mem_singleton_self top)
  obtain ⟨s, hs⟩ := key_exists shape hchild
  refine hang.sibling k s hs hne (carried_key shape h carried hs hne) y hbelow

theorem others_refreshed (plain : ∀ i, (v.node top).map (·.kind) ≠ some (.boundary i)) :
    ∃ m', refreshChildren v a path
        (siblingSegments v.node ∅ 0 (((forest v).kids q).map Prod.fst)) m = .ok m' ∧ Exact v m' := by
  have hskips : ∀ t ∈ siblingSegments v.node ∅ 0 (((forest v).kids q).map Prod.fst),
      settled a m t.1 t.2 → ∀ y, (forest v).Below t.1 y → Right v m y := by
    rintro ⟨k, s⟩ hkey ⟨hstaged, hlast⟩ y hbelow
    have hne : k ≠ top := by
      rintro rfl
      rcases hang.staged with hmem | ⟨i, hkind⟩
      · exact hstaged hmem
      · exact plain i hkind
    obtain ⟨s', hs', hget⟩ := hang.keyed k (key_child hkey) hne
    rw [hget, Option.bind_some, extend_last, Option.some.injEq] at hlast
    obtain rfl : s' = s := hlast
    exact hang.sibling k s' hkey hne hs' y hbelow
  obtain ⟨m', hm', done⟩ := children_refreshed shape hang.anchored (fun t ht => ht)
    (keys_distinct shape) hang.retained hskips
  refine ⟨m', hm', hanging_exact shape hang done (fun k hk => ?_) fun k hchild hk => ?_⟩
  · obtain ⟨t, ht, rfl⟩ := List.mem_map.mp hk
    exact key_child ht
  · obtain ⟨s, hs⟩ := key_exists shape hchild
    exact absurd (List.mem_map_of_mem hs) hk

end Hung

omit [DecidableEq K] in
theorem boundary_key_some {x i : ℕ} (hroot : a.root = some x)
    (hcached : v.cachedSegment x = some (.boundary i)) :
    boundaryKey v a = some (x, .boundary i) := by
  rw [boundaryKey, hroot]
  dsimp only
  rw [hcached]

omit [DecidableEq K] in
theorem boundary_key_none {x : ℕ} {s : IdentitySegment} (hroot : a.root = some x)
    (hcached : v.cachedSegment x = some s) (plain : ∀ i, s ≠ .boundary i) :
    boundaryKey v a = none := by
  rw [boundaryKey, hroot]
  dsimp only
  rw [hcached]
  cases s with
  | boundary i => exact absurd rfl (plain i)
  | named tag name occurrence => rfl
  | positional tag index => rfl

theorem replacement_refreshed (h : Shape g) (formed : Formed v) (exact : Exact g m)
    (hrun : (applyReplacement r).run g = .ok a v) (steady : Steady g a v) :
    ∃ m', applyToGpui v a m = .ok m' ∧ Exact v m' := by
  obtain ⟨plan, hplan, told⟩ := replacement_told hrun
  rw [applyToGpui, if_neg told.kind.1, if_neg told.kind.2]
  cases hl : plan.parentLocation with
  | none => exact root_refreshed h formed exact hplan hrun told hl
  | some l =>
    obtain ⟨plan', hplan', e⟩ := replacement_grafted h hrun
    obtain rfl := Except.ok.inj (hplan.symm.trans hplan')
    have shape := e.shape h
    obtain ⟨path, hang⟩ := hanging h exact hplan hrun told hl
    obtain ⟨s, hcached, htells⟩ := root_cached h hplan hrun
    rw [refreshIdentities, hang.above]
    dsimp only
    rw [child_segments_eq shape (anchored_mounted shape hang.anchored)]
    by_cases hboundary : ∃ i, s = .boundary i
    · obtain ⟨i, rfl⟩ := hboundary
      have hkey := boundary_key_some told.root hcached
      have carried : KeysCarried g v l.parent (some r.root) := by
        rw [Steady, if_neg told.kind.2, told.parent, told.root, hl, Option.map_some, hkey] at steady
        rw [← attachment_parent]
        exact steady _ rfl _ rfl rfl
      rw [hkey]
      exact boundary_refreshed shape hang h ((htells i).mpr rfl) carried
    · have plain (i : ℕ) : s ≠ .boundary i := fun heq => hboundary ⟨i, heq⟩
      rw [boundary_key_none told.root hcached plain]
      exact others_refreshed shape hang fun i hkind => plain i ((htells i).mp hkind)

end Replacing

section Keyed

variable {g v : MountedGraph K} {hashOrder : Enumeration K (Option (KeyedChild K))}
  {container baseRevision newRevision : ℕ} {operations : List (KeyedGraphOperation K)}
  {a : GraphApply K} {m : FiniteMap ℕ ElementIdentity}

theorem keyed_told (h : Shape g)
    (hrun : (apply hashOrder (.keyed container baseRevision newRevision operations)).run g = .ok a v) :
    ∃ removed nodes tops, Grafted g v removed nodes ∅ tops (some container) g.root ∧
      a.facts.kind = "keyed" ∧ a.root = some container ∧ a.stagedIds = ids nodes ∧
      a.removedIds = removed := by
  simp only [apply, bind_ok, get_ok, pure_ok] at hrun
  obtain ⟨keyed, _, hkeyed, _, _, ⟨rfl, rfl⟩, rfl, rfl⟩ := hrun
  obtain ⟨entry, owner, prepared, j, hentry, -, -, hprepare, hcommit⟩ := apply_keyed_ok hkeyed
  obtain ⟨l₀, l, -, e⟩ := commit_grafted h hentry hprepare hcommit
  simp only [commitKeyed, bind_ok, query_run_ok, pure_ok] at hcommit
  obtain ⟨oldSize, _, ⟨-, rfl⟩, carried, g0, -, ended, g1, -, _, g2, -, rfl, rfl⟩ := hcommit
  refine ⟨_, _, _, e, rfl, rfl, ?_, rfl⟩
  rw [stagedNodes, List.flatMap]
  rfl

theorem keyed_refreshed (h : Shape g) (exact : Exact g m)
    (hrun : (apply hashOrder (.keyed container baseRevision newRevision operations)).run g = .ok a v)
    (steady : Steady g a v) : ∃ m', applyToGpui v a m = .ok m' ∧ Exact v m' := by
  obtain ⟨removed, nodes, tops, e, hkind, hroot, hstaged, rfl⟩ := keyed_told h hrun
  have shape := e.shape h
  rw [Steady, if_pos hkind] at steady
  obtain ⟨hnone, hcarried⟩ := steady
  have hnodes : nodes = [] := List.map_eq_nil_iff.mp (hstaged.symm.trans hnone)
  have bare : ∀ c, c ∉ tops.map Prod.fst := by
    intro c hc
    rcases e.graft.listed c (.inr hc) with hid | hf
    · rw [hnodes] at hid
      exact List.not_mem_nil hid
    · exact Finset.notMem_empty c hf
  have placed : ∀ q ∈ some container, ∀ c, (c, none) ∉ tops := fun _ _ c hc =>
    bare c (List.mem_map_of_mem hc)
  have hsite := site_unmoved e h placed rfl
  have hkept (x : ℕ) (hx : (forest v).Mounted x) : Unmoved g v a.removedIds x := by
    rcases unmoved_or_below e h placed rfl hx with unmoved | ⟨k, hchild, hbelow⟩
    · exact unmoved
    · obtain ⟨s, hs⟩ := key_exists shape hchild
      obtain ⟨l, hkid⟩ := hchild
      rcases (e.kids_site rfl k l).mp hkid with htop | ⟨-, hr⟩
      · exact absurd (List.mem_map_of_mem htop) (bare k)
      · have hold := (hcarried container hroot _ ((mem_keysBelow shape).mpr hs)).resolve_left nofun
        exact sibling_unmoved e h rfl hsite hs ((mem_keysBelow h).mp hold) hr hbelow
  refine ⟨forget a.removedIds m, ?_, fun x hx => unmoved_right h exact (hkept x hx),
    fun x hx => forgotten e h exact hx⟩
  rw [applyToGpui, if_neg (by rw [hkind]; decide), if_pos hkind, hnone]
  rfl

end Keyed

section Runs

variable {g v : MountedGraph K} {d : Delivery K} {a : GraphApply K} {rt rt' : Runtime K}
  {m : FiniteMap ℕ ElementIdentity}

theorem patch_refreshed (h : Shape g) (formed : Formed g) (exact : Exact g m)
    (hrun : (apply d.1 d.2).run g = .ok a v) (steady : Steady g a v) :
    ∃ m', applyToGpui v a m = .ok m' ∧ Exact v m' := by
  have formed' : Formed v := step_formed h formed ⟨d.1, a, hrun⟩
  obtain ⟨hashOrder, patch⟩ := d
  cases patch with
  | noChange =>
    simp only [apply, bind_ok, get_ok, pure_ok] at hrun
    obtain ⟨_, _, ⟨rfl, rfl⟩, rfl, rfl⟩ := hrun
    exact ⟨m, rfl, exact⟩
  | mount root nodes => exact replacement_refreshed h formed' exact hrun steady
  | replace oldRoot root nodes => exact replacement_refreshed h formed' exact hrun steady
  | replaceRetaining oldRoot root nodes retainedRoots =>
    exact replacement_refreshed h formed' exact hrun steady
  | keyed container baseRevision newRevision operations => exact keyed_refreshed h exact hrun steady

/-- What holds of a runtime whose patches were all steady. -/
structure Followed (rt : Runtime K) : Prop where
  shape : Shape rt.graph
  formed : Formed rt.graph
  exact : Exact rt.graph rt.identities

theorem followed_reachable (h : Reachable ((running K).restrict SteadyDelivery) rt) : Followed rt := by
  refine reachable_invariant (S := (running K).restrict SteadyDelivery) (P := Followed) ?_ ?_ h
  · refine ⟨shape_empty, formed_empty, fun x hx => ?_, fun x _ => FiniteMap.get_empty x⟩
    cases hx
  · rintro rt d rt' followed ⟨steady, a, hrun, hm⟩
    obtain ⟨m', hm', exact'⟩ := patch_refreshed followed.shape followed.formed followed.exact hrun
      (steady a _ hrun)
    obtain rfl := Except.ok.inj (hm.symm.trans hm')
    exact ⟨step_shape followed.shape ⟨d.1, a, hrun⟩,
      step_formed followed.shape followed.formed ⟨d.1, a, hrun⟩, exact'⟩

theorem exact_identities (h : Shape rt.graph) (exact : Exact rt.graph rt.identities) :
    IdentitiesExact rt := by
  obtain ⟨m, hm, exact'⟩ := identities_exact h
  refine ⟨by rw [hm, exact_unique h exact' exact], fun id => ?_⟩
  by_cases hid : (forest rt.graph).Mounted id
  · obtain ⟨path, -, hget⟩ := exact.1 id hid
    exact iff_of_true (Option.isSome_of_eq_some hget) (mounted_iff.mp hid)
  · rw [exact.2 id hid]
    exact iff_of_false nofun (fun hsome => hid (mounted_iff.mpr hsome))

/-- Over every run of steady patches the identities that are kept are those of the graph, and the
next steady patch can be followed too. -/
theorem identities_follow (h : Reachable ((running K).restrict SteadyDelivery) rt) :
    IdentitiesExact rt ∧ ∀ d a v, (apply d.1 d.2).run rt.graph = .ok a v → SteadyDelivery rt d →
      ∃ m, applyToGpui v a rt.identities = .ok m ∧ IdentitiesExact ⟨v, m⟩ := by
  have followed := followed_reachable h
  refine ⟨exact_identities followed.shape followed.exact, fun d a v hrun steady => ?_⟩
  obtain ⟨m, hm, exact⟩ := patch_refreshed followed.shape followed.formed followed.exact hrun
    (steady a v hrun)
  have shape : Shape v := step_shape followed.shape ⟨d.1, a, hrun⟩
  exact ⟨m, hm, @exact_identities K _ ⟨v, m⟩ shape exact⟩

end Runs

section Followed

/-- A runtime that is given a patch. -/
def given (rt : Runtime ℕ) (patch : Patch ℕ) : Runtime ℕ :=
  match (apply .sorted patch).run rt.graph with
  | .ok a v => ⟨v, ((applyToGpui v a rt.identities).toOption).getD ∅⟩
  | .error _ _ => rt

def takes (rt : Runtime ℕ) (patch : Patch ℕ) : Bool :=
  match (apply .sorted patch).run rt.graph with
  | .ok a v => (applyToGpui v a rt.identities).toOption.isSome
  | .error _ _ => false

def isSteady (rt : Runtime ℕ) (patch : Patch ℕ) : Prop :=
  match (apply .sorted patch).run rt.graph with
  | .ok a v => Steady rt.graph a v
  | .error _ _ => False

instance (rt : Runtime ℕ) (patch : Patch ℕ) : Decidable (isSteady rt patch) := by
  unfold isSteady Steady
  split <;> infer_instance

theorem given_step {rt : Runtime ℕ} {patch : Patch ℕ} (h : takes rt patch = true) :
    (running ℕ).Step rt (.sorted, patch) (given rt patch) := by
  unfold takes at h
  unfold given
  cases hrun : (apply .sorted patch).run rt.graph with
  | error f v =>
    rw [hrun] at h
    cases h
  | ok a v =>
    rw [hrun] at h
    obtain ⟨m, hm⟩ := Option.isSome_iff_exists.mp h
    refine ⟨a, hrun, ?_⟩
    dsimp only
    rw [hm, Option.getD_some]
    cases happly : applyToGpui v a rt.identities with
    | error f =>
      rw [happly] at hm
      cases hm
    | ok m' =>
      rw [happly] at hm
      exact congrArg _ (Option.some.inj hm)

theorem steady_step {rt : Runtime ℕ} {patch : Patch ℕ} (h : takes rt patch = true)
    (steady : isSteady rt patch) :
    ((running ℕ).restrict SteadyDelivery).Step rt (.sorted, patch) (given rt patch) := by
  refine ⟨fun a v hrun => ?_, given_step h⟩
  unfold isSteady at steady
  rw [hrun] at steady
  exact steady

def panelWithItems : Patch ℕ := .mount 1
  [⟨1, .column "", [2, 4, 5, 6]⟩, ⟨2, .boundary 5, [3]⟩, ⟨3, .text, []⟩, ⟨4, .button "go" true false false, []⟩,
    ⟨5, .button "go" true false false, []⟩, ⟨6, .keyedColumn "" 0 [7, 8], [7, 9]⟩, ⟨7, .boundary 6, [8]⟩,
    ⟨8, .text, []⟩, ⟨9, .boundary 7, [10]⟩, ⟨10, .text, []⟩]

/-- The boundary is rebuilt, the first button goes, an item goes, and the root is rebuilt around
what stays. -/
def steadyPatches : List (Patch ℕ) :=
  [panelWithItems, .replace 2 11 [⟨11, .boundary 5, [12]⟩, ⟨12, .text, []⟩],
    .replace 4 13 [⟨13, .text, []⟩], .keyed 6 0 1 [.remove 7],
    .replaceRetaining 1 14 [⟨14, .column "", [11, 15]⟩, ⟨15, .text, []⟩] [11]]

def steadyRun : Runtime ℕ → List (Patch ℕ) → Bool
  | _, [] => true
  | rt, patch :: rest => takes rt patch && decide (isSteady rt patch) && steadyRun (given rt patch) rest

theorem steady_run {rt : Runtime ℕ} {patches : List (Patch ℕ)}
    (start : Reachable ((running ℕ).restrict SteadyDelivery) rt) (h : steadyRun rt patches = true) :
    Reachable ((running ℕ).restrict SteadyDelivery) (patches.foldl given rt) := by
  induction patches generalizing rt with
  | nil => exact start
  | cons patch rest ih =>
    rw [steadyRun, Bool.and_eq_true, Bool.and_eq_true, decide_eq_true_eq] at h
    exact ih (reachable_step start (steady_step h.1.1 h.1.2)) h.2

theorem steady_patches_followed : IdentitiesExact (steadyPatches.foldl given ⟨.empty, ∅⟩) :=
  (identities_follow (steady_run (reachable_initial _)
    (show steadyRun ⟨.empty, ∅⟩ steadyPatches = true by decide +kernel))).1

def emptyList : Patch ℕ := .mount 1 [⟨1, .keyedColumn "" 0 [], []⟩]

def firstItem : Patch ℕ := .keyed 1 0 1 [.insert 7 none 2 [⟨2, .boundary 5, [3]⟩, ⟨3, .text, []⟩]]

/-- The boundary of an inserted item is entered under the path from the root. -/
theorem inserted_item_misplaced :
    ¬∀ rt : Runtime ℕ, Reachable (running ℕ) rt → IdentitiesExact rt := by
  intro claim
  have first := reachable_step (reachable_initial (running ℕ))
    (@given_step ⟨.empty, ∅⟩ emptyList (by decide +kernel))
  have second := reachable_step first (@given_step _ firstItem (by decide +kernel))
  have hexact := (claim _ second).1
  have hkept : (given (given ⟨.empty, ∅⟩ emptyList) firstItem).identities.get 2 =
      some [.positional 5 0, .boundary 5] := by decide +kernel
  have hanew : (elementIdentities (given (given ⟨.empty, ∅⟩ emptyList) firstItem).graph).toOption.bind
      (·.get 2) = some [.boundary 5] := by decide +kernel
  rw [hexact] at hanew
  cases hkept.symm.trans hanew

end Followed

end IdentityRuns
