import RocGui.GraphReplacements
import RocGui.KeyedStaging

/-! A keyed transaction that is accepted keeps the shape of the graph. -/
namespace KeyedTransactions

open FiniteMaps KeyedLists Methods KeyedOrder KeyedOrderLists KeyedOrderRuns GraphState
open FragmentValidation GraphPatches FragmentTrees GraphForests GraphMounting GraphExchanges
open GraphGrafts GraphReplacements KeyedStaging PointerTrees StackWalks

variable {K : Type} [DecidableEq K]

section Preparing

variable {g : MountedGraph K} {container : ℕ} {entry : MountedNode K} {l₀ l : KeyedList K (ℕ × ℕ)}
  {prepared : PreparedFragments K} {j : KeyedOrderJournal K}

structure Prepared (g : MountedGraph K) (container : ℕ) (l₀ : KeyedList K (ℕ × ℕ))
    (prepared : PreparedFragments K) (j : KeyedOrderJournal K) (l : KeyedList K (ℕ × ℕ)) : Prop where
  represents : Represents j.order l
  listed : ∀ {k r i}, l₀.get k = some (r, i) → g.parentLocation r = some (.keyed container k i)
  fragments : ∀ f ∈ prepared.fragments, Fragment f.root f.nodes ∅ f.validated
  distinct : (ids (stagedNodes prepared.fragments)).Nodup
  fresh : ∀ x ∈ ids (stagedNodes prepared.fragments), g.maxSeenNodeId < x
  survive : ∀ f ∈ prepared.fragments, ∃ i, l.get f.key = some (f.root, i)
  items : ∀ {k r i}, l.get k = some (r, i) → l₀.get k = some (r, i) ∨
    ∃ f ∈ prepared.fragments, f.key = k ∧ f.root = r ∧ ∃ n ∈ f.nodes, n.id = r ∧ n.kind = .boundary i
  instances_distinct : (instancesOf (stagedNodes prepared.fragments)).Nodup
  newer : ∀ f ∈ prepared.fragments, ∀ n ∈ f.nodes, ∀ i, n.kind = .boundary i → Newer g i ∨
    n.id = f.root ∧ ∃ r, l₀.get f.key = some (r, i)
  walked : ∃ roots : List ℕ, roots.Nodup ∧
    (∀ r, r ∈ roots ↔ ∃ k, (∃ i, l₀.get k = some (r, i)) ∧ ∀ i, l.get k ≠ some (r, i)) ∧
    Walked (forest g) (fun _ => False) roots prepared.removedIds []

omit [DecidableEq K] in
theorem container_bare (hentry : keyedContainer container g = .ok entry) :
    entry.keyedChildren.isSome ∨ entry.node.children = [] := by
  unfold keyedContainer at hentry
  split at hentry
  · cases hentry
  split at hentry
  · cases hentry
  rename_i hempty
  obtain rfl := Except.ok.inj hentry
  rw [Option.isNone_iff_eq_none, not_and_or, not_not, ← ne_eq, Option.ne_none_iff_isSome] at hempty
  exact hempty

theorem keyed_base (h : Shape g) (hentry : keyedContainer container g = .ok entry) :
    g.nodes.get container = some entry ∧ ∃ l₀, Represents (entry.keyedChildren.getD .empty) l₀ ∧
      locations container entry = l₀.entries.map (keyedPlace container) := by
  unfold keyedContainer at hentry
  split at hentry
  · cases hentry
  rename_i e he
  split at hentry
  · cases hentry
  rename_i hempty
  obtain rfl := Except.ok.inj hentry
  refine ⟨he, ?_⟩
  cases ho : e.keyedChildren with
  | some o =>
    obtain ⟨l₀, hl₀⟩ := h.orders he ho
    exact ⟨l₀, hl₀, by simp only [locations, ho, entries_of hl₀]⟩
  | none =>
    have hchildren : e.node.children = [] := by
      by_contra hne
      exact hempty ⟨by simp [ho], hne⟩
    refine ⟨.empty, ⟨⟨List.nodup_nil, rfl, rfl, trivial⟩, fun k => rfl⟩, ?_⟩
    simp [locations, ho, hchildren, KeyedList.empty]

variable (h : Shape g) (he : g.nodes.get container = some entry)
  (hkids : locations container entry = l₀.entries.map (keyedPlace container))

include he hkids in
theorem mem_kids {c : ℕ} {loc : ParentLocation K} : (c, loc) ∈ (forest g).kids container ↔
    ∃ k i, loc = .keyed container k i ∧ l₀.get k = some (c, i) := by
  rw [kids_eq he, hkids, List.mem_map]
  constructor
  · rintro ⟨⟨k, r, i⟩, hmem, heq⟩
    obtain ⟨rfl, rfl⟩ := Prod.mk.inj heq
    exact ⟨k, i, rfl, mem_entries_iff.mp hmem⟩
  · rintro ⟨k, i, rfl, hget⟩
    exact ⟨(k, c, i), mem_entries_iff.mpr hget, rfl⟩

include h he hkids in
theorem roots_distinct : (l₀.entries.map fun entry => entry.2.1).Nodup := by
  have := kids_nodup h.linked container
  rw [kids_eq he, hkids, List.map_map] at this
  exact this

theorem walk_all {taken : MountedGraph K} (h : Shape g)
    (same : ∀ x, x ≠ container → taken.nodes.get x = g.nodes.get x) {roots : List ℕ}
    (below : ∀ x ∈ roots, (forest g).weight x < (forest g).weight container) {walks : List (List ℕ)}
    (hrun : (roots.mapM fun root => collectRemoved taken taken.climb [root]) = .ok walks) :
    Walked (forest g) (fun _ => False) roots walks.flatten [] := by
  induction roots generalizing walks with
  | nil =>
    obtain rfl : [] = walks := Except.ok.inj hrun
    exact .done
  | cons root rest ih =>
    simp only [List.mapM_cons, except_bind_ok] at hrun
    obtain ⟨walk, hwalk, walks', hrest, heq⟩ := hrun
    obtain rfl : walk :: walks' = walks := Except.ok.inj heq
    have first := collect_removed h same (by simpa using below root (by simp)) hwalk
    exact first.append (ih (fun x hx => below x (List.mem_cons_of_mem _ hx)) hrest)

theorem prepare_ok {hashOrder : Enumeration K (Option (KeyedChild K))} {owner : Option ℕ}
    {operations : List (KeyedGraphOperation K)} (h : Shape g)
    (he : g.nodes.get container = some entry)
    (hkids : locations container entry = l₀.entries.map (keyedPlace container))
    (base : Represents (entry.keyedChildren.getD .empty) l₀)
    (hrun : (prepare hashOrder (withOrder container entry none g) owner operations).run
      (.new (entry.keyedChildren.getD .empty)) = .ok prepared j) :
    ∃ l, Prepared g container l₀ prepared j l := by
  simp only [prepare, bind_ok, get_ok, ofExcept_run_ok, pure_ok] at hrun
  obtain ⟨progress, t, hstage, _, _, ⟨rfl, rfl⟩, walks, _, ⟨hwalks, rfl⟩, seen, _, ⟨hseen, rfl⟩, rfl,
    rfl⟩ := hrun
  obtain ⟨l, s⟩ := stage_operations (staging_start base) hstage
  have sub := List.filter_sublist (l := progress.fragments) (p := survives t.order)
  have subnodes : (stagedNodes (progress.fragments.filter (survives t.order))).Sublist
      (stagedNodes progress.fragments) := sub.flatMap _
  have survives_iff (f : FragmentPlan K) :
      survives t.order f = true ↔ ∃ i, l.get f.key = some (f.root, i) := by
    rw [represents_child s.represents, survives, decide_eq_true_eq]
    exact Iff.rfl
  have mem_roots := fun r => mem_removedRoots (r := r) hashOrder base s.represents s.recoverable
  refine ⟨l, s.represents, fun {k r i} hget => (h.linked.placed
      ((mem_kids he hkids).mpr ⟨k, i, rfl, hget⟩)).2, fun f hf => s.fragments f (sub.subset hf),
    s.distinct.sublist (subnodes.map _), fun x hx => ?_, fun f hf => ?_, fun {k r i} hget => ?_,
    s.instances_distinct.sublist (subnodes.filterMap _), fun f hf => s.newer f (sub.subset hf),
    removedRoots hashOrder t, ?_, mem_roots, ?_⟩
  · exact s.fresh x ((s.staged x).mpr ((subnodes.map _).subset hx))
  · exact (survives_iff f).mp (List.of_mem_filter hf)
  · refine (s.items hget).imp_right fun ⟨f, hf, hkey, hroot, hnode⟩ => ?_
    refine ⟨f, List.mem_filter.mpr ⟨hf, (survives_iff f).mpr ⟨i, ?_⟩⟩, hkey, hroot, hnode⟩
    rw [hkey, hroot, hget]
  · exact removedRoots_nodup hashOrder base s.represents s.recoverable (roots_distinct h he hkids)
  · refine walk_all h (fun x hx => FiniteMap.get_set_ne _ _ hx) (fun x hx => ?_) hwalks
    obtain ⟨k, ⟨i, hget⟩, -⟩ := (mem_roots x).mp hx
    exact weight_child h.weighed ⟨_, (mem_kids he hkids).mpr ⟨k, i, rfl, hget⟩⟩

end Preparing

section Grafting

variable {g : MountedGraph K} {container : ℕ} {entry : MountedNode K} {l₀ l : KeyedList K (ℕ × ℕ)}
  {prepared : PreparedFragments K} {j : KeyedOrderJournal K}

def placeOf (container : ℕ) (order : KeyedChildOrder K) (fragment : FragmentPlan K) :
    ℕ × Option (ParentLocation K) :=
  (fragment.root, (order.children.get fragment.key).map fun child =>
    .keyed container fragment.key child.instanceId)

variable (h : Shape g) (he : g.nodes.get container = some entry)
  (hkids : locations container entry = l₀.entries.map (keyedPlace container))
  (p : Prepared g container l₀ prepared j l)

include p in
theorem placeOf_eq (revision : ℕ) {f : FragmentPlan K} (hf : f ∈ prepared.fragments) :
    ∃ i, l.get f.key = some (f.root, i) ∧ placeOf container { j.order with revision } f =
      (f.root, some (.keyed container f.key i)) := by
  obtain ⟨i, hi⟩ := p.survive f hf
  refine ⟨i, hi, ?_⟩
  have hcontents := p.represents.contents f.key
  rw [hi, contents] at hcontents
  obtain ⟨c, hc, heq⟩ := Option.map_eq_some_iff.mp hcontents
  simp [placeOf, hc, (Prod.mk.inj heq).2]

include h he hkids p in
theorem gone_parent {x : ℕ} (hx : x ∈ prepared.removedIds) : (forest g).Mounted x ∧
    (forest g).weight x < (forest g).weight container ∧ ∃ loc, (forest g).parent x = some loc ∧
      (loc.parent ∈ prepared.removedIds ∨ loc.parent = container) := by
  obtain ⟨roots, -, mem, walked⟩ := p.walked
  have root_kid {r : ℕ} (hr : r ∈ roots) : ∃ loc, (r, loc) ∈ (forest g).kids container := by
    obtain ⟨k, ⟨i, hget⟩, -⟩ := (mem r).mp hr
    exact ⟨_, (mem_kids he hkids).mpr ⟨k, i, rfl, hget⟩⟩
  have hlt : (forest g).weight x < (forest g).weight container := by
    obtain ⟨r, hr, hbelow⟩ := walked.from_pending (.inl hx)
    exact (weight_below h.weighed hbelow).trans_lt (weight_child h.weighed (root_kid hr))
  rcases walked.origin (.inl hx) with hr | ⟨b, hb, loc, hkid⟩
  · obtain ⟨loc, hkid⟩ := root_kid hr
    obtain ⟨hm, hp⟩ := h.linked.placed hkid
    exact ⟨hm, hlt, loc, hp, .inr (h.linked.owned hkid)⟩
  · obtain ⟨hm, hp⟩ := h.linked.placed hkid
    exact ⟨hm, hlt, loc, hp, .inl ((h.linked.owned hkid).symm ▸ hb)⟩

include h he hkids p in
theorem container_stays : container ∉ prepared.removedIds := fun hgone =>
  absurd (gone_parent h he hkids p hgone).2.1 (lt_irrefl _)

include h he hkids p in
theorem gone_kid {c : ℕ} {k : K} {i : ℕ} (hget : l₀.get k = some (c, i)) :
    c ∈ prepared.removedIds ↔ ∀ i', l.get k ≠ some (c, i') := by
  obtain ⟨roots, -, mem, walked⟩ := p.walked
  have hkid := (mem_kids he hkids).mpr ⟨k, i, rfl, hget⟩
  constructor
  · intro hgone
    have hroot : c ∈ roots := by
      rcases walked.origin (.inl hgone) with hr | ⟨b, hb, hchild⟩
      · exact hr
      · obtain rfl := child_unique h.linked hchild ⟨_, hkid⟩
        exact absurd hb (container_stays h he hkids p)
    obtain ⟨k', ⟨i', hget'⟩, gone⟩ := (mem c).mp hroot
    have hpair : (k, c, i) = (k', c, i') := List.inj_on_of_nodup_map
      (roots_distinct h he hkids) (mem_entries_iff.mpr hget) (mem_entries_iff.mpr hget') rfl
    rw [(Prod.mk.inj hpair).1]
    exact gone
  · intro gone
    have := walked.pending_met ((mem c).mpr ⟨k, ⟨i, hget⟩, gone⟩)
    simpa using this

omit [DecidableEq K] in
theorem mem_ids_staged {fragments : List (FragmentPlan K)} {x : ℕ} :
    x ∈ ids (stagedNodes fragments) ↔ ∃ f ∈ fragments, x ∈ ids f.nodes := by
  simp only [ids, stagedNodes, List.mem_map, List.mem_flatMap]
  constructor
  · rintro ⟨n, ⟨f, hf, hn⟩, rfl⟩
    exact ⟨f, hf, n, hn, rfl⟩
  · rintro ⟨f, hf, n, hn, rfl⟩
    exact ⟨n, ⟨f, hf, hn⟩, rfl⟩

omit [DecidableEq K] in
theorem mem_childIds_staged {fragments : List (FragmentPlan K)} {x : ℕ} :
    x ∈ childIds (stagedNodes fragments) ↔ ∃ f ∈ fragments, x ∈ childIds f.nodes := by
  simp only [childIds, stagedNodes, List.mem_flatMap]
  constructor
  · rintro ⟨n, ⟨f, hf, hn⟩, hx⟩
    exact ⟨f, hf, n, hn, hx⟩
  · rintro ⟨f, hf, n, hn, hx⟩
    exact ⟨n, ⟨f, hf, hn⟩, hx⟩

include h he hkids p in
theorem keyed_graft (revision : ℕ) : Graft g prepared.removedIds (stagedNodes prepared.fragments) ∅
    (prepared.fragments.map (placeOf container { j.order with revision })) (some container)
    g.root where
  fresh := p.fresh
  listed c hc := by
    refine .inl (mem_ids_staged.mpr ?_)
    rcases hc with hc | hc
    · obtain ⟨f, hf, hc⟩ := mem_childIds_staged.mp hc
      exact ⟨f, hf, ((p.fragments f hf).listed c hc).resolve_right (Finset.notMem_empty _)⟩
    · simp only [List.map_map, List.mem_map] at hc
      obtain ⟨f, hf, rfl⟩ := hc
      exact ⟨f, hf, (p.fragments f hf).root_listed.resolve_right (Finset.notMem_empty _)⟩
  placed c hc := by
    obtain ⟨f, hf, hmem⟩ := mem_ids_staged.mp (hc.resolve_right (Finset.notMem_empty _))
    rcases (p.fragments f hf).reached c (.inl hmem) with rfl | hchild
    · exact .inr (List.mem_map.mpr ⟨_, List.mem_map_of_mem hf, rfl⟩)
    · exact .inl (mem_childIds_staged.mpr ⟨f, hf, hchild⟩)
  below {c loc} hc hl := by
    obtain ⟨-, -, loc', hl', hwhere⟩ := gone_parent h he hkids p hc
    obtain rfl := Option.some.inj (hl.symm.trans hl')
    exact hwhere.imp_right fun heq => congrArg some heq.symm
  kept c hc := absurd hc (Finset.notMem_empty _)
  all_kept {c loc} hm hr hl ho := by
    obtain ⟨roots, -, -, walked⟩ := p.walked
    rcases walked.closed ho ⟨loc, h.linked.listed hm hl⟩ with hw | hmet
    · exact absurd hw hr
    · simp at hmet
  site_kept q hq := by
    obtain rfl := Option.some.inj hq
    exact ⟨mounted_iff.mpr (by simp [he]), container_stays h he hkids p⟩
  site_apart _ _ := Finset.notMem_empty _
  tops_site {c loc} hc := by
    obtain ⟨f, hf, heq⟩ := List.mem_map.mp hc
    obtain ⟨i, -, hplace⟩ := placeOf_eq p revision hf
    rw [hplace] at heq
    cases heq
    rfl
  tops_root {c} hc := by
    obtain ⟨f, hf, heq⟩ := List.mem_map.mp hc
    obtain ⟨i, -, hplace⟩ := placeOf_eq p revision hf
    rw [hplace] at heq
    cases heq
  root_placed r hr := by
    refine .inr ⟨hr, fun hgone => ?_⟩
    obtain ⟨-, -, loc, hl, -⟩ := gone_parent h he hkids p hgone
    simp [(h.linked.rooted r hr).2] at hl
  root_kept r hr := .inr hr

variable {t t' v : MountedGraph K} {order : KeyedChildOrder K}

theorem mount_fragments {rest : List (FragmentPlan K)} {removed : List ℕ} {nodes : List (Node K)}
    {tops : List (ℕ × Option (ParentLocation K))} {u : PUnit}
    (s : Spliced g t removed nodes tops)
    (fragments : ∀ f ∈ rest, Fragment f.root f.nodes ∅ f.validated)
    (distinct : (ids (nodes ++ stagedNodes rest)).Nodup)
    (closed : ∀ c, c ∈ childIds nodes ∨ c ∈ tops.map Prod.fst → c ∈ ids nodes)
    (hrun : (rest.forM (mountFragment container order)).run t = .ok u t') :
    Spliced g t' removed (nodes ++ stagedNodes rest) (tops ++ rest.map (placeOf container order)) := by
  induction rest generalizing t nodes tops with
  | nil =>
    obtain rfl := forM_nil_ok.mp hrun
    simpa [stagedNodes] using s
  | cons f rest ih =>
    obtain ⟨t1, hf, hrest⟩ := forM_cons_ok.mp hrun
    simp only [mountFragment, bind_ok, expect_ok] at hf
    obtain ⟨_, t0, hinsert, child, _, ⟨hchild, rfl⟩, halter⟩ := hf
    have fragment := fragments f (by simp)
    have hplace : placeOf container order f = (f.root, some (.keyed container f.key child.instanceId)) := by
      simp [placeOf, hchild]
    obtain ⟨content, sizes, parents⟩ := alter_placed halter (fun _ => ⟨rfl, rfl⟩) (fun _ => rfl)
      fun _ => rfl
    have hnodes : nodes ++ stagedNodes (f :: rest) = (nodes ++ f.nodes) ++ stagedNodes rest := by
      simp [stagedNodes]
    rw [hnodes] at distinct ⊢
    have apart (c : ℕ) (hc : c ∈ ids f.nodes) : c ∉ ids nodes := fun hold => by
      rw [ids_append, ids_append, List.append_assoc, List.nodup_append'] at distinct
      exact distinct.2.2 hold (List.mem_append_left _ hc)
    have spliced := spliced_insert s fragment (fun c hc => ?_)
      (insert_nodes fragment hinsert) content sizes parents
    · have done := ih spliced (fun f' hf' => fragments f' (List.mem_cons_of_mem _ hf')) distinct
        (fun c hc => ?_) hrest
      · rw [List.map_cons, hplace, List.append_cons]
        exact done
      · rw [ids_append, List.mem_append]
        rw [childIds_append, List.mem_append, List.map_append, List.mem_append] at hc
        rcases hc with (hc | hc) | hc | hc
        · exact .inl (closed c (.inl hc))
        · exact .inr ((fragment.listed c hc).resolve_right (Finset.notMem_empty _))
        · exact .inl (closed c (.inr hc))
        · obtain rfl : c = f.root := by simpa using hc
          exact .inr (fragment.root_listed.resolve_right (Finset.notMem_empty _))
    · have hc := apart c (hc.resolve_right (Finset.notMem_empty _))
      exact ⟨hc, fun hmem => hc (closed c (.inl hmem)), fun hmem => hc (closed c (.inr hmem))⟩

omit [DecidableEq K] in
/-- Sizes and parents do not depend on the order of a container. -/
theorem reordered (he : g.nodes.get container = some entry) (o : Option (KeyedChildOrder K)) :
    (withOrder container entry o g).subtreeSize = g.subtreeSize ∧
      (withOrder container entry o g).parentLocation = g.parentLocation ∧
      ∀ x, content (withOrder container entry o g) x =
        if x = container then some (entry.node, o) else content g x := by
  set e : MountedNode K := { entry with keyedChildren := o } with hentry
  have hput : withOrder container entry o g = put g container e := rfl
  rw [hput, size_put, location_put, content_put]
  have hsize : some e.subtreeSize = g.subtreeSize container := (size_eq he).symm
  have hparent : e.parent = g.parentLocation container := (location_eq he).symm
  rw [hsize, hparent, Function.update_eq_self, Function.update_eq_self]
  exact ⟨rfl, rfl, fun x => Function.update_apply ..⟩

/-- The order that was taken out of its container is put back. -/
theorem spliced_restore {removed : List ℕ} {nodes : List (Node K)}
    {tops : List (ℕ × Option (ParentLocation K))}
    (he : g.nodes.get container = some entry)
    (s : Spliced (withOrder container entry none g) t removed nodes tops) (hid : container ∉ ids nodes)
    (hr : container ∉ removed) : ∃ e, t.nodes.get container = some e ∧ e.node = entry.node ∧
      Spliced g (withOrder container e entry.keyedChildren t) removed nodes tops := by
  obtain ⟨taken_sizes, taken_parents, taken_content⟩ := reordered he none
  have hcontent := s.content container hid
  rw [if_neg hr, taken_content, if_pos rfl] at hcontent
  obtain ⟨e, het, hpair⟩ := Option.map_eq_some_iff.mp hcontent
  obtain ⟨hnode, -⟩ := Prod.mk.inj hpair
  obtain ⟨sizes, parents, contents⟩ := reordered het entry.keyedChildren
  have node : (withOrder container e entry.keyedChildren t).node = t.node := by
    funext x
    rw [node_of_content, node_of_content, contents]
    split
    · rename_i hx
      rw [hx, content_eq het]
      rfl
    · rfl
  refine ⟨e, het, hnode, s.root, s.issued, fun n hn => ?_, fun c loc hc => parents ▸ s.placed c loc hc,
    fun x hx => ?_, fun x hx hgone => ?_, fun x hx hgone hc ht => ?_⟩
  · obtain ⟨e', he', hen, seeded, hfst, hplaced, hsize⟩ := s.fresh n hn
    have hne : n.id ≠ container := fun heq => hid (heq ▸ List.mem_map_of_mem hn)
    refine ⟨e', ?_, hen, node ▸ seeded, hfst, fun c loc hc => parents ▸ hplaced c loc hc, ?_⟩
    · rw [withOrder, FiniteMap.get_set_ne _ _ hne, he']
    · rw [hsize]
      exact congrArg (1 + ·) (total_congr fun c _ => congrFun sizes c.1).symm
  · rw [contents, s.content x hx, taken_content]
    by_cases hxc : x = container
    · rw [if_pos hxc, if_neg (hxc ▸ hr), hxc, content_eq he, hnode]
    · rw [if_neg hxc, if_neg hxc]
  · rw [sizes, s.sizes x hx hgone, taken_sizes]
  · rw [parents, s.parents x hx hgone hc ht, taken_parents]

omit [DecidableEq K] in
theorem represents_revision [DecidableEq K] (h : Represents order l) (revision : ℕ) :
    Represents { order with revision } l := ⟨h.threaded, h.contents⟩

include h he hkids p in
theorem keyed_sited {e : MountedNode K} (revision : ℕ) (het : t.nodes.get container = some e)
    (bare : entry.keyedChildren.isSome ∨ e.node.children = []) :
    Sited g (withOrder container e entry.keyedChildren t)
      (withOrder container e (some { j.order with revision }) t) prepared.removedIds
      (prepared.fragments.map (placeOf container { j.order with revision })) (some container) := by
  have represents := represents_revision p.represents revision
  have hat : (withOrder container e (some { j.order with revision }) t).nodes.get container =
      some { e with keyedChildren := some { j.order with revision } } := FiniteMap.get_set_self _ _ _
  obtain ⟨-, parents_old, content_old⟩ := reordered het entry.keyedChildren
  obtain ⟨-, parents_new, content_new⟩ := reordered het (some { j.order with revision })
  refine ⟨fun x hx => ?_, fun x => ?_, fun x c' hc' => ?_, parents_new.trans parents_old.symm, rfl,
    fun {q e' o} hq he' ho => ?_, fun {q} hq c loc => ?_, fun q hq => ?_⟩
  · have hne : x ≠ container := fun heq => hx (congrArg some heq.symm)
    rw [content_new, content_old, if_neg hne, if_neg hne]
  · rw [node_of_content, node_of_content, content_new, content_old]
    split <;> rfl
  · rw [content_new] at hc'
    rw [content_old]
    split at hc'
    · rename_i hx
      obtain rfl := Option.some.inj hc'
      exact ⟨_, if_pos hx, rfl, rfl, fun _ => bare⟩
    · rename_i hx
      exact ⟨c', (if_neg hx).trans hc', refiled_self c'⟩
  · obtain rfl := Option.some.inj hq
    obtain rfl := Option.some.inj (hat.symm.trans he')
    obtain rfl := Option.some.inj ho
    exact ⟨l, represents⟩
  · obtain rfl := Option.some.inj hq
    rw [kids_eq hat, mem_kids he hkids]
    simp only [locations, mem_keyed represents, List.mem_map]
    constructor
    · rintro ⟨k, i, rfl, hget⟩
      rcases p.items hget with hold | ⟨f, hf, rfl, rfl, -⟩
      · refine .inr ⟨⟨k, i, rfl, hold⟩, fun hgone => ?_⟩
        exact (gone_kid h he hkids p hold).mp hgone i hget
      · obtain ⟨i', hi', hplace⟩ := placeOf_eq p revision hf
        obtain rfl : i = i' := (Prod.mk.inj (Option.some.inj (hget.symm.trans hi'))).2
        exact .inl ⟨f, hf, hplace⟩
    · rintro (⟨f, hf, heq⟩ | ⟨⟨k, i, rfl, hold⟩, hkept⟩)
      · obtain ⟨i, hi, hplace⟩ := placeOf_eq p revision hf
        rw [hplace] at heq
        cases heq
        exact ⟨f.key, i, rfl, hi⟩
      · refine ⟨k, i, rfl, ?_⟩
        have kept := mt (gone_kid h he hkids p hold).mpr hkept
        push Not at kept
        obtain ⟨i', hi'⟩ := kept
        rcases p.items hi' with hold' | ⟨f, hf, -, hroot, -⟩
        · rw [hi', ← hold', hold]
        · -- a staged root is no mounted node
          have hid := (p.fragments f hf).root_listed.resolve_right (Finset.notMem_empty _)
          have hfresh := p.fresh _ (mem_ids_staged.mpr ⟨f, hf, hid⟩)
          obtain ⟨hm, -⟩ := h.linked.placed ((mem_kids he hkids).mpr ⟨k, i, rfl, hold⟩)
          have := h.issued (mounted_iff.mp hm)
          omega
  · obtain rfl := Option.some.inj hq
    simp [hat]

include h he hkids p in
theorem keyed_gone : (forest g).total (((forest g).kids container).filter
    fun c => decide (c.1 ∈ prepared.removedIds)) = prepared.removedIds.length := by
  obtain ⟨roots, nodup, mem, walked⟩ := p.walked
  rw [walked.length_eq h.weighed (fun _ => not_false) fun a ha => (gone_parent h he hkids p ha).1]
  have hperm : ((((forest g).kids container).filter
      fun c => decide (c.1 ∈ prepared.removedIds)).map Prod.fst).Perm roots := by
    refine (List.perm_ext_iff_of_nodup ((kids_nodup h.linked container).sublist
      (List.filter_sublist.map _)) nodup).mpr fun r => ?_
    simp only [List.mem_map, List.mem_filter, decide_eq_true_eq]
    constructor
    · rintro ⟨⟨c, loc⟩, ⟨hkid, hgone⟩, rfl⟩
      obtain ⟨k, i, rfl, hget⟩ := (mem_kids he hkids).mp hkid
      exact (mem c).mpr ⟨k, ⟨i, hget⟩, (gone_kid h he hkids p hget).mp hgone⟩
    · intro hr
      obtain ⟨k, ⟨i, hget⟩, gone⟩ := (mem r).mp hr
      exact ⟨(r, _), ⟨(mem_kids he hkids).mpr ⟨k, i, rfl, hget⟩,
        (gone_kid h he hkids p hget).mpr gone⟩, rfl⟩
  rw [← (hperm.map _).sum_eq, List.map_map]
  rfl

omit [DecidableEq K] in
theorem roots_nodup {fragments : List (FragmentPlan K)}
    (trees : ∀ f ∈ fragments, Fragment f.root f.nodes ∅ f.validated)
    (distinct : (ids (stagedNodes fragments)).Nodup) : (fragments.map (·.root)).Nodup := by
  rw [ids, stagedNodes, List.map_flatMap, List.nodup_flatMap] at distinct
  refine List.pairwise_map.mpr (distinct.2.imp_of_mem fun {a b} ha hb apart heq => ?_)
  have hroot {f : FragmentPlan K} (hf : f ∈ fragments) : f.root ∈ ids f.nodes :=
    (trees f hf).root_listed.resolve_right (Finset.notMem_empty _)
  exact apart (hroot ha) (heq ▸ hroot hb)

omit [DecidableEq K] in
theorem placedTops_fst {tops : List (ℕ × Option (ParentLocation K))}
    (placed : ∀ top ∈ tops, top.2.isSome) : (placedTops tops).map Prod.fst = tops.map Prod.fst := by
  induction tops with
  | nil => rfl
  | cons top tops ih =>
    obtain ⟨loc, hloc⟩ := Option.isSome_iff_exists.mp (placed top (by simp))
    rw [placedTops, List.filterMap_cons, hloc, Option.map_some]
    exact congrArg (top.1 :: ·) (ih fun top' h => placed top' (List.mem_cons_of_mem _ h))

include p in
theorem keyed_tops_fst (revision : ℕ) :
    (placedTops (prepared.fragments.map (placeOf container { j.order with revision }))).map Prod.fst =
      prepared.fragments.map (·.root) := by
  rw [placedTops_fst, List.map_map]
  · rfl
  · rintro top htop
    obtain ⟨f, hf, rfl⟩ := List.mem_map.mp htop
    obtain ⟨i, -, hplace⟩ := placeOf_eq p revision hf
    rw [hplace]
    rfl

include p in
theorem keyed_came {revision : ℕ} {removed : List ℕ} {tops : List (ℕ × Option (ParentLocation K))}
    (s : Spliced g t removed (stagedNodes prepared.fragments) tops) :
    (forest t).total (placedTops
      (prepared.fragments.map (placeOf container { j.order with revision }))) =
      (stagedNodes prepared.fragments).length := by
  have total_fst (cs : List (ℕ × ParentLocation K)) :
      (forest t).total cs = ((cs.map Prod.fst).map (forest t).weight).sum := by
    rw [List.map_map]
    rfl
  rw [total_fst, keyed_tops_fst p, stagedNodes, List.length_flatMap, List.map_map]
  refine congrArg List.sum (List.map_congr_left fun f hf => ?_)
  refine fragment_weight (p.fragments f hf) (forest t).weight fun n hn => ?_
  obtain ⟨e, he, -, -, hfst, -, hsize⟩ := s.fresh n (List.mem_flatMap.mpr ⟨f, hf, hn⟩)
  rw [weight_eq he, hsize, total_fst, hfst]

theorem resize_container {size size' : ℕ} {u : Unit} (het : t.nodes.get container = some entry)
    (hrun : (resizeContainer container size size').run t = .ok u t') :
    SameContent t t' ∧ t'.parentLocation = t.parentLocation ∧ (size' = size ∧ t' = t ∨
      ∃ qs, UpTo ParentLocation.parent t.parentLocation
          ((t.parentLocation container).map (·.parent)) qs ∧
        ∀ F : Forest ℕ (ParentLocation K), F.weight = (forest t).weight →
          ((F.reweigh container size').resizedAlong size size' qs).weight = (forest t').weight) := by
  unfold resizeContainer at hrun
  split at hrun
  · rename_i heq
    obtain ⟨-, rfl⟩ := pure_ok.mp hrun
    exact ⟨⟨rfl, rfl, rfl⟩, rfl, .inl ⟨heq, rfl⟩⟩
  simp only [bind_ok, alter_run_ok, get_ok] at hrun
  obtain ⟨_, t1, ⟨e, he', ht1⟩, _, _, ⟨rfl, rfl⟩, hresize⟩ := hrun
  obtain rfl := Option.some.inj (het.symm.trans he')
  obtain rfl : t1 = put t container { entry with subtreeSize := size' } := ht1
  have same := sameContent_put het { entry with subtreeSize := size' } rfl rfl
  have parents : (put t container { entry with subtreeSize := size' }).parentLocation =
      t.parentLocation := by
    rw [location_put, show ({ entry with subtreeSize := size' } : MountedNode K).parent =
      entry.parent from rfl, ← location_eq het, Function.update_eq_self]
  obtain ⟨qs, up, resized⟩ := resize_ancestors hresize
  rw [parents] at up
  refine ⟨same.trans resized.same, resized.parents.trans parents, .inr ⟨qs, up, fun F hF => ?_⟩⟩
  refine resized.weights _ ?_
  change Function.update F.weight container size' = _
  rw [hF]
  exact (weight_put container { entry with subtreeSize := size' }).symm

end Grafting

section Committing

variable {g g' : MountedGraph K} {container baseRevision newRevision : ℕ}
  {operations : List (KeyedGraphOperation K)} {a : KeyedGraphApply K}
  {hashOrder : Enumeration K (Option (KeyedChild K))}

theorem apply_keyed_ok
    (hrun : (applyKeyed hashOrder container baseRevision newRevision operations).run g = .ok a g') :
    ∃ entry owner prepared j, keyedContainer container g = .ok entry ∧
      checkRevisions (entry.keyedChildren.getD .empty) baseRevision newRevision = .ok ⟨⟩ ∧
      (withOrder container entry none g).componentOwner container =
        (.ok owner : Reading K (Option ℕ)) ∧
      (prepare hashOrder (withOrder container entry none g) owner operations).run
        (.new (entry.keyedChildren.getD .empty)) = .ok prepared j ∧
      (commitKeyed container newRevision j prepared g.dialog).run (withOrder container entry none g) =
        .ok a g' := by
  simp only [applyKeyed, bind_ok, get_ok, query_run_ok] at hrun
  obtain ⟨_, _, ⟨rfl, rfl⟩, entry, _, ⟨hentry, rfl⟩, _, t, hput, hrun⟩ := hrun
  have he : g.nodes.get container = some entry := by
    unfold keyedContainer at hentry
    split at hentry
    · cases hentry
    split at hentry
    · cases hentry
    · rename_i e he _
      rw [he, Except.ok.inj hentry]
  rw [putOrder_run he] at hput
  obtain ⟨-, rfl⟩ := EStateM.Result.ok.inj hput
  split at hrun
  · obtain ⟨_, _, -, hrefused⟩ := bind_ok.mp hrun
    cases hrefused
  rename_i hrevisions
  simp only [bind_ok, get_ok, query_run_ok] at hrun
  obtain ⟨owner, _, ⟨howner, rfl⟩, _, _, ⟨rfl, rfl⟩, hrun⟩ := hrun
  split at hrun
  · obtain ⟨_, _, -, hrefused⟩ := bind_ok.mp hrun
    cases hrefused
  · cases hrun
  · rename_i prepared j hprepare
    exact ⟨entry, owner, prepared, j, hentry, hrevisions, howner, hprepare, hrun⟩

theorem keyed_weighed {entry e : MountedNode K} {l₀ l : KeyedList K (ℕ × ℕ)}
    {prepared : PreparedFragments K} {j : KeyedOrderJournal K} {t t1 v : MountedGraph K} {size : ℕ}
    (h : Shape g) (he : g.nodes.get container = some entry)
    (hkids : locations container entry = l₀.entries.map (keyedPlace container))
    (p : Prepared g container l₀ prepared j l)
    (s : Spliced g (withOrder container e entry.keyedChildren t) prepared.removedIds
      (stagedNodes prepared.fragments)
      (prepared.fragments.map (placeOf container { j.order with revision := newRevision })))
    (gr : Graft g prepared.removedIds (stagedNodes prepared.fragments) ∅
      (prepared.fragments.map (placeOf container { j.order with revision := newRevision }))
      (some container) g.root)
    (st : Sited g (withOrder container e entry.keyedChildren t)
      (withOrder container e (some { j.order with revision := newRevision }) t) prepared.removedIds
      (prepared.fragments.map (placeOf container { j.order with revision := newRevision }))
      (some container))
    (hsize : g.subtreeSize container = some size) (het : t.nodes.get container = some e)
    (places_v : (forest v).places =
      (forest (withOrder container e (some { j.order with revision := newRevision }) t)).places)
    (parents_v : v.parentLocation = t.parentLocation) (sizes_v : v.subtreeSize = t1.subtreeSize)
    (resized : size - prepared.removedIds.length + (stagedNodes prepared.fragments).length = size ∧
        t1 = t ∨
      ∃ qs, UpTo ParentLocation.parent t.parentLocation
          ((t.parentLocation container).map (·.parent)) qs ∧
        ∀ F : Forest ℕ (ParentLocation K), F.weight = (forest t).weight →
          ((F.reweigh container
            (size - prepared.removedIds.length + (stagedNodes prepared.fragments).length)).resizedAlong
            size (size - prepared.removedIds.length + (stagedNodes prepared.fragments).length)
            qs).weight = (forest t1).weight) : Weighed (forest v) := by
  obtain ⟨old_sizes, -, -⟩ := reordered het entry.keyedChildren
  obtain ⟨-, new_parents, -⟩ := reordered het (some { j.order with revision := newRevision })
  set t' := withOrder container e (some { j.order with revision := newRevision }) t with ht'
  set b := withOrder container e entry.keyedChildren t with hb
  have distinct : (placedTops
      (prepared.fragments.map (placeOf container { j.order with revision := newRevision }))).Nodup := by
    refine List.Nodup.of_map Prod.fst ?_
    rw [keyed_tops_fst p]
    exact roots_nodup p.fragments p.distinct
  have stale := graft_stale h s gr st rfl distinct
  rw [keyed_gone h he hkids p, keyed_came p s] at stale
  have weights : (sizedBy b t').weight = (forest t).weight := by
    change (fun x => (b.subtreeSize x).getD 0) = fun x => (t.subtreeSize x).getD 0
    rw [old_sizes]
  have hbefore : (sizedBy b t').weight container = size := by
    have := graft_weight h s gr (mounted_iff.mpr (by simp [he])) (container_stays h he hkids p)
    change (forest b).weight container = size
    rw [this]
    change (g.subtreeSize container).getD 0 = size
    rw [hsize, Option.getD_some]
  have hle : prepared.removedIds.length ≤ size := by
    have := stale.here
    have := stale.within
    omega
  have parents : (forest v).parent = (sizedBy b t').parent := parents_v.trans new_parents.symm
  have weight_v : (forest v).weight = (forest t1).weight := by
    change (fun x => (v.subtreeSize x).getD 0) = fun x => (t1.subtreeSize x).getD 0
    rw [sizes_v]
  rcases resized with ⟨heq, rfl⟩ | ⟨qs, up, hweights⟩
  · have hforest : forest v = sizedBy b t' :=
      Forest.ext places_v parents (weight_v.trans weights.symm)
    rw [hforest]
    intro x hx
    by_cases hxc : x = container
    · subst hxc
      have := stale.here
      omega
    · exact stale.elsewhere x hx hxc
  · have up' : UpTo ParentLocation.parent (sizedBy b t').parent
        (((sizedBy b t').parent container).map ParentLocation.parent) qs := by
      change UpTo ParentLocation.parent t'.parentLocation
        ((t'.parentLocation container).map (·.parent)) qs
      rw [new_parents]
      exact up
    have hforest := eq_resizedAlong (F := (sizedBy b t').reweigh container _) places_v parents
      (weight_v.trans (hweights (sizedBy b t') weights).symm)
    rw [hforest]
    exact weighed_above (graft_linked h s gr st) (graft_irreflexive h s gr st)
      (mounted_iff.mpr (st.site container rfl)) up' stale hbefore (by omega)

theorem commit_grafted {entry : MountedNode K} {owner : Option ℕ} {prepared : PreparedFragments K}
    {j : KeyedOrderJournal K} (h : Shape g) (hentry : keyedContainer container g = .ok entry)
    (hprepare : (prepare hashOrder (withOrder container entry none g) owner operations).run
      (.new (entry.keyedChildren.getD .empty)) = .ok prepared j)
    (hcommit : (commitKeyed container newRevision j prepared g.dialog).run
      (withOrder container entry none g) = .ok a g') :
    ∃ l₀ l, Prepared g container l₀ prepared j l ∧
      Grafted g g' prepared.removedIds (stagedNodes prepared.fragments) ∅
        (prepared.fragments.map (placeOf container { j.order with revision := newRevision }))
        (some container) g.root := by
  obtain ⟨he, l₀, base, hkids⟩ := keyed_base h hentry
  obtain ⟨l, p⟩ := prepare_ok h he hkids base hprepare
  simp only [commitKeyed, exchangeKeyed, bind_ok, query_run_ok, pure_ok] at hcommit
  obtain ⟨oldSize, _, ⟨hsize, rfl⟩, carried, g0, hcarry, ended, v, ⟨instances, t0, hretire, _, t, hmount,
    _, t1, hresize, _, t2, hput, -, rfl⟩, _, g1, hfinish, -, rfl⟩ := hcommit
  have carry : outline (withOrder container entry none g) = outline g0 :=
    (outline_of_withoutInteraction (kept_of_preserves (fun c => preserves_carry _) hcarry)).symm
  have hstays := container_stays h he hkids p
  have hid : container ∉ ids (stagedNodes prepared.fragments) := fun hmem => by
    have := p.fresh _ hmem
    have := h.issued (show (g.nodes.get container).isSome by simp [he])
    omega
  have mounted := mount_fragments (spliced_outline (spliced_retired (retire_all hretire)) carry)
    p.fragments (by simpa using p.distinct) (by simp [childIds]) hmount
  simp only [List.nil_append] at mounted
  obtain ⟨e, het, hnode, s⟩ := spliced_restore he mounted hid hstays
  have gr := keyed_graft h he hkids p newRevision
  have st := keyed_sited h he hkids p newRevision het (hnode ▸ container_bare hentry)
  obtain ⟨same, parents, resized⟩ := resize_container het hresize
  refine ⟨l₀, l, p, Grafted.outline ?_ (outline_of_withoutInteraction
    (kept_of_preserves (fun c => preserves_finish _ _ _) hfinish))⟩
  obtain ⟨e1, he1, rfl⟩ := alter_run_ok.mp hput
  obtain ⟨_, old_parents, -⟩ := reordered het entry.keyedChildren
  obtain ⟨_, new_parents, new_content⟩ := reordered het (some { j.order with revision := newRevision })
  obtain ⟨v_sizes, v_parents, v_content⟩ :=
    reordered he1 (some { j.order with revision := newRevision })
  have hnode' : e1.node = e.node := by
    have := congrFun same.content container
    rw [content_eq he1, content_eq het] at this
    exact (Prod.mk.inj (Option.some.inj this)).1
  have content_v : content (withOrder container e1 (some { j.order with revision := newRevision }) t1)
      = content (withOrder container e (some { j.order with revision := newRevision }) t) := by
    funext x
    rw [v_content, new_content, hnode', same.content]
  have parents_v := (v_parents.trans parents).trans new_parents.symm
  refine ⟨gr, ⟨_, _, s, st, content_v, parents_v, same.issued⟩, same.root.trans s.root, ?_⟩
  have hsize' : g.subtreeSize container = some oldSize := by
    rw [← (reordered he none).1]
    unfold mountedSize at hsize
    split at hsize
    · rename_i size hs
      rw [hs, Except.ok.inj hsize]
    · cases hsize
  have hlength : prepared.nodes.length = (stagedNodes prepared.fragments).length := by
    rw [PreparedFragments.nodes, stagedNodes, List.flatMap]
  rw [hlength] at resized
  exact keyed_weighed h he hkids p s gr st hsize' het (places_eq content_v) (v_parents.trans parents)
    v_sizes resized

theorem keyed_grafted (h : Shape g)
    (hrun : (applyKeyed hashOrder container baseRevision newRevision operations).run g = .ok a g') :
    ∃ l₀ l prepared j, Prepared g container l₀ prepared j l ∧
      Grafted g g' prepared.removedIds (stagedNodes prepared.fragments) ∅
        (prepared.fragments.map (placeOf container { j.order with revision := newRevision }))
        (some container) g.root := by
  obtain ⟨entry, owner, prepared, j, hentry, -, -, hprepare, hcommit⟩ := apply_keyed_ok hrun
  obtain ⟨l₀, l, grafted⟩ := commit_grafted h hentry hprepare hcommit
  exact ⟨l₀, l, prepared, j, grafted⟩

end Committing

end KeyedTransactions
