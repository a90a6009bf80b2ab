import RocGui.GraphIdentities

/-! The cached sibling keys after a keyed transaction, and after any run of patches that
install items as the boundaries they are listed as. -/
namespace KeyedIdentities

open FiniteMaps KeyedLists Methods KeyedOrder GraphState FragmentValidation GraphPatches
open FragmentTrees GraphForests GraphMounting GraphExchanges GraphGrafts GraphReplacements
open KeyedStaging KeyedTransactions GraphLedgers GraphRuns GraphListings SiblingSegments
open GraphSegments GraphIdentities PointerTrees Transitions

variable {K : Type} [DecidableEq K]

section Mounting

variable {t t' : MountedGraph K} {container : ℕ} {order : KeyedChildOrder K}
  {fragments : List (FragmentPlan K)}

structure Installed (t t' : MountedGraph K) (order : KeyedChildOrder K)
    (fragments : List (FragmentPlan K)) (lookup : ℕ → Option (Node K)) : Prop where
  fresh : ∀ n ∈ stagedNodes fragments, ∀ c s, (c, s) ∈ siblingSegments lookup ∅ 0 n.children →
    t'.cachedSegment c = some s
  roots : ∀ f ∈ fragments, ∃ child, order.children.get f.key = some child ∧
    t'.cachedSegment f.root = some (.boundary child.instanceId)
  away : ∀ x, x ∉ ids (stagedNodes fragments) → t'.cachedSegment x = t.cachedSegment x

theorem mount_fragments_segments (lookup : ℕ → Option (Node K)) {u : PUnit}
    (valid : ∀ f ∈ fragments, Fragment f.root f.nodes ∅ f.validated)
    (distinct : (ids (stagedNodes fragments)).Nodup)
    (kinds : ∀ n ∈ stagedNodes fragments, (lookup n.id).map (·.kind) = some n.kind)
    (h : (fragments.forM (mountFragment container order)).run t = .ok u t') :
    Installed t t' order fragments lookup := by
  induction fragments generalizing t with
  | nil =>
    obtain rfl := forM_nil_ok.mp h
    exact ⟨by simp [stagedNodes], by simp, fun _ _ => rfl⟩
  | cons f rest ih =>
    obtain ⟨t₂, hone, hrest⟩ := forM_cons_ok.mp h
    simp only [mountFragment, bind_ok, expect_ok] at hone
    obtain ⟨_, t₁, hinsert, child, _, ⟨hchild, rfl⟩, halter⟩ := hone
    have hcons : stagedNodes (f :: rest) = f.nodes ++ stagedNodes rest := List.flatMap_cons
    rw [hcons] at distinct kinds
    rw [ids_append, List.nodup_append'] at distinct
    obtain ⟨-, there, apart⟩ := distinct
    have fragment := valid f List.mem_cons_self
    have inserted := insert_nodes fragment hinsert
    obtain ⟨fresh, away⟩ := insert_segments fragment hinsert
    obtain ⟨entry, he, rfl⟩ := alter_run_ok.mp halter
    have segment₂ := segment_put (g := t₁) f.root { entry with
      parent := some (.keyed container f.key child.instanceId)
      segment := .boundary child.instanceId }
    have installed := ih (fun f' hf' => valid f' (List.mem_cons_of_mem _ hf')) there
      (fun n hn => kinds n (List.mem_append_right _ hn)) hrest
    have listed {c : ℕ} (hc : c ∈ childIds f.nodes) : c ∈ ids f.nodes :=
      (fragment.listed c hc).resolve_right (Finset.notMem_empty _)
    have root_listed := fragment.root_listed.resolve_right (Finset.notMem_empty _)
    refine ⟨fun n hn c s hc => ?_, fun f' hf' => ?_, fun x hx => ?_⟩
    · rw [hcons] at hn
      rcases List.mem_append.mp hn with hn | hn
      · have hchild := mem_childIds.mpr ⟨n, hn, mem_children hc⟩
        have hne : c ≠ f.root := fun heq => fragment.root_free (heq ▸ hchild)
        rw [installed.away c fun hmem => apart (listed hchild) hmem]
        refine (congrFun segment₂ c).trans ?_
        rw [Function.update_of_ne hne]
        refine fresh n hn c s ?_
        rwa [segments_congr fun d hd => ?_]
        obtain ⟨m, hm, rfl⟩ := List.mem_map.mp (listed (mem_childIds.mpr ⟨n, hn, hd⟩))
        obtain ⟨e, hget, hnode, -⟩ := inserted.fresh m hm
        rw [kinds m (List.mem_append_left _ hm), MountedGraph.node, hget, Option.map_some,
          Option.map_some, hnode]
      · exact installed.fresh n hn c s hc
    · rcases List.mem_cons.mp hf' with rfl | hf'
      · refine ⟨child, hchild, ?_⟩
        rw [installed.away _ fun hmem => apart root_listed hmem]
        exact (congrFun segment₂ _).trans (Function.update_self ..)
      · exact installed.roots f' hf'
    · rw [hcons, ids_append, List.mem_append, not_or] at hx
      have hne : x ≠ f.root := fun heq => hx.1 (heq ▸ root_listed)
      rw [installed.away x hx.2]
      refine (congrFun segment₂ x).trans ?_
      rw [Function.update_of_ne hne, away x hx.1 fun hc => hx.1 (listed hc)]

end Mounting

section Committing

variable {g g' : MountedGraph K} {container newRevision : ℕ} {entry : MountedNode K}
  {prepared : PreparedFragments K} {j : KeyedOrderJournal K} {l₀ l : KeyedList K (ℕ × ℕ)}

omit [DecidableEq K] in
theorem segment_withOrder (he : g.nodes.get container = some entry)
    (o : Option (KeyedChildOrder K)) : (withOrder container entry o g).cachedSegment = g.cachedSegment := by
  refine (segment_put container { entry with keyedChildren := o }).trans ?_
  rw [← segment_eq he, Function.update_eq_self]

theorem container_agrees (h : Shape g) (bounded : Bounded g) (bounded' : Bounded g')
    (s : Segmented g) (p : Prepared g container l₀ prepared j l)
    (e : Grafted g g' prepared.removedIds (stagedNodes prepared.fragments) ∅
      (prepared.fragments.map (placeOf container { j.order with revision := newRevision }))
      (some container) g.root)
    (tops : ∀ f ∈ prepared.fragments, ∃ child, j.order.children.get f.key = some child ∧
      g'.cachedSegment f.root = some (.boundary child.instanceId))
    (kept : ∀ x, x ∉ prepared.removedIds → x ∉ ids (stagedNodes prepared.fragments) →
      g'.cachedSegment x = g.cachedSegment x)
    (keyed : ∀ c l, (c, l) ∈ (forest g).kids container → ∃ k i, l = .keyed container k i) :
    Agrees g' container := by
  intro c key hc
  obtain ⟨⟨c, place⟩, hkid, rfl⟩ := List.mem_map.mp (mem_children hc)
  rcases (e.kids_site rfl c place).mp hkid with htop | ⟨hold, hr⟩
  · obtain ⟨f, hf, heq⟩ := List.mem_map.mp htop
    obtain ⟨i, -, hplace⟩ := placeOf_eq p newRevision hf
    obtain ⟨child, hchild, hsegment⟩ := tops f hf
    have hi : i = child.instanceId := by
      have := (Prod.mk.inj hplace).2
      simp only [hchild, Option.map_some, Option.some.injEq, ParentLocation.keyed.injEq] at this
      exact this.2.2.symm
    rw [hplace] at heq
    obtain ⟨rfl, hlocation⟩ := Prod.mk.inj heq
    have hbound := bounded' _ _ _ _ (e.parent_top (List.mem_map.mpr ⟨f, hf, hplace⟩))
    obtain ⟨n, hn, hk⟩ := Option.map_eq_some_iff.mp hbound
    rw [hsegment, segment_boundary hn hk hc, hi]
  · obtain ⟨k, i, rfl⟩ := keyed c place hold
    obtain ⟨hm, hp⟩ := h.linked.placed hold
    have hid : c ∉ ids (stagedNodes prepared.fragments) := fun hid => fresh_not_mounted e h hid hm
    have hbound := bounded _ _ _ _ hp
    have hbound' := kind_of_kept e h hm hr
    rw [hbound] at hbound'
    obtain ⟨n, hn, hk⟩ := Option.map_eq_some_iff.mp hbound
    obtain ⟨n', hn', hk'⟩ := Option.map_eq_some_iff.mp hbound'
    obtain ⟨key', hold_key⟩ := segment_exists g.node
      (List.mem_map_of_mem (f := Prod.fst) hold) (by simp [hn]) ∅ 0
    rw [kept c hr hid, s.agrees container c key' hold_key, segment_boundary hn hk hold_key,
      segment_boundary hn' hk' hc]

variable {hashOrder : Enumeration K (Option (KeyedChild K))} {baseRevision : ℕ}
  {operations : List (KeyedGraphOperation K)}

/-- What a transaction leaves of the keys, whatever the items are. -/
structure Restocked (g g' : MountedGraph K) (prepared : PreparedFragments K)
    (j : KeyedOrderJournal K) : Prop where
  fresh : ∀ n ∈ stagedNodes prepared.fragments, ∀ c s,
    (c, s) ∈ siblingSegments g'.node ∅ 0 n.children → g'.cachedSegment c = some s
  roots : ∀ f ∈ prepared.fragments, ∃ child, j.order.children.get f.key = some child ∧
    g'.cachedSegment f.root = some (.boundary child.instanceId)
  kept : ∀ x, x ∉ prepared.removedIds → x ∉ ids (stagedNodes prepared.fragments) →
    g'.cachedSegment x = g.cachedSegment x

theorem commit_restocked (h : Shape g) (hentry : keyedContainer container g = .ok entry)
    (p : Prepared g container l₀ prepared j l)
    (e : Grafted g g' prepared.removedIds (stagedNodes prepared.fragments) ∅
      (prepared.fragments.map (placeOf container { j.order with revision := newRevision }))
      (some container) g.root) {a : KeyedGraphApply K} {previous : Option ℕ}
    (hcommit : (commitKeyed container newRevision j prepared previous).run
      (withOrder container entry none g) = .ok a g') : Restocked g g' prepared j := by
  have he := (keyed_base h hentry).1
  simp only [commitKeyed, exchangeKeyed, bind_ok, query_run_ok, pure_ok] at hcommit
  obtain ⟨oldSize, _, ⟨hsize, rfl⟩, carried, g0, hcarry, ended, t4, ⟨ended', t, hretire, _, t1, hmount,
    _, t2, hresize, _, t3, hput, rfl, rfl⟩, _, g1, hfinish, rfl, rfl⟩ := hcommit
  have segment0 : g0.cachedSegment = g.cachedSegment := (segment_of_withoutInteraction
    (kept_of_preserves (fun c => preserves_carry _) hcarry)).trans (segment_withOrder he none)
  have retired := retire_all hretire
  have segment1 : g1.cachedSegment = t1.cachedSegment :=
    (segment_of_withoutInteraction (kept_of_preserves (fun c => preserves_finish _ _ _) hfinish)).trans <|
    (kept_of_preserves (fun c => by exact segment_alter fun _ => rfl) hput).trans
      (kept_of_preserves (fun c => segment_resizeContainer _ _ _) hresize)
  have installed := mount_fragments_segments g1.node p.fragments p.distinct
    (fun n hn => by rw [e.node_fresh h hn]; rfl) hmount
  refine ⟨fun n hn c key hc => ?_, fun f hf => ?_, fun x hr hx => ?_⟩
  · rw [segment1]
    exact installed.fresh n hn c key hc
  · obtain ⟨child, hchild, hroot⟩ := installed.roots f hf
    exact ⟨child, hchild, by rw [segment1, hroot]⟩
  · rw [segment1, installed.away x hx, segment_retired retired hr, segment0]

theorem keyed_segmented (h : Shape g) (bounded : Bounded g) (s : Segmented g)
    {a : KeyedGraphApply K}
    (hrun : (applyKeyed hashOrder container baseRevision newRevision operations).run g =
      .ok a g') : Segmented g' := by
  have bounded' := keyed_bounded h bounded hrun
  obtain ⟨entry, outer, prepared, j, hentry, -, -, hprepare, hcommit⟩ := apply_keyed_ok hrun
  obtain ⟨l₀, l, p, e⟩ := commit_grafted h hentry hprepare hcommit
  have restocked := commit_restocked h hentry p e hcommit
  obtain ⟨he, l₁, -, hlocations⟩ := keyed_base h hentry
  refine marked_segmented e h s ⟨restocked.fresh, fun x hx hr _ _ _ =>
    restocked.kept x hr fun hid => fresh_not_mounted e h hid hx, fun q hq => ?_, fun c hc n hn => ?_⟩
  · obtain rfl := Option.some.inj hq
    refine container_agrees h bounded bounded' s p e restocked.roots restocked.kept fun c place hc => ?_
    rw [kids_eq he, hlocations] at hc
    obtain ⟨⟨k, r, i⟩, -, heq⟩ := List.mem_map.mp hc
    exact ⟨k, i, (Prod.mk.inj heq).2.symm⟩
  · obtain ⟨f, hf, heq⟩ := List.mem_map.mp hc
    obtain ⟨i, -, hplace⟩ := placeOf_eq p newRevision hf
    rw [hplace] at heq
    cases (Prod.mk.inj heq).2

end Committing

section Runs

variable {g g' : MountedGraph K} {patch : Patch K}

theorem segmented_empty : Segmented (.empty : MountedGraph K) := by
  refine ⟨by simp [MountedGraph.empty], fun p c key hc => ?_⟩
  have hkids : (forest (.empty : MountedGraph K)).kids p = [] := by
    simp [Forest.kids, forest, MountedGraph.empty]
  simp [hkids, siblingSegments] at hc

theorem step_segmented (h : Shape g) (bounded : Bounded g) (s : Segmented g)
    (installs : InstallsItems g patch) (step : (accepting K).Step g patch g') : Segmented g' := by
  have bounded' := step_bounded h bounded installs step
  obtain ⟨hashOrder, a, hrun⟩ := step
  have replaced {r : Replacement K} (hrun : (applyReplacement r).run g = .ok a g') :
      Segmented g' := by
    obtain ⟨plan, hplan, e⟩ := replacement_grafted h hrun
    exact marked_segmented e h s (replacement_marked h bounded bounded' s hplan hrun).1
  cases patch with
  | mount root nodes => exact replaced hrun
  | noChange => exact noChange_run hrun ▸ s
  | replace oldRoot root nodes => exact replaced hrun
  | replaceRetaining oldRoot root nodes retainedRoots => exact replaced hrun
  | keyed container baseRevision newRevision operations =>
    obtain ⟨keyed, hkeyed⟩ := apply_keyed_run hrun
    exact keyed_segmented h bounded s hkeyed

theorem segmented_reachable (h : Reachable ((accepting K).restrict InstallsItems) g) :
    Shape g ∧ Bounded g ∧ Segmented g := by
  refine reachable_invariant (S := (accepting K).restrict InstallsItems)
    (P := fun g => Shape g ∧ Bounded g ∧ Segmented g) ⟨shape_empty, ?_, segmented_empty⟩ ?_ h
  · intro c container key instanceId hparent
    have := mounted_of_parent hparent
    simp [System.restrict, accepting, MountedGraph.empty] at this
  · rintro s patch t ⟨shape, bounded, segmented⟩ ⟨installs, step⟩
    exact ⟨step_shape shape step, step_bounded shape bounded installs step,
      step_segmented shape bounded segmented installs step⟩

end Runs

end KeyedIdentities
