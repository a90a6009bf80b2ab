import RocGui.GraphIndices
import RocGui.SiblingSegments

/-! What the pieces of a patch do to the cached sibling keys. -/
namespace GraphSegments

open FiniteMaps Methods KeyedOrder KeyedOrderLists GraphState FragmentValidation GraphPatches
open FragmentTrees GraphForests GraphMounting GraphFrames GraphExchanges SiblingSegments
open StackWalks

variable {K : Type}

section Frames

variable {c : ℕ → Option IdentitySegment} {g : MountedGraph K}

theorem segment_eq {id : ℕ} {e : MountedNode K} (h : g.nodes.get id = some e) :
    g.cachedSegment id = some e.segment := by
  rw [MountedGraph.cachedSegment, h]
  rfl

theorem segment_put (id : ℕ) (e : MountedNode K) :
    (put g id e).cachedSegment = Function.update g.cachedSegment id (some e.segment) := by
  funext x
  simp only [MountedGraph.cachedSegment, put, FiniteMap.get_set, Function.update_apply]
  split <;> rfl

theorem segment_alter {message : String} {id : ℕ} {f : MountedNode K → MountedNode K}
    (same : ∀ e, (f e).segment = e.segment) :
    Preserves (fun g : MountedGraph K => g.cachedSegment = c) (alter message id f) := by
  intro g hg
  cases he : g.nodes.get id with
  | none =>
    rw [alter, run_bind_ok (EStateM.run_get g), he]
    exact hg
  | some e =>
    rw [alter_run _ _ he, after_ok]
    change (put g id (f e)).cachedSegment = c
    rw [segment_put, same, ← segment_eq he, Function.update_eq_self]
    exact hg

theorem segment_plain (message : String) (id : ℕ) (f : MountedNode K → MountedNode K)
    (plain : Plain f) : Preserves (fun g => g.cachedSegment = c) (alter message id f) :=
  segment_alter fun e => (plain e).2.2

theorem segment_setParent (id : ℕ) (message : String) (location : Option (ParentLocation K)) :
    Preserves (fun g : MountedGraph K => g.cachedSegment = c) (setParent id message location) :=
  frame_parent segment_plain id message location

theorem segment_resize (oldSize newSize : ℕ) (current : Option ℕ) :
    Preserves (fun g : MountedGraph K => g.cachedSegment = c)
      (resizeAncestors oldSize newSize current) :=
  frame_resize segment_plain oldSize newSize current

theorem segment_resizeContainer (container oldSize keyedSize : ℕ) :
    Preserves (fun g : MountedGraph K => g.cachedSegment = c)
      (resizeContainer container oldSize keyedSize) :=
  frame_container segment_plain container oldSize keyedSize

theorem segment_attachRoot [DecidableEq K] (location : ParentLocation K) (root : ℕ) :
    Preserves (fun g => g.cachedSegment = c) (attachRoot location root) :=
  frame_root segment_plain location root

theorem segment_of_withoutInteraction {g' : MountedGraph K}
    (h : withoutInteraction g' = withoutInteraction g) : g'.cachedSegment = g.cachedSegment :=
  show (withoutInteraction g').cachedSegment = (withoutInteraction g).cachedSegment from
    congrArg MountedGraph.cachedSegment h

theorem segment_retired {g' : MountedGraph K} {removed : List ℕ} (h : Retired g g' removed) {x : ℕ}
    (hx : x ∉ removed) : g'.cachedSegment x = g.cachedSegment x := by
  rw [MountedGraph.cachedSegment, MountedGraph.cachedSegment, h.nodes, if_neg hx]

end Frames

section Refreshing

variable {g g' : MountedGraph K} {children : List ℕ} {p : ℕ}

theorem set_segment {message : String} {child : ℕ × IdentitySegment} {u : Unit}
    (h : (setSegment message child).run g = .ok u g') : outline g' = outline g ∧
      g'.cachedSegment = Function.update g.cachedSegment child.1 (some child.2) := by
  obtain ⟨e, he, rfl⟩ := alter_run_ok.mp h
  exact ⟨outline_put_segment he child.2, segment_put child.1 { e with segment := child.2 }⟩

theorem set_segments {message : String} {keyed : List (ℕ × IdentitySegment)} {u : PUnit}
    (distinct : (keyed.map Prod.fst).Nodup)
    (h : (keyed.forM (setSegment message)).run g = .ok u g') : outline g' = outline g ∧
      (∀ x s, (x, s) ∈ keyed → g'.cachedSegment x = some s) ∧
      ∀ x, x ∉ keyed.map Prod.fst → g'.cachedSegment x = g.cachedSegment x := by
  induction keyed generalizing g with
  | nil =>
    obtain rfl := forM_nil_ok.mp h
    exact ⟨rfl, by simp, fun _ _ => rfl⟩
  | cons child rest ih =>
    obtain ⟨t, hone, hrest⟩ := forM_cons_ok.mp h
    rw [List.map_cons, List.nodup_cons] at distinct
    obtain ⟨same, here⟩ := set_segment hone
    obtain ⟨same', keyed, away⟩ := ih distinct.2 hrest
    refine ⟨same'.trans same, fun x s hx => ?_, fun x hx => ?_⟩
    · rcases List.mem_cons.mp hx with rfl | hx
      · rw [away x distinct.1, here, Function.update_self]
      · exact keyed x s hx
    · rw [List.map_cons, List.mem_cons, not_or] at hx
      rw [away x hx.2, here, Function.update_of_ne hx.1]

/-- The keys of these children have been brought up to date. -/
structure Refreshed (g g' : MountedGraph K) (children : List ℕ) : Prop where
  outline : outline g' = outline g
  keyed : ∀ x s, (x, s) ∈ siblingSegments g.node ∅ 0 children → g'.cachedSegment x = some s
  away : ∀ x, x ∉ children → g'.cachedSegment x = g.cachedSegment x

variable [DecidableEq K]

theorem refresh_ok {u : Unit} (mounted : (g.nodes.get p).isSome)
    (hchildren : g.childrenOf p = (.ok children : Reading K _)) (distinct : children.Nodup)
    (h : (refreshChildSegments p).run g = .ok u g') : Refreshed g g' children := by
  simp only [refreshChildSegments, bind_ok, query_run_ok] at h
  obtain ⟨keyed, _, ⟨hkeyed, rfl⟩, hset⟩ := h
  obtain ⟨e, he⟩ := Option.isSome_iff_exists.mp mounted
  have hnode : g.node p = some e.node := by
    rw [MountedGraph.node, he]
    rfl
  rw [MountedGraph.childSegments, hnode] at hkeyed
  simp only [hchildren, Except.map] at hkeyed
  obtain rfl := Except.ok.inj hkeyed
  have sub : ((siblingSegments g.node ∅ 0 children).map Prod.fst).Sublist children :=
    segments_sublist g.node ∅ 0
  obtain ⟨same, keyed, away⟩ := set_segments (distinct.sublist sub) hset
  exact ⟨same, keyed, fun x hx => away x fun hmem => hx (sub.subset hmem)⟩

theorem children_congr {id : ℕ} (h : content g' id = content g id) :
    (g'.childrenOf id : Reading K _) = g.childrenOf id := by
  unfold MountedGraph.childrenOf
  cases he : g.nodes.get id with
  | none =>
    cases he' : g'.nodes.get id with
    | none => rfl
    | some e' => simp [content, he, he'] at h
  | some e =>
    cases he' : g'.nodes.get id with
    | none => simp [content, he, he'] at h
    | some e' =>
      simp only [content, he, he', Option.map_some, Option.some.injEq, Prod.mk.injEq] at h
      simp only [h.1, h.2]

omit [DecidableEq K] in
theorem node_congr (h : content g' = content g) : g'.node = g.node := by
  funext x
  rw [node_of_content, node_of_content, h]

/-- What settling nodes leaves of the keys. -/
structure Traced (g g' : MountedGraph K) (done : List ℕ) (below : ℕ → List ℕ) : Prop where
  content : content g' = content g
  keyed : ∀ d ∈ done, ∀ x s, (x, s) ∈ siblingSegments g.node ∅ 0 (below d) →
    g'.cachedSegment x = some s
  away : ∀ x, (∀ d ∈ done, x ∉ below d) → g'.cachedSegment x = g.cachedSegment x

theorem settle_traced {u : Unit} (hchildren : g.childrenOf p = (.ok children : Reading K _))
    (distinct : children.Nodup) (h : (settle p).run g = .ok u g') :
    content g' = content g ∧
      (∀ x s, (x, s) ∈ siblingSegments g.node ∅ 0 children → g'.cachedSegment x = some s) ∧
      ∀ x, x ∉ children → g'.cachedSegment x = g.cachedSegment x := by
  simp only [settle, bind_ok, get_ok, expect_ok, query_run_ok] at h
  obtain ⟨_, _, ⟨rfl, rfl⟩, e, _, ⟨he, rfl⟩, sizes, _, ⟨hsizes, rfl⟩, _, g1, hsize, _, g2, hparents,
    hrefresh⟩ := h
  have segment1 : g1.cachedSegment = g.cachedSegment :=
    kept_of_preserves (fun c => by exact segment_alter fun _ => rfl) hsize
  have segment2 : g2.cachedSegment = g1.cachedSegment := by
    refine kept_of_preserves (fun c => preserves_forM (fun child => ?_) _) hparents
    exact preserves_bind (preserves_query _) fun _ => segment_setParent _ _ _
  obtain ⟨e', he', rfl⟩ := alter_run_ok.mp hsize
  obtain rfl := Option.some.inj (he.symm.trans he')
  have content1 : content (put g p { e with subtreeSize := 1 + sizes.sum }) = content g :=
    (sameContent_put he { e with subtreeSize := 1 + sizes.sum } rfl rfl).content
  have content2 : content g2 = content g := (parents_ok hparents).1.content.trans content1
  have mounted : (g2.nodes.get p).isSome := by
    rw [← content_is_some, content2, content_is_some, he]
    rfl
  obtain ⟨same, keyed, away⟩ := refresh_ok mounted
    ((children_congr (congrFun content2 p)).trans hchildren) distinct hrefresh
  rw [node_congr content2] at keyed
  refine ⟨(congrArg Outline.content same).trans content2, keyed, fun x hx => ?_⟩
  rw [away x hx, segment2, segment1]

theorem settle_each {ids : List ℕ} {below : ℕ → List ℕ} {u : PUnit}
    (hchildren : ∀ d ∈ ids, g.childrenOf d = (.ok (below d) : Reading K _))
    (distinct : ∀ d ∈ ids, (below d).Nodup)
    (apart : ids.Pairwise fun d d' => (below d).Disjoint (below d'))
    (h : (ids.forM settle).run g = .ok u g') : Traced g g' ids below := by
  induction ids generalizing g with
  | nil =>
    obtain rfl := forM_nil_ok.mp h
    exact ⟨rfl, by simp, fun _ _ => rfl⟩
  | cons d rest ih =>
    obtain ⟨t, hone, hrest⟩ := forM_cons_ok.mp h
    rw [List.pairwise_cons] at apart
    obtain ⟨same, keyed, away⟩ := settle_traced (hchildren d (by simp)) (distinct d (by simp)) hone
    have traced := ih (fun d' hd' => (children_congr (congrFun same d')).trans
      (hchildren d' (by simp [hd']))) (fun d' hd' => distinct d' (by simp [hd'])) apart.2 hrest
    refine ⟨traced.content.trans same, fun d' hd' x s hx => ?_, fun x hx => ?_⟩
    · rcases List.mem_cons.mp hd' with rfl | hd'
      · rw [traced.away x fun d'' hd'' => apart.1 d'' hd'' (mem_children hx)]
        exact keyed x s hx
      · refine traced.keyed d' hd' x s ?_
        rwa [node_congr same]
    · rw [traced.away x fun d' hd' => hx d' (by simp [hd']), away x (hx d (by simp))]

end Refreshing

section Inserting

variable [DecidableEq K] {root : ℕ} {nodes : List (Node K)} {retained : Finset ℕ}
  {validated : ValidatedFragment K} {g g' : MountedGraph K}

theorem children_fresh {n : Node K} {e : MountedNode K} (he : g.nodes.get n.id = some e)
    (hnode : e.node = n) (seeded : Seeded g.node n e.keyedChildren)
    (listed : (locations n.id e).map Prod.fst = n.children) :
    g.childrenOf n.id = (.ok n.children : Reading K _) := by
  unfold MountedGraph.childrenOf
  simp only [he]
  cases ho : e.keyedChildren with
  | none => simp [hnode]
  | some o =>
    rw [ho] at seeded
    obtain ⟨-, l, hl, -⟩ := seeded_represents seeded
    obtain ⟨cs, hcs, heq⟩ := forward_eq hl
    rw [locations_fst, ho] at listed
    simp only [entries_of hl, ← heq, List.map_map] at listed
    simp only [MountedGraph.orderRoots, hcs]
    exact congrArg Except.ok listed

theorem insert_segments (f : Fragment root nodes retained validated) {u : PUnit}
    (h : (insertNodes nodes validated).run g = .ok u g') :
    (∀ n ∈ nodes, ∀ x s, (x, s) ∈ siblingSegments g'.node ∅ 0 n.children →
      g'.cachedSegment x = some s) ∧
      ∀ x, x ∉ ids nodes → x ∉ childIds nodes → g'.cachedSegment x = g.cachedSegment x := by
  have inserted := insert_nodes f h
  simp only [insertNodes, bind_ok] at h
  obtain ⟨_, g1, hmount, _, g2, hseed, hsettle⟩ := h
  have mounts := mount_all f.distinct hmount
  have seeds := seed_all f.distinct mounts.fresh hseed
  have lookup : ∀ n ∈ nodes, g2.node n.id = some n := fun n hn => by
    obtain ⟨order, -, he⟩ := seeds.seeded n hn
    rw [MountedGraph.node, he]
    rfl
  have same := (settle_all f lookup hsettle).same.content
  have node_of {d : ℕ} (hd : d ∈ validated.postorder) : ∃ n ∈ nodes, n.id = d ∧
      below validated.fresh d = n.children := by
    obtain ⟨n, hn, rfl⟩ := List.mem_map.mp (f.mem_postorder.mp hd)
    exact ⟨n, hn, rfl, below_eq f hn⟩
  have traced : Traced g2 g' validated.postorder (below validated.fresh) := by
    refine settle_each (fun d hd => ?_) (fun d hd => ?_) ?_ hsettle
    · obtain ⟨n, hn, rfl, hbelow⟩ := node_of hd
      obtain ⟨e, he, hnode, seeded, listed, -⟩ := inserted.fresh n hn
      rw [hbelow, ← children_congr (congrFun same n.id)]
      exact children_fresh he hnode seeded listed
    · obtain ⟨n, hn, rfl, hbelow⟩ := node_of hd
      rw [hbelow]
      exact children_nodup f hn
    · refine f.postorder_nodup.imp_of_mem fun {d d'} hd hd' hne c hc hc' => ?_
      obtain ⟨n, hn, rfl, hbelow⟩ := node_of hd
      obtain ⟨m, hm, rfl, hbelow'⟩ := node_of hd'
      rw [hbelow] at hc
      rw [hbelow'] at hc'
      exact children_apart f hn hm hne hc hc'
  refine ⟨fun n hn x s hx => ?_, fun x hx hc => ?_⟩
  · refine traced.keyed n.id (f.mem_postorder.mpr (List.mem_map_of_mem hn)) x s ?_
    rwa [below_eq f hn, ← node_congr same]
  · rw [traced.away x, MountedGraph.cachedSegment, MountedGraph.cachedSegment, seeds.away x hx,
      mounts.away x hx]
    intro d hd hmem
    obtain ⟨n, hn, rfl, hbelow⟩ := node_of hd
    rw [hbelow] at hmem
    exact hc (mem_childIds.mpr ⟨n, hn, hmem⟩)

end Inserting

end GraphSegments
