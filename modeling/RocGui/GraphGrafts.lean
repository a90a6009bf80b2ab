import RocGui.GraphExchanges

/-! Replacements and keyed transactions are one kind of edit: nodes go, fragments are
mounted, and the children of one node that stays are rewritten. -/
namespace GraphGrafts

open FiniteMaps KeyedLists Methods KeyedOrder KeyedOrderLists GraphState FragmentValidation
open GraphPatches
open FragmentTrees GraphForests GraphMounting GraphExchanges PointerTrees

variable {K : Type} [DecidableEq K]

section Splicing

variable {g t t' : MountedGraph K} {removed : List ℕ} {nodes more : List (Node K)}
  {tops : List (ℕ × Option (ParentLocation K))}

/-- What has been done to `g` once `removed` is gone and `nodes` are mounted, with the
places `tops` for the roots of their fragments. -/
structure Spliced (g t : MountedGraph K) (removed : List ℕ) (nodes : List (Node K))
    (tops : List (ℕ × Option (ParentLocation K))) : Prop where
  root : t.root = g.root
  issued : g.maxSeenNodeId ≤ t.maxSeenNodeId ∧ ∀ n ∈ nodes, n.id ≤ t.maxSeenNodeId
  fresh : ∀ n ∈ nodes, ∃ e, t.nodes.get n.id = some e ∧ e.node = n ∧
    Seeded t.node n e.keyedChildren ∧ (locations n.id e).map Prod.fst = n.children ∧
    (∀ c loc, (c, loc) ∈ locations n.id e → t.parentLocation c = some loc) ∧
    e.subtreeSize = 1 + (forest t).total (locations n.id e)
  placed : ∀ c loc, (c, loc) ∈ tops → t.parentLocation c = loc
  content : ∀ x, x ∉ ids nodes → content t x = if x ∈ removed then none else content g x
  sizes : ∀ x, x ∉ ids nodes → x ∉ removed → t.subtreeSize x = g.subtreeSize x
  parents : ∀ x, x ∉ ids nodes → x ∉ removed → x ∉ childIds nodes → x ∉ tops.map Prod.fst →
    t.parentLocation x = g.parentLocation x

theorem spliced_retired (h : Retired g t removed) : Spliced g t removed [] [] := by
  refine ⟨h.root, ⟨h.issued.ge, by simp⟩, by simp, by simp, fun x _ => ?_, fun x _ hx => ?_,
    fun x _ hx _ _ => ?_⟩
  · rw [content, content, h.nodes]
    split <;> rfl
  · rw [MountedGraph.subtreeSize, MountedGraph.subtreeSize, h.nodes, if_neg hx]
  · rw [MountedGraph.parentLocation, MountedGraph.parentLocation, h.nodes, if_neg hx]

theorem spliced_outline (s : Spliced g t removed nodes tops) {g' : MountedGraph K}
    (h : outline g' = outline g) : Spliced g' t removed nodes tops := by
  simp only [outline, Outline.mk.injEq] at h
  obtain ⟨hcontent, hsize, hparent, hroot, hissued⟩ := h
  exact ⟨s.root.trans hroot.symm, by rw [hissued]; exact s.issued, s.fresh, s.placed,
    fun x hx => by rw [hcontent]; exact s.content x hx,
    fun x hx hr => by rw [hsize]; exact s.sizes x hx hr,
    fun x hx hr hc ht => by rw [hparent]; exact s.parents x hx hr hc ht⟩

theorem total_congr {cs : List (ℕ × ParentLocation K)}
    (h : ∀ c ∈ cs, t'.subtreeSize c.1 = t.subtreeSize c.1) :
    (forest t').total cs = (forest t).total cs :=
  congrArg List.sum (List.map_congr_left fun c hc => congrArg (Option.getD · 0) (h c hc))

omit [DecidableEq K] in
theorem ids_append : ids (nodes ++ more) = ids nodes ++ ids more := List.map_append

omit [DecidableEq K] in
theorem childIds_append : childIds (nodes ++ more) = childIds nodes ++ childIds more :=
  List.flatMap_append

theorem seeded_congr {lookup lookup' : ℕ → Option (Node K)} {n : Node K}
    {order : Option (KeyedChildOrder K)} (same : ∀ c ∈ n.children, lookup' c = lookup c)
    (h : Seeded lookup n order) : Seeded lookup' n order := by
  unfold Seeded at h ⊢
  split at h
  · obtain ⟨entries, o, ho, hseed, hmap, hbound⟩ := h
    refine ⟨entries, o, ho, hseed, hmap, fun e he => ?_⟩
    have hmem : (e.1, e.2.1) ∈ entries.map fun e => (e.1, e.2.1) := List.mem_map_of_mem he
    rw [hmap] at hmem
    rw [same _ (List.of_mem_zip hmem).2]
    exact hbound e he
  · exact h

theorem spliced_insert {root : ℕ} {retained : Finset ℕ} {validated : ValidatedFragment K}
    {location : Option (ParentLocation K)} {u : MountedGraph K}
    (s : Spliced g t removed nodes tops) (f : Fragment root more retained validated)
    (apart : ∀ c, c ∈ ids more ∨ c ∈ retained →
      c ∉ ids nodes ∧ c ∉ childIds nodes ∧ c ∉ tops.map Prod.fst)
    (inserted : Inserted t u more) (same : SameContent u t') (sizes : t'.subtreeSize = u.subtreeSize)
    (parents : t'.parentLocation = Function.update u.parentLocation root location) :
    Spliced g t' removed (nodes ++ more) (tops ++ [(root, location)]) := by
  have hnode : t'.node = u.node := by
    funext x
    rw [node_of_content, node_of_content, same.content]
  have entry {x : ℕ} {e : MountedNode K} (he : u.nodes.get x = some e) :
      ∃ e', t'.nodes.get x = some e' ∧ e'.node = e.node ∧ e'.keyedChildren = e.keyedChildren ∧
        locations x e' = locations x e := by
    have hc := congrFun same.content x
    cases he' : t'.nodes.get x with
    | none => simp [content, he, he'] at hc
    | some e' =>
      simp only [content, he, he', Option.map_some, Option.some.injEq, Prod.mk.injEq] at hc
      exact ⟨e', rfl, hc.1, hc.2, by simp only [locations, hc.1, hc.2]⟩
  have size_of {x : ℕ} {e e' : MountedNode K} (he : u.nodes.get x = some e)
      (he' : t'.nodes.get x = some e') : e'.subtreeSize = e.subtreeSize := by
    have := congrFun sizes x
    rw [size_eq he, size_eq he'] at this
    exact Option.some.inj this
  have total_same (cs : List (ℕ × ParentLocation K)) : (forest t').total cs = (forest u).total cs :=
    total_congr fun c _ => congrFun sizes c.1
  have parent_of {c : ℕ} (hc : c ≠ root) : t'.parentLocation c = u.parentLocation c := by
    rw [parents, Function.update_of_ne hc]
  -- what the earlier fragments refer to is not touched by the new one
  have old_child {c : ℕ} (hc : c ∈ ids nodes ∨ c ∈ childIds nodes ∨ c ∈ tops.map Prod.fst) :
      c ∉ ids more ∧ c ∉ childIds more ∧ c ≠ root := by
    have outside : ¬(c ∈ ids more ∨ c ∈ retained) := fun h => by
      obtain ⟨h1, h2, h3⟩ := apart c h
      tauto
    refine ⟨fun h => outside (.inl h), fun h => outside (f.listed c h), ?_⟩
    rintro rfl
    exact outside f.root_listed
  have old_parent {c : ℕ} (hc : c ∈ ids nodes ∨ c ∈ childIds nodes ∨ c ∈ tops.map Prod.fst) :
      t'.parentLocation c = t.parentLocation c := by
    obtain ⟨hids, hchild, hroot⟩ := old_child hc
    rw [parent_of hroot, inserted.parents c hids hchild]
  refine ⟨?_, ?_, fun n hn => ?_, fun c loc hc => ?_, fun x hx => ?_, fun x hx hr => ?_,
    fun x hx hr hc ht => ?_⟩
  · rw [same.root, inserted.root, s.root]
  · rw [same.issued]
    refine ⟨s.issued.1.trans inserted.issued.1, fun n hn => ?_⟩
    rcases List.mem_append.mp hn with hn | hn
    · exact (s.issued.2 n hn).trans inserted.issued.1
    · exact inserted.issued.2 n hn
  · rcases List.mem_append.mp hn with hn | hn
    · obtain ⟨e, he, hen, seeded, hfst, hplaced, hsize⟩ := s.fresh n hn
      have hid := (old_child (.inl (List.mem_map_of_mem hn))).1
      have hchild {c : ℕ} {loc : ParentLocation K} (hc : (c, loc) ∈ locations n.id e) :
          c ∈ childIds nodes := by
        refine mem_childIds.mpr ⟨n, hn, ?_⟩
        rw [← hfst]
        exact List.mem_map_of_mem hc
      have hcontent := inserted.content n.id hid
      cases hu : u.nodes.get n.id with
      | none => simp [content, he, hu] at hcontent
      | some eu =>
        simp only [content, he, hu, Option.map_some, Option.some.injEq, Prod.mk.injEq] at hcontent
        have hlocations : locations n.id eu = locations n.id e := by
          simp only [locations, hcontent.1, hcontent.2]
        have husize := inserted.sizes n.id hid
        rw [size_eq hu, size_eq he] at husize
        obtain ⟨e', he', hn', hk', hlocations'⟩ := entry hu
        refine ⟨e', he', (hn'.trans hcontent.1).trans hen, ?_, ?_, fun c loc hc => ?_, ?_⟩
        · rw [hk', hcontent.2]
          refine seeded_congr (fun c hc => ?_) seeded
          have hout := (old_child (.inr (.inl (mem_childIds.mpr ⟨n, hn, hc⟩)))).1
          rw [hnode, node_of_content, node_of_content, inserted.content c hout]
        · rw [hlocations', hlocations, hfst]
        · rw [hlocations', hlocations] at hc
          rw [old_parent (.inr (.inl (hchild hc))), hplaced c loc hc]
        · rw [size_of hu he', Option.some.inj husize, hsize, hlocations', hlocations, total_same]
          refine congrArg (1 + ·) (total_congr fun c hc => ?_).symm
          exact inserted.sizes c.1 (old_child (.inr (.inl (hchild hc)))).1
    · obtain ⟨e, he, hen, seeded, hfst, hplaced, hsize, -⟩ := inserted.fresh n hn
      obtain ⟨e', he', hn', hk', hlocations⟩ := entry he
      refine ⟨e', he', hn'.trans hen, by rw [hk', hnode]; exact seeded, by rw [hlocations, hfst],
        fun c loc hc => ?_, by rw [size_of he he', hsize, hlocations, total_same]⟩
      rw [hlocations] at hc
      rw [parent_of, hplaced c loc hc]
      rintro rfl
      refine f.root_free (mem_childIds.mpr ⟨n, hn, ?_⟩)
      rw [← hfst]
      exact List.mem_map_of_mem hc
  · rcases List.mem_append.mp hc with hc | hc
    · rw [old_parent (.inr (.inr (List.mem_map_of_mem hc))), s.placed c loc hc]
    · obtain ⟨rfl, rfl⟩ := Prod.mk.inj (List.mem_singleton.mp hc)
      rw [parents, Function.update_self]
  · rw [ids_append, List.mem_append, not_or] at hx
    rw [same.content, inserted.content x hx.2, s.content x hx.1]
  · rw [ids_append, List.mem_append, not_or] at hx
    rw [sizes, inserted.sizes x hx.2, s.sizes x hx.1 hr]
  · rw [ids_append, List.mem_append, not_or] at hx
    rw [childIds_append, List.mem_append, not_or] at hc
    rw [List.map_append, List.mem_append, not_or] at ht
    rw [parent_of (by simpa using ht.2), inserted.parents x hx.2 hc.2, s.parents x hx.1 hr hc.1 ht.1]

end Splicing

section Grafting

variable {g t t' : MountedGraph K} {removed : List ℕ} {nodes : List (Node K)} {frontier : Finset ℕ}
  {tops : List (ℕ × Option (ParentLocation K))} {site root : Option ℕ}

/-- What the checks of a patch know about what goes and what comes: the nodes of
`frontier` are kept while their parents go, `site` is the node whose children change
and `root` the root afterwards. -/
structure Graft (g : MountedGraph K) (removed : List ℕ) (nodes : List (Node K))
    (frontier : Finset ℕ) (tops : List (ℕ × Option (ParentLocation K))) (site root : Option ℕ) :
    Prop where
  fresh : ∀ x ∈ ids nodes, g.maxSeenNodeId < x
  listed : ∀ c, c ∈ childIds nodes ∨ c ∈ tops.map Prod.fst → c ∈ ids nodes ∨ c ∈ frontier
  placed : ∀ c, c ∈ ids nodes ∨ c ∈ frontier → c ∈ childIds nodes ∨ c ∈ tops.map Prod.fst
  below : ∀ {c l}, c ∈ removed → (forest g).parent c = some l →
    l.parent ∈ removed ∨ site = some l.parent
  kept : ∀ c ∈ frontier, (forest g).Mounted c ∧ c ∉ removed ∧
    ∃ l, (forest g).parent c = some l ∧ l.parent ∈ removed
  all_kept : ∀ {c l}, (forest g).Mounted c → c ∉ removed → (forest g).parent c = some l →
    l.parent ∈ removed → c ∈ frontier
  site_kept : ∀ p ∈ site, (forest g).Mounted p ∧ p ∉ removed
  site_apart : ∀ p ∈ site, p ∉ frontier
  tops_site : ∀ {c l}, (c, some l) ∈ tops → site = some l.parent
  tops_root : ∀ {c}, (c, none) ∈ tops → root = some c
  root_placed : ∀ r ∈ root, (r, none) ∈ tops ∨ g.root = some r ∧ r ∉ removed
  root_kept : ∀ r ∈ g.root, r ∈ removed ∨ root = some r

/-- What an edit of a node's children keeps: its id and how many ordinary ones it has. Only a
node without ordinary children is given an order. -/
def Refiled (c c' : Node K × Option (KeyedChildOrder K)) : Prop :=
  c'.1.id = c.1.id ∧ c'.1.children.length = c.1.children.length ∧
    (c'.2.isSome → c.2.isSome ∨ c.1.children = [])

omit [DecidableEq K] in
theorem refiled_self (c : Node K × Option (KeyedChildOrder K)) : Refiled c c := ⟨rfl, rfl, .inl⟩

structure Sited (g t t' : MountedGraph K) (removed : List ℕ)
    (tops : List (ℕ × Option (ParentLocation K))) (site : Option ℕ) : Prop where
  content : ∀ x, site ≠ some x → content t' x = content t x
  kinds : ∀ x, (t'.node x).map (·.kind) = (t.node x).map (·.kind)
  filed : ∀ x c', GraphMounting.content t' x = some c' →
    ∃ c, GraphMounting.content t x = some c ∧ Refiled c c'
  parents : t'.parentLocation = t.parentLocation
  issued : t'.maxSeenNodeId = t.maxSeenNodeId
  order : ∀ {p e o}, site = some p → t'.nodes.get p = some e → e.keyedChildren = some o →
    ∃ l, Represents o l
  kids : ∀ {p}, site = some p → ∀ c l, (c, l) ∈ (forest t').kids p ↔
    (c, some l) ∈ tops ∨ (c, l) ∈ (forest g).kids p ∧ c ∉ removed
  site : ∀ p ∈ site, (t'.nodes.get p).isSome

theorem places_of_content {x : ℕ} (h : content t' x = content t x) :
    (forest t').places x = (forest t).places x := by
  cases he : t.nodes.get x with
  | none =>
    cases he' : t'.nodes.get x with
    | none => simp [forest, he, he']
    | some e' => simp [GraphMounting.content, he, he'] at h
  | some e =>
    cases he' : t'.nodes.get x with
    | none => simp [GraphMounting.content, he, he'] at h
    | some e' =>
      simp only [GraphMounting.content, he, he', Option.map_some, Option.some.injEq,
        Prod.mk.injEq] at h
      simp [forest, he, he', locations, h.1, h.2]

theorem kid_parent {a c : ℕ} {l : ParentLocation K} (h : (c, l) ∈ (forest g).kids a) :
    l.parent = a := by
  cases he : g.nodes.get a with
  | none => simp [Forest.kids, forest, he] at h
  | some e => exact location_parent (kids_eq he ▸ h)

theorem untouched (h : Shape g) (gr : Graft g removed nodes frontier tops site root)
    {c : ℕ} (hm : (forest g).Mounted c) (hf : c ∉ frontier) :
    c ∉ ids nodes ∧ c ∉ childIds nodes ∧ c ∉ tops.map Prod.fst := by
  have hid : c ∉ ids nodes := fun hc =>
    absurd (h.issued (mounted_iff.mp hm)) (gr.fresh c hc).not_ge
  have hnew (hc : c ∈ childIds nodes ∨ c ∈ tops.map Prod.fst) : False :=
    (gr.listed c hc).elim hid hf
  exact ⟨hid, fun hc => hnew (.inl hc), fun hc => hnew (.inr hc)⟩

theorem kids_orders {a : ℕ} {e : MountedNode K} (he : g.nodes.get a = some e)
    (h : ∀ o, e.keyedChildren = some o → ∃ l, Represents o l) : ((forest g).kids a).Nodup := by
  rw [kids_eq he]
  exact locations_nodup h

variable (h : Shape g) (s : Spliced g t removed nodes tops)
  (gr : Graft g removed nodes frontier tops site root) (st : Sited g t t' removed tops site)

include h s gr st

theorem graft_content {x : ℕ} (hm : (forest g).Mounted x) (hr : x ∉ removed) (hs : site ≠ some x) :
    content t' x = content g x := by
  have hid : x ∉ ids nodes := fun hc =>
    absurd (h.issued (mounted_iff.mp hm)) (gr.fresh x hc).not_ge
  rw [st.content x hs, s.content x hid, if_neg hr]

theorem graft_fresh {n : Node K} (hn : n ∈ nodes) : ∃ e, t'.nodes.get n.id = some e ∧ e.node = n ∧
    Seeded t.node n e.keyedChildren ∧ (forest t').kids n.id = locations n.id e ∧
    (locations n.id e).map Prod.fst = n.children ∧
    ∀ c loc, (c, loc) ∈ locations n.id e → t'.parentLocation c = some loc := by
  obtain ⟨e, he, hen, seeded, hfst, hplaced, -⟩ := s.fresh n hn
  have hsite : site ≠ some n.id := fun hs => by
    have := h.issued (mounted_iff.mp (gr.site_kept n.id hs).1)
    exact absurd this (gr.fresh n.id (List.mem_map_of_mem hn)).not_ge
  have hc := st.content n.id hsite
  cases he' : t'.nodes.get n.id with
  | none => simp [GraphMounting.content, he, he'] at hc
  | some e' =>
    simp only [GraphMounting.content, he, he', Option.map_some, Option.some.injEq,
      Prod.mk.injEq] at hc
    have hloc : locations n.id e' = locations n.id e := by simp only [locations, hc.1, hc.2]
    refine ⟨e', rfl, hc.1.trans hen, hc.2 ▸ seeded, kids_eq he', hloc ▸ hfst, fun c loc hmem => ?_⟩
    rw [st.parents]
    exact hplaced c loc (hloc ▸ hmem)

theorem graft_mounted (x : ℕ) : (forest t').Mounted x ↔
    (forest g).Mounted x ∧ x ∉ removed ∨ x ∈ ids nodes := by
  by_cases hid : x ∈ ids nodes
  · obtain ⟨n, hn, rfl⟩ := List.mem_map.mp hid
    obtain ⟨e, he, -⟩ := graft_fresh h s gr st hn
    simp [mounted_iff, he, hid]
  · rw [or_iff_left hid]
    by_cases hs : site = some x
    · exact iff_of_true (mounted_iff.mpr (st.site x hs)) (gr.site_kept x hs)
    · rw [mounted_iff, mounted_iff, ← content_is_some, ← content_is_some, st.content x hs,
        s.content x hid]
      split <;> simp_all

theorem graft_orders {x : ℕ} {e : MountedNode K} {o : KeyedChildOrder K}
    (he : t'.nodes.get x = some e) (ho : e.keyedChildren = some o) : ∃ l, Represents o l := by
  by_cases hs : site = some x
  · exact st.order hs he ho
  · rcases (graft_mounted h s gr st x).mp (mounted_iff.mpr (by simp [he])) with ⟨hm, hr⟩ | hid
    · have hc := graft_content h s gr st hm hr hs
      cases he' : g.nodes.get x with
      | none => simp [GraphMounting.content, he, he'] at hc
      | some e' =>
        simp only [GraphMounting.content, he, he', Option.map_some, Option.some.injEq,
          Prod.mk.injEq] at hc
        exact h.orders he' (hc.2.symm.trans ho)
    · obtain ⟨n, hn, rfl⟩ := List.mem_map.mp hid
      obtain ⟨e', he', -, seeded, -⟩ := graft_fresh h s gr st hn
      obtain rfl := Option.some.inj (he.symm.trans he')
      rw [ho] at seeded
      obtain ⟨-, l, hl, -⟩ := seeded_represents seeded
      exact ⟨l, hl⟩

theorem graft_resettled {c : ℕ} (hc : c ∈ ids nodes ∨ c ∈ frontier) :
    (∃ l, (forest t').parent c = some l ∧ (c, l) ∈ (forest t').kids l.parent) ∨ root = some c := by
  rcases gr.placed c hc with hchild | htop
  · obtain ⟨n, hn, hmem⟩ := mem_childIds.mp hchild
    obtain ⟨e, he, -, -, hkids, hfst, hplaced⟩ := graft_fresh h s gr st hn
    rw [← hfst] at hmem
    obtain ⟨⟨c', loc⟩, hloc, rfl⟩ := List.mem_map.mp hmem
    exact .inl ⟨loc, hplaced _ _ hloc, by rw [location_parent hloc, hkids]; exact hloc⟩
  · obtain ⟨⟨c', loc⟩, hmem, rfl⟩ := List.mem_map.mp htop
    cases loc with
    | none => exact .inr (gr.tops_root hmem)
    | some l =>
      refine .inl ⟨l, ?_, (st.kids (gr.tops_site hmem) _ l).mpr (.inl hmem)⟩
      change t'.parentLocation c' = some l
      rw [st.parents]
      exact s.placed _ _ hmem

theorem graft_parent {c : ℕ} (hm : (forest g).Mounted c) (hr : c ∉ removed) (hf : c ∉ frontier) :
    (forest t').parent c = (forest g).parent c := by
  obtain ⟨hid, hchild, htop⟩ := untouched h gr hm hf
  change t'.parentLocation c = g.parentLocation c
  rw [st.parents]
  exact s.parents c hid hr hchild htop

theorem graft_exchange : Exchange ParentLocation.parent (forest g) (forest t') g.root root
    (· ∈ removed) (· ∈ ids nodes) site := by
  have mem_mounted {c : ℕ} (hc : c ∈ ids nodes ∨ c ∈ frontier) : (forest t').Mounted c := by
    refine (graft_mounted h s gr st c).mpr ?_
    exact hc.symm.imp (fun hf => ⟨(gr.kept c hf).1, (gr.kept c hf).2.1⟩) id
  -- a child of the site is no kept root: the parent of one of those is gone
  have site_child {p c : ℕ} {l : ParentLocation K} (hs : site = some p)
      (hc : (c, l) ∈ (forest g).kids p) : c ∉ frontier := fun hf => by
    obtain ⟨-, -, l', hl', hgone⟩ := gr.kept c hf
    obtain rfl := Option.some.inj ((h.linked.placed hc).2.symm.trans hl')
    exact (gr.site_kept p hs).2 (h.linked.owned hc ▸ hgone)
  refine {
    mounted := graft_mounted h s gr st
    kept := fun {a} hm hr hs => places_of_content (graft_content h s gr st hm hr hs)
    owned := fun _ hc => kid_parent hc
    distinct := fun {a} ha => ?_
    placed := fun {a c l} ha hc => ?_
    removed_below := gr.below
    still := fun {c l} hm hr hl ho _ => ?_
    resettled := fun {c} hc => ?_
    rooted := fun r hr => ?_
    root_kept := gr.root_kept }
  · have hm : (forest t').Mounted a := by
      rcases ha with hid | hs
      · exact mem_mounted (.inl hid)
      · exact mounted_iff.mpr (st.site a hs)
    obtain ⟨e, he⟩ := Option.isSome_iff_exists.mp (mounted_iff.mp hm)
    exact kids_orders he fun o ho => graft_orders h s gr st he ho
  · rcases ha with hid | hs
    · obtain ⟨n, hn, rfl⟩ := List.mem_map.mp hid
      obtain ⟨e, he, -, -, hkids, hfst, hplaced⟩ := graft_fresh h s gr st hn
      rw [hkids] at hc
      refine ⟨mem_mounted (gr.listed c (.inl (mem_childIds.mpr ⟨n, hn, ?_⟩))), hplaced c l hc⟩
      rw [← hfst]
      exact List.mem_map_of_mem hc
    · rcases (st.kids hs c l).mp hc with htop | ⟨hkid, hr⟩
      · refine ⟨mem_mounted (gr.listed c (.inr (List.mem_map_of_mem htop))), ?_⟩
        change t'.parentLocation c = some l
        rw [st.parents]
        exact s.placed c _ htop
      · obtain ⟨hm, hp⟩ := h.linked.placed hkid
        refine ⟨(graft_mounted h s gr st c).mpr (.inl ⟨hm, hr⟩), ?_⟩
        rw [graft_parent h s gr st hm hr (site_child hs hkid), hp]
  · rw [graft_parent h s gr st hm hr, hl]
    intro hf
    obtain ⟨-, -, l', hl', hgone⟩ := gr.kept c hf
    obtain rfl := Option.some.inj (hl.symm.trans hl')
    exact ho hgone
  · rcases hc with hid | ⟨hm, hr, l, hl, ho | hs⟩
    · exact graft_resettled h s gr st (.inl hid)
    · exact graft_resettled h s gr st (.inr (gr.all_kept hm hr hl ho))
    · have hkid := h.linked.listed hm hl
      refine .inl ⟨l, ?_, (st.kids hs c l).mpr (.inr ⟨hkid, hr⟩)⟩
      rw [graft_parent h s gr st hm hr (site_child hs hkid), hl]
  · rcases gr.root_placed r hr with htop | ⟨hroot, hkept⟩
    · refine ⟨mem_mounted (gr.listed r (.inr (List.mem_map_of_mem htop))), ?_⟩
      change t'.parentLocation r = none
      rw [st.parents]
      exact s.placed r _ htop
    · obtain ⟨hm, hp⟩ := h.linked.rooted r hroot
      refine ⟨(graft_mounted h s gr st r).mpr (.inl ⟨hm, hkept⟩), ?_⟩
      rw [graft_parent h s gr st hm hkept, hp]
      intro hf
      obtain ⟨-, -, l, hl, -⟩ := gr.kept r hf
      simp [hp] at hl

def sizedBy (t t' : MountedGraph K) : Forest ℕ (ParentLocation K) :=
  { forest t' with weight := (forest t).weight }

omit h s gr st in
theorem total_sizedBy (cs : List (ℕ × ParentLocation K)) :
    (sizedBy t t').total cs = (forest t).total cs := rfl

omit st in
theorem graft_weight {x : ℕ} (hm : (forest g).Mounted x) (hr : x ∉ removed) :
    (forest t).weight x = (forest g).weight x := by
  have hid : x ∉ ids nodes := fun hc =>
    absurd (h.issued (mounted_iff.mp hm)) (gr.fresh x hc).not_ge
  exact congrArg (Option.getD · 0) (s.sizes x hid hr)

theorem graft_elsewhere (x : ℕ) (hm : (forest t').Mounted x) (hs : site ≠ some x) :
    (sizedBy t t').weight x = 1 + (sizedBy t t').total ((sizedBy t t').kids x) := by
  rcases (graft_mounted h s gr st x).mp hm with ⟨hm, hr⟩ | hid
  · have hkids : (forest t').kids x = (forest g).kids x :=
      kids_of_places (places_of_content (graft_content h s gr st hm hr hs))
    change (forest t).weight x = 1 + (forest t).total ((forest t').kids x)
    rw [hkids, graft_weight h s gr hm hr, h.weighed x hm]
    refine congrArg (1 + ·) (congrArg List.sum (List.map_congr_left fun c hc => ?_))
    have hc' := (h.linked.placed hc).1
    refine (graft_weight h s gr hc' fun hgone => ?_).symm
    rcases gr.below hgone (h.linked.placed hc).2 with hx | hx
    · exact hr (h.linked.owned hc ▸ hx)
    · exact hs (h.linked.owned hc ▸ hx)
  · obtain ⟨n, hn, rfl⟩ := List.mem_map.mp hid
    obtain ⟨e, he, -, -, -, -, hsize⟩ := s.fresh n hn
    have hkids : (forest t').kids n.id = (forest t).kids n.id :=
      kids_of_places (places_of_content (st.content n.id hs))
    change (forest t).weight n.id = 1 + (forest t).total ((forest t').kids n.id)
    rw [hkids, kids_eq he, weight_eq he, hsize]

def placedTops (tops : List (ℕ × Option (ParentLocation K))) : List (ℕ × ParentLocation K) :=
  tops.filterMap fun top => top.2.map fun l => (top.1, l)

omit [DecidableEq K] h s gr st in
theorem mem_placedTops {c : ℕ} {l : ParentLocation K} :
    (c, l) ∈ placedTops tops ↔ (c, some l) ∈ tops := by
  simp only [placedTops, List.mem_filterMap, Option.map_eq_some_iff]
  constructor
  · rintro ⟨⟨c', o⟩, hmem, l', ho, heq⟩
    obtain ⟨rfl, rfl⟩ := Prod.mk.inj heq
    rw [show o = some l' from ho] at hmem
    exact hmem
  · intro hmem
    exact ⟨(c, some l), hmem, l, rfl, rfl⟩

omit s in
theorem graft_kids_perm {p : ℕ} (hs : site = some p) (distinct : (placedTops tops).Nodup) :
    ((forest t').kids p).Perm
      (placedTops tops ++ ((forest g).kids p).filter fun c => !decide (c.1 ∈ removed)) := by
  have nodup : ((forest t').kids p).Nodup := by
    obtain ⟨e, he⟩ := Option.isSome_iff_exists.mp (st.site p hs)
    exact kids_orders he fun o ho => st.order hs he ho
  refine (List.perm_ext_iff_of_nodup nodup (List.nodup_append.mpr ⟨distinct,
    (h.linked.distinct p).filter _, ?_⟩)).mpr fun c => ?_
  · rintro ⟨c, l⟩ hc d hd rfl
    have hkid := (List.mem_filter.mp hd).1
    obtain ⟨hm, hp⟩ := h.linked.placed hkid
    rcases gr.listed c (.inr (List.mem_map_of_mem (mem_placedTops.mp hc))) with hid | hf
    · exact absurd (h.issued (mounted_iff.mp hm)) (gr.fresh c hid).not_ge
    · obtain ⟨-, -, l', hl', hgone⟩ := gr.kept c hf
      obtain rfl := Option.some.inj (hp.symm.trans hl')
      exact (gr.site_kept p hs).2 (h.linked.owned hkid ▸ hgone)
  · obtain ⟨c, l⟩ := c
    rw [st.kids hs, List.mem_append, mem_placedTops, List.mem_filter]
    simp

/-- What the site lacks is the difference between what went and what came. -/
theorem graft_stale {p : ℕ} (hs : site = some p) (distinct : (placedTops tops).Nodup) :
    Stale (sizedBy t t') p
      ((forest g).total (((forest g).kids p).filter fun c => decide (c.1 ∈ removed)))
      ((forest t).total (placedTops tops)) := by
  obtain ⟨hm, hr⟩ := gr.site_kept p hs
  have total_append (F : Forest ℕ (ParentLocation K)) (xs ys : List (ℕ × ParentLocation K)) :
      F.total (xs ++ ys) = F.total xs + F.total ys := by
    simp [Forest.total]
  have total_perm (F : Forest ℕ (ParentLocation K)) {xs ys : List (ℕ × ParentLocation K)}
      (hp : xs.Perm ys) : F.total xs = F.total ys := (hp.map _).sum_eq
  have after := total_perm (forest t) (graft_kids_perm h gr st hs distinct)
  have before := total_perm (forest g)
    (List.filter_append_perm (fun c => decide (c.1 ∈ removed)) ((forest g).kids p))
  rw [total_append] at after before
  have same : (forest t).total (((forest g).kids p).filter fun c => !decide (c.1 ∈ removed)) =
      (forest g).total (((forest g).kids p).filter fun c => !decide (c.1 ∈ removed)) := by
    refine congrArg List.sum (List.map_congr_left fun c hc => ?_)
    obtain ⟨hmem, hkeep⟩ := List.mem_filter.mp hc
    exact graft_weight h s gr (h.linked.placed hmem).1 (by simpa using hkeep)
  have hweight := h.weighed p hm
  have hsame := graft_weight h s gr hm hr
  refine ⟨fun a ha hne => graft_elsewhere h s gr st a ha fun heq => hne ?_, ?_, ?_⟩
  · exact (Option.some.inj (hs.symm.trans heq)).symm
  · change (forest t).weight p + _ = 1 + (forest t).total ((forest t').kids p) + _
    omega
  · change _ ≤ (forest t).total ((forest t').kids p)
    omega

/-- No node is its own child, whatever the sizes above the site. -/
theorem graft_irreflexive (x : ℕ) : ¬(sizedBy t t').Child x x := by
  rintro ⟨l, hl⟩
  by_cases hs : site = some x
  · obtain ⟨hm, hr⟩ := gr.site_kept x hs
    rcases (st.kids hs x l).mp hl with htop | ⟨hkid, -⟩
    · rcases gr.listed x (.inr (List.mem_map_of_mem htop)) with hid | hf
      · exact absurd (h.issued (mounted_iff.mp hm)) (gr.fresh x hid).not_ge
      · exact gr.site_apart x hs hf
    · exact absurd (weight_child h.weighed ⟨l, hkid⟩) (lt_irrefl _)
  · have hle := weight_le_total hl
    have := graft_elsewhere h s gr st x (mounted_of_kid hl) hs
    omega

theorem graft_linked : Linked ParentLocation.parent (sizedBy t t') root :=
  linked_congr ((graft_exchange h s gr st).linked h.linked) rfl rfl

def Settling (g t t' v : MountedGraph K) (removed : List ℕ)
    (tops : List (ℕ × Option (ParentLocation K))) : Option ℕ → Prop
  | none => (forest v).weight = (forest t).weight
  | some p => (placedTops tops).Nodup ∧
    ∃ along, UpTo ParentLocation.parent t'.parentLocation (some p) along ∧
      (forest v).weight = ((sizedBy t t').resizedAlong
        ((forest g).total (((forest g).kids p).filter fun c => decide (c.1 ∈ removed)))
        ((forest t).total (placedTops tops)) along).weight

omit h s gr st in
theorem places_eq {v : MountedGraph K} (content_v : content v = content t') :
    (forest v).places = (forest t').places := by
  funext x
  exact places_of_content (congrFun content_v x)

theorem settled_weighed {v : MountedGraph K} (content_v : content v = content t')
    (parents_v : v.parentLocation = t'.parentLocation)
    (settling : Settling g t t' v removed tops site) : Weighed (forest v) := by
  have places := places_eq content_v
  cases hsite : site with
  | none =>
    rw [hsite] at settling
    have hforest : forest v = sizedBy t t' := Forest.ext places parents_v settling
    rw [hforest]
    exact fun a ha => graft_elsewhere h s gr st a ha (by simp [hsite])
  | some p =>
    rw [hsite] at settling
    obtain ⟨distinct, along, up, hweight⟩ := settling
    rw [eq_resizedAlong (F := sizedBy t t') places parents_v hweight]
    exact weighed_along (graft_linked h s gr st) (graft_irreflexive h s gr st)
      (mounted_iff.mpr (st.site p hsite)) up (graft_stale h s gr st hsite distinct)

theorem graft_shape {v : MountedGraph K} (content_v : content v = content t')
    (parents_v : v.parentLocation = t'.parentLocation) (root_v : v.root = root)
    (issued_v : v.maxSeenNodeId = t'.maxSeenNodeId) (weighed_v : Weighed (forest v)) : Shape v := by
  have places := places_eq content_v
  refine ⟨fun {x e o} he ho => ?_, root_v ▸ linked_congr (graft_linked h s gr st) places parents_v,
    weighed_v, fun {x} hx => ?_⟩
  · have hc := congrFun content_v x
    cases he' : t'.nodes.get x with
    | none => simp [GraphMounting.content, he, he'] at hc
    | some e' =>
      simp only [GraphMounting.content, he, he', Option.map_some, Option.some.injEq,
        Prod.mk.injEq] at hc
      exact graft_orders h s gr st he' (hc.2.symm.trans ho)
  · rw [issued_v, st.issued]
    have hm : (forest t').Mounted x := by
      rw [Forest.Mounted, ← places]
      exact mounted_iff.mpr hx
    rcases (graft_mounted h s gr st x).mp hm with ⟨hm, -⟩ | hid
    · exact (h.issued (mounted_iff.mp hm)).trans s.issued.1
    · obtain ⟨n, hn, rfl⟩ := List.mem_map.mp hid
      exact s.issued.2 n hn

omit st in
theorem graft_kind {x : ℕ} (hm : (forest g).Mounted x) (hr : x ∉ removed) :
    (t.node x).map (·.kind) = (g.node x).map (·.kind) := by
  have hid : x ∉ ids nodes := fun hc =>
    absurd (h.issued (mounted_iff.mp hm)) (gr.fresh x hc).not_ge
  rw [node_of_content, node_of_content, s.content x hid, if_neg hr]

theorem graft_bounded (bounded : Bounded g)
    (tops_bounded : ∀ {c q k i}, (c, some (.keyed q k i)) ∈ tops →
      (t.node c).map (·.kind) = some (.boundary i)) : Bounded t' := by
  intro c q k i hparent
  rw [st.kinds]
  have hm : (forest t').Mounted c := mounted_iff.mpr (mounted_of_parent hparent)
  by_cases hnew : c ∈ ids nodes ∨ c ∈ frontier
  · rcases gr.placed c hnew with hchild | htop
    · obtain ⟨n, hn, hmem⟩ := mem_childIds.mp hchild
      obtain ⟨e, he, -, seeded, -, hfst, hplaced⟩ := graft_fresh h s gr st hn
      rw [← hfst] at hmem
      obtain ⟨⟨c', loc⟩, hloc, rfl⟩ := List.mem_map.mp hmem
      obtain rfl := Option.some.inj ((hplaced _ _ hloc).symm.trans hparent)
      simp only [locations] at hloc
      cases ho : e.keyedChildren with
      | none => simp [ho, ordinaryPlace] at hloc
      | some o =>
        rw [ho] at seeded hloc
        obtain ⟨-, l, hl, -, hbound⟩ := seeded_represents seeded
        obtain ⟨k', i', heq, hget⟩ := (mem_keyed hl).mp hloc
        cases heq
        obtain ⟨m, hnode, hkind⟩ := hbound (k, c', i) (mem_entries_iff.mpr hget)
        rw [hnode, Option.map_some, hkind]
    · obtain ⟨⟨c', loc⟩, hmem, rfl⟩ := List.mem_map.mp htop
      have hplaced := s.placed _ _ hmem
      rw [st.parents, hplaced] at hparent
      obtain rfl := hparent
      exact tops_bounded hmem
  · rw [not_or] at hnew
    obtain ⟨hmg, hr⟩ := ((graft_mounted h s gr st c).mp hm).resolve_right hnew.1
    rw [graft_kind h s gr hmg hr]
    refine bounded c q k i ?_
    have := graft_parent h s gr st hmg hr hnew.2
    exact this.symm.trans hparent

end Grafting

section Edits

variable {g v : MountedGraph K} {removed : List ℕ} {nodes : List (Node K)} {frontier : Finset ℕ}
  {tops : List (ℕ × Option (ParentLocation K))} {site root : Option ℕ}

/-- An accepted patch: `v` is `g` with such an edit made and the sizes brought up to date. -/
structure Grafted (g v : MountedGraph K) (removed : List ℕ) (nodes : List (Node K))
    (frontier : Finset ℕ) (tops : List (ℕ × Option (ParentLocation K))) (site root : Option ℕ) :
    Prop where
  graft : Graft g removed nodes frontier tops site root
  edit : ∃ t t', Spliced g t removed nodes tops ∧ Sited g t t' removed tops site ∧
    content v = content t' ∧ v.parentLocation = t'.parentLocation ∧
    v.maxSeenNodeId = t'.maxSeenNodeId
  root : v.root = root
  weighed : Weighed (forest v)

theorem Grafted.outline {v' : MountedGraph K}
    (e : Grafted g v removed nodes frontier tops site root) (same : outline v' = outline v) :
    Grafted g v' removed nodes frontier tops site root := by
  simp only [GraphMounting.outline, Outline.mk.injEq] at same
  obtain ⟨hcontent, hsize, hparent, hroot, hissued⟩ := same
  obtain ⟨t, t', s, st, content_v, parents_v, issued_v⟩ := e.edit
  have heq : forest v' = forest v := Forest.ext (places_eq hcontent) hparent (by simp [forest, hsize])
  exact ⟨e.graft, ⟨t, t', s, st, hcontent.trans content_v, hparent.trans parents_v,
    hissued.trans issued_v⟩, hroot.trans e.root, heq ▸ e.weighed⟩

theorem Grafted.shape (e : Grafted g v removed nodes frontier tops site root) (h : Shape g) :
    Shape v := by
  obtain ⟨t, t', s, st, content_v, parents_v, issued_v⟩ := e.edit
  exact graft_shape h s e.graft st content_v parents_v e.root issued_v e.weighed

theorem Grafted.mounted (e : Grafted g v removed nodes frontier tops site root) (h : Shape g)
    (x : ℕ) : (forest v).Mounted x ↔ (forest g).Mounted x ∧ x ∉ removed ∨ x ∈ ids nodes := by
  obtain ⟨t, t', s, st, content_v, -, -⟩ := e.edit
  rw [← graft_mounted h s e.graft st, Forest.Mounted, Forest.Mounted, places_eq content_v]

theorem Grafted.kind_kept (e : Grafted g v removed nodes frontier tops site root) (h : Shape g)
    {x : ℕ} (hm : (forest g).Mounted x) (hr : x ∉ removed) :
    (v.node x).map (·.kind) = (g.node x).map (·.kind) := by
  obtain ⟨t, t', s, st, content_v, -, -⟩ := e.edit
  rw [node_of_content, content_v, ← node_of_content, st.kinds, graft_kind h s e.graft hm hr]

theorem Grafted.filed_kept (e : Grafted g v removed nodes frontier tops site root) (h : Shape g)
    {x : ℕ} (hm : (forest g).Mounted x) (hr : x ∉ removed) {c' : Node K × Option (KeyedChildOrder K)}
    (hc' : GraphMounting.content v x = some c') :
    ∃ c, GraphMounting.content g x = some c ∧ Refiled c c' := by
  obtain ⟨t, t', s, st, content_v, -, -⟩ := e.edit
  have hid : x ∉ ids nodes := fun hc =>
    absurd (h.issued (mounted_iff.mp hm)) (e.graft.fresh x hc).not_ge
  obtain ⟨c, hc, hfiled⟩ := st.filed x c' (content_v ▸ hc')
  rw [s.content x hid, if_neg hr] at hc
  exact ⟨c, hc, hfiled⟩

/-- What is mounted anew has an order only if it is a keyed column. -/
theorem Grafted.filed_fresh (e : Grafted g v removed nodes frontier tops site root) (h : Shape g)
    {n : Node K} (hn : n ∈ nodes) : ∃ order, GraphMounting.content v n.id = some (n, order) ∧
      (order.isSome → ∃ label revision keys, n.kind = .keyedColumn label revision keys) := by
  obtain ⟨t, t', s, st, content_v, -, -⟩ := e.edit
  obtain ⟨entry, he, hnode, seeded, -⟩ := graft_fresh h s e.graft st hn
  refine ⟨entry.keyedChildren, by rw [content_v, content_eq he, hnode], fun horder => ?_⟩
  unfold Seeded at seeded
  split at seeded
  · rename_i label revision keys hkind
    exact ⟨label, revision, keys, hkind⟩
  · rw [seeded] at horder
    cases horder

theorem Grafted.node_fresh (e : Grafted g v removed nodes frontier tops site root) (h : Shape g)
    {n : Node K} (hn : n ∈ nodes) : v.node n.id = some n := by
  obtain ⟨t, t', s, st, content_v, -, -⟩ := e.edit
  obtain ⟨entry, he, hnode, -⟩ := graft_fresh h s e.graft st hn
  rw [node_of_content, content_v, content_eq he, hnode]
  rfl

theorem Grafted.parent_kept (e : Grafted g v removed nodes frontier tops site root) (h : Shape g)
    {x : ℕ} (hm : (forest g).Mounted x) (hr : x ∉ removed) (hf : x ∉ frontier) :
    v.parentLocation x = g.parentLocation x := by
  obtain ⟨t, t', s, st, -, parents_v, -⟩ := e.edit
  rw [parents_v]
  exact graft_parent h s e.graft st hm hr hf

theorem Grafted.parent_fresh (e : Grafted g v removed nodes frontier tops site root) (h : Shape g)
    {n : Node K} (hn : n ∈ nodes) {c : ℕ} (hc : c ∈ n.children) :
    ∃ location, v.parentLocation c = some location ∧ location.parent = n.id := by
  obtain ⟨t, t', s, st, -, parents_v, -⟩ := e.edit
  obtain ⟨entry, -, -, -, -, hfst, hplaced⟩ := graft_fresh h s e.graft st hn
  rw [← hfst] at hc
  obtain ⟨⟨c, location⟩, hmem, rfl⟩ := List.mem_map.mp hc
  exact ⟨location, parents_v ▸ hplaced c location hmem, location_parent hmem⟩

theorem Grafted.parent_top (e : Grafted g v removed nodes frontier tops site root) {c : ℕ}
    {location : Option (ParentLocation K)} (hc : (c, location) ∈ tops) :
    v.parentLocation c = location := by
  obtain ⟨t, t', s, st, -, parents_v, -⟩ := e.edit
  rw [parents_v, st.parents]
  exact s.placed c location hc

theorem Grafted.content_kept (e : Grafted g v removed nodes frontier tops site root) (h : Shape g)
    {x : ℕ} (hm : (forest g).Mounted x) (hr : x ∉ removed) (hs : site ≠ some x) :
    GraphMounting.content v x = GraphMounting.content g x := by
  obtain ⟨t, t', s, st, content_v, -, -⟩ := e.edit
  rw [content_v, graft_content h s e.graft st hm hr hs]

theorem Grafted.kids_kept (e : Grafted g v removed nodes frontier tops site root) (h : Shape g)
    {x : ℕ} (hm : (forest g).Mounted x) (hr : x ∉ removed) (hs : site ≠ some x) :
    (forest v).kids x = (forest g).kids x :=
  kids_of_places (places_of_content (e.content_kept h hm hr hs))

theorem Grafted.kids_fresh (e : Grafted g v removed nodes frontier tops site root) (h : Shape g)
    {n : Node K} (hn : n ∈ nodes) : ((forest v).kids n.id).map Prod.fst = n.children := by
  obtain ⟨t, t', s, st, content_v, -, -⟩ := e.edit
  obtain ⟨entry, -, -, -, hkids, hfst, -⟩ := graft_fresh h s e.graft st hn
  rw [kids_of_places (places_of_content (congrFun content_v n.id)), hkids, hfst]

theorem Grafted.kids_site (e : Grafted g v removed nodes frontier tops site root) {p : ℕ}
    (hp : site = some p) (c : ℕ) (l : ParentLocation K) : (c, l) ∈ (forest v).kids p ↔
      (c, some l) ∈ tops ∨ (c, l) ∈ (forest g).kids p ∧ c ∉ removed := by
  obtain ⟨t, t', s, st, content_v, -, -⟩ := e.edit
  rw [kids_of_places (places_of_content (congrFun content_v p)), st.kids hp]

theorem Grafted.bounded (e : Grafted g v removed nodes frontier tops site root) (h : Shape g)
    (bounded : Bounded g) (tops_bounded : ∀ {c q k i}, (c, some (.keyed q k i)) ∈ tops →
      (v.node c).map (·.kind) = some (.boundary i)) : Bounded v := by
  obtain ⟨t, t', s, st, content_v, parents_v, -⟩ := e.edit
  have hnode : v.node = t'.node := by
    funext x
    rw [node_of_content, node_of_content, content_v]
  have := graft_bounded h s e.graft st bounded fun hc => by
    rw [← st.kinds, ← hnode]
    exact tops_bounded hc
  intro c q k i hparent
  rw [hnode]
  exact this c q k i (parents_v ▸ hparent)

end Edits

end GraphGrafts
