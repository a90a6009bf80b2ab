import RocGui.GraphSegments
import RocGui.KeyedListings

/-! The cached sibling keys agree with the children lists after every accepted patch. -/
namespace GraphIdentities

open FiniteMaps KeyedLists Methods KeyedOrder GraphState FragmentValidation GraphPatches
open FragmentTrees GraphForests GraphMounting GraphExchanges GraphGrafts GraphReplacements
open KeyedStaging KeyedTransactions GraphLedgers GraphOwners GraphListings SiblingSegments
open GraphSegments PointerTrees

variable {K : Type} [DecidableEq K]

/-- The children of a node carry the keys that their list gives them. -/
def Agrees (g : MountedGraph K) (p : ℕ) : Prop :=
  ∀ c s, (c, s) ∈ siblingSegments g.node ∅ 0 (((forest g).kids p).map Prod.fst) →
    g.cachedSegment c = some s

/-- Every cached key is the one that is recomputed from the children lists. -/
structure Segmented (g : MountedGraph K) : Prop where
  root : ∀ r ∈ g.root, ∀ n, g.node r = some n → g.cachedSegment r = some (.of n 0 0)
  agrees : ∀ p, Agrees g p

structure Marked (g v : MountedGraph K) (removed : List ℕ) (nodes : List (Node K))
    (tops : List (ℕ × Option (ParentLocation K))) (site : Option ℕ) : Prop where
  fresh : ∀ n ∈ nodes, ∀ c s, (c, s) ∈ siblingSegments v.node ∅ 0 n.children →
    v.cachedSegment c = some s
  kept : ∀ x, (forest g).Mounted x → x ∉ removed → x ∉ childIds nodes → x ∉ tops.map Prod.fst →
    (∀ p ∈ site, ¬(forest v).Child p x) → v.cachedSegment x = g.cachedSegment x
  site : ∀ p ∈ site, Agrees v p
  root : ∀ c, (c, none) ∈ tops → ∀ n, v.node c = some n → v.cachedSegment c = some (.of n 0 0)

section Edits

variable {g v : MountedGraph K} {removed : List ℕ} {nodes : List (Node K)} {frontier : Finset ℕ}
  {tops : List (ℕ × Option (ParentLocation K))} {site root : Option ℕ}
  (e : Grafted g v removed nodes frontier tops site root) (h : Shape g)

include e h

theorem fresh_not_mounted {x : ℕ} (hx : x ∈ ids nodes) : ¬(forest g).Mounted x := fun hm =>
  absurd (h.issued (mounted_iff.mp hm)) (e.graft.fresh x hx).not_ge

theorem kept_apart {x : ℕ} (hm : (forest g).Mounted x)
    (hparent : ∀ l, (forest g).parent x = some l → l.parent ∉ removed) :
    x ∉ childIds nodes ∧ x ∉ tops.map Prod.fst := by
  have apart (hx : x ∈ childIds nodes ∨ x ∈ tops.map Prod.fst) : False := by
    rcases e.graft.listed x hx with hid | hf
    · exact fresh_not_mounted e h hid hm
    · obtain ⟨-, -, l, hl, hgone⟩ := e.graft.kept x hf
      exact hparent l hl hgone
  exact ⟨fun hx => apart (.inl hx), fun hx => apart (.inr hx)⟩

theorem kind_of_kept {x : ℕ} (hm : (forest g).Mounted x) (hr : x ∉ removed) :
    (v.node x).map (·.kind) = (g.node x).map (·.kind) := e.kind_kept h hm hr

theorem kid_kept {p c : ℕ} {l : ParentLocation K} (hr : p ∉ removed) (hs : site ≠ some p)
    (hc : (c, l) ∈ (forest g).kids p) : c ∉ removed := by
  intro hgone
  obtain ⟨-, hl⟩ := h.linked.placed hc
  have howner := h.linked.owned hc
  rcases e.graft.below hgone hl with hp | hp
  · exact hr (howner ▸ hp)
  · exact hs (howner ▸ hp)

theorem marked_agrees (s : Segmented g) (m : Marked g v removed nodes tops site) (p : ℕ) :
    Agrees v p := by
  by_cases hs : site = some p
  · exact m.site p hs
  by_cases hp : (forest v).Mounted p
  · rcases (e.mounted h p).mp hp with ⟨hm, hr⟩ | hid
    · intro c key hc
      have hkids := e.kids_kept h hm hr hs
      have kid {d : ℕ} (hd : d ∈ ((forest g).kids p).map Prod.fst) :
          ∃ l, (d, l) ∈ (forest g).kids p := by
        obtain ⟨⟨d, l⟩, hmem, rfl⟩ := List.mem_map.mp hd
        exact ⟨l, hmem⟩
      rw [hkids, segments_congr fun d hd => ?_] at hc
      · obtain ⟨l, hkid⟩ := kid (mem_children hc)
        obtain ⟨hmc, hl⟩ := h.linked.placed hkid
        have hrc := kid_kept e h hr hs hkid
        obtain ⟨hchild, htop⟩ := kept_apart e h hmc fun l' hl' => by
          obtain rfl := Option.some.inj (hl.symm.trans hl')
          rw [h.linked.owned hkid]
          exact hr
        rw [m.kept c hmc hrc hchild htop fun q hq hqc => hs ?_]
        · exact s.agrees p c key hc
        · have hpc : (forest v).Child p c := ⟨l, hkids ▸ hkid⟩
          exact hq.trans (congrArg some (child_unique (e.shape h).linked hqc hpc))
      · obtain ⟨l, hkid⟩ := kid hd
        exact kind_of_kept e h (h.linked.placed hkid).1 (kid_kept e h hr hs hkid)
    · obtain ⟨n, hn, rfl⟩ := List.mem_map.mp hid
      intro c key hc
      rw [e.kids_fresh h hn] at hc
      exact m.fresh n hn c key hc
  · intro c key hc
    have hnone : (forest v).kids p = [] := by
      rw [Forest.Mounted, Option.not_isSome_iff_eq_none] at hp
      simp [Forest.kids, hp]
    simp [hnone, siblingSegments] at hc

theorem marked_segmented (s : Segmented g) (m : Marked g v removed nodes tops site) :
    Segmented v := by
  refine ⟨fun r hr n hn => ?_, marked_agrees e h s m⟩
  rw [e.root] at hr
  rcases e.graft.root_placed r hr with htop | ⟨hroot, hgone⟩
  · exact m.root r htop n hn
  · obtain ⟨hm, hp⟩ := h.linked.rooted r hroot
    obtain ⟨hchild, htop⟩ := kept_apart e h hm fun l hl => by cases hp.symm.trans hl
    have hkind := kind_of_kept e h hm hgone
    rw [hn, Option.map_some, eq_comm, Option.map_eq_some_iff] at hkind
    obtain ⟨n', hn', hkind⟩ := hkind
    rw [m.kept r hm hgone hchild htop fun q hq ⟨l, hqc⟩ => ?_, ← of_congr hkind]
    · exact s.root r hroot n' hn'
    · have hv := ((e.shape h).linked.rooted r (e.root ▸ hr)).2
      cases hv.symm.trans ((e.shape h).linked.placed hqc).2

end Edits

section Hanging

variable {g v : MountedGraph K} {r : Replacement K} {plan : ReplacementPlan K} {old : ℕ}
  {location : ParentLocation K}

theorem keyed_beside (h : Shape g) {container i c : ℕ} {key : K} {l : ParentLocation K}
    (hold : (old, .keyed container key i) ∈ (forest g).kids container)
    (hc : (c, l) ∈ (forest g).kids container) : ∃ k j, l = .keyed container k j := by
  obtain ⟨entry, he⟩ := Option.isSome_iff_exists.mp (mounted_iff.mp (mounted_of_kid hold))
  rw [kids_eq he] at hold hc
  cases ho : entry.keyedChildren with
  | none => simp [locations, ho, ordinaryPlace] at hold
  | some o =>
    obtain ⟨l', hl'⟩ := h.orders he ho
    simp only [locations, ho] at hc
    obtain ⟨k, j, heq, -⟩ := (mem_keyed hl').mp hc
    exact ⟨k, j, heq⟩

/-- The children around the place where the new root was hung. -/
structure Hung (g v : MountedGraph K) (removed : List ℕ) (old root : ℕ) (location : ParentLocation K)
    (before after : List (ℕ × ParentLocation K)) : Prop where
  was : (forest g).kids location.parent = before ++ (old, location) :: after
  now : (forest v).kids location.parent = before ++ (root, location) :: after
  apart : ∀ c ∈ before ++ after, c.2 ≠ location
  kept : ∀ c ∈ before ++ after, c.1 ∉ removed
  index : ∀ p i, location = .ordinaryIndex p i → i = before.length

omit [DecidableEq K] in
theorem place_at {p i : ℕ} {children : List ℕ} {before after : List (ℕ × ParentLocation K)}
    (h : children.zipIdx.map (ordinaryPlace p) = before ++ (old, .ordinaryIndex p i) :: after) :
    i = before.length := by
  have hat : (children.zipIdx.map (ordinaryPlace p) : List (ℕ × ParentLocation K))[before.length]? =
      some (old, .ordinaryIndex p i) := by
    rw [h]
    simp
  rw [ordinary_at] at hat
  obtain ⟨c, -, heq⟩ := Option.map_eq_some_iff.mp hat
  injection heq with _ heq
  injection heq with _ heq
  exact heq.symm

theorem hung (h : Shape g) {a : GraphApply K} (hplan : planReplacement r g = .ok plan)
    (hrun : (applyReplacement r).run g = .ok a v) (hl : plan.parentLocation = some location) :
    ∃ old before after, r.oldRoot = some old ∧
      Hung g v plan.removedIds old r.root location before after := by
  obtain ⟨plan', hplan', e⟩ := replacement_grafted h hrun
  obtain rfl := Except.ok.inj (hplan.symm.trans hplan')
  have p := planned h hplan
  obtain ⟨old, hold, hkid⟩ := old_kid h p hl
  obtain ⟨before, after, hcut⟩ := List.append_of_mem hkid
  obtain ⟨entry, he⟩ := Option.isSome_iff_exists.mp (mounted_iff.mp (mounted_of_kid hkid))
  have apart : ∀ c ∈ before ++ after, c.2 ≠ location := by
    rintro ⟨c, l⟩ hc heq
    obtain rfl : l = location := heq
    have hmem : (c, l) ∈ (forest g).kids l.parent := by
      rw [hcut]
      rcases List.mem_append.mp hc with hc | hc <;> simp [hc]
    have same : c = old := place_unique (fun o ho => h.orders he ho) (kids_eq he ▸ hmem)
      (kids_eq he ▸ hkid)
    have distinct := h.linked.distinct l.parent
    rw [hcut, List.nodup_middle, List.nodup_cons] at distinct
    exact distinct.1 (same ▸ hc)
  have now := replacement_kids h hplan hrun hl
  have stays {cs : List (ℕ × ParentLocation K)} (hcs : ∀ c ∈ cs, c.2 ≠ location) :
      cs.map (rehang location r.root) = cs := by
    rw [List.map_congr_left (g := id) fun c hc => by rw [rehang, if_neg (hcs c hc)]; rfl, List.map_id]
  rw [hcut, List.map_append, List.map_cons, stays fun c hc => apart c (List.mem_append_left _ hc),
    stays fun c hc => apart c (List.mem_append_right _ hc), rehang, if_pos rfl] at now
  have hsite : siteOf plan = some location.parent := by rw [siteOf, hl, Option.map_some]
  refine ⟨old, before, after, hold, hcut, now, apart, fun c hc => ?_, fun p' i hi => ?_⟩
  · have hmem : (c.1, c.2) ∈ (forest v).kids location.parent := by
      rw [now]
      rcases List.mem_append.mp hc with hc | hc <;> simp [hc]
    rcases (e.kids_site hsite c.1 c.2).mp hmem with htop | ⟨-, hkept⟩
    · have heq := (Prod.mk.inj (List.mem_singleton.mp htop)).2
      rw [hl] at heq
      exact absurd (Option.some.inj heq) (apart c hc)
    · exact hkept
  · subst hi
    have hnone : entry.keyedChildren = none := by
      rw [kids_eq he] at hkid
      cases ho : entry.keyedChildren with
      | none => rfl
      | some o => simp [locations, ho, keyedPlace] at hkid
    rw [kids_eq he] at hcut
    simp only [locations, hnone] at hcut
    exact place_at hcut

end Hanging

section Keys

variable {g v : MountedGraph K} {r : Replacement K} {plan : ReplacementPlan K} {old : ℕ}
  {location : ParentLocation K} {before after : List (ℕ × ParentLocation K)} (h : Shape g)
  (p : Planned r g plan)
  (e : Grafted g v plan.removedIds r.nodes plan.frontier [(r.root, plan.parentLocation)]
    (siteOf plan) (rootAfter r plan g))

include h p e

theorem kind_of_lookup {c : ℕ} {n : Node K} (hc : c ∈ ids r.nodes ∨ c ∈ plan.frontier)
    (hn : plan.validated.lookup g.node c = some n) : (v.node c).map (·.kind) = some n.kind := by
  rw [ValidatedFragment.lookup] at hn
  by_cases hid : c ∈ ids r.nodes
  · obtain ⟨m, hm, rfl⟩ := List.mem_map.mp hid
    rw [p.fragment.fresh.mpr ⟨hm, rfl⟩] at hn
    obtain rfl : m = n := Option.some.inj hn
    rw [e.node_fresh h hm]
    rfl
  · have hfresh : plan.validated.fresh.get c = none := by
      cases hget : plan.validated.fresh.get c with
      | none => rfl
      | some m =>
        obtain ⟨hm, rfl⟩ := p.fragment.fresh.mp hget
        exact absurd (List.mem_map_of_mem hm) hid
    rw [hfresh, Option.none_or] at hn
    have hf := hc.resolve_left hid
    rw [kind_of_kept e h (e.graft.kept c hf).1 (e.graft.kept c hf).2.1, hn]
    rfl

variable (hl : plan.parentLocation = some location)
  (around : Hung g v plan.removedIds old r.root location before after)

omit p in
include around in
theorem kinds_around {c : ℕ} (hc : c ∈ before.map Prod.fst ++ after.map Prod.fst) :
    (v.node c).map (·.kind) = (g.node c).map (·.kind) := by
  rw [← List.map_append] at hc
  obtain ⟨⟨c, l⟩, hmem, rfl⟩ := List.mem_map.mp hc
  refine kind_of_kept e h (h.linked.placed (l := l) (a := location.parent) ?_).1 (around.kept _ hmem)
  rw [around.was]
  rcases List.mem_append.mp hmem with hmem | hmem <;> simp [hmem]

variable (bounded : Bounded v) (hplan : planReplacement r g = .ok plan)

include hl around bounded hplan

theorem root_key : (r.root, plan.rootSegment) ∈
    siblingSegments v.node ∅ 0 (((forest v).kids location.parent).map Prod.fst) := by
  obtain ⟨outer, m, -, hparent, hm, hsegment, -⟩ := plan_scopes hplan
  have hkind := kind_of_lookup h p e p.fragment.root_listed hm
  obtain ⟨m', hm', hkind⟩ := Option.map_eq_some_iff.mp hkind
  have hchildren := children_of (ε := GraphError K) h location.parent
  rw [hl, Option.map_some] at hparent
  rw [hparent] at hsegment
  cases location with
  | ordinaryIndex q i =>
    have hi := around.index q i rfl
    simp only [ParentLocation.parent] at hchildren ⊢
    have hwas := around.was
    have hnow := around.now
    simp only [ParentLocation.parent] at hwas hnow
    rw [hwas, List.map_append, List.map_cons] at hchildren
    have hkey := root_segment_at hchildren hsegment
    rw [List.take_left' (by rw [List.length_map, hi])] at hkey
    have hmet := meet_all_congr g.node v.node
      (fun c hc => kinds_around h e around (List.mem_append_left _ hc)) ∅
    rw [hnow, List.map_append, List.map_cons, segments_append, segments_cons hm', List.mem_append]
    right
    rw [hmet, hkind, Nat.zero_add, List.length_map, ← hi, of_congr hkind, ← hkey]
    exact List.mem_cons_self
  | keyed container key i =>
    have hroot : v.parentLocation r.root = some (.keyed container key i) := by
      rw [e.parent_top List.mem_cons_self, hl]
    have hbound := bounded _ _ _ _ hroot
    rw [hm', Option.map_some, Option.some.injEq] at hbound
    have hkey := root_segment_at (hchildren : g.childrenOf container = _) hsegment
    rw [of_boundary (hkind.symm.trans hbound)] at hkey
    obtain ⟨s, hs⟩ := segment_exists v.node (c := r.root)
      (show r.root ∈ ((forest v).kids container).map Prod.fst by
        rw [show (forest v).kids container = _ from around.now]
        simp) (by simp [hm']) ∅ 0
    rw [hkey]
    rwa [segment_boundary hm' hbound hs] at hs

theorem others_key (bounded_g : Bounded g) (agrees : Agrees g location.parent)
    (unchanged : g.cachedSegment old = some plan.rootSegment) {c : ℕ} {s : IdentitySegment}
    (hne : c ≠ r.root)
    (hc : (c, s) ∈ siblingSegments v.node ∅ 0 (((forest v).kids location.parent).map Prod.fst)) :
    (c, s) ∈ siblingSegments g.node ∅ 0 (((forest g).kids location.parent).map Prod.fst) := by
  have hkids := around.was
  have hkids_v := around.now
  cases location with
  | ordinaryIndex q i =>
    have hi := around.index q i rfl
    have hroot := root_key h p e hl around bounded hplan
    simp only [ParentLocation.parent, Agrees] at hkids hkids_v hc hroot agrees ⊢
    obtain ⟨outer, m, -, hparent, hm, hsegment, -⟩ := plan_scopes hplan
    obtain ⟨m', hm', hkind⟩ := Option.map_eq_some_iff.mp
      (kind_of_lookup h p e p.fragment.root_listed hm)
    have hold : (g.nodes.get old).isSome := mounted_iff.mp
      (h.linked.placed (a := q) (l := .ordinaryIndex q i) (by rw [hkids]; simp)).1
    obtain ⟨n, hn⟩ : ∃ n, g.node old = some n := by
      rw [← Option.isSome_iff_exists, MountedGraph.node, Option.isSome_map]
      exact hold
    rw [hkids, List.map_append, List.map_cons] at agrees ⊢
    rw [hkids_v, List.map_append, List.map_cons] at hc hroot
    have same (d : ℕ) (hd : d ∈ before.map Prod.fst ++ after.map Prod.fst) :=
      kinds_around h e around hd
    have hmet := meet_all_congr g.node v.node
      (fun d hd => same d (List.mem_append_left _ hd)) ∅
    have hat : (old, .of n (before.map Prod.fst).length
        ((meetAll g.node ∅ (before.map Prod.fst)).meet n.kind).1) ∈
        siblingSegments g.node ∅ 0 (before.map Prod.fst ++ old :: after.map Prod.fst) := by
      rw [segments_append, segments_cons hn, Nat.zero_add]
      exact List.mem_append_right _ List.mem_cons_self
    have hkey := Option.some.inj ((agrees _ _ hat).symm.trans unchanged)
    -- the new root takes the key of the old one
    have hat' : (r.root, .of m' (before.map Prod.fst).length
        ((meetAll g.node ∅ (before.map Prod.fst)).meet m'.kind).1) ∈
        siblingSegments v.node ∅ 0 (before.map Prod.fst ++ r.root :: after.map Prod.fst) := by
      rw [segments_append, segments_cons hm', hmet, Nat.zero_add]
      exact List.mem_append_right _ List.mem_cons_self
    have distinct : ((siblingSegments v.node ∅ 0
        (before.map Prod.fst ++ r.root :: after.map Prod.fst)).map Prod.fst).Nodup := by
      refine List.Nodup.sublist (segments_sublist _ ∅ 0) ?_
      have := kids_nodup (e.shape h).linked q
      rwa [hkids_v, List.map_append, List.map_cons] at this
    have hsame := List.inj_on_of_nodup_map distinct hat' hroot rfl
    have key := hkey.trans (Prod.mk.inj hsame).2.symm
    rw [segments_swap hm' same key] at hc
    rw [segments_append, segments_cons hn, Nat.zero_add, List.length_map] at ⊢
    rw [List.length_map] at hc
    rcases List.mem_append.mp hc with hc | hc
    · exact List.mem_append_left _ hc
    · rcases List.mem_cons.mp hc with heq | hc
      · exact absurd (Prod.mk.inj heq).1 hne
      · exact List.mem_append_right _ (List.mem_cons_of_mem _ hc)
  | keyed container key i =>
    simp only [ParentLocation.parent] at hkids hkids_v hc ⊢
    have hmem := mem_children hc
    rw [hkids_v] at hmem
    obtain ⟨⟨c, l⟩, hmem', rfl⟩ := List.mem_map.mp hmem
    have hout : (c, l) ∈ before ++ after := by
      rcases List.mem_append.mp hmem' with hm | hm
      · exact List.mem_append_left _ hm
      · rcases List.mem_cons.mp hm with heq | hm
        · exact absurd (Prod.mk.inj heq).1 hne
        · exact List.mem_append_right _ hm
    have hkid : (c, l) ∈ (forest g).kids container := by
      rw [hkids]
      rcases List.mem_append.mp hout with hm | hm <;> simp [hm]
    obtain ⟨hm, hp⟩ := h.linked.placed hkid
    have hold : (old, .keyed container key i) ∈ (forest g).kids container := by simp [hkids]
    obtain ⟨k, j, rfl⟩ := keyed_beside h hold hkid
    have hbound := bounded_g _ _ _ _ hp
    obtain ⟨n, hn, hk⟩ := Option.map_eq_some_iff.mp hbound
    have hbound_v := kind_of_kept e h hm (around.kept _ hout)
    rw [hbound] at hbound_v
    obtain ⟨n', hn', hk'⟩ := Option.map_eq_some_iff.mp hbound_v
    obtain rfl := segment_boundary hn' hk' hc
    obtain ⟨s, hs⟩ := segment_exists g.node (List.mem_map_of_mem (f := Prod.fst) hkid)
      (by simp [hn]) ∅ 0
    obtain rfl := segment_boundary hn hk hs
    exact hs

end Keys

section Replacing

variable {g v t t' : MountedGraph K} {r : Replacement K} {plan : ReplacementPlan K}
  {location : ParentLocation K}

omit [DecidableEq K] in
theorem node_of_outline (same : outline t' = outline t) : t'.node = t.node :=
  node_congr (congrArg Outline.content same)

theorem agrees_congr {p : ℕ} (same : outline t' = outline t)
    (segments : t'.cachedSegment = t.cachedSegment) (agrees : Agrees t p) : Agrees t' p := by
  have hkids : (forest t').kids p = (forest t).kids p :=
    kids_of_places (places_of_content (congrFun (congrArg Outline.content same) p))
  rw [Agrees, node_of_outline same, hkids, segments]
  exact agrees

theorem attach_segments {oldSize newSize : ℕ} {u : Unit} (shape : Shape t')
    (mounted : (forest t').Mounted location.parent) (hl : plan.parentLocation = some location)
    (h : (attach r plan oldSize newSize).run t = .ok u t') :
    (plan.parentSegmentsUnchanged = true ∧ t'.cachedSegment = t.cachedSegment) ∨
    Agrees t' location.parent ∧ ∀ x, ¬(forest t').Child location.parent x →
      t'.cachedSegment x = t.cachedSegment x := by
  rw [attach, hl] at h
  simp only [bind_ok] at h
  obtain ⟨_, t1, hroot, hrest⟩ := h
  have segment1 : t1.cachedSegment = t.cachedSegment :=
    kept_of_preserves (fun c => segment_attachRoot _ _) hroot
  split at hrest
  · obtain ⟨_, t2, hrefresh, hresize⟩ := bind_ok.mp hrest
    have segment2 : t'.cachedSegment = t2.cachedSegment :=
      kept_of_preserves (fun c => segment_resize _ _ _) hresize
    obtain ⟨along, -, resized⟩ := resize_ancestors hresize
    have outlined : outline t2 = outline t1 :=
      kept_of_preserves (fun c => preserves_refresh _) hrefresh
    have content1 : GraphMounting.content t' = GraphMounting.content t1 :=
      resized.same.content.trans (congrArg Outline.content outlined)
    have mounted1 : (t1.nodes.get location.parent).isSome := by
      rw [← content_is_some, ← content1, content_is_some]
      exact mounted_iff.mp mounted
    have hchildren : t1.childrenOf location.parent =
        (.ok (((forest t').kids location.parent).map Prod.fst) : Reading K _) :=
      (children_congr (congrFun content1 location.parent)).symm.trans (children_of shape _)
    obtain ⟨-, keyed, away⟩ := refresh_ok mounted1 hchildren
      (kids_nodup shape.linked location.parent) hrefresh
    right
    refine ⟨fun c s hc => ?_, fun x hx => ?_⟩
    · rw [node_congr content1] at hc
      rw [segment2, keyed c s hc]
    · rw [segment2, away x, segment1]
      intro hmem
      obtain ⟨⟨x, l⟩, hkid, rfl⟩ := List.mem_map.mp hmem
      exact hx ⟨l, hkid⟩
  · rename_i hunchanged
    left
    have segment2 : t'.cachedSegment = t1.cachedSegment :=
      kept_of_preserves (fun c => segment_resize _ _ _) hrest
    exact ⟨not_not.mp hunchanged, segment2.trans segment1⟩

/-- What the exchange leaves of the keys before the new root is hung into the graph. -/
structure Keyed (g v t : MountedGraph K) (r : Replacement K) (plan : ReplacementPlan K) : Prop where
  fresh : ∀ n ∈ r.nodes, ∀ c s, (c, s) ∈ siblingSegments v.node ∅ 0 n.children →
    t.cachedSegment c = some s
  kept : ∀ x, (forest g).Mounted x → x ∉ plan.removedIds → x ∉ childIds r.nodes → x ≠ r.root →
    t.cachedSegment x = g.cachedSegment x
  root : t.cachedSegment r.root = some plan.rootSegment

theorem replacement_keyed (h : Shape g) {a : GraphApply K} (hplan : planReplacement r g = .ok plan)
    (hrun : (applyReplacement r).run g = .ok a v) : ∃ t t' oldSize newSize u, Keyed g v t r plan ∧
      (attach r plan oldSize newSize).run t = .ok u t' ∧ outline v = outline t' ∧
      v.cachedSegment = t'.cachedSegment := by
  obtain ⟨plan', hplan', e⟩ := replacement_grafted h hrun
  obtain rfl := Except.ok.inj (hplan.symm.trans hplan')
  have p := planned h hplan
  simp only [applyReplacement, commitReplacement, bind_ok, get_ok, query_run_ok, pure_ok] at hrun
  obtain ⟨_, _, ⟨rfl, rfl⟩, plan', _, ⟨hplan', rfl⟩, _, _, ⟨rfl, rfl⟩, carried, g0, hcarry, ended, t4,
    hexchange, _, g2, hfinish, _, _, ⟨rfl, rfl⟩, -, rfl⟩ := hrun
  obtain rfl := Except.ok.inj (hplan.symm.trans hplan')
  simp only [exchange, bind_ok, query_run_ok, pure_ok] at hexchange
  obtain ⟨ended', t0, hretire, _, t1, hinsert, _, t2, hparent, _, t3, hsegment, size, _, ⟨hsize, rfl⟩,
    _, t4, hattach, rfl, rfl⟩ := hexchange
  have segment0 : g0.cachedSegment = g.cachedSegment := segment_of_withoutInteraction
    (kept_of_preserves (fun c => preserves_carry _) hcarry)
  have retired := retire_all hretire
  obtain ⟨fresh, away⟩ := insert_segments p.fragment hinsert
  have segment2 : t2.cachedSegment = t1.cachedSegment :=
    kept_of_preserves (fun c => segment_setParent _ _ _) hparent
  obtain ⟨-, segment3⟩ := set_segment hsegment
  have finish := kept_of_preserves (fun c => preserves_finish _ _ _) hfinish
  -- the kinds are those of the graph the patch leads to
  have same : register g2 = register t1 :=
    (kept_of_preserves (fun c => GraphIndices.register_finish _ _ _) hfinish).trans <|
    (kept_of_preserves (fun c => GraphIndices.register_attach _ _ _ _) hattach).trans <|
    (kept_of_preserves (fun c => GraphIndices.register_setSegment _ _) hsegment).trans
      (kept_of_preserves (fun c => GraphIndices.register_setParent _ _ _) hparent)
  have kinds (c : ℕ) : (g2.node c).map (·.kind) = (t1.node c).map (·.kind) :=
    congrFun (Prod.mk.inj same).1 c
  refine ⟨t3, t4, _, size, _, ⟨fun n hn c s hc => ?_, fun x hm hr hc hne => ?_, ?_⟩, hattach,
    outline_of_withoutInteraction finish, segment_of_withoutInteraction finish⟩
  · have hne : c ≠ r.root := fun heq =>
      p.fragment.root_free (heq ▸ mem_childIds.mpr ⟨n, hn, mem_children hc⟩)
    rw [segment3, Function.update_of_ne hne, segment2]
    refine fresh n hn c s ?_
    rwa [segments_congr fun d _ => (kinds d).symm]
  · have hid : x ∉ ids r.nodes := fun hid => fresh_not_mounted e h hid hm
    rw [segment3, Function.update_of_ne hne, segment2, away x hid hc, segment_retired retired hr,
      segment0]
  · rw [segment3, Function.update_self]

/-- What a replacement leaves of the keys, whatever it installs: the new root has the key
that was there, or the keys of all its siblings are brought up to date. -/
structure Rekeyed (g v : MountedGraph K) (r : Replacement K) (plan : ReplacementPlan K) : Prop where
  fresh : ∀ n ∈ r.nodes, ∀ c s, (c, s) ∈ siblingSegments v.node ∅ 0 n.children →
    v.cachedSegment c = some s
  kept : ∀ x, (forest g).Mounted x → x ∉ plan.removedIds → x ∉ childIds r.nodes → x ≠ r.root →
    (∀ p ∈ siteOf plan, ¬(forest v).Child p x) → v.cachedSegment x = g.cachedSegment x
  hung : (plan.parentLocation = none ∨ plan.parentSegmentsUnchanged = true) ∧ Keyed g v v r plan ∨
    ∃ location, plan.parentLocation = some location ∧ Agrees v location.parent

theorem rekeyed_still (keyed : Keyed g v v r plan)
    (still : plan.parentLocation = none ∨ plan.parentSegmentsUnchanged = true) :
    Rekeyed g v r plan :=
  ⟨keyed.fresh, fun x hm hr hc hne _ => keyed.kept x hm hr hc hne, .inl ⟨still, keyed⟩⟩

theorem keyed_congr {t : MountedGraph K} (keyed : Keyed g v t r plan)
    (same : v.cachedSegment = t.cachedSegment) : Keyed g v v r plan :=
  ⟨same ▸ keyed.fresh, same ▸ keyed.kept, same ▸ keyed.root⟩

theorem replacement_rekeyed (h : Shape g) {a : GraphApply K}
    (hplan : planReplacement r g = .ok plan) (hrun : (applyReplacement r).run g = .ok a v) :
    Rekeyed g v r plan := by
  obtain ⟨plan', hplan', e⟩ := replacement_grafted h hrun
  obtain rfl := Except.ok.inj (hplan.symm.trans hplan')
  have shape := e.shape h
  obtain ⟨t, t', oldSize, newSize, u, keyed, hattach, same, segments⟩ := replacement_keyed h hplan hrun
  cases hl : plan.parentLocation with
  | none =>
    rw [attach, hl] at hattach
    obtain rfl := modify_ok.mp hattach
    exact rekeyed_still (keyed_congr keyed segments) (.inl hl)
  | some location =>
    have hsite : siteOf plan = some location.parent := by rw [siteOf, hl, Option.map_some]
    obtain ⟨hm_site, hr_site⟩ := e.graft.site_kept _ hsite
    have mounted : (forest v).Mounted location.parent := (e.mounted h _).mpr (.inl ⟨hm_site, hr_site⟩)
    have same_content : GraphMounting.content v = GraphMounting.content t' :=
      congrArg Outline.content same
    have mounted_t : (forest t').Mounted location.parent := by
      rwa [mounted_iff, ← content_is_some, ← same_content, content_is_some, ← mounted_iff]
    have shape_t : Shape t' := (e.outline same.symm).shape h
    rcases attach_segments shape_t mounted_t hl hattach with ⟨hflag, hsame⟩ | ⟨hagrees, haway⟩
    · exact rekeyed_still (keyed_congr keyed (segments.trans hsame)) (.inr hflag)
    · have haway_v (x : ℕ) (hx : ¬(forest v).Child location.parent x) :
          v.cachedSegment x = t.cachedSegment x := by
        rw [segments]
        refine haway x fun child => hx (child.imp fun l hkid => ?_)
        rwa [kids_of_places (places_of_content (congrFun same_content location.parent))]
      refine ⟨fun n hn c key hc => ?_, fun x hx hr hc hne hx' => ?_,
        .inr ⟨location, hl, agrees_congr same segments hagrees⟩⟩
      · rw [haway_v c fun child => ?_]
        · exact keyed.fresh n hn c key hc
        · obtain ⟨l, hkid⟩ := child
          obtain ⟨l', hl', hp⟩ := e.parent_fresh h hn (mem_children hc)
          obtain rfl := Option.some.inj ((shape.linked.placed hkid).2.symm.trans hl')
          have hq := (shape.linked.owned hkid).symm.trans hp
          exact fresh_not_mounted e h (List.mem_map_of_mem hn) (hq ▸ hm_site)
      · rw [haway_v x (hx' _ hsite)]
        exact keyed.kept x hx hr hc hne

theorem replacement_marked (h : Shape g) (bounded : Bounded g) (bounded_v : Bounded v)
    (s : Segmented g) {a : GraphApply K} (hplan : planReplacement r g = .ok plan)
    (hrun : (applyReplacement r).run g = .ok a v) :
    Marked g v plan.removedIds r.nodes [(r.root, plan.parentLocation)] (siteOf plan) ∧
      v.cachedSegment r.root = some plan.rootSegment := by
  obtain ⟨plan', hplan', e⟩ := replacement_grafted h hrun
  obtain rfl := Except.ok.inj (hplan.symm.trans hplan')
  have p := planned h hplan
  have shape := e.shape h
  have rekeyed := replacement_rekeyed h hplan hrun
  obtain ⟨outer, m, -, hparent, hm, hsegment, -, hunchanged⟩ := plan_scopes hplan
  have hkept (x : ℕ) (hx : (forest g).Mounted x) (hr : x ∉ plan.removedIds)
      (hc : x ∉ childIds r.nodes) (htop : x ∉ [(r.root, plan.parentLocation)].map Prod.fst)
      (hx' : ∀ q ∈ siteOf plan, ¬(forest v).Child q x) : v.cachedSegment x = g.cachedSegment x :=
    rekeyed.kept x hx hr hc (fun heq => htop (by simp [heq])) hx'
  rcases rekeyed.hung with ⟨still, keyed⟩ | ⟨location, hl, hagrees⟩
  · refine ⟨⟨rekeyed.fresh, hkept, fun q hq => ?_, fun c hc n hn => ?_⟩, keyed.root⟩
    · obtain ⟨location, hl, rfl⟩ := Option.map_eq_some_iff.mp hq
      have hr_site := (e.graft.site_kept _ hq).2
      obtain ⟨old, before, after, hold, around⟩ := hung h hplan hrun hl
      have key := root_key h p e hl around bounded_v hplan
      intro c key' hc
      by_cases hne : c = r.root
      · subst hne
        have distinct := (kids_nodup shape.linked location.parent).sublist
          (segments_sublist v.node ∅ 0)
        rw [(Prod.mk.inj (List.inj_on_of_nodup_map distinct hc key rfl)).2]
        exact keyed.root
      · have hold_key : g.cachedSegment old = some plan.rootSegment := by
          have := hunchanged.mp (still.resolve_left (by simp [hl]))
          rwa [hold, Option.bind_some] at this
        have hg := others_key h p e hl around bounded_v hplan bounded (s.agrees _) hold_key hne hc
        obtain ⟨⟨c, l⟩, hkid, rfl⟩ := List.mem_map.mp (mem_children hg)
        obtain ⟨hmc, hlc⟩ := h.linked.placed hkid
        have hrc : c ∉ plan.removedIds := by
          obtain ⟨⟨c', l'⟩, hkid', heq⟩ := List.mem_map.mp (mem_children hc)
          obtain rfl : c' = c := heq
          rcases (e.kids_site hq c' l').mp hkid' with htop | ⟨-, hkept⟩
          · exact absurd (Prod.mk.inj (List.mem_singleton.mp htop)).1 hne
          · exact hkept
        obtain ⟨hchild, -⟩ := kept_apart e h hmc fun l' hl' => by
          obtain rfl := Option.some.inj (hlc.symm.trans hl')
          rw [h.linked.owned hkid]
          exact hr_site
        rw [keyed.kept c hmc hrc hchild hne]
        exact s.agrees _ c key' hg
    · obtain ⟨rfl, hnone⟩ := Prod.mk.inj (List.mem_singleton.mp hc)
      have hkind := kind_of_lookup h p e p.fragment.root_listed hm
      rw [hn, Option.map_some, Option.some.injEq] at hkind
      rw [← hnone, Option.map_none] at hparent
      rw [hparent, rootSegmentOf] at hsegment
      rw [keyed.root, ← Except.ok.inj hsegment, of_congr hkind]
  · have hsite : siteOf plan = some location.parent := by rw [siteOf, hl, Option.map_some]
    obtain ⟨old, before, after, hold, around⟩ := hung h hplan hrun hl
    refine ⟨⟨rekeyed.fresh, hkept, fun q hq => ?_, fun c hc => ?_⟩,
      hagrees _ _ (root_key h p e hl around bounded_v hplan)⟩
    · obtain rfl := Option.some.inj (hsite.symm.trans hq)
      exact hagrees
    · cases hl.symm.trans (Prod.mk.inj (List.mem_singleton.mp hc)).2.symm

end Replacing

end GraphIdentities
