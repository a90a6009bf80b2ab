import RocGui.IdentityRuns
import RocGui.NativeViews

/-! The place a patch reports for its new root, and what the native view makes of it. -/
namespace PatchReports

open FiniteMaps Methods KeyedOrder GraphState GraphPatches GraphForests GraphMounting
open GraphReplacements GraphLedgers GraphRuns GraphListings GraphIdentities ElementIdentities
open Transitions PointerTrees FocusLandings IdentityRuns NativeViews NativeOrders

variable {K : Type} [DecidableEq K]

section Reports

/-- The window at a patch: its views, the identities after it, the retired nodes in the order in
which their views are offered, and the nodes that are drawn at once. -/
structure Native (K : Type) where
  window : Window K
  identities : FiniteMap ℕ ElementIdentity
  doomed : List ℕ
  built : List ℕ

/-- `apply_to_gpui`, as far as it is about views. -/
def Native.apply (n : Native K) (g' : MountedGraph K) (a : GraphApply K) :
    Except (Failure Empty) (Window K) := do
  return (← (n.window.materialize g' n.identities n.doomed n.built).installRoot a).retire a.removedIds

def Shows (w : Window K) (g : MountedGraph K) (p : ℕ) : Prop := ∃ view drawn children,
  w.view p = some view ∧ view.nativeChildren = .ok drawn ∧
    g.childrenOf p = (.ok children : Except (Failure Empty) _) ∧
    drawn.map some = children.map w.views.get

/-- Roots of the tree that goes and of the tree that comes. -/
def exchanged : Patch K → Option (ℕ × ℕ)
  | .replace oldRoot root _ => some (oldRoot, root)
  | .replaceRetaining oldRoot root _ _ => some (oldRoot, root)
  | _ => none

variable {g g' : MountedGraph K} {a : GraphApply K} {r : Replacement K} {patch : Patch K}

/-- The window goes with the graph. Views are offered of the tree that goes and made of the one
that comes, of its root at once where the parent is drawn. -/
structure Native.Fits (n : Native K) (g g' : MountedGraph K) (a : GraphApply K) (patch : Patch K) :
    Prop where
  held : ∀ id e, n.window.views.get id = some e → e < n.window.nextEntity
  apart : ∀ id id' e, n.window.views.get id = some e → n.window.views.get id' = some e → id = id'
  ordinary : ∀ id entry view, g.nodes.get id = some entry → entry.keyedChildren = none →
    n.window.view id = some view →
      view.keyedChildren = none ∧ view.node.children.length = entry.node.children.length
  offered : ∀ x ∈ exchanged patch, ∀ id ∈ n.doomed, (forest g).Below x.1 id
  made : ∀ x ∈ exchanged patch, ∀ id ∈ n.built, (forest g').Below x.2 id
  once : n.built.Nodup
  drawn : ∀ p i, a.parent = some (p, i) → Shows n.window g p →
    ∀ x ∈ exchanged patch, x.2 ∈ n.built

/-- The report names the position of the new root, and a view that drew the children of the graph
draws those of the new graph when it has followed the report. -/
def ReportsPosition (n : Native K) (a : GraphApply K) (g g' : MountedGraph K) : Prop :=
  ∀ p i, a.parent = some (p, i) → ∃ root children', a.root = some root ∧
    g'.childrenOf p = (.ok children' : Except (Failure Empty) _) ∧ children'[i]? = some root ∧
      (Shows n.window g p → ∃ w, n.apply g' a = .ok w ∧ Shows w g' p)

/-- The first of the nodes given a view that has the identity of the new root is that root, the last
view offered under it is that of the old root, and both are of one kind. -/
def TakesOver (n : Native K) (g' : MountedGraph K) (old root : ℕ) : Prop :=
  Window.identityOf n.identities root ≠ [] ∧
    Window.identityOf n.identities root ∉
      (n.built.takeWhile fun id => id ≠ root).map (Window.identityOf n.identities) ∧
    (n.window.offered n.doomed).get (Window.identityOf n.identities root) = n.window.views.get old ∧
    ∃ view node, n.window.view old = some view ∧ g'.node root = some node ∧
      view.node.kind.tag = node.kind.tag

/-- A keyed item is only replaced while it is the first of its container, whose view, if it draws
its items, has lists to write to, and has a view for the item that the new root takes over, if it
draws them in their keyed order. -/
def ReplacesFirst (n : Native K) (patch : Patch K) (g g' : MountedGraph K) : Prop :=
  ∀ x ∈ exchanged patch, ∀ container key instanceId,
    g.parentLocation x.1 = some (.keyed container key instanceId) →
      (∃ rest, g.childrenOf container = (.ok (x.1 :: rest) : Except (Failure Empty) _)) ∧
      (Shows n.window g container → ∀ view, n.window.view container = some view →
        view.node.children ≠ [] ∧ view.children ≠ [] ∧
          (view.keyedChildren.isSome → TakesOver n g' x.1 x.2))

theorem replacement_report (hrun : (applyReplacement r).run g = .ok a g') : ∃ plan,
    planReplacement r g = .ok plan ∧ a.parent = plan.parentLocation.map attachment ∧
      a.root = some r.root := by
  simp only [applyReplacement, commitReplacement, bind_ok, get_ok, query_run_ok, pure_ok] at hrun
  obtain ⟨_, _, ⟨rfl, rfl⟩, plan, _, ⟨hplan, rfl⟩, _, _, ⟨rfl, rfl⟩, carried, g0, -, ended, g1, -,
    _, g2, -, _, _, ⟨rfl, rfl⟩, rfl, rfl⟩ := hrun
  obtain ⟨-, outer, -, hparent, -⟩ := plan_checks hplan
  exact ⟨plan, hplan, hparent, rfl⟩

structure Reported (g g' : MountedGraph K) (a : GraphApply K) (old root p : ℕ)
    (before after : List ℕ) : Prop where
  reported : a.root = some root
  was : g.childrenOf p = (.ok (before ++ old :: after) : Except (Failure Empty) _)
  now : g'.childrenOf p = (.ok (before ++ root :: after) : Except (Failure Empty) _)
  distinct : (before ++ root :: after).Nodup
  above : ¬(forest g).Below old p ∧ ¬(forest g').Below root p ∧ p ∉ a.removedIds
  beside : ∀ c ∈ before ++ after, ¬(forest g').Below root c ∧ c ∉ a.removedIds
  kept : root ∉ a.removedIds

theorem replacement_reported (h : Shape g) (h' : Shape g')
    (hrun : (applyReplacement r).run g = .ok a g') {location : ParentLocation K}
    (hl : r.oldRoot.bind g.parentLocation = some location) : ∃ old before after,
    r.oldRoot = some old ∧ a.parent = some (attachment location) ∧
      Reported g g' a old r.root location.parent before after ∧
      ∀ p i, location = .ordinaryIndex p i → i = before.length := by
  obtain ⟨plan, hplan, told⟩ := replacement_told hrun
  obtain ⟨plan', hplan', e⟩ := replacement_grafted h hrun
  obtain rfl := Except.ok.inj (hplan.symm.trans hplan')
  have p := planned h hplan
  rw [← p.location] at hl
  obtain ⟨old, before, after, hold, hung⟩ := hung h hplan hrun hl
  have child : (forest g).Child location.parent old := ⟨location, by rw [hung.was]; simp⟩
  have child' : (forest g').Child location.parent r.root := ⟨location, by rw [hung.now]; simp⟩
  have now : g'.childrenOf location.parent = (.ok (before.map Prod.fst ++ r.root :: after.map Prod.fst) :
      Except (Failure Empty) _) := by
    rw [children_of h', hung.now, List.map_append, List.map_cons]
  have distinct : (before.map Prod.fst ++ r.root :: after.map Prod.fst).Nodup := by
    have nodup := kids_nodup h'.linked location.parent
    rwa [hung.now, List.map_append, List.map_cons] at nodup
  have staysAway {x : ℕ} (hx : x ∈ plan.removedIds) : (forest g).Mounted x ∧ (forest g).Below old x := by
    obtain ⟨old', hold', hbelow⟩ := under_old p (.inl hx)
    obtain rfl := Option.some.inj (hold.symm.trans hold')
    exact ⟨mounted_below h (p.target old hold) hbelow, hbelow⟩
  refine ⟨old, before.map Prod.fst, after.map Prod.fst, hold, ?_, ⟨told.root, ?_, now, distinct,
    ⟨no_way_back h child, no_way_back h' child', ?_⟩, fun c hc => ⟨fun hbelow => ?_, ?_⟩, ?_⟩, ?_⟩
  · rw [told.parent, hl, Option.map_some]
  · rw [children_of h, hung.was, List.map_append, List.map_cons]
  · rw [told.removed]
    exact fun hm => no_way_back h child (staysAway hm).2
  · rw [← List.map_append] at hc
    obtain ⟨⟨c, l⟩, hx, rfl⟩ := List.mem_map.mp hc
    have sibling : (forest g').Child location.parent c := ⟨l, by
      rw [hung.now]
      rcases List.mem_append.mp hx with hx | hx <;> simp [hx]⟩
    obtain rfl : r.root = c := children_apart h' child' sibling hbelow
    have alone := List.nodup_middle.mp distinct
    rw [List.nodup_cons, ← List.map_append] at alone
    exact alone.1 hc
  · rw [told.removed]
    rw [← List.map_append] at hc
    obtain ⟨x, hx, rfl⟩ := List.mem_map.mp hc
    exact hung.kept x hx
  · rw [told.removed]
    intro hm
    obtain ⟨l, hl⟩ := child'
    rcases (e.mounted h r.root).mp (h'.linked.placed hl).1 with ⟨-, hkept⟩ | hnew
    · exact hkept hm
    · obtain ⟨n, hn, hid⟩ := List.mem_map.mp hnew
      exact absurd (p.fresh n hn) (not_lt.mpr (hid ▸ h.issued (mounted_iff.mp (staysAway hm).1)))
  · intro q i hi
    rw [List.length_map]
    exact hung.index q i hi

end Reports

section Followed

variable {n : Native K} {g g' : MountedGraph K} {a : GraphApply K} {patch : Patch K}
  {old root p i : ℕ} {before after : List ℕ} {view : NodeView K}

def followed (view : NodeView K) (i root e : ℕ) : NodeView K := { view with
  node := { view.node with children := view.node.children.set i root }
  children := view.children.set i e }

/-- What the native step does where the parent is drawn: it fails beyond either list of the view,
and else puts there the view of the new root. -/
structure Follows (n : Native K) (g' : MountedGraph K) (a : GraphApply K) (old root p i : ℕ)
    (siblings : List ℕ) (view : NodeView K) (e : ℕ) : Prop where
  taken : some e = n.window.views.get old ↔ TakesOver n g' old root
  panics : ¬(i < view.node.children.length ∧ i < view.children.length) →
    ∃ failure, n.apply g' a = .error failure
  installs : i < view.node.children.length ∧ i < view.children.length →
    ∃ w, n.apply g' a = .ok w ∧ w.view p = some (followed view i root e) ∧
      w.views.get root = some e ∧ ∀ c ∈ siblings, w.views.get c = n.window.views.get c

theorem old_view (rep : Reported g g' a old root p before after) (shows : Shows n.window g p) :
    ∃ e, n.window.views.get old = some e := by
  obtain ⟨_, drawn, children, -, -, hchildren, hdrawn⟩ := shows
  obtain rfl := Except.ok.inj (rep.was.symm.trans hchildren)
  have hmem : n.window.views.get old ∈ drawn.map some := by
    rw [hdrawn]
    exact List.mem_map_of_mem (by simp)
  obtain ⟨e, -, he⟩ := List.mem_map.mp hmem
  exact ⟨e, he.symm⟩

omit [DecidableEq K] in
/-- The view that the new root claims, told by what is offered and who came before. -/
theorem takes_over_iff {e x : ℕ} {node : Node K} {before' after' : List ℕ}
    (held : ∀ id e, n.window.views.get id = some e → e < n.window.nextEntity)
    (hbuilt : n.built = before' ++ root :: after') (once : n.built.Nodup)
    (known : ∀ id ∈ before', (g'.node id).isSome) (hnode : g'.node root = some node)
    (hold : n.window.views.get old = some x)
    (he : e = ((before'.foldl (fun w id => w.enter g' n.identities id)
      (n.window.offer n.doomed)).claimed (Window.identityOf n.identities root) node).getD
        (before'.foldl (fun w id => w.enter g' n.identities id) (n.window.offer n.doomed)).nextEntity) :
    some e = n.window.views.get old ↔ TakesOver n g' old root := by
  have first : (n.built.takeWhile fun id => id ≠ root) = before' := by
    rw [hbuilt, List.nodup_append] at once
    rw [hbuilt, List.takeWhile_append_of_pos, List.takeWhile_cons_of_neg (by simp), List.append_nil]
    exact fun id hid => by simpa using once.2.2 id hid root List.mem_cons_self
  rw [hold, Option.some_inj, he]
  rw [claims_iff (offers held n.doomed) known (held old x hold)]
  rw [TakesOver, first, hold]
  refine and_congr_right fun _ => and_congr_right fun _ => and_congr_right fun _ => ?_
  rw [Window.view, hold, hnode]
  constructor
  · rintro ⟨view, hview, htag⟩
    exact ⟨view, node, hview, rfl, htag⟩
  · rintro ⟨view, _, hview, ⟨⟩, htag⟩
    exact ⟨view, hview, htag⟩

/-- What is given a view is mounted, for it is below the new root. -/
theorem built_known (h' : Shape g') (fits : n.Fits g g' a patch)
    (rep : Reported g g' a old root p before after) (hx : exchanged patch = some (old, root)) :
    ∀ id ∈ n.built, (g'.node id).isSome := by
  intro id hid
  have now := rep.now
  rw [children_of h', Except.ok.injEq] at now
  have hroot : root ∈ ((forest g').kids p).map Prod.fst := by rw [now]; simp
  obtain ⟨⟨_, l⟩, hl, rfl⟩ := List.mem_map.mp hroot
  have hm := mounted_below h' (h'.linked.placed hl).1 (fits.made _ hx id hid)
  rw [MountedGraph.node, Option.isSome_map]
  exact mounted_iff.mp hm

/-- The parent keeps its view, which is neither offered nor made. -/
theorem parent_kept (fits : n.Fits g g' a patch) (rep : Reported g g' a old root p before after)
    (hx : exchanged patch = some (old, root)) (known : ∀ id ∈ n.built, (g'.node id).isSome) {entity : ℕ}
    (hentity : n.window.views.get p = some entity) (hview : n.window.entities.get entity = some view) :
    (n.window.materialize g' n.identities n.doomed n.built).views.get p = some entity ∧
      (n.window.materialize g' n.identities n.doomed n.built).entities.get entity = some view := by
  have drawn := built_drawn (n.window.offer n.doomed) n.identities n.built known
  constructor
  · exact (drawn.views p fun hm => rep.above.2.1 (fits.made _ hx p hm)).trans hentity
  · refine (drawn.entities entity (fits.held p entity hentity) fun id hid hoffered => ?_).trans hview
    obtain ⟨id', hid', hviews, -⟩ := offered_from hoffered
    obtain rfl := fits.apart id' p entity hviews hentity
    exact rep.above.1 (fits.offered _ hx id' hid')

omit [DecidableEq K] in
/-- Where the parent and the new root are drawn, the step writes to the lists of the parent's view. -/
theorem apply_drawn {w : Window K} {e entity : ℕ}
    (hw : n.window.materialize g' n.identities n.doomed n.built = w) (hroot : a.root = some root)
    (hparent : a.parent = some (p, i)) (rootView : w.views.get root = some e)
    (parentView : w.views.get p = some entity) (hview : w.entities.get entity = some view) :
    n.apply g' a = if i < view.node.children.length ∧ i < view.children.length then
      .ok (Window.retire { w with entities := w.entities.set entity (followed view i root e) }
        a.removedIds)
      else .error (.panic "index out of bounds") := by
  have hdrawn : w.view p = some view := by
    rw [Window.view, parentView]
    exact hview
  rw [Native.apply, hw, Window.installRoot, hroot, hparent]
  dsimp only
  rw [rootView, parentView, hdrawn]
  dsimp only
  split <;> rfl

theorem report_follows (h' : Shape g') (fits : n.Fits g g' a patch)
    (rep : Reported g g' a old root p before after) (hx : exchanged patch = some (old, root))
    (hparent : a.parent = some (p, i)) (shows : Shows n.window g p)
    (hview : n.window.view p = some view) :
    ∃ e, Follows n g' a old root p i (before ++ after) view e := by
  have known := built_known h' fits rep hx
  obtain ⟨entity, hentity, hview'⟩ := Option.bind_eq_some_iff.mp hview
  obtain ⟨parentView, parentEntity⟩ := parent_kept fits rep hx known hentity hview'
  have hmem := fits.drawn p i hparent shows _ hx
  obtain ⟨node, hnode⟩ := Option.isSome_iff_exists.mp (known root hmem)
  obtain ⟨before', after', hbuilt⟩ := List.append_of_mem hmem
  obtain ⟨x, hold⟩ := old_view rep shows
  have later : root ∉ after' := by
    have once := fits.once
    rw [hbuilt, List.nodup_append, List.nodup_cons] at once
    exact once.2.1.1
  have known' : ∀ id, id ∈ before' ∨ id ∈ after' → (g'.node id).isSome := by
    intro id hid
    exact known id (by rw [hbuilt, List.mem_append, List.mem_cons]; tauto)
  obtain ⟨e, he, rootView⟩ := built_view (n.window.offer n.doomed) n.identities before' hnode later
    fun id hid => known' id (.inr hid)
  rw [← hbuilt] at rootView
  have hrun := apply_drawn rfl rep.reported hparent rootView parentView parentEntity
  refine ⟨e, takes_over_iff fits.held hbuilt fits.once (fun id hid => known' id (.inl hid)) hnode hold he,
    fun hout => ?_, fun hin => ?_⟩
  · exact ⟨_, hrun.trans (if_neg hout)⟩
  · refine ⟨_, hrun.trans (if_pos hin), ?_, ?_, fun c hc => ?_⟩
    · rw [Window.view, Window.retire, get_removed, if_neg rep.above.2.2, parentView]
      exact FiniteMap.get_set_self ..
    · rw [Window.retire, get_removed, if_neg rep.kept]
      exact rootView
    · rw [Window.retire, get_removed, if_neg (rep.beside c hc).2]
      have drawn := built_drawn (n.window.offer n.doomed) n.identities n.built known
      exact drawn.views c fun hm => (rep.beside c hc).1 (fits.made _ hx c hm)

theorem drawn_exchanged {drawn : List ℕ} {views views' : ℕ → Option ℕ} {e x : ℕ}
    (hdrawn : drawn.map some = (before ++ old :: after).map views) (hold : views old = some x)
    (hroot : views' root = some e) (same : ∀ c ∈ before ++ after, views' c = views c) :
    drawn.map some = (before ++ root :: after).map views' ↔ e = x := by
  rw [hdrawn, List.map_append, List.map_append, List.map_cons, List.map_cons, hold, hroot]
  rw [List.map_congr_left fun c hc => same c (List.mem_append_left _ hc)]
  rw [List.map_congr_left fun c hc => same c (List.mem_append_right _ hc)]
  simp [eq_comm]

theorem drawn_set {drawn : List ℕ} {views views' : ℕ → Option ℕ} {e : ℕ}
    (hdrawn : drawn.map some = (before ++ old :: after).map views)
    (hroot : views' root = some e) (same : ∀ c ∈ before ++ after, views' c = views c) :
    (drawn.set before.length e).map some = (before ++ root :: after).map views' := by
  rw [List.map_set, hdrawn, List.map_append, List.map_append, List.map_cons, List.map_cons, hroot]
  rw [List.map_congr_left fun c hc => same c (List.mem_append_left _ hc)]
  rw [List.map_congr_left fun c hc => same c (List.mem_append_right _ hc)]
  simp

theorem ordinary_entry (h : Shape g) (hl : g.parentLocation old = some (.ordinaryIndex p i)) :
    ∃ entry, g.nodes.get p = some entry ∧ entry.keyedChildren = none ∧
      g.childrenOf p = (.ok entry.node.children : Except (Failure Empty) _) := by
  obtain ⟨location, hmounted, hl⟩ : ∃ e, g.nodes.get old = some e ∧
      (forest g).parent old = some (.ordinaryIndex p i) := by
    obtain ⟨e, he, -⟩ := Option.bind_eq_some_iff.mp hl
    exact ⟨e, he, hl⟩
  have hkid : (old, ParentLocation.ordinaryIndex p i) ∈ (forest g).kids p :=
    h.linked.listed (mounted_iff.mpr (Option.isSome_of_eq_some hmounted)) hl
  obtain ⟨entry, he⟩ := Option.isSome_iff_exists.mp (mounted_iff.mp (mounted_of_kid hkid))
  rw [kids_eq he] at hkid
  have hnone : entry.keyedChildren = none := by
    cases horder : entry.keyedChildren with
    | none => rfl
    | some order =>
      rw [locations, horder] at hkid
      obtain ⟨_, -, heq⟩ := List.mem_map.mp hkid
      cases heq
  refine ⟨entry, he, hnone, ?_⟩
  rw [MountedGraph.childrenOf, he]
  dsimp only
  rw [hnone]

theorem own_list_shows {w : Window K} {e : ℕ} (rep : Reported g g' a old root p before after)
    (shows : Shows n.window g p) (hview : n.window.view p = some view) (hown : view.keyedChildren = none)
    (hw : w.view p = some (followed view before.length root e)) (hroot : w.views.get root = some e)
    (same : ∀ c ∈ before ++ after, w.views.get c = n.window.views.get c) : Shows w g' p := by
  obtain ⟨view', drawn, children, hview', hdrawn, hchildren, hviews⟩ := shows
  obtain rfl := Option.some.inj (hview.symm.trans hview')
  obtain rfl := Except.ok.inj (rep.was.symm.trans hchildren)
  obtain rfl : view.children = drawn := by
    rw [NodeView.nativeChildren, hown] at hdrawn
    exact Except.ok.inj hdrawn
  refine ⟨_, _, _, hw, ?_, rep.now, drawn_set hviews hroot same⟩
  rw [NodeView.nativeChildren, followed, hown]

/-- A view that draws a keyed order is not changed by what is written to its lists. -/
theorem keyed_order_shows {w : Window K} {e : ℕ} (rep : Reported g g' a old root p before after)
    (shows : Shows n.window g p) (hview : n.window.view p = some view)
    (hkeyed : view.keyedChildren.isSome) (hw : w.view p = some (followed view i root e))
    (hroot : w.views.get root = some e)
    (same : ∀ c ∈ before ++ after, w.views.get c = n.window.views.get c) :
    Shows w g' p ↔ some e = n.window.views.get old := by
  obtain ⟨x, hold⟩ := old_view rep shows
  obtain ⟨view', drawn, children, hview', hdrawn, hchildren, hviews⟩ := shows
  obtain rfl := Option.some.inj (hview.symm.trans hview')
  obtain rfl := Except.ok.inj (rep.was.symm.trans hchildren)
  have unchanged : (followed view i root e).nativeChildren = .ok drawn := by
    obtain ⟨order, horder⟩ := Option.isSome_iff_exists.mp hkeyed
    rw [NodeView.nativeChildren, horder] at hdrawn
    rw [NodeView.nativeChildren, followed, horder]
    exact hdrawn
  rw [hold, Option.some_inj, ← drawn_exchanged hviews hold hroot same]
  constructor
  · rintro ⟨view', drawn', children', hview', hdrawn', hchildren', hviews'⟩
    obtain rfl := Option.some.inj (hw.symm.trans hview')
    obtain rfl := Except.ok.inj (unchanged.symm.trans hdrawn')
    obtain rfl := Except.ok.inj (rep.now.symm.trans hchildren')
    exact hviews'
  · exact fun hviews' => ⟨_, drawn, _, hw, unchanged, rep.now, hviews'⟩

theorem ordinary_report (h : Shape g) (h' : Shape g') (fits : n.Fits g g' a patch)
    (rep : Reported g g' a old root p before after) (hx : exchanged patch = some (old, root))
    (hl : g.parentLocation old = some (.ordinaryIndex p before.length))
    (hparent : a.parent = some (p, before.length)) : ReportsPosition n a g g' := by
  intro p' i' heq
  obtain ⟨rfl, rfl⟩ := Prod.mk.inj (Option.some.inj (hparent.symm.trans heq))
  refine ⟨root, _, rep.reported, rep.now, by simp, fun shows => ?_⟩
  obtain ⟨view, drawn, children, hview, hdrawn, hchildren, hviews⟩ := id shows
  obtain ⟨entry, hentry, hnone, hkids⟩ := ordinary_entry h hl
  obtain ⟨hown, hlength⟩ := fits.ordinary p entry view hentry hnone hview
  obtain ⟨e, follows⟩ := report_follows h' fits rep hx hparent shows hview
  have hwas := Except.ok.inj (rep.was.symm.trans hkids)
  have long : drawn.length = (before ++ old :: after).length := by
    rw [Except.ok.inj (rep.was.symm.trans hchildren), ← List.length_map (f := some), hviews,
      List.length_map]
  obtain rfl : view.children = drawn := by
    rw [NodeView.nativeChildren, hown] at hdrawn
    exact Except.ok.inj hdrawn
  rw [← hwas] at hlength
  rw [List.length_append, List.length_cons] at long hlength
  obtain ⟨w, hrun, hw, hroot, same⟩ := follows.installs ⟨by omega, by omega⟩
  exact ⟨w, hrun, own_list_shows rep shows hview hown hw hroot same⟩

theorem keyed_report (h' : Shape g') (fits : n.Fits g g' a patch)
    (rep : Reported g g' a old root p before after) (hx : exchanged patch = some (old, root))
    (hparent : a.parent = some (p, 0)) : ReportsPosition n a g g' ↔ before = [] ∧
      (Shows n.window g p → ∀ view, n.window.view p = some view → view.node.children ≠ [] ∧
        view.children ≠ [] ∧ (view.keyedChildren.isSome → TakesOver n g' old root)) := by
  constructor
  · intro report
    obtain ⟨root', children', hroot', hchildren', hat, native⟩ := report p 0 hparent
    obtain rfl := Option.some.inj (rep.reported.symm.trans hroot')
    obtain rfl := Except.ok.inj (rep.now.symm.trans hchildren')
    have first : before = [] := by
      cases before with
      | nil => rfl
      | cons c before =>
        obtain rfl : c = root := Option.some.inj hat
        exact absurd (by simp) (List.nodup_cons.mp rep.distinct).1
    refine ⟨first, fun shows view hview => ?_⟩
    obtain ⟨w, hrun, hshows⟩ := native shows
    obtain ⟨e, follows⟩ := report_follows h' fits rep hx hparent shows hview
    have hin : 0 < view.node.children.length ∧ 0 < view.children.length := by
      by_contra hout
      obtain ⟨failure, hfail⟩ := follows.panics hout
      cases hrun.symm.trans hfail
    obtain ⟨w', hrun', hw, hroot, same⟩ := follows.installs hin
    obtain rfl := Except.ok.inj (hrun.symm.trans hrun')
    refine ⟨List.ne_nil_of_length_pos hin.1, List.ne_nil_of_length_pos hin.2, fun hkeyed => ?_⟩
    exact follows.taken.mp ((keyed_order_shows rep shows hview hkeyed hw hroot same).mp hshows)
  · rintro ⟨rfl, lists⟩ p' i' heq
    obtain ⟨rfl, rfl⟩ := Prod.mk.inj (Option.some.inj (hparent.symm.trans heq))
    refine ⟨root, _, rep.reported, rep.now, rfl, fun shows => ?_⟩
    obtain ⟨view, _, _, hview, -⟩ := id shows
    obtain ⟨hnode, hchildren, takes⟩ := lists shows view hview
    obtain ⟨e, follows⟩ := report_follows h' fits rep hx hparent shows hview
    obtain ⟨w, hrun, hw, hroot, same⟩ := follows.installs
      ⟨List.length_pos_of_ne_nil hnode, List.length_pos_of_ne_nil hchildren⟩
    refine ⟨w, hrun, ?_⟩
    cases hkeyed : view.keyedChildren with
    | none => exact own_list_shows rep shows hview hkeyed hw hroot same
    | some order =>
      have hsome : view.keyedChildren.isSome := Option.isSome_of_eq_some hkeyed
      exact (keyed_order_shows rep shows hview hsome hw hroot same).mpr (follows.taken.mpr (takes hsome))

end Followed

section Reachable

variable {n : Native K} {g g' : MountedGraph K} {a : GraphApply K} {patch : Patch K} {r : Replacement K}

theorem replacement_reports (h : Shape g) (h' : Shape g') (fits : n.Fits g g' a patch)
    (hrun : (applyReplacement r).run g = .ok a g')
    (hx : exchanged patch = r.oldRoot.map fun old => (old, r.root)) :
    ReportsPosition n a g g' ↔ ReplacesFirst n patch g g' := by
  obtain ⟨plan, hplan, hparent, -⟩ := replacement_report hrun
  have p := planned h hplan
  cases hl : r.oldRoot.bind g.parentLocation with
  | none =>
    rw [p.location, hl, Option.map_none] at hparent
    refine iff_of_true (fun q i hq => by cases hparent.symm.trans hq) ?_
    intro x hmem container key instanceId hkeyed
    rw [hx] at hmem
    obtain ⟨old, hold, rfl⟩ := Option.map_eq_some_iff.mp hmem
    rw [hold, Option.bind_some, hkeyed] at hl
    cases hl
  | some location =>
    obtain ⟨old, before, after, hold, hparent, rep, hindex⟩ := replacement_reported h h' hrun hl
    rw [hold, Option.bind_some] at hl
    rw [hold, Option.map_some] at hx
    have only : ReplacesFirst n patch g g' ↔ ∀ container key instanceId,
        g.parentLocation old = some (.keyed container key instanceId) →
          (∃ rest, g.childrenOf container = (.ok (old :: rest) : Except (Failure Empty) _)) ∧
          (Shows n.window g container → ∀ view, n.window.view container = some view →
            view.node.children ≠ [] ∧ view.children ≠ [] ∧
              (view.keyedChildren.isSome → TakesOver n g' old r.root)) := by
      rw [ReplacesFirst, hx]
      constructor
      · exact fun all => all _ rfl
      · rintro one _ ⟨⟩
        exact one
    rw [only]
    cases location with
    | ordinaryIndex q i =>
      obtain rfl := hindex q i rfl
      refine iff_of_true (ordinary_report h h' fits rep hx hl hparent) ?_
      intro container key instanceId hkeyed
      cases hl.symm.trans hkeyed
    | keyed container key instanceId =>
      rw [keyed_report h' fits rep hx hparent]
      have hwas : g.childrenOf container = (.ok (before ++ old :: after) :
        Except (Failure Empty) _) := rep.was
      constructor
      · rintro ⟨rfl, lists⟩ container' key' instanceId' hkeyed
        cases hl.symm.trans hkeyed
        exact ⟨⟨after, hwas⟩, lists⟩
      · intro one
        obtain ⟨⟨rest, hrest⟩, lists⟩ := one container key instanceId hl
        refine ⟨?_, lists⟩
        have heq := Except.ok.inj (hwas.symm.trans hrest)
        have distinct := kids_nodup h.linked container
        rw [Except.ok.inj ((children_of h container).symm.trans hwas)] at distinct
        cases before with
        | nil => rfl
        | cons c before =>
          obtain rfl : c = old := (List.cons.inj heq).1
          exact absurd (by simp) (List.nodup_cons.mp distinct).1

theorem no_report (hparent : a.parent = none) (hx : exchanged patch = none) :
    ReportsPosition n a g g' ↔ ReplacesFirst n patch g g' := by
  refine iff_of_true (fun p i hp => by cases hparent.symm.trans hp) ?_
  intro x hmem
  cases hx.symm.trans hmem

end Reachable

section Columns

def contentForFirst : Patch ℕ := .replace 2 6 [⟨6, .boundary 5, [7]⟩, ⟨7, .text, []⟩]

theorem reached_column : Reachable (accepting ℕ) (afterPatch .empty twoItemColumn) :=
  reachable_step (reachable_initial _) (accepted_step _ (by decide +kernel))

def itemViews : KeyedViewOrder ℕ ℕ where
  head := some 7
  tail := some 8
  children := ((∅ : FiniteMap ℕ (KeyedViewChild ℕ ℕ)).set 7 ⟨1, none, some 8⟩).set 8 ⟨3, some 7, none⟩

def columnView : NodeView ℕ where
  node := ⟨1, .keyedColumn "" 0 [7, 8], [2, 4]⟩
  identity := [.positional 5 0]
  children := [1, 3]
  keyedChildren := some itemViews
  focusHandle := none

def drawnColumn : Window ℕ where
  entities := (((((∅ : FiniteMap ℕ (NodeView ℕ)).set 0 columnView).set 1
    ⟨⟨2, .boundary 5, [3]⟩, [.boundary 5], [2], none, none⟩).set 2
    ⟨⟨3, .text, []⟩, [.boundary 5, .positional 13 0], [], none, none⟩).set 3
    ⟨⟨4, .boundary 6, [5]⟩, [.boundary 6], [4], none, none⟩).set 4
    ⟨⟨5, .text, []⟩, [.boundary 6, .positional 13 0], [], none, none⟩
  views := (((((∅ : FiniteMap ℕ ℕ).set 1 0).set 2 1).set 3 2).set 4 3).set 5 4
  recyclable := ∅
  focusHandles := ∅
  editors := ∅
  nextEntity := 5
  nextHandle := 0

def replacingItem (old instanceId : ℕ) : Native ℕ where
  window := drawnColumn
  identities := ((∅ : FiniteMap ℕ ElementIdentity).set 6 [.boundary instanceId]).set 7
    [.boundary instanceId, .positional 13 0]
  doomed := [old, old + 1]
  built := [6, 7]

theorem column_views {id e : ℕ} (h : drawnColumn.views.get id = some e) :
    id ∈ [1, 2, 3, 4, 5] ∧ e + 1 = id := by
  simp only [drawnColumn, FiniteMap.get_set, FiniteMap.get_empty] at h
  split_ifs at h with h₅ h₄ h₃ h₂ h₁ <;> simp only [Option.some.injEq] at h <;> subst h <;>
    simp [*]

theorem column_fits {old instanceId : ℕ} {a : GraphApply ℕ} {g' : MountedGraph ℕ} {patch : Patch ℕ}
    (hx : exchanged patch = some (old, 6))
    (below : (forest (afterPatch .empty twoItemColumn)).Child old (old + 1))
    (below' : (forest g').Child 6 7) :
    (replacingItem old instanceId).Fits (afterPatch .empty twoItemColumn) g' a patch where
  held id e h := by
    obtain ⟨hid, he⟩ := column_views h
    have small : id ≤ 5 := by simp at hid; omega
    exact show e < 5 by omega
  apart id id' e h h' := by
    have := (column_views h).2
    have := (column_views h').2
    omega
  ordinary id entry view hentry hnone hview := by
    obtain ⟨e, he, -⟩ := Option.bind_eq_some_iff.mp hview
    have copies : ([1, 2, 3, 4, 5].all fun id =>
        ((afterPatch .empty twoItemColumn).nodes.get id).all fun entry => entry.keyedChildren.isSome ||
          (drawnColumn.view id).all fun view => view.keyedChildren.isNone &&
            view.node.children.length == entry.node.children.length) = true := by decide +kernel
    have copy := List.all_eq_true.mp copies id (column_views he).1
    rw [hentry, show drawnColumn.view id = some view from hview] at copy
    simpa [hnone] using copy
  offered x hmem id hid := by
    obtain rfl := Option.some.inj (hx.symm.trans hmem)
    rcases List.mem_cons.mp hid with rfl | hid
    · exact .refl
    · obtain rfl := List.mem_singleton.mp hid
      exact .single below
  made x hmem id hid := by
    obtain rfl := Option.some.inj (hx.symm.trans hmem)
    rcases List.mem_cons.mp hid with rfl | hid
    · exact .refl
    · obtain rfl := List.mem_singleton.mp hid
      exact .single below'
  once := show [6, 7].Nodup by decide
  drawn p i _ _ x hmem := by
    obtain rfl := Option.some.inj (hx.symm.trans hmem)
    exact List.mem_cons_self

theorem column_children : (afterPatch .empty twoItemColumn).childrenOf 1 =
    (.ok [2, 4] : Except (Failure Empty) _) := by
  have children : ((afterPatch .empty twoItemColumn).childrenOf 1 :
    Except (Failure Empty) _).toOption = some [2, 4] := by decide +kernel
  cases hchildren : ((afterPatch .empty twoItemColumn).childrenOf 1 : Except (Failure Empty) _) with
  | error e =>
    rw [hchildren] at children
    cases children
  | ok found =>
    rw [hchildren] at children
    exact congrArg Except.ok (Option.some.inj children)

theorem column_view : drawnColumn.view 1 = some columnView := by
  simp [Window.view, drawnColumn, columnView, FiniteMap.get_set]

theorem column_shows : Shows drawnColumn (afterPatch .empty twoItemColumn) 1 := by
  refine ⟨_, [1, 3], _, column_view, ?_, column_children, ?_⟩
  · exact show shownViews itemViews = .ok [1, 3] by decide +kernel
  · simp [drawnColumn, FiniteMap.get_set]

end Columns

end PatchReports
