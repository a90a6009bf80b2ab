import RocGui.VirtualFrames

/-! What an accepted patch does to the cached rows. -/
namespace VirtualPatches

open FiniteMaps Methods MethodOutcomes KeyedOrder GraphState GraphPatches FragmentTrees GraphForests
open GraphMounting GraphGrafts GraphReplacements GraphIdentities IdentityPaths IdentityRuns Retirements
open FocusLandings PointerTrees Popovers VirtualRows VirtualSpans VirtualCaches VirtualWalks VirtualFrames

variable {K : Type} [DecidableEq K] {g v : MountedGraph K} {c t u : Cache}

/-- The invariant of the rows while the views of the nodes in `gone` are still there. The views in
`stale` may be out of date. -/
structure Nearly (g : MountedGraph K) (stale : Set ℕ) (gone : List ℕ) (c : Cache) : Prop where
  tables : Tables c
  whole : ∀ x, x ∉ stale → Whole g c x
  rows : ∀ l r n, c.views.get (l, r) = some n → Seated g c l r (span g r) ∧ (r ∉ stale → n = span g r)
  mounted : ∀ x, (c.entities.get x).isSome → x ∈ gone ∨ (forest g).Mounted x
  tops : ∀ x, (c.entities.get x).isSome → x ∈ gone ∨ Topped g c x

theorem seated_congr {l r n : ℕ} (seat : Seated g c l r n)
    (entities : ∀ x, (c.entities.get x).isSome → (t.entities.get x).isSome)
    (preserved : r ∈ t.preserved → r ∈ c.preserved) : Seated g t l r n :=
  ⟨seat.list, seat.child, entities r seat.built, seat.count, fun hp => seat.free (preserved hp),
    seat.shown.imp_left (entities l)⟩

section Dropping

variable {gone : List ℕ}

theorem drop_kept (h : Shape g) (k : Nearly g {x | x ∈ gone} gone c)
    (out : ∀ x ∈ gone, ¬(forest g).Mounted x) :
    Yields (dropViews gone) c fun _ t => Kept g ∅ t ∧ t.views = c.views := by
  have entity (x : ℕ) : (c.entities.retain fun id _ => id ∉ gone).get x =
      if x ∈ gone then none else c.entities.get x := by
    rw [FiniteMap.retain, FiniteMap.get_edit]
    by_cases hx : x ∈ gone
    · cases c.entities.get x <;> simp [hx]
    · cases c.entities.get x <;> simp [hx]
  have stays {x : ℕ} (hx : (c.entities.get x).isSome) (hm : (forest g).Mounted x) :
      ((c.entities.retain fun id _ => id ∉ gone).get x).isSome := by
    rwa [entity, if_neg fun hgone => out x hgone hm]
  have here {x : ℕ} (hx : ((c.entities.retain fun id _ => id ∉ gone).get x).isSome) :
      x ∉ gone ∧ (c.entities.get x).isSome := by
    rw [entity] at hx
    split at hx
    · cases hx
    · exact ⟨‹_›, hx⟩
  have kid_mounted {x k : ℕ} (hcut : Cut g x k) : (forest g).Mounted k := by
    obtain ⟨l, hl⟩ := cut_child hcut
    exact (h.linked.placed hl).1
  have parent_mounted {x k : ℕ} (hcut : Cut g x k) : (forest g).Mounted x := by
    obtain ⟨l, hl⟩ := cut_child hcut
    exact mounted_of_kid hl
  refine yields_modify ⟨⟨tables_congr k.tables rfl rfl rfl, fun x n hn => ?_, fun l r n hv => ?_,
    fun x hx => ?_, fun x hx => .inr ?_⟩, rfl⟩
  · obtain ⟨hout, -⟩ := here (Option.isSome_of_eq_some hn)
    dsimp only at hn
    rw [entity, if_neg hout] at hn
    obtain ⟨hcount, hshown, hkids⟩ := k.whole x hout n hn
    refine ⟨hcount, hshown, fun y hy => ⟨stays (hkids y hy).1 (kid_mounted hy), fun hp => ?_⟩⟩
    exact (hkids y hy).2 (Finset.mem_filter.mp hp).1
  · obtain ⟨seat, hcount⟩ := k.rows l r n hv
    obtain ⟨place, hkid⟩ := seat.child
    have hm := (h.linked.placed hkid).1
    rw [hcount fun hgone => out r hgone hm]
    exact ⟨seat.list, seat.child, stays seat.built hm, rfl, fun hp => seat.free (Finset.mem_filter.mp hp).1,
      seat.shown.imp_left fun hl => stays hl (mounted_of_kid hkid)⟩
  · obtain ⟨hout, hc⟩ := here hx
    exact (k.mounted x hc).resolve_left hout
  · obtain ⟨hout, hc⟩ := here hx
    rcases (k.tops x hc).resolve_left hout with hp | hv | ⟨q, hcut, hq⟩
    · exact .inl (Finset.mem_filter.mpr ⟨hp, hout⟩)
    · exact .inr (.inl hv)
    · exact .inr (.inr ⟨q, hcut, stays hq (parent_mounted hcut)⟩)

end Dropping

section Edits

variable {removed : List ℕ} {nodes : List (Node K)} {frontier : Finset ℕ}
  {tops : List (ℕ × Option (ParentLocation K))} {site root : Option ℕ}
  (e : Grafted g v removed nodes frontier tops site root) (h : Shape g)

/-- The nodes whose count is out of date after an edit. -/
def outdated (g : MountedGraph K) (removed : List ℕ) (site : Option ℕ) : Set ℕ :=
  {x | x ∈ removed ∨ ∃ p ∈ site, Spans g x p}

include e h

theorem gone_unmounted (was : ∀ x ∈ removed, (forest g).Mounted x) :
    ∀ x ∈ removed, ¬(forest v).Mounted x := by
  intro x hx hm
  rcases (e.mounted h x).mp hm with ⟨-, hr⟩ | hid
  · exact hr hx
  · exact fresh_not_mounted e h hid (was x hx)

theorem cut_stays {q x : ℕ} (hq : q ∉ removed) (hx : x ∉ removed) (hcut : Cut g q x) : Cut v q x := by
  obtain ⟨hlist, l, hl⟩ := cut_iff.mp hcut
  exact cut_iff.mpr ⟨(list_kept e h (mounted_of_kid hl) hq).trans hlist, child_kept e h hq hx ⟨l, hl⟩⟩

/-- The invariant after an edit of the graph, once the rows that go have left their lists. -/
theorem edit_nearly (k : Kept g ∅ c) (moved : ∀ x ∈ frontier, UnderList v x → UnderList g x) (tb : Tables t)
    (entities : t.entities = c.entities) (shown : t.shown = c.shown)
    (preserved : ∀ x, x ∈ t.preserved ↔ x ∈ c.preserved ∨ x ∈ frontier ∧ (c.entities.get x).isSome)
    (views : ∀ l r n, t.views.get (l, r) = some n →
      c.views.get (l, r) = some n ∧ l ∉ removed ∧ r ∉ removed)
    (rest : ∀ l r, (c.views.get (l, r)).isSome → r ∉ removed → (t.views.get (l, r)).isSome) :
    Nearly v (outdated g removed site) removed t := by
  have kid_free {x y : ℕ} (hx : x ∉ removed) (hchild : (forest g).Child x y) (hp : y ∉ c.preserved) :
      y ∉ t.preserved := by
    rw [preserved]
    rintro (hp' | ⟨hf, -⟩)
    · exact hp hp'
    · obtain ⟨-, -, l, hl, hgone⟩ := e.graft.kept y hf
      obtain ⟨l', hl'⟩ := hchild
      obtain rfl := Option.some.inj (hl.symm.trans (h.linked.placed hl').2)
      exact hx (h.linked.owned hl' ▸ hgone)
  refine ⟨tb, fun x hx n hn => ?_, fun l r n hv => ?_, fun x hx => ?_, fun x hx => ?_⟩
  · rw [entities] at hn
    have hr : x ∉ removed := fun hgone => hx (.inl hgone)
    have away : ∀ p ∈ site, ¬Spans g x p := fun p hp hspans => hx (.inr ⟨p, hp, hspans⟩)
    have hm := k.mounted x (Option.isSome_of_eq_some hn)
    have hne : site ≠ some x := fun hs => away x hs .refl
    obtain ⟨hcount, hshown, hkids⟩ := k.whole x n hn
    rw [span_kept e h hm hr away, cut_kept e h hm hr hne, entities, shown]
    exact ⟨hcount, hshown, fun y hy => ⟨(hkids y hy).1, kid_free hr (cut_child hy) (hkids y hy).2⟩⟩
  · obtain ⟨hc, hl, hr⟩ := views l r n hv
    have seat := k.rows l r n hc
    obtain ⟨place, hkid⟩ := seat.child
    have hm := (h.linked.placed hkid).1
    refine ⟨⟨(list_kept e h (mounted_of_kid hkid) hl).trans seat.list, child_kept e h hl hr seat.child, ?_,
      rfl, kid_free hl seat.child seat.free, ?_⟩, fun hx => ?_⟩
    · rw [entities]
      exact seat.built
    · rw [entities]
      exact seat.shown.imp_right fun hu hu' => hu (under_kept e h moved (mounted_of_kid hkid) hl hu')
    · rw [span_kept e h hm hr fun p hp hspans => hx (.inr ⟨p, hp, hspans⟩)]
      exact seat.count
  · rw [entities] at hx
    refine or_iff_not_imp_left.mpr fun hr => ?_
    exact (e.mounted h x).mpr (.inl ⟨k.mounted x hx, hr⟩)
  · rw [entities] at hx
    refine or_iff_not_imp_left.mpr fun hr => ?_
    rcases (k.tops x hx).resolve_left (Set.notMem_empty x) with hp | ⟨l, hv⟩ | ⟨q, hcut, hq⟩
    · exact .inl ((preserved x).mpr (.inl hp))
    · exact .inr (.inl ⟨l, rest l x hv hr⟩)
    · by_cases hgone : q ∈ removed
      · obtain ⟨l, hl⟩ := cut_child hcut
        obtain ⟨hm, hparent⟩ := h.linked.placed hl
        refine .inl ((preserved x).mpr (.inr ⟨e.graft.all_kept hm hr hparent ?_, hx⟩))
        rwa [h.linked.owned hl]
      · exact .inr (.inr ⟨q, cut_stays e h hgone hr hcut, by rw [entities]; exact hq⟩)

theorem items_kept (items : Items g c) (k : Kept g ∅ c) (was : ∀ x ∈ removed, (forest g).Mounted x)
    (kt : Kept v ∅ t) (views : ∀ l r, (t.views.get (l, r)).isSome → (c.views.get (l, r)).isSome) :
    Items v t := by
  intro l r hv
  have hc := views l r hv
  obtain ⟨n, hn⟩ := Option.isSome_iff_exists.mp hc
  obtain ⟨m, hm⟩ := Option.isSome_iff_exists.mp hv
  obtain ⟨place, hkid⟩ := (kt.rows l r m hm).child
  have hr : r ∉ removed := fun hgone =>
    gone_unmounted e h was r hgone ((e.shape h).linked.placed hkid).1
  obtain ⟨place', hkid'⟩ := (k.rows l r n hn).child
  rw [item_kept e h (h.linked.placed hkid').1 hr]
  exact items l r hc

end Edits

section Keyed

variable {removed : List ℕ} {nodes : List (Node K)} {frontier : Finset ℕ}
  {tops : List (ℕ × Option (ParentLocation K))} {site root : Option ℕ} {x y : ℕ}

theorem built_spans (k : Kept g ∅ c) (hx : (c.entities.get x).isSome) (hxy : Spans g x y) :
    (c.entities.get y).isSome := by
  induction hxy with
  | refl => exact hx
  | tail _ hcut ih =>
    obtain ⟨n, hn⟩ := Option.isSome_iff_exists.mp ih
    exact ((k.whole _ n hn).2.2 _ hcut).1

theorem nearly_current (k : Kept g ∅ c) (entities : t.entities = c.entities)
    (bare : ∀ p ∈ site, c.entities.get p = none) (near : Nearly v (outdated g removed site) removed t) :
    Nearly v {x | x ∈ removed} removed t := by
  have current {x : ℕ} (hr : x ∉ removed) (hx : (t.entities.get x).isSome) : x ∉ outdated g removed site := by
    rintro (hgone | ⟨p, hp, hspans⟩)
    · exact hr hgone
    · have := built_spans k (entities ▸ hx) hspans
      rw [bare p hp] at this
      cases this
  refine ⟨near.tables, fun x hr n hn => ?_, fun l r n hv => ?_, near.mounted, near.tops⟩
  · exact near.whole x (current hr (Option.isSome_of_eq_some hn)) n hn
  · obtain ⟨seat, hcount⟩ := near.rows l r n hv
    exact ⟨seat, fun hr => hcount (current hr seat.built)⟩

theorem keyed_retired {hashOrder : Enumeration K (Option (KeyedChild K))}
    {container baseRevision newRevision : ℕ} {operations : List (KeyedGraphOperation K)}
    {a : GraphApply K} (h : Shape g)
    (hrun : (apply hashOrder (.keyed container baseRevision newRevision operations)).run g = .ok a v) :
    a.facts.kind = "keyed" ∧ a.root = some container ∧
      (∃ nodes tops, Grafted g v a.removedIds nodes ∅ tops (some container) g.root) ∧
      ∀ x ∈ a.removedIds, (forest g).Mounted x := by
  simp only [apply, bind_ok, get_ok, pure_ok] at hrun
  obtain ⟨keyed, _, hkeyed, _, _, ⟨rfl, rfl⟩, rfl, rfl⟩ := hrun
  obtain ⟨entry, owner, prepared, j, hentry, -, -, hprepare, hcommit⟩ :=
    KeyedTransactions.apply_keyed_ok hkeyed
  obtain ⟨l₀, l, p, e⟩ := KeyedTransactions.commit_grafted h hentry hprepare hcommit
  simp only [commitKeyed, bind_ok, query_run_ok, pure_ok] at hcommit
  obtain ⟨oldSize, _, ⟨-, rfl⟩, carried, g0, -, ended, g1, -, _, g2, -, rfl, rfl⟩ := hcommit
  refine ⟨rfl, rfl, ⟨_, _, e⟩, fun x hx => ?_⟩
  obtain ⟨roots, -, mem, walked⟩ := p.walked
  obtain ⟨r, hr, hbelow⟩ := walked.from_pending (.inl hx)
  obtain ⟨k, ⟨i, hget⟩, -⟩ := (mem r).mp hr
  exact mounted_below h (mounted_iff.mpr (mounted_of_parent (p.listed hget))) hbelow

/-- A keyed patch that retires no cached row, and no list with cached rows. -/
theorem keyed_kept {a : GraphApply K} {container : ℕ} (h : Shape g) (k : Kept g ∅ c) (items : Items g c)
    (e : Grafted g v a.removedIds nodes ∅ tops (some container) root) (hroot : a.root = some container)
    (was : ∀ x ∈ a.removedIds, (forest g).Mounted x)
    (clear : ∀ x ∈ a.removedIds, c.rowOwners.get x = none ∧ rowsOf c x = ∅) :
    Yields (applyKeyedToGpui a) c fun _ t => Kept v ∅ t ∧ Items v t := by
  refine yields_expect_bind fun id hid => yields_get_bind (yields_guard fun hbare => ?_)
  obtain rfl := Option.some.inj (hroot.symm.trans hid)
  have near := edit_nearly e h k (t := c) (fun x hx => absurd hx (Finset.notMem_empty x)) k.tables rfl rfl
    (by simp) (fun l r n hv => ⟨hv, fun hl => ?_, fun hr => ?_⟩) fun l r hv _ => hv
  · refine yields_mono (drop_kept (e.shape h) (nearly_current k rfl (fun p hp => ?_) near)
      (gone_unmounted e h was)) ?_
    · obtain rfl := Option.some.inj hp
      exact Option.not_isSome_iff_eq_none.mp hbare
    · rintro _ t ⟨kt, views⟩
      exact ⟨kt, items_kept e h items k was kt fun l r hv => views ▸ hv⟩
  · have hmem : r ∈ rowsOf c l := (k.tables.listed l r).mpr (Option.isSome_of_eq_some hv)
    rw [(clear l hl).2] at hmem
    exact Finset.notMem_empty r hmem
  · have howner := (k.tables.owned l r).mpr (Option.isSome_of_eq_some hv)
    rw [(clear r hr).1] at howner
    cases howner

end Keyed

section Rows

variable {item : ℕ}

omit [DecidableEq K] in
theorem move_row (tb : Tables t) (hp : parentOf v item = none) : Yields (moveRow v item) t fun _ u =>
    Tables u ∧ Beside t u ∧ ∀ l r, u.views.get (l, r) = if r = item then none else t.views.get (l, r) := by
  refine yields_get_bind (yields_expect_bind fun list hlist => ?_)
  refine yields_bind (uncache_row tb list item) ?_
  rintro a u ⟨rfl, tb', beside, views⟩
  refine yields_expect_bind fun n hn => ?_
  rw [hp, Option.map_none, Option.filter_none]
  refine yields_pure ⟨tb', beside, fun l r => ?_⟩
  rw [views, FiniteMap.get_remove]
  by_cases hr : r = item
  · subst hr
    by_cases hl : l = list
    · simp [hl]
    · have hnone : t.views.get (l, r) = none := by
        rw [← Option.not_isSome_iff_eq_none]
        exact fun hv => hl (row_once tb hv ((tb.owned list r).mp hlist))
      simp [hl, hnone]
  · simp [hr]

omit [DecidableEq K] in
theorem move_rows {is : List ℕ} (tb : Tables t) (out : ∀ i ∈ is, parentOf v i = none) :
    Yields (is.forM (moveRow v)) t fun _ u => Tables u ∧ Beside t u ∧
      ∀ l r, u.views.get (l, r) = if r ∈ is then none else t.views.get (l, r) := by
  induction is generalizing t with
  | nil => exact yields_pure ⟨tb, beside_refl t, by simp⟩
  | cons i is ih =>
    rw [List.forM]
    refine yields_bind (move_row tb (out i List.mem_cons_self)) ?_
    rintro _ u ⟨tb', beside, views⟩
    refine yields_mono (ih tb' fun j hj => out j (List.mem_cons_of_mem i hj)) ?_
    rintro _ w ⟨tb'', beside', views'⟩
    refine ⟨tb'', beside_trans beside beside', fun l r => ?_⟩
    rw [views', views]
    by_cases hr : r = i <;> by_cases hmem : r ∈ is <;> simp [hr, hmem]

end Rows

section Replacing

variable {r : Replacement K} {plan : ReplacementPlan K} {a : GraphApply K} {old p position : ℕ}
  {before after : List (ℕ × ParentLocation K)}

/-- A node that is built above the place where a subtree is replaced has it below by ordinary
places. -/
def Placed (g : MountedGraph K) (c : Cache) (old : ℕ) : Prop :=
  ∀ x y, (c.entities.get x).isSome → Spans g x y → x ≠ y → Spans g y old → (parentOf g y).isSome

variable (h : Shape g) (pl : Planned r g plan)
  (e : Grafted g v plan.removedIds r.nodes plan.frontier [(r.root, plan.parentLocation)]
    (siteOf plan) (rootAfter r plan g))
  (hl : plan.parentLocation = some (.ordinaryIndex p position))
  (around : Hung g v plan.removedIds old r.root (.ordinaryIndex p position) before after)

include h pl e hl around

theorem root_apart {y : ℕ} (hy : Spans v r.root y) : y ∉ outdated g plan.removedIds (siteOf plan) := by
  have hsite : siteOf plan = some p := by rw [siteOf, hl]; rfl
  have h' := e.shape h
  have hroot : (forest v).Child p r.root := ⟨.ordinaryIndex p position, by
    have hnow : (forest v).kids p = _ := around.now
    rw [hnow]
    simp⟩
  have hm : (forest v).Mounted y := mounted_below h' (h'.linked.placed hroot.choose_spec).1 (spans_below hy)
  rintro (hgone | ⟨q, hq, hspans⟩)
  · refine gone_unmounted e h (fun x hx => ?_) y hgone hm
    obtain ⟨old, hold, hbelow⟩ := under_old pl (.inl hx)
    exact mounted_below h (pl.target old hold) hbelow
  · obtain rfl := Option.some.inj (hsite.symm.trans hq)
    exact no_way_back h' hroot ((spans_below hy).trans (same_above h pl e hsite (spans_below hspans)))

omit h pl e hl in
theorem old_cut (hlist : isList g p = false) : Cut g p old := by
  refine cut_iff.mpr ⟨hlist, .ordinaryIndex p position, ?_⟩
  have hwas : (forest g).kids p = _ := around.was
  rw [hwas]
  simp

/-- The walk meets every view whose count is out of date. -/
theorem all_met {met : Finset ℕ} {m n : ℕ} {x : ℕ} (hlist : isList g p = false) (placed : Placed g c old)
    (z : Resized v m n p met t u) : (x ∈ met → Spans g x p) ∧
      ((c.entities.get x).isSome → Spans g x p → x ∈ met) := by
  have hsite : siteOf plan = some p := by rw [siteOf, hl]; rfl
  constructor
  · exact fun hx => (spans_above h pl e hsite .refl).mp (z.way x hx).2
  · intro hx hspans
    have hlist' : isList v p = false := (list_above h pl e hsite .refl).trans hlist
    refine z.complete x hlist' ((spans_above h pl e hsite .refl).mpr hspans) fun y hxy hne hyp => ?_
    have hyp := (spans_above h pl e hsite .refl).mp hyp
    have hbelow := spans_below hyp
    have hxy := (spans_above h pl e hsite hbelow).mp hxy
    obtain ⟨hr, hf⟩ := above_site h pl hsite hbelow
    have hplace := placed x y hx hxy hne (hyp.tail (old_cut around hlist))
    have hm := below_mounted hbelow (site_mounted e hsite)
    unfold parentOf at hplace ⊢
    rwa [e.parent_kept h hm hr hf]

theorem rebuild_nearly (k : Kept g ∅ c) (placed : Placed g c old) (hp : (c.entities.get p).isSome)
    (hlist : isList g p = false) (entities : t.entities = c.entities) (shown : t.shown = c.shown)
    (preserved : ∀ x, x ∈ t.preserved → x ∈ c.preserved ∨ x ∈ plan.frontier)
    (views : ∀ l r n, t.views.get (l, r) = some n → c.views.get (l, r) = some n)
    (near : Nearly v (outdated g plan.removedIds (siteOf plan)) plan.removedIds t) :
    Yields (rebuildIn v r.root p position (span g old)) t fun _ u =>
      Nearly v {x | x ∈ plan.removedIds} plan.removedIds u ∧
        ∀ l r, (u.views.get (l, r)).isSome → (t.views.get (l, r)).isSome := by
  have hsite : siteOf plan = some p := by rw [siteOf, hl]; rfl
  have h' := e.shape h
  have hr_p : p ∉ plan.removedIds := (above_site h pl hsite .refl).1
  have hwas : (forest g).kids p = before ++ (old, .ordinaryIndex p position) :: after := around.was
  have hnow : (forest v).kids p = before ++ (r.root, .ordinaryIndex p position) :: after := around.now
  have hroot : (forest v).Child p r.root := ⟨.ordinaryIndex p position, by rw [hnow]; simp⟩
  have hm_root : (forest v).Mounted r.root := (h'.linked.placed hroot.choose_spec).1
  have hm_p : (forest v).Mounted p := mounted_of_kid hroot.choose_spec
  have hlist' : isList v p = false := (list_above h pl e hsite .refl).trans hlist
  have hold := old_cut around hlist
  have stale {x : ℕ} (hx : Spans g x p) : x ∈ outdated g plan.removedIds (siteOf plan) :=
    .inr ⟨p, hsite, hx⟩
  refine yields_bind (build_virtual h' hm_root (fun y hy => root_apart h pl e hl around hy) near.whole) ?_
  rintro _ w ⟨rfl, b⟩
  -- the building leaves the counts above the site alone
  have above {x : ℕ} (hx : Spans g x p) : w.entities.get x = c.entities.get x ∧ w.shown.get x = c.shown.get x := by
    rw [← entities, ← shown]
    refine b.away x fun id hid hspans => ?_
    obtain rfl := List.mem_singleton.mp hid
    exact root_apart h pl e hl around hspans (stale hx)
  have spans_v {x : ℕ} : Spans v x p ↔ Spans g x p := spans_above h pl e hsite .refl
  have bound {x n : ℕ} (hx : Spans g x p) (hn : n = span g x) : span g old ≤ n :=
    hn ▸ span_mono h (hx.tail hold)
  refine yields_bind (resize_ancestors h' (tables_congr near.tables b.views b.owners b.lists) hm_p
    (by rw [MountedGraph.climb]; omega) (fun x n _ hx hn => ?_) fun l x n _ hx hn => ?_) ?_
  · have hx := spans_v.mp hx
    rw [(above hx).1] at hn
    exact bound hx (k.whole x n hn).1
  · rw [b.views] at hn
    exact bound (spans_v.mp hx) (k.rows l x n (views l x n hn)).count
  rintro _ u ⟨met, z⟩
  have met_iff {x : ℕ} := @all_met K _ g v c w u r plan old p position before after h pl e hl around met
    (span g old) (span v r.root) x hlist placed z
  have grown {x : ℕ} (hx : (w.entities.get x).isSome) : (u.entities.get x).isSome := by
    rw [z.entities]
    split
    · rwa [Option.isSome_map]
    · exact hx
  have shrunk {x : ℕ} (hx : (u.entities.get x).isSome) : (w.entities.get x).isSome := by
    rw [z.entities] at hx
    split at hx
    · rwa [Option.isSome_map] at hx
    · exact hx
  have cached {l r : ℕ} : (u.views.get (l, r)).isSome ↔ (t.views.get (l, r)).isSome := by
    rw [z.views, b.views]
    split
    · rw [Option.isSome_map]
    · rfl
  have resized {x : ℕ} (hx : Spans g x p) : span g x - span g old + span v r.root = span v x := by
    have hle := bound hx rfl
    have := span_resized h pl e hl around hlist hx
    omega
  have kid_free {x y : ℕ} (hr : x ∉ plan.removedIds) (hchild : (forest g).Child x y)
      (hp : y ∉ c.preserved) : y ∉ u.preserved := by
    rw [z.preserved]
    intro hw
    rcases preserved y (b.shrinks hw) with hc | hf
    · exact hp hc
    · obtain ⟨-, -, l, hl, hgone⟩ := e.graft.kept y hf
      obtain ⟨l', hl'⟩ := hchild
      obtain rfl := Option.some.inj (hl.symm.trans (h.linked.placed hl').2)
      exact hr (h.linked.owned hl' ▸ hgone)
  have old_kids {x y : ℕ} (hx : (c.entities.get x).isSome) (hr : x ∉ plan.removedIds) (hy : Cut g x y) :
      (u.entities.get y).isSome ∧ y ∉ u.preserved := by
    obtain ⟨n, hn⟩ := Option.isSome_iff_exists.mp hx
    obtain ⟨hbuilt, hfree⟩ := (k.whole x n hn).2.2 y hy
    exact ⟨grown (b.grows y (entities ▸ hbuilt)), kid_free hr (cut_child hy) hfree⟩
  obtain ⟨hroot_built, hroot_free⟩ := b.built r.root (by simp)
  have hset : ((u.shown.get p).getD []).set position r.root = cutKids v p := by
    obtain ⟨n, hn⟩ := Option.isSome_iff_exists.mp hp
    rw [z.shown, (above .refl).2, (k.whole p n hn).2.1, Option.getD_some, cutKids, hlist, cutKids, hlist',
      hwas, hnow, around.index p position rfl]
    simp only [Bool.false_eq_true, if_false, List.map_append, List.map_cons]
    rw [List.set_append_right _ _ (by simp)]
    simp
  refine yields_modify ⟨⟨tables_congr z.tables rfl rfl rfl, fun x hr n hn => ?_, fun l i n hv => ?_,
    fun x hx => ?_, fun x hx => ?_⟩, fun l i hv => cached.mp hv⟩
  · dsimp only at hn
    by_cases hx : Spans g x p
    · have hw := shrunk (Option.isSome_of_eq_some hn)
      rw [(above hx).1] at hw
      obtain ⟨m, hm⟩ := Option.isSome_iff_exists.mp hw
      obtain ⟨hcount, hshown, -⟩ := k.whole x m hm
      rw [z.entities, if_pos (met_iff.2 hw hx), (above hx).1, hm, Option.map_some, Option.some.injEq] at hn
      refine ⟨by rw [← hn, hcount, resized hx], ?_⟩
      by_cases heq : x = p
      · subst heq
        refine ⟨by rw [FiniteMap.get_set_self, hset], fun y hy => ?_⟩
        by_cases hy_root : y = r.root
        · subst hy_root
          exact ⟨grown hroot_built, by rw [z.preserved]; exact hroot_free⟩
        · refine old_kids hw hr (cut_iff.mpr ⟨hlist, ?_⟩)
          obtain ⟨l, hkid⟩ := cut_child (show Cut v x y from hy)
          rw [hnow] at hkid
          refine ⟨l, ?_⟩
          rw [hwas]
          simp only [List.mem_append, List.mem_cons, Prod.mk.injEq] at hkid ⊢
          tauto
      · have hne : siteOf plan ≠ some x := fun hs => heq (Option.some.inj (hs.symm.trans hsite))
        rw [cut_kept e h (k.mounted x hw) hr hne]
        refine ⟨by rw [FiniteMap.get_set_ne _ _ heq, z.shown, (above hx).2, hshown], fun y hy => ?_⟩
        exact old_kids hw hr hy
    · have hout : x ∉ outdated g plan.removedIds (siteOf plan) := by
        rintro (hgone | ⟨q, hq, hspans⟩)
        · exact hr hgone
        · obtain rfl := Option.some.inj (hsite.symm.trans hq)
          exact hx hspans
      rw [z.entities, if_neg fun hmet => hx (met_iff.1 hmet)] at hn
      obtain ⟨hcount, hshown, hkids⟩ := b.whole x hout n hn
      have hne : x ≠ p := fun heq => hx (heq ▸ .refl)
      exact ⟨hcount, by rw [FiniteMap.get_set_ne _ _ hne, z.shown, hshown], fun y hy =>
        ⟨grown (hkids y hy).1, by rw [z.preserved]; exact (hkids y hy).2⟩⟩
  · have ht := cached.mp (Option.isSome_of_eq_some hv)
    obtain ⟨m, hm⟩ := Option.isSome_iff_exists.mp ht
    obtain ⟨seat, hcount⟩ := near.rows l i m hm
    refine ⟨seated_congr seat (fun x hx => grown (b.grows x hx)) fun hpres => ?_, fun hr => ?_⟩
    · change i ∈ u.preserved at hpres
      rw [z.preserved] at hpres
      exact b.shrinks hpres
    · change u.views.get (l, i) = some n at hv
      by_cases hx : Spans g i p
      · have hc := k.rows l i m (views l i m hm)
        rw [z.views, if_pos (met_iff.2 hc.built hx), b.views, hm, Option.map_some, Option.some.injEq] at hv
        rw [← hv, hc.count, resized hx]
      · rw [z.views, if_neg fun hmet => hx (met_iff.1 hmet), b.views, hm, Option.some.injEq] at hv
        rw [← hv]
        refine hcount ?_
        rintro (hgone | ⟨q, hq, hspans⟩)
        · exact hr hgone
        · obtain rfl := Option.some.inj (hsite.symm.trans hq)
          exact hx hspans
  · exact (b.mounted x (shrunk hx)).elim (near.mounted x) .inr
  · refine or_iff_not_imp_left.mpr fun hr => ?_
    rcases b.tops x (shrunk hx) with ⟨hold, hstays⟩ | hid | ⟨q, hcut, hq⟩
    · rcases (near.tops x hold).resolve_left hr with hpres | ⟨l, hv⟩ | ⟨q, hcut, hq⟩
      · refine .inl ?_
        change x ∈ u.preserved
        rw [z.preserved]
        exact hstays.resolve_right (not_not.mpr hpres)
      · exact .inr (.inl ⟨l, cached.mpr hv⟩)
      · exact .inr (.inr ⟨q, hcut, grown (b.grows q hq)⟩)
    · obtain rfl := List.mem_singleton.mp hid
      refine .inr (.inr ⟨p, cut_iff.mpr ⟨hlist', hroot⟩, grown ?_⟩)
      rw [(above .refl).1]
      exact hp
    · exact .inr (.inr ⟨q, hcut, grown hq⟩)

end Replacing

section Applying

variable {r : Replacement K} {plan : ReplacementPlan K} {a : GraphApply K} {old o p position : ℕ}

omit [DecidableEq K] in
theorem frontier_listed {frontier frontier' : Finset ℕ} {count count' : ℕ} {retained : List ℕ}
    {old : Option ℕ} (hrun : checkRetained g old frontier count retained = .ok (frontier', count')) :
    ∀ x ∈ frontier', x ∈ frontier ∨ x ∈ retained := by
  induction retained generalizing frontier count with
  | nil =>
    obtain ⟨rfl, -⟩ := Prod.mk.inj (Except.ok.inj hrun)
    exact fun x hx => .inl hx
  | cons id rest ih =>
    rw [checkRetained] at hrun
    split at hrun
    · cases hrun
    split at hrun
    · cases hrun
    split at hrun
    · split at hrun
      · cases hrun
      · intro x hx
        rcases ih hrun x hx with hx | hx
        · exact (Finset.mem_insert.mp hx).elim (fun heq => .inr (by simp [heq])) .inl
        · exact .inr (List.mem_cons_of_mem _ hx)
    · cases hrun

theorem frontier_retained (hplan : planReplacement r g = .ok plan)
    (hrun : (applyReplacement r).run g = .ok a v) : ∀ x ∈ plan.frontier, x ∈ a.retainedRoots := by
  simp only [applyReplacement, commitReplacement, bind_ok, get_ok, query_run_ok, pure_ok] at hrun
  obtain ⟨_, _, ⟨rfl, rfl⟩, plan', _, ⟨hplan', rfl⟩, _, _, ⟨rfl, rfl⟩, carried, g0, -, ended, g1, -,
    _, g2, -, _, _, ⟨rfl, rfl⟩, rfl, rfl⟩ := hrun
  simp only [planReplacement, reject_guard_ok, except_bind_ok, not_not] at hplan
  obtain ⟨_, -, ⟨frontier, retainedNodes⟩, hretained, ⟨removedIds, found⟩, -, -, owner, -,
    validated, -, _, -, outer, -, node, -, segment, -, _, -, heq⟩ := hplan
  cases heq
  exact fun x hx => (frontier_listed hretained x hx).resolve_left (Finset.notMem_empty x)

variable (h : Shape g) (pl : Planned r g plan)
  (e : Grafted g v plan.removedIds r.nodes plan.frontier [(r.root, plan.parentLocation)]
    (siteOf plan) (rootAfter r plan g))

include h pl in
theorem retired_mounted : ∀ x ∈ plan.removedIds, (forest g).Mounted x := by
  intro x hx
  obtain ⟨old, hold, hbelow⟩ := under_old pl (.inl hx)
  exact mounted_below h (pl.target old hold) hbelow

include h e in
theorem affected_removed (k : Kept g ∅ c) (items : Items g c)
    (hplan : planReplacement r g = .ok plan) : ∀ x ∈ affectedRows plan.removedIds c, x ∈ plan.removedIds := by
  intro x hx
  rcases Finset.mem_union.mp hx with hx | hx
  · exact List.mem_toFinset.mp (Finset.mem_filter.mp hx).1
  · obtain ⟨l, hl, hrow⟩ := Finset.mem_biUnion.mp hx
    have hv := (k.tables.listed l x).mp hrow
    obtain ⟨n, hn⟩ := Option.isSome_iff_exists.mp hv
    obtain ⟨place, hkid⟩ := (k.rows l x n hn).child
    obtain ⟨hm, hp⟩ := h.linked.placed hkid
    by_contra hr
    have hf := e.graft.all_kept hm hr hp (by rw [h.linked.owned hkid]; exact List.mem_toFinset.mp hl)
    obtain ⟨entry, i, he, hk⟩ := (plan_checks hplan).1 x hf
    have hitem := items l x hv
    simp [isItem, MountedGraph.node, he, hk] at hitem

theorem old_read (place : Option (ℕ × ℕ)) : Yields (oldVirtualEntities place) c fun o t => t = c ∧
    ∀ p position, place = some (p, position) →
      ∃ x, ((c.shown.get p).getD [])[position]? = some x ∧ c.entities.get x = some o := by
  cases place with
  | none => exact yields_pure ⟨rfl, nofun⟩
  | some place =>
    refine yields_get_bind (yields_expect_bind fun x hx => yields_expect fun n hn => ⟨rfl, ?_⟩)
    rintro p position ⟨⟩
    exact ⟨x, hx, hn⟩

include h in
theorem site_found (hplan : planReplacement r g = .ok plan) (hrun : (applyReplacement r).run g = .ok a v)
    (told : Told g r plan a) (k : Kept g ∅ c)
    (placed : ∀ old, r.oldRoot = some old → Placed g c old)
    (hparent : a.parent = some (p, position)) (hp : (c.entities.get p).isSome) {x : ℕ}
    (hx : ((c.shown.get p).getD [])[position]? = some x) (ho : c.entities.get x = some o) :
    isList g p = false ∧ plan.parentLocation = some (.ordinaryIndex p position) ∧
      ∃ old before after, Placed g c old ∧ o = span g old ∧
        Hung g v plan.removedIds old r.root (.ordinaryIndex p position) before after := by
  obtain ⟨n, hn⟩ := Option.isSome_iff_exists.mp hp
  rw [(k.whole p n hn).2.1, Option.getD_some] at hx
  have hlist : isList g p = false := by
    cases hlist : isList g p with
    | false => rfl
    | true =>
      rw [cutKids, if_pos hlist] at hx
      cases hx
  obtain ⟨location, hl, hattach⟩ := Option.map_eq_some_iff.mp (told.parent.symm.trans hparent)
  have hp_location : location.parent = p := by
    rw [← attachment_parent, hattach]
  obtain ⟨old, before, after, hold, around⟩ := hung h hplan hrun hl
  have hkid : (old, location) ∈ (forest g).kids p := by
    rw [← hp_location, around.was]
    simp
  have hcut : Cut g p old := cut_iff.mpr ⟨hlist, location, hkid⟩
  have hne : p ≠ old := by
    rintro rfl
    exact no_way_back h (cut_child hcut) .refl
  have hplace := placed old hold p old hp (.single hcut) hne .refl
  obtain ⟨⟨p', i⟩, hplace⟩ := Option.isSome_iff_exists.mp hplace
  unfold parentOf at hplace
  split at hplace
  · rename_i parent index hlocation
    obtain rfl := Option.some.inj (hlocation.symm.trans (h.linked.placed hkid).2)
    obtain ⟨rfl, rfl⟩ := Prod.mk.inj hattach
    refine ⟨hlist, hl, old, before, after, placed old hold, ?_, around⟩
    have hwas : (forest g).kids parent = before ++ (old, .ordinaryIndex parent index) :: after := around.was
    have hat : x = old := by
      rw [cutKids, hlist, hwas, around.index parent index rfl] at hx
      simp only [Bool.false_eq_true, if_false, List.map_append, List.map_cons] at hx
      rw [List.getElem?_append_right (by simp)] at hx
      simpa using hx.symm
    exact (k.whole x o ho).1.trans (by rw [hat])
  · cases hplace

theorem replaced_kept (h : Shape g) (own : ∀ x, OwnKey g x) (hrun : (applyReplacement r).run g = .ok a v)
    (k : Kept g ∅ c) (items : Items g c) (placed : ∀ old, r.oldRoot = some old → Placed g c old) :
    Yields (VirtualRows.applyReplaced v a) c fun _ t => Kept v ∅ t ∧ Items v t := by
  obtain ⟨plan, hplan, told⟩ := replacement_told hrun
  obtain ⟨plan', hplan', e⟩ := replacement_grafted h hrun
  obtain rfl := Except.ok.inj (hplan.symm.trans hplan')
  have pl := planned h hplan
  have was := retired_mounted h pl
  have out := gone_unmounted e h was
  refine yields_get_bind (yields_bind (old_read _) ?_)
  rintro o c ⟨rfl, hread⟩
  refine yields_modify_bind (yields_bind (move_rows ?_ fun i hi => ?_) ?_)
  · exact tables_congr k.tables rfl rfl rfl
  · rw [mem_ascending, told.removed] at hi
    have hnone : v.nodes.get i = none := by
      rw [← Option.not_isSome_iff_eq_none, ← mounted_iff]
      exact out i (affected_removed h e k items hplan i hi)
    simp [parentOf, MountedGraph.parentLocation, hnone]
  rintro _ t ⟨tb, beside, views⟩
  simp only [told.removed, mem_ascending] at views
  have preserved (x : ℕ) : x ∈ t.preserved ↔ x ∈ c.preserved ∨ x ∈ plan.frontier ∧ (c.entities.get x).isSome := by
    rw [beside.preserved]
    simp only [Finset.mem_union, Finset.mem_filter, List.mem_toFinset]
    refine or_congr_right (and_congr_left fun _ => ⟨told.retained x, frontier_retained hplan hrun x⟩)
  have hviews (l r n : ℕ) (hv : t.views.get (l, r) = some n) :
      c.views.get (l, r) = some n ∧ l ∉ plan.removedIds ∧ r ∉ plan.removedIds := by
    rw [views] at hv
    split at hv
    · cases hv
    rename_i haffected
    change c.views.get (l, r) = some n at hv
    have hcached := Option.isSome_of_eq_some hv
    refine ⟨hv, fun hgone => haffected ?_, fun hgone => haffected ?_⟩
    · exact Finset.mem_union_right _ (Finset.mem_biUnion.mpr
        ⟨l, List.mem_toFinset.mpr hgone, (k.tables.listed l r).mpr hcached⟩)
    · refine Finset.mem_union_left _ (Finset.mem_filter.mpr ⟨List.mem_toFinset.mpr hgone, ?_⟩)
      exact Option.isSome_of_eq_some ((k.tables.owned l r).mpr hcached)
  have near := edit_nearly e h k (fun x hf hu => retained_under h pl e own hplan hf hu) tb beside.entities
    beside.shown preserved hviews fun l r hv hr => by
      rw [views, if_neg fun hi => hr (affected_removed h e k items hplan r hi)]
      exact hv
  have finish {u : Cache} (near : Nearly v {x | x ∈ plan.removedIds} plan.removedIds u)
      (hu : ∀ l r, (u.views.get (l, r)).isSome → (t.views.get (l, r)).isSome) :
      Yields (dropViews a.removedIds) u fun _ w => Kept v ∅ w ∧ Items v w := by
    rw [told.removed]
    refine yields_mono (drop_kept (e.shape h) near out) ?_
    rintro _ w ⟨kw, hw⟩
    refine ⟨kw, items_kept e h items k was kw fun l r hv => ?_⟩
    obtain ⟨n, hn⟩ := Option.isSome_iff_exists.mp (hu l r (hw ▸ hv))
    exact Option.isSome_of_eq_some (hviews l r n hn).1
  rw [told.root]
  cases hplace : a.parent.filter fun place => (c.entities.get place.1).isSome with
  | none =>
    refine finish (nearly_current k beside.entities (fun p hp => ?_) near) fun _ _ => id
    obtain ⟨location, hl, rfl⟩ := Option.map_eq_some_iff.mp hp
    rw [told.parent, hl, Option.map_some, Option.filter_eq_none_iff] at hplace
    have hnone := hplace _ rfl
    rw [attachment_parent] at hnone
    exact Option.not_isSome_iff_eq_none.mp hnone
  | some place =>
    obtain ⟨p, position⟩ := place
    obtain ⟨x, hx, ho⟩ := hread p position hplace
    obtain ⟨hparent, hp⟩ := Option.filter_eq_some_iff.mp hplace
    obtain ⟨hlist, hl, old, before, after, placed', rfl, around⟩ :=
      site_found h hplan hrun told k placed hparent hp hx ho
    refine yields_bind (rebuild_nearly h pl e hl around k placed' hp hlist beside.entities beside.shown
      (fun x hx => ((preserved x).mp hx).imp_right And.left) (fun l r n hv => (hviews l r n hv).1) near) ?_
    rintro _ u ⟨near', hu⟩
    exact finish near' hu

end Applying

end VirtualPatches
