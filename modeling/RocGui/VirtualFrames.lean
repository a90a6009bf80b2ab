import RocGui.VirtualWalks

/-! The invariant of the cached rows, and that row callbacks and settled frames keep it. -/
namespace VirtualFrames

open FiniteMaps Methods MethodOutcomes KeyedOrder GraphState GraphForests PointerTrees Popovers
open IdentityRuns FocusLandings NodeForms VirtualRows VirtualSpans VirtualCaches VirtualWalks

variable {K : Type} [DecidableEq K] {g : MountedGraph K} {c t u : Cache} {list l r x n : ℕ}

/-- What a cached row is. -/
structure Seated (g : MountedGraph K) (c : Cache) (l r n : ℕ) : Prop where
  list : isList g l = true
  child : (forest g).Child l r
  built : (c.entities.get r).isSome
  count : n = span g r
  free : r ∉ c.preserved
  shown : (c.entities.get l).isSome ∨ ¬UnderList g l

/-- Why a node has a view: it was preserved, it is a cached row, or its parent has one. -/
def Topped (g : MountedGraph K) (c : Cache) (x : ℕ) : Prop :=
  x ∈ c.preserved ∨ (∃ l, (c.views.get (l, x)).isSome) ∨ ∃ q, Cut g q x ∧ (c.entities.get q).isSome

/-- The invariant of the rows; the views in `E` need no reason. -/
structure Kept (g : MountedGraph K) (E : Set ℕ) (c : Cache) : Prop where
  tables : Tables c
  whole : ∀ x, Whole g c x
  rows : ∀ l r n, c.views.get (l, r) = some n → Seated g c l r n
  mounted : ∀ x, (c.entities.get x).isSome → (forest g).Mounted x
  tops : ∀ x, (c.entities.get x).isSome → x ∈ E ∨ Topped g c x

/-- Every cached row is a virtual item. -/
def Items (g : MountedGraph K) (c : Cache) : Prop :=
  ∀ l r, (c.views.get (l, r)).isSome → isItem g r = true

section General

theorem whole_congr (entities : t.entities = c.entities) (shown : t.shown = c.shown)
    (preserved : t.preserved = c.preserved) (w : Whole g c x) : Whole g t x := by
  unfold Whole at w ⊢
  rwa [entities, shown, preserved]

theorem kept_frames (k : Kept g ∅ c) (frames : FiniteMap ℕ (ℕ × ℕ)) :
    Kept g ∅ { c with frames } where
  tables := tables_congr k.tables rfl rfl rfl
  whole x := whole_congr (c := c) rfl rfl rfl (k.whole x)
  rows l r n hv := by
    have seat := k.rows l r n hv
    exact ⟨seat.list, seat.child, seat.built, seat.count, seat.free, seat.shown⟩
  mounted := k.mounted
  tops := k.tops

theorem kept_empty : Kept (.empty : MountedGraph K) ∅ .empty := by
  refine ⟨tables_empty, fun x n hn => ?_, fun l r n hn => ?_, fun x hx => ?_, fun x hx => ?_⟩
  · simp [Cache.empty] at hn
  · simp [Cache.empty] at hn
  · simp [Cache.empty] at hx
  · simp [Cache.empty] at hx

theorem row_not_cut (h : Shape g) (seat : Seated g c l r n) (q : ℕ) : ¬Cut g q r := by
  intro hcut
  obtain ⟨hlist, hchild⟩ := cut_iff.mp hcut
  rw [child_unique h.linked hchild seat.child, seat.list] at hlist
  cases hlist

theorem list_children (formed : Formed g) {node : Node K} (hn : g.node list = some node)
    (hlist : isList g list = true) (hr : r ∈ node.children) : (forest g).Child list r := by
  obtain ⟨e, he, rfl⟩ := entry_of_node hn
  have hnone : e.keyedChildren = none := by
    by_contra hsome
    rcases formed.ordered list e he (Option.isSome_iff_ne_none.mpr hsome) with hnil | ⟨_, _, _, hk⟩
    · simp [hnil] at hr
    · simp [isList, hn, hk] at hlist
  have hfst : r ∈ ((forest g).kids list).map Prod.fst := by
    rw [kids_eq he, locations_fst, hnone]
    exact hr
  obtain ⟨⟨c, place⟩, hkid, rfl⟩ := List.mem_map.mp hfst
  exact ⟨place, hkid⟩

omit [DecidableEq K] in
theorem rowsIn_children {node : Node K} {start stop : ℕ} (hr : r ∈ rowsIn node start stop) :
    r ∈ node.children := by
  obtain ⟨index, -, hat⟩ := List.mem_filterMap.mp hr
  unfold rowAt at hat
  split at hat
  · exact List.mem_of_getElem? hat
  · cases hat

end General

section Ranges

/-- The state while a row callback is running. -/
structure Showing (g : MountedGraph K) (list : ℕ) (wanted : List ℕ) (c t : Cache) : Prop where
  kept : Kept g ∅ t
  shown : (t.entities.get list).isSome ∨ ¬UnderList g list
  cached : ∀ l r, (t.views.get (l, r)).isSome → (c.views.get (l, r)).isSome ∨ r ∈ wanted

theorem show_row (h : Shape g) (hlist : isList g list = true) {item : ℕ} {wanted : List ℕ}
    (hchild : (forest g).Child list item) (hwanted : item ∈ wanted) (s : Showing g list wanted c t) :
    Yields (showRow g list item) t fun _ u => Showing g list wanted c u := by
  refine yields_get_bind ?_
  split
  · exact yields_pure s
  obtain ⟨place, hkid⟩ := hchild
  refine yields_bind (@build_virtual K _ g ∅ _ item h (h.linked.placed hkid).1 (fun _ _ => id) fun x _ =>
    s.kept.whole x) ?_
  rintro n u ⟨rfl, b⟩
  refine yields_mono (cache_row (tables_congr s.kept.tables b.views b.owners b.lists) list item _) ?_
  rintro _ w ⟨tb, beside, views⟩
  rw [b.views] at views
  have hentities (x : ℕ) : w.entities.get x = u.entities.get x := by rw [beside.entities]
  have cached (l r : ℕ) (hv : (w.views.get (l, r)).isSome) :
      l = list ∧ r = item ∨ (t.views.get (l, r)).isSome := by
    rw [views, FiniteMap.get_set] at hv
    split at hv
    · rename_i heq
      exact .inl (Prod.mk.inj heq)
    · exact .inr hv
  have shown : (w.entities.get list).isSome ∨ ¬UnderList g list :=
    s.shown.imp_left fun hx => by rw [hentities]; exact b.grows list hx
  refine ⟨⟨tb, fun x => ?_, fun l r n hv => ?_, fun x hx => ?_, fun x hx => .inr ?_⟩, shown, fun l r hv => ?_⟩
  · exact whole_congr beside.entities beside.shown beside.preserved (b.whole x (Set.notMem_empty x))
  · rw [views, FiniteMap.get_set] at hv
    split at hv
    · rename_i heq
      obtain ⟨rfl, rfl⟩ := Prod.mk.inj heq
      obtain ⟨hbuilt, hfree⟩ := b.built r (by simp)
      exact ⟨hlist, ⟨place, hkid⟩, by rw [hentities]; exact hbuilt, (Option.some.inj hv).symm,
        by rw [beside.preserved]; exact hfree, shown⟩
    · have seat := s.kept.rows l r n hv
      refine ⟨seat.list, seat.child, ?_, seat.count, ?_, seat.shown.imp_left fun hx => ?_⟩
      · rw [hentities]
        exact b.grows r seat.built
      · rw [beside.preserved]
        exact fun hp => seat.free (b.shrinks hp)
      · rw [hentities]
        exact b.grows l hx
  · rw [hentities] at hx
    exact (b.mounted x hx).elim (s.kept.mounted x) id
  · rw [hentities] at hx
    have grown {l : ℕ} (hv : (t.views.get (l, x)).isSome) : (w.views.get (l, x)).isSome := by
      rw [views, FiniteMap.get_set]
      split
      · rfl
      · exact hv
    rcases b.tops x hx with ⟨hold, hstays⟩ | hid | ⟨q, hcut, hq⟩
    · rcases (s.kept.tops x hold).resolve_left (Set.notMem_empty x) with hp | ⟨l, hv⟩ | ⟨q, hcut, hq⟩
      · refine .inl ?_
        rw [beside.preserved]
        exact hstays.resolve_right (not_not.mpr hp)
      · exact .inr (.inl ⟨l, grown hv⟩)
      · exact .inr (.inr ⟨q, hcut, by rw [hentities]; exact b.grows q hq⟩)
    · obtain rfl := List.mem_singleton.mp hid
      exact .inr (.inl ⟨list, by rw [views]; simp⟩)
    · exact .inr (.inr ⟨q, hcut, by rw [hentities]; exact hq⟩)
  · rcases cached l r hv with ⟨-, rfl⟩ | hv
    · exact .inr hwanted
    · exact s.cached l r hv

theorem virtual_range (h : Shape g) (formed : Formed g) (hlist : isList g list = true)
    (shown : (c.entities.get list).isSome ∨ ¬UnderList g list) (k : Kept g ∅ c) (items : Items g c)
    (start stop : ℕ) : Yields (virtualRange g list start stop) c fun _ t => Kept g ∅ t ∧ Items g t := by
  refine yields_expect_bind fun node hn => ?_
  refine yields_bind (yields_forM (I := fun _ t => Showing g list (rowsIn node start stop) c t)
    (fun item _ t hitem s => show_row h hlist ?_ hitem s) ⟨k, shown, fun _ _ => .inl⟩) ?_
  · exact list_children formed hn hlist (rowsIn_children hitem)
  intro _ t s
  refine yields_modify_bind ?_
  split
  · exact yields_panics _
  · rename_i hitems
    refine yields_pure ⟨kept_frames s.kept _, fun l r hv => ?_⟩
    rcases s.cached l r hv with hold | hwanted
    · exact items l r hold
    · exact not_not.mp hitems r hwanted

end Ranges

section Settling

/-- What is taken from the cache stays away. -/
structure Fewer (c t : Cache) : Prop where
  frames : t.frames = c.frames
  entities : ∀ x, (t.entities.get x).isSome → (c.entities.get x).isSome
  preserved : t.preserved ⊆ c.preserved
  stays : ∀ x ∈ c.preserved, (t.entities.get x).isSome → x ∈ t.preserved
  views : ∀ l r, (t.views.get (l, r)).isSome → (c.views.get (l, r)).isSome

theorem fewer_refl (c : Cache) : Fewer c c :=
  ⟨rfl, fun _ => id, Finset.Subset.refl _, fun _ hx _ => hx, fun _ _ => id⟩

theorem fewer_trans (f : Fewer c t) (f' : Fewer t u) : Fewer c u :=
  ⟨f'.frames.trans f.frames, fun x hx => f.entities x (f'.entities x hx), f'.preserved.trans f.preserved,
    fun x hx hu => f'.stays x (f.stays x hx (f'.entities x hu)) hu,
    fun l r hv => f.views l r (f'.views l r hv)⟩

theorem forget_kept (h : Shape g) (k : Kept g {x} c) (built : (c.entities.get x).isSome)
    (free : ∀ q, Cut g q x → (c.entities.get q).isSome → False) (unlisted : ∀ l, c.views.get (l, x) = none) :
    Yields (forgetFrom (g.climb + 1) [x]) c fun _ t => Kept g ∅ t ∧ Fewer c t ∧ t.entities.get x = none := by
  have enough : load g [x] ≤ g.climb + 1 := by
    have := weight_le_size h (k.mounted x built)
    simp only [load, List.map_cons, List.map_nil, List.sum_cons, List.sum_nil, MountedGraph.climb]
    omega
  refine yields_mono (forget_from h (G := fun x => (c.entities.get x).isSome) (fun x hx => ?_)
    (fun l r hv => ?_) k.tables (fun y hy => ?_) enough) ?_
  · obtain ⟨n, hn⟩ := Option.isSome_iff_exists.mp hx
    obtain ⟨-, hshown, hkids⟩ := k.whole x n hn
    exact ⟨k.mounted x hx, hshown, fun k hk => (hkids k hk).1⟩
  · obtain ⟨n, hn⟩ := Option.isSome_iff_exists.mp hv
    have seat := k.rows l r n hn
    exact ⟨seat.list, seat.child, seat.built⟩
  · obtain rfl := List.mem_singleton.mp hy
    exact built
  rintro _ t ⟨popped, f⟩
  have entity {y : ℕ} (hy : (t.entities.get y).isSome) : y ∉ popped ∧ (c.entities.get y).isSome := by
    rw [f.entities] at hy
    split at hy
    · cases hy
    · exact ⟨‹_›, hy⟩
  have stays {y : ℕ} (hy : y ∉ popped) (hc : (c.entities.get y).isSome) : (t.entities.get y).isSome := by
    rwa [f.entities, if_neg hy]
  have cached {l r : ℕ} (hv : (t.views.get (l, r)).isSome) : l ∉ popped ∧ (c.views.get (l, r)).isSome := by
    rw [f.views] at hv
    split at hv
    · cases hv
    · exact ⟨‹_›, hv⟩
  have seat {l r : ℕ} (hv : (c.views.get (l, r)).isSome) : ∃ n, Seated g c l r n := by
    obtain ⟨n, hn⟩ := Option.isSome_iff_exists.mp hv
    exact ⟨n, k.rows l r n hn⟩
  -- what is popped came from the root, as a child or as a row
  have child_out {y z : ℕ} (hcut : Cut g y z) (hy : (c.entities.get y).isSome) (hout : y ∉ popped) :
      z ∉ popped := by
    intro hz
    rcases f.origin z hz with hroot | ⟨q, hq, hqz | hqz⟩
    · obtain rfl := List.mem_singleton.mp hroot
      exact free y hcut hy
    · exact hout (child_unique h.linked (cut_child hcut) (cut_child hqz) ▸ hq)
    · obtain ⟨n, s⟩ := seat hqz
      exact row_not_cut h s y hcut
  have row_out {l r : ℕ} (hv : (c.views.get (l, r)).isSome) (hl : l ∉ popped) : r ∉ popped := by
    intro hr
    obtain ⟨n, s⟩ := seat hv
    rcases f.origin r hr with hroot | ⟨q, hq, hqr | hqr⟩
    · obtain rfl := List.mem_singleton.mp hroot
      rw [unlisted l] at hv
      cases hv
    · exact row_not_cut h s q hqr
    · exact hl (row_once k.tables hqr hv ▸ hq)
  refine ⟨⟨f.tables, fun y n hn => ?_, fun l r n hv => ?_, fun y hy => k.mounted y (entity hy).2,
    fun y hy => .inr ?_⟩, ⟨f.frames, fun y hy => (entity hy).2, fun y hy => ((f.preserved y).mp hy).1,
    fun y hy hc => (f.preserved y).mpr ⟨hy, (entity hc).1⟩, fun l r hv => (cached hv).2⟩, ?_⟩
  · obtain ⟨hout, hc⟩ := entity (Option.isSome_of_eq_some hn)
    rw [f.entities, if_neg hout] at hn
    obtain ⟨hcount, hshown, hkids⟩ := k.whole y n hn
    refine ⟨hcount, by rw [f.shown, hshown], fun z hz => ?_⟩
    exact ⟨stays (child_out hz hc hout) (hkids z hz).1, fun hp => (hkids z hz).2 ((f.preserved z).mp hp).1⟩
  · obtain ⟨hl, hc⟩ := cached (Option.isSome_of_eq_some hv)
    rw [f.views, if_neg hl] at hv
    have s := k.rows l r n hv
    exact ⟨s.list, s.child, stays (row_out hc hl) s.built, s.count, fun hp => s.free ((f.preserved r).mp hp).1,
      s.shown.imp_left (stays hl)⟩
  · obtain ⟨hout, hc⟩ := entity hy
    rcases k.tops y hc with hroot | hp | ⟨l, hv⟩ | ⟨q, hcut, hq⟩
    · obtain rfl : y = x := hroot
      exact absurd (f.starts y (by simp)) hout
    · exact .inl ((f.preserved y).mpr ⟨hp, hout⟩)
    · refine .inr (.inl ⟨l, ?_⟩)
      rwa [f.views, if_neg fun hl => hout (f.rows l hl y hv)]
    · exact .inr (.inr ⟨q, hcut, stays (fun hpop => hout (f.kids q hpop y hcut)) hq⟩)
  · rw [f.entities, if_pos (f.starts x (by simp))]

theorem evict_row (h : Shape g) (k : Kept g ∅ c) (list item : ℕ) :
    Yields (evictRow g list item) c fun _ t =>
      Kept g ∅ t ∧ Fewer c t ∧ t.views.get (list, item) = none := by
  refine yields_bind (uncache_row k.tables list item) ?_
  rintro a u ⟨rfl, tb, beside, views⟩
  refine yields_expect_bind fun n hn => ?_
  have seat := k.rows list item n hn
  have cached {l r : ℕ} {n : ℕ} (hv : u.views.get (l, r) = some n) : c.views.get (l, r) = some n := by
    rw [views, FiniteMap.get_remove] at hv
    split at hv
    · cases hv
    · exact hv
  have kept : Kept g {item} u := by
    refine ⟨tb, fun x => whole_congr beside.entities beside.shown beside.preserved (k.whole x),
      fun l r n hv => ?_, fun x hx => k.mounted x (beside.entities ▸ hx), fun x hx => ?_⟩
    · have s := k.rows l r n (cached hv)
      exact ⟨s.list, s.child, by rw [beside.entities]; exact s.built, s.count,
        by rw [beside.preserved]; exact s.free, by rw [beside.entities]; exact s.shown⟩
    · rw [beside.entities] at hx
      rcases (k.tops x hx).resolve_left (Set.notMem_empty x) with hp | ⟨l, hv⟩ | ⟨q, hcut, hq⟩
      · exact .inr (.inl (by rw [beside.preserved]; exact hp))
      · by_cases heq : x = item
        · exact .inl heq
        · refine .inr (.inr (.inl ⟨l, ?_⟩))
          rw [views, FiniteMap.get_remove_ne _ (by rintro ⟨⟩; exact heq rfl)]
          exact hv
      · exact .inr (.inr (.inr ⟨q, hcut, by rw [beside.entities]; exact hq⟩))
  refine yields_mono (forget_kept h kept (by rw [beside.entities]; exact seat.built)
    (fun q hcut _ => row_not_cut h seat q hcut) fun l => ?_) ?_
  · rw [← Option.not_isSome_iff_eq_none]
    intro hv
    obtain ⟨m, hm⟩ := Option.isSome_iff_exists.mp hv
    obtain rfl := row_once k.tables (Option.isSome_of_eq_some (cached hm)) (Option.isSome_of_eq_some hn)
    rw [views, FiniteMap.get_remove_self] at hm
    cases hm
  · rintro _ t ⟨kept', f, -⟩
    have fewer : Fewer c u := ⟨beside.frames, fun x hx => beside.entities ▸ hx,
      beside.preserved.subset, fun x hx _ => by rw [beside.preserved]; exact hx, fun l r hv => by
        obtain ⟨m, hm⟩ := Option.isSome_iff_exists.mp hv
        exact Option.isSome_of_eq_some (cached hm)⟩
    refine ⟨kept', fewer_trans fewer f, ?_⟩
    rw [← Option.not_isSome_iff_eq_none]
    intro hv
    have := f.views list item hv
    rw [views, FiniteMap.get_remove_self] at this
    cases this

theorem forget_abandoned (h : Shape g) (k : Kept g ∅ c)
    (preserved : (c.entities.get x).isSome → x ∈ c.preserved) :
    Yields (forgetAbandoned g x) c fun _ t => Kept g ∅ t ∧ Fewer c t ∧ t.entities.get x = none := by
  refine yields_get_bind ?_
  split
  · rename_i hx
    have hp := preserved hx
    refine forget_kept h ⟨k.tables, k.whole, k.rows, k.mounted, fun y hy => .inr ?_⟩ hx (fun q hcut hq => ?_)
      fun l => ?_
    · exact (k.tops y hy).resolve_left (Set.notMem_empty y)
    · obtain ⟨n, hn⟩ := Option.isSome_iff_exists.mp hq
      exact ((k.whole q n hn).2.2 x hcut).2 hp
    · rw [← Option.not_isSome_iff_eq_none]
      intro hv
      obtain ⟨n, hn⟩ := Option.isSome_iff_exists.mp hv
      exact (k.rows l x n hn).free hp
  · rename_i hx
    exact yields_pure ⟨k, fewer_refl c, Option.not_isSome_iff_eq_none.mp hx⟩

/-- Every view below a row is gone, if the rows that are cached are others and nothing preserved is
left below it. -/
theorem swept (h : Shape g) (k : Kept g ∅ c) (hlist : isList g list = true) (hr : (forest g).Child list r)
    (uncached : c.views.get (list, r) = none)
    (cleared : ∀ x ∈ c.preserved, (forest g).Below r x → (c.entities.get x).isSome → False)
    (hx : (forest g).Below r x) : c.entities.get x = none := by
  rw [← Option.not_isSome_iff_eq_none]
  intro hsome
  -- a view has a reason, and the reason leads up to the row
  have reason {y : ℕ} (hy : (forest g).Below r y) (hsome : (c.entities.get y).isSome) :
      ∃ q, (forest g).Child q y ∧ (q = list ∧ (c.views.get (list, y)).isSome ∨
        q ≠ list ∧ ((forest g).Below r q → (c.entities.get q).isSome)) := by
    rcases (k.tops y hsome).resolve_left (Set.notMem_empty y) with hp | ⟨l, hv⟩ | ⟨q, hcut, hq⟩
    · exact (cleared y hp hy hsome).elim
    · obtain ⟨n, hn⟩ := Option.isSome_iff_exists.mp hv
      have seat := k.rows l y n hn
      by_cases heq : l = list
      · exact ⟨l, seat.child, .inl ⟨heq, heq ▸ hv⟩⟩
      · exact ⟨l, seat.child, .inr ⟨heq, fun hl => seat.shown.resolve_right
          (not_not.mpr ⟨list, hlist, .head' hr hl⟩)⟩⟩
    · refine ⟨q, cut_child hcut, .inr ⟨?_, fun _ => hq⟩⟩
      rintro rfl
      rw [(cut_iff.mp hcut).1] at hlist
      cases hlist
  induction hx with
  | refl =>
    obtain ⟨q, hchild, ⟨rfl, hv⟩ | ⟨hne, -⟩⟩ := reason .refl hsome
    · rw [uncached] at hv
      cases hv
    · exact hne (child_unique h.linked hchild hr)
  | @tail b y hb hby ih =>
    obtain ⟨q, hchild, ⟨rfl, -⟩ | ⟨-, hq⟩⟩ := reason (hb.tail hby) hsome
    · obtain rfl := child_unique h.linked hchild hby
      exact no_way_back h hr hb
    · obtain rfl := child_unique h.linked hchild hby
      exact ih (hq hb)

/-- What a settled frame leaves of the rows outside its range. -/
def Settled (g : MountedGraph K) (list : ℕ) (c t : Cache) : Prop :=
  ∀ range node, c.frames.get list = some range → g.node list = some node → isList g list = true →
    ∀ r, (forest g).Child list r → r ∉ keptRows node range → ∀ x, (forest g).Below r x →
      t.entities.get x = none

/-- The preserved views below a row outside the range reach the row by ordinary places. -/
def OnOrdinaryPlaces (g : MountedGraph K) (list : ℕ) (c : Cache) : Prop :=
  ∀ range node, c.frames.get list = some range → g.node list = some node →
    ∀ r, (forest g).Child list r → r ∉ keptRows node range → ∀ x ∈ c.preserved, (forest g).Below r x →
      ∀ y, (forest g).Below r y → (forest g).Below y x → (parentOf g y).isSome

theorem finish_frame (h : Shape g) (k : Kept g ∅ c) (items : Items g c) (clear : OnOrdinaryPlaces g list c) :
    Yields (finishVirtualFrame g list) c fun _ t => (Kept g ∅ t ∧ Items g t) ∧ Settled g list c t := by
  refine yields_get_bind ?_
  cases hf : c.frames.get list with
  | none =>
    refine yields_pure ⟨⟨k, items⟩, fun range node hrange => ?_⟩
    rw [hf] at hrange
    cases hrange
  | some range =>
    refine yields_modify_bind ?_
    have k' := kept_frames k (c.frames.remove list)
    cases hn : g.node list with
    | none =>
      refine yields_pure ⟨⟨k', items⟩, fun range node _ hnode => ?_⟩
      rw [hn] at hnode
      cases hnode
    | some node =>
      dsimp only
      split
      · rename_i hplain
        exact yields_pure ⟨⟨k', items⟩, fun range node _ _ hlist => absurd hlist hplain⟩
      rename_i hlist
      have hlist : isList g list = true := not_not.mp hlist
      refine yields_get_bind (yields_bind (yields_forM (I := fun rest t => Kept g ∅ t ∧
        Fewer { c with frames := c.frames.remove list } t ∧ ∀ r, (t.views.get (list, r)).isSome →
          r ∈ rest ∨ r ∈ keptRows node range) ?_ ⟨k', fewer_refl _, fun r hv => ?_⟩) ?_)
      · rintro item rest t - ⟨kt, ft, ht⟩
        refine yields_mono (evict_row h kt list item) ?_
        rintro _ u ⟨ku, fu, hgone⟩
        refine ⟨ku, fewer_trans ft fu, fun r hv => ?_⟩
        refine (ht r (fu.views list r hv)).imp_left fun hr => (List.mem_cons.mp hr).resolve_left ?_
        rintro rfl
        rw [hgone] at hv
        cases hv
      · by_cases hr : r ∈ keptRows node range
        · exact .inr hr
        · refine .inl (mem_ascending.mpr (Finset.mem_filter.mpr ⟨?_, hr⟩))
          exact (k'.tables.listed list r).mpr hv
      rintro _ t ⟨kt, ft, ht⟩
      refine yields_get_bind ?_
      obtain ⟨ys, hys, mem⟩ := abandoned_of h list (keptRows node range) (ascending t.preserved)
      refine yields_bind (yields_ofExcept hys (P := fun a u => a = ys ∧ u = t) ⟨rfl, rfl⟩) ?_
      rintro ys t ⟨rfl, rfl⟩
      refine yields_mono (yields_forM (I := fun rest u => Kept g ∅ u ∧ Fewer t u ∧
        ∀ y ∈ ys, y ∈ rest ∨ u.entities.get y = none) ?_ ⟨kt, fewer_refl t, fun y hy => .inl hy⟩) ?_
      · rintro y rest u hy ⟨ku, fu, hu⟩
        refine yields_mono (forget_abandoned h ku fun hsome => ?_) ?_
        · exact fu.stays y (mem_ascending.mp ((mem y).mp hy).1) hsome
        rintro _ w ⟨kw, fw, hgone⟩
        refine ⟨kw, fewer_trans fu fw, fun z hz => ?_⟩
        by_cases heq : z = y
        · exact .inr (heq ▸ hgone)
        · refine (hu z hz).imp (fun hz => (List.mem_cons.mp hz).resolve_left heq) fun hnone => ?_
          rw [← Option.not_isSome_iff_eq_none] at hnone ⊢
          exact fun hsome => hnone (fw.entities z hsome)
      rintro _ u ⟨ku, fu, hu⟩
      have all := fewer_trans ft fu
      refine ⟨⟨ku, fun l r hv => items l r (all.views l r hv)⟩, fun range' node' hrange hnode _ r hr hout x hx => ?_⟩
      obtain rfl := Option.some.inj (hf.symm.trans hrange)
      obtain rfl := Option.some.inj (hn.symm.trans hnode)
      refine swept h ku hlist hr ?_ (fun y hy hbelow hsome => ?_) hx
      · rw [← Option.not_isSome_iff_eq_none]
        intro hv
        rcases ht r (fu.views list r hv) with hnil | hkept
        · cases hnil
        · exact hout hkept
      · have hyt := fu.preserved hy
        have found := @abandoned_found K _ g list r y g.climb (keptRows node range) h hr hout hbelow
          (clear range node hf hn r hr hout y (ft.preserved hyt) hbelow) (by rw [MountedGraph.climb]; omega)
        rcases hu y ((mem y).mpr ⟨mem_ascending.mpr hyt, found⟩) with hnil | hnone
        · cases hnil
        · rw [hnone] at hsome
          cases hsome

end Settling

end VirtualFrames
