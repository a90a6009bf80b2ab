import RocGui.InteractionCarries

/-! The state of pointer, focus and layout over every run of a host: what each accepted patch
passes on, and to whom. -/
namespace InteractionRuns

open FiniteMaps Methods KeyedOrder GraphState FragmentValidation GraphPatches FragmentTrees
open GraphForests GraphMounting GraphFrames GraphGrafts GraphIdentities GraphReplacements
open GraphRuns GraphLedgers KeyedStaging KeyedTransactions KeyedIdentities ElementIdentities
open IdentityPaths DialogRegions Popovers PopoverCarries PopoverRuns FocusSearches Transitions
open CanvasSettling (asksSize reportCanvasSize)
open InteractionCarries

variable {K : Type}

section Survival

variable (g v : MountedGraph K)

def Stays (x : ℕ) : Prop := (g.nodes.get x).isSome ∧ (v.nodes.get x).isSome

def Gone (x : ℕ) : Prop := (g.nodes.get x).isSome ∧ v.nodes.get x = none

def Fresh (x : ℕ) : Prop := g.nodes.get x = none ∧ (v.nodes.get x).isSome

/-- What a patch from `g` to `v` makes of the interaction state. A node that stays keeps what it
holds; a fresh one takes over what the gone node of its identity held, as far as its kind holds such
a thing; all else is dropped, and so is what lies outside a dialog that the patch made the active
one. A region asks for focus when no gone node of its identity had the same serial. -/
structure Survives : Prop where
  held : ∀ hold x, x ∈ heldBy v.interaction hold ↔
    (Stays g v x ∧ x ∈ heldBy g.interaction hold ∨
      Fresh g v x ∧ tracksHover v x = true ∧ (hold ≠ .hovered → v.presents x = true) ∧
        ∃ r, Gone g v r ∧ r ∈ heldBy g.interaction hold ∧ Heir g v r x) ∧
      (v.dialog ≠ g.dialog → InsideDialog v x)
  sizes : ∀ x size, v.interaction.canvasSizes.get x = some size ↔
    Stays g v x ∧ g.interaction.canvasSizes.get x = some size ∨
      Fresh g v x ∧ asksSize v x = true ∧
        ∃ r, Gone g v r ∧ g.interaction.canvasSizes.get r = some size ∧ Heir g v r x
  asked : ∃ asked,
    v.interaction.keyboard.requests = g.interaction.keyboard.requests ++ asked ∧ asked.Nodup ∧
      ∀ x, x ∈ asked ↔ Fresh g v x ∧ serialAt v x ≠ 0 ∧
        ¬∃ r, Gone g v r ∧ serialAt g r = serialAt v x ∧ Heir g v r x
  heirs : ∀ r r' x x', Heir g v r x → Heir g v r' x' → (r = r' ↔ x = x')

/-- Every record is that of a node of its kind, every open popover is held open, and the
serials are those of the mounted regions. -/
structure Recorded (g : MountedGraph K) : Prop where
  held : HeldIn (fun x => tracksHover g x = true) (fun x => g.presents x = true) (fun _ => True)
    g.interaction
  sizes : ∀ x size, g.interaction.canvasSizes.get x = some size → asksSize g x = true
  serials : ∀ x serial, g.interaction.keyboard.serials.get x = some serial ↔
    serial ≠ 0 ∧ serialAt g x = serial
  staged : g.interaction.keyboard.stagedRequests = []

end Survival

section Kinds

variable {g v : MountedGraph K} {x : ℕ}

theorem serial_of_kind (kind : (v.node x).map (·.kind) = (g.node x).map (·.kind)) :
    serialAt v x = serialAt g x := by
  have serial (g : MountedGraph K) : serialAt g x = ((g.node x).map (·.kind)).elim 0 serialOf := by
    rw [serialAt]
    cases g.node x <;> rfl
  rw [serial, serial, kind]

theorem asks_of_kind (kind : (v.node x).map (·.kind) = (g.node x).map (·.kind)) :
    asksSize v x = asksSize g x := by
  rw [asksSize, asksSize, kind]

variable [DecidableEq K]

theorem mounted_of_serial (h : serialAt g x ≠ 0) : (forest g).Mounted x := by
  cases hn : g.node x with
  | none =>
    rw [serialAt, hn] at h
    exact absurd rfl h
  | some n => exact mounted_iff.mpr (mounted_of_node hn)

theorem mounted_of_asks (h : asksSize g x = true) : (forest g).Mounted x := by
  cases hn : g.node x with
  | none =>
    rw [asksSize, hn] at h
    cases h
  | some n => exact mounted_iff.mpr (mounted_of_node hn)

theorem mounted_of_held (r : Recorded g) {hold : Hold} (h : x ∈ heldBy g.interaction hold) :
    (forest g).Mounted x := by
  cases hold with
  | hovered => exact mounted_of_tracks (r.held.tracked x h).1
  | pending => exact mounted_of_presents (r.held.presenting x (.inl h)).1
  | shown => exact mounted_of_presents (r.held.presenting x (.inr (.inl h))).1
  | focusWithin => exact mounted_of_presents (r.held.presenting x (.inr (.inr h))).1

end Kinds

section Rebuilding

variable [DecidableEq K] {g v : MountedGraph K} {removed : List ℕ} {nodes : List (Node K)}

/-- A patch that mounts nodes: what it does to the graph, and the parts of it that touch the
interaction state. -/
structure Rebuilt (g v : MountedGraph K) (removed : List ℕ) (nodes : List (Node K)) : Prop where
  grafted : ∃ frontier tops site root, Grafted g v removed nodes frontier tops site root
  gone : ∀ x ∈ removed, (forest g).Mounted x
  distinct : (ids nodes).Nodup
  count : ∀ x, x ∉ ids nodes → x ∉ removed → childCount v x = childCount g x
  carried : ∃ (start g0 g1 : MountedGraph K) (carry : InteractionCarry),
    Named start = Named g ∧ start.interaction = g.interaction ∧
    (carryInteraction removed).run start = .ok carry g0 ∧
    g1.interaction = nodes.foldl listed g0.interaction ∧
    (finishInteraction g.dialog (ids nodes) carry).run g1 = .ok () v

theorem replacement_rebuilt {r : Replacement K} {a : GraphApply K} (h : Shape g)
    (hrun : (applyReplacement r).run g = .ok a v) : ∃ removed, Rebuilt g v removed r.nodes := by
  obtain ⟨plan, hplan, e⟩ := replacement_grafted h hrun
  have p := planned h hplan
  have count (x : ℕ) (hid : x ∉ ids r.nodes) (hr : x ∉ plan.removedIds) :
      childCount v x = childCount g x := replacement_count h hplan hrun hid hr
  simp only [applyReplacement, commitReplacement, bind_ok, get_ok, query_run_ok, pure_ok] at hrun
  obtain ⟨_, _, ⟨rfl, rfl⟩, plan', _, ⟨hplan', rfl⟩, _, _, ⟨rfl, rfl⟩, carry, g0, hcarry, ended, g1,
    hexchange, _, g2, hfinish, _, _, ⟨rfl, rfl⟩, -, rfl⟩ := hrun
  obtain rfl := Except.ok.inj (hplan.symm.trans hplan')
  have gone (x : ℕ) (hx : x ∈ plan.removedIds) : (forest g).Mounted x := by
    obtain ⟨met, walked, -⟩ := p.walked
    rcases walked.origin (.inl hx) with hold | ⟨b, hb, loc, hkid⟩
    · exact p.target x (Option.mem_toList.mp hold)
    · exact (h.linked.placed hkid).1
  exact ⟨plan.removedIds, ⟨_, _, _, _, e⟩, gone, p.fragment.distinct, count,
    g, g0, g1, carry, rfl, rfl, hcarry, exchange_interaction hexchange, hfinish⟩

omit [DecidableEq K] in
theorem named_withOrder {container : ℕ} {entry : MountedNode K}
    (he : g.nodes.get container = some entry) :
    Named (withOrder container entry none g) = Named g := by
  have hkeys : (withOrder container entry none g).nodes.keys = g.nodes.keys := by
    ext x
    rw [FiniteMap.mem_keys, FiniteMap.mem_keys, withOrder, FiniteMap.get_set]
    split
    · rename_i hx
      rw [hx, he]
      rfl
    · rfl
  have walk (fuel : ℕ) (current : Option ℕ) :
      ((withOrder container entry none g).identityFrom fuel current : Reading K _) =
        g.identityFrom fuel current := by
    induction fuel generalizing current with
    | zero => cases current <;> rfl
    | succ fuel ih =>
      cases current with
      | none => rfl
      | some x =>
        rw [MountedGraph.identityFrom, MountedGraph.identityFrom]
        by_cases hx : x = container
        · have hget : (withOrder container entry none g).nodes.get container =
              some { entry with keyedChildren := none } := FiniteMap.get_set_self ..
          rw [hx, he, hget]
          simp only [ih]
        · have hget : (withOrder container entry none g).nodes.get x = g.nodes.get x :=
            FiniteMap.get_set_ne _ _ hx
          rw [hget]
          simp only [ih]
  funext x path
  rw [Named, Named, MountedGraph.identity, MountedGraph.identity, MountedGraph.climb,
    MountedGraph.climb, FiniteMap.size, FiniteMap.size, hkeys, walk]

theorem keyed_rebuilt {hashOrder : Enumeration K (Option (KeyedChild K))}
    {container baseRevision newRevision : ℕ} {operations : List (KeyedGraphOperation K)}
    {a : KeyedGraphApply K} (h : Shape g)
    (hrun : (applyKeyed hashOrder container baseRevision newRevision operations).run g = .ok a v) :
    ∃ removed nodes, Rebuilt g v removed nodes := by
  obtain ⟨entry, owner, prepared, j, hentry, -, -, hprepare, hcommit⟩ := apply_keyed_ok hrun
  obtain ⟨l₀, l, p, e⟩ := commit_grafted h hentry hprepare hcommit
  have he := (keyed_base h hentry).1
  have hnodes : prepared.nodes = stagedNodes prepared.fragments := by
    rw [PreparedFragments.nodes, stagedNodes, List.flatMap]
  have count (x : ℕ) (hid : x ∉ ids (stagedNodes prepared.fragments)) (hr : x ∉ prepared.removedIds) :
      childCount v x = childCount g x := commit_count he p hcommit hid hr
  simp only [commitKeyed, bind_ok, query_run_ok, pure_ok] at hcommit
  obtain ⟨oldSize, _, ⟨-, rfl⟩, carry, g0, hcarry, ended, g1, hexchange, _, g2, hfinish, -, rfl⟩ := hcommit
  have exchanged := exchangeKeyed_interaction hexchange
  rw [hnodes] at exchanged hfinish
  refine ⟨prepared.removedIds, _, ⟨_, _, _, _, e⟩, fun x hx => ?_, p.distinct, count, _, g0, g1, carry,
    named_withOrder he, rfl, hcarry, exchanged, hfinish⟩
  obtain ⟨roots, -, mem, walked⟩ := p.walked
  rcases walked.origin (.inl hx) with hr | ⟨b, hb, loc, hkid⟩
  · obtain ⟨k, ⟨i, hget⟩, -⟩ := (mem x).mp hr
    refine mounted_iff.mpr (Option.isSome_iff_ne_none.mpr fun hnone => ?_)
    have hplace := p.listed hget
    rw [MountedGraph.parentLocation, hnone] at hplace
    cases hplace
  · exact (h.linked.placed hkid).1

theorem patch_rebuilt {hashOrder : Enumeration K (Option (KeyedChild K))} {patch : Patch K}
    {a : GraphApply K} (h : Shape g) (hrun : (apply hashOrder patch).run g = .ok a v) :
    v = g ∨ ∃ removed nodes, Rebuilt g v removed nodes := by
  have replaced {r : Replacement K} (hrun : (applyReplacement r).run g = .ok a v) :
      ∃ removed nodes, Rebuilt g v removed nodes := by
    obtain ⟨removed, rebuilt⟩ := replacement_rebuilt h hrun
    exact ⟨removed, r.nodes, rebuilt⟩
  cases patch with
  | mount root nodes => exact .inr (replaced hrun)
  | noChange => exact .inl (noChange_run hrun)
  | replace oldRoot root nodes => exact .inr (replaced hrun)
  | replaceRetaining oldRoot root nodes retainedRoots => exact .inr (replaced hrun)
  | keyed container baseRevision newRevision operations =>
    obtain ⟨keyed, hkeyed⟩ := apply_keyed_run hrun
    exact .inr (keyed_rebuilt h hkeyed)

end Rebuilding

section Passing

variable [DecidableEq K] {g v : MountedGraph K} {removed : List ℕ} {nodes : List (Node K)}

/-- What a rebuild leaves, by the lists of what it retires and mounts. -/
structure Passed (g v : MountedGraph K) (removed : List ℕ) (nodes : List (Node K)) : Prop where
  held : ∃ i : Interaction, (∀ hold x, x ∈ heldBy i hold ↔
      x ∈ heldBy g.interaction hold ∧ x ∉ removed ∨
        x ∈ ids nodes ∧ tracksHover v x = true ∧ (hold ≠ .hovered → v.presents x = true) ∧
          ∃ r ∈ removed, r ∈ heldBy g.interaction hold ∧ Heir g v r x) ∧
    ∀ hold x, x ∈ heldBy v.interaction hold ↔
      x ∈ heldBy i hold ∧ (v.dialog ≠ g.dialog → InsideDialog v x)
  sizes : ∀ x size, v.interaction.canvasSizes.get x = some size ↔
    g.interaction.canvasSizes.get x = some size ∧ x ∉ removed ∨
      x ∈ ids nodes ∧ asksSize v x = true ∧
        ∃ r ∈ removed, g.interaction.canvasSizes.get r = some size ∧ Heir g v r x
  serials : ∀ x serial, v.interaction.keyboard.serials.get x = some serial ↔
    x ∈ asking nodes ∧ serialAt v x = serial ∨
      x ∉ asking nodes ∧ g.interaction.keyboard.serials.get x = some serial ∧ x ∉ removed
  asked : ∃ asked, v.interaction.keyboard.requests = g.interaction.keyboard.requests ++ asked ∧
    asked.Nodup ∧ asked ⊆ asking nodes ∧ ∀ x ∈ asking nodes, x ∈ asked ↔ ∃ path, Named v x path ∧
      ¬∃ r ∈ removed, g.interaction.keyboard.serials.get r = some (serialAt v x) ∧ Named g r path
  staged : v.interaction.keyboard.stagedRequests = []

omit [DecidableEq K] in
theorem asking_distinct (distinct : (ids nodes).Nodup) : (asking nodes).Nodup :=
  (distinct.sublist ((List.filter_sublist).map _))

omit [DecidableEq K] in
theorem mem_asking {x : ℕ} : x ∈ asking nodes ↔ ∃ n ∈ nodes, n.id = x ∧ serialOf n.kind ≠ 0 := by
  simp only [asking, List.mem_map, List.mem_filter, decide_eq_true_eq, and_assoc]
  exact exists_congr fun n => and_congr_right fun _ => and_comm

/-- The regions of a rebuild that ask are the staged nodes with a serial. -/
theorem asking_serial (h : Shape g) (b : Rebuilt g v removed nodes) {x : ℕ} :
    x ∈ asking nodes ↔ x ∈ ids nodes ∧ serialAt v x ≠ 0 := by
  obtain ⟨frontier, tops, site, root, e⟩ := b.grafted
  have serial {n : Node K} (hn : n ∈ nodes) : serialAt v n.id = serialOf n.kind := by
    rw [serialAt, e.node_fresh h hn]
    rfl
  rw [mem_asking, ids, List.mem_map]
  constructor
  · rintro ⟨n, hn, rfl, hserial⟩
    exact ⟨⟨n, hn, rfl⟩, by rwa [serial hn]⟩
  · rintro ⟨⟨n, hn, rfl⟩, hserial⟩
    exact ⟨n, hn, rfl, by rwa [← serial hn]⟩

theorem rebuilt_passed (h : Shape g) (d : Distinguished g) (r : Recorded g)
    (b : Rebuilt g v removed nodes) : Passed g v removed nodes := by
  obtain ⟨start, g0, g1, carry, named, interaction, hcarry, mounted, hfinish⟩ := b.carried
  have apart (r r' : ℕ) (path : ElementIdentity) (hr : Named start r path)
      (hr' : Named start r' path) : r = r' := by
    rw [named] at hr hr'
    exact siblings_path_apart h d.siblings (path_of_identity hr) (path_of_identity hr')
  have records := carry_records apart hcarry
  have edges := carry_edges hcarry
  have listed := listed_all (K := K) g0.interaction nodes
  rw [← mounted] at listed
  obtain ⟨t, hrestore, screened⟩ := finish_screened hfinish
  have restored := restore_edges hrestore
  have structural : withoutInteraction v = withoutInteraction g1 :=
    screened.structural.trans restored.structural
  -- the regions that may ask are those the patch has just mounted
  have hregions : g1.interaction.keyboard.stagedRequests = asking nodes := by
    rw [listed.staged, records.staged, interaction, r.staged, List.nil_append]
  have hserial (x : ℕ) (hx : x ∈ asking nodes) : serialAt g1 x ≠ 0 := by
    rw [← serial_congr structural]
    exact ((asking_serial h b).mp hx).2
  obtain ⟨t1, answered, recorded⟩ := restore_records (by rw [hregions]; exact asking_distinct b.distinct)
    (by rw [hregions]; exact hserial) hrestore
  have structural1 : withoutInteraction v = withoutInteraction t1 :=
    screened.structural.trans recorded.structural
  rw [hregions] at answered
  have keyboard : v.interaction.keyboard = t1.interaction.keyboard :=
    screened.keyboard.trans recorded.keyboard
  constructor
  · refine ⟨t.interaction, fun hold x => ?_, screened.held⟩
    have heir : Heir start t = Heir g v := by
      funext r x
      change (∃ path, Named start r path ∧ Named t x path) = ∃ path, Named g r path ∧ Named v x path
      rw [named, named_congr screened.structural]
    have tracks : tracksHover v x = tracksHover t x := by
      rw [tracksHover, tracksHover, PopoverCarries.node_congr screened.structural]
    have all := (handed edges listed.held restored
      (⟨rfl, .inl ⟨rfl, .inr rfl⟩⟩ : Finished t t t.dialog)).held hold x
    rw [all, heir, interaction, tracks, presents_congr screened.structural]
  · intro x size
    have inherits : Inherits t1 carry x size ↔ asksSize v x = true ∧
        ∃ r ∈ removed, g.interaction.canvasSizes.get r = some size ∧ Heir g v r x := by
      rw [← inherits_congr structural1, Inherits]
      refine and_congr_right fun _ => ?_
      simp only [records.sizes.taken, interaction, named]
      constructor
      · rintro ⟨path, hx, r, hr, hsize, hpath⟩
        exact ⟨r, hr, hsize, path, hpath, hx⟩
      · rintro ⟨r, hr, hsize, path, hpath, hx⟩
        exact ⟨path, hx, r, hr, hsize, hpath⟩
    have left : t1.interaction.canvasSizes.get x = some size ↔
        g.interaction.canvasSizes.get x = some size ∧ x ∉ removed := by
      rw [answered.sizes, ← interaction, ← records.sizes.left, ← listed.sizes]
      rfl
    rw [screened.sizes, recorded.sizes, inherits, left, or_comm]
    refine or_congr_left (and_iff_left_of_imp fun hkept hfresh => ?_)
    -- a staged node had no size before
    obtain ⟨frontier, tops, site, root, e⟩ := b.grafted
    exact fresh_not_mounted e h hfresh.1 (mounted_of_asks (r.sizes x size hkept.1))
  · intro x serial
    have left : (cleared g1).interaction.keyboard.serials.get x = some serial ↔
        g.interaction.keyboard.serials.get x = some serial ∧ x ∉ removed := by
      rw [← interaction, ← records.serials.left, ← listed.serials]
      rfl
    rw [keyboard, answered.serials, left, serial_congr (g := cleared g1) structural]
  · obtain ⟨asked, hasked, hsub, hmem⟩ := answered.requests
    refine ⟨asked, ?_, hsub.nodup (asking_distinct b.distinct), hsub.subset, fun x hx => ?_⟩
    · rw [keyboard, hasked, ← interaction, ← records.requests, ← listed.requests]
      rfl
    · rw [hmem x hx, ← unasked_congr (g := cleared g1) structural, Unasked]
      refine exists_congr fun path => and_congr_right fun _ => not_congr ?_
      rw [records.serials.taken, interaction, named]
  · rw [keyboard, answered.staged]
    rfl

end Passing

section Surviving

variable [DecidableEq K] {g v : MountedGraph K} {removed : List ℕ} {nodes : List (Node K)} {x : ℕ}

theorem rebuilt_stays (h : Shape g) (b : Rebuilt g v removed nodes) :
    Stays g v x ↔ (forest g).Mounted x ∧ x ∉ removed := by
  obtain ⟨frontier, tops, site, root, e⟩ := b.grafted
  rw [Stays, ← mounted_iff, ← mounted_iff, e.mounted h]
  constructor
  · rintro ⟨hm, ⟨-, hr⟩ | hid⟩
    · exact ⟨hm, hr⟩
    · exact absurd hm (fresh_not_mounted e h hid)
  · rintro ⟨hm, hr⟩
    exact ⟨hm, .inl ⟨hm, hr⟩⟩

theorem rebuilt_gone (h : Shape g) (b : Rebuilt g v removed nodes) : Gone g v x ↔ x ∈ removed := by
  obtain ⟨frontier, tops, site, root, e⟩ := b.grafted
  rw [Gone, ← Option.not_isSome_iff_eq_none, ← mounted_iff, ← mounted_iff, e.mounted h]
  constructor
  · rintro ⟨hm, hgone⟩
    by_contra hr
    exact hgone (.inl ⟨hm, hr⟩)
  · intro hr
    have hm := b.gone x hr
    refine ⟨hm, ?_⟩
    rintro (⟨-, hkept⟩ | hid)
    · exact hkept hr
    · exact fresh_not_mounted e h hid hm

theorem rebuilt_fresh (h : Shape g) (b : Rebuilt g v removed nodes) : Fresh g v x ↔ x ∈ ids nodes := by
  obtain ⟨frontier, tops, site, root, e⟩ := b.grafted
  rw [Fresh, ← Option.not_isSome_iff_eq_none, ← mounted_iff, ← mounted_iff, e.mounted h]
  constructor
  · rintro ⟨hnot, ⟨hm, -⟩ | hid⟩
    · exact absurd hm hnot
    · exact hid
  · intro hid
    exact ⟨fresh_not_mounted e h hid, .inr hid⟩

theorem heirs_apart (h : Shape g) (d : Distinguished g) (h' : Shape v) (d' : Distinguished v)
    (r r' x x' : ℕ) (hr : Heir g v r x) (hr' : Heir g v r' x') : r = r' ↔ x = x' := by
  obtain ⟨path, hg, hv⟩ := hr
  obtain ⟨path', hg', hv'⟩ := hr'
  constructor
  · rintro rfl
    obtain rfl : path = path' := Except.ok.inj (hg.symm.trans hg')
    exact siblings_path_apart h' d'.siblings (path_of_identity hv) (path_of_identity hv')
  · rintro rfl
    obtain rfl : path = path' := Except.ok.inj (hv.symm.trans hv')
    exact siblings_path_apart h d.siblings (path_of_identity hg) (path_of_identity hg')

theorem survives_rebuilt (s : Sound g) (s' : Sound v) (r : Recorded g)
    (b : Rebuilt g v removed nodes) : Survives g v := by
  have passed := rebuilt_passed s.shape s.distinguished r b
  constructor
  · intro hold x
    obtain ⟨i, handed, kept⟩ := passed.held
    have stays : Stays g v x ∧ x ∈ heldBy g.interaction hold ↔
        x ∈ heldBy g.interaction hold ∧ x ∉ removed := by
      rw [rebuilt_stays s.shape b]
      constructor
      · rintro ⟨⟨-, hr⟩, hx⟩
        exact ⟨hx, hr⟩
      · rintro ⟨hx, hr⟩
        exact ⟨⟨mounted_of_held r hx, hr⟩, hx⟩
    simp only [kept, handed, stays, rebuilt_fresh s.shape b, rebuilt_gone s.shape b]
  · intro x size
    have stays : Stays g v x ∧ g.interaction.canvasSizes.get x = some size ↔
        g.interaction.canvasSizes.get x = some size ∧ x ∉ removed := by
      rw [rebuilt_stays s.shape b]
      constructor
      · rintro ⟨⟨-, hr⟩, hx⟩
        exact ⟨hx, hr⟩
      · rintro ⟨hx, hr⟩
        exact ⟨⟨mounted_of_asks (r.sizes x size hx), hr⟩, hx⟩
    simp only [passed.sizes, stays, rebuilt_fresh s.shape b, rebuilt_gone s.shape b]
  · obtain ⟨asked, hasked, distinct, hsub, hmem⟩ := passed.asked
    refine ⟨asked, hasked, distinct, fun x => ?_⟩
    simp only [rebuilt_fresh s.shape b, rebuilt_gone s.shape b]
    constructor
    · intro hx
      obtain ⟨hid, hserial⟩ := (asking_serial s.shape b).mp (hsub hx)
      obtain ⟨path, hpath, hnone⟩ := (hmem x (hsub hx)).mp hx
      refine ⟨hid, hserial, ?_⟩
      rintro ⟨q, hq, hsame, path', hg, hv⟩
      obtain rfl : path' = path := named_single hv hpath
      exact hnone ⟨q, hq, (r.serials q _).mpr ⟨hserial, hsame⟩, hg⟩
    · rintro ⟨hid, hserial, hnone⟩
      have hasking := (asking_serial s.shape b).mpr ⟨hid, hserial⟩
      obtain ⟨path, hpath, hlen⟩ := path_exists s'.shape (mounted_of_serial hserial)
      have hnamed : Named v x path := identity_of_path hpath hlen
      refine (hmem x hasking).mpr ⟨path, hnamed, ?_⟩
      rintro ⟨q, hq, hsame, hg⟩
      exact hnone ⟨q, hq, ((r.serials q _).mp hsame).2, path, hg, hnamed⟩
  · exact heirs_apart s.shape s.distinguished s'.shape s'.distinguished

/-- Taking the same nodes out of every set leaves the sets as they lie to one another. -/
theorem held_filtered {tracks presents inside kept : ℕ → Prop} {i i' : Interaction}
    (h : HeldIn tracks presents inside i)
    (sets : ∀ hold x, x ∈ heldBy i' hold ↔ x ∈ heldBy i hold ∧ kept x) :
    HeldIn tracks presents inside i' := by
  refine ⟨fun x hx => h.tracked x ((sets .hovered x).mp hx).1, fun x hx => h.presenting x ?_,
    fun x hx => ?_, fun x hx => ?_⟩
  · exact hx.imp (fun hx => ((sets .pending x).mp hx).1)
      (Or.imp (fun hx => ((sets .shown x).mp hx).1) fun hx => ((sets .focusWithin x).mp hx).1)
  · obtain ⟨hx, hkept⟩ := (sets .pending x).mp hx
    obtain ⟨hhover, hclosed⟩ := h.waiting x hx
    exact ⟨(sets .hovered x).mpr ⟨hhover, hkept⟩, fun hshown => hclosed ((sets .shown x).mp hshown).1⟩
  · obtain ⟨hx, hkept⟩ := (sets .shown x).mp hx
    exact (h.reason x hx).imp (fun hx => (sets .hovered x).mpr ⟨hx, hkept⟩)
      fun hx => (sets .focusWithin x).mpr ⟨hx, hkept⟩

theorem recorded_rebuilt (s : Sound g) (s' : Sound v) (r : Recorded g)
    (b : Rebuilt g v removed nodes) : Recorded v := by
  have passed := rebuilt_passed s.shape s.distinguished r b
  obtain ⟨frontier, tops, site, root, e⟩ := b.grafted
  have unmounted {x : ℕ} (hm : (forest g).Mounted x) : x ∉ ids nodes := fun hid =>
    fresh_not_mounted e s.shape hid hm
  constructor
  · obtain ⟨i, handed, kept⟩ := passed.held
    refine held_filtered (held_handed r.held handed (fun x hr ht => ⟨?_, fun _ => trivial⟩)
      (fun x hr hp => ⟨?_, fun _ => trivial⟩) (fun _ _ _ _ => trivial)
      (fun q q' x hq hq' => ?_) fun x hid hp => ?_) kept
    · rw [tracks_of_kind (e.kind_kept s.shape (mounted_of_tracks ht) hr)]
      exact ht
    · have hm := mounted_of_presents hp
      exact presents_of_kind (e.kind_kept s.shape hm hr) (b.count x (unmounted hm) hr) hp
    · exact (heirs_apart s.shape s.distinguished s'.shape s'.distinguished q q' x x hq hq').mpr rfl
    · exact unmounted (mounted_of_presents hp) hid
  · intro x size hx
    rcases (passed.sizes x size).mp hx with ⟨hx, hr⟩ | ⟨-, hasks, -⟩
    · have hasks := r.sizes x size hx
      rw [asks_of_kind (e.kind_kept s.shape (mounted_of_asks hasks) hr)]
      exact hasks
    · exact hasks
  · intro x serial
    rw [passed.serials]
    constructor
    · rintro (⟨hx, hserial⟩ | ⟨-, hx, hr⟩)
      · exact ⟨hserial ▸ ((asking_serial s.shape b).mp hx).2, hserial⟩
      · obtain ⟨hne, hserial⟩ := (r.serials x serial).mp hx
        have hm : (forest g).Mounted x := mounted_of_serial (hserial ▸ hne)
        exact ⟨hne, (serial_of_kind (e.kind_kept s.shape hm hr)).trans hserial⟩
    · rintro ⟨hne, hserial⟩
      have hm : (forest v).Mounted x := mounted_of_serial (hserial ▸ hne)
      rcases (e.mounted s.shape x).mp hm with ⟨hm, hr⟩ | hid
      · have hsame := serial_of_kind (e.kind_kept s.shape hm hr)
        refine .inr ⟨fun hx => ?_, (r.serials x serial).mpr ⟨hne, hsame.symm.trans hserial⟩, hr⟩
        exact unmounted hm ((asking_serial s.shape b).mp hx).1
      · exact .inl ⟨(asking_serial s.shape b).mpr ⟨hid, hserial ▸ hne⟩, hserial⟩
  · exact passed.staged

theorem survives_same (s : Sound g) (r : Recorded g) : Survives g g := by
  have stays {x : ℕ} (hm : (forest g).Mounted x) : Stays g g x :=
    ⟨mounted_iff.mp hm, mounted_iff.mp hm⟩
  have never {x : ℕ} (h : Fresh g g x) : False := by
    have := h.2
    rw [h.1] at this
    cases this
  constructor
  · intro hold x
    constructor
    · intro hx
      exact ⟨.inl ⟨stays (mounted_of_held r hx), hx⟩, fun hne => absurd rfl hne⟩
    · rintro ⟨⟨-, hx⟩ | ⟨hfresh, -⟩, -⟩
      · exact hx
      · exact (never hfresh).elim
  · intro x size
    constructor
    · intro hx
      exact .inl ⟨stays (mounted_of_asks (r.sizes x size hx)), hx⟩
    · rintro (⟨-, hx⟩ | ⟨hfresh, -⟩)
      · exact hx
      · exact (never hfresh).elim
  · refine ⟨[], (List.append_nil _).symm, List.nodup_nil, fun x => ?_⟩
    simp only [List.not_mem_nil, false_iff]
    rintro ⟨hfresh, -⟩
    exact never hfresh
  · exact heirs_apart s.shape s.distinguished s.shape s.distinguished

theorem patch_survives (s : Sound g) (r : Recorded g)
    {hashOrder : Enumeration K (Option (KeyedChild K))} {patch : Patch K} {a : GraphApply K}
    (hrun : (apply hashOrder patch).run g = .ok a v) : Survives g v ∧ Recorded v := by
  rcases patch_rebuilt s.shape hrun with rfl | ⟨removed, nodes, b⟩
  · exact ⟨survives_same s r, r⟩
  · have s' := sound_patched s ⟨hashOrder, a, hrun⟩
    exact ⟨survives_rebuilt s s' r b, recorded_rebuilt s s' r b⟩

end Surviving

section Events

variable {g v : MountedGraph K} {i : Interaction} {id : ℕ}

theorem turn_sizes {within : Bool} {shows : ℕ → Bool} (moved : Interaction × List ℕ) (id : ℕ) :
    (focusTurn shows within moved id).1.canvasSizes = moved.1.canvasSizes := by
  unfold focusTurn popoverFocus
  split
  · rfl
  · split
    · rfl
    · split
      · rfl
      · split <;> rfl

theorem turns_sizes {within : Bool} {shows : ℕ → Bool} (ids : List ℕ) (moved : Interaction × List ℕ) :
    (ids.foldl (focusTurn shows within) moved).1.canvasSizes = moved.1.canvasSizes := by
  induction ids generalizing moved with
  | nil => rfl
  | cons id rest ih => exact (ih _).trans (turn_sizes moved id)

theorem moved_sizes {shows : ℕ → Bool} {containing : List ℕ} :
    (focusWithin shows containing i).1.canvasSizes = i.canvasSizes :=
  (turns_sizes containing _).trans (turns_sizes _ _)

theorem elapsed_sizes : (popoverElapse id i).1.canvasSizes = i.canvasSizes := by
  unfold popoverElapse
  dsimp only
  split <;> rfl

theorem recorded_interaction (r : Recorded g)
    (held : HeldIn (fun x => tracksHover g x = true) (fun x => g.presents x = true) (fun _ => True) i)
    (keyboard : i.keyboard = g.interaction.keyboard) (sizes : i.canvasSizes = g.interaction.canvasSizes) :
    Recorded (withInteraction g i) := by
  refine ⟨held, fun x size hx => r.sizes x size (sizes ▸ hx), fun x serial => ?_, ?_⟩
  · refine Iff.trans ?_ (r.serials x serial)
    rw [← keyboard]
    rfl
  · rw [← r.staged, ← keyboard]
    rfl

variable [DecidableEq K]

theorem sound_taken (s : Sound g) : Sound (requestsTaken g) := by
  have read : Sound (withInteraction g (requestsTaken g).interaction) := by
    obtain ⟨shape, ⟨⟨owner, exact, howned⟩, armed⟩, distinguished⟩ := s
    exact ⟨⟨shape.orders, shape.linked, shape.weighed, shape.issued⟩,
      ⟨⟨owner, exact, fun x label enabled hx => owned_interaction (howned x label enabled hx)⟩, armed⟩,
      distinguished.own, distinguished.siblings⟩
  exact read

theorem take_request_ok {found : Option ℕ} (h : takeFocusRequest.run g = .ok found v) :
    v = requestsTaken g := by
  simp only [takeFocusRequest, bind_ok, get_ok, modify_ok, query_run_ok] at h
  obtain ⟨_, _, ⟨rfl, rfl⟩, _, _, rfl, -, rfl⟩ := h
  rfl

end Events

section Runs

variable [DecidableEq K] {g v : MountedGraph K}

/-- What a host tells the graph, and asks of it. -/
inductive HostEvent (K : Type) where
  | interacted (event : Event K)
  | reported (id : ℕ) (size : ℕ × ℕ)
  | requested

def hostCall (hashOrder : Enumeration K (Option (KeyedChild K))) : HostEvent K → GraphMethod K Unit
  | .interacted event => call hashOrder event
  | .reported id size => modify fun g => (reportCanvasSize g id size).2
  | .requested => do
    let _ ← takeFocusRequest
    return ()

/-- Refused patches are no steps. -/
def hosting (K : Type) [DecidableEq K] : System (MountedGraph K) (HostEvent K) where
  initial := .empty
  Step g event v := ∃ hashOrder, (hostCall hashOrder event).run g = .ok () v

theorem event_recorded {event : Event K} (s : Sound g) (r : Recorded g)
    {hashOrder : Enumeration K (Option (KeyedChild K))}
    (hcall : (call hashOrder event).run g = .ok () v) : Sound v ∧ Recorded v := by
  cases event with
  | pointer id entered =>
    simp only [call, bind_ok, pure_ok] at hcall
    obtain ⟨route, _, hhover, -, rfl⟩ := hcall
    rcases hover_ok hhover with rfl | ⟨-, htracks, rfl⟩
    · exact ⟨s, r⟩
    · refine ⟨sound_interaction s rfl, recorded_interaction r ?_ rfl rfl⟩
      cases entered with
      | true => exact held_entered r.held htracks (fun h => h) trivial
      | false => exact held_left r.held fun h => h
  | elapse id =>
    simp only [call, bind_ok, interact_ok, pure_ok] at hcall
    obtain ⟨_, _, ⟨-, rfl⟩, -, rfl⟩ := hcall
    exact ⟨sound_interaction s elapsed_keyboard,
      recorded_interaction r (held_elapsed r.held id) elapsed_keyboard elapsed_sizes⟩
  | focus focused =>
    simp only [call, popoverFocusMoved, bind_ok, get_ok, query_run_ok, interact_ok, pure_ok] at hcall
    obtain ⟨_, _, ⟨_, _, ⟨rfl, rfl⟩, containing, _, ⟨-, rfl⟩, -, rfl⟩, -, rfl⟩ := hcall
    exact ⟨sound_interaction s moved_keyboard, recorded_interaction r
      (held_moved r.held fun p _ => ⟨fun h => h, trivial⟩) moved_keyboard moved_sizes⟩
  | escape =>
    simp only [call, bind_ok, interact_ok, pure_ok] at hcall
    obtain ⟨_, _, ⟨-, rfl⟩, -, rfl⟩ := hcall
    exact ⟨sound_interaction s rfl, recorded_interaction r (held_dismissed r.held) rfl rfl⟩
  | patch patch =>
    simp only [call, bind_ok, pure_ok] at hcall
    obtain ⟨a, _, hpatch, -, rfl⟩ := hcall
    exact ⟨sound_patched s ⟨hashOrder, a, hpatch⟩, (patch_survives s r hpatch).2⟩

theorem step_recorded {event : HostEvent K} (s : Sound g) (r : Recorded g)
    (step : (hosting K).Step g event v) : Sound v ∧ Recorded v := by
  obtain ⟨hashOrder, hcall⟩ := step
  cases event with
  | interacted event => exact event_recorded s r hcall
  | reported id size =>
    obtain rfl := modify_ok.mp hcall
    unfold reportCanvasSize
    split
    · rename_i hasks
      refine ⟨sound_interaction s rfl, r.held, fun x own hx => ?_, r.serials, r.staged⟩
      dsimp only at hx
      rw [FiniteMap.get_set] at hx
      split at hx
      · rename_i heq
        rw [heq]
        exact hasks
      · exact r.sizes x own hx
    · exact ⟨s, r⟩
  | requested =>
    simp only [hostCall, bind_ok, pure_ok] at hcall
    obtain ⟨found, _, htake, -, rfl⟩ := hcall
    obtain rfl := take_request_ok htake
    exact ⟨sound_taken s, r.held, r.sizes, r.serials, r.staged⟩

omit [DecidableEq K] in
theorem recorded_empty : Recorded (.empty : MountedGraph K) := by
  refine ⟨held_empty, fun x size hx => ?_, fun x serial => ?_, rfl⟩
  · cases hx
  · constructor
    · intro hx
      cases hx
    · rintro ⟨hne, hserial⟩
      exact absurd hserial.symm hne

theorem reached_recorded (h : Reachable (hosting K) g) : Sound g ∧ Recorded g :=
  reachable_invariant (S := hosting K) (P := fun g => Sound g ∧ Recorded g)
    ⟨sound_empty, recorded_empty⟩ (fun _ _ _ h => step_recorded h.1 h.2) h

/-- Whatever a host did before, a rebuild passes the interaction state on by identity. -/
theorem interaction_survives (h : Reachable (hosting K) g)
    {hashOrder : Enumeration K (Option (KeyedChild K))} {patch : Patch K} {a : GraphApply K}
    (hrun : (apply hashOrder patch).run g = .ok a v) : Survives g v ∧ Recorded v := by
  obtain ⟨sound, recorded⟩ := reached_recorded h
  exact patch_survives sound recorded hrun

end Runs

section Examples

def hosted (g : MountedGraph ℕ) (event : HostEvent ℕ) : MountedGraph ℕ :=
  after ((hostCall .sorted event).run g)

theorem hosting_step {g : MountedGraph ℕ} (event : HostEvent ℕ)
    (h : (answer ((hostCall .sorted event).run g)).isOk = true) :
    (hosting ℕ).Step g event (hosted g event) := by
  obtain ⟨⟨⟩, ha⟩ := answer_is_ok h
  exact ⟨.sorted, ha⟩

def askingPopover (id : ℕ) : List (Node ℕ) :=
  [⟨id, .popover "more" 0 false false [] 3, [id + 1, id + 2]⟩,
    ⟨id + 1, .button "open" true false false, []⟩, ⟨id + 2, .text, []⟩]

def resting : MountedGraph ℕ :=
  hosted (hosted .empty (.interacted (.patch (.mount 1 (askingPopover 1))))) (.interacted (.pointer 1 true))

def rebuilt : MountedGraph ℕ := afterPatch resting (.replace 1 4 (askingPopover 4))

theorem resting_rebuilt : Survives resting rebuilt ∧ Recorded rebuilt := by
  have reached : Reachable (hosting ℕ) resting :=
    reachable_step (reachable_step (reachable_initial _) (hosting_step _ (by decide +kernel)))
      (hosting_step _ (by decide +kernel))
  have accepted : (answer ((apply .sorted (.replace 1 4 (askingPopover 4))).run resting)).isOk = true := by
    decide +kernel
  obtain ⟨a, hrun⟩ := answer_is_ok accepted
  exact interaction_survives reached hrun

/-- It stays open, and asks for focus once in all. -/
example : rebuilt.interaction.popovers.shown = {4} ∧ rebuilt.interaction.keyboard.requests = [1] := by
  decide +kernel

end Examples

end InteractionRuns
