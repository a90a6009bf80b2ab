import RocGui.PopoverCarries

/-! Hover and popovers over every run of pointer, focus, delay and Escape events and of
accepted patches. -/
namespace PopoverRuns

open FiniteMaps KeyedLists Methods KeyedOrder GraphState FragmentValidation GraphPatches
open FragmentTrees GraphForests GraphMounting GraphFrames GraphExchanges GraphGrafts
open GraphReplacements KeyedStaging KeyedTransactions GraphRuns GraphLedgers GraphListings
open KeyedListings GraphOwners GraphSegments GraphIdentities KeyedIdentities ElementIdentities
open IdentityPaths DialogRegions Popovers PopoverCarries PointerTrees Transitions

variable {K : Type} [DecidableEq K]

section Counts

variable {g v : MountedGraph K} {x : ℕ}

omit [DecidableEq K] in
def childCount (g : MountedGraph K) (x : ℕ) : Option ℕ := (g.node x).map (·.children.length)

omit [DecidableEq K] in
theorem count_of_content (h : content v x = content g x) : childCount v x = childCount g x := by
  rw [childCount, childCount, node_of_content, node_of_content, h]

omit [DecidableEq K] in
theorem count_plain {c : ℕ → Option ℕ} (message : String) (id : ℕ)
    (f : MountedNode K → MountedNode K) (plain : Plain f) :
    Preserves (fun g => childCount g = c) (alter message id f) := by
  intro g hg
  cases he : g.nodes.get id with
  | none =>
    rw [alter, run_bind_ok (EStateM.run_get g), he]
    exact hg
  | some e =>
    rw [alter_run _ _ he, after_ok, ← hg]
    funext x
    rw [childCount, childCount, MountedGraph.node, MountedGraph.node, FiniteMap.get_set]
    split
    · rename_i hx
      rw [hx, he]
      exact congrArg some (plain e).2.1
    · rfl

omit [DecidableEq K] in
theorem count_segment {c : ℕ → Option ℕ} (message : String) (child : ℕ × IdentitySegment) :
    Preserves (fun g : MountedGraph K => childCount g = c) (setSegment message child) := by
  intro g hg
  have := preserves_setSegment (c := outline g) message child g rfl
  rw [← hg]
  funext x
  exact count_of_content (congrFun (congrArg Outline.content this) x)

omit [DecidableEq K] in
theorem count_of_withoutInteraction (h : withoutInteraction v = withoutInteraction g) :
    childCount v x = childCount g x := by
  rw [childCount, childCount, PopoverCarries.node_congr h]

theorem replacement_count {r : Replacement K} {plan : ReplacementPlan K} {a : GraphApply K}
    (h : Shape g) (hplan : planReplacement r g = .ok plan)
    (hrun : (applyReplacement r).run g = .ok a v) (hid : x ∉ ids r.nodes)
    (hr : x ∉ plan.removedIds) : childCount v x = childCount g x := by
  simp only [applyReplacement, commitReplacement, bind_ok, get_ok, query_run_ok, pure_ok] at hrun
  obtain ⟨_, _, ⟨rfl, rfl⟩, plan', _, ⟨hplan', rfl⟩, _, _, ⟨rfl, rfl⟩, carried, g0, hcarry, ended, g1,
    hexchange, _, g2, hfinish, _, _, ⟨rfl, rfl⟩, -, rfl⟩ := hrun
  obtain rfl := Except.ok.inj (hplan.symm.trans hplan')
  have carry := (outline_of_withoutInteraction
    (kept_of_preserves (fun c => preserves_carry _) hcarry)).symm
  obtain ⟨t, newSize, u, s, -, hattach⟩ := exchange_ok (planned h hplan) carry hexchange
  have attached := kept_of_preserves (fun c => frame_attach (fun m id f => count_plain m id f)
    count_segment (fun _ _ h => h) _ _ _ _) hattach
  have finish := kept_of_preserves (fun c => preserves_finish _ _ _) hfinish
  rw [count_of_withoutInteraction finish, attached]
  refine count_of_content ?_
  rw [s.content x hid, if_neg hr]

theorem commit_count {container newRevision : ℕ} {entry : MountedNode K}
    {prepared : PreparedFragments K} {j : KeyedOrderJournal K} {l₀ l : KeyedList K (ℕ × ℕ)}
    {a : KeyedGraphApply K} {previous : Option ℕ} (he : g.nodes.get container = some entry)
    (p : Prepared g container l₀ prepared j l)
    (hcommit : (commitKeyed container newRevision j prepared previous).run
      (withOrder container entry none g) = .ok a v)
    (hid : x ∉ ids (stagedNodes prepared.fragments)) (hr : x ∉ prepared.removedIds) :
    childCount v x = childCount g x := by
  simp only [commitKeyed, exchangeKeyed, bind_ok, query_run_ok, pure_ok] at hcommit
  obtain ⟨oldSize, _, ⟨hsize, rfl⟩, carried, g0, hcarry, ended, _, ⟨instances, t0, hretire, _, t, hmount,
    _, t1, hresize, _, t2, hput, -, rfl⟩, _, g1, hfinish, -, rfl⟩ := hcommit
  have carry : outline (withOrder container entry none g) = outline g0 :=
    (outline_of_withoutInteraction (kept_of_preserves (fun c => preserves_carry _) hcarry)).symm
  have mounted := mount_fragments (spliced_outline (spliced_retired (retire_all hretire)) carry)
    p.fragments (by simpa using p.distinct) (by simp [childIds]) hmount
  have resized := kept_of_preserves (fun c => frame_container
    (fun m id f => count_plain m id f) _ _ _) hresize
  have put := kept_of_preserves (fun c => frame_order
    (fun m id f => count_plain m id f) _ _) hput
  have finish := kept_of_preserves (fun c => preserves_finish _ _ _) hfinish
  rw [count_of_withoutInteraction finish, put, resized, childCount, childCount, node_of_content,
    mounted.content x (by simpa using hid), if_neg hr, (reordered he none).2.2]
  split
  · rename_i hx
    rw [hx, MountedGraph.node, he]
    rfl
  · rw [← node_of_content]

end Counts

section Handing

variable {tracks presents inside tracks' presents' inside' : ℕ → Prop} {i i' : Interaction}
  {removed staged : List ℕ} {heir : ℕ → ℕ → Prop}

omit [DecidableEq K] in
/-- What retired nodes hold goes to one heir each, and what stays keeps what it holds. -/
theorem held_handed (h : HeldIn tracks presents inside i)
    (sets : ∀ hold x, x ∈ heldBy i' hold ↔ x ∈ heldBy i hold ∧ x ∉ removed ∨
      x ∈ staged ∧ tracks' x ∧ (hold ≠ .hovered → presents' x) ∧
        ∃ r ∈ removed, r ∈ heldBy i hold ∧ heir r x)
    (tracked : ∀ x, x ∉ removed → tracks x → tracks' x ∧ (inside x → inside' x))
    (presenting : ∀ x, x ∉ removed → presents x → presents' x ∧ (inside x → inside' x))
    (adopted : ∀ r x, heir r x → inside r → inside' x)
    (once : ∀ r r' x, heir r x → heir r' x → r = r')
    (unused : ∀ x ∈ staged, ¬presents x) : HeldIn tracks' presents' inside' i' := by
  have inside_of {hold : Hold} {r : ℕ} (hr : r ∈ heldBy i hold) : inside r := by
    cases hold with
    | hovered => exact (h.tracked r hr).2
    | pending => exact (h.presenting r (.inl hr)).2
    | shown => exact (h.presenting r (.inr (.inl hr))).2
    | focusWithin => exact (h.presenting r (.inr (.inr hr))).2
  have presents_of {hold : Hold} {x : ℕ} (hne : hold ≠ .hovered) (hx : x ∈ heldBy i hold) :
      presents x := by
    cases hold with
    | hovered => exact absurd rfl hne
    | pending => exact (h.presenting x (.inl hx)).1
    | shown => exact (h.presenting x (.inr (.inl hx))).1
    | focusWithin => exact (h.presenting x (.inr (.inr hx))).1
  have present (hold : Hold) {x : ℕ} (hne : hold ≠ .hovered) (hx : x ∈ heldBy i' hold) :
      presents' x ∧ inside' x := by
    rcases (sets hold x).mp hx with ⟨hx, hr⟩ | ⟨-, -, hpresents, r, -, hheld, hheir⟩
    · have := presenting x hr (presents_of hne hx)
      exact ⟨this.1, this.2 (inside_of hx)⟩
    · exact ⟨hpresents hne, adopted r x hheir (inside_of hheld)⟩
  refine ⟨fun x hx => ?_, fun x hx => ?_, fun x hx => ⟨?_, fun hshown => ?_⟩, fun x hx => ?_⟩
  · rcases (sets .hovered x).mp hx with ⟨hx, hr⟩ | ⟨-, htracks, -, r, -, hheld, hheir⟩
    · have := tracked x hr (h.tracked x hx).1
      exact ⟨this.1, this.2 (h.tracked x hx).2⟩
    · exact ⟨htracks, adopted r x hheir (inside_of hheld)⟩
  · rcases hx with hx | hx | hx
    · exact present Hold.pending (by simp) hx
    · exact present Hold.shown (by simp) hx
    · exact present Hold.focusWithin (by simp) hx
  · refine (sets .hovered x).mpr (((sets .pending x).mp hx).imp ?_ ?_)
    · exact And.imp_left fun hx => (h.waiting x hx).1
    · rintro ⟨hstaged, htracks, -, r, hr, hheld, hheir⟩
      exact ⟨hstaged, htracks, by simp, r, hr, (h.waiting r hheld).1, hheir⟩
  · -- a staged node took both from one retired node, and that node never held both
    rcases (sets .pending x).mp hx with ⟨hx, -⟩ | ⟨hstaged, -, -, r, -, hheld, hheir⟩
    · rcases (sets .shown x).mp hshown with ⟨hshown, -⟩ | ⟨hstaged, -⟩
      · exact (h.waiting x hx).2 hshown
      · exact unused x hstaged (h.presenting x (.inl hx)).1
    · rcases (sets .shown x).mp hshown with ⟨hshown, -⟩ | ⟨-, -, -, r', -, hheld', hheir'⟩
      · exact unused x hstaged (h.presenting x (.inr (.inl hshown))).1
      · obtain rfl := once r r' x hheir hheir'
        exact (h.waiting r hheld).2 hheld'
  · rcases (sets .shown x).mp hx with ⟨hx, hr⟩ | ⟨hstaged, htracks, hpresents, r, hr, hheld, hheir⟩
    · exact (h.reason x hx).imp (fun hx => (sets .hovered x).mpr (.inl ⟨hx, hr⟩))
        fun hx => (sets .focusWithin x).mpr (.inl ⟨hx, hr⟩)
    · refine (h.reason r hheld).imp (fun hheld => (sets .hovered x).mpr (.inr ?_))
        fun hheld => (sets .focusWithin x).mpr (.inr ?_)
      · exact ⟨hstaged, htracks, by simp, r, hr, hheld, hheir⟩
      · exact ⟨hstaged, htracks, fun _ => hpresents (by simp), r, hr, hheld, hheir⟩

end Handing

section Patching

variable {g v : MountedGraph K} {removed : List ℕ} {nodes : List (Node K)} {frontier : Finset ℕ}
  {tops : List (ℕ × Option (ParentLocation K))} {site root : Option ℕ}

omit [DecidableEq K] in
/-- Whatever dialog is mounted, `x` lies in it. -/
def InsideDialog (g : MountedGraph K) (x : ℕ) : Prop := ∀ d, g.dialog = some d →
  (g.isDescendantOf x d : Reading K _) = .ok true

omit [DecidableEq K] in
/-- Hovered nodes track hover; pending, open and focused ones are popovers with content; no
node is pending and open; an open one is held open by the pointer or by focus; and all of
them lie in the dialog, when one is mounted. -/
def PopoversHeld (g : MountedGraph K) : Prop :=
  HeldIn (fun x => tracksHover g x = true) (fun x => g.presents x = true) (InsideDialog g)
    g.interaction

omit [DecidableEq K] in
theorem mounted_of_node {x : ℕ} {n : Node K} (h : g.node x = some n) : (g.nodes.get x).isSome := by
  rw [← Option.isSome_map (f := (·.node))]
  exact Option.isSome_of_eq_some h

theorem mounted_of_tracks {x : ℕ} (h : tracksHover g x = true) : (forest g).Mounted x := by
  cases hn : g.node x with
  | none =>
    rw [tracksHover, hn] at h
    cases h
  | some n => exact mounted_iff.mpr (mounted_of_node hn)

theorem mounted_of_presents {x : ℕ} (h : g.presents x = true) : (forest g).Mounted x := by
  cases hn : g.node x with
  | none =>
    rw [MountedGraph.presents, hn] at h
    cases h
  | some n => exact mounted_iff.mpr (mounted_of_node hn)

omit [DecidableEq K] in
theorem tracks_of_kind {x : ℕ} (kind : (v.node x).map (·.kind) = (g.node x).map (·.kind)) :
    tracksHover v x = tracksHover g x := by
  have tracks (g : MountedGraph K) : tracksHover g x =
      ((g.node x).map (·.kind)).elim false NodeKind.tracksHover := by
    rw [tracksHover]
    cases g.node x <;> rfl
  rw [tracks, tracks, kind]

omit [DecidableEq K] in
theorem presents_iff {x : ℕ} : g.presents x = true ↔ ∃ label delay enter exit shortcuts serial count,
    (g.node x).map (·.kind) = some (.popover label delay enter exit shortcuts serial) ∧
      childCount g x = some count ∧ 1 < count := by
  rw [MountedGraph.presents, childCount]
  cases hn : g.node x with
  | none => simp
  | some n =>
    obtain ⟨id, kind, children⟩ := n
    cases kind <;> simp

omit [DecidableEq K] in
theorem presents_of_kind {x : ℕ} (kind : (v.node x).map (·.kind) = (g.node x).map (·.kind))
    (count : childCount v x = childCount g x) : g.presents x = true → v.presents x = true := by
  rw [presents_iff, presents_iff, kind, count]
  exact id

variable {start t : MountedGraph K}

structure Patched (g v start t : MountedGraph K) (removed : List ℕ) (nodes : List (Node K))
    (frontier : Finset ℕ) (tops : List (ℕ × Option (ParentLocation K))) (site root : Option ℕ) :
    Prop where
  grafted : Grafted g v removed nodes frontier tops site root
  placed : ∀ q ∈ site, ∀ c, (c, none) ∉ tops
  count : ∀ x, x ∉ ids nodes → x ∉ removed → childCount v x = childCount g x
  handed : Handed start v t removed (ids nodes) g.dialog
  interaction : start.interaction = g.interaction
  paths : ∀ x path, PathTo start x path → PathTo g x path

theorem Patched.presenting (p : Patched g v start t removed nodes frontier tops site root) (h : Shape g)
    {x : ℕ} (hr : x ∉ removed) (hp : g.presents x = true) : v.presents x = true := by
  have hm := mounted_of_presents hp
  exact presents_of_kind (p.grafted.kind_kept h hm hr)
    (p.count x (fun hid => fresh_not_mounted p.grafted h hid hm) hr) hp

theorem patched_held (h : Shape g) (idx : Indexed g) (d : Distinguished g) (h' : Shape v)
    (idx' : Indexed v) (d' : Distinguished v)
    (p : Patched g v start t removed nodes frontier tops site root) (held : PopoversHeld g) :
    PopoversHeld v := by
  have e := p.grafted
  have exact := exact_indices idx
  have exact' := exact_indices idx'
  have heir {r x : ℕ} (hheir : Heir start v r x) : ∃ path, PathTo g r path ∧ PathTo v x path := by
    obtain ⟨path, hr, hx⟩ := hheir
    exact ⟨path, p.paths r path (path_of_identity hr), path_of_identity hx⟩
  have kept {x : ℕ} (hm : (forest g).Mounted x) : x ∉ ids nodes := fun hid =>
    fresh_not_mounted e h hid hm
  have once (r r' x : ℕ) (hr : Heir start v r x) (hr' : Heir start v r' x) : r = r' := by
    obtain ⟨path, hg, hv⟩ := heir hr
    obtain ⟨path', hg', hv'⟩ := heir hr'
    rw [path_unique hv hv'] at hg
    exact siblings_path_apart h d.siblings hg hg'
  have unused (x : ℕ) (hx : x ∈ ids nodes) : ¬g.presents x = true := fun hp =>
    kept (mounted_of_presents hp) hx
  have tracked {x : ℕ} (hr : x ∉ removed) (ht : tracksHover g x = true) :
      tracksHover v x = true := by
    rw [tracks_of_kind (e.kind_kept h (mounted_of_tracks ht) hr)]
    exact ht
  have sets := p.handed.held
  simp only [p.interaction] at sets
  obtain ⟨structural, hlast⟩ := p.handed.finished
  rcases hlast with ⟨hlast, hdialog⟩ | ⟨blocked, hlast, hinside⟩
  · -- the dialog, when there is one, is the one that was mounted
    have inside {x : ℕ} (hm : (forest g).Mounted x) (hr : x ∉ removed) (hx : InsideDialog g x) :
        InsideDialog v x := by
      intro dialog hd
      have hd' : g.dialog = some dialog := (hdialog.resolve_left (by simp [hd])).symm.trans hd
      obtain ⟨label, hkind⟩ := (exact.dialog dialog).mp hd'
      obtain ⟨label', hkind'⟩ := (exact'.dialog dialog).mp hd
      have hgone : dialog ∉ removed := fun hgone => by
        rcases (e.mounted h dialog).mp (mounted_of_kind hkind') with ⟨-, hkept⟩ | hid
        · exact hkept hgone
        · exact kept (mounted_of_kind hkind) hid
      exact (inside_iff h').mpr
        ((below_kept e h p.placed hgone ((inside_iff h).mp (hx dialog hd'))).1 hr)
    rw [PopoversHeld, hlast]
    refine held_handed held sets (fun x hr ht => ⟨tracked hr ht, ?_⟩)
      (fun x hr hp => ⟨p.presenting h hr hp, ?_⟩) (fun r x hheir hr => ?_) once unused
    · exact inside (mounted_of_tracks ht) hr
    · exact inside (mounted_of_presents hp) hr
    · intro dialog hd
      have hd' : g.dialog = some dialog := (hdialog.resolve_left (by simp [hd])).symm.trans hd
      obtain ⟨path, hg, hv⟩ := heir hheir
      exact (inside_iff h').mpr (inside_by_path h h' exact exact' d.own d'.own hd' hd hg hv
        ((inside_iff h).mp (hr dialog hd')))
  · have anywhere : HeldIn (fun x => tracksHover v x = true) (fun x => v.presents x = true)
        (fun _ => True) t.interaction :=
      held_handed held sets (fun x hr ht => ⟨tracked hr ht, fun _ => trivial⟩)
        (fun x hr hp => ⟨p.presenting h hr hp, fun _ => trivial⟩) (fun _ _ _ _ => trivial) once unused
    rw [PopoversHeld, hlast]
    refine held_blocked anywhere fun x hout hx dialog hd => ?_
    simp only [Finset.mem_union] at hx
    rcases hx with ((hx | hx) | hx) | hx
    · exact hinside .hovered x hx hout dialog hd
    · exact hinside .shown x hx hout dialog hd
    · exact hinside .pending x hx hout dialog hd
    · exact hinside .focusWithin x hx hout dialog hd

end Patching

section Steps

variable {g v : MountedGraph K} {patch : Patch K}

structure Sound (g : MountedGraph K) : Prop where
  shape : Shape g
  indexed : Indexed g
  distinguished : Distinguished g

theorem sound_empty : Sound (.empty : MountedGraph K) :=
  ⟨shape_empty, indexed_empty, distinguished_empty⟩

theorem sound_patched (s : Sound g) (step : (accepting K).Step g patch v) : Sound v := by
  refine ⟨step_shape s.shape step, ?_, step_distinguished s.shape s.indexed s.distinguished step⟩
  obtain ⟨hashOrder, a, hrun⟩ := step
  exact (step_turnover s.shape s.indexed hrun).1

theorem replacement_patched {r : Replacement K} {a : GraphApply K} (s : Sound g)
    (hrun : (applyReplacement r).run g = .ok a v) : ∃ start t removed nodes frontier tops site root,
      Patched g v start t removed nodes frontier tops site root := by
  obtain ⟨plan, hplan, e⟩ := replacement_grafted s.shape hrun
  obtain ⟨t, handed⟩ := replacement_handed hplan hrun
  refine ⟨g, t, _, _, _, _, _, _, e, fun q hq c hc => ?_,
    fun x hid hr => replacement_count s.shape hplan hrun hid hr, handed, rfl, fun _ _ hpath => hpath⟩
  obtain ⟨location, hl, -⟩ := Option.map_eq_some_iff.mp hq
  rw [hl, List.mem_singleton] at hc
  cases (Prod.mk.inj hc).2

omit [DecidableEq K] in
theorem path_congr {x : ℕ} {path : ElementIdentity} (parents : v.parentLocation = g.parentLocation)
    (segments : v.cachedSegment = g.cachedSegment) (h : PathTo v x path) : PathTo g x path := by
  induction h with
  | top hp hs => exact .top (parents ▸ hp) (segments ▸ hs)
  | under hp _ hs ih => exact .under (parents ▸ hp) ih (segments ▸ hs)

theorem keyed_patched {hashOrder : Enumeration K (Option (KeyedChild K))}
    {container baseRevision newRevision : ℕ} {operations : List (KeyedGraphOperation K)}
    {a : KeyedGraphApply K} (s : Sound g)
    (hrun : (applyKeyed hashOrder container baseRevision newRevision operations).run g = .ok a v) :
    ∃ start t removed nodes frontier tops site root,
      Patched g v start t removed nodes frontier tops site root := by
  obtain ⟨entry, owner, prepared, j, hentry, -, -, hprepare, hcommit⟩ := apply_keyed_ok hrun
  obtain ⟨l₀, l, p, e⟩ := commit_grafted s.shape hentry hprepare hcommit
  have he := (keyed_base s.shape hentry).1
  obtain ⟨t, handed⟩ := commit_handed hcommit
  have hnodes : prepared.nodes = stagedNodes prepared.fragments := by
    rw [PreparedFragments.nodes, stagedNodes, List.flatMap]
  rw [hnodes] at handed
  refine ⟨_, t, _, _, _, _, _, _, e, fun q hq c hc => ?_, fun x hid hr => commit_count he p hcommit hid hr,
    handed, rfl, fun x path => path_congr (reordered he none).2.1 (segment_withOrder he none)⟩
  obtain ⟨f, hf, heq⟩ := List.mem_map.mp hc
  obtain ⟨i, -, hplace⟩ := placeOf_eq p newRevision hf
  rw [hplace] at heq
  cases (Prod.mk.inj heq).2

theorem step_patched (s : Sound g) (step : (accepting K).Step g patch v) :
    v = g ∨ ∃ start t removed nodes frontier tops site root,
      Patched g v start t removed nodes frontier tops site root := by
  obtain ⟨hashOrder, a, hrun⟩ := step
  cases patch with
  | mount root nodes => exact .inr (replacement_patched s hrun)
  | noChange => exact .inl (noChange_run hrun)
  | replace oldRoot root nodes => exact .inr (replacement_patched s hrun)
  | replaceRetaining oldRoot root nodes retainedRoots => exact .inr (replacement_patched s hrun)
  | keyed container baseRevision newRevision operations =>
    obtain ⟨keyed, hkeyed⟩ := apply_keyed_run hrun
    exact .inr (keyed_patched s hkeyed)

theorem patch_held (s : Sound g) (held : PopoversHeld g)
    (step : (accepting K).Step g patch v) : PopoversHeld v := by
  have s' := sound_patched s step
  rcases step_patched s step with rfl | ⟨start, t, removed, nodes, frontier, tops, site, root, p⟩
  · exact held
  · exact patched_held s.shape s.indexed s.distinguished s'.shape s'.indexed s'.distinguished p held

end Steps

section Events

variable {g v : MountedGraph K} {i : Interaction} {id : ℕ}

def withInteraction (g : MountedGraph K) (i : Interaction) : MountedGraph K :=
  { g with interaction := i }

omit [DecidableEq K] in
theorem owned_interaction {x : ℕ} {o : Option ℕ} (h : OwnedBy g x o) :
    OwnedBy (withInteraction g i) x o := by
  induction h with
  | outermost hp => exact .outermost hp
  | inside hp hk => exact .inside hp hk
  | within hp hk _ ih => exact .within hp hk ih

theorem sound_interaction (s : Sound g) (keyboard : i.keyboard = g.interaction.keyboard) :
    Sound (withInteraction g i) := by
  obtain ⟨shape, ⟨⟨owner, exact, howned⟩, armed⟩, distinguished⟩ := s
  have same : ledger (withInteraction g i) = ledger g := by
    rw [ledger, ledger, withInteraction, keyboard]
  refine ⟨⟨shape.orders, shape.linked, shape.weighed, shape.issued⟩, ⟨⟨owner, ?_, ?_⟩, ?_⟩,
    distinguished.own, distinguished.siblings⟩
  · rw [same]
    exact exact
  · exact fun x label enabled hx => owned_interaction (howned x label enabled hx)
  · rw [same]
    exact armed

omit [DecidableEq K] in
theorem held_interaction (h : HeldIn (fun x => tracksHover g x = true)
    (fun x => g.presents x = true) (InsideDialog g) i) : PopoversHeld (withInteraction g i) := by
  have inside {x : ℕ} (hx : InsideDialog g x) : InsideDialog (withInteraction g i) x := by
    intro d hd
    refine (descendant_congr (g := g) ?_ x d).trans (hx d hd)
    rfl
  exact ⟨fun x hx => (h.tracked x hx).imp_right inside,
    fun x hx => (h.presenting x hx).imp_right inside, h.waiting, h.reason⟩

omit [DecidableEq K] in
theorem interact_ok {α : Type} {f : Interaction → Interaction × α} {a : α} :
    (interact f).run g = .ok a v ↔
      a = (f g.interaction).2 ∧ v = withInteraction g (f g.interaction).1 := by
  simp only [interact, bind_ok, get_ok, modify_ok, pure_ok]
  constructor
  · rintro ⟨_, _, ⟨rfl, rfl⟩, _, _, rfl, rfl, rfl⟩
    exact ⟨rfl, rfl⟩
  · rintro ⟨rfl, rfl⟩
    exact ⟨_, _, ⟨rfl, rfl⟩, ⟨⟩, _, rfl, rfl, rfl⟩

omit [DecidableEq K] in
theorem inside_of_behind (h : behindDialog id g = .ok false) : InsideDialog g id := by
  intro d hd
  rw [behindDialog, hd] at h
  obtain ⟨inside, hinside, h⟩ := except_bind_ok.mp h
  cases inside with
  | true => exact hinside
  | false => cases Except.ok.inj h

omit [DecidableEq K] in
theorem hover_ok {entered : Bool} {route : Option ℕ}
    (h : (hoverTransition id entered).run g = .ok route v) : v = g ∨
      InsideDialog g id ∧ tracksHover g id = true ∧ v = withInteraction g
        (hoverEdge (g.presents id) (delayOf g id) id entered g.interaction).1 := by
  simp only [hoverTransition, bind_ok, get_ok, query_run_ok] at h
  obtain ⟨_, _, ⟨rfl, rfl⟩, behind, _, ⟨hbehind, rfl⟩, h⟩ := h
  cases behind with
  | true => exact .inl (pure_ok.mp h).2.symm
  | false =>
    simp only [Bool.false_eq_true, if_false] at h
    split at h
    · exact .inl (pure_ok.mp h).2.symm
    · rename_i htracks
      simp only [bind_ok, interact_ok, pure_ok] at h
      obtain ⟨changed, _, ⟨-, rfl⟩, -, rfl⟩ := h
      exact .inr ⟨inside_of_behind hbehind, by simpa using htracks, rfl⟩

/-- `p` is reached from `x` through parents of ordinary children. -/
def OrdinarilyAbove (g : MountedGraph K) : ℕ → ℕ → Prop :=
  Relation.ReflTransGen fun c p => (parentOf g c).map (·.1) = some p

omit [DecidableEq K] in
theorem mem_containing {fuel x p : ℕ} {ids : List ℕ}
    (h : containingFrom g fuel (some x) = .ok ids) (hp : p ∈ ids) :
    OrdinarilyAbove g x p ∧ g.presents p = true := by
  induction fuel generalizing x ids with
  | zero => cases h
  | succ fuel ih =>
    rw [containingFrom] at h
    obtain ⟨above, habove, h⟩ := except_bind_ok.mp h
    obtain rfl := Except.ok.inj h
    have further (hp : p ∈ above) : OrdinarilyAbove g x p ∧ g.presents p = true := by
      cases hparent : (parentOf g x).map (·.1) with
      | none =>
        rw [hparent] at habove
        have hnil : above = [] := by cases fuel <;> exact (Except.ok.inj habove).symm
        rw [hnil] at hp
        cases hp
      | some q =>
        rw [hparent] at habove
        exact (ih habove hp).imp_left fun hq => .head hparent hq
    split at hp
    · rename_i hpresents
      rcases List.mem_cons.mp hp with rfl | hp
      · exact ⟨.refl, hpresents⟩
      · exact further hp
    · exact further hp

theorem turn_keyboard {within : Bool} {shows : ℕ → Bool} (moved : Interaction × List ℕ) (id : ℕ) :
    (focusTurn shows within moved id).1.keyboard = moved.1.keyboard := by
  unfold focusTurn popoverFocus
  split
  · rfl
  · split
    · rfl
    · split
      · rfl
      · split <;> rfl

theorem turns_keyboard {within : Bool} {shows : ℕ → Bool} (ids : List ℕ)
    (moved : Interaction × List ℕ) :
    (ids.foldl (focusTurn shows within) moved).1.keyboard = moved.1.keyboard := by
  induction ids generalizing moved with
  | nil => rfl
  | cons id rest ih => exact (ih _).trans (turn_keyboard moved id)

theorem moved_keyboard {shows : ℕ → Bool} {containing : List ℕ} :
    (focusWithin shows containing i).1.keyboard = i.keyboard :=
  (turns_keyboard containing _).trans (turns_keyboard _ _)

theorem elapsed_keyboard : (popoverElapse id i).1.keyboard = i.keyboard := by
  unfold popoverElapse
  dsimp only
  split <;> rfl

end Events

section Runs

variable {g v : MountedGraph K}

inductive Event (K : Type) where
  | pointer (id : ℕ) (entered : Bool)
  | elapse (id : ℕ)
  | focus (focused : Option ℕ)
  | escape
  | patch (patch : Patch K)

def call (hashOrder : Enumeration K (Option (KeyedChild K))) : Event K → GraphMethod K Unit
  | .pointer id entered => do
    let _ ← hoverTransition id entered
    return ()
  | .elapse id => do
    let _ ← interact (popoverElapse id)
    return ()
  | .focus focused => do
    let _ ← popoverFocusMoved focused
    return ()
  | .escape => do
    let _ ← interact dismissPopovers
    return ()
  | .patch patch => do
    let _ ← apply hashOrder patch
    return ()

/-- While a dialog is mounted, focus moves to a control inside it. -/
def Allowed (g : MountedGraph K) : Event K → Prop
  | .focus (some x) => InsideDialog g x
  | _ => True

/-- Refused patches are no steps. -/
def interacting (K : Type) [DecidableEq K] : System (MountedGraph K) (Event K) where
  initial := .empty
  Step g event v := Allowed g event ∧ ∃ hashOrder, (call hashOrder event).run g = .ok () v

/-- Focus moves to a control that is in no presenting popover outside a mounted dialog. A
popover beyond a keyed item does not count. -/
def FocusesInside (g : MountedGraph K) : Event K → Prop
  | .focus (some x) => ∀ p, OrdinarilyAbove g x p → g.presents p = true → InsideDialog g p
  | _ => True

theorem step_held {event : Event K} (s : Sound g) (held : PopoversHeld g)
    (focuses : FocusesInside g event) (step : (interacting K).Step g event v) :
    Sound v ∧ PopoversHeld v := by
  obtain ⟨-, hashOrder, hcall⟩ := step
  cases event with
  | pointer id entered =>
    simp only [call, bind_ok, pure_ok] at hcall
    obtain ⟨route, _, hhover, -, rfl⟩ := hcall
    rcases hover_ok hhover with rfl | ⟨hinside, htracks, rfl⟩
    · exact ⟨s, held⟩
    · refine ⟨sound_interaction s rfl, held_interaction ?_⟩
      cases entered with
      | true => exact held_entered held htracks (fun h => h) hinside
      | false => exact held_left held fun h => h
  | elapse id =>
    simp only [call, bind_ok, interact_ok, pure_ok] at hcall
    obtain ⟨_, _, ⟨-, rfl⟩, -, rfl⟩ := hcall
    exact ⟨sound_interaction s elapsed_keyboard, held_interaction (held_elapsed held id)⟩
  | focus focused =>
    simp only [call, popoverFocusMoved, bind_ok, get_ok, query_run_ok, interact_ok, pure_ok] at hcall
    obtain ⟨_, _, ⟨_, _, ⟨rfl, rfl⟩, containing, _, ⟨hcontaining, rfl⟩, -, rfl⟩, -, rfl⟩ := hcall
    refine ⟨sound_interaction s moved_keyboard, held_interaction (held_moved held fun p hp => ?_)⟩
    cases focused with
    | none =>
      obtain rfl := Except.ok.inj hcontaining
      cases hp
    | some x =>
      obtain ⟨habove, hpresents⟩ := mem_containing hcontaining hp
      exact ⟨fun h => h, focuses p habove hpresents⟩
  | escape =>
    simp only [call, bind_ok, interact_ok, pure_ok] at hcall
    obtain ⟨_, _, ⟨-, rfl⟩, -, rfl⟩ := hcall
    exact ⟨sound_interaction s rfl, held_interaction (held_dismissed held)⟩
  | patch patch =>
    simp only [call, bind_ok, pure_ok] at hcall
    obtain ⟨a, _, hpatch, -, rfl⟩ := hcall
    exact ⟨sound_patched s ⟨hashOrder, a, hpatch⟩, patch_held s held ⟨hashOrder, a, hpatch⟩⟩

theorem popovers_held (h : Reachable ((interacting K).restrict FocusesInside) g) :
    PopoversHeld g := by
  refine (reachable_invariant (S := (interacting K).restrict FocusesInside)
    (P := fun g => Sound g ∧ PopoversHeld g) ⟨sound_empty, held_empty⟩ ?_ h).2
  rintro s event t ⟨sound, held⟩ ⟨focuses, step⟩
  exact step_held sound held focuses step

omit [DecidableEq K] in
theorem containing_fuel {fuel x : ℕ} {qs : List ℕ}
    (up : UpTo ParentLocation.parent g.parentLocation (some x) qs) (enough : qs.length ≤ fuel) :
    ∃ ids, containingFrom g fuel (some x) = .ok ids := by
  generalize hcur : some x = cur at up
  induction up generalizing x fuel with
  | top => cases hcur
  | @up q qs rest ih =>
    obtain rfl := Option.some.inj hcur
    rw [List.length_cons] at enough
    obtain ⟨fuel, rfl⟩ : ∃ n, fuel = n + 1 := ⟨fuel - 1, by omega⟩
    have above : ∃ ids, containingFrom g fuel ((parentOf g x).map (·.1)) = .ok ids := by
      cases hp : g.parentLocation x with
      | none =>
        rw [parentOf, hp]
        cases fuel <;> exact ⟨[], rfl⟩
      | some l =>
        cases l with
        | ordinaryIndex p index =>
          rw [parentOf, hp]
          have enough' : qs.length ≤ fuel := by omega
          have further := ih enough' (x := p) (by rw [hp]; rfl)
          rwa [hp] at further
        | keyed container key instanceId =>
          rw [parentOf, hp]
          cases fuel <;> exact ⟨[], rfl⟩
    obtain ⟨ids, hids⟩ := above
    rw [containingFrom, hids]
    exact ⟨_, rfl⟩

theorem containing_total (h : Shape g) (focused : Option ℕ) :
    ∃ ids, containingFrom g g.climb focused = .ok ids := by
  cases focused with
  | none => exact ⟨[], rfl⟩
  | some x =>
    by_cases hm : (forest g).Mounted x
    · obtain ⟨qs, up⟩ := way_up h.linked h.weighed (finite_mounted g) hm
      have hlength := way_length h.linked h.weighed up hm (s := g.nodes.keys)
        fun q hq => FiniteMap.mem_keys.mpr (mounted_iff.mp hq)
      exact containing_fuel up (hlength.trans (Nat.le_succ _))
    · have hp : parentOf g x = none := by
        rw [mounted_iff, Option.not_isSome_iff_eq_none] at hm
        rw [parentOf, MountedGraph.parentLocation, hm]
        rfl
      rw [MountedGraph.climb, containingFrom, hp]
      cases g.nodes.size <;> exact ⟨_, rfl⟩

theorem hover_answered (s : Sound g) (id : ℕ) (entered : Bool) :
    ∃ route v, (hoverTransition id entered).run g = .ok route v := by
  obtain ⟨behind, hbehind⟩ : ∃ behind, behindDialog id g = .ok behind := by
    rw [behindDialog]
    cases g.dialog with
    | none => exact ⟨false, rfl⟩
    | some d =>
      obtain ⟨inside, hinside⟩ := descendant_total (ε := GraphError K) s.shape id d
      simp only [hinside]
      exact ⟨!inside, rfl⟩
  rw [hoverTransition, run_bind_ok (EStateM.run_get g), run_bind_ok (query_ok hbehind)]
  cases behind with
  | true => exact ⟨none, g, rfl⟩
  | false =>
    simp only [Bool.false_eq_true, if_false]
    split
    · exact ⟨none, g, rfl⟩
    · exact ⟨_, _, rfl⟩

/-- No event but a patch is ever refused. -/
theorem call_answered (s : Sound g) (hashOrder : Enumeration K (Option (KeyedChild K)))
    {event : Event K} (h : ∀ patch, event ≠ .patch patch) :
    ∃ v, (call hashOrder event).run g = .ok () v := by
  cases event with
  | pointer id entered =>
    obtain ⟨route, v, hhover⟩ := hover_answered s id entered
    exact ⟨v, by rw [call, run_bind_ok hhover]; rfl⟩
  | elapse id => exact ⟨_, rfl⟩
  | focus focused =>
    obtain ⟨ids, hids⟩ := containing_total s.shape focused
    have hquery : (query fun g => containingFrom g g.climb focused).run g = .ok ids g :=
      query_ok hids
    refine ⟨withInteraction g (focusWithin g.presents ids g.interaction).1, ?_⟩
    simp only [call, popoverFocusMoved, bind_ok, get_ok, pure_ok]
    exact ⟨_, _, ⟨g, g, ⟨rfl, rfl⟩, ids, g, hquery, interact_ok.mpr ⟨rfl, rfl⟩⟩, trivial, rfl⟩
  | escape => exact ⟨_, rfl⟩
  | patch patch => exact absurd rfl (h patch)

end Runs

section Focus

def afterEvent (g : MountedGraph ℕ) (event : Event ℕ) : MountedGraph ℕ :=
  after ((call .sorted event).run g)

theorem event_step {g : MountedGraph ℕ} (event : Event ℕ) (allowed : Allowed g event)
    (h : (answer ((call .sorted event).run g)).isOk = true) :
    (interacting ℕ).Step g event (afterEvent g event) := by
  obtain ⟨⟨⟩, ha⟩ := answer_is_ok h
  exact ⟨allowed, .sorted, ha⟩

theorem read_ok {b : Bool} {r : Reading ℕ Bool} (h : r.toOption = some b) : r = .ok b := by
  cases r with
  | ok c => exact congrArg _ (Option.some.inj h)
  | error e => cases h

def plainPopover : Patch ℕ := .mount 1
  [⟨1, .popover "more" 0 false false [] 0, [2, 3]⟩, ⟨2, .button "open" true false false, []⟩,
    ⟨3, .text, []⟩]

theorem entered_and_focused : PopoversHeld (afterEvent (afterEvent
    (afterEvent .empty (.patch plainPopover)) (.pointer 1 true)) (.focus (some 2))) := by
  have undisturbed (x : ℕ) : InsideDialog (afterEvent
      (afterEvent .empty (.patch plainPopover)) (.pointer 1 true)) x := by
    intro d hd
    have hnone : (afterEvent (afterEvent .empty (.patch plainPopover)) (.pointer 1 true)).dialog =
      none := by decide +kernel
    cases hnone.symm.trans hd
  exact popovers_held (reachable_step (reachable_step (reachable_step (reachable_initial _)
    (e := .patch plainPopover) ⟨trivial, event_step _ trivial (by decide +kernel)⟩)
    (e := .pointer 1 true) ⟨trivial, event_step _ trivial (by decide +kernel)⟩)
    (e := .focus (some 2)) ⟨fun p _ _ => undisturbed p,
      event_step _ (undisturbed 2) (by decide +kernel)⟩)

def dialogInPopover : Patch ℕ := .mount 1
  [⟨1, .popover "more" 0 false false [] 0, [2, 3]⟩, ⟨2, .text, []⟩, ⟨3, .dialog "rename", [4]⟩,
    ⟨4, .button "save" true false false, []⟩]

theorem focused_in_dialog : ∃ g : MountedGraph ℕ, Reachable (interacting ℕ) g ∧
    g.interaction.popovers.shown = {1} ∧ g.dialog = some 3 ∧
    (g.isDescendantOf 1 3 : Reading ℕ Bool).toOption = some false := by
  have mounted : Reachable (interacting ℕ) (afterEvent .empty (.patch dialogInPopover)) :=
    reachable_step (reachable_initial _) (event_step _ trivial (by decide +kernel))
  have inside : InsideDialog (afterEvent .empty (.patch dialogInPopover)) 4 := by
    intro d hd
    have hdialog : (afterEvent .empty (.patch dialogInPopover)).dialog = some 3 := by
      decide +kernel
    rw [← Option.some.inj (hdialog.symm.trans hd)]
    exact read_ok (by decide +kernel)
  have focused := reachable_step mounted (event_step (.focus (some 4)) inside (by decide +kernel))
  exact ⟨_, focused, by decide +kernel, by decide +kernel, by decide +kernel⟩

/-- Focus in the dialog opens the popover that the dialog has made unreachable. -/
theorem focused_behind_dialog :
    ¬∀ g : MountedGraph ℕ, Reachable (interacting ℕ) g → PopoversHeld g := by
  intro claim
  obtain ⟨g, reached, shown, dialog, outside⟩ := focused_in_dialog
  have open_inside := ((claim g reached).presenting 1 (.inr (.inl (by rw [shown]; simp)))).2 3 dialog
  rw [open_inside] at outside
  cases outside

end Focus

end PopoverRuns
