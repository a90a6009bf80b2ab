import RocGui.VirtualPatches

/-! The rows of virtual lists over every run of accepted patches, row callbacks and settled frames. -/
namespace VirtualRowRuns

open FiniteMaps Methods MethodOutcomes KeyedOrder GraphState GraphPatches GraphForests GraphRuns
open KeyedListings GraphListings NodeForms IdentityPaths IdentityRuns FocusLandings PointerTrees Popovers
open VirtualRows VirtualSpans VirtualCaches VirtualFrames VirtualPatches Transitions

variable {K : Type} [DecidableEq K]

/-- The tables describe the same rows, each count is that of the views of a row outside nested lists,
and every cached row is mounted in its list. -/
structure Consistent (g : MountedGraph K) (c : Cache) : Prop where
  paired : ∀ l r, (c.views.get (l, r)).isSome ↔ c.rowOwners.get r = some l
  listed : ∀ l r, r ∈ rowsOf c l ↔ c.rowOwners.get r = some l
  summed : ∀ l s, c.lists.get l = some s → s.entities = ∑ r ∈ s.rows, (c.views.get (l, r)).getD 0
  counted : ∀ l r n, c.views.get (l, r) = some n →
    n = {x | (c.entities.get x).isSome ∧ Spans g r x}.ncard
  seated : ∀ l r, (c.views.get (l, r)).isSome →
    isList g l = true ∧ isItem g r = true ∧ (forest g).Child l r

/-- The events at which the runtime keeps its rows: a keyed patch retires no cached row and no list
with cached rows, a subtree is replaced below ordinary places only, and what is preserved below a row
that goes reaches the row by ordinary places. -/
def Clear (w : Window K) : Event K → Prop
  | .patch (.replace oldRoot ..) => Placed w.graph w.cache oldRoot
  | .patch (.replaceRetaining oldRoot ..) => Placed w.graph w.cache oldRoot
  | .patch (.keyed container baseRevision newRevision operations) => ∀ hashOrder applied g,
      (apply hashOrder (.keyed container baseRevision newRevision operations)).run w.graph = .ok applied g →
        ∀ x ∈ applied.removedIds, w.cache.rowOwners.get x = none ∧ rowsOf w.cache x = ∅
  | .settle list => OnOrdinaryPlaces w.graph list w.cache
  | _ => True

structure Sound (w : Window K) : Prop where
  shape : Shape w.graph
  formed : Formed w.graph
  indexed : Indexed w.graph
  distinguished : Distinguished w.graph
  kept : Kept w.graph ∅ w.cache
  items : Items w.graph w.cache

section Steps

variable {w w' : Window K} {event : Event K} {g : MountedGraph K} {m : CacheMethod Unit}

theorem sound_initial : Sound (virtualRows K).initial :=
  ⟨shape_empty, formed_empty, indexed_empty, distinguished_empty, kept_empty,
    fun l r hv => by simp [virtualRows, Cache.empty] at hv⟩

theorem patch_kept {patch : Patch K} {hashOrder : Enumeration K (Option (KeyedChild K))}
    {applied : GraphApply K} (s : Sound w) (clear : Clear w (.patch patch))
    (hrun : (apply hashOrder patch).run w.graph = .ok applied g) :
    Yields (applyToGpui g applied) w.cache fun _ c => Kept g ∅ c ∧ Items g c := by
  have replaced {r : Replacement K} (hrun : (applyReplacement r).run w.graph = .ok applied g)
      (placed : ∀ old, r.oldRoot = some old → Placed w.graph w.cache old) :
      Yields (applyToGpui g applied) w.cache fun _ c => Kept g ∅ c ∧ Items g c := by
    obtain ⟨plan, -, told⟩ := replacement_told hrun
    rw [applyToGpui, if_neg told.kind.1, if_neg told.kind.2]
    exact replaced_kept s.shape s.distinguished.own hrun s.kept s.items placed
  cases patch with
  | mount root nodes => exact replaced hrun nofun
  | noChange =>
    simp only [apply, bind_ok, get_ok, pure_ok] at hrun
    obtain ⟨_, _, ⟨rfl, rfl⟩, rfl, rfl⟩ := hrun
    exact yields_pure ⟨s.kept, s.items⟩
  | replace oldRoot root nodes => exact replaced hrun fun old hold => Option.some.inj hold ▸ clear
  | replaceRetaining oldRoot root nodes retainedRoots =>
    exact replaced hrun fun old hold => Option.some.inj hold ▸ clear
  | keyed container baseRevision newRevision operations =>
    obtain ⟨hkind, hroot, ⟨nodes, tops, e⟩, was⟩ := keyed_retired s.shape hrun
    rw [applyToGpui, if_neg (by rw [hkind]; decide), if_pos hkind]
    exact keyed_kept s.shape s.kept s.items e hroot was (clear hashOrder applied g hrun)

theorem call_kept (s : Sound w) (clear : Clear w event) (call : Call w event g m) :
    Yields m w.cache fun _ c => Kept g ∅ c ∧ Items g c := by
  cases call with
  | patch hrun => exact patch_kept s clear hrun
  | range hlist shown => exact virtual_range s.shape s.formed hlist shown s.kept s.items _ _
  | settle => exact yields_mono (finish_frame s.shape s.kept s.items clear) fun _ _ => And.left

theorem step_sound (s : Sound w) (step : ((virtualRows K).restrict Clear).Step w event w') :
    Sound w' := by
  obtain ⟨clear, m, call, hrun⟩ := step
  obtain ⟨kept, items⟩ := yields_ok (call_kept s clear call) hrun
  obtain ⟨g', c'⟩ := w'
  cases call with
  | patch hpatch =>
    have accepted : (accepting K).Step w.graph _ g' := ⟨_, _, hpatch⟩
    exact ⟨step_shape s.shape accepted, step_formed s.shape s.formed accepted,
      (step_turnover s.shape s.indexed hpatch).1, step_distinguished s.shape s.indexed s.distinguished accepted,
      kept, items⟩
  | range => exact ⟨s.shape, s.formed, s.indexed, s.distinguished, kept, items⟩
  | settle => exact ⟨s.shape, s.formed, s.indexed, s.distinguished, kept, items⟩

theorem sound_reachable (h : Reachable ((virtualRows K).restrict Clear) w) : Sound w :=
  reachable_invariant (S := (virtualRows K).restrict Clear) sound_initial
    (fun _ _ _ s step => step_sound s step) h

theorem sound_consistent (s : Sound w) : Consistent w.graph w.cache := by
  refine ⟨fun l r => (s.kept.tables.owned l r).symm, fun l r =>
    (s.kept.tables.listed l r).trans (s.kept.tables.owned l r).symm, s.kept.tables.summed,
    fun l r n hv => ?_, fun l r hv => ?_⟩
  · have seat := s.kept.rows l r n hv
    rw [seat.count, span]
    congr 1
    ext x
    exact (and_iff_right_of_imp fun hx => built_spans s.kept seat.built hx).symm
  · obtain ⟨n, hn⟩ := Option.isSome_iff_exists.mp hv
    have seat := s.kept.rows l r n hn
    exact ⟨seat.list, s.items l r hv, seat.child⟩

end Steps

section Runs

variable {w : Window K}

/-- In every run of clear events the rows are consistent, no count underflows, every event ends, and a
settled frame leaves no view of a row outside its range. -/
theorem rows_consistent (h : Reachable ((virtualRows K).restrict Clear) w) :
    Consistent w.graph w.cache ∧ ∀ event g m, Clear w event → Call w event g m →
      (∀ reason c, m.run w.cache ≠ .error (.error reason) c) ∧ (∀ c, m.run w.cache ≠ .error .diverges c) ∧
        ∀ list c, event = .settle list → m.run w.cache = .ok () c → Settled w.graph list w.cache c := by
  have s := sound_reachable h
  refine ⟨sound_consistent s, fun event g m clear call => ?_⟩
  have hcall := call_kept s clear call
  refine ⟨fun reason c => yields_not_refused hcall, fun c => yields_ends hcall, ?_⟩
  rintro list c rfl hrun
  cases call with
  | settle => exact (yields_ok (finish_frame s.shape s.kept s.items clear) hrun).2

theorem single_list {g : MountedGraph K} {list : ℕ} (h : Shape g)
    (only : ∀ a ∈ g.nodes.keys, isList g a = true → a = list) : ¬UnderList g list := by
  rintro ⟨a, ha, hbelow⟩
  have hmem : a ∈ g.nodes.keys := by
    rw [FiniteMap.mem_keys, ← mounted_iff]
    obtain ⟨b, ⟨l, hl⟩, -⟩ := Relation.TransGen.head'_iff.mp hbelow
    exact mounted_of_kid hl
  obtain rfl := only a hmem ha
  obtain ⟨b, hab, hba⟩ := Relation.TransGen.head'_iff.mp hbelow
  exact no_way_back h hab hba

def afterCall (m : CacheMethod Unit) (c : Cache) : Cache := after (m.run c)

theorem call_ran {m : CacheMethod Unit} {c : Cache} (h : (answer (m.run c)).isOk = true) :
    m.run c = .ok () (afterCall m c) := by
  obtain ⟨a, ha⟩ := answer_is_ok h
  exact ha

def patched (w : Window ℕ) (patch : Patch ℕ) : Window ℕ :=
  match (apply .sorted patch).run w.graph with
  | .ok applied g => ⟨g, afterCall (applyToGpui g applied) w.cache⟩
  | .error .. => w

def takes (w : Window ℕ) (patch : Patch ℕ) : Bool :=
  match (apply .sorted patch).run w.graph with
  | .ok applied g => (answer ((applyToGpui g applied).run w.cache)).isOk
  | .error .. => false

theorem patched_step {w : Window ℕ} {patch : Patch ℕ} (h : takes w patch = true) :
    (virtualRows ℕ).Step w (.patch patch) (patched w patch) := by
  unfold takes at h
  unfold patched
  split at h
  · rename_i applied g hrun
    exact ⟨applyToGpui g applied, .patch hrun, call_ran h⟩
  · cases h

def ranged (w : Window ℕ) (list start stop : ℕ) : Window ℕ :=
  ⟨w.graph, afterCall (virtualRange w.graph list start stop) w.cache⟩

theorem ranged_graph (w : Window ℕ) (list start stop : ℕ) : (ranged w list start stop).graph = w.graph := rfl

theorem ranged_step {w : Window ℕ} {list start stop : ℕ} (h : Shape w.graph)
    (hlist : isList w.graph list = true)
    (only : ∀ a ∈ w.graph.nodes.keys, isList w.graph a = true → a = list)
    (ran : (answer ((virtualRange w.graph list start stop).run w.cache)).isOk = true) :
    (virtualRows ℕ).Step w (.range list start stop) (ranged w list start stop) :=
  ⟨_, .range hlist (.inr (single_list h only)), call_ran ran⟩

def threeRows : Patch ℕ := .mount 1
  [⟨1, .virtualList "rows" 20 none, [2, 4, 6]⟩, ⟨2, .virtualItem 0, [3]⟩, ⟨3, .text, []⟩,
    ⟨4, .virtualItem 1, [5]⟩, ⟨5, .text, []⟩, ⟨6, .virtualItem 2, [7]⟩, ⟨7, .text, []⟩]

def listMounted : Window ℕ := patched ⟨.empty, .empty⟩ threeRows

def rangeMoved : Window ℕ := ranged (ranged listMounted 1 0 3) 1 0 1

theorem settle_clear {w : Window ℕ} (hnone : w.cache.preserved = ∅) (list : ℕ) : Clear w (.settle list) := by
  intro range node _ _ r _ _ x hx
  rw [hnone] at hx
  exact absurd hx (Finset.notMem_empty x)

theorem range_moved : Reachable ((virtualRows ℕ).restrict Clear) rangeMoved := by
  have mounted : Reachable ((virtualRows ℕ).restrict Clear) listMounted :=
    reachable_step (reachable_initial _) (e := .patch threeRows) ⟨trivial, patched_step (by decide +kernel)⟩
  have placed : (virtualRows ℕ).Step listMounted (.range 1 0 3) (ranged listMounted 1 0 3) :=
    ranged_step (sound_reachable mounted).shape (by decide +kernel) (by decide +kernel) (by decide +kernel)
  have shown : Reachable ((virtualRows ℕ).restrict Clear) (ranged listMounted 1 0 3) :=
    reachable_step mounted (e := .range 1 0 3) ⟨trivial, placed⟩
  have moved : (virtualRows ℕ).Step (ranged listMounted 1 0 3) (.range 1 0 1) rangeMoved :=
    ranged_step (sound_reachable shown).shape (by decide +kernel) (by decide +kernel) (by decide +kernel)
  exact reachable_step shown (e := .range 1 0 1) ⟨trivial, moved⟩

/-- The views of the rows that left the range are gone once the frame is settled. -/
theorem left_rows_gone :
    ((afterCall (finishVirtualFrame rangeMoved.graph 1) rangeMoved.cache).entities.get 4) = none := by
  obtain ⟨-, -, settled⟩ := (rows_consistent range_moved).2 (.settle 1) rangeMoved.graph
    (finishVirtualFrame rangeMoved.graph 1) (settle_clear (by decide +kernel) 1) .settle
  have ran : (answer ((finishVirtualFrame rangeMoved.graph 1).run rangeMoved.cache)).isOk = true := by
    decide +kernel
  have frame : rangeMoved.cache.frames.get 1 = some (0, 1) := by decide +kernel
  have seat : rangeMoved.graph.node 1 = some ⟨1, .virtualList "rows" 20 none, [2, 4, 6]⟩ := by decide +kernel
  have below : (4, .ordinaryIndex 1 1) ∈ (forest rangeMoved.graph).kids 1 := by decide +kernel
  have out : 4 ∉ keptRows (⟨1, .virtualList "rows" 20 none, [2, 4, 6]⟩ : Node ℕ) (0, 1) := by decide +kernel
  have hlist : isList rangeMoved.graph 1 = true := by decide +kernel
  have gone : Settled rangeMoved.graph 1 rangeMoved.cache
      (afterCall (finishVirtualFrame rangeMoved.graph 1) rangeMoved.cache) :=
    settled 1 _ rfl (call_ran ran)
  exact gone (0, 1) _ frame seat hlist 4 ⟨.ordinaryIndex 1 1, below⟩ out 4 Relation.ReflTransGen.refl

def itemWithList : Patch ℕ := .mount 1
  [⟨1, .keyedColumn "" 0 [7], [2]⟩, ⟨2, .boundary 5, [3]⟩, ⟨3, .virtualList "rows" 20 none, [4]⟩,
    ⟨4, .virtualItem 0, [5]⟩, ⟨5, .text, []⟩]

def rowShown : Window ℕ := ranged (patched ⟨.empty, .empty⟩ itemWithList) 3 0 1

def itemRemoved : Patch ℕ := .keyed 1 0 1 [.remove 7]

theorem patched_shape {w : Window ℕ} (h : Shape w.graph) (patch : Patch ℕ) : Shape (patched w patch).graph := by
  unfold patched
  split
  · rename_i applied g hrun
    exact step_shape h ⟨.sorted, applied, hrun⟩
  · exact h

theorem item_removed : Reachable (virtualRows ℕ) (patched rowShown itemRemoved) := by
  have mounted : Reachable (virtualRows ℕ) (patched ⟨.empty, .empty⟩ itemWithList) :=
    reachable_step (reachable_initial _) (patched_step (by decide +kernel))
  have placed : (virtualRows ℕ).Step (patched ⟨.empty, .empty⟩ itemWithList) (.range 3 0 1) rowShown :=
    ranged_step (patched_shape shape_empty _) (by decide +kernel) (by decide +kernel) (by decide +kernel)
  have gone : (virtualRows ℕ).Step rowShown (.patch itemRemoved) (patched rowShown itemRemoved) :=
    patched_step (by decide +kernel)
  exact reachable_step (reachable_step mounted placed) gone

/-- The rows of a list outlive the keyed item that the list stood in. -/
theorem row_outlives_list : ∃ w : Window ℕ, Reachable (virtualRows ℕ) w ∧ ¬Consistent w.graph w.cache := by
  refine ⟨patched rowShown itemRemoved, item_removed, fun all => ?_⟩
  obtain ⟨hlist, -⟩ := all.seated 3 4 (by decide +kernel)
  have hgone : isList (patched rowShown itemRemoved).graph 3 = false := by decide +kernel
  rw [hgone] at hlist
  cases hlist

end Runs

end VirtualRowRuns
