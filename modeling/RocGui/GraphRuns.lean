import RocGui.KeyedTransactions
import RocGui.Transitions

/-! Runs of accepted patches, and what holds of every graph they reach. -/
namespace GraphRuns

open FiniteMaps KeyedLists Methods KeyedOrder KeyedOrderLists GraphState FragmentValidation
open GraphPatches FragmentTrees GraphForests GraphMounting GraphGrafts GraphReplacements
open KeyedStaging KeyedTransactions PointerTrees Transitions

variable {K : Type} [DecidableEq K]

def accepting (K : Type) [DecidableEq K] : System (MountedGraph K) (Patch K) where
  initial := .empty
  Step g patch g' := ∃ hashOrder a, (apply hashOrder patch).run g = .ok a g'

def KeepsItem (g : MountedGraph K) (oldRoot root : ℕ) (nodes : List (Node K)) : Prop :=
  ∀ container key instanceId, g.parentLocation oldRoot = some (.keyed container key instanceId) →
    ∃ n, (n ∈ nodes ∨ g.node root = some n) ∧ n.id = root ∧ n.kind = .boundary instanceId

def InstallsItems (g : MountedGraph K) : Patch K → Prop
  | .replace oldRoot root nodes => KeepsItem g oldRoot root nodes
  | .replaceRetaining oldRoot root nodes _ => KeepsItem g oldRoot root nodes
  | _ => True

section Steps

variable {g g' : MountedGraph K} {patch : Patch K}

theorem shape_empty : Shape (.empty : MountedGraph K) := by
  have hnone (id : ℕ) : (MountedGraph.empty : MountedGraph K).nodes.get id = none :=
    FiniteMap.get_empty id
  have unmounted (id : ℕ) : ¬(forest (.empty : MountedGraph K)).Mounted id := by
    simp [mounted_iff, hnone]
  refine ⟨fun {id e o} he _ => by simp [hnone] at he, ⟨?_, fun a => ?_, ?_, fun {a} ha => ?_, ?_,
    fun {c l} hc => ?_⟩, fun a ha => absurd ha (unmounted a), fun {id} hid => by simp [hnone] at hid⟩
  · intro a c l hc
    exact absurd (mounted_of_kid hc) (unmounted a)
  · simp [Forest.kids, forest, hnone]
  · simp [MountedGraph.empty]
  · exact absurd ha (unmounted a)
  · intro a c l hc
    exact absurd (mounted_of_kid hc) (unmounted a)
  · exact absurd hc (unmounted c)

theorem replacement_bounded {r : Replacement K} {a : GraphApply K} (h : Shape g)
    (bounded : Bounded g) (keeps : ∀ old ∈ r.oldRoot, KeepsItem g old r.root r.nodes)
    (hrun : (applyReplacement r).run g = .ok a g') : Bounded g' := by
  obtain ⟨plan, hplan, e⟩ := replacement_grafted h hrun
  have p := planned h hplan
  refine e.bounded h bounded fun {c q k i} hc => ?_
  obtain ⟨rfl, hlocation⟩ := Prod.mk.inj (List.mem_singleton.mp hc)
  obtain ⟨old, hold, hparent⟩ := Option.bind_eq_some_iff.mp (p.location.symm.trans hlocation.symm)
  obtain ⟨n, hn | hn, hid, hkind⟩ := keeps old hold q k i hparent
  · rw [← hid, e.node_fresh h hn, Option.map_some, hkind]
  · -- a mounted root was retained
    have hm : (forest g).Mounted r.root := by
      rw [mounted_iff, ← Option.isSome_map (f := (·.node))]
      exact Option.isSome_iff_exists.mpr ⟨n, hn⟩
    have hretained := p.fragment.root_listed.resolve_left fun hfresh => by
      obtain ⟨m, hm', heq⟩ := List.mem_map.mp hfresh
      have := p.fresh m hm'
      have := h.issued (mounted_iff.mp hm)
      omega
    rw [e.kind_kept h hm (e.graft.kept _ hretained).2.1, hn, Option.map_some, hkind]

theorem item_installed {container revision i : ℕ} {l₀ l : KeyedList K (ℕ × ℕ)}
    {prepared : PreparedFragments K} {j : KeyedOrderJournal K} (h : Shape g)
    (p : Prepared g container l₀ prepared j l)
    (e : Grafted g g' prepared.removedIds (stagedNodes prepared.fragments) ∅
      (prepared.fragments.map (placeOf container { j.order with revision }))
      (some container) g.root) {f : FragmentPlan K} (hf : f ∈ prepared.fragments)
    (hget : l.get f.key = some (f.root, i)) :
    (g'.node f.root).map (·.kind) = some (.boundary i) := by
  rcases p.items hget with hold | ⟨f', hf', -, -, n, hn, hid, hkind⟩
  · have := h.issued (mounted_of_parent (p.listed hold))
    have hid := (p.fragments f hf).root_listed.resolve_right (Finset.notMem_empty _)
    have := p.fresh _ (mem_ids_staged.mpr ⟨f, hf, hid⟩)
    omega
  · rw [← hid, e.node_fresh h (List.mem_flatMap.mpr ⟨f', hf', hn⟩), Option.map_some, hkind]

theorem keyed_bounded {hashOrder : Enumeration K (Option (KeyedChild K))} {a : KeyedGraphApply K}
    {container baseRevision newRevision : ℕ} {operations : List (KeyedGraphOperation K)}
    (h : Shape g) (bounded : Bounded g)
    (hrun : (applyKeyed hashOrder container baseRevision newRevision operations).run g = .ok a g') :
    Bounded g' := by
  obtain ⟨l₀, l, prepared, j, p, e⟩ := keyed_grafted h hrun
  refine e.bounded h bounded fun {c q k i} hc => ?_
  obtain ⟨f, hf, heq⟩ := List.mem_map.mp hc
  obtain ⟨i', hget, hplace⟩ := placeOf_eq p newRevision hf
  rw [hplace] at heq
  cases heq
  exact item_installed h p e hf hget

theorem apply_keyed_run {hashOrder : Enumeration K (Option (KeyedChild K))} {a : GraphApply K}
    {container baseRevision newRevision : ℕ} {operations : List (KeyedGraphOperation K)}
    (hrun : (apply hashOrder (.keyed container baseRevision newRevision operations)).run g =
      .ok a g') : ∃ keyed, (applyKeyed hashOrder container baseRevision newRevision operations).run g =
        .ok keyed g' := by
  simp only [apply, bind_ok, get_ok, pure_ok] at hrun
  obtain ⟨keyed, _, hkeyed, _, _, ⟨rfl, rfl⟩, -, rfl⟩ := hrun
  exact ⟨keyed, hkeyed⟩

theorem noChange_run {hashOrder : Enumeration K (Option (KeyedChild K))} {a : GraphApply K}
    (hrun : (apply hashOrder .noChange).run g = .ok a g') : g' = g := by
  simp only [apply, bind_ok, get_ok, pure_ok] at hrun
  obtain ⟨_, _, ⟨rfl, rfl⟩, -, rfl⟩ := hrun
  rfl

theorem step_shape (h : Shape g) (step : (accepting K).Step g patch g') : Shape g' := by
  obtain ⟨hashOrder, a, hrun⟩ := step
  have replaced {r : Replacement K} (hrun : (applyReplacement r).run g = .ok a g') : Shape g' := by
    obtain ⟨plan, -, e⟩ := replacement_grafted h hrun
    exact e.shape h
  cases patch with
  | mount root nodes => exact replaced hrun
  | noChange => exact noChange_run hrun ▸ h
  | replace oldRoot root nodes => exact replaced hrun
  | replaceRetaining oldRoot root nodes retainedRoots => exact replaced hrun
  | keyed container baseRevision newRevision operations =>
    obtain ⟨keyed, hkeyed⟩ := apply_keyed_run hrun
    obtain ⟨l₀, l, prepared, j, -, e⟩ := keyed_grafted h hkeyed
    exact e.shape h

theorem step_bounded (h : Shape g) (bounded : Bounded g) (installs : InstallsItems g patch)
    (step : (accepting K).Step g patch g') : Bounded g' := by
  obtain ⟨hashOrder, a, hrun⟩ := step
  cases patch with
  | mount root nodes => exact replacement_bounded h bounded (by simp) hrun
  | noChange => exact noChange_run hrun ▸ bounded
  | replace oldRoot root nodes =>
    exact replacement_bounded h bounded (fun old hold => Option.some.inj hold ▸ installs) hrun
  | replaceRetaining oldRoot root nodes retainedRoots =>
    exact replacement_bounded h bounded (fun old hold => Option.some.inj hold ▸ installs) hrun
  | keyed container baseRevision newRevision operations =>
    obtain ⟨keyed, hkeyed⟩ := apply_keyed_run hrun
    exact keyed_bounded h bounded hkeyed

theorem shape_reachable (h : Reachable (accepting K) g) : Shape g :=
  reachable_invariant (S := accepting K) shape_empty (fun _ _ _ hs step => step_shape hs step) h

end Steps

section WellFormed

variable {g : MountedGraph K}

/-- Every reached graph is a tree, and its items are the boundaries they are listed as
when every replacement of an item's root installed one. -/
theorem reachable_well_formed (h : Reachable ((accepting K).restrict InstallsItems) g) :
    WellFormed g := by
  have both : Shape g ∧ Bounded g := by
    refine reachable_invariant (S := (accepting K).restrict InstallsItems)
      (P := fun g => Shape g ∧ Bounded g) ⟨shape_empty, ?_⟩ ?_ h
    · intro c container key instanceId hparent
      have := mounted_of_parent hparent
      simp [System.restrict, accepting, MountedGraph.empty] at this
    · rintro s patch t ⟨shape, bounded⟩ ⟨installs, step⟩
      exact ⟨step_shape shape step, step_bounded shape bounded installs step⟩
  exact ⟨tree_of_shape both.1, items_bounded both.1 both.2⟩

def oneItemColumn : Patch ℕ := .mount 1
  [⟨1, .keyedColumn "" 0 [7], [2]⟩, ⟨2, .boundary 5, [3]⟩, ⟨3, .text, []⟩]

def textForItem : Patch ℕ := .replace 2 4 [⟨4, .text, []⟩]

def afterPatch (g : MountedGraph ℕ) (patch : Patch ℕ) : MountedGraph ℕ :=
  after ((apply .sorted patch).run g)

theorem accepted_step {g : MountedGraph ℕ} (patch : Patch ℕ)
    (h : (answer ((apply .sorted patch).run g)).isOk = true) :
    (accepting ℕ).Step g patch (afterPatch g patch) := by
  obtain ⟨a, ha⟩ := answer_is_ok h
  exact ⟨.sorted, a, ha⟩

/-- Nothing stops a replacement from installing a text as the root of an item. -/
theorem item_root_without_boundary :
    ¬∀ g : MountedGraph ℕ, Reachable (accepting ℕ) g → WellFormed g := by
  intro claim
  have reached := reachable_step (reachable_step (reachable_initial (accepting ℕ))
    (accepted_step oneItemColumn (by decide +kernel)))
    (accepted_step textForItem (by decide +kernel))
  obtain ⟨tree, items⟩ := claim _ reached
  obtain ⟨e, order, children, item, he, ho, hchildren, hmem, hroot, hinstance⟩ :=
    (tree.located 4 (.keyed 1 7 5)).mp (by decide +kernel)
  obtain ⟨n, hn, hkind⟩ := items 1 e order children he ho hchildren _ hmem
  rw [hroot] at hn
  have hnode : (afterPatch (afterPatch .empty oneItemColumn) textForItem).node 4 = some n := hn
  have htext : ((afterPatch (afterPatch .empty oneItemColumn) textForItem).node 4).map (·.kind) =
      some .text := by decide +kernel
  rw [hnode, Option.map_some, hkind] at htext
  cases htext

def boundaryForItem : Patch ℕ := .replace 2 4 [⟨4, .boundary 5, [5]⟩, ⟨5, .text, []⟩]

theorem rebuilt_item_well_formed :
    WellFormed (afterPatch (afterPatch .empty oneItemColumn) boundaryForItem) := by
  refine reachable_well_formed (reachable_step (reachable_step (reachable_initial _)
    (e := oneItemColumn) ⟨trivial, accepted_step _ (by decide +kernel)⟩)
    (e := boundaryForItem) ⟨?_, accepted_step _ (by decide +kernel)⟩)
  intro container key instanceId hparent
  have hold : (afterPatch .empty oneItemColumn).parentLocation 2 = some (.keyed 1 7 5) := by
    decide +kernel
  cases hold.symm.trans hparent
  exact ⟨⟨4, .boundary 5, [5]⟩, .inl (by simp), rfl, rfl⟩

end WellFormed

end GraphRuns
