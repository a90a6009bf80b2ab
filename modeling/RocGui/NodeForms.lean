import RocGui.FragmentAcceptance
import RocGui.KeyedListings

/-! What form a mounted node keeps over every run of accepted patches: its id, its number of
children, and an order only where it has no ordinary children. -/
namespace NodeForms

open FiniteMaps KeyedLists Methods KeyedOrder GraphState FragmentValidation GraphPatches FragmentTrees
open FragmentRules FragmentAcceptance GraphForests GraphMounting GraphGrafts GraphReplacements
open KeyedStaging KeyedTransactions KeyedListings GraphRuns PointerTrees Transitions

variable {K : Type} [DecidableEq K]

structure Formed (g : MountedGraph K) : Prop where
  named : ∀ id e, g.nodes.get id = some e → e.node.id = id
  counted : ∀ id e, g.nodes.get id = some e → ChildCount e.node
  ordered : ∀ id e, g.nodes.get id = some e → e.keyedChildren.isSome →
    e.node.children = [] ∨ ∃ label revision keys, e.node.kind = .keyedColumn label revision keys

omit [DecidableEq K] in
theorem count_congr {n m : Node K} (hkind : m.kind = n.kind)
    (hlength : m.children.length = n.children.length) (h : ChildCount n) : ChildCount m := by
  have hnil : m.children = [] ↔ n.children = [] := by
    rw [← List.length_eq_zero_iff, ← List.length_eq_zero_iff, hlength]
  unfold ChildCount at h ⊢
  rw [hkind]
  split <;> simp_all

section Steps

variable {g g' : MountedGraph K} {patch : Patch K}

theorem grafted_formed {removed : List ℕ} {nodes : List (Node K)} {frontier : Finset ℕ}
    {tops : List (ℕ × Option (ParentLocation K))} {site root : Option ℕ}
    (e : Grafted g g' removed nodes frontier tops site root) (h : Shape g) (formed : Formed g)
    (counts : ∀ n ∈ nodes, ChildCount n) : Formed g' := by
  have hentry : ∀ id entry, g'.nodes.get id = some entry → entry.node.id = id ∧
      ChildCount entry.node ∧ (entry.keyedChildren.isSome → entry.node.children = [] ∨
        ∃ label revision keys, entry.node.kind = .keyedColumn label revision keys) := by
    intro id entry he
    have hc := content_eq he
    have hm : (forest g').Mounted id := mounted_iff.mpr (Option.isSome_of_eq_some he)
    rcases (e.mounted h id).mp hm with ⟨hold, hkept⟩ | hfresh
    · obtain ⟨old, hget⟩ := Option.isSome_iff_exists.mp (mounted_iff.mp hold)
      obtain ⟨c, hcontent, hid, hlength, horder⟩ := e.filed_kept h hold hkept hc
      obtain rfl := Option.some.inj ((content_eq hget).symm.trans hcontent)
      have hkind := e.kind_kept h hold hkept
      rw [node_of_content, node_of_content, hc, content_eq hget] at hkind
      replace hkind : entry.node.kind = old.node.kind := Option.some.inj hkind
      refine ⟨hid.trans (formed.named id old hget), count_congr hkind hlength (formed.counted id old hget),
        fun hsome => ?_⟩
      have hbare : old.node.children = [] → entry.node.children = [] := by
        intro hnil
        exact List.length_eq_zero_iff.mp (hlength.trans (List.length_eq_zero_iff.mpr hnil))
      rcases horder hsome with hsome | hnil
      · rw [hkind]
        exact (formed.ordered id old hget hsome).imp_left hbare
      · exact .inl (hbare hnil)
    · obtain ⟨m, hmem, rfl⟩ := List.mem_map.mp hfresh
      obtain ⟨order, hcontent, hkind⟩ := e.filed_fresh h hmem
      obtain ⟨hnode, horder⟩ := Prod.mk.inj (Option.some.inj (hc.symm.trans hcontent))
      rw [hnode, horder]
      exact ⟨rfl, counts m hmem, fun hsome => .inr (hkind hsome)⟩
  exact ⟨fun id entry he => (hentry id entry he).1, fun id entry he => (hentry id entry he).2.1,
    fun id entry he => (hentry id entry he).2.2⟩

theorem step_formed (h : Shape g) (formed : Formed g) (step : (accepting K).Step g patch g') :
    Formed g' := by
  obtain ⟨hashOrder, a, hrun⟩ := step
  have replaced {r : Replacement K} (hrun : (applyReplacement r).run g = .ok a g') : Formed g' := by
    obtain ⟨plan, hplan, e⟩ := replacement_grafted h hrun
    obtain ⟨-, outer, -, -, hvalidated, -⟩ := plan_checks hplan
    exact grafted_formed e h formed (accepted_admissible hvalidated).counts
  cases patch with
  | mount root nodes => exact replaced hrun
  | noChange => exact noChange_run hrun ▸ formed
  | replace oldRoot root nodes => exact replaced hrun
  | replaceRetaining oldRoot root nodes retainedRoots => exact replaced hrun
  | keyed container baseRevision newRevision operations =>
    obtain ⟨keyed, hkeyed⟩ := apply_keyed_run hrun
    obtain ⟨entry, owner, prepared, j, hentry, -, -, hprepare, hcommit⟩ := apply_keyed_ok hkeyed
    obtain ⟨l₀, l, -, e⟩ := commit_grafted h hentry hprepare hcommit
    refine grafted_formed e h formed fun n hn => ?_
    obtain ⟨f, hf, hnode⟩ := List.mem_flatMap.mp hn
    exact (accepted_admissible ((prepared_checks hprepare).1 f hf)).counts n hnode

omit [DecidableEq K] in
theorem formed_empty : Formed (.empty : MountedGraph K) := by
  have hnone : ∀ id e, (MountedGraph.empty : MountedGraph K).nodes.get id ≠ some e := by
    intro id e he
    cases (FiniteMap.get_empty id).symm.trans he
  exact ⟨fun id e he => absurd he (hnone id e), fun id e he => absurd he (hnone id e),
    fun id e he => absurd he (hnone id e)⟩

theorem formed_reachable (h : Reachable (accepting K) g) : Formed g := by
  refine (reachable_invariant (S := accepting K) (P := fun g => Shape g ∧ Formed g)
    ⟨shape_empty, formed_empty⟩ ?_ h).2
  rintro s patch t ⟨shape, formed⟩ step
  exact ⟨step_shape shape step, step_formed shape formed step⟩

end Steps

end NodeForms
