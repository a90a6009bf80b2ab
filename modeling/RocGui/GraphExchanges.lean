import RocGui.GraphMounting

/-! The other pieces of a patch: walks over what goes, its retirement, and the sizes of
the ancestors. -/
namespace GraphExchanges

open FiniteMaps Methods KeyedOrder GraphState GraphPatches GraphForests GraphMounting
open PointerTrees StackWalks

variable {K : Type}

section Retiring

variable {g g' : MountedGraph K}

structure Retired (g g' : MountedGraph K) (removed : List ℕ) : Prop where
  nodes : ∀ x, g'.nodes.get x = if x ∈ removed then none else g.nodes.get x
  mounted : ∀ x ∈ removed, (g.nodes.get x).isSome
  root : g'.root = g.root
  issued : g'.maxSeenNodeId = g.maxSeenNodeId

theorem retire_ok {message : String} {instances ended : List ℕ} {id : ℕ}
    (h : (retire message instances id).run g = .ok ended g') :
    (g.nodes.get id).isSome ∧ frame g' = (g.nodes.remove id, g.root, g.maxSeenNodeId) := by
  simp only [retire, bind_ok, get_ok, expect_ok, modify_ok] at h
  obtain ⟨_, _, ⟨rfl, rfl⟩, e, _, ⟨he, rfl⟩, _, t, rfl, hrest⟩ := h
  refine ⟨by simp [he], ?_⟩
  have kept : frame g' = frame { g with nodes := g.nodes.remove id } := by
    refine kept_of_preserves (fun c => ?_) hrest
    split
    · exact preserves_bind (preserves_modify fun _ h => h) fun _ => preserves_pure _
    · exact preserves_bind (preserves_modify fun _ h => h) fun _ => preserves_pure _
    · exact preserves_bind (preserves_modify fun _ h => h) fun _ => preserves_pure _
    · exact preserves_pure _
  exact kept

theorem retire_all {message : String} {removed instances ended : List ℕ}
    (h : (removed.foldlM (retire message) instances).run g = .ok ended g') :
    Retired g g' removed := by
  induction removed generalizing g instances with
  | nil =>
    obtain ⟨-, rfl⟩ := foldlM_nil_ok.mp h
    exact ⟨fun _ => rfl, by simp, rfl, rfl⟩
  | cons id rest ih =>
    rw [foldlM_cons_ok] at h
    obtain ⟨next, t, hretire, hrest⟩ := h
    obtain ⟨hmounted, hframe⟩ := retire_ok hretire
    simp only [frame, Prod.mk.injEq] at hframe
    obtain ⟨hnodes, hroot, hissued⟩ := hframe
    have retired := ih hrest
    refine ⟨fun x => ?_, fun x hx => ?_, retired.root.trans hroot, retired.issued.trans hissued⟩
    · rw [retired.nodes, hnodes, FiniteMap.get_remove]
      by_cases hx : x = id <;> by_cases hr : x ∈ rest <;> simp [hx, hr]
    · rcases List.mem_cons.mp hx with rfl | hx
      · exact hmounted
      · have := retired.mounted x hx
        rw [hnodes, FiniteMap.get_remove] at this
        split at this
        · cases this
        · exact this

end Retiring

variable [DecidableEq K] {g g' : MountedGraph K}

section Resizing

structure Resized (g g' : MountedGraph K) (old new : ℕ) (along : List ℕ) : Prop where
  same : SameContent g g'
  parents : g'.parentLocation = g.parentLocation
  weights : ∀ F : Forest ℕ (ParentLocation K), F.weight = (forest g).weight →
    (F.resizedAlong old new along).weight = (forest g').weight

omit [DecidableEq K] in
theorem weight_put (id : ℕ) (e : MountedNode K) :
    (fun x => ((put g id e).subtreeSize x).getD 0) =
      Function.update (fun x => (g.subtreeSize x).getD 0) id e.subtreeSize := by
  funext x
  rw [size_put, Function.update_apply, Function.update_apply]
  split <;> rfl

theorem resize_from {old new fuel : ℕ} {current : Option ℕ} {u : Unit}
    (h : (resizeFrom old new fuel current).run g = .ok u g') :
    ∃ along, UpTo ParentLocation.parent g.parentLocation current along ∧
      Resized g g' old new along := by
  induction fuel generalizing g current with
  | zero =>
    cases current with
    | none =>
      obtain ⟨-, rfl⟩ := pure_ok.mp h
      exact ⟨[], .top, ⟨rfl, rfl, rfl⟩, rfl, fun _ h => h⟩
    | some q => cases h
  | succ fuel ih =>
    cases current with
    | none =>
      obtain ⟨-, rfl⟩ := pure_ok.mp h
      exact ⟨[], .top, ⟨rfl, rfl, rfl⟩, rfl, fun _ h => h⟩
    | some q =>
      simp only [resizeFrom, bind_ok, alter_run_ok, get_ok] at h
      obtain ⟨_, t, ⟨e, he, ht⟩, _, _, ⟨rfl, rfl⟩, hrest⟩ := h
      obtain rfl : t = put g q { e with subtreeSize := e.subtreeSize - old + new } := ht
      have hput := sameContent_put he { e with subtreeSize := e.subtreeSize - old + new } rfl rfl
      have hparents : (put g q { e with subtreeSize := e.subtreeSize - old + new }).parentLocation =
          g.parentLocation := by rw [location_put, ← location_eq he, Function.update_eq_self]
      obtain ⟨along, up, resized⟩ := ih hrest
      rw [hparents] at up
      refine ⟨q :: along, .up up, hput.trans resized.same, resized.parents.trans hparents, ?_⟩
      intro F hF
      refine resized.weights (F.resized q old new) ?_
      change Function.update F.weight q (F.weight q - old + new) = _
      rw [hF, weight_eq he]
      exact (weight_put q { e with subtreeSize := e.subtreeSize - old + new }).symm

theorem resize_ancestors {old new : ℕ} {current : Option ℕ} {u : Unit}
    (h : (resizeAncestors old new current).run g = .ok u g') :
    ∃ along, UpTo ParentLocation.parent g.parentLocation current along ∧
      Resized g g' old new along := by
  simp only [resizeAncestors, bind_ok, get_ok] at h
  obtain ⟨_, _, ⟨rfl, rfl⟩, hrun⟩ := h
  exact resize_from hrun

end Resizing

section Walking

theorem collect_retired (h : Shape g) {frontier : Finset ℕ} {fuel : ℕ} {pending removed : List ℕ}
    {found : Finset ℕ} (hrun : collectRetired g frontier fuel pending = .ok (removed, found)) :
    ∃ met, Walked (forest g) (· ∈ frontier) pending removed met ∧ met.toFinset = found := by
  induction fuel generalizing pending removed found with
  | zero =>
    cases pending with
    | nil =>
      cases hrun
      exact ⟨[], .done, rfl⟩
    | cons id pending => cases hrun
  | succ fuel ih =>
    cases pending with
    | nil =>
      cases hrun
      exact ⟨[], .done, rfl⟩
    | cons id pending =>
      simp only [collectRetired] at hrun
      split at hrun
      · rename_i hid
        simp only [except_bind_ok] at hrun
        obtain ⟨⟨rest, met⟩, hrest, heq⟩ := hrun
        obtain ⟨ms, walked, rfl⟩ := ih hrest
        obtain ⟨rfl, rfl⟩ := Prod.mk.inj (Except.ok.inj heq)
        exact ⟨id :: ms, .stop hid walked, by simp⟩
      · rename_i hid
        simp only [except_bind_ok] at hrun
        obtain ⟨children, hchildren, ⟨rest, met⟩, hrest, heq⟩ := hrun
        obtain ⟨ms, walked, rfl⟩ := ih hrest
        obtain ⟨rfl, rfl⟩ := Prod.mk.inj (Except.ok.inj heq)
        rw [children_of_rev h] at hchildren
        obtain rfl := Except.ok.inj hchildren
        rw [List.reverse_reverse] at walked
        exact ⟨ms, .enter hid (List.Perm.refl _) walked, rfl⟩

/-- The walk below the removed roots of a container never meets the container, so it
does not matter that the order was taken out of it. -/
theorem collect_removed (h : Shape g) {taken : MountedGraph K} {container fuel : ℕ}
    {pending removed : List ℕ} (same : ∀ x, x ≠ container → taken.nodes.get x = g.nodes.get x)
    (below : ∀ x ∈ pending, (forest g).weight x < (forest g).weight container)
    (hrun : collectRemoved taken fuel pending = .ok removed) :
    Walked (forest g) (fun _ => False) pending removed [] := by
  induction fuel generalizing pending removed with
  | zero =>
    cases pending with
    | nil =>
      cases hrun
      exact .done
    | cons id pending => cases hrun
  | succ fuel ih =>
    cases pending with
    | nil =>
      cases hrun
      exact .done
    | cons id pending =>
      simp only [collectRemoved, except_bind_ok] at hrun
      obtain ⟨children, hchildren, rest, hrest, heq⟩ := hrun
      obtain rfl : id :: rest = removed := Except.ok.inj heq
      have hid := below id (by simp)
      have hne : id ≠ container := fun heq => absurd hid (heq ▸ lt_irrefl _)
      have hsame : (taken.childrenOf id : Reading K _) = g.childrenOf id := by
        simp only [MountedGraph.childrenOf, same id hne]
      rw [hsame, children_of h] at hchildren
      obtain rfl := Except.ok.inj hchildren
      refine .enter not_false (List.reverse_perm _) (ih (fun x hx => ?_) hrest)
      rcases List.mem_append.mp hx with hx | hx
      · obtain ⟨⟨c, loc⟩, hc, rfl⟩ := List.mem_map.mp (List.mem_reverse.mp hx)
        exact (weight_child h.weighed ⟨loc, hc⟩).trans hid
      · exact below x (List.mem_cons_of_mem _ hx)

end Walking

end GraphExchanges
