import RocGui.LocatorMatches
import RocGui.PreorderWalks

/-! The nodes a person can perceive: the walk that lists them, next to the climb that decides for one
node. -/
namespace PresentedPreorders

open FiniteMaps Methods GraphState GraphPatches GraphForests GraphMounting GraphRuns NodeForms FocusSearches
open FocusLandings LocatorMatches PointerTrees PreorderWalks Transitions

variable {K : Type} [DecidableEq K] {g : MountedGraph K}

section Document

def kidsOf (g : MountedGraph K) (x : ℕ) : List ℕ := ((forest g).kids x).map Prod.fst

variable {fuel : ℕ} {pending ids : List ℕ} {nodes : List (Node K)} {x y : ℕ}

theorem mem_kids_of {c : ℕ} : c ∈ kidsOf g x ↔ (forest g).Child x c := by
  constructor
  · intro hc
    obtain ⟨⟨c, l⟩, hl, rfl⟩ := List.mem_map.mp hc
    exact ⟨l, hl⟩
  · rintro ⟨l, hl⟩
    exact List.mem_map.mpr ⟨(c, l), hl, rfl⟩

theorem under_iff : Under (kidsOf g) x y ↔ (forest g).Below x y := by
  have hchild : (fun a b => b ∈ kidsOf g a) = (forest g).Child := by
    funext a b
    exact propext mem_kids_of
  rw [Under, hchild]
  rfl

theorem walk_preorder (h : Shape g) (formed : Formed g) (hrun : preorderFrom g fuel pending = .ok nodes) :
    Preorder (kidsOf g) pending (nodes.map (·.id)) := by
  induction fuel generalizing pending nodes with
  | zero =>
    cases pending with
    | nil =>
      cases hrun
      exact .done
    | cons x pending => cases hrun
  | succ fuel ih =>
    cases pending with
    | nil =>
      cases hrun
      exact .done
    | cons x pending =>
      rw [preorderFrom] at hrun
      split at hrun
      · cases hrun
      rename_i n hn
      obtain ⟨children, hchildren, hrun⟩ := except_bind_ok.mp hrun
      obtain ⟨rest, hrest, heq⟩ := except_bind_ok.mp hrun
      obtain rfl : n :: rest = nodes := Except.ok.inj heq
      obtain ⟨e, he, rfl⟩ := entry_of_node hn
      rw [children_of_rev h] at hchildren
      obtain rfl := Except.ok.inj hchildren
      rw [List.reverse_reverse] at hrest
      rw [List.map_cons, formed.named x e he]
      exact .enter (ih hrest)

theorem preorder_length (h : Shape g) (hm : ∀ x ∈ pending, (forest g).Mounted x)
    (listed : Preorder (kidsOf g) pending ids) : ids.length = load g pending := by
  induction listed with
  | done => rfl
  | @enter x pending ids _ ih =>
    have hmounted : ∀ y ∈ kidsOf g x ++ pending, (forest g).Mounted y := by
      intro y hy
      rcases List.mem_append.mp hy with hy | hy
      · exact kids_mounted h hy
      · exact hm y (List.mem_cons_of_mem _ hy)
    rw [List.length_cons, ih hmounted, load_append, load_cons h (hm x List.mem_cons_self), kidsOf, load_kids]

/-- The document: the mounted nodes, each of them once. -/
structure Document (g : MountedGraph K) (nodes : List (Node K)) : Prop where
  run : nodesPreorder g = .ok nodes
  order : Preorder (kidsOf g) g.root.toList (nodes.map (·.id))
  distinct : (nodes.map (·.id)).Nodup
  listed : ∀ n, n ∈ nodes ↔ g.node n.id = some n

theorem document_exists (h : Shape g) (formed : Formed g) : ∃ nodes, Document g nodes := by
  obtain ⟨nodes, hrun, hlisted⟩ := preorder_lists h formed
  have order := walk_preorder h formed hrun
  refine ⟨nodes, hrun, order, ?_, hlisted⟩
  have hroots : ∀ x ∈ g.root.toList, (forest g).Mounted x := by
    intro x hx
    exact (h.linked.rooted x (Option.mem_toList.mp hx)).1
  have hlength : (nodes.map (·.id)).length ≤ g.nodes.size := by
    rw [preorder_length h hroots order]
    cases hroot : g.root with
    | none => exact Nat.zero_le _
    | some r =>
      rw [Option.toList_some, load, List.map_singleton, List.sum_singleton]
      exact weight_le_size h (h.linked.rooted r hroot).1
  have hkeys : g.nodes.keys ⊆ (nodes.map (·.id)).toFinset := by
    intro x hx
    obtain ⟨n, hn⟩ := node_exists (mounted_iff.mpr (FiniteMap.mem_keys.mp hx))
    obtain ⟨e, he, rfl⟩ := entry_of_node hn
    have hid := formed.named x e he
    rw [List.mem_toFinset, List.mem_map]
    exact ⟨e.node, (hlisted e.node).mpr (hid.symm ▸ hn), hid⟩
  have hcard := Finset.card_le_card hkeys
  rw [List.card_toFinset] at hcard
  have hdedup : (nodes.map (·.id)).dedup = nodes.map (·.id) :=
    (List.dedup_sublist _).eq_of_length_le (hlength.trans hcard)
  exact List.dedup_eq_self.mp hdedup

theorem mem_document (formed : Formed g) (doc : Document g nodes) :
    x ∈ nodes.map (·.id) ↔ (forest g).Mounted x := by
  rw [List.mem_map]
  constructor
  · rintro ⟨n, hn, rfl⟩
    exact mounted_node ((doc.listed n).mp hn)
  · intro hm
    obtain ⟨n, hn⟩ := node_exists hm
    obtain ⟨e, he, rfl⟩ := entry_of_node hn
    have hid := formed.named x e he
    exact ⟨e.node, (doc.listed e.node).mpr (hid.symm ▸ hn), hid⟩

end Document

section Presented

open Classical in
/-- The children that are presented where their parent is. -/
noncomputable def presentedKids (g : MountedGraph K) (x : ℕ) : List ℕ :=
  (kidsOf g x).filter fun c => Shown g c

variable {fuel : ℕ} {pending ids : List ℕ} {nodes : List (Node K)} {x : ℕ}

theorem presented_children (h : Shape g) (formed : Formed g) {n : Node K} (hn : g.node x = some n)
    (hx : Shown g x) : shownChildren g x n = .ok (presentedKids g x) := by
  classical
  rw [shown_listed h formed hn, presentedKids, kidsOf, List.filter_map]
  congr 2
  refine List.filter_congr fun c hc => ?_
  have hplace := (h.linked.placed hc).2
  have howner := h.linked.owned hc
  rw [Function.comp_apply, Bool.eq_iff_iff, Bool.not_eq_true', decide_eq_true_eq, shown_under h hplace, howner,
    and_iff_left hx]

theorem presented_listed (h : Shape g) (formed : Formed g) (listed : Preorder (presentedKids g) pending ids)
    (hpending : ∀ x ∈ pending, (forest g).Mounted x ∧ Shown g x) (enough : ids.length ≤ fuel) :
    ∃ nodes, presentedPreorderFrom g fuel pending = .ok nodes ∧ nodes.map (·.id) = ids ∧
      ∀ n ∈ nodes, g.node n.id = some n := by
  classical
  induction listed generalizing fuel with
  | done => exact ⟨[], by cases fuel <;> rfl, rfl, nofun⟩
  | @enter x pending ids _ ih =>
    rw [List.length_cons] at enough
    obtain ⟨fuel, rfl⟩ : ∃ n, fuel = n + 1 := ⟨fuel - 1, by omega⟩
    obtain ⟨hm, hshown⟩ := hpending x List.mem_cons_self
    obtain ⟨n, hn⟩ := node_exists hm
    obtain ⟨e, he, rfl⟩ := entry_of_node hn
    have hbelow : ∀ y ∈ presentedKids g x ++ pending, (forest g).Mounted y ∧ Shown g y := by
      intro y hy
      rcases List.mem_append.mp hy with hy | hy
      · obtain ⟨hkid, hy⟩ := List.mem_filter.mp hy
        exact ⟨kids_mounted h hkid, of_decide_eq_true hy⟩
      · exact hpending y (List.mem_cons_of_mem _ hy)
    have hfuel : ids.length ≤ fuel := by omega
    obtain ⟨nodes, hrun, hids, hnodes⟩ := ih hbelow hfuel
    have hid := formed.named x e he
    refine ⟨e.node :: nodes, ?_, by rw [List.map_cons, hids, hid], ?_⟩
    · rw [presentedPreorderFrom, hn]
      dsimp only
      rw [presented_children h formed hn hshown]
      dsimp only [bind, Except.bind]
      rw [hrun]
      rfl
    · intro m hmem
      rcases List.mem_cons.mp hmem with rfl | hmem
      · rw [hid]
        exact hn
      · exact hnodes m hmem

theorem presented_preorder (h : Shape g) (formed : Formed g) (doc : Document g nodes) :
    ∃ shown, presentedPreorder g = .ok shown ∧ shown.Sublist nodes ∧
      ∀ n ∈ nodes, n ∈ shown ↔ Shown g n.id := by
  classical
  have hroots : ∀ x ∈ g.root.toList, (forest g).Mounted x ∧ Shown g x := by
    intro x hx
    obtain ⟨hm, htop⟩ := h.linked.rooted x (Option.mem_toList.mp hx)
    exact ⟨hm, shown_top h htop⟩
  have down (x : ℕ) (hx : decide (Shown g x) = false) (c : ℕ) (hc : c ∈ kidsOf g x) :
      decide (Shown g c) = false := by
    obtain ⟨l, hl⟩ := mem_kids_of.mp hc
    refine decide_eq_false fun hshown => of_decide_eq_false hx ?_
    rw [shown_under h (h.linked.placed hl).2, h.linked.owned hl] at hshown
    exact hshown.2
  have pruned (x : ℕ) (_ : decide (Shown g x) = true) :
      presentedKids g x = (kidsOf g x).filter fun c => Shown g c := rfl
  have listed := doc.order.filtered pruned down
  rw [List.filter_eq_self.mpr fun x hx => decide_eq_true (hroots x hx).2] at listed
  have enough : ((nodes.map (·.id)).filter fun x => decide (Shown g x)).length ≤ g.climb := by
    have hall : (nodes.map (·.id)).length ≤ g.nodes.size := by
      rw [← List.toFinset_card_of_nodup doc.distinct]
      refine Finset.card_le_card fun x hx => ?_
      exact FiniteMap.mem_keys.mpr (mounted_iff.mp ((mem_document formed doc).mp (List.mem_toFinset.mp hx)))
    exact (List.length_filter_le _ _).trans (hall.trans (Nat.le_succ _))
  obtain ⟨shown, hrun, hids, hnodes⟩ := presented_listed h formed listed hroots enough
  have heq : shown = nodes.filter fun n => Shown g n.id := by
    rw [List.filter_map] at hids
    have hall : ∀ n ∈ nodes.filter fun n => Shown g n.id, g.node n.id = some n :=
      fun n hn => (doc.listed n).mp (List.mem_of_mem_filter hn)
    have hmaps : shown.map (fun n => g.node n.id) =
        (nodes.filter fun n => Shown g n.id).map (fun n => g.node n.id) := by
      have := congrArg (List.map g.node) hids
      simpa only [List.map_map, Function.comp_def] using this
    rw [List.map_congr_left hnodes, List.map_congr_left hall] at hmaps
    exact List.map_injective_iff.mpr (Option.some_injective _) hmaps
  refine ⟨shown, hrun, heq ▸ List.filter_sublist, fun n hn => ?_⟩
  rw [heq, List.mem_filter, and_iff_right hn, decide_eq_true_eq]

/-- What the two walks list. -/
structure PreordersAgree (g : MountedGraph K) : Prop where
  lists : ∃ nodes shown, nodesPreorder g = .ok nodes ∧ presentedPreorder g = .ok shown ∧
    (∀ n, n ∈ nodes ↔ g.node n.id = some n) ∧ (nodes.map (·.id)).Nodup ∧
    Preorder (kidsOf g) g.root.toList (nodes.map (·.id)) ∧ shown.Sublist nodes ∧
    ∀ n, n ∈ shown ↔ g.node n.id = some n ∧ isPresented g n.id = .ok true

/-- Whatever popovers are open: the walk that skips what is hidden lists, in the order of the document
and each of them once, the nodes whose climb meets nothing that hides them. -/
theorem presented_agrees (hreach : Reachable (accepting K) g) (i : Interaction) :
    PreordersAgree { g with interaction := i } := by
  have shape := shape_reachable hreach
  have form := formed_reachable hreach
  have h : Shape { g with interaction := i } := ⟨shape.orders, shape.linked, shape.weighed, shape.issued⟩
  have formed : Formed { g with interaction := i } := ⟨form.named, form.counted, form.ordered⟩
  obtain ⟨nodes, doc⟩ := document_exists h formed
  obtain ⟨shown, hrun, hsub, hshown⟩ := presented_preorder h formed doc
  refine ⟨nodes, shown, doc.run, hrun, doc.listed, doc.distinct, doc.order, hsub, fun n => ?_⟩
  constructor
  · intro hn
    have hnodes := hsub.subset hn
    have hnode := (doc.listed n).mp hnodes
    exact ⟨hnode, (presented_iff h (mounted_node hnode)).mpr ((hshown n hnodes).mp hn)⟩
  · rintro ⟨hnode, hpresented⟩
    exact (hshown n ((doc.listed n).mpr hnode)).mpr ((presented_iff h (mounted_node hnode)).mp hpresented)

/-- The folded pane is mounted and left out. -/
theorem folded_agrees : PreordersAgree { afterPatch (.empty : MountedGraph ℕ) foldedMounted with
    interaction := MountedGraph.empty.interaction (K := ℕ) } :=
  presented_agrees folded_reached _

end Presented

end PresentedPreorders
