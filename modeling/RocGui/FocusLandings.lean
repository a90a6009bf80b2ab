import RocGui.DialogRegions
import RocGui.FocusSearches
import RocGui.NodeForms

/-! Where focus lands: which controls the searches of a mounted graph answer, and when a person
can see every one of them. -/
namespace FocusLandings

open FiniteMaps Methods KeyedOrder GraphState GraphPatches FragmentTrees FragmentRules GraphForests
open GraphMounting GraphRuns DialogRegions NodeForms FocusSearches PointerTrees StackWalks Transitions

variable {K : Type} [DecidableEq K] {g : MountedGraph K}

def Focusable (g : MountedGraph K) (id : ℕ) : Prop :=
  ∃ n, g.node id = some n ∧ (focusIdentity n.kind).isSome

section Preorder

variable {fuel : ℕ} {pending : List ℕ} {nodes : List (Node K)} {x : ℕ} {n : Node K}

omit [DecidableEq K] in
theorem entry_of_node (hn : g.node x = some n) : ∃ e, g.nodes.get x = some e ∧ e.node = n :=
  Option.map_eq_some_iff.mp hn

theorem mounted_node (hn : g.node x = some n) : (forest g).Mounted x := by
  obtain ⟨e, he, -⟩ := entry_of_node hn
  exact mounted_iff.mpr (Option.isSome_of_eq_some he)

theorem node_exists (hm : (forest g).Mounted x) : ∃ n, g.node x = some n := by
  obtain ⟨e, he⟩ := Option.isSome_iff_exists.mp (mounted_iff.mp hm)
  exact ⟨e.node, by rw [MountedGraph.node, he]; rfl⟩

theorem mounted_below (h : Shape g) {a : ℕ} (ha : (forest g).Mounted a) (hbelow : (forest g).Below a x) :
    (forest g).Mounted x := by
  rcases Relation.ReflTransGen.cases_tail hbelow with rfl | ⟨b, -, l, hl⟩
  · exact ha
  · exact (h.linked.placed hl).1

theorem weight_le_size (h : Shape g) (hm : (forest g).Mounted x) : (forest g).weight x ≤ g.nodes.size := by
  obtain ⟨xs, nodup, hlength, hmem⟩ := descendants_listed h.linked h.weighed hm
  rw [← hlength, FiniteMap.size, ← List.toFinset_card_of_nodup nodup]
  apply Finset.card_le_card
  intro y hy
  have hbelow := (hmem y).mp (List.mem_toFinset.mp hy)
  exact FiniteMap.mem_keys.mpr (mounted_iff.mp (mounted_below h hm hbelow))

/-- What a walk still has to do: each node on its stack weighs as much as lies below it. -/
def load (g : MountedGraph K) (pending : List ℕ) : ℕ := (pending.map (forest g).weight).sum

theorem load_append (front back : List ℕ) : load g (front ++ back) = load g front + load g back := by
  rw [load, List.map_append, List.sum_append]
  rfl

theorem load_kids (x : ℕ) : load g (((forest g).kids x).map Prod.fst) = (forest g).total ((forest g).kids x) := by
  rw [load, List.map_map]
  rfl

theorem load_cons (h : Shape g) (hm : (forest g).Mounted x) :
    load g (x :: pending) = (forest g).total ((forest g).kids x) + load g pending + 1 := by
  rw [load, List.map_cons, List.sum_cons, h.weighed x hm]
  change _ + load g pending = _
  omega

theorem kids_mounted (h : Shape g) {c : ℕ} (hc : c ∈ ((forest g).kids x).map Prod.fst) :
    (forest g).Mounted c := by
  obtain ⟨⟨c, l⟩, hl, rfl⟩ := List.mem_map.mp hc
  exact (h.linked.placed hl).1

theorem preorder_ends (h : Shape g) (hm : ∀ x ∈ pending, (forest g).Mounted x)
    (enough : load g pending ≤ fuel) : ∃ nodes, preorderFrom g fuel pending = .ok nodes := by
  induction fuel generalizing pending with
  | zero =>
    cases pending with
    | nil => exact ⟨[], rfl⟩
    | cons x pending =>
      rw [load_cons h (hm x List.mem_cons_self)] at enough
      omega
  | succ fuel ih =>
    cases pending with
    | nil => exact ⟨[], rfl⟩
    | cons x pending =>
      have hx := hm x List.mem_cons_self
      obtain ⟨n, hn⟩ := node_exists hx
      rw [load_cons h hx] at enough
      obtain ⟨nodes, hnodes⟩ := @ih (((forest g).kids x).map Prod.fst ++ pending)
        (by
          intro c hc
          rcases List.mem_append.mp hc with hc | hc
          · exact kids_mounted h hc
          · exact hm c (List.mem_cons_of_mem _ hc))
        (by
          rw [load_append, load_kids]
          omega)
      refine ⟨n :: nodes, ?_⟩
      rw [preorderFrom, hn]
      dsimp only
      rw [children_of_rev h]
      dsimp only [bind, Except.bind]
      rw [List.reverse_reverse, hnodes]
      rfl

theorem preorder_walked (h : Shape g) (formed : Formed g)
    (hrun : preorderFrom g fuel pending = .ok nodes) :
    Walked (forest g) (fun _ => False) pending (nodes.map (·.id)) [] ∧
      ∀ n ∈ nodes, g.node n.id = some n := by
  induction fuel generalizing pending nodes with
  | zero =>
    cases pending with
    | nil =>
      cases hrun
      exact ⟨.done, nofun⟩
    | cons x pending => cases hrun
  | succ fuel ih =>
    cases pending with
    | nil =>
      cases hrun
      exact ⟨.done, nofun⟩
    | cons x pending =>
      rw [preorderFrom] at hrun
      split at hrun
      · cases hrun
      rename_i n hn
      obtain ⟨children, hchildren, hrun⟩ := except_bind_ok.mp hrun
      obtain ⟨rest, hrest, heq⟩ := except_bind_ok.mp hrun
      obtain rfl : n :: rest = nodes := Except.ok.inj heq
      obtain ⟨e, he, rfl⟩ := entry_of_node hn
      have hid := formed.named x e he
      obtain ⟨walked, hnodes⟩ := ih hrest
      rw [children_of_rev h] at hchildren
      obtain rfl := Except.ok.inj hchildren
      rw [List.reverse_reverse] at walked
      constructor
      · rw [List.map_cons, hid]
        exact .enter not_false (List.Perm.refl _) walked
      · intro m hm
        rcases List.mem_cons.mp hm with rfl | hm
        · rw [hid]
          exact hn
        · exact hnodes m hm

theorem preorder_lists (h : Shape g) (formed : Formed g) :
    ∃ nodes, nodesPreorder g = .ok nodes ∧ ∀ n, n ∈ nodes ↔ g.node n.id = some n := by
  have hroots : ∀ x ∈ g.root.toList, (forest g).Mounted x := by
    intro x hx
    exact (h.linked.rooted x (Option.mem_toList.mp hx)).1
  have enough : load g g.root.toList ≤ g.climb := by
    cases hroot : g.root with
    | none => exact Nat.zero_le _
    | some r =>
      have hle := weight_le_size h (h.linked.rooted r hroot).1
      rw [Option.toList_some, load, List.map_singleton, List.sum_singleton, MountedGraph.climb]
      omega
  obtain ⟨nodes, hrun⟩ := preorder_ends h hroots enough
  obtain ⟨walked, hnodes⟩ := preorder_walked h formed hrun
  refine ⟨nodes, hrun, fun n => ⟨hnodes n, fun hn => ?_⟩⟩
  obtain ⟨r, hr, hbelow⟩ := reached h.linked h.weighed (finite_mounted g) (mounted_node hn)
  have hall : ∀ y, (forest g).Below r y → y ∈ nodes.map (·.id) := by
    intro y hy
    induction hy with
    | refl =>
      have hmem : r ∈ g.root.toList := Option.mem_toList.mpr hr
      exact (walked.pending_met hmem).resolve_right List.not_mem_nil
    | tail _ hc ih => exact (walked.closed ih hc).resolve_right List.not_mem_nil
  obtain ⟨m, hm, hid⟩ := List.mem_map.mp (hall n.id hbelow)
  have hsame := hnodes m hm
  rw [hid, hn] at hsame
  rwa [Option.some.inj hsame]

end Preorder

section Presentation

variable {x : ℕ} {l : ParentLocation K}

/-- Nothing the node stands in is hidden. -/
def Shown (g : MountedGraph K) (x : ℕ) : Prop :=
  ∀ y l, (forest g).Below y x → g.parentLocation y = some l → hides g l = false

theorem shown_top (h : Shape g) (hp : g.parentLocation x = none) : Shown g x := by
  intro y l hbelow hl
  rw [below_top h hp hbelow] at hp
  cases hp.symm.trans hl

theorem shown_under (h : Shape g) (hp : g.parentLocation x = some l) :
    Shown g x ↔ hides g l = false ∧ Shown g l.parent := by
  have hkid := h.linked.listed (mounted_iff.mpr (mounted_of_parent hp)) hp
  constructor
  · intro hshown
    exact ⟨hshown x l .refl hp, fun y m hbelow hy => hshown y m (hbelow.tail ⟨l, hkid⟩) hy⟩
  · rintro ⟨hopen, hshown⟩ y m hbelow hy
    by_cases hne : x = y
    · subst hne
      rw [← Option.some.inj (hp.symm.trans hy)]
      exact hopen
    · exact hshown y m ((below_parent h hp hne).mp hbelow) hy

theorem presented_from {fuel : ℕ} {b : Bool} (h : Shape g) (hrun : presentedFrom g fuel x = .ok b) :
    b = true ↔ Shown g x := by
  induction fuel generalizing x with
  | zero => cases hrun
  | succ fuel ih =>
    rw [presentedFrom] at hrun
    cases hp : g.parentLocation x with
    | none =>
      rw [hp] at hrun
      obtain rfl := Except.ok.inj hrun
      exact iff_of_true rfl (shown_top h hp)
    | some l =>
      rw [hp] at hrun
      dsimp only at hrun
      by_cases hhides : hides g l = true
      · rw [if_pos hhides] at hrun
        obtain rfl := Except.ok.inj hrun
        refine iff_of_false Bool.false_ne_true fun hshown => ?_
        rw [((shown_under h hp).mp hshown).1] at hhides
        cases hhides
      · rw [if_neg hhides] at hrun
        rw [ih hrun, shown_under h hp, and_iff_right (Bool.eq_false_iff.mpr hhides)]

omit [DecidableEq K] in
theorem presented_fuel {fuel : ℕ} {qs : List ℕ}
    (up : UpTo ParentLocation.parent g.parentLocation (some x) qs) (enough : qs.length ≤ fuel) :
    ∃ b, presentedFrom g fuel x = .ok b := by
  generalize hcur : some x = cur at up
  induction up generalizing x fuel with
  | top => cases hcur
  | @up q qs rest ih =>
    obtain rfl := Option.some.inj hcur
    rw [List.length_cons] at enough
    obtain ⟨fuel, rfl⟩ : ∃ n, fuel = n + 1 := ⟨fuel - 1, by omega⟩
    rw [presentedFrom]
    cases hp : g.parentLocation x with
    | none => exact ⟨true, rfl⟩
    | some l =>
      dsimp only
      by_cases hhides : hides g l = true
      · exact ⟨false, if_pos hhides⟩
      · rw [if_neg hhides]
        exact ih (by omega) (by rw [hp, Option.map_some])

theorem way_short (h : Shape g) (hm : (forest g).Mounted x) :
    ∃ qs, UpTo ParentLocation.parent g.parentLocation (some x) qs ∧ qs.length ≤ g.climb := by
  obtain ⟨qs, up⟩ := way_up h.linked h.weighed (finite_mounted g) hm
  have hlength := way_length h.linked h.weighed up hm (s := g.nodes.keys)
    fun q hq => FiniteMap.mem_keys.mpr (mounted_iff.mp hq)
  exact ⟨qs, up, hlength.trans (Nat.le_succ _)⟩

theorem presented_total (h : Shape g) (hm : (forest g).Mounted x) : ∃ b, isPresented g x = .ok b := by
  obtain ⟨qs, up, enough⟩ := way_short h hm
  exact presented_fuel up enough

theorem presented_iff (h : Shape g) (hm : (forest g).Mounted x) :
    isPresented g x = .ok true ↔ Shown g x := by
  constructor
  · exact fun hrun => (presented_from h hrun).mp rfl
  · intro hshown
    obtain ⟨b, hb⟩ := presented_total h hm
    rw [hb, (presented_from h hb).mpr hshown]

/-- A keystroke reaches the node: it is in the active dialog, if there is one, and presented. -/
def Live (g : MountedGraph K) (x : ℕ) : Prop :=
  (∀ d, g.dialog = some d → (forest g).Below d x) ∧ Shown g x

theorem region_live (h : Shape g) (hm : (forest g).Mounted x) :
    ∃ b, regionLive g x = .ok b ∧ (b = true ↔ Live g x) := by
  obtain ⟨shown, hshown⟩ := presented_total h hm
  have hiff := presented_from h hshown
  unfold regionLive Live
  cases hd : g.dialog with
  | none =>
    refine ⟨shown, hshown, ?_⟩
    rw [hiff]
    simp
  | some d =>
    obtain ⟨inside, hinside⟩ := descendant_total (ε := GraphError K) h x d
    have hbelow := descendant_iff h hinside
    dsimp only
    rw [hinside]
    dsimp only [bind, Except.bind]
    simp only [Option.some.injEq, forall_eq']
    by_cases hin : inside = true
    · rw [if_pos hin]
      exact ⟨shown, hshown, by rw [hiff, and_iff_right (hbelow.mp hin)]⟩
    · rw [if_neg hin]
      exact ⟨false, rfl, iff_of_false Bool.false_ne_true fun hlive => hin (hbelow.mpr hlive.1)⟩

end Presentation

section Requests

variable {x a b : ℕ} {l : ParentLocation K} {requests : List ℕ}

theorem path_fuel (h : Shape g) (hm : (forest g).Mounted x) {fuel : ℕ} {qs : List ℕ}
    (up : UpTo ParentLocation.parent g.parentLocation (some x) qs) (enough : qs.length ≤ fuel) :
    ∃ r rest, g.root = some r ∧ pathFrom g fuel x = .ok (r :: rest) := by
  generalize hcur : some x = cur at up
  induction up generalizing x fuel with
  | top => cases hcur
  | @up q qs rest ih =>
    obtain rfl := Option.some.inj hcur
    rw [List.length_cons] at enough
    obtain ⟨fuel, rfl⟩ : ∃ n, fuel = n + 1 := ⟨fuel - 1, by omega⟩
    rw [pathFrom]
    cases hp : g.parentLocation x with
    | none => exact ⟨x, [], h.linked.unparented hm hp, rfl⟩
    | some l =>
      obtain ⟨r, above, hr, hpath⟩ := ih (mounted_owner h.linked hm hp) (by omega : qs.length ≤ fuel)
        (by rw [hp, Option.map_some])
      dsimp only
      rw [hpath]
      exact ⟨r, above ++ [x], hr, rfl⟩

theorem precedes_total (h : Shape g) (ha : (forest g).Mounted a) (hb : (forest g).Mounted b) :
    ∃ first, precedes g a b = .ok first := by
  obtain ⟨qs, up, enough⟩ := way_short h ha
  obtain ⟨r, left, hr, hleft⟩ := path_fuel h ha up enough
  obtain ⟨qs', up', enough'⟩ := way_short h hb
  obtain ⟨r', right, hr', hright⟩ := path_fuel h hb up' enough'
  obtain rfl := Option.some.inj (hr.symm.trans hr')
  have hzip : (((r :: left).zip (r :: right)).takeWhile fun pair => pair.1 = pair.2).length =
      ((left.zip right).takeWhile fun pair => pair.1 = pair.2).length + 1 := by
    rw [List.zip_cons_cons, List.takeWhile_cons_of_pos (by simp), List.length_cons]
  unfold precedes pathFromRoot
  rw [hleft, hright]
  dsimp only [bind, Except.bind]
  rw [hzip]
  have hlast : ((left.zip right).takeWhile fun pair => pair.1 = pair.2).length < (r :: left).length := by
    have hleads : ((left.zip right).takeWhile fun pair => decide (pair.1 = pair.2)) <+: left.zip right :=
      List.takeWhile_prefix _
    have hle := hleads.length_le
    rw [List.length_zip] at hle
    rw [List.length_cons]
    omega
  split
  · exact ⟨_, rfl⟩
  · exact ⟨_, rfl⟩
  · dsimp only
    rw [List.getElem?_eq_getElem hlast]
    dsimp only
    rw [children_of h]
    exact ⟨_, rfl⟩

theorem latest_found (h : Shape g) (ha : (forest g).Mounted a)
    (hm : ∀ x ∈ requests, (forest g).Mounted x) :
    ∃ region, latest g a requests = .ok region ∧ region ∈ a :: requests := by
  induction requests generalizing a with
  | nil => exact ⟨a, rfl, List.mem_cons_self⟩
  | cons next rest ih =>
    have hnext := hm next List.mem_cons_self
    have hrest : ∀ x ∈ rest, (forest g).Mounted x := fun x hx => hm x (List.mem_cons_of_mem _ hx)
    obtain ⟨first, hfirst⟩ := precedes_total h ha hnext
    rw [latest, hfirst]
    dsimp only [bind, Except.bind]
    cases first with
    | true =>
      obtain ⟨region, hregion, hmem⟩ := ih hnext hrest
      exact ⟨region, hregion, List.mem_cons_of_mem _ hmem⟩
    | false =>
      obtain ⟨region, hregion, hmem⟩ := ih ha hrest
      refine ⟨region, hregion, ?_⟩
      rcases List.mem_cons.mp hmem with rfl | hmem
      · exact List.mem_cons_self
      · exact List.mem_cons_of_mem _ (List.mem_cons_of_mem _ hmem)

theorem requests_live (h : Shape g) (requests : List ℕ) : ∃ live, liveRequests g requests = .ok live ∧
    ∀ x ∈ live, (forest g).Mounted x ∧ Live g x := by
  induction requests with
  | nil => exact ⟨[], rfl, nofun⟩
  | cons x rest ih =>
    obtain ⟨live, hlive, hall⟩ := ih
    rw [liveRequests]
    by_cases hm : (g.nodes.get x).isSome
    · obtain ⟨b, hb, hiff⟩ := region_live h (mounted_iff.mpr hm)
      rw [if_pos hm, hb]
      dsimp only [bind, Except.bind]
      cases b with
      | true =>
        rw [if_pos rfl, hlive]
        refine ⟨x :: live, rfl, fun y hy => ?_⟩
        rcases List.mem_cons.mp hy with rfl | hy
        · exact ⟨mounted_iff.mpr hm, hiff.mp rfl⟩
        · exact hall y hy
      | false => exact ⟨live, hlive, hall⟩
    · rw [if_neg hm]
      exact ⟨live, hlive, hall⟩

def ShownChild (g : MountedGraph K) (a c : ℕ) : Prop :=
  ∃ l, (c, l) ∈ (forest g).kids a ∧ hides g l = false

def ShownBelow (g : MountedGraph K) : ℕ → ℕ → Prop := Relation.ReflTransGen (ShownChild g)

theorem shown_below (h : Shape g) (ha : Shown g a) (hbelow : ShownBelow g a x) : Shown g x := by
  induction hbelow with
  | refl => exact ha
  | tail _ hc ih =>
    obtain ⟨l, hl, hopen⟩ := hc
    rw [shown_under h (h.linked.placed hl).2, h.linked.owned hl]
    exact ⟨hopen, ih⟩

theorem below_shown (h : Shape g) (hbelow : (forest g).Below a x) (hx : Shown g x) :
    ShownBelow g a x := by
  induction hbelow with
  | refl => exact .refl
  | tail _ hc ih =>
    obtain ⟨l, hl⟩ := hc
    rw [shown_under h (h.linked.placed hl).2, h.linked.owned hl] at hx
    exact (ih hx.2).tail ⟨l, hl, hx.1⟩

theorem plain_below (hbelow : ShownBelow g a x) : (forest g).Below a x := by
  induction hbelow with
  | refl => exact .refl
  | tail _ hc ih =>
    obtain ⟨l, hl, -⟩ := hc
    exact ih.tail ⟨l, hl⟩

end Requests

section Children

variable {x : ℕ} {n : Node K} {e : MountedNode K}

omit [DecidableEq K] in
theorem popover_kind {kind : NodeKind K} (h : isPopover kind = true) :
    ∃ label delayMs enter exit shortcuts serial, kind = .popover label delayMs enter exit shortcuts serial := by
  cases kind with
  | popover => exact ⟨_, _, _, _, _, _, rfl⟩
  | _ => cases h

omit [DecidableEq K] in
theorem split_kind {kind : NodeKind K} (h : (hiddenPane kind).isSome) :
    ∃ label side size min max shortcuts, kind = .split label side size min max true true shortcuts := by
  unfold hiddenPane at h
  split at h
  · exact ⟨_, _, _, _, _, _, rfl⟩
  · cases h

theorem ordinary_kids (formed : Formed g) (he : g.nodes.get x = some e)
    (hkind : isPopover e.node.kind ∨ (hiddenPane e.node.kind).isSome) :
    (forest g).kids x = e.node.children.zipIdx.map (ordinaryPlace x) := by
  have hcount := formed.counted x e he
  have hne : e.node.children ≠ [] ∧ ∀ label revision keys, e.node.kind ≠ .keyedColumn label revision keys := by
    unfold ChildCount at hcount
    rcases hkind with hkind | hkind
    · obtain ⟨_, _, _, _, _, _, hk⟩ := popover_kind hkind
      rw [hk] at hcount ⊢
      exact ⟨hcount, nofun⟩
    · obtain ⟨_, _, _, _, _, _, hk⟩ := split_kind hkind
      rw [hk] at hcount ⊢
      refine ⟨fun hnil => ?_, nofun⟩
      rw [hnil] at hcount
      cases hcount
  have hnone : e.keyedChildren = none := by
    by_contra hsome
    rcases formed.ordered x e he (Option.isSome_iff_ne_none.mpr hsome) with hnil | ⟨label, revision, keys, hk⟩
    · exact hne.1 hnil
    · exact hne.2 label revision keys hk
  rw [kids_eq he, locations, hnone]

omit [DecidableEq K] in
theorem hides_ordinary (hn : g.node x = some n) (i : ℕ) : hides g (.ordinaryIndex x i) = true ↔
    hiddenPane n.kind = some i ∨ i ≠ 0 ∧ isPopover n.kind = true ∧ x ∉ g.interaction.popovers.shown := by
  cases i with
  | zero =>
    have heq : hides g (.ordinaryIndex x 0) = (decide (hiddenPane n.kind = some 0) || false) := by
      unfold hides
      dsimp only [ParentLocation.parent]
      rw [hn]
      rfl
    rw [heq, Bool.or_false, decide_eq_true_eq]
    simp
  | succ i =>
    have heq : hides g (.ordinaryIndex x (i + 1)) = (decide (hiddenPane n.kind = some (i + 1)) ||
        isPopover n.kind && decide (x ∉ g.interaction.popovers.shown)) := by
      unfold hides
      dsimp only [ParentLocation.parent]
      rw [hn]
      rfl
    rw [heq, Bool.or_eq_true, Bool.and_eq_true, decide_eq_true_eq, decide_eq_true_eq]
    simp

omit [DecidableEq K] in
theorem hides_keyed (hn : g.node x = some n) (k : K) (i : ℕ) : hides g (.keyed x k i) = true ↔
    isPopover n.kind = true ∧ x ∉ g.interaction.popovers.shown := by
  have heq : hides g (.keyed x k i) =
      (isPopover n.kind && decide (x ∉ g.interaction.popovers.shown)) := by
    unfold hides
    dsimp only [ParentLocation.parent]
    rw [hn]
    rfl
  rw [heq, Bool.and_eq_true, decide_eq_true_eq]

/-- The children a walk of what is presented goes on to are those that nothing hides, in their order. -/
theorem shown_listed (h : Shape g) (formed : Formed g) (hn : g.node x = some n) :
    shownChildren g x n = .ok ((((forest g).kids x).filter fun c => !hides g c.2).map Prod.fst) := by
  obtain ⟨e, he, rfl⟩ := entry_of_node hn
  unfold shownChildren
  by_cases hclosed : isPopover e.node.kind ∧ x ∉ g.interaction.popovers.shown
  · rw [if_pos hclosed, ordinary_kids formed he (.inl hclosed.1)]
    have hpane : hiddenPane e.node.kind = none := by
      obtain ⟨_, _, _, _, _, _, hk⟩ := popover_kind hclosed.1
      rw [hk]
      rfl
    have hhides (i : ℕ) : hides g (.ordinaryIndex x i) = true ↔ i ≠ 0 := by
      rw [hides_ordinary hn, hpane]
      simp [hclosed]
    rw [List.filter_map, List.map_map]
    change _ = Except.ok ((e.node.children.zipIdx.filter
      fun c => !hides g (.ordinaryIndex x c.2)).map Prod.fst)
    cases e.node.children with
    | nil => rfl
    | cons c rest =>
      have hfirst : hides g (.ordinaryIndex x 0) = false := by
        rw [Bool.eq_false_iff, ne_eq, hhides]
        simp
      have hrest : (rest.zipIdx 1).filter (fun c => !hides g (.ordinaryIndex x c.2)) = [] := by
        refine List.filter_eq_nil_iff.mpr fun d hd => ?_
        have hindex := List.le_snd_of_mem_zipIdx hd
        rw [(hhides d.2).mpr (by omega)]
        exact Bool.false_ne_true
      rw [List.zipIdx_cons, Nat.zero_add, List.filter_cons_of_pos (by rw [hfirst]; rfl), hrest]
      rfl
  rw [if_neg hclosed]
  cases hpane : hiddenPane e.node.kind with
  | some hidden =>
    rw [ordinary_kids formed he (.inr (by rw [hpane]; rfl)), List.filter_map, List.map_map]
    change Except.ok _ = Except.ok ((e.node.children.zipIdx.filter
      fun c => !hides g (.ordinaryIndex x c.2)).map Prod.fst)
    congr 2
    refine List.filter_congr fun c _ => ?_
    rw [Bool.eq_iff_iff, decide_eq_true_eq, Bool.not_eq_true', Bool.eq_false_iff, ne_eq, ne_eq,
      hides_ordinary hn, hpane]
    constructor
    · rintro hne (heq | ⟨-, hpop⟩)
      · exact hne (Option.some.inj heq).symm
      · exact hclosed hpop
    · rintro hopen rfl
      exact hopen (.inl rfl)
  | none =>
    have hopen : ∀ c ∈ (forest g).kids x, (!hides g c.2) = true := by
      rintro ⟨c, l⟩ hl
      obtain rfl := h.linked.owned hl
      rw [Bool.not_eq_true', Bool.eq_false_iff]
      cases l with
      | ordinaryIndex p i =>
        intro hhides
        rcases (hides_ordinary (x := p) hn i).mp hhides with heq | ⟨-, hpop⟩
        · cases hpane.symm.trans heq
        · exact hclosed hpop
      | keyed p k i =>
        intro hhides
        exact hclosed ((hides_keyed (x := p) hn k i).mp hhides)
    dsimp only
    rw [children_of_rev h, List.filter_eq_self.mpr hopen]
    dsimp only [bind, Except.bind]
    rw [List.reverse_reverse]
    rfl

theorem shown_children (h : Shape g) (formed : Formed g) (hn : g.node x = some n) :
    ∃ children, shownChildren g x n = .ok children ∧ (∀ c, c ∈ children ↔ ShownChild g x c) ∧
      load g children ≤ (forest g).total ((forest g).kids x) := by
  refine ⟨_, shown_listed h formed hn, fun c => ?_, ?_⟩
  · simp only [List.mem_map, List.mem_filter, Bool.not_eq_true']
    constructor
    · rintro ⟨⟨c, l⟩, ⟨hl, hopen⟩, rfl⟩
      exact ⟨l, hl, hopen⟩
    · rintro ⟨l, hl, hopen⟩
      exact ⟨(c, l), ⟨hl, hopen⟩, rfl⟩
  · rw [← load_kids]
    exact ((List.filter_sublist.map Prod.fst).map (forest g).weight).sum_le_sum fun _ _ => Nat.zero_le _

theorem request_walk (h : Shape g) (formed : Formed g) {fuel : ℕ} {pending : List ℕ}
    (hm : ∀ x ∈ pending, (forest g).Mounted x) (enough : load g pending ≤ fuel) :
    ∃ answer, requestFrom g fuel pending = .ok answer ∧
      (∀ a, answer = some a → Focusable g a ∧ ∃ p ∈ pending, ShownBelow g p a) ∧
      (answer = none → ∀ p ∈ pending, ∀ a, ShownBelow g p a → ¬ Focusable g a) := by
  induction fuel generalizing pending with
  | zero =>
    cases pending with
    | nil => exact ⟨none, rfl, nofun, nofun⟩
    | cons x pending =>
      rw [load_cons h (hm x List.mem_cons_self)] at enough
      omega
  | succ fuel ih =>
    cases pending with
    | nil => exact ⟨none, rfl, nofun, nofun⟩
    | cons x pending =>
      have hx := hm x List.mem_cons_self
      obtain ⟨n, hn⟩ := node_exists hx
      rw [load_cons h hx] at enough
      rw [requestFrom, hn]
      dsimp only
      by_cases hfocus : (focusIdentity n.kind).isSome
      · rw [if_pos hfocus]
        refine ⟨some x, rfl, ?_, nofun⟩
        rintro _ ⟨⟩
        exact ⟨⟨n, hn, hfocus⟩, x, List.mem_cons_self, .refl⟩
      · rw [if_neg hfocus]
        obtain ⟨children, hchildren, hmem, hload⟩ := shown_children h formed hn
        obtain ⟨answer, hanswer, hfound, hnone⟩ := @ih (children ++ pending)
          (by
            intro c hc
            rcases List.mem_append.mp hc with hc | hc
            · obtain ⟨l, hl, -⟩ := (hmem c).mp hc
              exact (h.linked.placed hl).1
            · exact hm c (List.mem_cons_of_mem _ hc))
          (by
            rw [load_append]
            omega)
        rw [hchildren]
        refine ⟨answer, hanswer, fun a ha => ?_, fun hgone p hp a hbelow => ?_⟩
        · obtain ⟨hcontrol, p, hp, hbelow⟩ := hfound a ha
          rcases List.mem_append.mp hp with hp | hp
          · exact ⟨hcontrol, x, List.mem_cons_self, .head ((hmem p).mp hp) hbelow⟩
          · exact ⟨hcontrol, p, List.mem_cons_of_mem _ hp, hbelow⟩
        · rcases List.mem_cons.mp hp with rfl | hp
          · rcases Relation.ReflTransGen.cases_head hbelow with rfl | ⟨c, hc, hbelow⟩
            · rintro ⟨m, hmn, hcontrol⟩
              rw [Option.some.inj (hmn.symm.trans hn)] at hcontrol
              exact hfocus hcontrol
            · exact hnone hgone c (List.mem_append_left _ ((hmem c).mpr hc)) a hbelow
          · exact hnone hgone p (List.mem_append_right _ hp) a hbelow

end Children

section Landings

def opened (g : MountedGraph K) : MountedGraph K := { g with interaction :=
  { g.interaction with popovers := { g.interaction.popovers with shown := g.nodes.keys } } }

/-- A control that focus may go to: mounted, inside the active dialog if there is one, and presented
once the popovers containing it open. -/
structure Seen (g : MountedGraph K) (id : ℕ) : Prop where
  focusable : Focusable g id
  inside : ∀ d, g.dialog = some d → g.isDescendantOf id d = (.ok true : Reading K Bool)
  presented : isPresented (opened g) id = .ok true

/-- What is asked of a search: it answers a control that can be seen, and one if there is one in
its scope. -/
structure Lands (g : MountedGraph K) (scope : ℕ → Prop) (search : Reading K (Option ℕ)) : Prop where
  answers : ∃ answer, search = .ok answer
  seen : ∀ id, search = .ok (some id) → Seen g id
  found : (∃ id, scope id ∧ Seen g id) → search ≠ .ok none

def Asks (g : MountedGraph K) (requests : List ℕ) (region : ℕ) : Prop :=
  ∃ first rest, liveRequests g requests = .ok (first :: rest) ∧ latest g first rest = .ok region

/-- What the regions that ask present now: focus does not open the popovers on its way. -/
def RequestScope (g : MountedGraph K) (requests : List ℕ) (id : ℕ) : Prop :=
  ∃ region, Asks g requests region ∧ g.isDescendantOf id region = (.ok true : Reading K Bool) ∧
    isPresented g id = .ok true

/-- All four searches land; that of a request in the graph that it leaves. -/
structure FocusLands (g : MountedGraph K) : Prop where
  dialog : ∀ d, g.dialog = some d → Lands g
    (fun id => g.isDescendantOf id d = (.ok true : Reading K Bool)) (firstFocusableIn g d)
  request : Lands (requestsTaken g)
    (RequestScope (requestsTaken g) g.interaction.keyboard.requests) (answer (takeFocusRequest.run g))
  destination : ∀ wasAt, Lands g (fun _ => True) (focusDestination g wasAt)
  identity : ∀ identity, Lands g
    (fun id => (g.node id).bind (fun n => focusIdentity n.kind) = some identity)
    (findFocusIdentity g identity)

variable {x : ℕ}

omit [DecidableEq K] in
theorem opened_hides {l : ParentLocation K} {n : Node K} (hn : g.node l.parent = some n)
    (h : hides g l = false) : hides (opened g) l = false := by
  rw [Bool.eq_false_iff] at h ⊢
  obtain ⟨e, he, -⟩ := entry_of_node hn
  have hshown : l.parent ∈ (opened g).interaction.popovers.shown :=
    FiniteMap.mem_keys.mpr (Option.isSome_of_eq_some he)
  intro hhides
  cases l with
  | ordinaryIndex p i =>
    rcases (hides_ordinary (g := opened g) (x := p) (n := n) hn i).mp hhides with hpane | ⟨-, -, hclosed⟩
    · exact h ((hides_ordinary (x := p) hn i).mpr (.inl hpane))
    · exact hclosed hshown
  | keyed p k i =>
    exact ((hides_keyed (g := opened g) (x := p) (n := n) hn k i).mp hhides).2 hshown

theorem opened_shape (h : Shape g) : Shape (opened g) := ⟨h.orders, h.linked, h.weighed, h.issued⟩

theorem presented_opened (h : Shape g) (hm : (forest g).Mounted x) (hshown : Shown g x) :
    isPresented (opened g) x = .ok true := by
  refine (presented_iff (opened_shape h) hm).mpr fun y l hbelow hl => ?_
  obtain ⟨n, hn⟩ := node_exists (mounted_owner h.linked (mounted_iff.mpr (mounted_of_parent hl)) hl)
  exact opened_hides hn (hshown y l hbelow hl)

theorem focusable_mounted (hx : Focusable g x) : (forest g).Mounted x := by
  obtain ⟨n, hn, -⟩ := hx
  exact mounted_node hn

theorem request_lands (h : Shape g) (formed : Formed g) (requests : List ℕ) :
    Lands g (RequestScope g requests) (focusRequest g requests) := by
  obtain ⟨live, hlive, hall⟩ := requests_live h requests
  cases live with
  | nil =>
    have hnone : focusRequest g requests = .ok none := by
      rw [focusRequest, hlive]
      rfl
    refine ⟨⟨none, hnone⟩, fun id hid => ?_, ?_⟩
    · cases hnone.symm.trans hid
    · rintro ⟨id, ⟨region, ⟨first, rest, hfirst, -⟩, -⟩, -⟩
      cases hlive.symm.trans hfirst
  | cons first rest =>
    have hfirst := hall first List.mem_cons_self
    obtain ⟨region, hregion, hmem⟩ := latest_found h hfirst.1
      fun x hx => (hall x (List.mem_cons_of_mem _ hx)).1
    obtain ⟨hm, hinside, hshown⟩ := hall region hmem
    have enough : load g [region] ≤ g.climb := by
      have hle := weight_le_size h hm
      rw [load, List.map_singleton, List.sum_singleton, MountedGraph.climb]
      omega
    have hregions : ∀ x ∈ [region], (forest g).Mounted x := by simpa using hm
    obtain ⟨answer, hanswer, hfound, hgone⟩ := request_walk h formed hregions enough
    have hrun : focusRequest g requests = .ok answer := by
      rw [focusRequest, hlive]
      dsimp only [bind, Except.bind]
      rw [hregion]
      exact hanswer
    refine ⟨⟨answer, hrun⟩, fun id hid => ?_, ?_⟩
    · obtain rfl := Except.ok.inj (hrun.symm.trans hid)
      obtain ⟨hfocus, p, hp, hbelow⟩ := hfound id rfl
      obtain rfl := List.mem_singleton.mp hp
      have hmounted := focusable_mounted hfocus
      refine ⟨hfocus, fun d hd => ?_, presented_opened h hmounted (shown_below h hshown hbelow)⟩
      exact (inside_iff h).mpr ((hinside d hd).trans (plain_below hbelow))
    · rintro ⟨id, ⟨other, ⟨first', rest', hlive', hother⟩, hbelow, hpresented⟩, hseen⟩ hnone
      cases hlive.symm.trans hlive'
      obtain rfl := Except.ok.inj (hregion.symm.trans hother)
      obtain rfl := Except.ok.inj (hrun.symm.trans hnone)
      have hmounted := focusable_mounted hseen.focusable
      exact hgone rfl region (List.mem_singleton_self _) id
        (below_shown h ((inside_iff h).mp hbelow) ((presented_iff h hmounted).mp hpresented))
        hseen.focusable

theorem opened_iff (h : Shape g) (hm : (forest g).Mounted x) : isPresented (opened g) x = .ok true ↔
    ∀ y p i n, (forest g).Below y x → g.parentLocation y = some (.ordinaryIndex p i) →
      g.node p = some n → hiddenPane n.kind ≠ some i := by
  rw [presented_iff (opened_shape h) hm]
  constructor
  · intro hshown y p i n hbelow hp hn hpane
    have hopen := hshown y (.ordinaryIndex p i) hbelow hp
    rw [(hides_ordinary (g := opened g) hn i).mpr (.inl hpane)] at hopen
    cases hopen
  · intro hfree y l hbelow hp
    obtain ⟨n, hn⟩ := node_exists (mounted_owner h.linked (mounted_iff.mpr (mounted_of_parent hp)) hp)
    obtain ⟨e, he, -⟩ := entry_of_node hn
    have hshown : l.parent ∈ (opened g).interaction.popovers.shown :=
      FiniteMap.mem_keys.mpr (Option.isSome_of_eq_some he)
    rw [Bool.eq_false_iff]
    intro hhides
    cases l with
    | ordinaryIndex p i =>
      rcases (hides_ordinary (g := opened g) (x := p) (n := n) hn i).mp hhides with hpane | ⟨-, -, hclosed⟩
      · exact hfree y p i n hbelow hp hn hpane
      · exact hclosed hshown
    | keyed p k i => exact ((hides_keyed (g := opened g) (x := p) (n := n) hn k i).mp hhides).2 hshown

theorem first_in (h : Shape g) (d : ℕ) (nodes : List (Node K)) :
    ∃ answer, firstIn g d nodes = .ok answer ∧
      (∀ id, answer = some id → ∃ n ∈ nodes, n.id = id ∧ (focusIdentity n.kind).isSome) ∧
      (answer = none → ∀ n ∈ nodes, (forest g).Below d n.id → (focusIdentity n.kind).isSome = false) := by
  induction nodes with
  | nil => exact ⟨none, rfl, nofun, fun _ => nofun⟩
  | cons n rest ih =>
    obtain ⟨answer, hanswer, hfound, hnone⟩ := ih
    obtain ⟨inside, hinside⟩ := descendant_total (ε := GraphError K) h n.id d
    rw [firstIn, hinside]
    dsimp only [bind, Except.bind]
    by_cases hfirst : (inside && (focusIdentity n.kind).isSome) = true
    · rw [if_pos hfirst]
      refine ⟨some n.id, rfl, ?_, nofun⟩
      rintro _ ⟨⟩
      exact ⟨n, List.mem_cons_self, rfl, (Bool.and_eq_true_iff.mp hfirst).2⟩
    · rw [if_neg hfirst]
      refine ⟨answer, hanswer, fun id hid => ?_, fun hgone m hm hbelow => ?_⟩
      · obtain ⟨m, hm, heq⟩ := hfound id hid
        exact ⟨m, List.mem_cons_of_mem _ hm, heq⟩
      · rcases List.mem_cons.mp hm with rfl | hm
        · rw [(descendant_iff h hinside).mpr hbelow, Bool.true_and] at hfirst
          exact Bool.eq_false_iff.mpr hfirst
        · exact hnone hgone m hm hbelow

theorem focus_order (h : Shape g) (formed : Formed g) :
    ∃ order, focusOrder g = .ok order ∧ ∀ id, id ∈ order ↔ Focusable g id := by
  obtain ⟨nodes, hnodes, hlisted⟩ := preorder_lists h formed
  refine ⟨_, by rw [focusOrder, hnodes]; rfl, fun id => ?_⟩
  rw [List.mem_filterMap]
  constructor
  · rintro ⟨n, hn, heq⟩
    by_cases hfocus : (focusIdentity n.kind).isSome
    · rw [if_pos hfocus] at heq
      obtain rfl := Option.some.inj heq
      exact ⟨n, (hlisted n).mp hn, hfocus⟩
    · rw [if_neg hfocus] at heq
      cases heq
  · rintro ⟨n, hn, hfocus⟩
    obtain ⟨e, he, rfl⟩ := entry_of_node hn
    have hid := formed.named id e he
    refine ⟨e.node, (hlisted e.node).mpr (by rw [hid]; exact hn), ?_⟩
    rw [if_pos hfocus, hid]

theorem dialog_lands (h : Shape g) (formed : Formed g) (hseen : ∀ id, Focusable g id → Seen g id) (d : ℕ) :
    Lands g (fun id => g.isDescendantOf id d = (.ok true : Reading K Bool)) (firstFocusableIn g d) := by
  obtain ⟨nodes, hnodes, hlisted⟩ := preorder_lists h formed
  obtain ⟨answer, hanswer, hfound, hnone⟩ := first_in h d nodes
  have hrun : firstFocusableIn g d = .ok answer := by
    rw [firstFocusableIn, hnodes]
    exact hanswer
  refine ⟨⟨answer, hrun⟩, fun id hid => ?_, ?_⟩
  · obtain ⟨n, hn, rfl, hfocus⟩ := hfound id (Except.ok.inj (hrun.symm.trans hid))
    exact hseen n.id ⟨n, (hlisted n).mp hn, hfocus⟩
  · rintro ⟨id, hinside, ⟨n, hn, hfocus⟩, -, -⟩ hgone
    obtain ⟨e, he, rfl⟩ := entry_of_node hn
    have hid := formed.named id e he
    have hmem : e.node ∈ nodes := (hlisted e.node).mpr (by rw [hid]; exact hn)
    have hfalse := hnone (Except.ok.inj (hrun.symm.trans hgone)) e.node hmem
      (by rw [hid]; exact (inside_iff h).mp hinside)
    rw [hfocus] at hfalse
    cases hfalse

theorem destination_lands (h : Shape g) (formed : Formed g) :
    (∀ wasAt, Lands g (fun _ => True) (focusDestination g wasAt)) ↔
      ∀ id, Focusable g id → Seen g id := by
  obtain ⟨order, horder, hlisted⟩ := focus_order h formed
  have hrun : ∀ wasAt, focusDestination g wasAt =
      if order = [] then .ok none else .ok order[min wasAt (order.length - 1)]? := by
    intro wasAt
    rw [focusDestination, horder]
    rfl
  constructor
  · intro hlands id hid
    obtain ⟨k, hk, hget⟩ := List.getElem_of_mem ((hlisted id).mpr hid)
    have hne : order ≠ [] := List.ne_nil_of_length_pos (by omega)
    refine (hlands k).seen id ?_
    rw [hrun, if_neg hne, Nat.min_eq_left (by omega), List.getElem?_eq_getElem hk, hget]
  · intro hseen wasAt
    by_cases hnil : order = []
    · have hnone : focusDestination g wasAt = .ok none := by
        rw [hrun, if_pos hnil]
      refine ⟨⟨none, hnone⟩, fun id hid => ?_, ?_⟩
      · cases hnone.symm.trans hid
      · rintro ⟨id, -, hid⟩ -
        have hmem := (hlisted id).mpr hid.focusable
        rw [hnil] at hmem
        cases hmem
    · have hlt : min wasAt (order.length - 1) < order.length := by
        have hpos := List.length_pos_of_ne_nil hnil
        omega
      have hsome : focusDestination g wasAt = .ok (some order[min wasAt (order.length - 1)]) := by
        rw [hrun, if_neg hnil, List.getElem?_eq_getElem hlt]
      refine ⟨⟨_, hsome⟩, fun id hid => ?_, fun _ hnone => ?_⟩
      · obtain rfl := Option.some.inj (Except.ok.inj (hsome.symm.trans hid))
        exact hseen _ ((hlisted _).mp (List.getElem_mem hlt))
      · cases hsome.symm.trans hnone

theorem identity_lands (h : Shape g) (formed : Formed g) (hseen : ∀ id, Focusable g id → Seen g id)
    (identity : ℕ × String) :
    Lands g (fun id => (g.node id).bind (fun n => focusIdentity n.kind) = some identity)
      (findFocusIdentity g identity) := by
  obtain ⟨nodes, hnodes, hlisted⟩ := preorder_lists h formed
  have hrun : findFocusIdentity g identity = .ok (nodes.findSome? fun node =>
      if focusIdentity node.kind = some identity then some node.id else none) := by
    rw [findFocusIdentity, hnodes]
    rfl
  refine ⟨⟨_, hrun⟩, fun id hid => ?_, ?_⟩
  · obtain ⟨n, hn, heq⟩ := List.exists_of_findSome?_eq_some (Except.ok.inj (hrun.symm.trans hid))
    by_cases hsame : focusIdentity n.kind = some identity
    · rw [if_pos hsame] at heq
      obtain rfl := Option.some.inj heq
      exact hseen n.id ⟨n, (hlisted n).mp hn, Option.isSome_of_eq_some hsame⟩
    · rw [if_neg hsame] at heq
      cases heq
  · rintro ⟨id, hsame, ⟨n, hn, -⟩, -, -⟩ hgone
    obtain ⟨e, he, rfl⟩ := entry_of_node hn
    have hid := formed.named id e he
    have hmem : e.node ∈ nodes := (hlisted e.node).mpr (by rw [hid]; exact hn)
    rw [hn, Option.bind_some] at hsame
    have hnone := List.findSome?_eq_none_iff.mp (Except.ok.inj (hrun.symm.trans hgone)) e.node hmem
    rw [if_pos hsame] at hnone
    cases hnone

/-- Whatever popovers are open and whatever was asked for: the searches land exactly when every
enabled control is in the active dialog, if there is one, and none is in the hidden pane of a
collapsed split. -/
theorem focus_lands_iff (hreach : Reachable (accepting K) g) (i : Interaction) :
    FocusLands { g with interaction := i } ↔ ∀ id, Focusable g id →
      (∀ d, g.dialog = some d → (forest g).Below d id) ∧
      ∀ y p j n, (forest g).Below y id → g.parentLocation y = some (.ordinaryIndex p j) →
        g.node p = some n → hiddenPane n.kind ≠ some j := by
  have shape := shape_reachable hreach
  have form := formed_reachable hreach
  have h : Shape { g with interaction := i } := ⟨shape.orders, shape.linked, shape.weighed, shape.issued⟩
  have formed : Formed { g with interaction := i } := ⟨form.named, form.counted, form.ordered⟩
  have hseen : (∀ id, Focusable { g with interaction := i } id → Seen { g with interaction := i } id) ↔
      ∀ id, Focusable g id → (∀ d, g.dialog = some d → (forest g).Below d id) ∧
        ∀ y p j n, (forest g).Below y id → g.parentLocation y = some (.ordinaryIndex p j) →
          g.node p = some n → hiddenPane n.kind ≠ some j := by
    refine forall₂_congr fun id hid => ?_
    have hopened := opened_iff h (focusable_mounted hid)
    constructor
    · intro hseen
      exact ⟨fun d hd => (inside_iff h).mp (hseen.inside d hd), hopened.mp hseen.presented⟩
    · rintro ⟨hinside, hfree⟩
      exact ⟨hid, fun d hd => (inside_iff h).mpr (hinside d hd), hopened.mpr hfree⟩
  rw [← hseen]
  constructor
  · intro hlands
    exact (destination_lands h formed).mp hlands.destination
  · intro hall
    refine ⟨fun d _ => dialog_lands h formed hall d, ?_, (destination_lands h formed).mpr hall,
      identity_lands h formed hall⟩
    have h' : Shape (requestsTaken { g with interaction := i }) :=
      ⟨shape.orders, shape.linked, shape.weighed, shape.issued⟩
    have formed' : Formed (requestsTaken { g with interaction := i }) :=
      ⟨form.named, form.counted, form.ordered⟩
    have hlands := request_lands h' formed' i.keyboard.requests
    obtain ⟨answered, hanswered⟩ := hlands.answers
    have hrun : answer (takeFocusRequest.run { g with interaction := i }) =
        focusRequest (requestsTaken { g with interaction := i }) i.keyboard.requests := by
      have hquery : (query fun g => focusRequest g i.keyboard.requests).run
          (requestsTaken { g with interaction := i }) = .ok answered _ := query_ok hanswered
      rw [hanswered]
      change answer ((query fun g => focusRequest g i.keyboard.requests).run _) = _
      rw [hquery]
      rfl
    rw [hrun]
    exact hlands

def foldedMounted : Patch ℕ := .mount 1
  [⟨1, .split "panes" .start 1 0 2 true true [], [2, 3]⟩, ⟨2, .button "folded" true false false, []⟩,
    ⟨3, .button "open" true false false, []⟩]

theorem folded_reached : Reachable (accepting ℕ) (afterPatch .empty foldedMounted) :=
  reachable_step (reachable_initial (accepting ℕ))
    (accepted_step (g := .empty) foldedMounted (by decide +kernel))

theorem folded_focus :
    FocusLands { afterPatch .empty foldedMounted with interaction := (.empty : MountedGraph ℕ).interaction } ↔
      ∀ id, Focusable (afterPatch .empty foldedMounted) id →
        (∀ d, (afterPatch .empty foldedMounted).dialog = some d →
          (forest (afterPatch .empty foldedMounted)).Below d id) ∧
        ∀ y p j n, (forest (afterPatch .empty foldedMounted)).Below y id →
          (afterPatch .empty foldedMounted).parentLocation y = some (.ordinaryIndex p j) →
          (afterPatch .empty foldedMounted).node p = some n → hiddenPane n.kind ≠ some j :=
  focus_lands_iff folded_reached (.empty : MountedGraph ℕ).interaction

/-- The button of the folded pane is next in the focus order, though nothing shows it. -/
theorem folded_button_is_focused :
    ¬∀ g : MountedGraph ℕ, Reachable (accepting ℕ) g → FocusLands g := by
  intro claim
  have lands := (claim _ folded_reached).destination 1
  have hanswer : focusDestination (afterPatch .empty foldedMounted) 1 = .ok (some 2) := by
    decide +kernel
  have hpresented := (lands.seen 2 hanswer).presented
  revert hpresented
  decide +kernel

end Landings

end FocusLandings
