import RocGui.FragmentOwners

/-! What the loops over the staged nodes ask: the rules a kind sets its nodes, and what
may stand in a fragment only once. -/
namespace FragmentRules

open FiniteMaps Methods GraphState FragmentValidation GraphPatches KeyedStaging FragmentTrees FragmentOwners

variable {K : Type}

section Rules

variable {lookup : ℕ → Option (Node K)} {node : Node K}

/-- How many children a node of a kind has. -/
def ChildCount (node : Node K) : Prop :=
  match node.kind with
  | .text | .styledText | .checkbox .. | .button .. | .textarea .. | .image .. | .canvas ..
  | .textInput .. => node.children = []
  | .boundary _ | .scroll _ | .virtualItem _ => node.children.length = 1
  | .popover .. => node.children ≠ []
  | .split .. => node.children.length = 2
  | _ => True

/-- The bounds a kind's own data keeps. -/
def DataRule (lookup : ℕ → Option (Node K)) (node : Node K) : Prop :=
  match node.kind with
  | .popover _ delayMs .. => delayMs ≤ 60000
  | .split _ _ size min max .. => min ≤ size ∧ size ≤ max
  | .virtualList _ rowHeight rows =>
    (1 ≤ rowHeight ∧ rowHeight ≤ 16384) ∧
      (∀ r, rows = some r → r.instanceId ≠ 0 ∧ r.first + node.children.length < 2 ^ 64 ∧
        r.first + node.children.length ≤ r.count) ∧
      ∃ keys : List ℕ, keys.Nodup ∧
        node.children.map (fun child => (lookup child).map (·.kind)) =
          keys.map fun key => some (.virtualItem key)
  | _ => True

theorem virtual_keys_ok {list : ℕ} {seen : Finset ℕ} {children : List ℕ} :
    virtualKeys lookup list seen children = .ok () ↔ ∃ keys : List ℕ, keys.Nodup ∧
      (∀ key ∈ keys, key ∉ seen) ∧ children.map (fun child => (lookup child).map (·.kind)) =
        keys.map fun key => some (.virtualItem key) := by
  induction children generalizing seen with
  | nil =>
    constructor
    · intro _
      exact ⟨[], List.nodup_nil, by simp, rfl⟩
    · intro _
      rfl
  | cons child rest ih =>
    constructor
    · intro h
      rw [virtualKeys] at h
      split at h
      · rename_i id key children hchild
        split at h
        · cases h
        rename_i hfree
        obtain ⟨keys, distinct, apart, hkeys⟩ := ih.mp h
        refine ⟨key :: keys, List.nodup_cons.mpr ⟨fun hmem => ?_, distinct⟩, fun k hk => ?_, ?_⟩
        · exact apart key hmem (Finset.mem_insert_self _ _)
        · rcases List.mem_cons.mp hk with rfl | hk
          · exact hfree
          · exact fun hmem => apart k hk (Finset.mem_insert_of_mem hmem)
        · rw [List.map_cons, List.map_cons, hkeys, hchild]
          rfl
      · cases h
    · rintro ⟨keys, distinct, apart, hkeys⟩
      cases keys with
      | nil => cases hkeys
      | cons key keys =>
        obtain ⟨hchild, hrest⟩ := List.cons.inj hkeys
        obtain ⟨⟨id, kind, children⟩, hnode, rfl⟩ := Option.map_eq_some_iff.mp hchild
        rw [virtualKeys, hnode]
        simp only
        rw [if_neg (apart key List.mem_cons_self)]
        refine ih.mpr ⟨keys, (List.nodup_cons.mp distinct).2, fun k hk => ?_, hrest⟩
        rw [Finset.mem_insert, not_or]
        refine ⟨?_, apart k (List.mem_cons_of_mem _ hk)⟩
        rintro rfl
        exact (List.nodup_cons.mp distinct).1 hk

theorem check_shape_ok : checkShape lookup node = .ok () ↔ ChildCount node ∧ DataRule lookup node := by
  have keys : validateVirtualKeys lookup node = .ok () ↔ ∃ keys : List ℕ, keys.Nodup ∧
      node.children.map (fun child => (lookup child).map (·.kind)) =
        keys.map fun key => some (.virtualItem key) := by
    rw [validateVirtualKeys, virtual_keys_ok]
    simp
  have guarded {p : Prop} [Decidable p] {e : FragmentError} {rest : Except FragmentError Unit} :
      (if p then .error e else rest) = .ok () ↔ ¬p ∧ rest = .ok () := by
    by_cases hp : p <;> simp [hp]
  unfold checkShape ChildCount DataRule
  cases node.kind with
  | text | styledText | checkbox | button | textarea | image | canvas | textInput =>
    simp only [guarded, ne_eq, not_not, and_true]
  | boundary | scroll | virtualItem => simp only [guarded, ne_eq, not_not, and_true]
  | popover => simp only [guarded, ne_eq, not_lt, and_true]
  | split => simp only [guarded, ne_eq, not_not, and_true]
  | virtualList name rowHeight rows =>
    cases rows with
    | none =>
      simp only [guarded, not_not, keys, reduceCtorEq, false_implies, implies_true, true_and]
    | some rows =>
      simp only [guarded, not_not, not_or, not_le, not_lt, keys, Option.some.injEq, forall_eq',
        ne_eq, true_and, and_assoc]
  | _ => simp

end Rules

section Loops

variable {retained : Finset ℕ} {nodes : List (Node K)} {fresh : FiniteMap ℕ (Node K)}
  {lookup : ℕ → Option (Node K)} {listed : ℕ → Bool} {tally tally' : Tally} {node : Node K}

theorem index_nodes_ok (distinct : (ids nodes).Nodup) (reserved : ∀ n ∈ nodes, n.id ≠ 0)
    (apart : ∀ n ∈ nodes, n.id ∉ retained) (unused : ∀ n ∈ nodes, fresh.get n.id = none) :
    ∃ fresh', indexNodes retained fresh nodes = .ok fresh' := by
  induction nodes generalizing fresh with
  | nil => exact ⟨fresh, rfl⟩
  | cons node rest ih =>
    rw [ids_cons] at distinct
    obtain ⟨hnode, distinct⟩ := List.nodup_cons.mp distinct
    have hfree : ¬(node.id ∈ retained ∨ (fresh.get node.id).isSome) := by
      rw [not_or, unused node List.mem_cons_self]
      exact ⟨apart node List.mem_cons_self, by simp⟩
    rw [indexNodes, if_neg (reserved node List.mem_cons_self), if_neg hfree]
    refine ih distinct (fun n hn => reserved n (List.mem_cons_of_mem _ hn))
      (fun n hn => apart n (List.mem_cons_of_mem _ hn)) fun n hn => ?_
    have hne : n.id ≠ node.id := by
      intro heq
      apply hnode
      rw [← heq]
      exact List.mem_map_of_mem hn
    rw [FiniteMap.get_set, if_neg hne]
    exact unused n (List.mem_cons_of_mem _ hn)

theorem index_reserved {fresh' : FiniteMap ℕ (Node K)}
    (h : indexNodes retained fresh nodes = .ok fresh') : ∀ n ∈ nodes, n.id ≠ 0 := by
  induction nodes generalizing fresh with
  | nil => simp
  | cons node rest ih =>
    simp only [indexNodes] at h
    split at h
    · cases h
    rename_i hzero
    split at h
    · cases h
    intro n hn
    rcases List.mem_cons.mp hn with rfl | hn
    · exact hzero
    · exact ih h n hn

theorem own_accepts {id : ℕ} {owned : Finset ℕ} {children : List ℕ} (distinct : children.Nodup)
    (free : ∀ c ∈ children, listed c = true ∧ c ∉ owned) :
    ∃ owned', own listed id owned children = .ok owned' := by
  induction children generalizing owned with
  | nil => exact ⟨owned, rfl⟩
  | cons child rest ih =>
    obtain ⟨hlisted, hfree⟩ := free child List.mem_cons_self
    obtain ⟨hchild, distinct⟩ := List.nodup_cons.mp distinct
    rw [own, if_neg (by simp [hlisted]), if_neg hfree]
    refine ih distinct fun c hc => ⟨(free c (List.mem_cons_of_mem _ hc)).1, ?_⟩
    rw [Finset.mem_insert, not_or]
    refine ⟨?_, (free c (List.mem_cons_of_mem _ hc)).2⟩
    rintro rfl
    exact hchild hc

def isDialog (node : Node K) : Bool :=
  match node.kind with
  | .dialog _ => true
  | _ => false

def Unlabelled (node : Node K) : Prop := ∃ enabled, node.kind = .textInput "" enabled

theorem tally_accepts : (∃ noted, tallyNode tally node = .ok noted) ↔
    ¬Unlabelled node ∧ (isDialog node = true → tally.dialogs = 0) ∧
      ∀ i, node.kind = .boundary i → i ∉ tally.instances := by
  unfold tallyNode isDialog Unlabelled
  cases node.kind with
  | dialog label =>
    by_cases hd : 1 ≤ tally.dialogs
    · simp only [if_pos hd, reduceCtorEq, exists_false, not_false_eq_true, true_and, forall_true_left,
        false_implies, implies_true, and_true, false_iff]
      omega
    · simp only [if_neg hd, reduceCtorEq, exists_false, not_false_eq_true, true_and, forall_true_left,
        false_implies, implies_true, and_true, Except.ok.injEq, exists_eq', true_iff]
      omega
  | textInput label enabled =>
    by_cases hl : label = "" <;> simp [hl]
  | boundary i =>
    by_cases hi : i ∈ tally.instances <;> simp [hi]
  | _ => simp

theorem tally_notes {noted : Tally} (h : tallyNode tally node = .ok noted) :
    noted.dialogs = tally.dialogs + (if isDialog node then 1 else 0) ∧
      ∀ i, i ∈ noted.instances ↔ i ∈ tally.instances ∨ node.kind = .boundary i := by
  unfold tallyNode at h
  unfold isDialog
  cases hk : node.kind <;> rw [hk] at h <;> simp only at h
  case dialog label =>
    split at h <;> cases h
    simp
  case textInput label enabled =>
    split at h <;> cases h
    simp
  case boundary i =>
    split at h <;> cases h
    refine ⟨rfl, fun j => ?_⟩
    rw [Finset.mem_insert, or_comm, NodeKind.boundary.injEq, eq_comm]
  all_goals
    cases h
    simp

/-- What the loop over the staged nodes asks of the rest of the list. -/
structure Tallied (lookup : ℕ → Option (Node K)) (listed : ℕ → Bool) (tally : Tally)
    (nodes : List (Node K)) : Prop where
  shapes : ∀ n ∈ nodes, ChildCount n ∧ DataRule lookup n
  labelled : ∀ n ∈ nodes, ¬Unlabelled n
  dialogs : tally.dialogs + nodes.countP isDialog ≤ 1
  instances : (instancesOf nodes).Nodup
  unused : ∀ i ∈ instancesOf nodes, i ∉ tally.instances
  children : (childIds nodes).Nodup
  free : ∀ c ∈ childIds nodes, listed c = true ∧ c ∉ tally.ownership

theorem check_node_accepts : (∃ next, checkNode lookup listed tally node = .ok next) ↔
    (∃ noted, tallyNode tally node = .ok noted) ∧ (ChildCount node ∧ DataRule lookup node) ∧
      ∃ owned, own listed node.id tally.ownership node.children = .ok owned := by
  constructor
  · rintro ⟨next, h⟩
    have hown := check_node h
    simp only [checkNode, except_bind_ok] at h
    obtain ⟨noted, hnoted, ⟨⟩, hshape, -⟩ := h
    exact ⟨⟨noted, hnoted⟩, check_shape_ok.mp hshape, _, hown⟩
  · rintro ⟨⟨noted, hnoted⟩, hshape, owned, hown⟩
    refine ⟨{ noted with ownership := owned }, ?_⟩
    simp only [checkNode, except_bind_ok]
    refine ⟨noted, hnoted, (), check_shape_ok.mpr hshape, owned, ?_, rfl⟩
    rw [tally_node hnoted]
    exact hown

theorem check_node_notes {next : Tally} (h : checkNode lookup listed tally node = .ok next) :
    next.dialogs = tally.dialogs + (if isDialog node then 1 else 0) ∧
      (∀ i, i ∈ next.instances ↔ i ∈ tally.instances ∨ node.kind = .boundary i) ∧
      ∀ c, c ∈ next.ownership ↔ c ∈ tally.ownership ∨ c ∈ node.children := by
  have hown := own_ok (check_node h)
  simp only [checkNode, except_bind_ok] at h
  obtain ⟨noted, hnoted, -, -, owned, -, heq⟩ := h
  obtain rfl : { noted with ownership := owned } = next := Except.ok.inj heq
  obtain ⟨hdialogs, hinstances⟩ := tally_notes hnoted
  exact ⟨hdialogs, hinstances, hown.2.2⟩

theorem instances_cons (node : Node K) (rest : List (Node K)) :
    instancesOf (node :: rest) = instancesOf [node] ++ instancesOf rest :=
  instancesOf_append [node] rest

theorem instances_one {i : ℕ} : i ∈ instancesOf [node] ↔ node.kind = .boundary i := by
  rw [mem_instancesOf]
  simp

theorem instances_one_nodup (node : Node K) : (instancesOf [node]).Nodup := by
  cases hk : node.kind <;> simp [instancesOf, hk]

theorem countP_cons (node : Node K) (rest : List (Node K)) :
    (node :: rest).countP isDialog = rest.countP isDialog + if isDialog node then 1 else 0 :=
  List.countP_cons

theorem tallied_cons {next : Tally} {rest : List (Node K)}
    (h : checkNode lookup listed tally node = .ok next) :
    Tallied lookup listed tally (node :: rest) ↔ Tallied lookup listed next rest := by
  obtain ⟨⟨noted, hnoted⟩, hshape, owned, hown⟩ := check_node_accepts.mp ⟨next, h⟩
  obtain ⟨hlabel, hdialog, hinstance⟩ := tally_accepts.mp ⟨noted, hnoted⟩
  obtain ⟨hfree, hdistinct, -⟩ := own_ok hown
  obtain ⟨hdialogs, hinstances, hownership⟩ := check_node_notes h
  have hcons : childIds (node :: rest) = node.children ++ childIds rest := by simp [childIds]
  have hcount := countP_cons node rest
  constructor
  · intro t
    have hnodup := t.instances
    have hchildren := t.children
    rw [instances_cons, List.nodup_append] at hnodup
    rw [hcons, List.nodup_append] at hchildren
    refine ⟨fun n hn => t.shapes n (List.mem_cons_of_mem _ hn),
      fun n hn => t.labelled n (List.mem_cons_of_mem _ hn), ?_, hnodup.2.1, fun i hi => ?_,
      hchildren.2.1, fun c hc => ?_⟩
    · have := t.dialogs
      omega
    · rw [hinstances, not_or]
      refine ⟨t.unused i ?_, fun hk => ?_⟩
      · rw [instances_cons]
        exact List.mem_append_right _ hi
      · exact hnodup.2.2 i (instances_one.mpr hk) i hi rfl
    · have here := t.free c (by rw [hcons]; exact List.mem_append_right _ hc)
      refine ⟨here.1, ?_⟩
      rw [hownership, not_or]
      exact ⟨here.2, fun hmem => hchildren.2.2 c hmem c hc rfl⟩
  · intro t
    refine ⟨fun n hn => ?_, fun n hn => ?_, ?_, ?_, fun i hi => ?_, ?_, fun c hc => ?_⟩
    · rcases List.mem_cons.mp hn with rfl | hn
      · exact hshape
      · exact t.shapes n hn
    · rcases List.mem_cons.mp hn with rfl | hn
      · exact hlabel
      · exact t.labelled n hn
    · have := t.dialogs
      by_cases hk : isDialog node = true
      · have := hdialog hk
        simp only [hk, if_true] at hdialogs hcount
        omega
      · simp only [hk] at hdialogs hcount
        simp only [Bool.false_eq_true, if_false] at hdialogs hcount
        omega
    · rw [instances_cons, List.nodup_append]
      refine ⟨instances_one_nodup node, t.instances, ?_⟩
      rintro i hi j hj rfl
      exact t.unused i hj ((hinstances i).mpr (.inr (instances_one.mp hi)))
    · rw [instances_cons, List.mem_append, instances_one] at hi
      rcases hi with hi | hi
      · exact hinstance i hi
      · exact fun hmem => t.unused i hi ((hinstances i).mpr (.inl hmem))
    · rw [hcons, List.nodup_append]
      refine ⟨hdistinct, t.children, ?_⟩
      rintro c hc d hd rfl
      exact (t.free c hd).2 ((hownership c).mpr (.inr hc))
    · rw [hcons, List.mem_append] at hc
      rcases hc with hc | hc
      · exact hfree c hc
      · exact ⟨(t.free c hc).1, fun hmem => (t.free c hc).2 ((hownership c).mpr (.inl hmem))⟩

theorem check_nodes_accepts (hd : tally.dialogs ≤ 1) :
    (∃ final, nodes.foldlM (checkNode lookup listed) tally = .ok final) ↔
      Tallied lookup listed tally nodes := by
  induction nodes generalizing tally with
  | nil =>
    constructor
    · intro _
      exact ⟨by simp, by simp, by simpa using hd, by simp [instancesOf], by simp [instancesOf],
        by simp [childIds], by simp [childIds]⟩
    · intro _
      exact ⟨tally, rfl⟩
  | cons node rest ih =>
    have step {next : Tally} (h : checkNode lookup listed tally node = .ok next) :
        next.dialogs ≤ 1 := by
      have hnotes := (check_node_notes h).1
      obtain ⟨noted, -⟩ := check_node_accepts.mp ⟨next, h⟩
      have hdialog := (tally_accepts.mp noted).2.1
      by_cases hk : isDialog node = true
      · have := hdialog hk
        simp only [hk, if_true] at hnotes
        omega
      · simp only [hk] at hnotes
        simp only [Bool.false_eq_true, if_false] at hnotes
        omega
    constructor
    · rintro ⟨final, h⟩
      rw [List.foldlM_cons, except_bind_ok] at h
      obtain ⟨next, hnode, hrest⟩ := h
      exact (tallied_cons hnode).mpr ((ih (step hnode)).mp ⟨final, hrest⟩)
    · intro t
      have hnodup := t.children
      have hcons : childIds (node :: rest) = node.children ++ childIds rest := by simp [childIds]
      rw [hcons, List.nodup_append] at hnodup
      obtain ⟨next, hnode⟩ : ∃ next, checkNode lookup listed tally node = .ok next := by
        refine check_node_accepts.mpr ⟨tally_accepts.mpr ⟨t.labelled node List.mem_cons_self,
          fun hk => ?_, fun i hk => t.unused i ?_⟩, t.shapes node List.mem_cons_self,
          own_accepts hnodup.1 fun c hc => t.free c ?_⟩
        · have := t.dialogs
          have hcount := countP_cons node rest
          rw [hk, if_pos rfl] at hcount
          omega
        · rw [instances_cons, List.mem_append]
          exact .inl (instances_one.mpr hk)
        · rw [hcons]
          exact List.mem_append_left _ hc
      obtain ⟨final, hrest⟩ := (ih (step hnode)).mpr ((tallied_cons hnode).mp t)
      exact ⟨final, by rw [List.foldlM_cons, hnode]; exact hrest⟩

end Loops

end FragmentRules
