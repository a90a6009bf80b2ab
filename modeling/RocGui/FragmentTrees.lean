import RocGui.FragmentValidation
import RocGui.StackWalks

/-! What an accepted fragment is: its fresh nodes and retained roots form one tree, and
the postorder lists the fresh ones with children first. -/
namespace FragmentTrees

open FiniteMaps Methods GraphState FragmentValidation StackWalks

variable {K : Type}

def ids (nodes : List (Node K)) : List ℕ := nodes.map (·.id)

def childIds (nodes : List (Node K)) : List ℕ := nodes.flatMap (·.children)

theorem ids_cons (n : Node K) (nodes : List (Node K)) : ids (n :: nodes) = n.id :: ids nodes := rfl

theorem mem_childIds {nodes : List (Node K)} {c : ℕ} :
    c ∈ childIds nodes ↔ ∃ n ∈ nodes, c ∈ n.children := List.mem_flatMap

def below (fresh : FiniteMap ℕ (Node K)) (id : ℕ) : List ℕ :=
  ((fresh.get id).map (·.children)).getD []

structure Fragment (root : ℕ) (nodes : List (Node K)) (retained : Finset ℕ)
    (validated : ValidatedFragment K) : Prop where
  distinct : (ids nodes).Nodup
  fresh : ∀ {id n}, validated.fresh.get id = some n ↔ n ∈ nodes ∧ n.id = id
  apart : ∀ id ∈ ids nodes, id ∉ retained
  listed : ∀ c ∈ childIds nodes, c ∈ ids nodes ∨ c ∈ retained
  owned : (childIds nodes).Nodup
  root_listed : root ∈ ids nodes ∨ root ∈ retained
  root_free : root ∉ childIds nodes
  reached : ∀ id, id ∈ ids nodes ∨ id ∈ retained → id = root ∨ id ∈ childIds nodes
  postorder_nodup : validated.postorder.Nodup
  mem_postorder : ∀ {id}, id ∈ validated.postorder ↔ id ∈ ids nodes
  children_first : Guarded (below validated.fresh) (· ∈ retained)
    (validated.postorder.map fun id => (id, true))

theorem fragment_weight {root : ℕ} {nodes : List (Node K)} {validated : ValidatedFragment K}
    (f : Fragment root nodes ∅ validated) (w : ℕ → ℕ)
    (weighed : ∀ n ∈ nodes, w n.id = 1 + (n.children.map w).sum) : w root = nodes.length := by
  have hperm : (ids nodes).Perm (root :: childIds nodes) := by
    refine (List.perm_ext_iff_of_nodup f.distinct
      (List.nodup_cons.mpr ⟨f.root_free, f.owned⟩)).mpr fun x => ?_
    rw [List.mem_cons]
    constructor
    · exact fun hx => f.reached x (.inl hx)
    · rintro (rfl | hx)
      · exact f.root_listed.resolve_right (Finset.notMem_empty _)
      · exact (f.listed x hx).resolve_right (Finset.notMem_empty _)
  have hsum : ((ids nodes).map w).sum = nodes.length + ((childIds nodes).map w).sum := by
    clear hperm f
    induction nodes with
    | nil => rfl
    | cons n rest ih =>
      have hrest := ih fun m hm => weighed m (List.mem_cons_of_mem _ hm)
      have hn := weighed n (by simp)
      simp only [ids, childIds, List.map_cons, List.sum_cons, List.flatMap_cons, List.map_append,
        List.sum_append, List.length_cons] at hrest ⊢
      omega
  have := (hperm.map w).sum_eq
  rw [List.map_cons, List.sum_cons] at this
  omega

section Index

variable {retained : Finset ℕ} {nodes : List (Node K)} {fresh fresh' : FiniteMap ℕ (Node K)}

theorem index_nodes (h : indexNodes retained fresh nodes = .ok fresh') :
    (ids nodes).Nodup ∧ (∀ n ∈ nodes, fresh.get n.id = none ∧ n.id ∉ retained) ∧
      ∀ id n, fresh'.get id = some n ↔ fresh.get id = some n ∨ n ∈ nodes ∧ n.id = id := by
  induction nodes generalizing fresh with
  | nil =>
    cases h
    exact ⟨List.nodup_nil, by simp, by simp⟩
  | cons node rest ih =>
    simp only [indexNodes] at h
    split at h
    · cases h
    split at h
    · cases h
    rename_i hfree
    simp only [not_or, Option.not_isSome_iff_eq_none] at hfree
    obtain ⟨distinct, free, lookup⟩ := ih h
    have hne {n : Node K} (hn : n ∈ rest) : n.id ≠ node.id := by
      intro heq
      simpa [FiniteMap.get_set, heq] using (free n hn).1
    refine ⟨List.nodup_cons.mpr ⟨fun hmem => ?_, distinct⟩, ?_, fun id n => ?_⟩
    · obtain ⟨n, hn, heq⟩ := List.mem_map.mp hmem
      exact hne hn heq
    · intro n hn
      rcases List.mem_cons.mp hn with rfl | hn
      · exact ⟨hfree.2, hfree.1⟩
      · exact ⟨by simpa [FiniteMap.get_set, hne hn] using (free n hn).1, (free n hn).2⟩
    · rw [lookup, FiniteMap.get_set, List.mem_cons]
      by_cases hid : id = node.id
      · subst hid
        rw [if_pos rfl, hfree.2]
        constructor
        · rintro (heq | ⟨hn, heq⟩)
          · exact .inr ⟨.inl (Option.some.inj heq).symm, by rw [Option.some.inj heq]⟩
          · exact absurd heq (hne hn)
        · rintro (heq | ⟨rfl | hn, heq⟩)
          · cases heq
          · exact .inl rfl
          · exact absurd heq (hne hn)
      · rw [if_neg hid]
        refine or_congr_right ⟨fun ⟨hn, heq⟩ => ⟨.inr hn, heq⟩, ?_⟩
        rintro ⟨rfl | hn, heq⟩
        · exact absurd heq.symm hid
        · exact ⟨hn, heq⟩

end Index

section Ownership

variable {listed : ℕ → Bool} {owned owned' : Finset ℕ}

theorem own_ok {id : ℕ} {children : List ℕ} (h : own listed id owned children = .ok owned') :
    (∀ c ∈ children, listed c = true ∧ c ∉ owned) ∧ children.Nodup ∧
      ∀ c, c ∈ owned' ↔ c ∈ owned ∨ c ∈ children := by
  induction children generalizing owned with
  | nil =>
    cases h
    simp
  | cons child rest ih =>
    simp only [own] at h
    split at h
    · cases h
    split at h
    · cases h
    rename_i hlisted hfree
    obtain ⟨free, nodup, mem⟩ := ih h
    refine ⟨fun c hc => ?_, List.nodup_cons.mpr ⟨fun hc => ?_, nodup⟩, fun c => ?_⟩
    · rcases List.mem_cons.mp hc with rfl | hc
      · exact ⟨by simpa using hlisted, hfree⟩
      · exact ⟨(free c hc).1, fun hmem => (free c hc).2 (Finset.mem_insert_of_mem hmem)⟩
    · exact (free child hc).2 (Finset.mem_insert_self _ _)
    · rw [mem, Finset.mem_insert, List.mem_cons]
      tauto

theorem tally_node {tally tally' : Tally} {node : Node K} (h : tallyNode tally node = .ok tally') :
    tally'.ownership = tally.ownership := by
  unfold tallyNode at h
  split at h
  · split at h <;> cases h
    rfl
  · split at h <;> cases h
    rfl
  · split at h <;> cases h
    rfl
  · cases h
    rfl

theorem check_node {lookup : ℕ → Option (Node K)} {tally tally' : Tally} {node : Node K}
    (h : checkNode lookup listed tally node = .ok tally') :
    own listed node.id tally.ownership node.children = .ok tally'.ownership := by
  simp only [checkNode, except_bind_ok] at h
  obtain ⟨noted, hnoted, -, -, owned, hown, heq⟩ := h
  obtain rfl : { noted with ownership := owned } = tally' := Except.ok.inj heq
  rw [← tally_node hnoted]
  exact hown

theorem check_nodes {lookup : ℕ → Option (Node K)} {tally tally' : Tally} {nodes : List (Node K)}
    (h : nodes.foldlM (checkNode lookup listed) tally = .ok tally') :
    (∀ c ∈ childIds nodes, listed c = true ∧ c ∉ tally.ownership) ∧ (childIds nodes).Nodup ∧
      ∀ c, c ∈ tally'.ownership ↔ c ∈ tally.ownership ∨ c ∈ childIds nodes := by
  induction nodes generalizing tally with
  | nil =>
    cases h
    simp [childIds]
  | cons node rest ih =>
    rw [List.foldlM_cons, except_bind_ok] at h
    obtain ⟨next, hnode, hrest⟩ := h
    obtain ⟨here, nodup, mem⟩ := own_ok (check_node hnode)
    obtain ⟨there, nodup', mem'⟩ := ih hrest
    have hcons (c : ℕ) : c ∈ childIds (node :: rest) ↔ c ∈ node.children ∨ c ∈ childIds rest := by
      simp [childIds]
    refine ⟨fun c hc => ?_, ?_, fun c => ?_⟩
    · rcases (hcons c).mp hc with hc | hc
      · exact here c hc
      · exact ⟨(there c hc).1, fun hmem => (there c hc).2 ((mem c).mpr (.inl hmem))⟩
    · rw [childIds, List.flatMap_cons]
      refine List.nodup_append.mpr ⟨nodup, nodup', ?_⟩
      rintro c hc d hd rfl
      exact (there c hd).2 ((mem c).mpr (.inr hc))
    · rw [mem', mem, hcons, or_assoc]

end Ownership

section Traversal

variable {fresh : FiniteMap ℕ (Node K)} {retained : Finset ℕ} {root : ℕ} {t t' : Traversal}

theorem visit_cases {id : ℕ} {exiting : Bool} {owner : Option ℕ}
    (h : visit fresh retained t id exiting owner = .ok t') :
    (exiting = true ∧ t'.pending = t.pending ∧ t'.reached = t.reached ∧
      t'.postorder = t.postorder ++ [id]) ∨
    (exiting = false ∧ id ∉ t.reached ∧ t'.reached = insert id t.reached ∧
      t'.postorder = t.postorder ∧
      ((id ∈ retained ∧ t'.pending = t.pending) ∨
        ∃ n o, id ∉ retained ∧ fresh.get id = some n ∧
          t'.pending = n.children.map (fun c => (c, false, o)) ++ (id, true, o) :: t.pending)) := by
  unfold visit at h
  split at h
  · cases h
    simp_all
  split at h
  · cases h
  rename_i hexit hreached
  refine .inr ⟨by simpa using hexit, hreached, ?_⟩
  dsimp only at h
  split at h
  · cases h
    exact ⟨rfl, rfl, .inl ⟨‹_›, rfl⟩⟩
  rename_i hretained
  cases hnode : fresh.get id with
  | none => simp [hnode] at h
  | some node =>
    simp only [hnode] at h
    split at h
    · cases h
      exact ⟨rfl, rfl, .inr ⟨node, _, hretained, rfl, rfl⟩⟩
    · split at h
      · cases h
      · cases h
        exact ⟨rfl, rfl, .inr ⟨node, _, hretained, rfl, rfl⟩⟩
    · cases h
      exact ⟨rfl, rfl, .inr ⟨node, _, hretained, rfl, rfl⟩⟩

def marks (t : Traversal) : List (ℕ × Bool) :=
  t.postorder.map (fun id => (id, true)) ++ t.pending.map fun e => (e.1, e.2.1)

def leaving (es : List (ℕ × Bool)) : List ℕ := (es.filter (·.2)).map Prod.fst

structure Walk (fresh : FiniteMap ℕ (Node K)) (retained : Finset ℕ) (root : ℕ) (t : Traversal) :
    Prop where
  guarded : Guarded (below fresh) (· ∈ retained) (marks t)
  nodup : (leaving (marks t)).Nodup
  entered : ∀ x ∈ leaving (marks t), x ∈ t.reached ∧ (fresh.get x).isSome
  covered : ∀ x ∈ t.reached, x ∈ retained ∨ x ∈ leaving (marks t)
  sourced : ∀ x, x ∈ t.reached ∨ x ∈ t.pending.map Prod.fst →
    x = root ∨ ∃ y n, fresh.get y = some n ∧ x ∈ n.children

theorem leaving_append (xs ys : List (ℕ × Bool)) :
    leaving (xs ++ ys) = leaving xs ++ leaving ys := by
  simp [leaving]

theorem leaving_entries (cs : List ℕ) : leaving (cs.map fun c => (c, false)) = [] := by
  simp [leaving]

theorem leaving_exits (xs : List ℕ) : leaving (xs.map fun id => (id, true)) = xs := by
  induction xs with
  | nil => rfl
  | cons x xs ih => simpa [leaving] using ih

theorem leaving_cons_true (id : ℕ) (es : List (ℕ × Bool)) :
    leaving ((id, true) :: es) = id :: leaving es := by
  simp [leaving]

theorem leaving_cons_false (id : ℕ) (es : List (ℕ × Bool)) :
    leaving ((id, false) :: es) = leaving es := by
  simp [leaving]

theorem visit_walk {id : ℕ} {exiting : Bool} {owner : Option ℕ}
    {pending : List (ℕ × Bool × Option ℕ)} (hp : t.pending = (id, exiting, owner) :: pending)
    (w : Walk fresh retained root t)
    (h : visit fresh retained { t with pending } id exiting owner = .ok t') :
    Walk fresh retained root t' := by
  have hmarks : marks t = t.postorder.map (fun id => (id, true)) ++
      (id, exiting) :: pending.map fun e => (e.1, e.2.1) := by rw [marks, hp, List.map_cons]
  have hid : id = root ∨ ∃ y n, fresh.get y = some n ∧ id ∈ n.children :=
    w.sourced id (.inr (by simp [hp]))
  have sourced {x : ℕ} (hx : x ∈ t.reached ∨ x ∈ pending.map Prod.fst) :
      x = root ∨ ∃ y n, fresh.get y = some n ∧ x ∈ n.children :=
    w.sourced x (hx.imp_right fun h => by simp [hp, List.mem_map.mp h])
  rcases visit_cases h with ⟨rfl, hpending, hreached, hpost⟩ |
      ⟨rfl, hfree, hreached, hpost, ⟨hretained, hpending⟩ | ⟨n, o, hretained, hn, hpending⟩⟩
  · -- leaving a node moves its mark without changing the list of marks
    have same : marks t' = marks t := by
      rw [hmarks, marks, hpost, hpending, List.map_append, List.append_assoc]
      rfl
    refine ⟨same ▸ w.guarded, same ▸ w.nodup, ?_, ?_, fun x hx => ?_⟩
    · rw [same, hreached]
      exact w.entered
    · rw [same, hreached]
      exact w.covered
    · rw [hreached, hpending] at hx
      exact sourced hx
  · have hsame : leaving (marks t') = leaving (marks t) := by
      rw [hmarks, marks, hpost, hpending, leaving_append, leaving_append, leaving_cons_false]
    refine ⟨?_, hsame ▸ w.nodup, fun x hx => ?_, fun x hx => ?_, fun x hx => ?_⟩
    · have guarded := w.guarded
      rw [hmarks] at guarded
      obtain ⟨before, after⟩ := guarded_append.mp guarded
      rw [marks, hpost, hpending]
      exact guarded_append.mpr ⟨before, guarded_skip (.inl hretained) after⟩
    · rw [hsame] at hx
      rw [hreached]
      exact ⟨Finset.mem_insert_of_mem (w.entered x hx).1, (w.entered x hx).2⟩
    · rw [hsame]
      rw [hreached, Finset.mem_insert] at hx
      rcases hx with rfl | hx
      · exact .inl hretained
      · exact w.covered x hx
    · rw [hreached, Finset.mem_insert, hpending] at hx
      rcases hx with (rfl | hx) | hx
      · exact hid
      · exact sourced (.inl hx)
      · exact sourced (.inr hx)
  · have hbelow : below fresh id = n.children := by simp [below, hn]
    have hmarks' : marks t' = t.postorder.map (fun id => (id, true)) ++
        ((below fresh id).map (fun c => (c, false)) ++ (id, true) ::
          pending.map fun e => (e.1, e.2.1)) := by
      simp [marks, hpost, hpending, hbelow]
    have hleaving : (leaving (marks t')).Perm (id :: leaving (marks t)) := by
      rw [hmarks', hmarks, leaving_append, leaving_append, leaving_append, leaving_entries,
        leaving_cons_true, leaving_cons_false, List.nil_append]
      exact List.perm_middle
    refine ⟨?_, ?_, fun x hx => ?_, fun x hx => ?_, fun x hx => ?_⟩
    · have guarded := w.guarded
      rw [hmarks] at guarded
      obtain ⟨before, after⟩ := guarded_append.mp guarded
      rw [hmarks']
      exact guarded_append.mpr ⟨before, guarded_descend after⟩
    · exact hleaving.nodup_iff.mpr (List.nodup_cons.mpr ⟨fun h => hfree (w.entered id h).1, w.nodup⟩)
    · rw [hreached]
      rcases List.mem_cons.mp (hleaving.mem_iff.mp hx) with rfl | hx
      · exact ⟨Finset.mem_insert_self _ _, by simp [hn]⟩
      · exact ⟨Finset.mem_insert_of_mem (w.entered x hx).1, (w.entered x hx).2⟩
    · rw [hleaving.mem_iff, List.mem_cons]
      rw [hreached, Finset.mem_insert] at hx
      rcases hx with rfl | hx
      · exact .inr (.inl rfl)
      · exact (w.covered x hx).imp_right .inr
    · rw [hreached, Finset.mem_insert, hpending, List.map_append, List.mem_append] at hx
      rcases hx with (rfl | hx) | hx | hx
      · exact hid
      · exact sourced (.inl hx)
      · exact .inr ⟨id, n, hn, by simpa using hx⟩
      · rcases List.mem_cons.mp hx with rfl | hx
        · exact hid
        · exact sourced (.inr hx)

theorem traverse_walk {fuel : ℕ} (w : Walk fresh retained root t)
    (h : traverse fresh retained fuel t = .ok t') : Walk fresh retained root t' ∧ t'.pending = [] := by
  induction fuel generalizing t with
  | zero =>
    simp only [FragmentValidation.traverse] at h
    split at h
    · cases h
      exact ⟨w, ‹_›⟩
    · cases h
  | succ fuel ih =>
    cases hp : t.pending with
    | nil =>
      simp only [FragmentValidation.traverse, hp] at h
      cases h
      exact ⟨w, hp⟩
    | cons e pending =>
      obtain ⟨id, exiting, owner⟩ := e
      simp only [FragmentValidation.traverse, hp, except_bind_ok] at h
      obtain ⟨next, hvisit, hrest⟩ := h
      exact ih (visit_walk hp w hvisit) hrest

end Traversal

section Accepted

variable {root : ℕ} {nodes : List (Node K)} {retained : Finset ℕ} {owner : Option ℕ}
  {mounted : ℕ → Option (Node K)} {validated : ValidatedFragment K}

theorem walk_start (fresh : FiniteMap ℕ (Node K)) (retained : Finset ℕ) (root : ℕ)
    (owner : Option ℕ) (visits : ℕ) :
    Walk fresh retained root ⟨[(root, false, owner)], ∅, ∅, ∅, [], visits⟩ := by
  refine ⟨⟨fun h => by simp at h, trivial⟩, List.nodup_nil, by simp [leaving, marks], by simp, ?_⟩
  intro x hx
  exact .inl (by simpa using hx)

theorem refuse_ok {α : Type} {answer : Except FragmentError α} {a : α}
    (h : refuseFragment answer = .ok a) : answer = .ok a := by
  cases answer with
  | ok b =>
    cases h
    rfl
  | error e => cases h

theorem walk_over {t : Traversal} (hp : t.pending = []) : leaving (marks t) = t.postorder := by
  rw [marks, hp, List.map_nil, List.append_nil, leaving_exits]

theorem validated_fragment (h : validateFragment root nodes retained owner mounted = .ok validated) :
    Fragment root nodes retained validated := by
  simp only [validateFragment, except_guard_ok, except_bind_ok, not_not] at h
  obtain ⟨-, -, fresh, hindex, hroot, tally, htally, hfree, t, ht, hcard, heq⟩ := h
  obtain rfl : (⟨fresh, t.inputOwners, t.postorder, t.visits⟩ : ValidatedFragment K) = validated :=
    Except.ok.inj heq
  obtain ⟨distinct, free, lookup⟩ := index_nodes (refuse_ok hindex)
  obtain ⟨listed, owned, ownership⟩ := check_nodes (refuse_ok htally)
  obtain ⟨w, hp⟩ := traverse_walk (walk_start fresh retained root owner nodes.length) ht
  have hleft := walk_over hp
  have fresh_iff {id : ℕ} {n : Node K} : fresh.get id = some n ↔ n ∈ nodes ∧ n.id = id := by
    rw [lookup]
    simp
  have is_some {id : ℕ} : (fresh.get id).isSome ↔ id ∈ ids nodes := by
    rw [Option.isSome_iff_exists, ids, List.mem_map]
    exact exists_congr fun n => fresh_iff
  have mem_listed {c : ℕ} (hc : ((fresh.get c).isSome || decide (c ∈ retained)) = true) :
      c ∈ ids nodes ∨ c ∈ retained := by
    rw [Bool.or_eq_true, is_some, decide_eq_true_eq] at hc
    exact hc
  have all : t.reached = (ids nodes).toFinset ∪ retained := by
    refine Finset.eq_of_subset_of_card_le (fun x hx => ?_) ?_
    · rw [Finset.mem_union, List.mem_toFinset]
      rcases w.covered x hx with hr | hl
      · exact .inr hr
      · exact .inl (is_some.mp (w.entered x hl).2)
    · rw [hcard]
      refine (Finset.card_union_le _ _).trans (Nat.add_le_add_right ?_ _)
      exact (List.toFinset_card_le _).trans (by simp [ids])
  have hreached {id : ℕ} (hid : id ∈ ids nodes ∨ id ∈ retained) : id ∈ t.reached := by
    rw [all, Finset.mem_union, List.mem_toFinset]
    exact hid
  have apart : ∀ id ∈ ids nodes, id ∉ retained := by
    intro id hid
    obtain ⟨n, hn, rfl⟩ := List.mem_map.mp hid
    exact (free n hn).2
  exact {
    distinct
    fresh := fresh_iff
    apart
    listed := fun c hc => mem_listed (listed c hc).1
    owned
    root_listed := mem_listed hroot
    root_free := fun hmem => hfree ((ownership root).mpr (.inr hmem))
    reached := fun id hid => by
      rcases w.sourced id (.inl (hreached hid)) with heq | ⟨y, n, hn, hc⟩
      · exact .inl heq
      · exact .inr (mem_childIds.mpr ⟨n, (fresh_iff.mp hn).1, hc⟩)
    postorder_nodup := hleft ▸ w.nodup
    mem_postorder := fun {id} => by
      constructor
      · intro hid
        exact is_some.mp (w.entered id (hleft ▸ hid)).2
      · intro hid
        exact hleft ▸ (w.covered id (hreached (.inl hid))).resolve_left (apart id hid)
    children_first := by
      have guarded := w.guarded
      rw [marks, hp, List.map_nil, List.append_nil] at guarded
      exact guarded }

end Accepted

end FragmentTrees
