import RocGui.OrderShapes

/-! Inserting a slot: nodes that overflow are split in two, up to a new root. -/
namespace OrderInsertions

open FiniteMaps Methods OrderTables OrderTrees OrderShapes RankTree

variable {ε : Type} {h : ℕ}

/-- What an insertion leaves where a tree was. Each entry past half of a node's pays for
part of the node that the next split makes. -/
structure Inserted (o : RowsOrder) (t : RankTree h) (index slot : ℕ) (rest : Multiset ℕ)
    (o' : RowsOrder) (ts : List (RankTree h)) : Prop where
  placed : (∃ u, ts = [u] ∧ u.id = t.id) ∨ ∃ u v, ts = [u, v] ∧ u.id = t.id
  stored : ∀ u ∈ ts, u.slots ≠ [] ∧ Stored o' u
  slots : ts.flatMap slots = t.slots.take index ++ slot :: t.slots.drop index
  pooled : Pooled o' ((ts.map ids).sum + rest)
  nodes : ∀ x ∈ rest, node o' x = node o x
  parents : ∀ x, x ∈ rest ∨ x = t.id → parentOf o' x = parentOf o x
  leaves : ∀ s, s ≠ slot → s ∉ t.slots → leafOf o' s = leafOf o s
  root : o'.root = o.root
  credit : 7 * o'.nextNode + (ts.map excess).sum + 8 * (ts.length - 1) ≤
    7 * o.nextNode + t.excess + 1

/-- What rewriting a branch over these children leaves in its place. -/
structure Rebranched (o : RowsOrder) (id : ℕ) (kids : List (RankTree h)) (rest : Multiset ℕ)
    (o' : RowsOrder) (ts : List (RankTree (h + 1))) : Prop where
  placed : (∃ u, ts = [u] ∧ u.id = id) ∨ ∃ u v, ts = [u, v] ∧ u.id = id
  stored : ∀ u ∈ ts, u.slots ≠ [] ∧ Stored o' u
  slots : ts.flatMap RankTree.slots = kids.flatMap RankTree.slots
  pooled : Pooled o' ((ts.map ids).sum + rest)
  nodes : ∀ x ∈ rest, node o' x = node o x
  parents : ∀ x, x ∈ rest ∨ x = id → parentOf o' x = parentOf o x
  leaves : ∀ s, leafOf o' s = leafOf o s
  root : o'.root = o.root
  credit : 7 * o'.nextNode + (ts.map excess).sum + 8 * (ts.length - 1) ≤
    7 * o.nextNode + (kids.length - 16) + (kids.map excess).sum

section Leaf

variable {o : RowsOrder} {id : ℕ} {ss : List ℕ} {index slot : ℕ} {rest : Multiset ℕ}

theorem insert_leaf (ht : Stored o (leaf id ss)) (hslot : 0 < slot) (fresh : slot ∉ ss)
    (distinct : ss.Nodup) (hparent : ∃ p, parentOf o id = some p)
    (pool : Pooled o ((leaf id ss).ids + rest)) :
    (∃ o' ts, (insertLeaf o id ss ss.length index slot : Except (Failure ε) _) =
        .ok ⟨o', ts.map RankTree.id⟩ ∧ Inserted o (leaf id ss) index slot rest o' ts) ∨
      (insertLeaf o id ss ss.length index slot : Except (Failure ε) _) = .error exhausted ∧
        7 * maxId ≤ 7 * o.nextNode + (leaf id ss).excess + 1 := by
  obtain ⟨hid, hnode, hlen, hss⟩ := stored_leaf.mp ht
  have hlive : (leaf id ss).ids = {id} := rfl
  rw [hlive] at pool
  have hrest : ∀ x ∈ rest, x ≠ id := fun x hx heq => by
    have := live_distinct pool
    rw [Multiset.singleton_add, Multiset.nodup_cons] at this
    exact this.1 (heq ▸ hx)
  have hpos : ∀ s ∈ ss.take index ++ [slot] ++ ss.drop index, 0 < s := by
    intro s hs
    simp only [List.mem_append, List.mem_singleton] at hs
    rcases hs with (hs | rfl) | hs
    · exact (hss s (List.mem_of_mem_take hs)).1
    · exact hslot
    · exact (hss s (List.mem_of_mem_drop hs)).1
  have hlength : (ss.take index ++ [slot] ++ ss.drop index).length = ss.length + 1 := by
    simp only [List.length_append, List.length_take, List.length_drop, List.length_singleton]
    omega
  have mem_inserted {s : ℕ} : s ∈ ss.take index ++ [slot] ++ ss.drop index ↔ s = slot ∨ s ∈ ss := by
    conv_rhs => rw [← List.take_append_drop index ss]
    simp only [List.mem_append, List.mem_singleton]
    tauto
  have hnodup : (ss.take index ++ [slot] ++ ss.drop index).Nodup := by
    rw [List.append_assoc, List.singleton_append, List.nodup_middle, List.nodup_cons,
      List.take_append_drop]
    exact ⟨fresh, distinct⟩
  unfold insertLeaf
  simp only [hlength]
  generalize hins : ss.take index ++ [slot] ++ ss.drop index = inserted at *
  by_cases hfits : ss.length + 1 ≤ 32
  · rw [if_pos hfits]
    obtain ⟨nodes, hn, look⟩ := set_ok (ε := ε) o.nodes
      (RowsOrderNode.leaf inserted (ss.length + 1)) hid
    obtain ⟨leaves, hl, looks⟩ := set_ok (ε := ε) o.slotLeaf id hslot
    rw [hn, ok_bind, hl]
    refine .inl ⟨{ o with nodes, slotLeaf := leaves }, [leaf id inserted], rfl, ?_⟩
    have hnode' (x : ℕ) : node { o with nodes, slotLeaf := leaves } x =
        if x = id then some (.leaf inserted (ss.length + 1)) else node o x := look x
    have hleaf' (s : ℕ) : leafOf { o with nodes, slotLeaf := leaves } s =
        if s = slot then some id else leafOf o s := looks s
    constructor
    case placed => exact .inl ⟨_, rfl, rfl⟩
    case stored =>
      simp only [List.mem_singleton, forall_eq, slots_leaf]
      refine ⟨List.ne_nil_of_length_pos (by omega), stored_leaf.mpr ⟨hid, ?_, by omega, ?_⟩⟩
      · rw [hnode', if_pos rfl, hlength]
      · intro s hs
        refine ⟨hpos s hs, ?_⟩
        rw [hleaf']
        split
        · rfl
        · exact (hss s ((mem_inserted.mp hs).resolve_left ‹_›)).2
    case slots => simp [← hins]
    case pooled =>
      refine ⟨?_, fun x hx => ?_⟩
      · simpa [RankTree.ids] using pool.handed
      · have hx' : x ∉ ({id} + rest : Multiset ℕ) := by simpa [RankTree.ids] using hx
        rw [hnode', if_neg (by rintro rfl; exact hx' (by simp))]
        exact pool.blank x hx'
    case nodes => exact fun x hx => by rw [hnode', if_neg (hrest x hx)]
    case parents => exact fun x _ => rfl
    case leaves => exact fun s hs _ => by rw [hleaf', if_neg hs]
    case root => rfl
    case credit =>
      simp only [List.map_singleton, List.sum_singleton, excess_leaf, List.length_singleton]
      omega
  · rw [if_neg hfits]
    rcases allocate pool with ⟨rightId, n, f, halloc⟩ | ⟨hmax, hrun⟩
    · have hne : rightId ≠ id := by
        rintro rfl
        exact halloc.fresh (by simp)
      have hright : rightId ∉ rest := fun hx => halloc.fresh (by simp [hx])
      obtain ⟨p, hp⟩ := hparent
      have hsplit : inserted = inserted.take 16 ++ inserted.drop 16 :=
        (List.take_append_drop 16 inserted).symm
      have hleft : (inserted.take 16).length = 16 := by
        rw [List.length_take]
        omega
      have hrights : (inserted.drop 16).length = 17 := by
        rw [List.length_drop]
        omega
      generalize inserted.take 16 = left at *
      generalize inserted.drop 16 = right at *
      subst hsplit
      obtain ⟨nodes, hn, look⟩ := set_ok (ε := ε) o.nodes
        (RowsOrderNode.leaf left left.length) hid
      obtain ⟨nodes', hn', look'⟩ := set_ok (ε := ε) nodes
        (RowsOrderNode.leaf right right.length) halloc.pos
      obtain ⟨leaves, hl, looks⟩ := settle_slots (ε := ε) id
        (fun s hs => hpos s (List.mem_append_left _ hs)) o.slotLeaf
      obtain ⟨leaves', hl', looks'⟩ := settle_slots (ε := ε) rightId
        (fun s hs => hpos s (List.mem_append_right _ hs)) leaves
      obtain ⟨parents, hps, lookp⟩ := set_ok (ε := ε) o.parents p halloc.pos
      rw [halloc.run]
      simp only [ok_bind, hn, hn', hl, hl', get_parent_ok hid hp, or_crash_some, hps]
      generalize ho' : RowsOrder.mk o.root nodes' parents leaves' n f = o'
      have hnode' (x : ℕ) : node o' x = if x = rightId then some (.leaf right right.length)
          else if x = id then some (.leaf left left.length) else node o x := by
        rw [← ho']
        exact (look' x).trans (by rw [look]; rfl)
      have hparent' (x : ℕ) : parentOf o' x = if x = rightId then some p else parentOf o x := by
        rw [← ho']
        exact lookp x
      have hleaf' (s : ℕ) : leafOf o' s = if s ∈ right then some rightId
          else if s ∈ left then some id else leafOf o s := by
        rw [← ho']
        exact (looks' s).trans (by rw [looks]; rfl)
      have apart : ∀ s ∈ left, s ∉ right := fun s hl hr =>
        (List.nodup_append.mp hnodup).2.2 s hl s hr rfl
      refine .inl ⟨o', [leaf id left, leaf rightId right], rfl, ?_⟩
      constructor
      case placed => exact .inr ⟨_, _, rfl, rfl⟩
      case stored =>
        simp only [List.mem_cons, List.not_mem_nil, or_false, forall_eq_or_imp, forall_eq,
          slots_leaf, stored_leaf]
        refine ⟨⟨List.ne_nil_of_length_pos (by omega), hid, ?_, by omega, fun s hs => ?_⟩,
          List.ne_nil_of_length_pos (by omega), halloc.pos, ?_, by omega, fun s hs => ?_⟩
        · rw [hnode', if_neg hne.symm, if_pos rfl]
        · rw [hleaf', if_neg (apart s hs), if_pos hs]
          exact ⟨hpos s (List.mem_append_left _ hs), rfl⟩
        · rw [hnode', if_pos rfl]
        · rw [hleaf', if_pos hs]
          exact ⟨hpos s (List.mem_append_right _ hs), rfl⟩
      case slots => simp [← hins]
      case pooled =>
        refine ⟨?_, fun x hx => ?_⟩
        · rw [← ho']
          refine Eq.trans ?_ halloc.handed
          simp [RankTree.ids, Multiset.cons_swap]
        · simp only [RankTree.ids, List.map_cons, id_leaf, below_leaf, List.map_nil, List.sum_cons,
            List.sum_nil, Multiset.mem_add, Multiset.mem_cons, Multiset.notMem_zero, or_false,
            not_or] at hx
          rw [hnode', hparent', if_neg hx.1.2, if_neg hx.1.1, if_neg hx.1.2]
          exact pool.blank x (by simp [hx])
      case nodes =>
        intro x hx
        rw [hnode', if_neg (by rintro rfl; exact hright hx), if_neg (hrest x hx)]
      case parents =>
        intro x hx
        rw [hparent', if_neg]
        rintro rfl
        exact hx.elim hright hne
      case leaves =>
        intro s hs hss
        have hs : s ∉ left ++ right := fun h => (mem_inserted.mp h).elim hs hss
        rw [List.mem_append, not_or] at hs
        rw [hleaf', if_neg hs.2, if_neg hs.1]
      case root => rw [← ho']
      case credit =>
        have := halloc.grown
        simp only [← ho', List.map_cons, List.map_nil, List.sum_cons, List.sum_nil, excess_leaf,
          List.length_cons, List.length_nil]
        omega
    · rw [hrun]
      refine .inr ⟨rfl, ?_⟩
      omega

end Leaf

section Branch

variable {o : RowsOrder} {id : ℕ} (len : ℕ) {kids : List (RankTree h)} {rest : Multiset ℕ}

theorem branch_over {o' : RowsOrder} (hid : 0 < id)
    (hkids : ∀ k ∈ kids, k.slots ≠ [] ∧ Stored o k) (hne : kids ≠ []) (hlen : kids.length ≤ 32)
    (written : node o' id = some (.branch (kids.map RankTree.id) (kids.flatMap slots).length))
    (parents : ∀ i c, (kids.map RankTree.id)[i]? = some c → parentOf o' c = some (.child id i))
    (nodes : ∀ k ∈ kids, ∀ x ∈ k.ids, node o' x = node o x)
    (kept : ∀ k ∈ kids, ∀ x ∈ k.below, parentOf o' x = parentOf o x)
    (leaves : ∀ s, leafOf o' s = leafOf o s) :
    (branch id kids).slots ≠ [] ∧ Stored o' (branch id kids) := by
  refine ⟨?_, stored_branch.mpr ⟨hid, written, hne, hlen, fun i k hk => ?_, fun k hk => ?_⟩⟩
  · obtain ⟨k, hk⟩ := List.exists_mem_of_ne_nil _ hne
    obtain ⟨s, hs⟩ := List.exists_mem_of_ne_nil _ (hkids k hk).1
    exact List.ne_nil_of_mem (List.mem_flatMap.mpr ⟨k, hk, hs⟩)
  · exact parents i k.id (by simp [hk])
  · exact ⟨(hkids k hk).1,
      stored_frame (hkids k hk).2 (nodes k hk) (kept k hk) fun s _ => leaves s⟩

theorem write_branch (hid : 0 < id) (hkids : ∀ k ∈ kids, k.slots ≠ [] ∧ Stored o k)
    (hne : kids ≠ []) (hfits : kids.length ≤ 32) (hlen : len = (kids.flatMap slots).length)
    (pool : Pooled o (id ::ₘ (kids.map ids).sum + rest)) : ∃ nodes parents,
      (tableSet o.nodes id (.branch (kids.map RankTree.id) len) : Except (Failure ε) _) = .ok nodes ∧
      (setChildParents { o with nodes } id (kids.map RankTree.id) : Except (Failure ε) _) =
        .ok { o with nodes, parents } ∧
      Rebranched o id kids rest { o with nodes, parents } [branch id kids] := by
  have hlive := live_distinct pool
  rw [Multiset.cons_add, Multiset.nodup_cons, Multiset.nodup_add] at hlive
  obtain ⟨hidk, hkd, -, hapart⟩ := hlive
  rw [Multiset.mem_add, not_or] at hidk
  rw [Multiset.disjoint_left] at hapart
  have hin {k : RankTree h} (hk : k ∈ kids) {x : ℕ} (hx : x ∈ k.ids) : x ∈ (kids.map ids).sum :=
    mem_sum.mpr ⟨k, hk, hx⟩
  have hkid {x : ℕ} (hx : x ∈ rest ∨ x = id) {k : RankTree h} (hk : k ∈ kids) : x ≠ k.id := by
    rintro rfl
    rcases hx with hx | hx
    · exact hapart (hin hk (id_mem k)) hx
    · exact hidk.1 (hx ▸ hin hk (id_mem k))
  obtain ⟨nodes, hn, look⟩ := set_ok (ε := ε) o.nodes
    (RowsOrderNode.branch (kids.map RankTree.id) len) hid
  obtain ⟨parents, hps, hchild, hother⟩ := set_child_parents (ε := ε) id
    (ids_distinct hkd) (fun c hc => by
      obtain ⟨k, hk, rfl⟩ := List.mem_map.mp hc
      exact (stored_node (hkids k hk).2).1) { o with nodes }
  refine ⟨nodes, parents, hn, hps, ?_⟩
  have hnode' (x : ℕ) : node { o with nodes, parents } x =
      if x = id then some (.branch (kids.map RankTree.id) len) else node o x := look x
  have hparent' {x : ℕ} (hx : ∀ k ∈ kids, x ≠ k.id) :
      parentOf { o with nodes, parents } x = parentOf o x := by
    refine hother x fun hm => ?_
    obtain ⟨k, hk, rfl⟩ := List.mem_map.mp hm
    exact hx k hk rfl
  constructor
  case placed => exact .inl ⟨_, rfl, rfl⟩
  case stored =>
    simp only [List.mem_singleton, forall_eq]
    refine branch_over hid hkids hne hfits ?_ hchild ?_ ?_ fun s => rfl
    · rw [hnode', if_pos rfl, hlen]
    · intro k hk x hx
      rw [hnode', if_neg (by rintro rfl; exact hidk.1 (hin hk hx))]
    · exact fun k hk x hx => hparent' fun k' hk' => below_apart hkd hk hk' hx
  case slots => simp
  case pooled =>
    refine ⟨by simpa [RankTree.ids] using pool.handed, fun x hx => ?_⟩
    have hx' : x ∉ id ::ₘ (kids.map ids).sum + rest := by simpa [RankTree.ids] using hx
    have hxk : ∀ k ∈ kids, x ≠ k.id := by
      rintro k hk rfl
      exact hx' (by simp [hin hk (id_mem k)])
    rw [hnode', hparent' hxk, if_neg (by rintro rfl; exact hx' (by simp))]
    exact pool.blank x hx'
  case nodes => exact fun x hx => by rw [hnode', if_neg (by rintro rfl; exact hidk.2 hx)]
  case parents => exact fun x hx => hparent' fun k hk => hkid hx hk
  case leaves => exact fun s => rfl
  case root => rfl
  case credit =>
    simp only [List.map_singleton, List.sum_singleton, excess_branch, List.length_singleton]
    omega

theorem insert_branch (hid : 0 < id) (hkids : ∀ k ∈ kids, k.slots ≠ [] ∧ Stored o k)
    (hne : kids ≠ []) (hmany : kids.length ≤ 33) (hlen : len + 1 = (kids.flatMap slots).length)
    (hparent : ∃ p, parentOf o id = some p)
    (pool : Pooled o (id ::ₘ (kids.map ids).sum + rest)) :
    (∃ o' ts, (insertBranch o id (kids.map RankTree.id) len : Except (Failure ε) _) =
        .ok ⟨o', ts.map RankTree.id⟩ ∧ Rebranched o id kids rest o' ts) ∨
      (insertBranch o id (kids.map RankTree.id) len : Except (Failure ε) _) = .error exhausted ∧
        7 * maxId ≤ 7 * o.nextNode + (kids.length - 16) + (kids.map excess).sum := by
  have hlive := live_distinct pool
  rw [Multiset.cons_add, Multiset.nodup_cons, Multiset.nodup_add] at hlive
  obtain ⟨hidk, hkd, -, hapart⟩ := hlive
  rw [Multiset.mem_add, not_or] at hidk
  rw [Multiset.disjoint_left] at hapart
  have hpos : ∀ k ∈ kids, 0 < k.id := fun k hk => (stored_node (hkids k hk).2).1
  have hin {k : RankTree h} (hk : k ∈ kids) {x : ℕ} (hx : x ∈ k.ids) : x ∈ (kids.map ids).sum :=
    mem_sum.mpr ⟨k, hk, hx⟩
  have hkid {x : ℕ} (hx : x ∈ rest ∨ x = id) {k : RankTree h} (hk : k ∈ kids) : x ≠ k.id := by
    rintro rfl
    rcases hx with hx | hx
    · exact hapart (hin hk (id_mem k)) hx
    · exact hidk.1 (hx ▸ hin hk (id_mem k))
  unfold insertBranch
  simp only [List.length_map]
  by_cases hfits : kids.length ≤ 32
  · obtain ⟨nodes, parents, hn, hps, reb⟩ := write_branch (ε := ε) (len + 1) hid hkids hne hfits hlen pool
    rw [if_pos hfits, hn, ok_bind, hps, ok_bind]
    exact .inl ⟨_, _, rfl, reb⟩
  · rw [if_neg hfits]
    rcases allocate pool with ⟨rightId, n, f, halloc⟩ | ⟨hmax, hrun⟩
    · have hnew := halloc.fresh
      rw [Multiset.cons_add, Multiset.mem_cons, Multiset.mem_add, not_or, not_or] at hnew
      obtain ⟨hne', hnewk, hnewr⟩ := hnew
      obtain ⟨p, hp⟩ := hparent
      have hsplit : kids = kids.take 16 ++ kids.drop 16 := (List.take_append_drop 16 kids).symm
      have hleft : (kids.take 16).length = 16 := by
        rw [List.length_take]
        omega
      have hright : (kids.drop 16).length = 17 := by
        rw [List.length_drop]
        omega
      rw [← List.map_take, ← List.map_drop]
      generalize kids.take 16 = left at *
      generalize kids.drop 16 = right at *
      subst hsplit
      have hkl : ∀ k ∈ left, k.slots ≠ [] ∧ Stored o k := fun k hk => hkids k (by simp [hk])
      have hkr : ∀ k ∈ right, k.slots ≠ [] ∧ Stored o k := fun k hk => hkids k (by simp [hk])
      have hids : (left.map RankTree.id ++ right.map RankTree.id).Nodup := by
        rw [← List.map_append]
        exact ids_distinct hkd
      have hids := List.nodup_append.mp hids
      have pos {ks : List (RankTree h)} (sub : ∀ k ∈ ks, k ∈ left ++ right) :
          ∀ c ∈ ks.map RankTree.id, 0 < c := by
        intro c hc
        obtain ⟨k, hk, rfl⟩ := List.mem_map.mp hc
        exact hpos k (sub k hk)
      obtain ⟨nodes, hn, look⟩ := set_ok (ε := ε) o.nodes
        (RowsOrderNode.branch (left.map RankTree.id) (before left)) hid
      obtain ⟨nodes', hn', look'⟩ := set_ok (ε := ε) nodes
        (RowsOrderNode.branch (right.map RankTree.id) (before right)) halloc.pos
      obtain ⟨parents, hps, lookp⟩ := set_ok (ε := ε) o.parents p halloc.pos
      obtain ⟨parentsl, hpl, hchildl, hotherl⟩ := set_child_parents (ε := ε) id hids.1
        (pos fun k hk => List.mem_append_left _ hk)
        ⟨o.root, nodes', parents, o.slotLeaf, n, f⟩
      obtain ⟨parentsr, hpr, hchildr, hotherr⟩ := set_child_parents (ε := ε) rightId
        hids.2.1 (pos fun k hk => List.mem_append_right _ hk)
        ⟨o.root, nodes', parentsl, o.slotLeaf, n, f⟩
      rw [halloc.run]
      simp only [ok_bind, children_len fun k hk => (hkl k hk).2,
        children_len fun k hk => (hkr k hk).2, hn, hn', get_parent_ok hid hp, or_crash_some, hps,
        hpl, hpr]
      generalize ho' : RowsOrder.mk o.root nodes' parentsr o.slotLeaf n f = o'
      have hnode' (x : ℕ) : node o' x =
          if x = rightId then some (.branch (right.map RankTree.id) (before right))
          else if x = id then some (.branch (left.map RankTree.id) (before left)) else node o x := by
        rw [← ho']
        exact (look' x).trans (by rw [look]; rfl)
      have hparent' {x : ℕ} (hx : ∀ k ∈ left ++ right, x ≠ k.id) :
          parentOf o' x = if x = rightId then some p else parentOf o x := by
        rw [← ho']
        refine (hotherr x fun hm => ?_).trans ((hotherl x fun hm => ?_).trans (lookp x))
        · obtain ⟨k, hk, rfl⟩ := List.mem_map.mp hm
          exact hx k (List.mem_append_right _ hk) rfl
        · obtain ⟨k, hk, rfl⟩ := List.mem_map.mp hm
          exact hx k (List.mem_append_left _ hk) rfl
      have hleaf' (s : ℕ) : leafOf o' s = leafOf o s := by rw [← ho']; rfl
      have kept {k : RankTree h} (hk : k ∈ left ++ right) {x : ℕ} (hx : x ∈ k.below) :
          parentOf o' x = parentOf o x := by
        rw [hparent' fun k' hk' => below_apart hkd hk hk' hx, if_neg]
        rintro rfl
        exact hnewk (hin hk (Multiset.mem_cons_of_mem hx))
      have same {k : RankTree h} (hk : k ∈ left ++ right) {x : ℕ} (hx : x ∈ k.ids) :
          node o' x = node o x := by
        rw [hnode', if_neg (by rintro rfl; exact hnewk (hin hk hx)),
          if_neg (by rintro rfl; exact hidk.1 (hin hk hx))]
      refine .inl ⟨o', [branch id left, branch rightId right], rfl, ?_⟩
      constructor
      case placed => exact .inr ⟨_, _, rfl, rfl⟩
      case stored =>
        simp only [List.mem_cons, List.not_mem_nil, or_false, forall_eq_or_imp, forall_eq]
        constructor
        · refine branch_over hid hkl (List.ne_nil_of_length_pos (by omega)) (by omega) ?_ ?_
            (fun k hk x hx => same (List.mem_append_left _ hk) hx)
            (fun k hk x hx => kept (List.mem_append_left _ hk) hx) hleaf'
          · rw [hnode', if_neg (Ne.symm hne'), if_pos rfl]
            rfl
          · intro i c hc
            rw [← ho']
            have hcl := List.mem_of_getElem? hc
            exact (hotherr c fun hm => hids.2.2 c hcl c hm rfl).trans (hchildl i c hc)
        · refine branch_over halloc.pos hkr (List.ne_nil_of_length_pos (by omega)) (by omega) ?_ ?_
            (fun k hk x hx => same (List.mem_append_right _ hk) hx)
            (fun k hk x hx => kept (List.mem_append_right _ hk) hx) hleaf'
          · rw [hnode', if_pos rfl]
            rfl
          · intro i c hc
            rw [← ho']
            exact hchildr i c hc
      case slots => simp
      case pooled =>
        refine ⟨?_, fun x hx => ?_⟩
        · rw [← ho']
          refine Eq.trans ?_ halloc.handed
          simp only [RankTree.ids, List.map_cons, id_branch, below_branch, List.map_nil, List.sum_cons,
            List.sum_nil, List.map_append, List.sum_append, ← Multiset.singleton_add]
          abel
        · have hx' : x ≠ id ∧ x ≠ rightId ∧ x ∉ ((left ++ right).map ids).sum ∧ x ∉ rest := by
            simp only [RankTree.ids, List.map_cons, id_branch, below_branch, List.map_nil,
              List.sum_cons, List.sum_nil, Multiset.mem_add, Multiset.mem_cons,
              Multiset.notMem_zero, or_false, not_or] at hx
            refine ⟨hx.1.1.1, hx.1.2.1, ?_, hx.2⟩
            rw [List.map_append, List.sum_append, Multiset.mem_add, not_or]
            exact ⟨hx.1.1.2, hx.1.2.2⟩
          rw [hnode', hparent' fun k hk heq => hx'.2.2.1 (by rw [heq]; exact hin hk (id_mem k)),
            if_neg hx'.2.1, if_neg hx'.1, if_neg hx'.2.1]
          refine pool.blank x ?_
          rw [Multiset.cons_add, Multiset.mem_cons, Multiset.mem_add, not_or, not_or]
          exact ⟨hx'.1, hx'.2.2⟩
      case nodes =>
        intro x hx
        rw [hnode', if_neg (by rintro rfl; exact hnewr hx),
          if_neg (by rintro rfl; exact hidk.2 hx)]
      case parents =>
        intro x hx
        rw [hparent' fun k hk => hkid hx hk, if_neg]
        rintro rfl
        exact hx.elim hnewr hne'
      case leaves => exact hleaf'
      case root => rw [← ho']
      case credit =>
        have := halloc.grown
        simp only [← ho', List.map_cons, List.map_nil, List.sum_cons, List.sum_nil, excess_branch,
          List.length_cons, List.length_nil, List.length_append, List.map_append,
          List.sum_append]
        omega
    · rw [hrun]
      refine .inr ⟨rfl, ?_⟩
      omega

end Branch

section Node

variable {o : RowsOrder} {t : RankTree h} {index slot : ℕ} {rest : Multiset ℕ}

theorem insert_middle {front mid back : List ℕ} (hfront : front.length ≤ index)
    (hmid : index - front.length ≤ mid.length) :
    (front ++ (mid ++ back)).take index ++ slot :: (front ++ (mid ++ back)).drop index =
      front ++ ((mid.take (index - front.length) ++ slot :: mid.drop (index - front.length)) ++
        back) := by
  rw [List.take_append, List.drop_append, List.take_of_length_le hfront,
    List.drop_eq_nil_of_le hfront, List.take_append_of_le_length hmid,
    List.drop_append_of_le_length hmid]
  simp

theorem insert_node {fuel : ℕ} (ht : Stored o t) (hfuel : h < fuel) (distinct : t.slots.Nodup)
    (hslot : 0 < slot) (fresh : slot ∉ t.slots) (bound : index ≤ t.slots.length)
    (hparent : ∃ p, parentOf o t.id = some p) (pool : Pooled o (t.ids + rest)) :
    (∃ o' ts, (insertNode fuel o t.id index slot : Except (Failure ε) _) =
        .ok ⟨o', ts.map RankTree.id⟩ ∧ Inserted o t index slot rest o' ts) ∨
      (insertNode fuel o t.id index slot : Except (Failure ε) _) = .error exhausted ∧
        7 * maxId ≤ 7 * o.nextNode + t.excess + 1 := by
  obtain ⟨fuel, rfl⟩ : ∃ n, fuel = n + 1 := ⟨fuel - 1, by omega⟩
  induction h generalizing fuel index rest with
  | zero =>
    obtain ⟨id, ss, rfl⟩ := eq_leaf t
    rw [insertNode, get_stored ht, ok_bind]
    exact insert_leaf ht hslot fresh distinct hparent pool
  | succ h ih =>
    obtain ⟨id, kids, rfl⟩ := eq_branch t
    obtain ⟨hid, -, hne, hlen, hparents, hkids⟩ := stored_branch.mp ht
    rw [insertNode, get_stored ht, ok_bind]
    obtain ⟨front, k, back, rfl, hfront, hk, hseek⟩ := seek_child (ε := ε)
      "Rows order branch child node was missing" true 0 index (fun k hk => (hkids k hk).2) (by
        rw [slots_branch] at bound
        exact (Nat.lt_or_eq_of_le bound).imp_right fun h => ⟨rfl, h, hne⟩)
    simp only [entry_branch, hseek, ok_bind, Nat.zero_add, Option.getD_some, chosen_child,
      or_crash_some]
    have hslots : (branch id (front ++ k :: back)).slots =
        front.flatMap slots ++ (k.slots ++ back.flatMap slots) := by simp
    rw [hslots] at distinct fresh
    have hkd : k.slots.Nodup := (List.nodup_append.mp (List.nodup_append.mp distinct).2.1).1
    simp only [List.mem_append, not_or] at fresh
    have hle : index - before front ≤ k.slots.length := by omega
    have hlive := branch_live id front back k rest
    have hkid := (hkids k (by simp)).2
    obtain ⟨fuel, rfl⟩ : ∃ n, fuel = n + 1 := ⟨fuel - 1, by omega⟩
    rcases ih hkid hkd fresh.2.1 hle ⟨_, hparents front.length k (by simp)⟩ (hlive ▸ pool) fuel
      (by omega) with ⟨o₁, ts, hrun, ins⟩ | ⟨hrun, hcredit⟩
    swap
    · rw [hrun]
      refine .inr ⟨rfl, ?_⟩
      simp only [excess_branch, List.map_append, List.sum_append, List.map_cons, List.sum_cons]
      omega
    have hcount : ts.length = 1 ∨ ts.length = 2 := by
      rcases ins.placed with ⟨u, rfl, -⟩ | ⟨u, v, rfl, -⟩
      · exact .inl rfl
      · exact .inr rfl
    -- The other children are where they were.
    have beside {k' : RankTree h} (hk' : k' ∈ front ∨ k' ∈ back) : k'.slots ≠ [] ∧ Stored o₁ k' := by
      refine beside_stored hkids ins.nodes (fun x hx => ins.parents x (.inl hx)) hk' fun s hs => ?_
      refine ins.leaves s ?_ ?_
      · rintro rfl
        rcases hk' with hk' | hk'
        · exact fresh.1 (List.mem_flatMap.mpr ⟨k', hk', hs⟩)
        · exact fresh.2.2 (List.mem_flatMap.mpr ⟨k', hk', hs⟩)
      · exact beside_slots distinct hk' hs
    have hkids₁ : ∀ k ∈ front ++ ts ++ back, k.slots ≠ [] ∧ Stored o₁ k := by
      intro k hk
      rw [List.mem_append, List.mem_append] at hk
      rcases hk with (hk | hk) | hk
      · exact beside (.inl hk)
      · exact ins.stored k hk
      · exact beside (.inr hk)
    have hlive₁ : (ts.map ids).sum + (id ::ₘ (front.map ids).sum + (back.map ids).sum + rest) =
        id ::ₘ ((front ++ ts ++ back).map ids).sum + rest := by
      simp only [List.map_append, List.sum_append, ← Multiset.singleton_add]
      abel
    have hslots₁ : (front ++ ts ++ back).flatMap slots =
        (branch id (front ++ k :: back)).slots.take index ++
          slot :: (branch id (front ++ k :: back)).slots.drop index := by
      rw [hslots, insert_middle hfront hle, List.flatMap_append, List.flatMap_append, ins.slots,
        List.append_assoc]
      rfl
    have hparent₁ : parentOf o₁ id = parentOf o id := ins.parents id (.inl (by simp))
    rw [hrun, ok_bind]
    simp only [id_branch, take_children, drop_children, ← List.map_append]
    rcases insert_branch (ε := ε) (List.flatMap slots (front ++ k :: back)).length
      hid hkids₁ (by
        rintro heq
        have := congrArg List.length heq
        simp only [List.length_append, List.length_nil] at this
        omega) (by
        simp only [List.length_append, List.length_cons] at hlen ⊢
        omega) (by
        rw [hslots₁, slots_branch]
        simp only [List.length_append, List.length_cons, List.length_take, List.length_drop]
        omega) (hparent₁ ▸ hparent) (hlive₁ ▸ ins.pooled) with ⟨o', us, hrun', reb⟩ | ⟨hrun', hcredit⟩
    · refine .inl ⟨o', us, hrun', ?_⟩
      constructor
      case placed => exact reb.placed
      case stored => exact reb.stored
      case slots => rw [reb.slots, hslots₁]
      case pooled => exact reb.pooled
      case nodes => exact fun x hx => (reb.nodes x hx).trans (ins.nodes x (by simp [hx]))
      case parents =>
        intro x hx
        refine (reb.parents x hx).trans (ins.parents x (.inl ?_))
        rcases hx with hx | rfl
        · simp [hx]
        · simp
      case leaves =>
        intro s hs hss
        rw [hslots] at hss
        simp only [List.mem_append, not_or] at hss
        exact (reb.leaves s).trans (ins.leaves s hs hss.2.1)
      case root => rw [reb.root, ins.root]
      case credit =>
        have := reb.credit
        have := ins.credit
        simp only [excess_branch, List.map_append, List.sum_append, List.map_cons, List.sum_cons,
          List.length_append, List.length_cons] at *
        omega
    · rw [hrun']
      refine .inr ⟨rfl, ?_⟩
      have := ins.credit
      simp only [excess_branch, List.map_append, List.sum_append, List.map_cons, List.sum_cons,
        List.length_append, List.length_cons] at *
      omega

end Node

structure InsertedAt (o : RowsOrder) (t : RankTree h) (index slot : ℕ) (o' : RowsOrder) {h' : ℕ}
    (t' : RankTree h') : Prop where
  ordered : Ordered o' t'
  slots : t'.slots = t.slots.take index ++ slot :: t.slots.drop index
  credit : 7 * o'.nextNode + t'.excess ≤ 7 * o.nextNode + t.excess + 1

theorem insert_ok {o : RowsOrder} {t : RankTree h} {index slot : ℕ} (ord : Ordered o t)
    (hslot : 0 < slot) (fresh : slot ∉ t.slots) (bound : index ≤ t.slots.length) :
    (∃ o' h', ∃ t' : RankTree h', (orderInsert o index slot : Except (Failure ε) _) = .ok o' ∧
      InsertedAt o t index slot o' t') ∨
    (orderInsert o index slot : Except (Failure ε) _) = .error exhausted ∧
      7 * maxId ≤ 7 * o.nextNode + t.excess + 1 := by
  have hroot := ord.root
  rw [orderInsert, order_len ord, ok_bind, if_neg (by omega), ← hroot]
  have hpool : Pooled o (t.ids + 0) := by simpa using ord.pooled
  rcases insert_node (ε := ε) ord.stored (fuel_enough ord) ord.distinct hslot fresh bound
    ⟨_, hroot ▸ ord.top⟩ hpool with ⟨o₁, ts, hrun, ins⟩ | ⟨hrun, hcredit⟩
  swap
  · rw [hrun]
    exact .inr ⟨rfl, hcredit⟩
  rw [hrun, ok_bind]
  have hpool₁ := ins.pooled
  rw [add_zero] at hpool₁
  have hcredit := ins.credit
  have hslots := ins.slots
  have absent {s : ℕ} (hs : s ∉ t.slots.take index ++ slot :: t.slots.drop index) :
      leafOf o₁ s = none := by
    rw [List.mem_append, List.mem_cons, not_or, not_or] at hs
    have hst : s ∉ t.slots := by
      rw [← List.take_append_drop index t.slots, List.mem_append, not_or]
      exact ⟨hs.1, hs.2.2⟩
    rw [ins.leaves s hs.2.1 hst, ord.leaves s hst]
  have hnodup : (t.slots.take index ++ slot :: t.slots.drop index).Nodup := by
    rw [List.nodup_middle, List.nodup_cons, List.take_append_drop]
    exact ⟨fresh, ord.distinct⟩
  rcases ins.placed with ⟨u, rfl, hu⟩ | ⟨u, v, rfl, hu⟩
  · simp only [List.map_singleton, List.flatMap_singleton, List.sum_singleton] at hpool₁ hslots hcredit
    refine .inl ⟨o₁, h, u, rfl, ?_, hslots, by simpa using hcredit⟩
    constructor
    case root => rw [hu, ins.root, hroot]
    case stored => exact (ins.stored u (by simp)).2
    case top => rw [ins.root, ← hroot, ins.parents t.id (.inr rfl), hroot, ord.top]
    case distinct => exact hslots ▸ hnodup
    case pooled => exact hpool₁
    case leaves => exact fun s hs => absent (hslots ▸ hs)
  · rw [if_neg (by simp)]
    rcases allocate hpool₁ with ⟨rootId, n, f, halloc⟩ | ⟨hmax, hrun'⟩
    · have hstored := ins.stored
      generalize hkids : [u, v] = kids at *
      have hne : kids ≠ [] := by simp [← hkids]
      have hlen : kids.length = 2 := by simp [← hkids]
      have hkd := live_distinct hpool₁
      have hin {k : RankTree h} (hk : k ∈ kids) {x : ℕ} (hx : x ∈ k.ids) : x ≠ rootId := by
        rintro rfl
        exact halloc.fresh (mem_sum.mpr ⟨k, hk, hx⟩)
      obtain ⟨nodes, hn, look⟩ := set_ok (ε := ε) o₁.nodes
        (RowsOrderNode.branch (kids.map RankTree.id) (before kids)) halloc.pos
      obtain ⟨parents, hps, lookp⟩ := set_ok (ε := ε) o₁.parents
        RowsOrderParent.root halloc.pos
      obtain ⟨parents', hps', hchild, hother⟩ := set_child_parents (ε := ε) rootId
        (ids_distinct hkd) (fun c hc => by
          obtain ⟨k, hk, rfl⟩ := List.mem_map.mp hc
          exact (stored_node (hstored k hk).2).1) ⟨rootId, nodes, parents, o₁.slotLeaf, n, f⟩
      rw [halloc.run]
      simp only [ok_bind, children_len fun k hk => (hstored k hk).2, hn, hps, hps']
      generalize ho' : RowsOrder.mk rootId nodes parents' o₁.slotLeaf n f = o'
      have hnode' (x : ℕ) : node o' x =
          if x = rootId then some (.branch (kids.map RankTree.id) (before kids)) else node o₁ x := by
        rw [← ho']
        exact look x
      have hparent' {x : ℕ} (hx : ∀ k ∈ kids, x ≠ k.id) :
          parentOf o' x = if x = rootId then some .root else parentOf o₁ x := by
        rw [← ho']
        refine (hother x fun hm => ?_).trans (lookp x)
        obtain ⟨k, hk, rfl⟩ := List.mem_map.mp hm
        exact hx k hk rfl
      refine .inl ⟨o', h + 1, branch rootId kids, rfl, ?_, hslots, ?_⟩
      · constructor
        case root => rw [← ho']; rfl
        case stored =>
          refine (branch_over halloc.pos hstored hne (by omega) ?_ ?_ ?_ ?_ ?_).2
          · rw [hnode', if_pos rfl]
            rfl
          · rw [← ho']
            exact hchild
          · exact fun k hk x hx => by rw [hnode', if_neg (hin hk hx)]
          · intro k hk x hx
            rw [hparent' fun k' hk' => below_apart hkd hk hk' hx,
              if_neg (hin hk (Multiset.mem_cons_of_mem hx))]
          · exact fun s => by rw [← ho']; rfl
        case top =>
          have hroot' : o'.root = rootId := by rw [← ho']
          rw [hroot', hparent' fun k hk => (hin hk (id_mem k)).symm, if_pos rfl]
        case distinct =>
          rw [slots_branch, hslots]
          exact hnodup
        case pooled =>
          refine ⟨?_, fun x hx => ?_⟩
          · rw [← ho']
            exact halloc.handed
          · rw [RankTree.ids, id_branch, below_branch, Multiset.mem_cons, not_or] at hx
            have hxk : ∀ k ∈ kids, x ≠ k.id := by
              rintro k hk rfl
              exact hx.2 (mem_sum.mpr ⟨k, hk, id_mem k⟩)
            rw [hnode', hparent' hxk, if_neg hx.1, if_neg hx.1]
            exact hpool₁.blank x hx.2
        case leaves =>
          intro s hs
          rw [slots_branch, hslots] at hs
          rw [← absent hs, ← ho']
          rfl
      · have := halloc.grown
        simp only [← ho', excess_branch]
        omega
    · rw [hrun']
      refine .inr ⟨rfl, ?_⟩
      simp only [List.length_cons, List.length_nil] at hcredit
      omega

end OrderInsertions
