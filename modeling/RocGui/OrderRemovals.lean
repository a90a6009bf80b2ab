import RocGui.OrderInsertions

/-! Removing a slot: emptied nodes leave the tree, and a root with one child gives way. -/
namespace OrderRemovals

open FiniteMaps Methods OrderTables OrderTrees OrderShapes OrderInsertions RankTree

variable {ε : Type} {h : ℕ}

/-- What a removal leaves where a tree was: nothing if the slot was its last. -/
structure Removed (o : RowsOrder) (t : RankTree h) (index slot : ℕ) (rest : Multiset ℕ)
    (o' : RowsOrder) (ts : List (RankTree h)) : Prop where
  placed : ts = [] ∨ ∃ u, ts = [u] ∧ u.id = t.id
  stored : ∀ u ∈ ts, u.slots ≠ [] ∧ Stored o' u
  slots : ts.flatMap slots = t.slots.take index ++ t.slots.drop (index + 1)
  pooled : Pooled o' ((ts.map ids).sum + rest)
  nodes : ∀ x ∈ rest, node o' x = node o x
  parents : ∀ x, x ∈ rest ∨ x = t.id ∧ ts ≠ [] → parentOf o' x = parentOf o x
  leaves : ∀ s, s ∉ t.slots → leafOf o' s = leafOf o s
  gone : leafOf o' slot = none
  root : o'.root = o.root
  credit : 7 * o'.nextNode + (ts.map excess).sum ≤ 7 * o.nextNode + t.excess

section Node

variable {o : RowsOrder} {t : RankTree h} {index slot id : ℕ} {rest : Multiset ℕ}

theorem drop_node {n : RowsOrderNode} (hid : 0 < id) (pool : Pooled o (id ::ₘ rest)) :
    ∃ nodes parents, (keepUnless true o id n : Except (Failure ε) _) =
      .ok ({ o with nodes, parents, freeNodes := id :: o.freeNodes }, []) ∧
      (∀ x, lookup nodes x = if x = id then none else node o x) ∧
      (∀ x, lookup parents x = if x = id then none else parentOf o x) ∧
      Pooled { o with nodes, parents, freeNodes := id :: o.freeNodes } rest := by
  obtain ⟨nodes, hn, look⟩ := remove_ok (ε := ε) o.nodes hid
  obtain ⟨parents, hp, lookp⟩ := remove_ok (ε := ε) o.parents hid
  refine ⟨nodes, parents, ?_, look, lookp, ?_, fun x hx => ?_⟩
  · rw [keepUnless, if_pos rfl, hn, ok_bind, hp]
    rfl
  · rw [← pool.handed, ← Multiset.cons_coe, Multiset.cons_add, Multiset.add_cons]
  · by_cases heq : x = id
    · exact ⟨(look x).trans (if_pos heq), (lookp x).trans (if_pos heq)⟩
    · have := pool.blank x (by simp [heq, hx])
      exact ⟨(look x).trans ((if_neg heq).trans this.1), (lookp x).trans ((if_neg heq).trans this.2)⟩

theorem remove_leaf {ss : List ℕ} {fuel : ℕ} (ht : Stored o (leaf id ss)) (distinct : ss.Nodup)
    (bound : ss[index]? = some slot) (pool : Pooled o ((leaf id ss).ids + rest)) :
    ∃ o' ts, (removeNode (fuel + 1) o id index : Except (Failure ε) _) =
      .ok ⟨o', slot, ts.map RankTree.id⟩ ∧ Removed o (leaf id ss) index slot rest o' ts := by
  obtain ⟨hid, hnode, hlen, hss⟩ := stored_leaf.mp ht
  have hlive : (leaf id ss).ids + rest = id ::ₘ rest := by
    rw [show (leaf id ss).ids = {id} from rfl, Multiset.singleton_add]
  rw [hlive] at pool
  have hrest : ∀ x ∈ rest, x ≠ id := fun x hx heq =>
    (Multiset.nodup_cons.mp (live_distinct pool)).1 (heq ▸ hx)
  obtain ⟨hlt, hslot⟩ := List.getElem?_eq_some_iff.mp bound
  have hcut : ss = ss.take index ++ slot :: ss.drop (index + 1) := by
    rw [← hslot, List.cons_getElem_drop_succ, List.take_append_drop]
  have hfresh : slot ∉ ss.take index ++ ss.drop (index + 1) := by
    rw [hcut] at distinct
    exact (List.nodup_cons.mp (List.nodup_middle.mp distinct)).1
  have hmem {s : ℕ} (hs : s ∈ ss.take index ++ ss.drop (index + 1)) : s ∈ ss := by
    rw [hcut, List.mem_append, List.mem_cons]
    rcases List.mem_append.mp hs with hs | hs
    · exact .inl hs
    · exact .inr (.inr hs)
  have hlength : (ss.take index ++ ss.drop (index + 1)).length = ss.length - 1 := by
    rw [List.length_append, List.length_take, List.length_drop]
    omega
  obtain ⟨leaves, hl, looks⟩ := remove_ok (ε := ε) o.slotLeaf
    (hss slot (List.mem_of_getElem? bound)).1
  rw [removeNode, get_node_ok hid hnode]
  simp only [ok_bind, bound, or_crash_some]
  generalize hrem : ss.take index ++ ss.drop (index + 1) = remaining at *
  cases remaining with
  | nil =>
    obtain ⟨nodes, parents, hk, look, lookp, hpool⟩ :=
      drop_node (ε := ε) (n := .leaf [] (ss.length - 1)) hid pool
    rw [List.isEmpty_nil, hk]
    simp only [ok_bind, hl]
    refine ⟨_, [], rfl, ?_⟩
    constructor
    case placed => exact .inl rfl
    case stored => exact fun u hu => nomatch hu
    case slots => exact hrem.symm
    case pooled =>
      rw [List.map_nil, List.sum_nil, zero_add]
      exact ⟨hpool.handed, hpool.blank⟩
    case nodes => exact fun x hx => (look x).trans (if_neg (hrest x hx))
    case parents => exact fun x hx => (lookp x).trans (if_neg (hrest x (by simpa using hx)))
    case leaves =>
      exact fun s hs => (looks s).trans (if_neg (by
        rintro rfl
        exact hs (List.mem_of_getElem? bound)))
    case gone => exact (looks slot).trans (if_pos rfl)
    case root => rfl
    case credit => simp
  | cons s ss' =>
    obtain ⟨nodes, hn, look⟩ := set_ok (ε := ε) o.nodes
      (RowsOrderNode.leaf (s :: ss') (ss.length - 1)) hid
    simp only [List.isEmpty_cons, keepUnless, Bool.false_eq_true, if_false, hn, ok_bind,
      pure_eq_ok, hl]
    refine ⟨_, [leaf id (s :: ss')], rfl, ?_⟩
    have hnode' (x : ℕ) : node { o with nodes, slotLeaf := leaves } x =
        if x = id then some (.leaf (s :: ss') (ss.length - 1)) else node o x := look x
    constructor
    case placed => exact .inr ⟨_, rfl, rfl⟩
    case stored =>
      simp only [List.mem_singleton, forall_eq, slots_leaf]
      refine ⟨List.cons_ne_nil _ _, stored_leaf.mpr ⟨hid, ?_, by omega, fun x hx => ?_⟩⟩
      · rw [hnode', if_pos rfl, hlength]
      · refine ⟨(hss x (hmem hx)).1, ?_⟩
        refine (looks x).trans ((if_neg ?_).trans (hss x (hmem hx)).2)
        rintro rfl
        exact hfresh hx
    case slots => simp [hrem]
    case pooled =>
      refine ⟨?_, fun x hx => ?_⟩
      · simpa [RankTree.ids] using pool.handed
      · have hx' : x ∉ id ::ₘ rest := by simpa [RankTree.ids] using hx
        rw [hnode', if_neg (by rintro rfl; exact hx' (by simp))]
        exact pool.blank x hx'
    case nodes => exact fun x hx => by rw [hnode', if_neg (hrest x hx)]
    case parents => exact fun x _ => rfl
    case leaves =>
      exact fun s hs => (looks s).trans (if_neg (by
        rintro rfl
        exact hs (List.mem_of_getElem? bound)))
    case gone => exact (looks slot).trans (if_pos rfl)
    case root => rfl
    case credit =>
      simp only [List.map_singleton, List.sum_singleton, excess_leaf]
      omega

theorem remove_middle {front mid back : List ℕ} (hfront : front.length ≤ index)
    (hmid : index - front.length < mid.length) :
    (front ++ (mid ++ back)).take index ++ (front ++ (mid ++ back)).drop (index + 1) =
      front ++ ((mid.take (index - front.length) ++ mid.drop (index - front.length + 1)) ++
        back) := by
  rw [List.take_append, List.drop_append, List.take_of_length_le hfront,
    List.drop_eq_nil_of_le (by omega), List.take_append_of_le_length (by omega),
    show index + 1 - front.length = index - front.length + 1 by omega,
    List.drop_append_of_le_length (by omega)]
  simp

theorem remove_node {fuel : ℕ} (ht : Stored o t) (hfuel : h < fuel) (distinct : t.slots.Nodup)
    (bound : t.slots[index]? = some slot) (pool : Pooled o (t.ids + rest)) :
    ∃ o' ts, (removeNode fuel o t.id index : Except (Failure ε) _) =
      .ok ⟨o', slot, ts.map RankTree.id⟩ ∧ Removed o t index slot rest o' ts := by
  obtain ⟨fuel, rfl⟩ : ∃ n, fuel = n + 1 := ⟨fuel - 1, by omega⟩
  induction h generalizing fuel index rest with
  | zero =>
    obtain ⟨id, ss, rfl⟩ := eq_leaf t
    exact remove_leaf ht distinct bound pool
  | succ h ih =>
    obtain ⟨id, kids, rfl⟩ := eq_branch t
    obtain ⟨hid, -, hne, hlen, hparents, hkids⟩ := stored_branch.mp ht
    have hlt : index < (branch id kids).slots.length := (List.getElem?_eq_some_iff.mp bound).1
    rw [removeNode, get_stored ht, ok_bind]
    obtain ⟨front, k, back, rfl, hfront, hk, hseek⟩ := seek_child (ε := ε)
      "Rows order removal child node was missing" false 0 index (fun k hk => (hkids k hk).2) (.inl hlt)
    simp only [Bool.false_eq_true, false_and, or_false] at hk
    simp only [entry_branch, hseek, ok_bind, Nat.zero_add, Option.getD_some, chosen_child,
      or_crash_some]
    have hslots : (branch id (front ++ k :: back)).slots =
        front.flatMap slots ++ (k.slots ++ back.flatMap slots) := by simp
    rw [hslots] at distinct bound
    have hkd : k.slots.Nodup := (List.nodup_append.mp (List.nodup_append.mp distinct).2.1).1
    have hat : k.slots[index - before front]? = some slot := by
      rw [before] at hk ⊢
      rwa [List.getElem?_append_right hfront, List.getElem?_append_left hk] at bound
    have hlive := branch_live id front back k rest
    obtain ⟨fuel, rfl⟩ : ∃ n, fuel = n + 1 := ⟨fuel - 1, by omega⟩
    obtain ⟨o₁, ts, hrun, rem⟩ :=
      ih (hkids k (by simp)).2 hkd hat (hlive ▸ pool) fuel (by omega)
    have hcount : ts.length ≤ 1 := by
      rcases rem.placed with rfl | ⟨u, rfl, -⟩
      · exact Nat.zero_le _
      · exact le_rfl
    have beside {k' : RankTree h} (hk' : k' ∈ front ∨ k' ∈ back) : k'.slots ≠ [] ∧ Stored o₁ k' :=
      beside_stored hkids rem.nodes (fun x hx => rem.parents x (.inl hx)) hk' fun s hs =>
        rem.leaves s (beside_slots distinct hk' hs)
    have hkids₁ : ∀ k ∈ front ++ ts ++ back, k.slots ≠ [] ∧ Stored o₁ k := by
      intro k hk
      rw [List.mem_append, List.mem_append] at hk
      rcases hk with (hk | hk) | hk
      · exact beside (.inl hk)
      · exact rem.stored k hk
      · exact beside (.inr hk)
    have hlive₁ : (ts.map ids).sum + (id ::ₘ (front.map ids).sum + (back.map ids).sum + rest) =
        id ::ₘ ((front ++ ts ++ back).map ids).sum + rest := by
      simp only [List.map_append, List.sum_append, ← Multiset.singleton_add]
      abel
    have hslots₁ : (front ++ ts ++ back).flatMap slots =
        (branch id (front ++ k :: back)).slots.take index ++
          (branch id (front ++ k :: back)).slots.drop (index + 1) := by
      rw [hslots, remove_middle hfront hk, List.flatMap_append, List.flatMap_append, rem.slots,
        List.append_assoc]
      rfl
    have hleaves {s : ℕ} (hs : s ∉ (branch id (front ++ k :: back)).slots) :
        leafOf o₁ s = leafOf o s := by
      rw [hslots] at hs
      simp only [List.mem_append, not_or] at hs
      exact rem.leaves s hs.2.1
    have hpool := rem.pooled
    rw [hlive₁] at hpool
    have hcredit := rem.credit
    rw [hrun, ok_bind]
    simp only [id_branch, take_children, drop_children, ← List.map_append]
    cases hks : front ++ ts ++ back with
    | nil =>
      rw [hks, List.map_nil, List.sum_nil, Multiset.cons_add, zero_add] at hpool
      obtain ⟨nodes, parents, hkeep, look, lookp, hpool'⟩ := drop_node (ε := ε)
        (n := .branch [] ((front ++ k :: back).flatMap slots).length.pred) hid hpool
      have hid' : id ∉ rest := (Multiset.nodup_cons.mp (live_distinct hpool)).1
      rw [List.map_nil, List.isEmpty_nil]
      simp only [Nat.pred_eq_sub_one] at hkeep
      rw [hkeep]
      refine ⟨_, [], rfl, ?_⟩
      constructor
      case placed => exact .inl rfl
      case stored => exact fun u hu => absurd hu List.not_mem_nil
      case slots =>
        rw [← hslots₁, hks]
        rfl
      case pooled =>
        rw [List.map_nil, List.sum_nil, zero_add]
        exact ⟨hpool'.handed, hpool'.blank⟩
      case nodes =>
        intro x hx
        refine (look x).trans ((if_neg ?_).trans (rem.nodes x (by simp [hx])))
        rintro rfl
        exact hid' hx
      case parents =>
        intro x hkept
        have hx : x ∈ rest := by simpa using hkept
        clear hkept
        refine (lookp x).trans ((if_neg ?_).trans (rem.parents x (.inl (by simp [hx]))))
        rintro rfl
        exact hid' hx
      case leaves => exact fun s hs => hleaves hs
      case gone => exact rem.gone
      case root => exact rem.root
      case credit =>
        simp only [List.map_nil, List.sum_nil, excess_branch, List.map_append, List.sum_append,
          List.map_cons, List.sum_cons] at hcredit ⊢
        omega
    | cons c cs =>
      rw [← hks]
      have hsize : (front ++ ts ++ back).length ≤ (front ++ k :: back).length := by
        simp only [List.length_append, List.length_cons]
        omega
      obtain ⟨nodes, parents, hn, hps, reb⟩ := write_branch (ε := ε)
        (((front ++ k :: back).flatMap slots).length - 1) hid hkids₁ (by simp [hks])
        (by omega) (by
          rw [hslots₁, slots_branch, List.length_append, List.length_take, List.length_drop]
          rw [slots_branch] at hlt
          omega) hpool
      have hfull : ((front ++ ts ++ back).map RankTree.id).isEmpty = false := by simp [hks]
      rw [hfull, keepUnless]
      simp only [Bool.false_eq_true, if_false, hn, ok_bind, pure_eq_ok, hps]
      refine ⟨_, [branch id (front ++ ts ++ back)], rfl, ?_⟩
      constructor
      case placed => exact .inr ⟨_, rfl, rfl⟩
      case stored => exact reb.stored
      case slots => rw [reb.slots, hslots₁]
      case pooled => exact reb.pooled
      case nodes => exact fun x hx => (reb.nodes x hx).trans (rem.nodes x (by simp [hx]))
      case parents =>
        intro x hx
        refine (reb.parents x (hx.imp_right (·.1))).trans (rem.parents x (.inl ?_))
        rcases hx with hx | ⟨rfl, -⟩
        · simp [hx]
        · simp
      case leaves => exact fun s hs => (reb.leaves s).trans (hleaves hs)
      case gone => exact (reb.leaves slot).trans rem.gone
      case root => rw [reb.root, rem.root]
      case credit =>
        have := reb.credit
        simp only [excess_branch, List.map_append, List.sum_append, List.map_cons, List.sum_cons,
          List.length_append, List.length_cons, List.map_nil, List.sum_nil,
          List.length_nil] at *
        omega

end Node

structure RemovedAt (o : RowsOrder) (t : RankTree h) (index : ℕ) (o' : RowsOrder) {h' : ℕ}
    (t' : RankTree h') : Prop where
  ordered : Ordered o' t'
  slots : t'.slots = t.slots.take index ++ t.slots.drop (index + 1)
  credit : 7 * o'.nextNode + t'.excess ≤ 7 * o.nextNode + t.excess
  reset : t'.slots = [] → 7 * o'.nextNode + t'.excess = 14

section Whole

variable {o : RowsOrder} {t : RankTree h}

theorem rooted {nodes : RowsOrderTable RowsOrderNode} {parents : RowsOrderTable RowsOrderParent}
    {freeNodes : List ℕ} (ht : Stored o t) (distinct : t.slots.Nodup)
    (look : ∀ x ∈ t.ids, lookup nodes x = node o x)
    (top : lookup parents t.id = some .root)
    (lookp : ∀ x ∈ t.below, lookup parents x = parentOf o x)
    (pool : Pooled { o with root := t.id, nodes, parents, freeNodes } t.ids)
    (leaves : ∀ s ∉ t.slots, leafOf o s = none) :
    Ordered { o with root := t.id, nodes, parents, freeNodes } t where
  root := rfl
  stored := stored_frame ht look lookp fun _ _ => rfl
  top := top
  distinct := distinct
  pooled := pool
  leaves := leaves

theorem remove_order {index slot : ℕ} (ord : Ordered o t) (bound : t.slots[index]? = some slot) :
    ∃ o' h', ∃ t' : RankTree h', (orderRemove o index : Except (Failure ε) _) = .ok (o', slot) ∧
      RemovedAt o t index o' t' := by
  have hpool : Pooled o (t.ids + 0) := by simpa using ord.pooled
  obtain ⟨o₁, ts, hrun, rem⟩ :=
    remove_node (ε := ε) ord.stored (fuel_enough ord) ord.distinct bound hpool
  have hpool₁ := rem.pooled
  rw [add_zero] at hpool₁
  have hcredit := rem.credit
  have hnext : 2 ≤ o.nextNode := by
    have hcard := live_card ord.pooled
    rw [RankTree.ids, Multiset.card_cons] at hcard
    omega
  obtain ⟨hlt, hslot⟩ := List.getElem?_eq_some_iff.mp bound
  have hcut : t.slots = t.slots.take index ++ slot :: t.slots.drop (index + 1) := by
    rw [← hslot, List.cons_getElem_drop_succ, List.take_append_drop]
  have hdistinct : (t.slots.take index ++ t.slots.drop (index + 1)).Nodup := by
    have := ord.distinct
    rw [hcut] at this
    exact (List.nodup_cons.mp (List.nodup_middle.mp this)).2
  have absent {s : ℕ} (hs : s ∉ t.slots.take index ++ t.slots.drop (index + 1)) :
      leafOf o₁ s = none := by
    by_cases heq : s = slot
    · rw [heq, rem.gone]
    · have hst : s ∉ t.slots := by
        rw [hcut, List.mem_append, List.mem_cons]
        rw [List.mem_append] at hs
        tauto
      rw [rem.leaves s hst, ord.leaves s hst]
  rw [orderRemove, ← ord.root, hrun, ok_bind]
  rcases rem.placed with rfl | ⟨u, rfl, hu⟩
  · obtain ⟨o', hempty, ord', hnext'⟩ := order_empty
    refine ⟨o', 0, leaf 1 [], ?_, ord', rem.slots, ?_, fun _ => ?_⟩
    · simp only [List.map_nil, hempty, ok_bind, pure_eq_ok]
    · rw [hnext', excess_leaf, List.length_nil]
      omega
    · rw [hnext', excess_leaf, List.length_nil]
  · have hslots := rem.slots
    simp only [List.map_singleton, List.sum_singleton, List.flatMap_singleton] at hpool₁ hslots hcredit
    have hstored := (rem.stored u (by simp)).2
    have hfull : u.slots ≠ [] := (rem.stored u (by simp)).1
    rw [← hslots] at absent hdistinct
    simp only [List.map_singleton, get_stored hstored, ok_bind]
    -- The root stays, unless it is a branch with one child.
    have stay : ∃ parents, (tableSet o₁.parents u.id .root : Except (Failure ε) _) = .ok parents ∧
        RemovedAt o t index { o₁ with root := u.id, parents } u := by
      obtain ⟨parents, hp, lookp⟩ := set_ok (ε := ε) o₁.parents
        RowsOrderParent.root (stored_node hstored).1
      have other {x : ℕ} (hx : x ≠ u.id) : lookup parents x = parentOf o₁ x :=
        (lookp x).trans (if_neg hx)
      refine ⟨parents, hp, rooted hstored hdistinct (fun _ _ => rfl) ((lookp _).trans (if_pos rfl))
        (fun x hx => other ?_) ⟨hpool₁.handed, fun x hx => ⟨(hpool₁.blank x hx).1, ?_⟩⟩
        fun s hs => absent hs, hslots, hcredit, fun hnil => (hfull hnil).elim⟩
      · rintro rfl
        exact (Multiset.nodup_cons.mp (live_distinct hpool₁)).1 hx
      · refine (other ?_).trans (hpool₁.blank x hx).2
        rintro rfl
        exact hx (id_mem u)
    obtain ⟨parents, hp, hstay⟩ := stay
    cases h with
    | zero =>
      obtain ⟨id, ss, rfl⟩ := eq_leaf u
      refine ⟨_, 0, leaf id ss, ?_, hstay⟩
      simp only [entry_leaf, hp, ok_bind, pure_eq_ok]
    | succ h =>
      obtain ⟨id, kids, rfl⟩ := eq_branch u
      obtain ⟨hid, -, hne, -, -, hkids⟩ := stored_branch.mp hstored
      rcases kids with _ | ⟨k, _ | ⟨k', kids⟩⟩
      · exact absurd rfl hne
      · have hk := (hkids k (by simp)).2
        have hlive : (branch id [k]).ids = id ::ₘ k.ids := by
          simp [RankTree.ids]
        rw [hlive] at hpool₁
        have hid' : id ∉ k.ids := (Multiset.nodup_cons.mp (live_distinct hpool₁)).1
        have hkd : k.ids.Nodup := (Multiset.nodup_cons.mp (live_distinct hpool₁)).2
        have hkid : k.id ≠ id := by
          rintro rfl
          exact hid' (id_mem k)
        have hks : (branch id [k]).slots = k.slots := by simp
        rw [hks] at absent hdistinct hslots
        obtain ⟨nodes, hn, look⟩ := remove_ok (ε := ε) o₁.nodes hid
        obtain ⟨cleared, hc, lookc⟩ := remove_ok (ε := ε) o₁.parents hid
        obtain ⟨parents', hp', lookp⟩ := set_ok (ε := ε) cleared
          RowsOrderParent.root (stored_node hk).1
        have other {x : ℕ} (hx : x ≠ k.id) (hne : x ≠ id) : lookup parents' x = parentOf o₁ x :=
          (lookp x).trans ((if_neg hx).trans ((lookc x).trans (if_neg hne)))
        refine ⟨{ o₁ with root := k.id, nodes, parents := parents', freeNodes := id :: o₁.freeNodes },
          h, k, ?_, rooted hk hdistinct (fun x hx => ?_) ((lookp _).trans (if_pos rfl))
          (fun x hx => ?_) ⟨?_, fun x hx => ?_⟩ fun s hs => absent hs, hslots, ?_,
          fun hnil => (hfull (hks ▸ hnil)).elim⟩
        · simp only [entry_branch, List.map_cons, List.map_nil, if_neg hkid, hn, hc, hp', ok_bind,
            pure_eq_ok, id_branch]
        · refine (look x).trans (if_neg ?_)
          rintro rfl
          exact hid' hx
        · refine other ?_ ?_
          · rintro rfl
            exact (Multiset.nodup_cons.mp hkd).1 hx
          · rintro rfl
            exact hid' (Multiset.mem_cons_of_mem hx)
        · rw [← hpool₁.handed, ← Multiset.cons_coe, Multiset.cons_add, Multiset.add_cons]
        · have hxk : x ≠ k.id := by
            rintro rfl
            exact hx (id_mem k)
          by_cases heq : x = id
          · exact ⟨(look x).trans (if_pos heq),
              (lookp x).trans ((if_neg hxk).trans ((lookc x).trans (if_pos heq)))⟩
          · have blank := hpool₁.blank x (by simp [heq, hx])
            exact ⟨(look x).trans ((if_neg heq).trans blank.1), (other hxk heq).trans blank.2⟩
        · simp only [excess_branch, List.map_cons, List.map_nil, List.sum_cons, List.sum_nil,
            List.length_cons, List.length_nil] at hcredit ⊢
          omega
      · refine ⟨_, h + 1, branch id (k :: k' :: kids), ?_, hstay⟩
        simp only [entry_branch, List.map_cons, hp, ok_bind, pure_eq_ok]

end Whole

end OrderRemovals
