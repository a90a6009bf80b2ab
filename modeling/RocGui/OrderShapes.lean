import Mathlib.Data.Multiset.AddSub
import Mathlib.Data.Multiset.Range
import Mathlib.Algebra.BigOperators.Group.Multiset.Basic
import Mathlib.Algebra.Order.BigOperators.Group.List
import Mathlib.Tactic.Abel
import RocGui.OrderTrees

/-! The tree an order's tables describe, and what reading the tables answers. -/
namespace OrderShapes

open FiniteMaps Methods OrderTables OrderTrees

variable {ε σ : Type} {h : ℕ}

def node (o : RowsOrder) (id : ℕ) : Option RowsOrderNode := lookup o.nodes id
def parentOf (o : RowsOrder) (id : ℕ) : Option RowsOrderParent := lookup o.parents id
def leafOf (o : RowsOrder) (slot : ℕ) : Option ℕ := lookup o.slotLeaf slot

structure Spread (α : Type) where
  id : ℕ
  parts : List α

/-- Trees of one height, so that all leaves are at the same depth. -/
def RankTree : ℕ → Type
  | 0 => Spread ℕ
  | h + 1 => Spread (RankTree h)

namespace RankTree

def leaf (id : ℕ) (slots : List ℕ) : RankTree 0 := Spread.mk id slots
def branch (id : ℕ) (kids : List (RankTree h)) : RankTree (h + 1) := Spread.mk id kids

theorem eq_leaf (t : RankTree 0) : ∃ id slots, t = leaf id slots := ⟨Spread.id t, Spread.parts t, rfl⟩
theorem eq_branch (t : RankTree (h + 1)) : ∃ id kids, t = branch id kids :=
  ⟨Spread.id t, Spread.parts t, rfl⟩

def id : {h : ℕ} → RankTree h → ℕ
  | 0, t => Spread.id t
  | _ + 1, t => Spread.id t

def slots : {h : ℕ} → RankTree h → List ℕ
  | 0, t => Spread.parts t
  | h + 1, t => (Spread.parts t).flatMap (slots (h := h))

def below : {h : ℕ} → RankTree h → Multiset ℕ
  | 0, _ => 0
  | h + 1, t => ((Spread.parts t).map fun k : RankTree h => k.id ::ₘ below k).sum

def ids (t : RankTree h) : Multiset ℕ := t.id ::ₘ t.below

def entry : {h : ℕ} → RankTree h → RowsOrderNode
  | 0, t => .leaf (Spread.parts t) (Spread.parts t).length
  | h + 1, t => .branch ((Spread.parts t).map fun k : RankTree h => k.id) (slots t).length

/-- The entries past half of a full node's. -/
def excess : {h : ℕ} → RankTree h → ℕ
  | 0, t => (Spread.parts t).length - 16
  | h + 1, t => (Spread.parts t).length - 16 + ((Spread.parts t).map (excess (h := h))).sum

variable {id : ℕ} {ss : List ℕ} {kids : List (RankTree h)}

@[simp] theorem id_leaf : (leaf id ss).id = id := rfl
@[simp] theorem id_branch : (branch id kids).id = id := rfl
@[simp] theorem slots_leaf : (leaf id ss).slots = ss := rfl
@[simp] theorem slots_branch : (branch id kids).slots = kids.flatMap slots := rfl
@[simp] theorem below_leaf : (leaf id ss).below = 0 := rfl
@[simp] theorem below_branch : (branch id kids).below = (kids.map ids).sum := rfl
@[simp] theorem entry_leaf : (leaf id ss).entry = .leaf ss ss.length := rfl
@[simp] theorem entry_branch :
    (branch id kids).entry = .branch (kids.map RankTree.id) (kids.flatMap slots).length := rfl
@[simp] theorem excess_leaf : (leaf id ss).excess = ss.length - 16 := rfl
@[simp] theorem excess_branch :
    (branch id kids).excess = kids.length - 16 + (kids.map excess).sum := rfl

theorem id_mem (t : RankTree h) : t.id ∈ t.ids := Multiset.mem_cons_self ..

theorem mem_sum {f : RankTree h → Multiset ℕ} {x : ℕ} :
    x ∈ (kids.map f).sum ↔ ∃ k ∈ kids, x ∈ f k := by
  induction kids with
  | nil => simp
  | cons k kids ih => simp [ih]

theorem entry_length (t : RankTree h) : t.entry.length = t.slots.length := by
  cases h with
  | zero => rfl
  | succ h => rfl

theorem below_apart (distinct : (kids.map ids).sum.Nodup) {k k' : RankTree h} (hk : k ∈ kids)
    (hk' : k' ∈ kids) {x : ℕ} (hx : x ∈ k.below) : x ≠ k'.id := by
  induction kids with
  | nil => cases hk
  | cons c kids ih =>
    rw [List.map_cons, List.sum_cons, Multiset.nodup_add] at distinct
    obtain ⟨hc, hkids, apart⟩ := distinct
    rw [Multiset.disjoint_left] at apart
    rintro rfl
    rcases List.mem_cons.mp hk with here | there
    · rcases List.mem_cons.mp hk' with here' | there'
      · subst here here'
        exact (Multiset.nodup_cons.mp hc).1 hx
      · exact apart (here ▸ Multiset.mem_cons_of_mem hx) (mem_sum.mpr ⟨k', there', id_mem k'⟩)
    · rcases List.mem_cons.mp hk' with here' | there'
      · exact apart (here' ▸ id_mem k') (mem_sum.mpr ⟨k, there, Multiset.mem_cons_of_mem hx⟩)
      · exact ih hkids there there' rfl

theorem ids_distinct (distinct : (kids.map ids).sum.Nodup) : (kids.map RankTree.id).Nodup := by
  induction kids with
  | nil => exact List.nodup_nil
  | cons c kids ih =>
    rw [List.map_cons, List.sum_cons, Multiset.nodup_add] at distinct
    obtain ⟨-, hkids, apart⟩ := distinct
    rw [List.map_cons, List.nodup_cons, List.mem_map]
    refine ⟨?_, ih hkids⟩
    rintro ⟨k, hk, heq⟩
    exact Multiset.disjoint_left.mp apart (id_mem c) (mem_sum.mpr ⟨k, hk, heq ▸ id_mem k⟩)

end RankTree

open RankTree

def Stored (o : RowsOrder) : {h : ℕ} → RankTree h → Prop
  | 0, t => 0 < t.id ∧ node o t.id = some t.entry ∧ t.slots.length ≤ 32 ∧
      ∀ s ∈ t.slots, 0 < s ∧ leafOf o s = some t.id
  | h + 1, t => 0 < t.id ∧ node o t.id = some t.entry ∧ Spread.parts t ≠ [] ∧
      (Spread.parts t).length ≤ 32 ∧
      (∀ i (k : RankTree h), (Spread.parts t)[i]? = some k → parentOf o k.id = some (.child t.id i)) ∧
      ∀ k ∈ Spread.parts t, slots k ≠ [] ∧ Stored o (h := h) k

variable {o o' : RowsOrder} {t : RankTree h} {id : ℕ} {kids : List (RankTree h)}

theorem stored_leaf {ss : List ℕ} : Stored o (leaf id ss) ↔ 0 < id ∧
    node o id = some (.leaf ss ss.length) ∧ ss.length ≤ 32 ∧
    ∀ s ∈ ss, 0 < s ∧ leafOf o s = some id := Iff.rfl

theorem stored_branch : Stored o (branch id kids) ↔ 0 < id ∧
    node o id = some (.branch (kids.map RankTree.id) (kids.flatMap slots).length) ∧ kids ≠ [] ∧
    kids.length ≤ 32 ∧
    (∀ i k, kids[i]? = some k → parentOf o k.id = some (.child id i)) ∧
    ∀ k ∈ kids, slots k ≠ [] ∧ Stored o k := Iff.rfl

theorem stored_node (ht : Stored o t) : 0 < t.id ∧ node o t.id = some t.entry := by
  cases h with
  | zero => exact ⟨ht.1, ht.2.1⟩
  | succ h => exact ⟨ht.1, ht.2.1⟩

theorem stored_pos (ht : Stored o t) : ∀ s ∈ t.slots, 0 < s := by
  induction h with
  | zero => exact fun s hs => (ht.2.2.2 s hs).1
  | succ h ih =>
    obtain ⟨id, kids, rfl⟩ := eq_branch t
    intro s hs
    obtain ⟨k, hk, hs⟩ := List.mem_flatMap.mp hs
    exact ih ((stored_branch.mp ht).2.2.2.2.2 k hk).2 s hs

theorem stored_frame (ht : Stored o t) (nodes : ∀ x ∈ t.ids, node o' x = node o x)
    (parents : ∀ x ∈ t.below, parentOf o' x = parentOf o x)
    (leaves : ∀ s ∈ t.slots, leafOf o' s = leafOf o s) : Stored o' t := by
  induction h with
  | zero =>
    obtain ⟨id, ss, rfl⟩ := eq_leaf t
    obtain ⟨hid, hnode, hlen, hss⟩ := stored_leaf.mp ht
    refine stored_leaf.mpr ⟨hid, (nodes id (id_mem _)).trans hnode, hlen, fun s hs => ?_⟩
    exact ⟨(hss s hs).1, (leaves s hs).trans (hss s hs).2⟩
  | succ h ih =>
    obtain ⟨id, kids, rfl⟩ := eq_branch t
    obtain ⟨hid, hnode, hne, hlen, hparents, hkids⟩ := stored_branch.mp ht
    have under {k : RankTree h} (hk : k ∈ kids) {x : ℕ} (hx : x ∈ k.ids) :
        x ∈ (branch id kids).below := mem_sum.mpr ⟨k, hk, hx⟩
    refine stored_branch.mpr ⟨hid, (nodes id (id_mem _)).trans hnode, hne, hlen, fun i k hk => ?_,
      fun k hk => ⟨(hkids k hk).1, ih (hkids k hk).2 ?_ ?_ ?_⟩⟩
    · rw [parents k.id (under (List.mem_of_getElem? hk) (id_mem k)), hparents i k hk]
    · exact fun x hx => nodes x (Multiset.mem_cons_of_mem (under hk hx))
    · exact fun x hx => parents x (under hk (Multiset.mem_cons_of_mem hx))
    · exact fun s hs => leaves s (List.mem_flatMap.mpr ⟨k, hk, hs⟩)

section Beside

variable {front back : List (RankTree h)} {k k' : RankTree h} {rest : Multiset ℕ}

theorem branch_live (id : ℕ) (front back : List (RankTree h)) (k : RankTree h) (rest : Multiset ℕ) :
    (branch id (front ++ k :: back)).ids + rest =
      k.ids + (id ::ₘ (front.map ids).sum + (back.map ids).sum + rest) := by
  simp only [RankTree.ids, id_branch, below_branch, List.map_append, List.sum_append, List.map_cons,
    List.sum_cons, ← Multiset.singleton_add]
  abel

theorem beside_stored (hkids : ∀ c ∈ front ++ k :: back, c.slots ≠ [] ∧ Stored o c)
    (nodes : ∀ x ∈ id ::ₘ (front.map ids).sum + (back.map ids).sum + rest, node o' x = node o x)
    (parents : ∀ x ∈ id ::ₘ (front.map ids).sum + (back.map ids).sum + rest,
      parentOf o' x = parentOf o x)
    (hk' : k' ∈ front ∨ k' ∈ back) (leaves : ∀ s ∈ k'.slots, leafOf o' s = leafOf o s) :
    k'.slots ≠ [] ∧ Stored o' k' := by
  have hmem : k' ∈ front ++ k :: back := by
    rw [List.mem_append, List.mem_cons]
    tauto
  have live {x : ℕ} (hx : x ∈ k'.ids) :
      x ∈ id ::ₘ (front.map ids).sum + (back.map ids).sum + rest := by
    simp only [Multiset.cons_add, Multiset.mem_cons, Multiset.mem_add, mem_sum]
    rcases hk' with hk' | hk'
    · exact .inr (.inl (.inl ⟨k', hk', hx⟩))
    · exact .inr (.inl (.inr ⟨k', hk', hx⟩))
  exact ⟨(hkids k' hmem).1, stored_frame (hkids k' hmem).2 (fun x hx => nodes x (live hx))
    (fun x hx => parents x (live (Multiset.mem_cons_of_mem hx))) leaves⟩

theorem beside_slots
    (distinct : (front.flatMap slots ++ (k.slots ++ back.flatMap slots)).Nodup)
    (hk' : k' ∈ front ∨ k' ∈ back) {s : ℕ} (hs : s ∈ k'.slots) : s ∉ k.slots := by
  obtain ⟨-, hmid, hfapart⟩ := List.nodup_append.mp distinct
  obtain ⟨-, -, hbapart⟩ := List.nodup_append.mp hmid
  intro hsk
  rcases hk' with hk' | hk'
  · exact hfapart s (List.mem_flatMap.mpr ⟨k', hk', hs⟩) s (by simp [hsk]) rfl
  · exact hbapart s hsk s (List.mem_flatMap.mpr ⟨k', hk', hs⟩) rfl

end Beside

section Reading

variable {message : String}

@[simp] theorem ok_bind {α β δ : Type} (a : α) (f : α → Except δ β) :
    (Except.ok a >>= f) = f a := rfl

@[simp] theorem error_bind {α β δ : Type} (e : δ) (f : α → Except δ β) :
    (Except.error e >>= f) = .error e := rfl

@[simp] theorem pure_eq_ok {α δ : Type} (a : α) : (pure a : Except δ α) = .ok a := rfl

@[simp] theorem or_crash_some {V : Type} (v : V) :
    (orCrash message (some v) : Except (Failure ε) V) = .ok v := rfl

theorem get_node_ok {id : ℕ} {n : RowsOrderNode} (hid : 0 < id) (hn : node o id = some n) :
    (getNode o message id : Except (Failure ε) _) = .ok n := by
  rw [getNode, get_ok hid]
  simp only [ok_bind]
  rw [show lookup o.nodes id = some n from hn]
  rfl

theorem get_stored (ht : Stored o t) :
    (getNode o message t.id : Except (Failure ε) _) = .ok t.entry :=
  get_node_ok (stored_node ht).1 (stored_node ht).2

theorem get_parent_ok {id : ℕ} {p : RowsOrderParent} (hid : 0 < id) (hp : parentOf o id = some p) :
    (tableGet o.parents id : Except (Failure ε) _) = .ok (some p) := by
  rw [get_ok hid]
  exact congrArg _ hp

def before (kids : List (RankTree h)) : ℕ := (kids.flatMap slots).length

theorem before_append (kids kids' : List (RankTree h)) :
    before (kids ++ kids') = before kids + before kids' := by simp [before]

@[simp] theorem before_cons (k : RankTree h) : before (k :: kids) = k.slots.length + before kids := by
  simp [before]

theorem seek_child (message : String) (allowEnd : Bool) (start index : ℕ)
    (hkids : ∀ k ∈ kids, Stored o k)
    (bound : index < before kids ∨ allowEnd = true ∧ index = before kids ∧ kids ≠ []) :
    ∃ front k back, kids = front ++ k :: back ∧ before front ≤ index ∧
      (index - before front < k.slots.length ∨
        allowEnd = true ∧ index - before front = k.slots.length ∧ back = []) ∧
      (seekChild o message allowEnd (kids.map RankTree.id) start index : Except (Failure ε) _) =
        .ok (some (start + front.length), index - before front) := by
  induction kids generalizing start index with
  | nil => simp [before] at bound
  | cons c kids ih =>
    have hc : (getNode o message c.id : Except (Failure ε) _) = .ok c.entry :=
      get_stored (hkids c (by simp))
    rw [before_cons] at bound
    simp only [List.map_cons, seekChild, hc, ok_bind, entry_length, List.map_eq_nil_iff]
    by_cases here : index < c.slots.length ∨ allowEnd = true ∧ index = c.slots.length ∧ kids = []
    · rw [if_pos here]
      refine ⟨[], c, kids, rfl, by simp [before], ?_, by simp [before]⟩
      simp only [before, List.flatMap_nil, List.length_nil, Nat.sub_zero]
      rcases here with h | h
      · exact .inl h
      · exact .inr h
    · rw [if_neg here]
      rw [not_or, not_lt] at here
      obtain ⟨hle, hend⟩ := here
      have later : index - c.slots.length < before kids ∨
          allowEnd = true ∧ index - c.slots.length = before kids ∧ kids ≠ [] := by
        rcases bound with hlt | ⟨ha, heq, -⟩
        · exact .inl (by omega)
        · refine .inr ⟨ha, by omega, ?_⟩
          rintro rfl
          exact hend ⟨ha, by simpa [before] using heq, rfl⟩
      obtain ⟨front, k, back, rfl, hfront, hk, hseek⟩ :=
        ih (start + 1) _ (fun k hk => hkids k (by simp [hk])) later
      refine ⟨c :: front, k, back, rfl, ?_, ?_, ?_⟩
      · rw [before_cons]
        omega
      · rwa [before_cons, ← Nat.sub_sub]
      · rw [hseek, before_cons, List.length_cons, Nat.sub_sub]
        congr 3
        omega

theorem chosen_child (front back : List (RankTree h)) (k : RankTree h) :
    ((front ++ k :: back).map RankTree.id)[front.length]? = some k.id := by simp

theorem take_children (front back : List (RankTree h)) (k : RankTree h) :
    ((front ++ k :: back).map RankTree.id).take front.length = front.map RankTree.id := by simp

theorem drop_children (front back : List (RankTree h)) (k : RankTree h) :
    ((front ++ k :: back).map RankTree.id).drop (front.length + 1) = back.map RankTree.id := by
  rw [← List.map_drop, List.drop_append, List.drop_eq_nil_of_le (Nat.le_succ _)]
  simp

theorem locate_node {fuel index : ℕ} (allowEnd : Bool) (ht : Stored o t) (hfuel : h < fuel)
    (bound : index < t.slots.length ∨ allowEnd = true ∧ index = t.slots.length) :
    ∃ l ss, (locateNode fuel o t.id index allowEnd : Except (Failure ε) _) = .ok l ∧ 0 < l.leaf ∧
      node o l.leaf = some (.leaf ss ss.length) ∧
      (index < t.slots.length → ss[l.offset]? = t.slots[index]?) ∧
      ∀ fuel visits, (climb (fuel + h) o visits l.leaf : Except (Failure ε) ℕ) =
        climb fuel o (visits + h) t.id := by
  obtain ⟨fuel, rfl⟩ : ∃ n, fuel = n + 1 := ⟨fuel - 1, by omega⟩
  induction h generalizing fuel index with
  | zero =>
    obtain ⟨id, ss, rfl⟩ := eq_leaf t
    refine ⟨⟨id, index⟩, ss, ?_, ht.1, ht.2.1, fun _ => rfl, fun _ _ => rfl⟩
    rw [locateNode, get_stored ht, ok_bind]
    simp only [entry_leaf, slots_leaf] at bound ⊢
    rw [if_pos bound]
    rfl
  | succ h ih =>
    obtain ⟨id, kids, rfl⟩ := eq_branch t
    obtain ⟨hid, -, hne, -, hparents, hkids⟩ := stored_branch.mp ht
    obtain ⟨front, k, back, rfl, hfront, hk, hseek⟩ := seek_child (ε := ε)
      "Rows order child was missing" allowEnd 0 index (fun k hk => (hkids k hk).2)
      (bound.imp_right fun hb => ⟨hb.1, hb.2, hne⟩)
    have hkid := (hkids k (by simp)).2
    obtain ⟨fuel, rfl⟩ : ∃ n, fuel = n + 1 := ⟨fuel - 1, by omega⟩
    obtain ⟨l, ss, hl, hpos, hnode, hoffset, hclimb⟩ :=
      ih hkid (hk.imp_right fun hb => ⟨hb.1, hb.2.1⟩) fuel (by omega)
    refine ⟨l, ss, ?_, hpos, hnode, fun hlt => ?_, fun fuel visits => ?_⟩
    · rw [locateNode, get_stored ht, ok_bind]
      simp only [entry_branch, slots_branch] at bound ⊢
      rw [if_neg ?_, hseek, ok_bind]
      · simp only [Nat.zero_add, Option.getD_some, chosen_child, or_crash_some, ok_bind, hl]
      · rintro (hlt | ⟨ha, heq⟩)
        · omega
        · rw [ha] at bound
          simp only [Bool.false_eq_true, false_and, or_false] at bound
          omega
    · have hslots : (branch id (front ++ k :: back)).slots =
          front.flatMap slots ++ (k.slots ++ back.flatMap slots) := by simp
      rw [hslots] at hlt ⊢
      rw [before] at hfront hk hoffset
      rw [List.getElem?_append_right hfront]
      rcases hk with hk | ⟨-, hk, rfl⟩
      · rw [List.getElem?_append_left hk]
        exact hoffset hk
      · simp only [List.flatMap_nil, List.append_nil, List.length_append] at hlt
        omega
    · rw [show fuel + (h + 1) = fuel + 1 + h by omega, hclimb, climb,
        get_parent_ok (stored_node hkid).1 (hparents front.length k (by simp))]
      simp only [or_crash_some, ok_bind, id_branch, Nat.add_assoc]

theorem children_len (hkids : ∀ k ∈ kids, Stored o k) :
    (childrenLen o (kids.map RankTree.id) : Except (Failure ε) ℕ) = .ok (before kids) := by
  have from_len (len : ℕ) : ((kids.map RankTree.id).foldlM (fun len child => do
      let node ← getNode o "Rows order child was missing while measuring" child
      pure (len + node.length)) len : Except (Failure ε) ℕ) = .ok (len + before kids) := by
    induction kids generalizing len with
    | nil => rfl
    | cons k kids ih =>
      rw [List.map_cons, List.foldlM_cons, get_stored (hkids k (by simp))]
      simp only [ok_bind, pure_bind, entry_length]
      rw [ih (fun k hk => hkids k (by simp [hk])), before_cons, Nat.add_assoc]
  rw [childrenLen, from_len, Nat.zero_add]

theorem siblings_len (hkids : ∀ k ∈ kids, Stored o k) {child : ℕ} (hc : child ≤ kids.length)
    (rank : ℕ) : (siblingsLen o (kids.map RankTree.id) child rank : Except (Failure ε) ℕ) =
      .ok (rank + before (kids.take child)) := by
  induction child with
  | zero => rfl
  | succ child ih =>
    have hlt : child < kids.length := hc
    rw [siblingsLen, List.range_succ, List.foldlM_append]
    rw [siblingsLen] at ih
    have hget : (kids.map RankTree.id)[child]? = some (kids[child]).id := by simp [hlt]
    rw [ih (by omega), ok_bind, List.foldlM_cons, hget, or_crash_some, ok_bind,
      get_stored (hkids _ (List.getElem_mem hlt)), ok_bind, pure_bind, List.foldlM_nil,
      entry_length, ← List.take_concat_get' kids child hlt, before_append, Nat.add_assoc]
    simp [before]

theorem fold_node {push : σ → ℕ → Except (Failure ε) σ} {fuel : ℕ} (ht : Stored o t)
    (hfuel : h < fuel) (initial : σ) :
    foldNode push fuel o t.id initial = t.slots.foldlM push initial := by
  obtain ⟨fuel, rfl⟩ : ∃ n, fuel = n + 1 := ⟨fuel - 1, by omega⟩
  induction h generalizing fuel initial with
  | zero =>
    obtain ⟨id, ss, rfl⟩ := eq_leaf t
    rw [foldNode, get_stored ht]
    rfl
  | succ h ih =>
    obtain ⟨id, kids, rfl⟩ := eq_branch t
    obtain ⟨-, -, -, -, -, hkids⟩ := stored_branch.mp ht
    rw [foldNode, get_stored ht]
    simp only [ok_bind, entry_branch, slots_branch]
    clear ht
    induction kids generalizing initial with
    | nil => rfl
    | cons k kids ihk =>
      obtain ⟨fuel, rfl⟩ : ∃ n, fuel = n + 1 := ⟨fuel - 1, by omega⟩
      rw [List.map_cons, List.foldlM_cons, List.flatMap_cons, List.foldlM_append,
        ih (hkids k (by simp)).2 _ fuel (by omega)]
      exact bind_congr fun state => ihk state fun k hk => hkids k (by simp [hk])

/-- From the leaf of a slot the root is as far up as the tree is high, past the slots in
front of the leaf. -/
theorem rank_from {s : ℕ} (ht : Stored o t) (distinct : t.slots.Nodup) (hs : s ∈ t.slots) :
    ∃ l ss ahead, leafOf o s = some l ∧ 0 < l ∧ node o l = some (.leaf ss ss.length) ∧ s ∈ ss ∧
      ahead + ss.idxOf s = t.slots.idxOf s ∧ ∀ fuel rank,
        (rankFrom (fuel + h) o rank l : Except (Failure ε) ℕ) =
          rankFrom fuel o (rank + ahead) t.id := by
  induction h with
  | zero =>
    obtain ⟨id, ss, rfl⟩ := eq_leaf t
    obtain ⟨hid, hnode, -, hleaf⟩ := stored_leaf.mp ht
    exact ⟨id, ss, 0, (hleaf s hs).2, hid, hnode, hs, Nat.zero_add _, fun _ _ => rfl⟩
  | succ h ih =>
    obtain ⟨id, kids, rfl⟩ := eq_branch t
    obtain ⟨hid, hnode, -, -, hparents, hkids⟩ := stored_branch.mp ht
    obtain ⟨k, hk, hsk⟩ := List.mem_flatMap.mp hs
    obtain ⟨front, back, rfl⟩ := List.append_of_mem hk
    have hslots : (branch id (front ++ k :: back)).slots =
        front.flatMap slots ++ (k.slots ++ back.flatMap slots) := by simp
    rw [hslots] at distinct ⊢
    have hfront : s ∉ front.flatMap slots := fun hf =>
      (List.nodup_append.mp distinct).2.2 s hf s (by simp [hsk]) rfl
    have hdk : k.slots.Nodup := (List.nodup_append.mp (List.nodup_append.mp distinct).2.1).1
    obtain ⟨l, ss, ahead, hl, hpos, hln, hmem, hidx, hrank⟩ := ih (hkids k hk).2 hdk hsk
    refine ⟨l, ss, ahead + before front, hl, hpos, hln, hmem, ?_, fun fuel rank => ?_⟩
    · rw [List.idxOf_append_of_notMem hfront, List.idxOf_append_of_mem hsk, ← hidx]
      simp only [before]
      omega
    · rw [show fuel + (h + 1) = fuel + 1 + h by omega, hrank, rankFrom,
        get_parent_ok (stored_node (hkids k hk).2).1 (hparents front.length k (by simp))]
      simp only [or_crash_some, ok_bind]
      rw [get_node_ok hid hnode]
      simp only [ok_bind]
      rw [siblings_len (fun k hk => (hkids k hk).2) (by simp)]
      simp only [ok_bind, List.take_left', id_branch, Nat.add_assoc]

end Reading

/-- Every id handed out is in use or free, and only the ids in use have entries. -/
structure Pooled (o : RowsOrder) (live : Multiset ℕ) : Prop where
  handed : 0 ::ₘ (live + (o.freeNodes : Multiset ℕ)) = Multiset.range o.nextNode
  blank : ∀ x ∉ live, node o x = none ∧ parentOf o x = none

section Pool

variable {live : Multiset ℕ}

theorem pooled_distinct (p : Pooled o live) : (0 ::ₘ (live + (o.freeNodes : Multiset ℕ))).Nodup :=
  p.handed ▸ Multiset.nodup_range _

theorem live_distinct (p : Pooled o live) : live.Nodup :=
  (Multiset.nodup_add.mp (Multiset.nodup_cons.mp (pooled_distinct p)).2).1

theorem live_pos (p : Pooled o live) {x : ℕ} (hx : x ∈ live) : 0 < x := by
  refine Nat.pos_of_ne_zero ?_
  rintro rfl
  exact (Multiset.nodup_cons.mp (pooled_distinct p)).1 (Multiset.mem_add.mpr (.inl hx))

theorem live_card (p : Pooled o live) : Multiset.card live < o.nextNode := by
  have := congrArg Multiset.card p.handed
  rw [Multiset.card_cons, Multiset.card_add, Multiset.card_range] at this
  omega

/-- An id taken from the pool, which is then this one. -/
structure Allocated (o : RowsOrder) (live : Multiset ℕ) (id nextNode : ℕ)
    (freeNodes : List ℕ) : Prop where
  run : ∀ {ε : Type}, (allocateNode o : Except (Failure ε) _) =
    .ok (id, { o with nextNode, freeNodes })
  handed : 0 ::ₘ (id ::ₘ live + (freeNodes : Multiset ℕ)) = Multiset.range nextNode
  fresh : id ∉ live
  pos : 0 < id
  grown : nextNode ≤ o.nextNode + 1

theorem allocate (p : Pooled o live) :
    (∃ id nextNode freeNodes, Allocated o live id nextNode freeNodes) ∨
    o.nextNode = maxId ∧ ∀ {ε : Type}, (allocateNode o : Except (Failure ε) _) = .error exhausted := by
  have distinct := pooled_distinct p
  cases hf : o.freeNodes with
  | cons id rest =>
    refine .inl ⟨id, o.nextNode, rest, ?_, ?_, ?_, ?_, Nat.le_succ _⟩
    · intro ε
      rw [allocateNode, hf]
    · rw [← p.handed, hf, ← Multiset.cons_coe, Multiset.cons_add, Multiset.add_cons]
    · rw [hf, ← Multiset.cons_coe, Multiset.add_cons, Multiset.cons_swap,
        Multiset.nodup_cons] at distinct
      exact fun hl => distinct.1 (by simp [hl])
    · rw [hf, ← Multiset.cons_coe, Multiset.add_cons, Multiset.cons_swap,
        Multiset.nodup_cons] at distinct
      refine Nat.pos_of_ne_zero ?_
      rintro rfl
      exact distinct.1 (by simp)
  | nil =>
    by_cases hmax : o.nextNode = maxId
    · refine .inr ⟨hmax, ?_⟩
      intro ε
      rw [allocateNode, hf]
      simp only [if_pos hmax]
    · have handed := p.handed
      rw [hf, Multiset.coe_nil, add_zero] at handed
      refine .inl ⟨o.nextNode, o.nextNode + 1, [], ?_, ?_, ?_, ?_, le_rfl⟩
      · intro ε
        rw [allocateNode, hf]
        simp only [if_neg hmax]
      · rw [Multiset.coe_nil, add_zero, Multiset.range_succ, ← handed, Multiset.cons_swap]
      · intro hl
        have : o.nextNode ∈ Multiset.range o.nextNode := handed ▸ Multiset.mem_cons_of_mem hl
        exact absurd (Multiset.mem_range.mp this) (lt_irrefl _)
      · have : 0 ∈ Multiset.range o.nextNode := handed ▸ Multiset.mem_cons_self ..
        exact Multiset.mem_range.mp this

theorem settle_slots (leaf : ℕ) {ss : List ℕ} (hss : ∀ s ∈ ss, 0 < s) (table : RowsOrderTable ℕ) :
    ∃ t, (settleSlots leaf ss table : Except (Failure ε) _) = .ok t ∧
      ∀ x, lookup t x = if x ∈ ss then some leaf else lookup table x := by
  induction ss generalizing table with
  | nil => exact ⟨table, rfl, fun x => by simp⟩
  | cons s ss ih =>
    obtain ⟨t, ht, hlook⟩ := set_ok (ε := ε) table leaf (hss s (by simp))
    obtain ⟨u, hu, hlook'⟩ := ih (fun s hs => hss s (by simp [hs])) t
    refine ⟨u, ?_, fun x => ?_⟩
    · rw [settleSlots, List.foldlM_cons, ht, ok_bind]
      exact hu
    · rw [hlook', hlook]
      by_cases hx : x ∈ ss
      · simp [hx]
      · by_cases hs : x = s
        · simp [hs]
        · simp [hx, hs]

theorem parent_from (parent : ℕ) {cs : List ℕ} (distinct : cs.Nodup) (pos : ∀ c ∈ cs, 0 < c)
    (index : ℕ) (table : RowsOrderTable RowsOrderParent) :
    ∃ t, (parentFrom parent cs index table : Except (Failure ε) _) = .ok t ∧
      (∀ i c, cs[i]? = some c → lookup t c = some (.child parent (index + i))) ∧
      ∀ x ∉ cs, lookup t x = lookup table x := by
  induction cs generalizing index table with
  | nil => exact ⟨table, rfl, by simp, fun _ _ => rfl⟩
  | cons c cs ih =>
    obtain ⟨hc, distinct⟩ := List.nodup_cons.mp distinct
    obtain ⟨t, ht, hlook⟩ := set_ok (ε := ε) table
      (RowsOrderParent.child parent index) (pos c (by simp))
    obtain ⟨u, hu, hchild, hother⟩ := ih distinct (fun x hx => pos x (by simp [hx])) (index + 1) t
    refine ⟨u, ?_, fun i x hi => ?_, fun x hx => ?_⟩
    · rw [parentFrom, ht, ok_bind, hu]
    · cases i with
      | zero =>
        obtain rfl : c = x := by simpa using hi
        rw [hother c hc, hlook, if_pos rfl, Nat.add_zero]
      | succ i =>
        rw [hchild i x (by simpa using hi)]
        congr 2
        omega
    · rw [List.mem_cons, not_or] at hx
      rw [hother x hx.2, hlook, if_neg hx.1]

theorem set_child_parents (parent : ℕ) {cs : List ℕ} (distinct : cs.Nodup)
    (pos : ∀ c ∈ cs, 0 < c) (o : RowsOrder) :
    ∃ t, (setChildParents o parent cs : Except (Failure ε) _) = .ok { o with parents := t } ∧
      (∀ i c, cs[i]? = some c → lookup t c = some (.child parent i)) ∧
      ∀ x ∉ cs, lookup t x = parentOf o x := by
  obtain ⟨t, ht, hchild, hother⟩ := parent_from (ε := ε) parent distinct pos 0 o.parents
  refine ⟨t, ?_, fun i c hc => ?_, hother⟩
  · rw [setChildParents, ht]
    rfl
  · rw [hchild i c hc, Nat.zero_add]

end Pool

theorem stored_card (ht : Stored o t) : h < Multiset.card t.ids := by
  rw [RankTree.ids, Multiset.card_cons]
  induction h with
  | zero => omega
  | succ h ih =>
    obtain ⟨id, kids, rfl⟩ := eq_branch t
    obtain ⟨-, -, hne, -, -, hkids⟩ := stored_branch.mp ht
    obtain ⟨k, kids, rfl⟩ := List.exists_cons_of_ne_nil hne
    have := ih (hkids k (by simp)).2
    rw [below_branch, List.map_cons, List.sum_cons, Multiset.card_add, RankTree.ids, Multiset.card_cons]
    omega

/-- The whole order is this tree: it hangs from the root, every slot is in one leaf, and
the tables hold nothing else. -/
structure Ordered (o : RowsOrder) (t : RankTree h) : Prop where
  root : t.id = o.root
  stored : Stored o t
  top : parentOf o o.root = some .root
  distinct : t.slots.Nodup
  pooled : Pooled o t.ids
  leaves : ∀ s ∉ t.slots, leafOf o s = none

section Whole

theorem lookup_single {V : Type} (v : V) (x : ℕ) :
    lookup ((∅ : RowsOrderTable V).set 0 [some v]) x = if x = 1 then some v else none := by
  refine (lookup_set_chunk (some v) (show 0 < 1 from one_pos) rfl (fun i hi => ?_) x).trans ?_
  · have : (1 - 1) % chunkSize = 0 := rfl
    rw [FiniteMap.get_empty, List.getElem?_eq_none (by simp only [List.length_singleton]; omega)]
    rfl
  · rw [lookup_empty]

theorem order_empty : ∃ o, (∀ {ε : Type}, (orderEmpty : Except (Failure ε) _) = .ok o) ∧
    Ordered o (leaf 1 []) ∧ o.nextNode = 2 := by
  refine ⟨⟨1, (∅ : RowsOrderTable _).set 0 [some (.leaf [] 0)],
    (∅ : RowsOrderTable _).set 0 [some .root], ∅, 2, []⟩, rfl, ?_, rfl⟩
  constructor
  case root => rfl
  case stored =>
    exact stored_leaf.mpr ⟨one_pos, lookup_single _ 1, Nat.zero_le _, fun s hs => nomatch hs⟩
  case top => exact lookup_single _ 1
  case distinct => exact List.nodup_nil
  case pooled =>
    refine ⟨rfl, fun x hx => ?_⟩
    have hx : x ≠ 1 := by simpa [RankTree.ids] using hx
    exact ⟨(lookup_single _ x).trans (if_neg hx), (lookup_single _ x).trans (if_neg hx)⟩
  case leaves => exact fun s _ => lookup_empty s

theorem fuel_enough (ord : Ordered o t) : h < o.nextNode :=
  (stored_card ord.stored).trans (live_card ord.pooled)

theorem order_len (ord : Ordered o t) :
    (orderLen o : Except (Failure ε) ℕ) = .ok t.slots.length := by
  rw [orderLen, ← ord.root, get_stored ord.stored, ← entry_length]
  rfl

theorem path_visits (ord : Ordered o t) {index : ℕ} {allowEnd : Bool}
    (bound : index < t.slots.length ∨ allowEnd = true ∧ index = t.slots.length) :
    (pathVisits o index allowEnd : Except (Failure ε) ℕ) = .ok (h + 1) := by
  have hfuel := fuel_enough ord
  obtain ⟨l, ss, hl, -, -, -, hclimb⟩ := locate_node (ε := ε) allowEnd ord.stored hfuel bound
  rw [pathVisits, orderLocate, ← ord.root, hl, ok_bind]
  obtain ⟨n, hn⟩ : ∃ n, o.nextNode = n + 1 + h := ⟨o.nextNode - h - 1, by omega⟩
  rw [hn, hclimb, climb, get_parent_ok (stored_node ord.stored).1 (ord.root ▸ ord.top)]
  simp only [or_crash_some, ok_bind, pure_eq_ok, Nat.add_comm]

theorem fold_order (ord : Ordered o t) (initial : σ) (push : σ → ℕ → Except (Failure ε) σ) :
    orderFold o initial push = t.slots.foldlM push initial := by
  rw [orderFold, ← ord.root, fold_node ord.stored (fuel_enough ord)]

theorem rank_order (ord : Ordered o t) {s : ℕ} (hs : s ∈ t.slots) :
    (orderRank o s : Except (Failure ε) _) = .ok (some (t.slots.idxOf s)) := by
  have hfuel := fuel_enough ord
  obtain ⟨l, ss, ahead, hl, hpos, hn, hmem, hidx, hrank⟩ := rank_from (ε := ε) ord.stored
    ord.distinct hs
  rw [orderRank, get_ok (stored_pos ord.stored s hs), ok_bind,
    show lookup o.slotLeaf s = some l from hl]
  simp only [get_node_ok hpos hn, ok_bind, if_pos hmem]
  obtain ⟨n, hn⟩ : ∃ n, o.nextNode = n + 1 + h := ⟨o.nextNode - h - 1, by omega⟩
  rw [hn, hrank, rankFrom, get_parent_ok (stored_node ord.stored).1 (ord.root ▸ ord.top)]
  simp only [or_crash_some, ok_bind, pure_eq_ok, Nat.add_comm, ← hidx]

end Whole

end OrderShapes
