import RocGui.GraphState
import RocGui.KeyedOrderLists
import RocGui.PointerTrees

/-! The mounted graph as a tree of places: what it is for a graph to be well formed. -/
namespace GraphForests

open FiniteMaps KeyedLists Methods KeyedOrder KeyedOrderLists GraphState PointerTrees

variable {K : Type} [DecidableEq K]

def entriesOf (o : KeyedChildOrder K) : List (K × ℕ × ℕ) :=
  match forward o with
  | .ok cs => cs.map item
  | .error _ => []

theorem entries_of {o : KeyedChildOrder K} {l : KeyedList K (ℕ × ℕ)} (h : Represents o l) :
    entriesOf o = l.entries := by
  obtain ⟨cs, hcs, heq⟩ := forward_eq h
  rw [entriesOf, hcs]
  exact heq

/-- The place of one keyed item. -/
def keyedPlace (id : ℕ) (entry : K × ℕ × ℕ) : ℕ × ParentLocation K :=
  (entry.2.1, .keyed id entry.1 entry.2.2)

def ordinaryPlace (id : ℕ) (child : ℕ × ℕ) : ℕ × ParentLocation K :=
  (child.1, .ordinaryIndex id child.2)

def locations (id : ℕ) (e : MountedNode K) : List (ℕ × ParentLocation K) :=
  match e.keyedChildren with
  | some order => (entriesOf order).map (keyedPlace id)
  | none => e.node.children.zipIdx.map (ordinaryPlace id)

def forest (g : MountedGraph K) : Forest ℕ (ParentLocation K) where
  places id := (g.nodes.get id).map (locations id)
  parent := g.parentLocation
  weight id := (g.subtreeSize id).getD 0

/-- What every patch keeps. -/
structure Shape (g : MountedGraph K) : Prop where
  orders : ∀ {id e o}, g.nodes.get id = some e → e.keyedChildren = some o → ∃ l, Represents o l
  linked : Linked ParentLocation.parent (forest g) g.root
  weighed : Weighed (forest g)
  issued : ∀ {id}, (g.nodes.get id).isSome → id ≤ g.maxSeenNodeId

section Forest

variable {g : MountedGraph K} {id : ℕ} {e : MountedNode K}

theorem kids_eq (h : g.nodes.get id = some e) : (forest g).kids id = locations id e := by
  simp [Forest.kids, forest, h]

theorem mounted_iff : (forest g).Mounted id ↔ (g.nodes.get id).isSome := by
  simp [Forest.Mounted, forest]

theorem weight_eq (h : g.nodes.get id = some e) : (forest g).weight id = e.subtreeSize := by
  simp [forest, MountedGraph.subtreeSize, h]

theorem parent_eq (h : g.nodes.get id = some e) : (forest g).parent id = e.parent := by
  simp [forest, MountedGraph.parentLocation, h]

theorem location_parent {c : ℕ} {loc : ParentLocation K} (h : (c, loc) ∈ locations id e) :
    loc.parent = id := by
  unfold locations at h
  split at h
  · obtain ⟨entry, -, heq⟩ := List.mem_map.mp h
    obtain ⟨rfl, rfl⟩ := Prod.mk.inj heq
    rfl
  · obtain ⟨child, -, heq⟩ := List.mem_map.mp h
    obtain ⟨rfl, rfl⟩ := Prod.mk.inj heq
    rfl

theorem locations_nodup (h : ∀ o, e.keyedChildren = some o → ∃ l, Represents o l) :
    (locations id e).Nodup := by
  unfold locations
  split
  · rename_i o ho
    obtain ⟨l, hl⟩ := h o ho
    rw [entries_of hl]
    refine List.Nodup.map_on ?_ (List.Nodup.of_map _ l.distinct)
    rintro ⟨k, r, i⟩ hx ⟨k', r', i'⟩ hy heq
    simp only [keyedPlace, Prod.mk.injEq, ParentLocation.keyed.injEq] at heq
    simp [heq]
  · refine List.Nodup.map_on ?_ (List.Nodup.of_map Prod.snd ?_)
    · rintro ⟨c, i⟩ - ⟨d, j⟩ - heq
      simp only [ordinaryPlace, Prod.mk.injEq, ParentLocation.ordinaryIndex.injEq] at heq
      simp [heq]
    · rw [List.zipIdx_map_snd]
      exact List.nodup_range'

theorem locations_fst : (locations id e).map Prod.fst = match e.keyedChildren with
    | some order => (entriesOf order).map fun entry => entry.2.1
    | none => e.node.children := by
  unfold locations
  split
  · rw [List.map_map]
    rfl
  · rw [List.map_map]
    exact List.zipIdx_map_fst _ _

theorem children_of {ε : Type} (h : Shape g) (id : ℕ) :
    (g.childrenOf id : Except (Failure ε) _) = .ok (((forest g).kids id).map Prod.fst) := by
  unfold MountedGraph.childrenOf
  cases he : g.nodes.get id with
  | none => simp [Forest.kids, forest, he]
  | some e =>
    rw [kids_eq he, locations_fst]
    cases ho : e.keyedChildren with
    | none => simp [ho]
    | some o =>
      obtain ⟨l, hl⟩ := h.orders he ho
      obtain ⟨cs, hcs, heq⟩ := forward_eq hl
      simp only [ho, MountedGraph.orderRoots, hcs, entries_of hl, ← heq, List.map_map]
      rfl

theorem children_of_rev {ε : Type} (h : Shape g) (id : ℕ) :
    (g.childrenOfRev id : Except (Failure ε) _) =
      .ok (((forest g).kids id).map Prod.fst).reverse := by
  unfold MountedGraph.childrenOfRev
  cases he : g.nodes.get id with
  | none => simp [Forest.kids, forest, he]
  | some e =>
    rw [kids_eq he, locations_fst]
    cases ho : e.keyedChildren with
    | none => simp [ho]
    | some o =>
      obtain ⟨l, hl⟩ := h.orders he ho
      obtain ⟨cs, hcs, heq⟩ := backward_eq hl
      simp only [ho, MountedGraph.orderRoots, hcs, entries_of hl]
      rw [← List.map_reverse, ← heq, List.map_map]
      rfl

theorem mem_keyed {o : KeyedChildOrder K} {l : KeyedList K (ℕ × ℕ)} (hl : Represents o l) {c : ℕ}
    {loc : ParentLocation K} : (c, loc) ∈ (entriesOf o).map (keyedPlace id) ↔
      ∃ k i, loc = .keyed id k i ∧ l.get k = some (c, i) := by
  rw [entries_of hl, List.mem_map]
  constructor
  · rintro ⟨⟨k, r, i⟩, hmem, heq⟩
    obtain ⟨rfl, rfl⟩ := Prod.mk.inj heq
    exact ⟨k, i, rfl, mem_entries_iff.mp hmem⟩
  · rintro ⟨k, i, rfl, hget⟩
    exact ⟨(k, c, i), mem_entries_iff.mpr hget, rfl⟩

theorem finite_mounted (g : MountedGraph K) : {id | (forest g).Mounted id}.Finite := by
  refine g.nodes.keys.finite_toSet.subset fun id hid => ?_
  exact FiniteMap.mem_keys.mpr (mounted_iff.mp hid)

end Forest

section WellFormed

def ChildOf (g : MountedGraph K) (parent child : ℕ) : Prop :=
  ∃ children, (g.childrenOf parent : Except (Failure Empty) _) = .ok children ∧ child ∈ children

def Reaches (g : MountedGraph K) : ℕ → ℕ → Prop := Relation.ReflTransGen (ChildOf g)

def StandsAt (g : MountedGraph K) (child : ℕ) : ParentLocation K → Prop
  | .ordinaryIndex parent index => ∃ e, g.nodes.get parent = some e ∧ e.keyedChildren = none ∧
      e.node.children[index]? = some child
  | .keyed container key instanceId => ∃ e order items item, g.nodes.get container = some e ∧
      e.keyedChildren = some order ∧ forward order = .ok items ∧ (key, item) ∈ items ∧
      item.root = child ∧ item.instanceId = instanceId

/-- The nodes form one tree under the root; every parent location is exact and every
size is a count. -/
structure Tree (g : MountedGraph K) : Prop where
  rooted : ∀ r ∈ g.root, (g.nodes.get r).isSome ∧ g.parentLocation r = none
  reached : ∀ id, (g.nodes.get id).isSome → ∃ r, g.root = some r ∧ Reaches g r id
  located : ∀ child location, g.parentLocation child = some location ↔ StandsAt g child location
  readable : ∀ id e order, g.nodes.get id = some e → e.keyedChildren = some order →
    ∃ items, forward order = .ok items
  sized : ∀ id e, g.nodes.get id = some e → e.subtreeSize = {d | Reaches g id d}.ncard

/-- The root of every keyed item is a boundary with the instance of the item. -/
def ItemsBounded (g : MountedGraph K) : Prop := ∀ id e order items, g.nodes.get id = some e →
  e.keyedChildren = some order → forward order = .ok items → ∀ item ∈ items,
    ∃ root, g.node item.2.root = some root ∧ root.kind = .boundary item.2.instanceId

/-- The same, told by the places of the roots. -/
def Bounded (g : MountedGraph K) : Prop := ∀ c container key instanceId,
  g.parentLocation c = some (.keyed container key instanceId) →
    (g.node c).map (·.kind) = some (.boundary instanceId)

def WellFormed (g : MountedGraph K) : Prop := Tree g ∧ ItemsBounded g

variable {g : MountedGraph K}

theorem child_of_iff (h : Shape g) {p c : ℕ} : ChildOf g p c ↔ (forest g).Child p c := by
  rw [ChildOf, children_of h]
  simp [Forest.Child]

theorem reaches_iff (h : Shape g) {a b : ℕ} : Reaches g a b ↔ (forest g).Below a b := by
  have same : ChildOf g = (forest g).Child := by
    funext p c
    exact propext (child_of_iff h)
  rw [Reaches, same, Forest.Below]

theorem stands_at_iff (h : Shape g) {c : ℕ} {loc : ParentLocation K} :
    StandsAt g c loc ↔ (c, loc) ∈ (forest g).kids loc.parent := by
  cases loc with
  | ordinaryIndex p i =>
    cases he : g.nodes.get p with
    | none => simp [StandsAt, ParentLocation.parent, Forest.kids, forest, he]
    | some e =>
      rw [show (ParentLocation.ordinaryIndex p i : ParentLocation K).parent = p from rfl, kids_eq he]
      cases ho : e.keyedChildren with
      | some o => simp [StandsAt, he, ho, locations, keyedPlace]
      | none => simp [StandsAt, he, ho, locations, ordinaryPlace, List.mk_mem_zipIdx_iff_getElem?]
  | keyed p key instanceId =>
    cases he : g.nodes.get p with
    | none => simp [StandsAt, ParentLocation.parent, Forest.kids, forest, he]
    | some e =>
      rw [show (ParentLocation.keyed p key instanceId : ParentLocation K).parent = p from rfl,
        kids_eq he]
      cases ho : e.keyedChildren with
      | none => simp [StandsAt, he, ho, locations, ordinaryPlace]
      | some o =>
        obtain ⟨l, hl⟩ := h.orders he ho
        obtain ⟨cs, hcs, heq⟩ := forward_eq hl
        simp only [StandsAt, he, ho, hcs, locations, entriesOf, List.map_map, List.mem_map]
        constructor
        · rintro ⟨e', o', cs', child, he', ho', hcs', hmem, rfl, rfl⟩
          cases he'
          cases ho.symm.trans ho'
          cases hcs.symm.trans hcs'
          exact ⟨(key, child), hmem, rfl⟩
        · rintro ⟨⟨k, child⟩, hmem, heq'⟩
          simp only [Function.comp, item, keyedPlace, Prod.mk.injEq, ParentLocation.keyed.injEq,
            true_and] at heq'
          obtain ⟨rfl, rfl, rfl⟩ := heq'
          exact ⟨e, o, cs, child, rfl, ho, hcs, hmem, rfl, rfl⟩

omit [DecidableEq K] in
theorem mounted_of_parent {c : ℕ} {loc : ParentLocation K} (h : g.parentLocation c = some loc) :
    (g.nodes.get c).isSome := by
  cases he : g.nodes.get c with
  | none => simp [MountedGraph.parentLocation, he] at h
  | some e => rfl

theorem items_bounded (h : Shape g) (bounded : Bounded g) : ItemsBounded g := by
  intro id e o items he ho hitems item hmem
  have stands : StandsAt g item.2.root (.keyed id item.1 item.2.instanceId) :=
    ⟨e, o, items, item.2, he, ho, hitems, hmem, rfl, rfl⟩
  have hkind := bounded _ _ _ _ (h.linked.placed ((stands_at_iff h).mp stands)).2
  exact Option.map_eq_some_iff.mp hkind

theorem tree_of_shape (h : Shape g) : Tree g := by
  refine ⟨fun r hr => ?_, fun id hid => ?_, fun c loc => ?_, fun id e o he ho => ?_, fun id e he => ?_⟩
  · obtain ⟨hm, hp⟩ := h.linked.rooted r hr
    exact ⟨mounted_iff.mp hm, hp⟩
  · obtain ⟨r, hr, hbelow⟩ :=
      PointerTrees.reached h.linked h.weighed (finite_mounted g) (mounted_iff.mpr hid)
    exact ⟨r, hr, (reaches_iff h).mpr hbelow⟩
  · rw [stands_at_iff h]
    constructor
    · intro hp
      exact h.linked.listed (mounted_iff.mpr (mounted_of_parent hp)) hp
    · intro hc
      exact (h.linked.placed hc).2
  · obtain ⟨l, hl⟩ := h.orders he ho
    exact (forward_eq hl).imp fun cs hcs => hcs.1
  · have hcount := weight_eq_ncard (a := id) h.linked h.weighed (mounted_iff.mpr (by simp [he]))
    rw [weight_eq he] at hcount
    rw [hcount]
    congr 1
    ext d
    exact (reaches_iff h).symm

end WellFormed

end GraphForests
