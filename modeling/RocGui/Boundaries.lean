import RocGui.Hosts

/-! The runtime's records of boundaries and routes, and those of the boundary that is being
built. -/
namespace Boundaries

open Actions Elements FiniteMaps Hosts KeyedFallbacks KeyedSeqs Styles

/-- The routes an owner registered, in chunks of at most 64, the newest chunk first. -/
inductive RouteIds where
  | empty
  | chunk (head : List ℕ) (tail : RouteIds)
  deriving DecidableEq

namespace RouteIds

def append : RouteIds → ℕ → RouteIds
  | .empty, id => .chunk [id] .empty
  | .chunk head tail, id =>
    if head.length < 64 then .chunk (head ++ [id]) tail else .chunk [id] (.chunk head tail)

def fold {β : Type} : RouteIds → β → (β → ℕ → β) → β
  | .empty, initial, _ => initial
  | .chunk head tail, initial, visit => tail.fold (head.foldl visit initial) visit

def toList : RouteIds → List ℕ
  | .empty => []
  | .chunk head tail => head ++ tail.toList

instance : Membership ℕ RouteIds := ⟨fun ids id => id ∈ ids.toList⟩

theorem mem_iff {ids : RouteIds} {id : ℕ} : id ∈ ids ↔ id ∈ ids.toList := Iff.rfl

@[simp] theorem not_mem_empty (id : ℕ) : id ∉ RouteIds.empty := by
  simp [mem_iff, toList]

@[simp] theorem mem_append (ids : RouteIds) (id x : ℕ) :
    x ∈ ids.append id ↔ x ∈ ids ∨ x = id := by
  cases ids with
  | empty => simp [mem_iff, append, toList]
  | chunk head tail =>
    rw [append]
    split
    · simp only [mem_iff, toList, List.mem_append, List.mem_singleton]
      rw [or_right_comm]
    · simp only [mem_iff, toList, List.mem_append, List.mem_singleton]
      rw [or_comm]

theorem fold_eq {β : Type} (ids : RouteIds) (initial : β) (visit : β → ℕ → β) :
    ids.fold initial visit = ids.toList.foldl visit initial := by
  induction ids generalizing initial with
  | empty => rfl
  | chunk head tail ih => rw [fold, ih, toList, List.foldl_append]

end RouteIds

section Records

variable (α H : Type)

structure Route where
  boundary : ℕ
  id : ℕ
  revision : ℕ
  fire : α → String → HostM H (Action α)

/-- `memo` is `none` for `Unknown`. -/
structure BoundaryInfo where
  key : ℕ
  parent : Option ℕ
  path : List ℕ
  render : α → Checked (Elem α)
  root : ℕ
  bound : Option (BoundComponent α (Elem α))
  memo : Option (α → Checked Bool)
  revision : ℕ
  routeIds : RouteIds
  children : List ℕ
  keyedContainer : ℕ
  keyedRevision : ℕ
  keyedItems : KeyedSeq Key ℕ
  keyed : Option Frame

structure BuildingOwner where
  key : ℕ
  revision : ℕ
  path : List ℕ
  routeIds : RouteIds
  children : List ℕ
  keyedContainer : ℕ
  keyedRevision : ℕ
  keyedKeys : List Key
  keyed : Option Frame

/-- The active owner stays out of the index until it is complete. -/
structure BuildingOwners where
  stored : FiniteMap ℕ (BoundaryInfo α)
  active : BuildingOwner

structure Building where
  boundaries : BuildingOwners α
  root : ℕ
  routes : FiniteMap ℕ (Route α H)

end Records

variable {α H : Type}

def recordRoute (boundaries : BuildingOwners α) (key id : ℕ) : Checked (BuildingOwners α) :=
  if boundaries.active.key ≠ key then crash "mismatched route owner"
  else pure { boundaries with
    active := { boundaries.active with routeIds := boundaries.active.routeIds.append id } }

def Building.register (built : Building α H) (active id : ℕ)
    (fire : α → String → HostM H (Action α)) : Checked (Building α H) := do
  let route := ⟨active, id, built.boundaries.active.revision, fire⟩
  let boundaries ← recordRoute built.boundaries active id
  pure { built with routes := built.routes.set id route, boundaries }

end Boundaries
