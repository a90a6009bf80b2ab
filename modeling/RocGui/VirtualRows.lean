import RocGui.GraphRuns
import RocGui.Popovers

/-! The rows of virtual lists that have native views, and the counts kept of those views. -/
namespace VirtualRows

open FiniteMaps Methods KeyedOrder GraphState GraphPatches GraphForests GraphRuns Popovers Transitions

section Model

/-- The count that a checked subtraction would make negative. -/
inductive Shortfall where
  | ancestor | row | list | cachedList
  deriving DecidableEq

/-- `VirtualListCache`. -/
structure Summary where
  rows : Finset ℕ
  entities : ℕ

/-- The fields of the runtime that keep the virtual rows. A native view is named by the node that
it shows: `shown` lists, for the view of a node, the nodes of the views below it, and `views` and
`entities` keep the counts that stand beside the views. -/
structure Cache where
  views : FiniteMap (ℕ × ℕ) ℕ
  rowOwners : FiniteMap ℕ ℕ
  lists : FiniteMap ℕ Summary
  entities : FiniteMap ℕ ℕ
  preserved : Finset ℕ
  frames : FiniteMap ℕ (ℕ × ℕ)
  shown : FiniteMap ℕ (List ℕ)

def Cache.empty : Cache := ⟨∅, ∅, ∅, ∅, ∅, ∅, ∅⟩

abbrev CacheMethod (α : Type) := Method Cache Shortfall α

def checkedSub (which : Shortfall) (n m : ℕ) : CacheMethod ℕ :=
  if m ≤ n then return n - m else refuse which

def cacheVirtualRow (list item entities : ℕ) : CacheMethod Unit := do
  let c ← get
  if (c.rowOwners.get item).isSome then panics "virtual row already cached"
  let summary := (c.lists.get list).getD ⟨∅, 0⟩
  set { c with
    rowOwners := c.rowOwners.set item list
    lists := c.lists.set list ⟨insert item summary.rows, summary.entities + entities⟩
    views := c.views.set (list, item) entities }

/-- The count of the row that is no longer cached. -/
def uncacheVirtualRow (list item : ℕ) : CacheMethod (Option ℕ) := do
  let c ← get
  match c.views.get (list, item) with
  | none => return none
  | some cached => do
    let summary ← expect "cached virtual list" (c.lists.get list)
    let entities ← checkedSub .cachedList summary.entities cached
    let rows := summary.rows.erase item
    set { c with
      rowOwners := c.rowOwners.remove item
      lists := if rows = ∅ then c.lists.remove list else c.lists.set list ⟨rows, entities⟩
      views := c.views.remove (list, item) }
    return some cached

/-- The cached rows of a list that has left the stack of `forget_virtual_subtree`; it answers the
rows that had a view. -/
def uncacheRows (list : ℕ) : List ℕ → CacheMethod (List ℕ)
  | [] => return []
  | row :: rest => do
    let cached ← uncacheVirtualRow list row
    let others ← uncacheRows list rest
    return if cached.isSome then row :: others else others

def rowsOf (c : Cache) (list : ℕ) : Finset ℕ := ((c.lists.get list).map (·.rows)).getD ∅

/-- `forget_virtual_subtree`; the top of its stack comes first. -/
def forgetFrom : ℕ → List ℕ → CacheMethod Unit
  | _, [] => return ()
  | 0, _ :: _ => throw .diverges
  | fuel + 1, id :: pending => do
    let c ← get
    let children := (c.shown.get id).getD []
    let rows ← uncacheRows id (ascending (rowsOf c id))
    modify fun c => { c with
      entities := c.entities.remove id
      preserved := c.preserved.erase id }
    forgetFrom fuel (rows.reverse ++ children.reverse ++ pending)

variable {K : Type} [DecidableEq K] (g : MountedGraph K)

def isList (id : ℕ) : Bool :=
  match (g.node id).map Node.kind with
  | some (.virtualList ..) => true
  | _ => false

def isItem (id : ℕ) : Bool :=
  match (g.node id).map Node.kind with
  | some (.virtualItem _) => true
  | _ => false

/-- The children that are built with a node: a list builds its rows on its own. -/
def builtChildren (id : ℕ) : CacheMethod (List ℕ) :=
  if isList g id then return [] else MonadExcept.ofExcept (g.childrenOf id)

def countOf (child : ℕ) : CacheMethod ℕ := do
  expect "built virtual child" ((← get).entities.get child)

/-- `Work::Finish`: the view of a node whose children have theirs. -/
def finishNode (id : ℕ) : CacheMethod Unit := do
  let _ ← expect "virtual node is missing" (g.node id)
  let children ← builtChildren g id
  let counts ← children.mapM countOf
  modify fun c => { c with
    shown := c.shown.set id children
    entities := c.entities.set id (counts.sum + 1) }

/-- `build_virtual_node`. What its stack does is written as a recursion: a node is entered, its
children are built in order, and it is finished. -/
def buildNode : ℕ → ℕ → CacheMethod Unit
  | 0, _ => throw .diverges
  | fuel + 1, id => do
    let c ← get
    modify fun c => { c with preserved := c.preserved.erase id }
    if id ∈ c.preserved ∧ (c.entities.get id).isSome then return ()
    let _ ← expect "virtual node is missing" (g.node id)
    let children ← builtChildren g id
    children.forM (buildNode fuel)
    finishNode g id

def buildVirtualNode (id : ℕ) : CacheMethod ℕ := do
  buildNode g g.climb id
  expect "built virtual root" ((← get).entities.get id)

end Model

section Patches

variable {K : Type} [DecidableEq K] (g : MountedGraph K)

def resizeNode (oldEntities newEntities id : ℕ) : CacheMethod Unit := do
  let c ← get
  match c.entities.get id with
  | none => return ()
  | some count => do
    let rest ← checkedSub .ancestor count oldEntities
    modify fun c => { c with entities := c.entities.set id (rest + newEntities) }

def resizeRow (oldEntities newEntities id : ℕ) : CacheMethod Unit := do
  let c ← get
  match c.rowOwners.get id with
  | none => return ()
  | some list => do
    let count ← expect "indexed virtual row" (c.views.get (list, id))
    let rest ← checkedSub .row count oldEntities
    let summary ← expect "indexed virtual list" (c.lists.get list)
    let others ← checkedSub .list summary.entities oldEntities
    modify fun c => { c with
      views := c.views.set (list, id) (rest + newEntities)
      lists := c.lists.set list { summary with entities := others + newEntities } }

/-- The walk from the parent of a rebuilt subtree up to its list. -/
def resizeAncestors (oldEntities newEntities : ℕ) : ℕ → Option ℕ → CacheMethod Unit
  | _, none => return ()
  | 0, some _ => throw .diverges
  | fuel + 1, some id =>
    if isList g id then return ()
    else do
      resizeNode oldEntities newEntities id
      resizeRow oldEntities newEntities id
      resizeAncestors oldEntities newEntities fuel ((parentOf g id).map (·.1))

/-- The rows that a patch retires, or whose list it retires. -/
def affectedRows (removed : List ℕ) (c : Cache) : Finset ℕ :=
  removed.toFinset.filter (fun id => (c.rowOwners.get id).isSome) ∪ removed.toFinset.biUnion (rowsOf c)

/-- An affected row leaves its list. One that is still a row goes to the list it stands in now. -/
def moveRow (item : ℕ) : CacheMethod Unit := do
  let list ← expect "no entry found for key" ((← get).rowOwners.get item)
  let cached ← expect "affected virtual row" (← uncacheVirtualRow list item)
  match ((parentOf g item).map (·.1)).filter fun parent => isList g parent with
  | some owner => cacheVirtualRow owner item cached
  | none => return ()

/-- The retired nodes lose their views. -/
def dropViews (removed : List ℕ) : CacheMethod Unit :=
  modify fun c => { c with
    entities := c.entities.retain fun id _ => id ∉ removed
    preserved := c.preserved.filter fun id => id ∉ removed }

/-- A rebuilt subtree takes the place of the old one among the views of a row. -/
def rebuildIn (root parent position old : ℕ) : CacheMethod Unit := do
  let new ← buildVirtualNode g root
  resizeAncestors g old new g.climb (some parent)
  modify fun c => { c with
    shown := c.shown.set parent (((c.shown.get parent).getD []).set position root) }

/-- The count of the subtree that stands where the new one will be hung. -/
def oldVirtualEntities : Option (ℕ × ℕ) → CacheMethod ℕ
  | none => return 0
  | some (parent, position) => do
    let c ← get
    let root ← expect "index out of bounds" ((c.shown.get parent).getD [])[position]?
    expect "no entry found for key" (c.entities.get root)

/-- What `apply_to_gpui` does to the rows; `g` is the graph after the patch. -/
def applyReplaced (applied : GraphApply K) : CacheMethod Unit := do
  let c ← get
  let virtualParent := applied.parent.filter fun place => (c.entities.get place.1).isSome
  let old ← oldVirtualEntities virtualParent
  modify fun c => { c with
    preserved := c.preserved ∪ applied.retainedRoots.toFinset.filter fun id => (c.entities.get id).isSome }
  (ascending (affectedRows applied.removedIds c)).forM (moveRow g)
  match applied.root, virtualParent with
  | some root, some (parent, position) => rebuildIn g root parent position old
  | _, _ => pure ()
  dropViews applied.removedIds

/-- `apply_keyed_to_gpui`. A column in a row has no view among those that are edited. -/
def applyKeyedToGpui (applied : GraphApply K) : CacheMethod Unit := do
  let container ← expect "keyed patch container" applied.root
  if ((← get).entities.get container).isSome then panics "no entry found for key"
  dropViews applied.removedIds

/-- What the runtime does with an accepted patch. -/
def applyToGpui (applied : GraphApply K) : CacheMethod Unit :=
  if applied.facts.kind = "no_change" then return ()
  else if applied.facts.kind = "keyed" then applyKeyedToGpui applied
  else applyReplaced g applied

end Patches

section Frames

variable {K : Type} [DecidableEq K] (g : MountedGraph K)

/-- The index of a list's first mounted row: zero unless its rows are provided. -/
def providedFirst : NodeKind K → ℕ
  | .virtualList _ _ (some rows) => rows.first
  | _ => 0

def rowAt (list : Node K) (index : ℕ) : Option ℕ :=
  if providedFirst list.kind ≤ index then list.children[index - providedFirst list.kind]? else none

def rowsIn (list : Node K) (start stop : ℕ) : List ℕ :=
  (List.range' start (stop - start)).filterMap (rowAt list)

/-- A row that is shown is built unless it is cached. -/
def showRow (list item : ℕ) : CacheMethod Unit := do
  if ((← get).views.get (list, item)).isSome then return ()
  let entities ← buildVirtualNode g item
  cacheVirtualRow list item entities

def virtualRange (list start stop : ℕ) : CacheMethod Unit := do
  let node ← expect "virtual list is missing" (g.node list)
  let wanted := rowsIn node start stop
  wanted.forM (showRow g list)
  modify fun c => { c with frames := c.frames.set list (start, stop) }
  if ¬∀ item ∈ wanted, isItem g item then panics "virtual list child is not an item"

/-- Whether the walk from a preserved subtree meets `list` from below a row that is not kept. -/
def abandonedFrom (list : ℕ) (kept : Finset ℕ) : ℕ → ℕ → Except (Failure Shortfall) Bool
  | 0, _ => .error .diverges
  | fuel + 1, id =>
    match parentOf g id with
    | none => .ok false
    | some (parent, _) =>
      if parent = list then .ok (id ∉ kept) else abandonedFrom list kept fuel parent

/-- The preserved subtrees under rows that are not kept. -/
def abandonedOf (list : ℕ) (kept : Finset ℕ) : List ℕ → Except (Failure Shortfall) (List ℕ)
  | [] => .ok []
  | id :: rest => do
    let abandoned ← abandonedFrom g list kept g.climb id
    let others ← abandonedOf list kept rest
    return if abandoned then id :: others else others

/-- The rows a frame keeps: those of its range, and the one that is measured. -/
def keptRows (list : Node K) (range : ℕ × ℕ) : Finset ℕ :=
  (rowsIn list range.1 range.2).toFinset ∪ (rowAt list 0).toFinset

def evictRow (list item : ℕ) : CacheMethod Unit := do
  let _ ← expect "virtual cache disappeared" (← uncacheVirtualRow list item)
  forgetFrom (g.climb + 1) [item]

def forgetAbandoned (id : ℕ) : CacheMethod Unit := do
  if ((← get).entities.get id).isSome then forgetFrom (g.climb + 1) [id]

def finishVirtualFrame (list : ℕ) : CacheMethod Unit := do
  match (← get).frames.get list with
  | none => return ()
  | some range => do
    modify fun c => { c with frames := c.frames.remove list }
    match g.node list with
    | none => return ()
    | some node =>
      if ¬isList g list then return ()
      else do
        let kept := keptRows node range
        let evicted := (rowsOf (← get) list).filter fun item => item ∉ kept
        (ascending evicted).forM (evictRow g list)
        let abandoned ← MonadExcept.ofExcept (abandonedOf g list kept (ascending (← get).preserved))
        abandoned.forM (forgetAbandoned g)

end Frames

section Runs

variable {K : Type} [DecidableEq K]

structure Window (K : Type) where
  graph : MountedGraph K
  cache : Cache

inductive Event (K : Type) where
  | patch (patch : Patch K)
  /-- The row callback of a list. -/
  | range (list start stop : ℕ)
  /-- The frame of a list has been drawn. -/
  | settle (list : ℕ)

/-- A node stands below a virtual list. -/
def UnderList (g : MountedGraph K) (x : ℕ) : Prop :=
  ∃ a, isList g a = true ∧ Relation.TransGen (forest g).Child a x

/-- What is done to the rows at an event. A row callback comes from the native view of its list. -/
inductive Call (w : Window K) : Event K → MountedGraph K → CacheMethod Unit → Prop where
  | patch {patch : Patch K} {hashOrder : Enumeration K (Option (KeyedChild K))}
      {applied : GraphApply K} {g : MountedGraph K} :
      (apply hashOrder patch).run w.graph = .ok applied g →
      Call w (.patch patch) g (applyToGpui g applied)
  | range {list start stop : ℕ} : isList w.graph list = true →
      (w.cache.entities.get list).isSome ∨ ¬UnderList w.graph list →
      Call w (.range list start stop) w.graph (virtualRange w.graph list start stop)
  | settle {list : ℕ} : Call w (.settle list) w.graph (finishVirtualFrame w.graph list)

/-- The runs of accepted patches, row callbacks and settled frames. -/
def virtualRows (K : Type) [DecidableEq K] : System (Window K) (Event K) where
  initial := ⟨.empty, .empty⟩
  Step w e w' := ∃ m, Call w e w'.graph m ∧ m.run w.cache = .ok () w'.cache

end Runs

end VirtualRows
