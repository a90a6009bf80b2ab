import RocGui.OrderTables

/-! The stable-slot order tree: nodes of at most 32 entries that name each other by id,
with a parent table and the leaf of every slot beside them. -/
namespace OrderTrees

open FiniteMaps Methods OrderTables

variable {ε σ : Type}

inductive RowsOrderNode where
  | branch (children : List ℕ) (len : ℕ)
  | leaf (slots : List ℕ) (len : ℕ)
  deriving DecidableEq, Repr

inductive RowsOrderParent where
  | child (node child : ℕ)
  | root
  deriving DecidableEq, Repr

structure RowsOrder where
  root : ℕ
  nodes : RowsOrderTable RowsOrderNode
  parents : RowsOrderTable RowsOrderParent
  slotLeaf : RowsOrderTable ℕ
  nextNode : ℕ
  freeNodes : List ℕ
  deriving DecidableEq

def RowsOrderNode.length : RowsOrderNode → ℕ
  | .leaf _ len | .branch _ len => len

def orderEmpty : Except (Failure ε) RowsOrder := do
  let nodes ← tableSet ∅ 1 (.leaf [] 0)
  let parents ← tableSet ∅ 1 .root
  pure ⟨1, nodes, parents, ∅, 2, []⟩

def maxId : ℕ := 2 ^ 64 - 1

def exhausted : Failure ε := .panic "Rows order node id space exhausted"

def allocateNode (order : RowsOrder) : Except (Failure ε) (ℕ × RowsOrder) :=
  match order.freeNodes with
  | node :: rest => .ok (node, { order with freeNodes := rest })
  | [] =>
    if order.nextNode = maxId then .error exhausted
    else .ok (order.nextNode, { order with nextNode := order.nextNode + 1 })

def getNode (order : RowsOrder) (message : String) (id : ℕ) :
    Except (Failure ε) RowsOrderNode := do
  orCrash message (← tableGet order.nodes id)

def orderLen (order : RowsOrder) : Except (Failure ε) ℕ := do
  return (← getNode order "Rows order root was missing" order.root).length

/-- The child an index falls in, if any, and what remains of the index there. At the end
of the last child the index still falls in it when `allowEnd`. -/
def seekChild (order : RowsOrder) (message : String) (allowEnd : Bool) :
    List ℕ → ℕ → ℕ → Except (Failure ε) (Option ℕ × ℕ)
  | [], _, remaining => .ok (none, remaining)
  | child :: children, index, remaining => do
    let len := (← getNode order message child).length
    if remaining < len ∨ (allowEnd ∧ remaining = len ∧ children = []) then
      return (some index, remaining)
    seekChild order message allowEnd children (index + 1) (remaining - len)

structure RowsOrderLocation where
  leaf : ℕ
  offset : ℕ
  deriving DecidableEq, Repr

def locateNode : ℕ → RowsOrder → ℕ → ℕ → Bool → Except (Failure ε) RowsOrderLocation
  | 0, _, _, _, _ => .error .diverges
  | fuel + 1, order, nodeId, index, allowEnd => do
    match ← getNode order "Rows order node was missing" nodeId with
    | .leaf slots _ =>
      if index < slots.length ∨ (allowEnd ∧ index = slots.length) then
        return ⟨nodeId, index⟩
      .error (.panic "Rows order index exceeded its leaf")
    | .branch children len =>
      if len < index ∨ (allowEnd = false ∧ index = len) then
        .error (.panic "Rows order index exceeded its branch")
      else
        let (found, remaining) ←
          seekChild order "Rows order child was missing" allowEnd children 0 index
        let chosen ← orCrash "Rows order branch had no child"
          children[found.getD (children.length - 1)]?
        locateNode fuel order chosen remaining allowEnd

/-- No path is longer than the number of ids handed out. -/
def orderLocate (order : RowsOrder) (index : ℕ) (allowEnd : Bool) :
    Except (Failure ε) RowsOrderLocation :=
  locateNode order.nextNode order order.root index allowEnd

def childrenLen (order : RowsOrder) (children : List ℕ) : Except (Failure ε) ℕ :=
  children.foldlM (fun len child => do
    let node ← getNode order "Rows order child was missing while measuring" child
    pure (len + node.length)) 0

def climb : ℕ → RowsOrder → ℕ → ℕ → Except (Failure ε) ℕ
  | 0, _, _, _ => .error .diverges
  | fuel + 1, order, visits, node => do
    match ← orCrash "KeyedSeq path parent missing" (← tableGet order.parents node) with
    | .root => pure visits
    | .child parent _ => climb fuel order (visits + 1) parent

def pathVisits (order : RowsOrder) (index : ℕ) (allowEnd : Bool) : Except (Failure ε) ℕ := do
  let location ← orderLocate order index allowEnd
  climb order.nextNode order 1 location.leaf

/-- Makes these the children of a parent, from an index on. -/
def parentFrom (parent : ℕ) : List ℕ → ℕ → RowsOrderTable RowsOrderParent →
    Except (Failure ε) (RowsOrderTable RowsOrderParent)
  | [], _, parents => .ok parents
  | child :: children, index, parents => do
    let parents ← tableSet parents child (.child parent index)
    parentFrom parent children (index + 1) parents

def setChildParents (order : RowsOrder) (parent : ℕ) (children : List ℕ) :
    Except (Failure ε) RowsOrder := do
  let parents ← parentFrom parent children 0 order.parents
  pure { order with parents }

def settleSlots (leaf : ℕ) (slots : List ℕ) (slotLeaf : RowsOrderTable ℕ) :
    Except (Failure ε) (RowsOrderTable ℕ) :=
  slots.foldlM (fun table slot => tableSet table slot leaf) slotLeaf

/-- What an insertion leaves in a node's place. -/
structure RowsOrderRewrite where
  order : RowsOrder
  replacements : List ℕ
  deriving DecidableEq

def insertLeaf (order : RowsOrder) (nodeId : ℕ) (slots : List ℕ) (len index slot : ℕ) :
    Except (Failure ε) RowsOrderRewrite := do
  let inserted := slots.take index ++ [slot] ++ slots.drop index
  if inserted.length ≤ 32 then
    let nodes ← tableSet order.nodes nodeId (.leaf inserted (len + 1))
    let slotLeaf ← tableSet order.slotLeaf slot nodeId
    return ⟨{ order with nodes, slotLeaf }, [nodeId]⟩
  let left := inserted.take 16
  let right := inserted.drop 16
  let (rightId, order) ← allocateNode order
  let nodes ← tableSet order.nodes nodeId (.leaf left left.length)
  let nodes ← tableSet nodes rightId (.leaf right right.length)
  let slotLeaf ← settleSlots nodeId left order.slotLeaf
  let slotLeaf ← settleSlots rightId right slotLeaf
  let parent ← orCrash "Rows order leaf parent was missing" (← tableGet order.parents nodeId)
  let parents ← tableSet order.parents rightId parent
  return ⟨{ order with nodes, parents, slotLeaf }, [nodeId, rightId]⟩

/-- A branch once one of its children was rewritten. -/
def insertBranch (order : RowsOrder) (nodeId : ℕ) (children : List ℕ) (len : ℕ) :
    Except (Failure ε) RowsOrderRewrite := do
  if children.length ≤ 32 then
    let nodes ← tableSet order.nodes nodeId (.branch children (len + 1))
    return ⟨← setChildParents { order with nodes } nodeId children, [nodeId]⟩
  let left := children.take 16
  let right := children.drop 16
  let (rightId, allocated) ← allocateNode order
  let leftLen ← childrenLen order left
  let rightLen ← childrenLen order right
  let nodes ← tableSet allocated.nodes nodeId (.branch left leftLen)
  let nodes ← tableSet nodes rightId (.branch right rightLen)
  let parent ← orCrash "Rows order branch parent was missing"
    (← tableGet allocated.parents nodeId)
  let parents ← tableSet allocated.parents rightId parent
  let order ← setChildParents { allocated with nodes, parents } nodeId left
  let order ← setChildParents order rightId right
  return ⟨order, [nodeId, rightId]⟩

def insertNode : ℕ → RowsOrder → ℕ → ℕ → ℕ → Except (Failure ε) RowsOrderRewrite
  | 0, _, _, _, _ => .error .diverges
  | fuel + 1, order, nodeId, index, slot => do
    match ← getNode order "Rows order insertion node was missing" nodeId with
    | .leaf slots len => insertLeaf order nodeId slots len index slot
    | .branch children len =>
      let (found, remaining) ←
        seekChild order "Rows order branch child node was missing" true children 0 index
      let chosen := found.getD (children.length - 1)
      let chosenId ← orCrash "Rows order branch had no insertion child" children[chosen]?
      let rewrite ← insertNode fuel order chosenId remaining slot
      insertBranch rewrite.order nodeId
        (children.take chosen ++ rewrite.replacements ++ children.drop (chosen + 1)) len

def orderInsert (order : RowsOrder) (index slot : ℕ) : Except (Failure ε) RowsOrder := do
  if (← orderLen order) < index then
    .error (.panic "Rows order insertion index exceeded its length")
  else
    let rewrite ← insertNode order.nextNode order order.root index slot
    if rewrite.replacements.length = 1 then
      return rewrite.order
    let (rootId, allocated) ← allocateNode rewrite.order
    let rootLen ← childrenLen rewrite.order rewrite.replacements
    let nodes ← tableSet allocated.nodes rootId (.branch rewrite.replacements rootLen)
    let parents ← tableSet allocated.parents rootId .root
    setChildParents { allocated with root := rootId, nodes, parents } rootId rewrite.replacements

structure RowsOrderRemoval where
  order : RowsOrder
  removed : ℕ
  replacements : List ℕ
  deriving DecidableEq

/-- Takes an emptied node out, or writes what it still holds. -/
def keepUnless (empty : Bool) (order : RowsOrder) (nodeId : ℕ) (node : RowsOrderNode) :
    Except (Failure ε) (RowsOrder × List ℕ) := do
  if empty then
    let nodes ← tableRemove order.nodes nodeId
    let parents ← tableRemove order.parents nodeId
    return ({ order with nodes, parents, freeNodes := nodeId :: order.freeNodes }, [])
  let nodes ← tableSet order.nodes nodeId node
  return ({ order with nodes }, [nodeId])

def removeNode : ℕ → RowsOrder → ℕ → ℕ → Except (Failure ε) RowsOrderRemoval
  | 0, _, _, _ => .error .diverges
  | fuel + 1, order, nodeId, index => do
    match ← getNode order "Rows order removal node was missing" nodeId with
    | .leaf slots len =>
      let removed ← orCrash "Rows order removal index exceeded its leaf" slots[index]?
      let remaining := slots.take index ++ slots.drop (index + 1)
      let (order, replacements) ←
        keepUnless remaining.isEmpty order nodeId (.leaf remaining (len - 1))
      let slotLeaf ← tableRemove order.slotLeaf removed
      return ⟨{ order with slotLeaf }, removed, replacements⟩
    | .branch children len =>
      let (found, remaining) ←
        seekChild order "Rows order removal child node was missing" false children 0 index
      let chosen := found.getD 0
      let chosenId ← orCrash "Rows order removal branch had no child" children[chosen]?
      let removal ← removeNode fuel order chosenId remaining
      let replaced := children.take chosen ++ removal.replacements ++ children.drop (chosen + 1)
      let (order, replacements) ←
        keepUnless replaced.isEmpty removal.order nodeId (.branch replaced (len - 1))
      let order ← setChildParents order nodeId replaced
      return ⟨order, removal.removed, replacements⟩

/-- The order without a slot, and the slot. A root with one child gives way to it. -/
def orderRemove (order : RowsOrder) (index : ℕ) : Except (Failure ε) (RowsOrder × ℕ) := do
  let removal ← removeNode order.nextNode order order.root index
  match removal.replacements with
  | [] => return (← orderEmpty, removal.removed)
  | rootId :: _ =>
    let order := removal.order
    let root ← getNode order "Rows order removal root was missing" rootId
    match root with
    | .branch [child] _ =>
      if child = rootId then
        let parents ← tableSet order.parents child .root
        return ({ order with root := child, parents }, removal.removed)
      else
        let nodes ← tableRemove order.nodes rootId
        let parents ← tableRemove order.parents rootId
        let parents ← tableSet parents child .root
        return ({ order with
          root := child, nodes, parents, freeNodes := rootId :: order.freeNodes },
          removal.removed)
    | _ =>
      let parents ← tableSet order.parents rootId .root
      return ({ order with root := rootId, parents }, removal.removed)

/-- The slots in front of a child of a branch. -/
def siblingsLen (order : RowsOrder) (children : List ℕ) (child rank : ℕ) :
    Except (Failure ε) ℕ :=
  (List.range child).foldlM (fun rank sibling => do
    let id ← orCrash "Rows order sibling index was invalid" children[sibling]?
    let node ← getNode order "Rows order sibling was missing" id
    pure (rank + node.length)) rank

def rankFrom : ℕ → RowsOrder → ℕ → ℕ → Except (Failure ε) ℕ
  | 0, _, _, _ => .error .diverges
  | fuel + 1, order, rank, nodeId => do
    match ← orCrash "Rows order parent was missing" (← tableGet order.parents nodeId) with
    | .root => pure rank
    | .child parent child =>
      match ← getNode order "Rows order parent node was missing" parent with
      | .leaf _ _ => .error (.panic "Rows order parent was a leaf")
      | .branch children _ => rankFrom fuel order (← siblingsLen order children child rank) parent

def orderRank (order : RowsOrder) (slot : ℕ) : Except (Failure ε) (Option ℕ) := do
  match ← tableGet order.slotLeaf slot with
  | none => return none
  | some leafId =>
    match ← getNode order "Rows slot leaf was missing" leafId with
    | .branch _ _ => .error (.panic "Rows slot leaf named a branch")
    | .leaf slots _ =>
      if slot ∈ slots then
        return some (← rankFrom order.nextNode order (slots.idxOf slot) leafId)
      .error (.panic "Rows slot leaf did not contain its slot")

def foldNode (push : σ → ℕ → Except (Failure ε) σ) : ℕ → RowsOrder → ℕ → σ → Except (Failure ε) σ
  | 0, _, _, _ => .error .diverges
  | fuel + 1, order, nodeId, initial => do
    match ← getNode order "Rows order fold node was missing" nodeId with
    | .leaf slots _ => slots.foldlM push initial
    | .branch children _ =>
      children.foldlM (fun state child => foldNode push fuel order child state) initial

def orderFold (order : RowsOrder) (initial : σ) (push : σ → ℕ → Except (Failure ε) σ) :
    Except (Failure ε) σ :=
  foldNode push order.nextNode order order.root initial

end OrderTrees
