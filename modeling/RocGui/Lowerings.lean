import RocGui.Components
import RocGui.SlicedWalks

/-! Lowering an element tree to host nodes: with an explicit work stack, as the runtime does
it, and by recursion. -/
namespace Lowerings

open Boundaries Components ElementNodes Elements FiniteMaps Hosts KeyedFallbacks Methods
open SlicedWalks Styles

variable {α H : Type}

/-- What a lowering carries along: the active boundary, and what is built under it. -/
structure Lowering (α H : Type) where
  active : ℕ
  built : Building α H

def Lowering.rooted (l : Lowering α H) (root : ℕ) : Lowering α H :=
  { l with built := { l.built with root } }

def Lowering.register (l : Lowering α H) (id : ℕ)
    (fire : α → String → HostM H (Actions.Action α)) : HostM H (Lowering α H) := do
  let built ← checked (l.built.register l.active id fire)
  pure { l with built }

/-! ### Closing an element, once its children are built -/

def closeRow (host : Host H) (builder : ℕ) (props : Frame) (l : Lowering α H) :
    HostM H (Lowering α H) := do
  let root ← finishRow host builder props
  host.scopeExit
  pure (l.rooted root)

def closeColumn (host : Host H) (builder : ℕ) (props : Frame) (l : Lowering α H) :
    HostM H (Lowering α H) := do
  let root ← finishColumn host builder props
  host.scopeExit
  pure (l.rooted root)

def Lowering.keyedBy (l : Lowering α H) (props : Frame) : Lowering α H :=
  { l with built := { l.built with boundaries := { l.built.boundaries with
      active := { l.built.boundaries.active with keyed := some props } } } }

def closeKeyedColumn (host : Host H) (builder : ℕ) (props : Frame) (keys : List Key)
    (revision : ℕ) (l : Lowering α H) : HostM H (Lowering α H) := do
  let root ← finishColumn host builder props
  host.keyedSeed root revision keys
  let active := { l.built.boundaries.active with
    keyedContainer := root, keyedRevision := revision, keyedKeys := keys }
  host.scopeExit
  pure { l with built := { l.built with root, boundaries := { l.built.boundaries with active } } }

def closePanel (host : Host H) (builder : ℕ) (props : PanelNode) (l : Lowering α H) :
    HostM H (Lowering α H) := do
  let root ← finishPanel host builder props
  host.scopeExit
  pure (l.rooted root)

def closeDialog (host : Host H) (builder : ℕ) (props : DialogNode α) (l : Lowering α H) :
    HostM H (Lowering α H) := do
  let root ← finishDialog host builder props
  let l ← (l.rooted root).register root fun current _ => pure (props.onDismiss current ())
  host.scopeExit
  pure l

def closePopover (host : Host H) (builder : ℕ) (props : PopoverNode α) (l : Lowering α H) :
    HostM H (Lowering α H) := do
  let ids ← finishPopover host builder props
  let l := l.rooted ids.id
  let hovered := fun handler current _ => pure (handler current ())
  let built ← checked (hoverRoute l.active ids.hoverEnter props.onHoverEnter hovered l.built)
  let built ← checked (hoverRoute l.active ids.hoverExit props.onHoverExit hovered built)
  let l := { l with built }
  let l ←
    if !props.shortcuts.isEmpty then
      l.register ids.shortcut fun current _ =>
        shortcutFired host (props.shortcuts.map (·.toShortcut))
          "host named a shortcut the region does not declare" current
    else pure l
  host.scopeExit
  pure l

def closeSplit (host : Host H) (builder : ℕ) (props : SplitNode α) (l : Lowering α H) :
    HostM H (Lowering α H) := do
  let ids ← finishSplit host builder props
  let l ← (l.rooted ids.id).register ids.id fun current _ => do
    pure (props.onResize current (← host.resizeEvent))
  let l ←
    if !props.keys.isEmpty then
      l.register ids.shortcut fun current _ =>
        shortcutFired host props.keys "host named a key the divider does not declare" current
    else pure l
  host.scopeExit
  pure l

def closeDropTarget (host : Host H) (builder : ℕ) (props : DropTargetNode α)
    (l : Lowering α H) : HostM H (Lowering α H) := do
  let root ← finishDropTarget host builder props
  let l ← (l.rooted root).register root fun current _ => do
    pure (props.onDrop current (← dropEvent host))
  host.scopeExit
  pure l

def closeScroll (host : Host H) (axis : ScrollAxis) (label : String) (style : Style)
    (l : Lowering α H) : HostM H (Lowering α H) := do
  let root ← finishScroll host l.built.root axis label style
  host.scopeExit
  pure (l.rooted root)

def closeList (host : Host H) (builder : ℕ) (props : VirtualListNode α (Elem α)) (first : ℕ)
    (l : Lowering α H) : HostM H (Lowering α H) := do
  let l ← match props.provider with
    | none => do
      let root ← finishList host builder props 0 0
      pure (l.rooted root)
    | some provider => do
      let root ← finishList host builder props first l.active
      (l.rooted root).register root fun current _ => rowsEvent host provider current
  host.scopeExit
  pure l

def openItem (host : Host H) (key : ℕ) : HostM H Unit := host.scopeEnter 7 (toString key) 0

def closeItem (host : Host H) (key : ℕ) (l : Lowering α H) : HostM H (Lowering α H) := do
  let root ← host.nodeVirtualItem key l.built.root
  host.scopeExit
  pure (l.rooted root)

def appendChild (host : Host H) (builder : ℕ) (l : Lowering α H) : HostM H (Lowering α H) := do
  host.childrenPush builder l.built.root
  pure l

/-- What a container starts with: its scope, and a builder for its children. -/
def openScope (host : Host H) (tag : ℕ) (label : String) (position : ℕ) : HostM H ℕ := do
  host.scopeEnter tag label position
  host.childrenBegin

def openPanel (host : Host H) (props : PanelNode) (position : ℕ) : HostM H ℕ := do
  let builder ← openScope host 3 props.label position
  panelHeading host builder props
  pure builder

/-- Enters a component that is not retained; its element is lowered next. -/
def enterComponent (host : Host H) (state : α) (owner : BoundaryInfo α) (l : Lowering α H) :
    HostM H (Prepared α H) := do
  host.componentEnter owner.key
  prepareRebuild host owner state l.built.routes l.built.boundaries.stored

def Prepared.lowering (owner : BoundaryInfo α) (prepared : Prepared α H) : Lowering α H :=
  ⟨owner.key, ⟨prepared.prepared, 0, prepared.routes⟩⟩

def closeBoundary (host : Host H) (state : α) (owner cleared : BoundaryInfo α)
    (parent : BuildingOwner) (l : Lowering α H) : HostM H (Lowering α H) := do
  let finished ← finishRebuild host owner cleared state l.built
  host.componentExit
  host.workStart 3
  pure ⟨parent.key, ⟨⟨finished.boundaries, parent⟩, finished.root, finished.routes⟩⟩

/-! ### The work stack -/

inductive LowerWork (α : Type) where
  | visit (elem : Elem α) (position : ℕ)
  | append (builder : ℕ)
  | closeRow (builder : ℕ) (props : Frame)
  | closeColumn (builder : ℕ) (props : Frame)
  | closeKeyedColumn (builder : ℕ) (props : Frame) (keys : List Key) (revision : ℕ)
  | closeDialog (builder : ℕ) (props : DialogNode α)
  | closePopover (builder : ℕ) (props : PopoverNode α)
  | closeSplit (builder : ℕ) (props : SplitNode α)
  | closeDropTarget (builder : ℕ) (props : DropTargetNode α)
  | closePanel (builder : ℕ) (props : PanelNode)
  | closeScroll (axis : ScrollAxis) (label : String) (style : Style)
  | closeList (builder : ℕ) (props : VirtualListNode α (Elem α)) (first : ℕ)
  | openItem (key : ℕ)
  | closeItem (key : ℕ)
  | closeBoundary (owner cleared : BoundaryInfo α) (parent : BuildingOwner)

abbrev Work (α : Type) := WorkStack (LowerWork α)

abbrev Going (α H : Type) := Next (LowerWork α) (Lowering α H) H Empty

/-- From the last child to the first, so that the first is on top. -/
def queueChildren (work : Work α) (children : List (Elem α)) (builder : ℕ) : Work α :=
  children.zipIdx.foldr (fun child work =>
    (work.push (.append builder)).push (.visit child.1 child.2)) work

def renderRows (renderRow : ℕ → Checked (Elem α)) (rowKey : ℕ → ℕ) (indices : List ℕ) :
    Checked (List (VirtualListItem (Elem α))) :=
  indices.foldrM (fun index rows => do return ⟨← renderRow index, rowKey index⟩ :: rows) []

def queueItem (builder key : ℕ) (content : Elem α) (work : Work α) : Work α :=
  (((work.push (.append builder)).push (.closeItem key)).push (.visit content 0)).push
    (.openItem key)

def visitElem (host : Host H) (state : α) (elem : Elem α) (position : ℕ) (work : Work α)
    (l : Lowering α H) : HostM H (Going α H) :=
  match elem with
  | .row children props => do
    let builder ← openScope host 1 props.label position
    pure (.go (queueChildren (work.push (.closeRow builder props)) children builder) l)
  | .column children props => do
    let builder ← openScope host 2 props.label position
    pure (.go (queueChildren (work.push (.closeColumn builder props)) children builder) l)
  | .keyedColumn _ _ fullChildren fullKeys _ _ props revision => do
    let l := l.keyedBy props
    let builder ← openScope host 2 props.label position
    pure (.go (queueChildren (work.push (.closeKeyedColumn builder props fullKeys revision))
      fullChildren builder) l)
  | .dialog children props => do
    let builder ← openScope host 4 props.label position
    pure (.go (queueChildren (work.push (.closeDialog builder props)) children builder) l)
  | .popover children props => do
    let builder ← openScope host 8 props.label position
    pure (.go (queueChildren (work.push (.closePopover builder props)) children builder) l)
  | .split children props => do
    let builder ← openScope host 9 props.label position
    pure (.go (queueChildren (work.push (.closeSplit builder props)) children builder) l)
  | .dropTarget children props => do
    let builder ← openScope host 10 props.label position
    pure (.go (queueChildren (work.push (.closeDropTarget builder props)) children builder) l)
  | .panel children props => do
    let builder ← openPanel host props position
    pure (.go (queueChildren (work.push (.closePanel builder props)) children builder) l)
  | .scroll axis content label style => do
    host.scopeEnter 5 label position
    pure (.go ((work.push (.closeScroll axis label style)).push (.visit content 0)) l)
  | .virtualList list => do
    let builder ← openScope host 6 list.label position
    let shell := { list with items := [] }
    match list.provider with
    | none =>
      let work := work.push (.closeList builder shell 0)
      pure (.go (list.items.foldr (fun row => queueItem builder row.key row.content) work) l)
    | some provider => do
      let window ← rowsWindow host provider list.rowHeight l.active
      let work := work.push (.closeList builder shell window.1)
      let rows ← checked (renderRows provider.renderRow provider.rowKey
        (List.range' window.1 (window.2 - window.1)))
      pure (.go (rows.foldr (fun row => queueItem builder row.key row.content) work) l)
  | .component bound =>
    pure (.suspend do
      match ← prepareComponent host bound state l.active l.built with
      | .retained built => pure (work, { l with built })
      | .descend owner parent => do
        let prepared ← enterComponent host state owner l
        pure ((work.push (.closeBoundary owner prepared.cleared parent)).push
          (.visit prepared.rendered 0), Prepared.lowering owner prepared))
  | leaf => do
    let built ← lowerLeaf host leaf l.active l.built
    pure (.go work { l with built })

def lowerFrame (host : Host H) (state : α) (item : LowerWork α) (work : Work α)
    (l : Lowering α H) : HostM H (Going α H) :=
  let after := fun (m : HostM H (Lowering α H)) => m >>= fun l => pure (Next.go work l)
  match item with
  | .visit elem position => visitElem host state elem position work l
  | .append builder => after (appendChild host builder l)
  | .closeRow builder props => after (closeRow host builder props l)
  | .closeColumn builder props => after (closeColumn host builder props l)
  | .closeKeyedColumn builder props keys revision =>
    after (closeKeyedColumn host builder props keys revision l)
  | .closeDialog builder props => after (closeDialog host builder props l)
  | .closePopover builder props => after (closePopover host builder props l)
  | .closeSplit builder props => after (closeSplit host builder props l)
  | .closeDropTarget builder props => after (closeDropTarget host builder props l)
  | .closePanel builder props => after (closePanel host builder props l)
  | .closeScroll axis label style => after (closeScroll host axis label style l)
  | .closeList builder props first => after (closeList host builder props first l)
  | .openItem key => after (openItem host key >>= fun _ => pure l)
  | .closeItem key => after (closeItem host key l)
  | .closeBoundary owner cleared parent =>
    pure (.suspend do
      let l ← closeBoundary host state owner cleared parent l
      pure (work, l))

/-- `lower_work!` until the stack is empty, in slices of the given budgets. -/
def lowerWork (host : Host H) (state : α) (budget : ℕ → ℕ+) (turns : ℕ) (work : Work α)
    (l : Lowering α H) : HostM H (Option (Lowering α H)) :=
  drive (lowerFrame host state) budget turns work l

/-- `lower!`. -/
def lower (host : Host H) (state : α) (budget : ℕ → ℕ+) (turns : ℕ) (elem : Elem α)
    (position : ℕ) (l : Lowering α H) : HostM H (Option (Lowering α H)) :=
  lowerWork host state budget turns (WorkStack.empty.push (.visit elem position)) (l.rooted 0)

/-! ### Lowering by recursion -/

mutual

/-- An element is closed after its children are lowered, each appended in order. -/
def lowered (host : Host H) (state : α) :
    Elem α → ℕ → Lowering α H → HostM H (Lowering α H)
  | .row children props, position, l => do
    let builder ← openScope host 1 props.label position
    let l ← loweredChildren host state children 0 builder l
    closeRow host builder props l
  | .column children props, position, l => do
    let builder ← openScope host 2 props.label position
    let l ← loweredChildren host state children 0 builder l
    closeColumn host builder props l
  | .keyedColumn _ _ fullChildren fullKeys _ _ props revision, position, l => do
    let builder ← openScope host 2 props.label position
    let l ← loweredChildren host state fullChildren 0 builder (l.keyedBy props)
    closeKeyedColumn host builder props fullKeys revision l
  | .dialog children props, position, l => do
    let builder ← openScope host 4 props.label position
    let l ← loweredChildren host state children 0 builder l
    closeDialog host builder props l
  | .popover children props, position, l => do
    let builder ← openScope host 8 props.label position
    let l ← loweredChildren host state children 0 builder l
    closePopover host builder props l
  | .split children props, position, l => do
    let builder ← openScope host 9 props.label position
    let l ← loweredChildren host state children 0 builder l
    closeSplit host builder props l
  | .dropTarget children props, position, l => do
    let builder ← openScope host 10 props.label position
    let l ← loweredChildren host state children 0 builder l
    closeDropTarget host builder props l
  | .panel children props, position, l => do
    let builder ← openPanel host props position
    let l ← loweredChildren host state children 0 builder l
    closePanel host builder props l
  | .scroll axis content label style, position, l => do
    host.scopeEnter 5 label position
    let l ← lowered host state content 0 l
    closeScroll host axis label style l
  | .virtualList list, position, l => loweredList host state list position l
  | .component bound, _, l => loweredComponent host state bound l
  | leaf, _, l => do
    let built ← lowerLeaf host leaf l.active l.built
    pure { l with built }

def loweredChildren (host : Host H) (state : α) :
    List (Elem α) → ℕ → ℕ → Lowering α H → HostM H (Lowering α H)
  | [], _, _, l => pure l
  | child :: children, position, builder, l => do
    let l ← lowered host state child position l
    let l ← appendChild host builder l
    loweredChildren host state children (position + 1) builder l

def loweredList (host : Host H) (state : α) :
    VirtualListNode α (Elem α) → ℕ → Lowering α H → HostM H (Lowering α H)
  | ⟨items, label, rowHeight, rowGap, style, none⟩, position, l => do
    let builder ← openScope host 6 label position
    let l ← loweredItems host state items builder l
    closeList host builder ⟨[], label, rowHeight, rowGap, style, none⟩ 0 l
  | ⟨_, label, rowHeight, rowGap, style, some provider⟩, position, l => do
    let builder ← openScope host 6 label position
    let window ← rowsWindow host provider rowHeight l.active
    let rows := List.range' window.1 (window.2 - window.1)
    let l ← loweredRows host state provider rows builder l
    closeList host builder ⟨[], label, rowHeight, rowGap, style, some provider⟩ window.1 l

def loweredItems (host : Host H) (state : α) :
    List (VirtualListItem (Elem α)) → ℕ → Lowering α H → HostM H (Lowering α H)
  | [], _, l => pure l
  | row :: rows, builder, l => do
    let l ← loweredItem host state row builder l
    loweredItems host state rows builder l

def loweredItem (host : Host H) (state : α) :
    VirtualListItem (Elem α) → ℕ → Lowering α H → HostM H (Lowering α H)
  | ⟨content, key⟩, builder, l => do
    openItem host key
    let l ← lowered host state content 0 l
    let l ← closeItem host key l
    appendChild host builder l

/-- The rows that the host named, all of which are rendered first. -/
def loweredRows (host : Host H) (state : α) :
    RowProvider α (Elem α) → List ℕ → ℕ → Lowering α H → HostM H (Lowering α H)
  | ⟨_, renderRow, rowKey, _, _⟩, indices, builder, l => do
    let _ ← checked (renderRows renderRow rowKey indices)
    indices.foldlM (fun l index => do
      openItem host (rowKey index)
      let l ← loweredRun host state (renderRow index) 0 l
      let l ← closeItem host (rowKey index) l
      appendChild host builder l) l

def loweredRun (host : Host H) (state : α) :
    Except (Failure Empty) (Elem α) → ℕ → Lowering α H → HostM H (Lowering α H)
  | .error failure, _, _ => checked (.error failure)
  | .ok elem, position, l => lowered host state elem position l

def loweredComponent (host : Host H) (state : α) :
    BoundComponent α (Elem α) → Lowering α H → HostM H (Lowering α H)
  | ⟨key, render, present, remember, transparent⟩, l => do
    let bound : BoundComponent α (Elem α) := ⟨key, render, present, remember, transparent⟩
    match ← prepareComponent host bound state l.active l.built with
    | .retained built => pure { l with built }
    | .descend owner parent => do
      let prepared ← enterComponent host state owner l
      let l ← loweredRun host state (render state) 0 (Prepared.lowering owner prepared)
      closeBoundary host state owner prepared.cleared parent l

end

end Lowerings
