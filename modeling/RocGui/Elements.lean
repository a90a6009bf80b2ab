import RocGui.Actions
import RocGui.KeyedFallbacks
import RocGui.Styles

/-! Element trees: what an application renders, with the handlers of its events. -/
namespace Elements

open Actions KeyedFallbacks Methods Styles

/-! ### Events -/

abbrev Press := Unit
abbrev Hover := Unit
abbrev Dismiss := Unit

structure Check where
  checked : Bool

structure TextEdit where
  value : String

inductive PointerPhase where
  | begin
  | move
  | end

structure CanvasPointer where
  phase : PointerPhase
  x : ℤ
  y : ℤ
  target : Option ℕ

inductive HoverPhase where
  | move
  | leave

structure CanvasHover where
  phase : HoverPhase
  x : ℤ
  y : ℤ
  target : Option ℕ

structure CanvasWheel where
  x : ℤ
  y : ℤ
  dx : ℤ
  dy : ℤ
  target : Option ℕ

structure CanvasSize where
  width : ℕ
  height : ℕ

structure KeyPress where
  keys : String

structure VisibleRows where
  start : ℕ
  stop : ℕ

structure Resize where
  size : ℕ
  collapsed : Bool

inductive RefusedReason where
  | accessDenied
  | notFile
  | unavailable
  | unsupported

structure DroppedFile where
  name : String
  file : ℕ

structure RefusedItem where
  name : String
  reason : RefusedReason

structure Drop where
  files : List DroppedFile
  refused : List RefusedItem

/-! ### Nodes -/

structure Frame where
  label : String
  style : Style

section Handled

variable (α : Type)

structure DialogNode where
  label : String
  style : Style
  onDismiss : α → Dismiss → Action α

inductive Placement where
  | below
  | above
  | start
  | end

inductive Scope where
  | window
  | focus

structure Shortcut where
  keys : String
  onPress : α → KeyPress → Action α

structure Binding extends Shortcut α where
  scope : Scope

structure PopoverNode where
  label : String
  placement : Placement
  delayMs : ℕ
  onHoverEnter : Option (α → Hover → Action α)
  onHoverExit : Option (α → Hover → Action α)
  shortcuts : List (Binding α)
  focusSerial : ℕ
  style : Style

structure PanelNode where
  label : String
  style : Style
  heading : String
  headingSize : ℕ
  headingWeight : ℕ
  headingColor : Color

inductive ButtonRole where
  | button
  | tab
  | selectedTab

structure ButtonNode where
  caption : String
  label : String
  role : ButtonRole
  enabled : Bool
  onPress : α → Press → Action α
  onHoverEnter : Option (α → Hover → Action α)
  onHoverExit : Option (α → Hover → Action α)
  style : Style

inductive SplitAxis where
  | horizontal
  | vertical

inductive SplitSide where
  | start
  | end

structure SplitNode where
  label : String
  axis : SplitAxis
  side : SplitSide
  size : ℕ
  min : ℕ
  max : ℕ
  collapsible : Bool
  collapsed : Bool
  thickness : ℕ
  onResize : α → Resize → Action α
  keys : List (Shortcut α)
  style : Style

structure FileType where
  label : String
  extensions : List String
  mimeTypes : List String

structure DropTargetNode where
  label : String
  types : List FileType
  onDrop : α → Drop → Action α
  dropBg : Color
  dropBorder : Color
  style : Style

structure TextInputNode where
  label : String
  value : String
  placeholder : String
  enabled : Bool
  onChange : α → TextEdit → Action α
  onSubmit : α → TextEdit → Action α
  style : Style

inductive ScrollAxis where
  | both
  | horizontal
  | vertical

inductive RowAlign where
  | start
  | center
  | end
  | nearest

structure ScrollRequest where
  row : ℕ
  align : RowAlign
  serial : ℕ

structure CheckboxNode where
  label : String
  checked : Bool
  enabled : Bool
  onChange : α → Check → Action α
  boxBg : Color
  boxCheckedBg : Color
  boxBorder : Color
  markColor : Color
  style : Style

structure TextareaNode where
  label : String
  value : String
  placeholder : String
  enabled : Bool
  readOnly : Bool
  onInput : α → TextEdit → Action α
  style : Style

inductive ImageFormat where
  | bmp
  | gif
  | jpeg
  | png
  | svg
  | tiff
  | webp

inductive ImageFit where
  | contain
  | cover
  | fill
  | none
  | scaleDown

structure ImageNode where
  label : String
  bytes : List UInt8
  format : ImageFormat
  fit : ImageFit
  grayscale : Bool
  style : Style

inductive TextAlign where
  | start
  | center
  | end

inductive CanvasPrimitive where
  | ellipse (key : ℕ) (label : String) (x y : ℤ) (width height : ℕ) (fill stroke : Color)
      (strokeWidth : ℕ)
  | line (key : ℕ) (label : String) (x1 y1 x2 y2 : ℤ) (stroke : Color) (strokeWidth : ℕ)
  | rectangle (key : ℕ) (label : String) (x y : ℤ) (width height : ℕ) (fill stroke : Color)
      (strokeWidth radius : ℕ)
  | text (key : ℕ) (label : String) (x y : ℤ) (width : ℕ) (value : String) (color : Color)
      (size : ℕ) (align : TextAlign)

structure CanvasNode where
  label : String
  primitives : List CanvasPrimitive
  onPointer : α → CanvasPointer → Action α
  onHover : Option (α → CanvasHover → Action α)
  onWheel : Option (α → CanvasWheel → Action α)
  onSize : Option (α → CanvasSize → Action α)
  style : Style

structure TextSpan where
  text : String
  fg : Color
  bg : Color
  fontWeight : ℕ
  underline : Bool
  monospace : Bool

structure TextNode where
  value : String
  style : Style
  spans : List TextSpan

structure ChordNode where
  keys : String
  style : Style

end Handled

/-! ### Trees

`ε` stands for the elements themselves. -/

section Nested

variable (α ε : Type)

/-- The work of a boundary's functions is in direct style, and may crash: `remember` takes a
snapshot and answers the comparison with it. -/
structure BoundComponent where
  key : Option Key
  render : α → Except (Failure Empty) ε
  «exists» : α → Except (Failure Empty) Bool
  remember : Option (α → Except (Failure Empty) (α → Except (Failure Empty) Bool))
  transparent : Bool

structure VirtualListItem where
  content : ε
  key : ℕ

structure RowProvider where
  count : ℕ
  renderRow : ℕ → Except (Failure Empty) ε
  rowKey : ℕ → ℕ
  scrollTo : Option ScrollRequest
  onRange : Option (α → VisibleRows → Action α)

structure VirtualListNode where
  items : List (VirtualListItem ε)
  label : String
  rowHeight : ℕ
  rowGap : ℕ
  style : Style
  provider : Option (RowProvider α ε)

end Nested

inductive KeyedOperation where
  | insert (key : Key) (before : Option Key)
  | move (key : Key) (before : Option Key)
  | remove (key : Key)
  | set (key : Key)

inductive Elem (α : Type) where
  | component (bound : BoundComponent α (Elem α))
  | actionButton (button : ButtonNode α)
  | checkbox (checkbox : CheckboxNode α)
  | textarea (textarea : TextareaNode α)
  | image (image : ImageNode)
  | canvas (canvas : CanvasNode α)
  | column (children : List (Elem α)) (props : Frame)
  | keyedColumn (baseRevision : ℕ) (children : List (Elem α)) (fullChildren : List (Elem α))
      (fullKeys : List Key) (keys : List Key) (operations : List KeyedOperation) (props : Frame)
      (revision : ℕ)
  | dialog (children : List (Elem α)) (props : DialogNode α)
  | popover (children : List (Elem α)) (props : PopoverNode α)
  | panel (children : List (Elem α)) (props : PanelNode)
  | row (children : List (Elem α)) (props : Frame)
  | scroll (axis : ScrollAxis) (content : Elem α) (label : String) (style : Style)
  | virtualList (list : VirtualListNode α (Elem α))
  | textInput (input : TextInputNode α)
  | split (children : List (Elem α)) (props : SplitNode α)
  | dropTarget (children : List (Elem α)) (props : DropTargetNode α)
  | styledText (text : TextNode)
  | chord (chord : ChordNode)
  | text (value : String)

end Elements
