import RocGui.Elements

/-! The native host as the runtime sees it: an arbitrary state, and the calls that change it. -/
namespace Hosts

open Elements KeyedFallbacks Methods Styles

/-- Effects on a host of states `H`; a crash or a host's failure ends them where they are. -/
abbrev HostM (H : Type) := Method H Empty

def checked {H α : Type} (r : Checked α) : HostM H α := MonadExcept.ofExcept r

def ensure {H : Type} (c : Prop) [Decidable c] (message : String) : HostM H Unit :=
  if c then pure () else panics message

/-! ### Arguments -/

structure Run where
  len : ℕ
  fg : ℕ
  bg : ℕ
  fontWeight : ℕ
  underline : Bool
  monospace : Bool

structure StyledTextArgs where
  value : String
  fg : ℕ
  fontSize : ℕ
  fontWeight : ℕ
  fontFace : ℕ
  runs : List Run

structure ChordArgs where
  keys : String
  fg : ℕ
  fontSize : ℕ
  fontWeight : ℕ
  fontFace : ℕ

structure ContainerArgs where
  builder : ℕ
  label : String
  style : StyleArgs

structure ShortcutArgs where
  keys : String
  focus : Bool

structure PopoverArgs where
  builder : ℕ
  label : String
  placement : ℕ
  delayMs : ℕ
  hoverEnter : Bool
  hoverExit : Bool
  shortcuts : List ShortcutArgs
  focusSerial : ℕ
  style : StyleArgs

structure SplitArgs where
  builder : ℕ
  label : String
  axis : ℕ
  side : ℕ
  size : ℕ
  min : ℕ
  max : ℕ
  collapsible : Bool
  collapsed : Bool
  thickness : ℕ
  keys : List ShortcutArgs
  style : StyleArgs

structure DropTargetArgs where
  builder : ℕ
  label : String
  types : List FileType
  dropBg : ℕ
  dropBorder : ℕ
  style : StyleArgs

structure ScrollArgs where
  axis : ℕ
  child : ℕ
  name : String
  style : StyleArgs

structure VirtualListArgs where
  builder : ℕ
  count : ℕ
  first : ℕ
  «instance» : ℕ
  notify : Bool
  name : String
  rowHeight : ℕ
  rowGap : ℕ
  style : StyleArgs

structure ButtonArgs where
  caption : String
  label : String
  role : ℕ
  enabled : Bool
  hoverEnter : Bool
  hoverExit : Bool
  style : StyleArgs

structure CheckboxArgs where
  label : String
  checked : Bool
  enabled : Bool
  boxBg : ℕ
  boxCheckedBg : ℕ
  boxBorder : ℕ
  markColor : ℕ
  style : StyleArgs

structure TextareaArgs where
  label : String
  value : String
  placeholder : String
  enabled : Bool
  readOnly : Bool
  style : StyleArgs

structure ImageArgs where
  label : String
  bytes : List UInt8
  format : ℕ
  fit : ℕ
  grayscale : Bool
  style : StyleArgs

structure PrimitiveArgs where
  kind : ℕ
  key : ℕ
  label : String
  x : ℤ
  y : ℤ
  width : ℕ
  height : ℕ
  x2 : ℤ
  y2 : ℤ
  fill : ℕ
  stroke : ℕ
  strokeWidth : ℕ
  radius : ℕ
  text : String
  textSize : ℕ
  align : ℕ

structure CanvasArgs where
  label : String
  primitives : List PrimitiveArgs
  widthKind : ℕ
  width : ℕ
  heightKind : ℕ
  height : ℕ
  grow : Bool
  bg : ℕ
  borderColor : ℕ
  borderWidth : ℕ
  radius : ℕ
  hover : Bool
  wheel : Bool
  size : Bool

structure TextInputArgs where
  label : String
  value : String
  placeholder : String
  enabled : Bool
  style : StyleArgs

structure WindowArgs where
  «instance» : ℕ
  count : ℕ
  rowHeight : ℕ
  scrollRow : ℕ
  scrollAlign : ℕ
  scrollSerial : ℕ

/-! ### Answers -/

structure PopoverIds where
  id : ℕ
  hoverEnter : ℕ
  hoverExit : ℕ
  shortcut : ℕ

structure SplitIds where
  id : ℕ
  shortcut : ℕ

structure ButtonIds where
  id : ℕ
  hoverEnter : ℕ
  hoverExit : ℕ

structure TextInputIds where
  change : ℕ
  id : ℕ
  submit : ℕ

structure Resolved where
  «instance» : ℕ
  root : ℕ

structure RowsEvent where
  refresh : Bool
  report : Bool
  start : ℕ
  stop : ℕ

structure CanvasEvent where
  phase : ℕ
  x : ℤ
  y : ℤ
  dx : ℤ
  dy : ℤ
  target : ℕ

structure ShortcutEvent where
  index : ℕ
  keys : String

structure DropEvent where
  files : List DroppedFile
  refused : List (String × ℕ)

structure Host (H : Type) where
  nodeText : String → HostM H ℕ
  nodeStyledText : StyledTextArgs → HostM H ℕ
  nodeChord : ChordArgs → HostM H ℕ
  childrenBegin : HostM H ℕ
  childrenPush : ℕ → ℕ → HostM H Unit
  keyedSeed : ℕ → ℕ → List Key → HostM H Unit
  componentWork : ℕ → ℕ → HostM H Unit
  nodeBoundary : ℕ → ℕ → HostM H ℕ
  retainSubtree : ℕ → HostM H ℕ
  scopeEnter : ℕ → String → ℕ → HostM H Unit
  scopeExit : HostM H Unit
  componentResolve : ℕ → List UInt8 → HostM H Resolved
  componentEnter : ℕ → HostM H Unit
  componentExit : HostM H Unit
  nodeRow : ContainerArgs → HostM H ℕ
  nodeColumn : ContainerArgs → HostM H ℕ
  nodeDialog : ContainerArgs → HostM H ℕ
  nodePanel : ContainerArgs → HostM H ℕ
  nodePopover : PopoverArgs → HostM H PopoverIds
  nodeSplit : SplitArgs → HostM H SplitIds
  nodeDropTarget : DropTargetArgs → HostM H ℕ
  nodeScroll : ScrollArgs → HostM H ℕ
  nodeVirtualItem : ℕ → ℕ → HostM H ℕ
  nodeVirtualList : VirtualListArgs → HostM H ℕ
  nodeActionButton : ButtonArgs → HostM H ButtonIds
  nodeCheckbox : CheckboxArgs → HostM H ℕ
  nodeTextarea : TextareaArgs → HostM H ℕ
  nodeImage : ImageArgs → HostM H ℕ
  nodeCanvas : CanvasArgs → HostM H ℕ
  nodeTextInput : TextInputArgs → HostM H TextInputIds
  virtualWindow : WindowArgs → HostM H (ℕ × ℕ)
  virtualRowsEvent : HostM H RowsEvent
  canvasEvent : HostM H CanvasEvent
  shortcutEvent : HostM H ShortcutEvent
  resizeEvent : HostM H Resize
  dropEvent : HostM H DropEvent
  workStart : ℕ → HostM H Unit
  workEnd : ℕ → HostM H Unit

end Hosts
